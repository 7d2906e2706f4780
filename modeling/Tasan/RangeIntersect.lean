import Tasan.Sorting.HeapSort

/-!
# The intersection of ranges

`Intersect` of `sanitizer_range.cpp` sweeps over the ends of the ranges in the order of their addresses,
with a counter for each of the two families. Among events at one address the counters may be wrong in
between, even negative, since the order of these is open; but they are looked at only when the address
changes, and then each is the number of the ranges of its family that hold the addresses from the last
event on (`total_events`). The invariant of the sweep (`Swept`) says that the output holds the addresses
before the last event for which both numbers are not zero.
-/

namespace Tasan.RangeIntersect

open Sorting

/-- `Range`. -/
structure Range where
  /-- The first address. -/
  begin : ℕ
  /-- The address after the last one. -/
  «end» : ℕ

/-- The range holds an address. -/
def Range.Holds (r : Range) (x : ℕ) : Prop := r.begin ≤ x ∧ x < r.«end»

instance (r : Range) (x : ℕ) : Decidable (r.Holds x) :=
  inferInstanceAs (Decidable (r.begin ≤ x ∧ x < r.«end»))

/-- `Event`. -/
structure Event where
  /-- The address. -/
  val : ℕ
  /-- What it adds to the first counter. -/
  diff1 : ℤ
  /-- What it adds to the second counter. -/
  diff2 : ℤ
  deriving Inhabited

/-- The events of the ranges, in the order of `push_back`. -/
def events (a b : List Range) : List Event :=
  a.flatMap (fun r => [⟨r.begin, 1, 0⟩, ⟨r.«end», -1, 0⟩]) ++
    b.flatMap fun r => [⟨r.begin, 0, 1⟩, ⟨r.«end», 0, -1⟩]

/-- What the sweep keeps. -/
structure Sweep where
  /-- The address of the last event. -/
  start : ℕ
  /-- The first counter. -/
  state1 : ℤ
  /-- The second counter. -/
  state2 : ℤ
  /-- The output. -/
  output : List Range

/-- The piece from `start` to `val` is put into the output. -/
def pushPiece (output : List Range) (start val : ℕ) : List Range :=
  match output.getLast? with
  | some back =>
    if start = back.«end» then output.dropLast ++ [{ back with «end» := val }]
    else output ++ [⟨start, val⟩]
  | none => output ++ [⟨start, val⟩]

/-- One turn of the sweep; `none` is a failed `DCHECK`. -/
def sweepStep (s : Sweep) (e : Event) : Option Sweep :=
  if e.val ≠ s.start then
    if 0 ≤ s.state1 ∧ 0 ≤ s.state2 then
      some
        { start := e.val
          state1 := s.state1 + e.diff1
          state2 := s.state2 + e.diff2
          output := if s.state1 ≠ 0 ∧ s.state2 ≠ 0 then pushPiece s.output s.start e.val
            else s.output }
    else none
  else some { s with state1 := s.state1 + e.diff1, state2 := s.state2 + e.diff2 }

/-- The sweep over the sorted events. -/
def sweep (es : List Event) : Option (List Range) :=
  (es.foldlM sweepStep ⟨0, 0, 0, []⟩).map Sweep.output

/-- `Intersect`; `none` is a failed check. -/
def intersect (a b : List Range) : Option (List Range) :=
  if (∀ r ∈ a, r.begin ≤ r.«end») ∧ ∀ r ∈ b, r.begin ≤ r.«end» then
    sweep (sortList (fun lh rh => lh.val < rh.val) (events a b))
  else none

/-! ## The counters -/

/-- What the events up to an address add to a counter. -/
def total (diff : Event → ℤ) (es : List Event) (x : ℕ) : ℤ :=
  ((es.filter fun e => e.val ≤ x).map diff).sum

/-- The events of one family count the ranges that hold an address. -/
theorem total_flatMap (diff : Event → ℤ) (d1 d2 : ℤ) {a : List Range}
    (ha : ∀ r ∈ a, r.begin ≤ r.«end») (x : ℕ) (hdiff : ∀ v, diff ⟨v, -d1, -d2⟩ = -diff ⟨v, d1, d2⟩)
    (hval : ∀ v v', diff ⟨v, d1, d2⟩ = diff ⟨v', d1, d2⟩) :
    total diff (a.flatMap fun r => [⟨r.begin, d1, d2⟩, ⟨r.«end», -d1, -d2⟩]) x =
      a.countP (fun r => r.Holds x) * diff ⟨0, d1, d2⟩ := by
  induction a with
  | nil => simp [total]
  | cons r a ih =>
    have hr := ha r List.mem_cons_self
    have ih := ih fun s hs => ha s (List.mem_cons_of_mem r hs)
    unfold total at ih ⊢
    rw [List.flatMap_cons, List.filter_append, List.map_append, List.sum_append, ih,
      List.countP_cons, Nat.cast_add, add_mul, add_comm]
    congr 1
    -- Both ends, the first one alone, or none of them are events up to `x`.
    rcases lt_or_ge x r.begin with hlt | hge
    · have hnot : ¬ r.Holds x := fun h => absurd h.1 (not_le.mpr hlt)
      have h1 : ¬ r.begin ≤ x := not_le.mpr hlt
      have h2 : ¬ r.«end» ≤ x := by omega
      simp [hnot, h1, h2]
    · rcases lt_or_ge x r.«end» with hlt' | hge'
      · have hyes : r.Holds x := ⟨hge, hlt'⟩
        have h2 : ¬ r.«end» ≤ x := not_le.mpr hlt'
        simp [hyes, hge, h2, hval r.begin 0]
      · have hnot : ¬ r.Holds x := fun h => absurd h.2 (not_lt.mpr hge')
        simp [hnot, hge, hge', hdiff, hval r.begin r.«end»]

theorem total_flatMap_zero (diff : Event → ℤ) (d1 d2 : ℤ) (a : List Range) (x : ℕ)
    (hdiff : ∀ v, diff ⟨v, d1, d2⟩ = 0 ∧ diff ⟨v, -d1, -d2⟩ = 0) :
    total diff (a.flatMap fun r => [⟨r.begin, d1, d2⟩, ⟨r.«end», -d1, -d2⟩]) x = 0 := by
  refine List.sum_eq_zero fun z hz => ?_
  obtain ⟨e, he, rfl⟩ := List.mem_map.mp hz
  obtain ⟨r, -, hr⟩ := List.mem_flatMap.mp (List.mem_filter.mp he).1
  simp only [List.mem_cons, List.not_mem_nil, or_false] at hr
  rcases hr with rfl | rfl
  · exact (hdiff _).1
  · exact (hdiff _).2

theorem total_append (diff : Event → ℤ) (es es' : List Event) (x : ℕ) :
    total diff (es ++ es') x = total diff es x + total diff es' x := by
  unfold total
  rw [List.filter_append, List.map_append, List.sum_append]

theorem total_perm (diff : Event → ℤ) {es es' : List Event} (h : es.Perm es') (x : ℕ) :
    total diff es x = total diff es' x :=
  ((h.filter _).map diff).sum_eq

theorem total_events {a b : List Range} (ha : ∀ r ∈ a, r.begin ≤ r.«end»)
    (hb : ∀ r ∈ b, r.begin ≤ r.«end») {es : List Event} (hperm : es.Perm (events a b)) (x : ℕ) :
    total Event.diff1 es x = a.countP (fun r => r.Holds x) ∧
      total Event.diff2 es x = b.countP (fun r => r.Holds x) := by
  rw [total_perm _ hperm, total_perm _ hperm]
  unfold events
  constructor
  · have h1 := total_flatMap Event.diff1 1 0 ha x (fun _ => rfl) fun _ _ => rfl
    have h2 := total_flatMap_zero Event.diff1 0 1 b x fun _ => ⟨rfl, rfl⟩
    rw [total_append]
    exact (congrArg₂ (· + ·) h1 h2).trans (by simp)
  · have h1 := total_flatMap_zero Event.diff2 1 0 a x fun _ => ⟨rfl, rfl⟩
    have h2 := total_flatMap Event.diff2 0 1 hb x (fun _ => rfl) fun _ _ => rfl
    rw [total_append]
    exact (congrArg₂ (· + ·) h1 h2).trans (by simp)

/-! ## The output -/

/-- The pieces are not empty, and there is a gap between them. -/
structure Separated (output : List Range) : Prop where
  /-- No piece is empty. -/
  nonempty : ∀ r ∈ output, r.begin < r.«end»
  /-- They are strictly increasing, with a gap between any two. -/
  gap : output.Pairwise fun r r' => r.«end» < r'.begin

/-- A piece behind the others, which may be adjacent to the last one. -/
theorem pushPiece_spec {output : List Range} (h : Separated output) {start val : ℕ}
    (hend : ∀ r ∈ output, r.«end» ≤ start) (hlt : start < val) :
    Separated (pushPiece output start val) ∧ (∀ r ∈ pushPiece output start val, r.«end» ≤ val) ∧
      ∀ x, (∃ r ∈ pushPiece output start val, r.Holds x) ↔
        (∃ r ∈ output, r.Holds x) ∨ start ≤ x ∧ x < val := by
  have hnew : (∀ r ∈ output, r.«end» < start) → Separated (output ++ [⟨start, val⟩]) ∧
      (∀ r ∈ output ++ [⟨start, val⟩], r.«end» ≤ val) ∧
      ∀ x, (∃ r ∈ output ++ [⟨start, val⟩], r.Holds x) ↔
        (∃ r ∈ output, r.Holds x) ∨ start ≤ x ∧ x < val := by
    intro hbefore
    refine ⟨⟨fun r hr => ?_, ?_⟩, fun r hr => ?_, fun x => ?_⟩
    · rcases List.mem_append.mp hr with hr | hr
      · exact h.nonempty r hr
      · rw [List.mem_singleton.mp hr]
        exact hlt
    · rw [List.pairwise_append]
      refine ⟨h.gap, List.pairwise_singleton _ _, fun r hr r' hr' => ?_⟩
      rw [List.mem_singleton.mp hr']
      exact hbefore r hr
    · rcases List.mem_append.mp hr with hr | hr
      · exact (hend r hr).trans hlt.le
      · rw [List.mem_singleton.mp hr]
    · simp [or_and_right, exists_or, Range.Holds]
  unfold pushPiece
  cases hlast : output.getLast? with
  | none =>
    rw [List.getLast?_eq_none_iff] at hlast
    refine hnew fun r hr => ?_
    rw [hlast] at hr
    exact absurd hr List.not_mem_nil
  | some back =>
    obtain ⟨front, rfl⟩ := List.getLast?_eq_some_iff.mp hlast
    have hback : back ∈ front ++ [back] := List.mem_append_right _ List.mem_cons_self
    have hgap := h.gap
    rw [List.pairwise_append] at hgap
    obtain ⟨hfront, -, hcross⟩ := hgap
    have hbefore : ∀ r ∈ front, r.«end» < back.begin :=
      fun r hr => hcross r hr back List.mem_cons_self
    have hbackne := h.nonempty back hback
    dsimp only
    split_ifs with hadj
    · -- The last piece grows.
      rw [List.dropLast_concat]
      refine ⟨⟨fun r hr => ?_, ?_⟩, fun r hr => ?_, fun x => ?_⟩
      · rcases List.mem_append.mp hr with hr | hr
        · exact h.nonempty r (List.mem_append_left _ hr)
        · rw [List.mem_singleton.mp hr]
          dsimp only
          omega
      · rw [List.pairwise_append]
        refine ⟨hfront, List.pairwise_singleton _ _, fun r hr r' hr' => ?_⟩
        rw [List.mem_singleton.mp hr']
        exact hbefore r hr
      · rcases List.mem_append.mp hr with hr | hr
        · exact (hend r (List.mem_append_left _ hr)).trans hlt.le
        · rw [List.mem_singleton.mp hr]
      · simp only [List.mem_append, List.mem_singleton, or_and_right, exists_or, exists_eq_left,
          or_assoc]
        refine or_congr_right ?_
        unfold Range.Holds
        dsimp only
        omega
    · refine hnew fun r hr => ?_
      rcases List.mem_append.mp hr with hr' | hr'
      · have := hbefore r hr'
        have := hend back hback
        omega
      · rw [List.mem_singleton.mp hr']
        exact lt_of_le_of_ne (hend back hback) (Ne.symm hadj)

/-! ## The sweep -/

/-- The sweep has gone over the events `done` among the events `es`. -/
structure Swept (es done : List Event) (s : Sweep) : Prop where
  /-- The events that are done are at `start` or before it. -/
  le_start : ∀ e ∈ done, e.val ≤ s.start
  /-- `start` is the address of an event, or zero. -/
  start_mem : s.start = 0 ∨ ∃ e ∈ done, e.val = s.start
  /-- The first counter. -/
  state1 : s.state1 = (done.map Event.diff1).sum
  /-- The second counter. -/
  state2 : s.state2 = (done.map Event.diff2).sum
  /-- The pieces are separate. -/
  separated : Separated s.output
  /-- They are before `start`. -/
  end_le : ∀ r ∈ s.output, r.«end» ≤ s.start
  /-- They hold the addresses for which the counters are not zero. -/
  holds : ∀ x, (∃ r ∈ s.output, r.Holds x) ↔
    x < s.start ∧ total Event.diff1 es x ≠ 0 ∧ total Event.diff2 es x ≠ 0

theorem total_between (diff : Event → ℤ) {done todo : List Event} {x : ℕ}
    (hdone : ∀ e ∈ done, e.val ≤ x) (htodo : ∀ e ∈ todo, x < e.val) :
    total diff (done ++ todo) x = (done.map diff).sum := by
  have h1 : done.filter (fun e => e.val ≤ x) = done :=
    List.filter_eq_self.mpr fun e he => decide_eq_true (hdone e he)
  have h2 : todo.filter (fun e => e.val ≤ x) = [] :=
    List.filter_eq_nil_iff.mpr fun e he h => absurd (of_decide_eq_true h) (not_le.mpr (htodo e he))
  rw [total_append]
  unfold total
  rw [h1, h2, List.map_nil, List.sum_nil, add_zero]

/-- One turn of the sweep. -/
theorem Swept.step {done todo : List Event} {e : Event} {s : Sweep}
    (h : Swept (done ++ e :: todo) done s)
    (hsorted : (done ++ e :: todo).Pairwise fun e e' => e.val ≤ e'.val)
    (hnonneg : ∀ x, 0 ≤ total Event.diff1 (done ++ e :: todo) x ∧
      0 ≤ total Event.diff2 (done ++ e :: todo) x) :
    ∃ s', sweepStep s e = some s' ∧ Swept (done ++ e :: todo) (done ++ [e]) s' := by
  rw [List.pairwise_append, List.pairwise_cons] at hsorted
  obtain ⟨-, ⟨hafter, -⟩, hcross⟩ := hsorted
  -- The next event is not before the last one.
  have hle : s.start ≤ e.val := by
    rcases h.start_mem with h0 | ⟨e', he', hval⟩
    · omega
    · rw [← hval]
      exact hcross e' he' e List.mem_cons_self
  have hsum : ∀ diff : Event → ℤ, ((done ++ [e]).map diff).sum = (done.map diff).sum + diff e :=
    fun diff => by rw [List.map_append, List.sum_append, List.map_singleton, List.sum_singleton]
  unfold sweepStep
  by_cases hne : e.val = s.start
  · rw [if_neg (not_not.mpr hne)]
    refine ⟨_, rfl, fun e' he' => ?_, ?_, ?_, ?_, h.separated, h.end_le, h.holds⟩
    · rcases List.mem_append.mp he' with he' | he'
      · exact h.le_start e' he'
      · rw [List.mem_singleton.mp he', hne]
    · exact Or.inr ⟨e, List.mem_append_right _ List.mem_cons_self, hne⟩
    · rw [hsum, ← h.state1]
    · rw [hsum, ← h.state2]
  · have hlt : s.start < e.val := lt_of_le_of_ne hle (Ne.symm hne)
    -- The counters are those of the addresses from `start` on.
    have hbetween : ∀ (diff : Event → ℤ) x, s.start ≤ x → x < e.val →
        total diff (done ++ e :: todo) x = (done.map diff).sum := by
      intro diff x hx hxe
      refine total_between diff (fun e' he' => (h.le_start e' he').trans hx) fun e' he' => ?_
      rcases List.mem_cons.mp he' with rfl | he'
      · exact hxe
      · exact hxe.trans_le (hafter e' he')
    have h1 : ∀ x, s.start ≤ x → x < e.val → total Event.diff1 (done ++ e :: todo) x = s.state1 :=
      fun x hx hxe => by rw [hbetween _ x hx hxe, h.state1]
    have h2 : ∀ x, s.start ≤ x → x < e.val → total Event.diff2 (done ++ e :: todo) x = s.state2 :=
      fun x hx hxe => by rw [hbetween _ x hx hxe, h.state2]
    have hcounters : 0 ≤ s.state1 ∧ 0 ≤ s.state2 := by
      have := hnonneg s.start
      rwa [h1 s.start le_rfl hlt, h2 s.start le_rfl hlt] at this
    rw [if_pos hne, if_pos hcounters]
    have hle_val : ∀ e' ∈ done ++ [e], e'.val ≤ e.val := by
      intro e' he'
      rcases List.mem_append.mp he' with he' | he'
      · exact (h.le_start e' he').trans hle
      · rw [List.mem_singleton.mp he']
    have hmem : ∃ e' ∈ done ++ [e], e'.val = e.val :=
      ⟨e, List.mem_append_right _ List.mem_cons_self, rfl⟩
    have hcover : ∀ x, x < e.val ∧ total Event.diff1 (done ++ e :: todo) x ≠ 0 ∧
        total Event.diff2 (done ++ e :: todo) x ≠ 0 ↔
        (x < s.start ∧ total Event.diff1 (done ++ e :: todo) x ≠ 0 ∧
          total Event.diff2 (done ++ e :: todo) x ≠ 0) ∨
        (s.start ≤ x ∧ x < e.val) ∧ s.state1 ≠ 0 ∧ s.state2 ≠ 0 := by
      intro x
      rcases lt_or_ge x s.start with hx | hx
      · have hxe := hx.trans hlt
        have hnot := not_le.mpr hx
        tauto
      · rcases lt_or_ge x e.val with hxe | hxe
        · rw [h1 x hx hxe, h2 x hx hxe]
          have := not_lt.mpr hx
          tauto
        · have h3 := not_lt.mpr hx
          have h4 := not_lt.mpr hxe
          tauto
    obtain ⟨hsep, hend, hholds⟩ := pushPiece_spec h.separated h.end_le hlt
    by_cases hboth : s.state1 ≠ 0 ∧ s.state2 ≠ 0
    · rw [if_pos hboth]
      refine ⟨_, rfl, hle_val, Or.inr hmem, ?_, ?_, hsep, hend, fun x => ?_⟩
      · rw [hsum, ← h.state1]
      · rw [hsum, ← h.state2]
      · dsimp only
        rw [hholds, hcover, h.holds]
        exact or_congr_right (and_iff_left hboth).symm
    · rw [if_neg hboth]
      refine ⟨_, rfl, hle_val, Or.inr hmem, ?_, ?_, h.separated,
        fun r hr => (h.end_le r hr).trans hle, fun x => ?_⟩
      · rw [hsum, ← h.state1]
      · rw [hsum, ← h.state2]
      · dsimp only
        rw [hcover, h.holds]
        exact (or_iff_left fun h => hboth h.2).symm

theorem Swept.run {done todo : List Event} {s : Sweep} (h : Swept (done ++ todo) done s)
    (hsorted : (done ++ todo).Pairwise fun e e' => e.val ≤ e'.val)
    (hnonneg : ∀ x, 0 ≤ total Event.diff1 (done ++ todo) x ∧
      0 ≤ total Event.diff2 (done ++ todo) x) :
    ∃ s', todo.foldlM sweepStep s = some s' ∧ Swept (done ++ todo) (done ++ todo) s' := by
  induction todo generalizing done s with
  | nil =>
    rw [List.append_nil] at h ⊢
    exact ⟨s, rfl, h⟩
  | cons e todo ih =>
    obtain ⟨s₁, hstep, h₁⟩ := h.step hsorted hnonneg
    rw [List.append_cons] at h₁ hsorted hnonneg ⊢
    obtain ⟨s', hrun, hfinal⟩ := ih h₁ hsorted hnonneg
    exact ⟨s', by rw [List.foldlM_cons, hstep]; exact hrun, hfinal⟩

theorem strictWeakOrder_val : StrictWeakOrder (fun lh rh : Event => decide (lh.val < rh.val)) where
  irrefl a := decide_eq_false (lt_irrefl a.val)
  trans a b c hab hbc :=
    decide_eq_true ((of_decide_eq_true hab).trans (of_decide_eq_true hbc))
  incomp_trans a b c hab _ hbc _ := by
    have h1 := of_decide_eq_false hab
    have h2 := of_decide_eq_false hbc
    exact decide_eq_false (by omega)

/-- What `Intersect` promises. -/
structure Intersection (a b output : List Range) : Prop where
  /-- The ranges are not empty, strictly increasing, and there is a gap between them. -/
  separated : Separated output
  /-- An address is in one of them if and only if it is in a range of either family. -/
  holds : ∀ x, (∃ r ∈ output, r.Holds x) ↔ (∃ r ∈ a, r.Holds x) ∧ ∃ r ∈ b, r.Holds x

/-- The sweep over any list of the events that is sorted by their addresses. -/
theorem sweep_spec {a b : List Range} (ha : ∀ r ∈ a, r.begin ≤ r.«end»)
    (hb : ∀ r ∈ b, r.begin ≤ r.«end») (es : List Event) (hperm : es.Perm (events a b))
    (hsorted : es.Pairwise fun e e' => e.val ≤ e'.val) :
    ∃ output, sweep es = some output ∧ Intersection a b output := by
  have htotal := total_events ha hb hperm
  have hinit : Swept ([] ++ es) [] ⟨0, 0, 0, []⟩ :=
    ⟨nofun, Or.inl rfl, rfl, rfl, ⟨nofun, List.Pairwise.nil⟩, nofun,
      fun x => iff_of_false (fun ⟨_, hr, _⟩ => absurd hr List.not_mem_nil)
        fun h => absurd h.1 (Nat.not_lt_zero x)⟩
  obtain ⟨s, hrun, h⟩ := hinit.run hsorted fun x => by
    rw [List.nil_append, (htotal x).1, (htotal x).2]
    exact ⟨Int.natCast_nonneg _, Int.natCast_nonneg _⟩
  rw [List.nil_append] at h
  refine ⟨s.output, by unfold sweep; rw [hrun]; rfl, h.separated, fun x => ?_⟩
  have hcount : ∀ l : List Range, (l.countP (fun r => r.Holds x) : ℤ) ≠ 0 ↔ ∃ r ∈ l, r.Holds x := by
    intro l
    rw [Ne, Int.natCast_eq_zero, List.countP_eq_zero]
    simp
  rw [h.holds, (htotal x).1, (htotal x).2, hcount, hcount]
  refine ⟨fun hx => hx.2, fun hx => ⟨?_, hx⟩⟩
  -- The end of a range that holds the address is an event behind it.
  by_contra hge
  obtain ⟨⟨r, hr, hholds⟩, -⟩ := hx
  have hmem : (⟨r.«end», -1, 0⟩ : Event) ∈ events a b :=
    List.mem_append_left _ (List.mem_flatMap.mpr ⟨r, hr, by simp⟩)
  have hend := h.le_start _ (hperm.mem_iff.mpr hmem)
  have := hholds.2
  dsimp only at hend
  omega

/-- For every two families of ranges, and for every order of their events that is sorted by address:
`Intersect` returns ranges that are not empty, strictly increasing and have gaps between them, and that
hold the addresses that are in a range of either family; no check fails. -/
theorem intersect_spec {a b : List Range} (ha : ∀ r ∈ a, r.begin ≤ r.«end»)
    (hb : ∀ r ∈ b, r.begin ≤ r.«end») :
    (∃ output, intersect a b = some output ∧ Intersection a b output) ∧
    ∀ es : List Event, es.Perm (events a b) → (es.Pairwise fun e e' => e.val ≤ e'.val) →
      ∃ output, sweep es = some output ∧ Intersection a b output := by
  have hany := sweep_spec ha hb
  refine ⟨?_, fun es => hany es⟩
  unfold intersect
  rw [if_pos ⟨ha, hb⟩]
  refine hany _ (sortList_perm _ _) ((sortList_pairwise strictWeakOrder_val _).imp fun h => ?_)
  exact not_lt.mp (of_decide_eq_false h)

/-- Two ranges that overlap twice, one of them empty and at zero. -/
theorem intersect_spec_overlap :
    ∃ output, intersect [⟨0, 0⟩, ⟨2, 9⟩] [⟨0, 3⟩, ⟨3, 5⟩] = some output ∧
      Intersection [⟨0, 0⟩, ⟨2, 9⟩] [⟨0, 3⟩, ⟨3, 5⟩] output :=
  (intersect_spec (by decide) (by decide)).1

end Tasan.RangeIntersect
