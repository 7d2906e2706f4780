import Tasan.Sorting.HeapSort

/-!
# Binary search and the removal of duplicates

`InternalLowerBound` and `SortAndDedup` of `sanitizer_common.h`. The search needs of the comparison only
that it holds for the elements up to some index and for no others. `SortAndDedup` keeps the elements that
it has placed below `last`; the invariant of its loop (`Placed`) is that they are the distinct ones among
the elements that it has seen, and that the last of them is the one it has seen last.
-/

namespace Tasan.Sorting

variable {α β : Type} {comp : α → α → Bool} {v : ℕ → α} {size : ℕ}

/-! ## The search -/

/-- The loop of `InternalLowerBound`. -/
def lowerBoundLoop (comp : α → β → Bool) (v : ℕ → α) (val : β) (first last : ℕ) : ℕ :=
  if first < last then
    let mid := (first + last) / 2
    if comp (v mid) val then lowerBoundLoop comp v val (mid + 1) last
    else lowerBoundLoop comp v val first mid
  else first
termination_by last - first

/-- `InternalLowerBound`. -/
def internalLowerBound (comp : α → β → Bool) (v : ℕ → α) (size : ℕ) (val : β) : ℕ :=
  lowerBoundLoop comp v val 0 size

/-- The search finds the end of the elements that are less than the value. -/
theorem lowerBoundLoop_spec {comp : α → β → Bool} {val : β} {first last : ℕ} (hle : first ≤ last)
    (hlast : last ≤ size)
    (hmono : ∀ i j, i ≤ j → j < size → comp (v j) val = true → comp (v i) val = true)
    (hbelow : ∀ i < first, comp (v i) val = true)
    (habove : ∀ i, last ≤ i → i < size → comp (v i) val = false) :
    lowerBoundLoop comp v val first last ≤ size ∧
      (∀ i < lowerBoundLoop comp v val first last, comp (v i) val = true) ∧
      ∀ i, lowerBoundLoop comp v val first last ≤ i → i < size → comp (v i) val = false := by
  induction first, last using lowerBoundLoop.induct comp v val with
  | case1 first last hlt mid hless ih =>
    rw [lowerBoundLoop, if_pos hlt]
    dsimp only
    rw [if_pos hless]
    have hmid : mid = (first + last) / 2 := rfl
    refine ih (by omega) hlast (fun i hi => ?_) habove
    exact hmono i mid (by omega) (by omega) hless
  | case2 first last hlt mid hless ih =>
    rw [lowerBoundLoop, if_pos hlt]
    dsimp only
    rw [if_neg hless]
    have hmid : mid = (first + last) / 2 := rfl
    refine ih (by omega) (by omega) hbelow fun i hi hsize => ?_
    -- An element from the middle on that were less would make the middle one less.
    exact Bool.eq_false_of_not_eq_true fun h => hless (hmono mid i hi hsize h)
  | case3 first last hge =>
    rw [lowerBoundLoop, if_neg hge]
    obtain rfl : first = last := by omega
    exact ⟨hlast, hbelow, habove⟩

theorem internalLowerBound_spec (hcomp : StrictWeakOrder comp) (val : α)
    (hsorted : ∀ i j, i < j → j < size → AtMost comp (v i) (v j)) :
    internalLowerBound comp v size val ≤ size ∧
      (∀ i < internalLowerBound comp v size val, comp (v i) val = true) ∧
      ∀ i, internalLowerBound comp v size val ≤ i → i < size → comp (v i) val = false := by
  refine lowerBoundLoop_spec (Nat.zero_le size) le_rfl (fun i j hij hj hless => ?_) (fun i hi => ?_)
    fun i hi hsize => absurd hsize (not_lt.mpr hi)
  · rcases hij.eq_or_lt with rfl | hlt
    · exact hless
    · by_contra hnot
      have hle := hcomp.atMost_trans (Bool.eq_false_of_not_eq_true hnot) (hsorted i j hlt hj)
      unfold AtMost at hle
      rw [hless] at hle
      exact Bool.noConfusion hle
  · exact absurd hi (Nat.not_lt_zero i)

/-! ## The removal of duplicates -/

/-- One turn of the loop of `SortAndDedup`; `none` is a failed `CHECK`. -/
def dedupStep (comp : α → α → Bool) (v : ℕ → α) (last i : ℕ) : Option ((ℕ → α) × ℕ) :=
  if comp (v last) (v i) then
    some (if last + 1 ≠ i then Function.update v (last + 1) (v i) else v, last + 1)
  else if comp (v i) (v last) then none
  else some (v, last)

/-- The loop of `SortAndDedup`, after the turns up to `i`. -/
def dedupLoop (comp : α → α → Bool) (v : ℕ → α) : ℕ → Option ((ℕ → α) × ℕ)
  | 0 => some (v, 0)
  | i + 1 => (dedupLoop comp v i).bind fun (v, last) => dedupStep comp v last (i + 1)

/-- `SortAndDedup`: the array and its size. -/
def sortAndDedup (comp : α → α → Bool) (v : ℕ → α) (size : ℕ) : Option ((ℕ → α) × ℕ) :=
  let v := sort comp v size
  if size < 2 then some (v, size)
  else (dedupLoop comp v (size - 1)).map fun (v, last) => (v, last + 1)

/-- The loop has seen the elements up to `i` of the array `v`, and has placed those up to `last`. -/
structure Placed (comp : α → α → Bool) (v v' : ℕ → α) (i last : ℕ) : Prop where
  /-- No more have been placed than seen. -/
  le : last ≤ i
  /-- They are strictly increasing. -/
  less : ∀ a b, a < b → b ≤ last → comp (v' a) (v' b) = true
  /-- The elements to come have not changed. -/
  rest : ∀ k, i < k → v' k = v k
  /-- The last one is the one that was seen last. -/
  last_eq : v' last = v i
  /-- They are the ones that have been seen. -/
  mem : ∀ x, (∃ a ≤ last, v' a = x) ↔ ∃ a ≤ i, v a = x

theorem exists_le_succ {f : ℕ → α} {k : ℕ} {x : α} :
    (∃ a ≤ k + 1, f a = x) ↔ (∃ a ≤ k, f a = x) ∨ f (k + 1) = x := by
  constructor
  · rintro ⟨a, ha, rfl⟩
    rcases ha.eq_or_lt with rfl | hlt
    · exact Or.inr rfl
    · exact Or.inl ⟨a, Nat.lt_succ_iff.mp hlt, rfl⟩
  · rintro (⟨a, ha, rfl⟩ | rfl)
    · exact ⟨a, ha.trans (Nat.le_succ k), rfl⟩
    · exact ⟨k + 1, le_rfl, rfl⟩

/-- One turn places an element that is greater than the last one, and skips one that is equal. -/
theorem Placed.step (hcomp : StrictWeakOrder comp)
    (hantisymm : ∀ a b, comp a b = false → comp b a = false → a = b) {v' : ℕ → α} {i last : ℕ}
    (h : Placed comp v v' i last) (hle : AtMost comp (v i) (v (i + 1))) :
    ∃ v'' last', dedupStep comp v' last (i + 1) = some (v'', last') ∧
      Placed comp v v'' (i + 1) last' := by
  have hnext : v' (i + 1) = v (i + 1) := h.rest _ (Nat.lt_succ_self i)
  have hlast := h.le
  unfold dedupStep
  rw [hnext, h.last_eq]
  by_cases hless : comp (v i) (v (i + 1)) = true
  · rw [if_pos hless]
    -- Storing an element where it is already changes nothing.
    have hstore : (if last + 1 ≠ i + 1 then Function.update v' (last + 1) (v (i + 1)) else v') =
        Function.update v' (last + 1) (v (i + 1)) := by
      split_ifs with hne
      · rfl
      · rw [not_not.mp hne, ← hnext, Function.update_eq_self]
    rw [hstore]
    refine ⟨_, _, rfl, by omega, fun a b hab hb => ?_, fun k hk => ?_, Function.update_self ..,
      fun x => ?_⟩
    · rcases hb.eq_or_lt with rfl | hlt
      · rw [Function.update_self, Function.update_of_ne (by omega)]
        rcases (show a ≤ last by omega).eq_or_lt with rfl | ha
        · rw [h.last_eq]
          exact hless
        · have hal := h.less a last ha le_rfl
          rw [h.last_eq] at hal
          exact hcomp.trans _ _ _ hal hless
      · rw [Function.update_of_ne (by omega), Function.update_of_ne (by omega)]
        exact h.less a b hab (by omega)
    · rw [Function.update_of_ne (by omega)]
      exact h.rest k (by omega)
    · rw [exists_le_succ, exists_le_succ, Function.update_self, ← h.mem]
      have hold : ∀ a ≤ last, Function.update v' (last + 1) (v (i + 1)) a = v' a :=
        fun a ha => Function.update_of_ne (by omega) _ _
      refine or_congr_left (exists_congr fun a => and_congr_right fun ha => ?_)
      rw [hold a ha]
  · -- The elements are sorted, so that this one is equal to the last one.
    have heq : v i = v (i + 1) := hantisymm _ _ (Bool.eq_false_of_not_eq_true hless) hle
    rw [if_neg hless, if_neg (by rw [show comp (v (i + 1)) (v i) = false from hle]; decide)]
    refine ⟨_, _, rfl, by omega, h.less, fun k hk => h.rest k (by omega), ?_, fun x => ?_⟩
    · rw [h.last_eq, heq]
    · rw [exists_le_succ, h.mem, ← heq]
      exact (or_iff_left_of_imp fun hx => ⟨i, le_rfl, hx⟩).symm

theorem dedupLoop_spec (hcomp : StrictWeakOrder comp)
    (hantisymm : ∀ a b, comp a b = false → comp b a = false → a = b)
    (hsorted : ∀ i j, i < j → j < size → AtMost comp (v i) (v j)) {i : ℕ} (hi : i < size) :
    ∃ v' last, dedupLoop comp v i = some (v', last) ∧ Placed comp v v' i last := by
  induction i with
  | zero =>
    refine ⟨v, 0, rfl, le_rfl, fun a b hab hb => ?_, fun _ _ => rfl, rfl, fun _ => Iff.rfl⟩
    omega
  | succ i ih =>
    obtain ⟨v', last, hloop, hplaced⟩ := ih (by omega)
    obtain ⟨v'', last', hstep, hplaced'⟩ :=
      hplaced.step hcomp hantisymm (hsorted i (i + 1) (Nat.lt_succ_self i) hi)
    refine ⟨v'', last', ?_, hplaced'⟩
    rw [dedupLoop, hloop]
    exact hstep

/-- `SortAndDedup` leaves the distinct elements, strictly increasing. -/
theorem sortAndDedup_spec (hcomp : StrictWeakOrder comp)
    (hantisymm : ∀ a b, comp a b = false → comp b a = false → a = b) (v : ℕ → α) (size : ℕ) :
    ∃ v' n, sortAndDedup comp v size = some (v', n) ∧
      (elems v' n).Pairwise (fun a b => comp a b = true) ∧
      ∀ x, x ∈ elems v' n ↔ x ∈ elems v size := by
  have hmem : ∀ x, x ∈ elems (sort comp v size) size ↔ x ∈ elems v size :=
    fun x => (sort_rearranges comp v size).perm.mem_iff
  unfold sortAndDedup
  dsimp only
  by_cases hsize : size < 2
  · rw [if_pos hsize]
    refine ⟨_, _, rfl, pairwise_elems.mpr fun i j hij hj => ?_, hmem⟩
    omega
  · rw [if_neg hsize]
    obtain ⟨v', last, hloop, hplaced⟩ := dedupLoop_spec hcomp hantisymm
      (sort_sorted hcomp v size) (show size - 1 < size by omega)
    refine ⟨v', last + 1, by rw [hloop]; rfl, pairwise_elems.mpr fun i j hij hj => ?_, fun x => ?_⟩
    · exact hplaced.less i j hij (Nat.lt_succ_iff.mp hj)
    · rw [← hmem, mem_elems, mem_elems]
      have hx := hplaced.mem x
      simp only [← Nat.lt_succ_iff, show (size - 1).succ = size by omega] at hx
      exact hx

/-- For every array and every strict weak order: `Sort` leaves a permutation of the elements in which no
element is less than an earlier one, and changes nothing else; `InternalLowerBound` in a sorted array
returns the least index whose element is not less than the value, or the size; and when the order is
total, `SortAndDedup` leaves the strictly increasing list of the distinct elements, without a failed
`CHECK`. -/
theorem sort_lowerBound_dedup (hcomp : StrictWeakOrder comp) (v : ℕ → α) (size : ℕ) :
    ((elems (sort comp v size) size).Perm (elems v size) ∧
      (∀ k, size ≤ k → sort comp v size k = v k) ∧
      ∀ i j, i < j → j < size → comp (sort comp v size j) (sort comp v size i) = false) ∧
    (∀ val, (∀ i j, i < j → j < size → comp (v j) (v i) = false) →
      internalLowerBound comp v size val ≤ size ∧
        (∀ i < internalLowerBound comp v size val, comp (v i) val = true) ∧
        ∀ i, internalLowerBound comp v size val ≤ i → i < size → comp (v i) val = false) ∧
    ((∀ a b, comp a b = false → comp b a = false → a = b) →
      ∃ v' n, sortAndDedup comp v size = some (v', n) ∧
        (elems v' n).Pairwise (fun a b => comp a b = true) ∧
        ∀ x, x ∈ elems v' n ↔ x ∈ elems v size) := by
  have hmoved := sort_rearranges comp v size
  exact ⟨⟨hmoved.perm, fun k hk => hmoved.eq_of_le hk, sort_sorted hcomp v size⟩,
    fun val hsorted => internalLowerBound_spec hcomp val hsorted,
    fun hantisymm => sortAndDedup_spec hcomp hantisymm v size⟩

theorem strictWeakOrder_nat : StrictWeakOrder (fun a b : ℕ => decide (a < b)) where
  irrefl a := decide_eq_false (lt_irrefl a)
  trans a b c hab hbc :=
    decide_eq_true ((of_decide_eq_true hab).trans (of_decide_eq_true hbc))
  incomp_trans a b c hab _ hbc _ := by
    have h1 := of_decide_eq_false hab
    have h2 := of_decide_eq_false hbc
    exact decide_eq_false (by omega)

/-- Three numbers with a duplicate. -/
theorem sort_lowerBound_dedup_three :
    ∃ v' n, sortAndDedup (fun a b : ℕ => decide (a < b)) (fun i => if i = 1 then 2 else 5) 3 =
        some (v', n) ∧
      (elems v' n).Pairwise (fun a b => decide (a < b) = true) ∧
      ∀ x, x ∈ elems v' n ↔ x ∈ [5, 2, 5] := by
  refine (sort_lowerBound_dedup strictWeakOrder_nat _ 3).2.2 fun a b hab hba => ?_
  have h1 := of_decide_eq_false hab
  have h2 := of_decide_eq_false hba
  omega

end Tasan.Sorting
