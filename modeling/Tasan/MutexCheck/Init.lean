import Mathlib.Data.Nat.Bitwise
import Tasan.MutexCheck.Model
import Tasan.Warshall

/-!
# What `DebugMutexInit` accepts

The table says which types can be locked under which: those that an entry lists, and the leaf types under all
types that are not leaves (`CanLock`). The matrix is this relation on the types that are counted, and the
table is accepted only when its transitive closure has no cycle (`debugMutexInit_spec`).
-/

namespace Tasan.MutexCheck

open Relation

/-- What an array `can_lock` lists: the array ends at `MutexInvalid`. -/
def listed (canLock : List ℤ) : List ℤ := canLock.takeWhile (· ≠ mutexInvalid)

variable (mutexMeta : MetaTable)

/-- A type has a name. -/
def isNamed (t : ℕ) : Bool := (mutexMeta t).name.isSome

/-- The number of types: the table ends at the first type without a name, and its last entry is not
counted. -/
def typeCount : ℕ :=
  ((List.range (kMutexTypeMax - 1)).takeWhile (isNamed mutexMeta)).length

/-- A type has the mark `MutexLeaf`. -/
def IsLeaf (t : ℕ) : Prop := mutexLeaf ∈ listed (mutexMeta t).canLock

/-- A type has the mark `MutexMulti`. -/
def IsMulti (t : ℕ) : Prop := mutexMulti ∈ listed (mutexMeta t).canLock

/-- Mutexes of the type `z` can be locked under those of the type `t`. -/
def CanLock (t z : ℕ) : Prop :=
  t < typeCount mutexMeta ∧ z < typeCount mutexMeta ∧
    ((z : ℤ) ∈ listed (mutexMeta t).canLock ∨
      IsLeaf mutexMeta z ∧ ¬ IsLeaf mutexMeta t ∧ t ≠ 0 ∧ z ≠ t)

variable {mutexMeta}

/-! ## The matrix -/

theorem setCanLock_iff {canLock : ℕ → ℕ → Bool} {t z a b : ℕ} :
    setCanLock canLock t z a b = true ↔ canLock a b = true ∨ a = t ∧ b = z := by
  unfold setCanLock
  rcases eq_or_ne a t with rfl | ha
  · rw [Function.update_self]
    rcases eq_or_ne b z with rfl | hb
    · simp
    · rw [Function.update_of_ne hb]
      simp [hb]
  · rw [Function.update_of_ne ha]
    simp [ha]

/-- What `scanEntries` does to the row of its type. -/
structure RowScanned (t : ℕ) (zs : List ℤ) (s s' : Scan) : Prop where
  /-- The other rows are not changed. -/
  other : ∀ a, a ≠ t → s'.canLock a = s.canLock a ∧ s'.multi a = s.multi a ∧ s'.leaf a = s.leaf a
  /-- The types that are listed. -/
  canLock : ∀ z : ℕ, s'.canLock t z = true ↔ s.canLock t z = true ∨ (z : ℤ) ∈ listed zs
  /-- The mark `MutexMulti`. -/
  multi : s'.multi t = true ↔ s.multi t = true ∨ mutexMulti ∈ listed zs
  /-- The mark `MutexLeaf`. -/
  leaf : s'.leaf t = true ↔ s.leaf t = true ∨ mutexLeaf ∈ listed zs

theorem mem_listed_cons {z a : ℤ} {zs : List ℤ} (hz : z ≠ mutexInvalid) :
    a ∈ listed (z :: zs) ↔ a = z ∨ a ∈ listed zs := by
  unfold listed
  rw [List.takeWhile_cons_of_pos (by simpa using hz), List.mem_cons]

/-- Scanning the entries of a type. -/
theorem scanEntries_spec {t : ℕ} {zs : List ℤ} {s s' : Scan} (h : scanEntries t zs s = .ok s') :
    RowScanned t zs s s' := by
  induction zs generalizing s with
  | nil =>
    obtain rfl := Except.ok.inj h
    exact ⟨fun _ _ => ⟨rfl, rfl, rfl⟩, by simp [listed], by simp [listed], by simp [listed]⟩
  | cons z zs ih =>
    rw [scanEntries] at h
    split_ifs at h with hinvalid hleaf hmark hmulti hlt hset
    · obtain rfl := Except.ok.inj h
      subst hinvalid
      exact ⟨fun _ _ => ⟨rfl, rfl, rfl⟩, by simp [listed], by simp [listed], by simp [listed]⟩
    · -- The mark `MutexLeaf`.
      obtain ⟨hother, hcan, hmul, hlf⟩ := ih h
      subst hleaf
      refine ⟨fun a ha => ?_, fun z => ?_, ?_, ?_⟩
      · obtain ⟨h1, h2, h3⟩ := hother a ha
        exact ⟨h1, h2, h3.trans (Function.update_of_ne ha _ _)⟩
      · rw [hcan, mem_listed_cons hinvalid]
        have : (z : ℤ) ≠ mutexLeaf := by unfold mutexLeaf; omega
        simp [this]
      · rw [hmul, mem_listed_cons hinvalid]
        simp [mutexMulti, mutexLeaf]
      · rw [hlf, mem_listed_cons hinvalid]
        simp [Function.update_self]
    · -- The mark `MutexMulti`.
      obtain ⟨hother, hcan, hmul, hlf⟩ := ih h
      subst hmulti
      refine ⟨fun a ha => ?_, fun z => ?_, ?_, ?_⟩
      · obtain ⟨h1, h2, h3⟩ := hother a ha
        exact ⟨h1, h2.trans (Function.update_of_ne ha _ _), h3⟩
      · rw [hcan, mem_listed_cons hinvalid]
        have : (z : ℤ) ≠ mutexMulti := by unfold mutexMulti; omega
        simp [this]
      · rw [hmul, mem_listed_cons hinvalid]
        simp [Function.update_self]
      · rw [hlf, mem_listed_cons hinvalid]
        simp [mutexMulti, mutexLeaf]
    · -- A type.
      obtain ⟨hother, hcan, hmul, hlf⟩ := ih h
      have hnat : ((z.toNat : ℕ) : ℤ) = z := by
        simp only [checkLt, Bool.not_eq_true, Bool.not_eq_false', Bool.and_eq_true,
          decide_eq_true_eq] at hlt
        exact Int.toNat_of_nonneg hlt.1
      refine ⟨fun a ha => ?_, fun y => ?_, ?_, ?_⟩
      · obtain ⟨h1, h2, h3⟩ := hother a ha
        exact ⟨h1.trans (Function.update_of_ne ha _ _), h2, h3⟩
      · have hy : (y : ℤ) = z ↔ y = z.toNat := by omega
        rw [hcan, mem_listed_cons hinvalid, setCanLock_iff, hy]
        simp [or_assoc]
      · rw [hmul, mem_listed_cons hinvalid]
        simp [Ne.symm hmulti]
      · rw [hlf, mem_listed_cons hinvalid]
        simp [Ne.symm hleaf]

/-- What the loop over the types leaves for the types `ts`, beginning with `s`. -/
structure Scanned (mutexMeta : MetaTable) (ts : List ℕ) (s s' : Scan) : Prop where
  /-- The types that are listed. -/
  canLock : ∀ t z : ℕ, s'.canLock t z = true ↔
    s.canLock t z = true ∨ t ∈ ts ∧ (z : ℤ) ∈ listed (mutexMeta t).canLock
  /-- The mark `MutexMulti`. -/
  multi : ∀ t, s'.multi t = true ↔ s.multi t = true ∨ t ∈ ts ∧ IsMulti mutexMeta t
  /-- The mark `MutexLeaf`. -/
  leaf : ∀ t, s'.leaf t = true ↔ s.leaf t = true ∨ t ∈ ts ∧ IsLeaf mutexMeta t

theorem Scanned.nil (s : Scan) : Scanned mutexMeta [] s s :=
  ⟨fun _ _ => by simp, fun _ => by simp, fun _ => by simp⟩

/-- One type, and then the others. -/
theorem Scanned.cons {t : ℕ} {ts : List ℕ} {s s₁ s₂ : Scan}
    (hrow : RowScanned t (mutexMeta t).canLock s s₁) (hrest : Scanned mutexMeta ts s₁ s₂) :
    Scanned mutexMeta (t :: ts) s s₂ := by
  constructor
  · intro a z
    rw [hrest.canLock, List.mem_cons]
    rcases eq_or_ne a t with rfl | ha
    · rw [hrow.canLock]
      tauto
    · rw [(hrow.other a ha).1]
      simp [ha]
  · intro a
    rw [hrest.multi, List.mem_cons]
    rcases eq_or_ne a t with rfl | ha
    · rw [hrow.multi, ← IsMulti]
      tauto
    · rw [(hrow.other a ha).2.1]
      simp [ha]
  · intro a
    rw [hrest.leaf, List.mem_cons]
    rcases eq_or_ne a t with rfl | ha
    · rw [hrow.leaf, ← IsLeaf]
      tauto
    · rw [(hrow.other a ha).2.2]
      simp [ha]

/-- The loop over the types `start`, ..., `start + n` stops at the first one without a name, and at the last
one if they all have a name; then it has scanned the last one as well. -/
theorem scanTypes_spec {n start count last : ℕ} {s s' : Scan}
    (h : scanTypes mutexMeta (List.range' start (n + 1)) last s = .ok (count, s')) :
    ∃ more, count = start +
        ((List.range' start n).takeWhile (isNamed mutexMeta)).length ∧
      (∀ t ∈ more, count ≤ t) ∧
      Scanned mutexMeta (List.range' start (count - start) ++ more) s s' := by
  induction n generalizing start last s with
  | zero =>
    rw [List.range'_succ, scanTypes] at h
    split_ifs at h with hname htype
    · obtain ⟨rfl, rfl⟩ := Prod.mk.inj (Except.ok.inj h)
      refine ⟨[], rfl, nofun, ?_⟩
      rw [Nat.sub_self]
      exact Scanned.nil s
    · obtain ⟨s₁, hs₁, h⟩ := bind_eq_ok.mp h
      obtain ⟨rfl, rfl⟩ := Prod.mk.inj (Except.ok.inj h)
      refine ⟨[start], rfl, by simp, ?_⟩
      rw [Nat.sub_self]
      exact (Scanned.nil _).cons (scanEntries_spec hs₁)
  | succ n ih =>
    rw [List.range'_succ, scanTypes] at h
    split_ifs at h with hname htype
    · obtain ⟨rfl, rfl⟩ := Prod.mk.inj (Except.ok.inj h)
      refine ⟨[], ?_, nofun, ?_⟩
      · rw [List.range'_succ, List.takeWhile_cons_of_neg (by simp [isNamed, hname])]
        rfl
      · rw [Nat.sub_self]
        exact Scanned.nil s
    · obtain ⟨s₁, hs₁, h⟩ := bind_eq_ok.mp h
      obtain ⟨more, hcount, hmore, hscanned⟩ := ih h
      have hsome : isNamed mutexMeta start = true := Option.isSome_iff_ne_none.mpr hname
      refine ⟨more, ?_, hmore, ?_⟩
      · rw [List.range'_succ, List.takeWhile_cons_of_pos hsome, List.length_cons]
        omega
      · rw [show count - start = count - (start + 1) + 1 by omega, List.range'_succ, List.cons_append]
        exact hscanned.cons (scanEntries_spec hs₁)

theorem scan_spec {count : ℕ} {s : Scan}
    (h : scanTypes mutexMeta (List.range kMutexTypeMax) 0 .zero = .ok (count, s)) :
    count = typeCount mutexMeta ∧
    (∀ t z : ℕ, t < count → (s.canLock t z = true ↔ (z : ℤ) ∈ listed (mutexMeta t).canLock)) ∧
    (∀ t, t < count → (s.multi t = true ↔ IsMulti mutexMeta t)) ∧
    ∀ t, t < count → (s.leaf t = true ↔ IsLeaf mutexMeta t) := by
  rw [List.range_eq_range'] at h
  obtain ⟨more, hcount, hmore, hscanned⟩ := scanTypes_spec (n := 19) h
  have hmem : ∀ t, t < count → t ∈ List.range' 0 (count - 0) ++ more := fun t ht =>
    List.mem_append_left _ (List.mem_range'_1.mpr (by omega))
  refine ⟨?_, fun t z ht => ?_, fun t ht => ?_, fun t ht => ?_⟩
  · rw [hcount, Nat.zero_add, ← List.range_eq_range']
    rfl
  · rw [hscanned.canLock, and_iff_right (hmem t ht)]
    exact or_iff_right nofun
  · rw [hscanned.multi, and_iff_right (hmem t ht)]
    exact or_iff_right nofun
  · rw [hscanned.leaf, and_iff_right (hmem t ht)]
    exact or_iff_right nofun

/-- A leaf is added to the rows of the types that are not leaves. -/
theorem addLeaf_spec {leaf : ℕ → Bool} {t : ℕ} {zs : List ℕ} {canLock canLock' : ℕ → ℕ → Bool}
    (h : addLeaf leaf t zs canLock = .ok canLock') (a b : ℕ) :
    canLock' a b = true ↔ canLock a b = true ∨
      b = t ∧ a ∈ zs ∧ a ≠ 0 ∧ t ≠ a ∧ leaf a = false := by
  induction zs generalizing canLock with
  | nil =>
    obtain rfl := Except.ok.inj h
    simp
  | cons z zs ih =>
    rw [addLeaf] at h
    split_ifs at h with hskip hset
    · have hz : ¬ (z ≠ 0 ∧ t ≠ z ∧ leaf z = false) := by
        rintro ⟨h0, ht, hl⟩
        rcases hskip with hskip | hskip | hskip
        · exact h0 (Nat.cast_eq_zero.mp hskip)
        · exact ht hskip
        · exact absurd (hl.symm.trans hskip) nofun
      rw [ih h, List.mem_cons]
      refine or_congr_right (and_congr_right fun _ => ⟨fun h => ⟨Or.inr h.1, h.2⟩, ?_⟩)
      rintro ⟨rfl | ha, hrest⟩
      · exact absurd hrest hz
      · exact ⟨ha, hrest⟩
    · have hz : z ≠ 0 ∧ t ≠ z ∧ leaf z = false := by
        simp only [not_or, mutexInvalid, Nat.cast_eq_zero, Bool.not_eq_true] at hskip
        exact hskip
      rw [ih h, setCanLock_iff, List.mem_cons, or_assoc]
      refine or_congr_right ⟨?_, ?_⟩
      · rintro (⟨rfl, rfl⟩ | ⟨hb, ha, hrest⟩)
        · exact ⟨rfl, Or.inl rfl, hz⟩
        · exact ⟨hb, Or.inr ha, hrest⟩
      · rintro ⟨hb, rfl | ha, hrest⟩
        · exact Or.inl ⟨rfl, hb⟩
        · exact Or.inr ⟨hb, ha, hrest⟩

/-- All leaves are added. -/
theorem addLeaves_spec {s : Scan} {count : ℕ} {ts : List ℕ} {canLock canLock' : ℕ → ℕ → Bool}
    (h : addLeaves s count ts canLock = .ok canLock') (a b : ℕ) :
    canLock' a b = true ↔ canLock a b = true ∨
      b ∈ ts ∧ s.leaf b = true ∧ a < count ∧ a ≠ 0 ∧ b ≠ a ∧ s.leaf a = false := by
  induction ts generalizing canLock with
  | nil =>
    obtain rfl := Except.ok.inj h
    simp
  | cons t ts ih =>
    rw [addLeaves] at h
    split_ifs at h with hleaf hcnt
    · rw [ih h, List.mem_cons]
      refine or_congr_right ⟨fun h => ⟨Or.inr h.1, h.2⟩, ?_⟩
      rintro ⟨rfl | hb, hl, hrest⟩
      · exact absurd hl (by simpa using hleaf)
      · exact ⟨hb, hl, hrest⟩
    · have hl : s.leaf t = true := by simpa using hleaf
      obtain ⟨canLock₁, h₁, h⟩ := bind_eq_ok.mp h
      rw [ih h, addLeaf_spec h₁, List.mem_cons, List.mem_range, or_assoc]
      refine or_congr_right ⟨?_, ?_⟩
      · rintro (⟨rfl, ha, h0, hne, hla⟩ | ⟨hb, hrest⟩)
        · exact ⟨Or.inl rfl, hl, ha, h0, hne, hla⟩
        · exact ⟨Or.inr hb, hrest⟩
      · rintro ⟨rfl | hb, hlb, hrest⟩
        · exact Or.inl ⟨rfl, hrest⟩
        · exact Or.inr ⟨hb, hlb, hrest⟩

/-! ## The closure -/

/-- The bits of a row. -/
theorem testBit_transRow (canLock : ℕ → Bool) (count j : ℕ) :
    (transRow canLock count).testBit j = true ↔ j < count ∧ canLock j = true := by
  unfold transRow
  induction count with
  | zero => simp
  | succ count ih =>
    rw [List.range_succ, List.foldl_append, List.foldl_cons, List.foldl_nil]
    split_ifs with h
    · rw [Nat.testBit_or, Bool.or_eq_true, ih, Nat.one_shiftLeft, Nat.testBit_two_pow,
        decide_eq_true_eq]
      constructor
      · rintro (⟨hj, hc⟩ | rfl)
        · exact ⟨by omega, hc⟩
        · exact ⟨by omega, h⟩
      · rintro ⟨hj, hc⟩
        rcases Nat.lt_succ_iff_lt_or_eq.mp hj with hj | rfl
        · exact Or.inl ⟨hj, hc⟩
        · exact Or.inr rfl
    · rw [ih]
      refine and_congr_left fun hc => ⟨fun hj => by omega, fun hj => ?_⟩
      rcases Nat.lt_succ_iff_lt_or_eq.mp hj with hj | rfl
      · exact hj
      · exact absurd hc h

/-- The loop over the rows joins the row of the pivot to the rows that lead to it. The row of the pivot stays
as it is, so that it does not matter when the loop comes to it. -/
theorem testBit_closeRow (k : ℕ) (is : List ℕ) (trans : ℕ → ℕ) (i j : ℕ) :
    (is.foldl (closeRow k) trans i).testBit j = true ↔
      (trans i).testBit j = true ∨ i ∈ is ∧ (trans i).testBit k = true ∧ (trans k).testBit j = true := by
  induction is generalizing trans with
  | nil => simp
  | cons i₀ is ih =>
    have hstep : ∀ a b, (closeRow k trans i₀ a).testBit b = true ↔ (trans a).testBit b = true ∨
        a = i₀ ∧ (trans a).testBit k = true ∧ (trans k).testBit b = true := by
      intro a b
      unfold closeRow
      rcases eq_or_ne a i₀ with rfl | ha
      · split_ifs with hk
        · rw [Function.update_self, Nat.testBit_or, Bool.or_eq_true]
          simp [hk]
        · simp [hk]
      · split_ifs with hk
        · rw [Function.update_of_ne ha]
          simp [ha]
        · simp [ha]
    rw [List.foldl_cons, ih, hstep, hstep, hstep, List.mem_cons]
    tauto

/-- The relation that the rows of the counted types hold. -/
def bits (count : ℕ) (trans : ℕ → ℕ) (i j : ℕ) : Prop := i < count ∧ (trans i).testBit j = true

theorem bits_pass {count k : ℕ} (hk : k < count) (trans : ℕ → ℕ) :
    bits count ((List.range count).foldl (closeRow k) trans) = Warshall.pivot (bits count trans) k := by
  funext i j
  refine propext ?_
  unfold bits Warshall.pivot
  rw [testBit_closeRow, List.mem_range]
  tauto

theorem bits_closure (count : ℕ) (trans : ℕ → ℕ) :
    bits count (closure count trans) = (List.range count).foldl Warshall.pivot (bits count trans) := by
  have hfold : ∀ ks : List ℕ, (∀ k ∈ ks, k < count) → ∀ trans,
      bits count (ks.foldl (fun trans k => (List.range count).foldl (closeRow k) trans) trans) =
        ks.foldl Warshall.pivot (bits count trans) := by
    intro ks
    induction ks with
    | nil => exact fun _ _ => rfl
    | cons k ks ih =>
      intro hks trans
      rw [List.foldl_cons, List.foldl_cons, ih (fun k hk => hks k (List.mem_cons_of_mem _ hk)),
        bits_pass (hks k List.mem_cons_self)]
  exact hfold _ (fun k hk => List.mem_range.mp hk) trans

/-- What `DebugMutexInit` accepts: the matrix says what can be locked under what, and the relation has no
cycle. -/
structure Accepted (mutexMeta : MetaTable) (T : Tables) : Prop where
  /-- The number of types. -/
  count : T.count = typeCount mutexMeta
  /-- The matrix. -/
  canLock : ∀ t z, t < T.count → z < T.count → (T.canLock t z = true ↔ CanLock mutexMeta t z)
  /-- The marks. -/
  multi : ∀ t, t < T.count → (T.multi t = true ↔ IsMulti mutexMeta t)
  /-- There is no cycle. -/
  acyclic : ∀ t, ¬ TransGen (CanLock mutexMeta) t t

theorem matrix_iff {count : ℕ} {s : Scan} {canLock : ℕ → ℕ → Bool}
    (hscan : scanTypes mutexMeta (List.range kMutexTypeMax) 0 .zero = .ok (count, s))
    (hleaves : addLeaves s count (List.range count) s.canLock = .ok canLock) {t z : ℕ} (ht : t < count)
    (hz : z < count) : canLock t z = true ↔ CanLock mutexMeta t z := by
  obtain ⟨hcount, hcan, -, hleaf⟩ := scan_spec hscan
  have hnot : s.leaf t = false ↔ ¬ IsLeaf mutexMeta t := by
    rw [← hleaf t ht, Bool.not_eq_true]
  rw [addLeaves_spec hleaves, hcan t z ht, List.mem_range, hleaf z hz, hnot]
  unfold CanLock
  rw [← hcount]
  tauto

/-- What `DebugMutexInit` computes. -/
theorem debugMutexInit_spec {T : Tables} (h : debugMutexInit mutexMeta = .ok T) :
    Accepted mutexMeta T := by
  obtain ⟨⟨count, s⟩, hscan, h⟩ := bind_eq_ok.mp h
  dsimp only at h
  split_ifs at h with hlt
  obtain ⟨canLock, hleaves, h⟩ := bind_eq_ok.mp h
  split_ifs at h with hcycle
  obtain rfl := Except.ok.inj h
  obtain ⟨hcount, -, hmulti, -⟩ := scan_spec hscan
  refine ⟨hcount, fun t z => matrix_iff hscan hleaves, hmulti, fun t ht => hcycle ?_⟩
  -- The rows are the relation, so that a cycle of the relation is a bit on the diagonal of the closure.
  have hbits : bits count (fun i => transRow (canLock i) count) = CanLock mutexMeta := by
    funext i j
    refine propext ?_
    unfold bits
    rw [testBit_transRow]
    constructor
    · rintro ⟨hi, hj, hc⟩
      exact (matrix_iff hscan hleaves hi hj).mp hc
    · intro hc
      have hi : i < count := hcount ▸ hc.1
      have hj : j < count := hcount ▸ hc.2.1
      exact ⟨hi, hj, (matrix_iff hscan hleaves hi hj).mpr hc⟩
  have hclosed : bits count (closure count fun i => transRow (canLock i) count) t t := by
    rw [bits_closure, hbits, Warshall.foldl_pivot_iff]
    · exact ht
    · exact fun i j hij => List.mem_range.mpr (hcount ▸ hij.2.1)
  exact List.any_eq_true.mpr ⟨t, List.mem_range.mpr hclosed.1, hclosed.2⟩

end Tasan.MutexCheck
