import Mathlib

/-!
# Bit vectors of one word

`BasicBitVector` of `sanitizer_bitvector.h`, for words of any width `w`. A vector represents the set
of the indices of its bits. `getAndClearFirstOne` takes the least index, and `forBits` is the loop
`while (!t.empty())` around it: `forBits_eq` says that it visits the members in increasing order.
-/

namespace Tasan.BitVector

variable {w : ℕ}

/-- `mask`, for an index below the width. -/
def mask (w idx : ℕ) : BitVec w := 1#w <<< idx

/-- `BasicBitVector::empty`. -/
def empty (b : BitVec w) : Bool := b == 0#w

/-- `BasicBitVector::setBit`: the word, and whether the bit has changed from 0 to 1. -/
def setBit (b : BitVec w) (idx : ℕ) : BitVec w × Bool :=
  let bits := b ||| mask w idx
  (bits, bits != b)

/-- `BasicBitVector::clearBit`: the word, and whether the bit has changed from 1 to 0. -/
def clearBit (b : BitVec w) (idx : ℕ) : BitVec w × Bool :=
  let bits := b &&& ~~~(mask w idx)
  (bits, bits != b)

/-- `BasicBitVector::getBit`. -/
def getBit (b : BitVec w) (idx : ℕ) : Bool := (b &&& mask w idx) != 0#w

/-- `LeastSignificantSetBitIndex`, of a word that is not zero. -/
def leastSignificantSetBitIndex (b : BitVec w) : ℕ :=
  ((List.range w).find? (fun i => b.getLsbD i)).getD 0

/-- `BasicBitVector::getAndClearFirstOne`; `none` is a failed `CHECK`. -/
def getAndClearFirstOne (b : BitVec w) : Option (ℕ × BitVec w) :=
  if empty b then none
  else
    let idx := leastSignificantSetBitIndex b
    some (idx, (clearBit b idx).1)

/-- `BasicBitVector::setUnion`: the word, and whether new bits have been added. -/
def setUnion (b v : BitVec w) : BitVec w × Bool := (b ||| v, (b ||| v) != b)

/-- `BasicBitVector::setIntersection`: the word, and whether any bits have been removed. -/
def setIntersection (b v : BitVec w) : BitVec w × Bool := (b &&& v, (b &&& v) != b)

/-- `BasicBitVector::setDifference`: the word, and whether any bits have been removed. -/
def setDifference (b v : BitVec w) : BitVec w × Bool := (b &&& ~~~v, (b &&& ~~~v) != b)

/-- `BasicBitVector::intersectsWith`. -/
def intersectsWith (b v : BitVec w) : Bool := (b &&& v) != 0#w

/-! ## Bits -/

theorem getLsbD_mask {i j : ℕ} (hj : j < w) : (mask w i).getLsbD j = decide (i = j) := by
  unfold mask
  rw [BitVec.getLsbD_shiftLeft, BitVec.getLsbD_one]
  by_cases hij : i = j
  · subst hij
    simp
    omega
  · simp only [hij, decide_false, Bool.and_eq_false_iff, Bool.not_eq_false', decide_eq_true_eq,
      decide_eq_false_iff_not]
    omega

theorem eq_zero_iff (b : BitVec w) : b = 0#w ↔ ∀ i < w, b.getLsbD i = false := by
  constructor
  · rintro rfl i _
    simp
  · intro h
    apply BitVec.eq_of_getLsbD_eq
    intro i hi
    rw [h i hi, BitVec.getLsbD_zero]

theorem ne_zero_iff (b : BitVec w) : b ≠ 0#w ↔ ∃ i < w, b.getLsbD i = true := by
  rw [ne_eq, eq_zero_iff]
  simp

theorem getBit_eq (b : BitVec w) {i : ℕ} (hi : i < w) : getBit b i = b.getLsbD i := by
  rw [Bool.eq_iff_iff, getBit, bne_iff_ne, ne_zero_iff]
  constructor
  · rintro ⟨j, hj, h⟩
    rw [BitVec.getLsbD_and, getLsbD_mask hj, Bool.and_eq_true, decide_eq_true_eq] at h
    exact h.2 ▸ h.1
  · intro h
    refine ⟨i, hi, ?_⟩
    rw [BitVec.getLsbD_and, getLsbD_mask hi, h]
    simp

theorem getLsbD_setBit (b : BitVec w) (i : ℕ) {j : ℕ} (hj : j < w) :
    (setBit b i).1.getLsbD j = (b.getLsbD j || decide (i = j)) := by
  unfold setBit
  rw [BitVec.getLsbD_or, getLsbD_mask hj]

theorem getLsbD_clearBit (b : BitVec w) (i : ℕ) {j : ℕ} (hj : j < w) :
    (clearBit b i).1.getLsbD j = (b.getLsbD j && !decide (i = j)) := by
  unfold clearBit
  rw [BitVec.getLsbD_and, BitVec.getLsbD_not, getLsbD_mask hj]
  simp [hj]

theorem setBit_snd (b : BitVec w) {i : ℕ} (hi : i < w) : (setBit b i).2 = !b.getLsbD i := by
  have hbit := getLsbD_setBit b i hi
  unfold setBit at hbit ⊢
  dsimp only at hbit ⊢
  cases hb : b.getLsbD i with
  | true =>
    rw [Bool.not_true, bne_eq_false_iff_eq]
    apply BitVec.eq_of_getLsbD_eq
    intro j hj
    rw [BitVec.getLsbD_or, getLsbD_mask hj]
    by_cases hij : i = j
    · rw [← hij, hb]
      rfl
    · simp [hij]
  | false =>
    rw [Bool.not_false, bne_iff_ne]
    intro heq
    rw [heq, hb] at hbit
    simp at hbit

theorem clearBit_snd (b : BitVec w) {i : ℕ} (hi : i < w) : (clearBit b i).2 = b.getLsbD i := by
  have hbit := getLsbD_clearBit b i hi
  unfold clearBit at hbit ⊢
  dsimp only at hbit ⊢
  cases hb : b.getLsbD i with
  | true =>
    rw [bne_iff_ne]
    intro heq
    rw [heq, hb] at hbit
    simp at hbit
  | false =>
    rw [bne_eq_false_iff_eq]
    apply BitVec.eq_of_getLsbD_eq
    intro j hj
    rw [BitVec.getLsbD_and, BitVec.getLsbD_not, getLsbD_mask hj]
    by_cases hij : i = j
    · rw [← hij, hb]
      rfl
    · simp [hij, hj]

/-! ## The members in increasing order -/

/-- The indices of the bits, in increasing order. -/
def ones (b : BitVec w) : List ℕ := (List.range w).filter (fun i => b.getLsbD i)

theorem mem_ones {b : BitVec w} {i : ℕ} : i ∈ ones b ↔ i < w ∧ b.getLsbD i = true := by
  simp [ones]

theorem pairwise_ones (b : BitVec w) : (ones b).Pairwise (· < ·) :=
  List.pairwise_lt_range.filter _

theorem ones_eq_nil {b : BitVec w} : ones b = [] ↔ b = 0#w := by
  rw [eq_zero_iff, ones, List.filter_eq_nil_iff]
  simp

/-- The first element with a property is the first of those with it. -/
theorem filter_of_find? {α : Type} [DecidableEq α] {p : α → Bool} {l : List α} {a : α}
    (hl : l.Nodup) (h : l.find? p = some a) :
    l.filter p = a :: l.filter (fun x => p x && !decide (a = x)) := by
  induction l with
  | nil => exact absurd h (by simp)
  | cons x l ih =>
    obtain ⟨hx, hl⟩ := List.nodup_cons.mp hl
    rw [List.find?_cons] at h
    cases hp : p x with
    | true =>
      rw [hp] at h
      obtain rfl := Option.some.inj h
      rw [List.filter_cons_of_pos hp, List.filter_cons_of_neg (by simp)]
      congr 1
      apply List.filter_congr
      intro y hy
      have hne : x ≠ y := fun heq => hx (heq ▸ hy)
      simp [hne]
    | false =>
      rw [hp] at h
      rw [List.filter_cons_of_neg (by simp [hp]), List.filter_cons_of_neg (by simp [hp]), ih hl h]

theorem getAndClearFirstOne_spec {b : BitVec w} (hb : b ≠ 0#w) :
    ∃ i b', getAndClearFirstOne b = some (i, b') ∧ ones b = i :: ones b' ∧ i < w := by
  obtain ⟨i, hi⟩ : ∃ i, (List.range w).find? (fun i => b.getLsbD i) = some i := by
    obtain ⟨j, hj, hbit⟩ := (ne_zero_iff b).mp hb
    rw [← Option.isSome_iff_exists, List.find?_isSome]
    exact ⟨j, List.mem_range.mpr hj, hbit⟩
  have hones : ones b = i :: ones (clearBit b i).1 := by
    unfold ones
    rw [filter_of_find? List.nodup_range hi]
    congr 1
    apply List.filter_congr
    intro j hj
    rw [getLsbD_clearBit b i (List.mem_range.mp hj)]
  refine ⟨i, (clearBit b i).1, ?_, hones, ?_⟩
  · unfold getAndClearFirstOne leastSignificantSetBitIndex empty
    rw [if_neg (by simpa using hb), hi]
    rfl
  · have hmem : i ∈ ones b := hones ▸ List.mem_cons_self
    exact (mem_ones.mp hmem).1

theorem getAndClearFirstOne_least {b : BitVec w} (hb : b ≠ 0#w) :
    ∃ i < w, getAndClearFirstOne b = some (i, (clearBit b i).1) ∧ b.getLsbD i = true ∧
      ∀ j < w, b.getLsbD j = true → i ≤ j := by
  obtain ⟨i, b', hget, hones, hi⟩ := getAndClearFirstOne_spec hb
  have hdef : getAndClearFirstOne b = some (leastSignificantSetBitIndex b,
      (clearBit b (leastSignificantSetBitIndex b)).1) := by
    rw [getAndClearFirstOne, if_neg (by simpa [empty] using hb)]
  obtain ⟨rfl, rfl⟩ := Prod.mk.inj (Option.some.inj (hdef.symm.trans hget))
  refine ⟨_, hi, hget, (mem_ones.mp (hones ▸ List.mem_cons_self)).2, fun j hj hbit => ?_⟩
  have hmem : j ∈ ones b := mem_ones.mpr ⟨hj, hbit⟩
  have hsorted := pairwise_ones b
  rw [hones] at hmem hsorted
  rcases List.mem_cons.mp hmem with rfl | hmem
  · exact le_rfl
  · exact Nat.le_of_lt (List.rel_of_pairwise_cons hsorted hmem)

theorem getAndClearFirstOne_zero : getAndClearFirstOne (0#w) = none := by
  simp [getAndClearFirstOne, empty]

/-- `while (!t.empty()) { i = t.getAndClearFirstOne(); ... }`. -/
def forBits {σ : Type} (body : ℕ → σ → σ) (t : BitVec w) (s : σ) : σ :=
  match _h : getAndClearFirstOne t with
  | none => s
  | some (i, t') => forBits body t' (body i s)
termination_by (ones t).length
decreasing_by
  have hne : t ≠ 0#w := by
    rintro rfl
    rw [getAndClearFirstOne_zero] at _h
    exact absurd _h (by simp)
  obtain ⟨j, b', hj, hones, -⟩ := getAndClearFirstOne_spec hne
  obtain ⟨-, rfl⟩ := Prod.mk.inj (Option.some.inj (_h.symm.trans hj))
  rw [hones]
  simp

/-- The loop visits the members in increasing order. -/
theorem forBits_eq {σ : Type} (body : ℕ → σ → σ) (t : BitVec w) (s : σ) :
    forBits body t s = (ones t).foldl (fun s i => body i s) s := by
  generalize hn : ones t = l
  induction l generalizing t s with
  | nil =>
    obtain rfl := ones_eq_nil.mp hn
    rw [forBits, List.foldl_nil]
    split
    · rfl
    · next h => exact absurd (getAndClearFirstOne_zero.symm.trans h) (by simp)
  | cons i l ih =>
    have hne : t ≠ 0#w := by
      rw [ne_eq, ← ones_eq_nil, hn]
      simp
    obtain ⟨j, b', hj, hones, -⟩ := getAndClearFirstOne_spec hne
    obtain ⟨rfl, rfl⟩ := List.cons.inj (hn.symm.trans hones)
    rw [forBits, List.foldl_cons, ← ih b' (body i s) rfl]
    split
    · next h => exact absurd (hj.symm.trans h) (by simp)
    · next h =>
      obtain ⟨rfl, rfl⟩ := Prod.mk.inj (Option.some.inj (hj.symm.trans h))
      rfl

end Tasan.BitVector
