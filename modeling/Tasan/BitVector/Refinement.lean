import Tasan.Simulation
import Tasan.BitVector.Iterator

/-!
# Two-level bit vectors are sets

A vector represents the set of the indices at which `getBit` reads a set bit. Each operation of
`TwoLevelBitVector` does on this set what its name says, for a vector whose first level is right, and
keeps the first level right. The result is lifted to every sequence of operations on a family of
vectors, where the operand of an operation may be any vector of the family.
-/

namespace Tasan.BitVector

open Simulation

variable {w k : ℕ}

/-! ## The set of a vector -/

/-- The set that a vector represents. -/
def TwoLevel.toFinset (k : ℕ) (v : TwoLevel w) : Finset ℕ :=
  (Finset.range (size k w)).filter (fun idx => v.getBit k idx = some true)

theorem TwoLevel.mem_toFinset {v : TwoLevel w} {idx : ℕ} : idx ∈ v.toFinset k ↔ idx < size k w ∧
    (((v.row (idx0 w idx)).cell (idx1 w idx)).word).getLsbD (idx2 w idx) = true := by
  unfold TwoLevel.toFinset
  rw [Finset.mem_filter, Finset.mem_range]
  refine and_congr_right fun hidx => ?_
  obtain ⟨-, h1, h2⟩ := idx_lt hidx
  rw [TwoLevel.getBit, if_pos hidx, Cell.getLsbD_word, Option.some_inj, getBit_eq _ h1,
    getBit_eq _ h2]
  rfl

theorem TwoLevel.index_mem_toFinset {v : TwoLevel w} {i0 i1 i2 : ℕ} (h0 : i0 < k) (h1 : i1 < w)
    (h2 : i2 < w) : index w i0 i1 i2 ∈ v.toFinset k ↔
      (((v.row i0).cell i1).word).getLsbD i2 = true := by
  obtain ⟨e0, e1, e2⟩ := idx_index i0 h1 h2
  rw [TwoLevel.mem_toFinset, e0, e1, e2]
  exact and_iff_right (index_lt h0 h1 h2)

theorem TwoLevel.toFinset_eq_iff {v u : TwoLevel w} : v.toFinset k = u.toFinset k ↔
    ∀ i0 < k, ∀ i1 < w, ((v.row i0).cell i1).word = ((u.row i0).cell i1).word := by
  constructor
  · intro h i0 h0 i1 h1
    apply BitVec.eq_of_getLsbD_eq
    intro i2 h2
    rw [Bool.eq_iff_iff, ← index_mem_toFinset h0 h1 h2, ← index_mem_toFinset h0 h1 h2, h]
  · intro h
    ext idx
    rw [mem_toFinset, mem_toFinset]
    refine and_congr_right fun hidx => ?_
    obtain ⟨h0, h1, -⟩ := idx_lt hidx
    rw [h _ h0 _ h1]

theorem TwoLevel.toFinset_ne_iff {v u : TwoLevel w} : v.toFinset k ≠ u.toFinset k ↔
    ∃ i0 < k, ∃ i1 < w, ((v.row i0).cell i1).word ≠ ((u.row i0).cell i1).word := by
  rw [ne_eq, toFinset_eq_iff]
  push Not
  rfl

theorem TwoLevel.mem_members {v : TwoLevel w} {idx : ℕ} :
    idx ∈ members k v ↔ idx ∈ v.toFinset k := by
  rw [members, mem_membersFrom]
  constructor
  · rintro ⟨i0, -, h0, hrow⟩
    obtain ⟨i1, h1, hbit1, i2, h2, hbit2, rfl⟩ := mem_rowMembers.mp hrow
    rw [index_mem_toFinset (by omega) h1 h2, Cell.getLsbD_word, Cell.bit, Bool.and_eq_true]
    exact ⟨hbit1, hbit2⟩
  · intro h
    obtain ⟨hidx, hbit⟩ := mem_toFinset.mp h
    obtain ⟨h0, h1, h2⟩ := idx_lt hidx
    rw [Cell.getLsbD_word, Cell.bit, Bool.and_eq_true] at hbit
    exact ⟨idx0 w idx, Nat.zero_le _, by omega, mem_rowMembers.mpr
      ⟨_, h1, hbit.1, _, h2, hbit.2, index_idx w idx⟩⟩

theorem TwoLevel.sort_toFinset (v : TwoLevel w) : (v.toFinset k).sort (· ≤ ·) = members k v := by
  have hset : v.toFinset k = (members k v).toFinset := by
    ext idx
    rw [List.mem_toFinset, mem_members]
  rw [hset]
  have hlt := pairwise_members k v
  exact (List.toFinset_sort (· ≤ ·) (hlt.imp Nat.ne_of_lt)).mpr (hlt.imp Nat.le_of_lt)

/-! ## The loop over the rows -/

/-- The cells and the flag after `forRows`, when each round changes its own row. -/
theorem forRows_spec (body : ℕ → Row w → Bool → Row w × Bool) {F : ℕ → Row w → ℕ → Cell w}
    {G : ℕ → Row w → Prop} {P : Row w → Prop}
    (hcell : ∀ i r res, ∀ j < w, (body i r res).1.cell j = F i r j)
    (hflag : ∀ i r res, P r → ((body i r res).2 = true ↔ res = true ∨ G i r)) (v : TwoLevel w) :
    (∀ i < k, ∀ j < w, ((forRows k body v).1.row i).cell j = F i (v.row i) j) ∧
    (∀ i, k ≤ i → (forRows k body v).1.row i = v.row i) ∧
    ((∀ i < k, P (v.row i)) → ((forRows k body v).2 = true ↔ ∃ i < k, G i (v.row i))) := by
  induction k with
  | zero => simp [forRows]
  | succ k ih =>
    obtain ⟨hcells, hafter, hres⟩ := ih
    have hstep : forRows (k + 1) body v =
        ((forRows k body v).1.setRow k
          (body k ((forRows k body v).1.row k) (forRows k body v).2).1,
          (body k ((forRows k body v).1.row k) (forRows k body v).2).2) := by
      unfold forRows
      rw [List.range_succ, List.foldl_append]
      rfl
    rw [hafter k le_rfl] at hstep
    rw [hstep]
    refine ⟨fun i hi j hj => ?_, fun i hi => ?_, fun hP => ?_⟩
    · by_cases hik : i = k
      · subst hik
        simp only [TwoLevel.setRow, Function.update_self]
        exact hcell i _ _ j hj
      · simp only [TwoLevel.setRow, Function.update_of_ne hik]
        exact hcells i (by omega) j hj
    · have hik : i ≠ k := by omega
      simp only [TwoLevel.setRow, Function.update_of_ne hik]
      exact hafter i (by omega)
    · rw [hflag k _ _ (hP k (by omega)), hres (fun i hi => hP i (by omega))]
      constructor
      · rintro (⟨i, hi, h⟩ | h)
        · exact ⟨i, by omega, h⟩
        · exact ⟨k, by omega, h⟩
      · rintro ⟨i, hi, h⟩
        rcases Nat.lt_succ_iff_lt_or_eq.mp hi with hi | rfl
        · exact Or.inl ⟨i, hi, h⟩
        · exact Or.inr h

/-! ## clear and setAll -/

theorem TwoLevel.clear_spec (v : TwoLevel w) : (v.clear k).toFinset k = ∅ ∧ (v.clear k).Ok k := by
  obtain ⟨hcells, -, -⟩ := forRows_spec (k := k) (w := w)
    (fun _ r res => ({ r with l1 := 0#w }, res)) (F := fun _ r j => (false, r.l2 j))
    (G := fun _ _ => False) (P := fun _ => True)
    (fun i r res j _ => by simp [Row.cell]) (fun _ _ _ _ => by simp) v
  have hcell : ∀ i < k, ∀ j < w, (((v.clear k).row i).cell j).1 = false := by
    intro i hi j hj
    rw [TwoLevel.clear, hcells i hi j hj]
  constructor
  · rw [Finset.eq_empty_iff_forall_notMem]
    intro idx hidx
    obtain ⟨hlt, hbit⟩ := mem_toFinset.mp hidx
    obtain ⟨h0, h1, -⟩ := idx_lt hlt
    rw [Cell.getLsbD_word, Cell.bit, hcell _ h0 _ h1] at hbit
    exact absurd hbit (by simp)
  · intro i hi j hj h
    rw [hcell i hi j hj] at h
    exact absurd h (by simp)

theorem Row.foldl_setL2 (r : Row w) (b : BitVec w) (n : ℕ) :
    ((List.range n).foldl (fun r i1 => r.setL2 i1 b) r).l1 = r.l1 ∧
      ∀ j < n, ((List.range n).foldl (fun r i1 => r.setL2 i1 b) r).l2 j = b := by
  induction n with
  | zero => simp
  | succ n ih =>
    rw [List.range_succ, List.foldl_append]
    refine ⟨ih.1, fun j hj => ?_⟩
    simp only [List.foldl_cons, List.foldl_nil, Row.setL2]
    by_cases hjn : j = n
    · rw [hjn, Function.update_self]
    · rw [Function.update_of_ne hjn]
      exact ih.2 j (by omega)

/-- `setAll` gives all indices. -/
theorem TwoLevel.setAll_spec (v : TwoLevel w) :
    (v.setAll k).toFinset k = Finset.range (size k w) ∧ (v.setAll k).Ok k := by
  obtain ⟨hcells, -, -⟩ := forRows_spec (k := k) (w := w)
    (fun _ r res => ((List.range w).foldl (fun r i1 => r.setL2 i1 (BitVec.allOnes w))
      { r with l1 := BitVec.allOnes w }, res)) (F := fun _ _ _ => (true, BitVec.allOnes w))
    (G := fun _ _ => False) (P := fun _ => True)
    (fun i r res j hj => by
      obtain ⟨hl1, hl2⟩ := Row.foldl_setL2 { r with l1 := BitVec.allOnes w } (BitVec.allOnes w) w
      rw [Row.cell, hl1, hl2 j hj]
      simp [hj]) (fun _ _ _ _ => by simp) v
  have hcell : ∀ i < k, ∀ j < w, ((v.setAll k).row i).cell j = (true, BitVec.allOnes w) := by
    intro i hi j hj
    rw [TwoLevel.setAll, hcells i hi j hj]
  constructor
  · ext idx
    rw [Finset.mem_range, mem_toFinset]
    refine and_iff_left_of_imp fun hlt => ?_
    obtain ⟨h0, h1, h2⟩ := idx_lt hlt
    rw [hcell _ h0 _ h1]
    simp [Cell.word, h2]
  · intro i hi j hj _
    rw [hcell i hi j hj]
    exact (ne_zero_iff _).mpr ⟨j, hj, by simp [hj]⟩

/-! ## setBit and clearBit -/

theorem Row.setBit_cell (r : Row w) {i1 : ℕ} (h1 : i1 < w) (i2 : ℕ) :
    (r.setBit i1 i2).1.cell i1 = (true, (r.cell i1).word ||| mask w i2) ∧
    (∀ j < w, j ≠ i1 → (r.setBit i1 i2).1.cell j = r.cell j) := by
  have hset := fun j (hj : j < w) => getLsbD_setBit r.l1 i1 hj
  unfold Row.setBit
  rw [getBit_eq _ h1]
  cases hbit : r.l1.getLsbD i1
  · refine ⟨?_, fun j hj hne => ?_⟩
    · simp [Row.cell, Row.setL2, BitVector.setBit, Cell.word, hbit, getLsbD_mask h1]
    · simp [Row.cell, Row.setL2, Function.update_of_ne hne, hset j hj, hne.symm]
  · refine ⟨?_, fun j hj hne => ?_⟩
    · simp [Row.cell, Row.setL2, BitVector.setBit, Cell.word, hbit]
    · simp [Row.cell, Row.setL2, Function.update_of_ne hne]

theorem Row.setBit_snd (r : Row w) {i1 i2 : ℕ} (h1 : i1 < w) (h2 : i2 < w) :
    (r.setBit i1 i2).2 = !(r.cell i1).word.getLsbD i2 := by
  unfold Row.setBit
  rw [getBit_eq _ h1]
  cases hbit : r.l1.getLsbD i1
  · simp [Row.setL2, BitVector.setBit_snd _ h2, Cell.word, Row.cell, hbit]
  · simp [BitVector.setBit_snd _ h2, Cell.word, Row.cell, hbit]

/-- `clearBit` on the cells of a row. -/
theorem Row.clearBit_cell (r : Row w) {i1 : ℕ} (h1 : i1 < w) (i2 : ℕ) :
    ((r.clearBit i1 i2).1.cell i1).word = (r.cell i1).word &&& ~~~(mask w i2) ∧
    ((r.cell i1).Ok → ((r.clearBit i1 i2).1.cell i1).Ok) ∧
    (∀ j < w, j ≠ i1 → (r.clearBit i1 i2).1.cell j = r.cell j) := by
  have hclear := fun j (hj : j < w) => getLsbD_clearBit r.l1 i1 hj
  unfold Row.clearBit
  rw [getBit_eq _ h1]
  cases hbit : r.l1.getLsbD i1
  · refine ⟨?_, fun hok => hok, fun j hj hne => rfl⟩
    simp [Row.cell, Cell.word, hbit]
  · have hself : (r.clearBit i1 i2).1.cell i1 =
        (!BitVector.empty (r.l2 i1 &&& ~~~(mask w i2)), r.l2 i1 &&& ~~~(mask w i2)) := by
      unfold Row.clearBit
      rw [getBit_eq _ h1, hbit, if_pos rfl]
      dsimp only [BitVector.clearBit]
      split_ifs with hempty
      · simp [Row.cell, Row.setL2, hempty, getLsbD_mask h1]
      · simp [Row.cell, Row.setL2, hempty, hbit]
    unfold Row.clearBit at hself
    rw [getBit_eq _ h1, hbit] at hself
    refine ⟨?_, fun _ => ?_, fun j hj hne => ?_⟩
    · rw [hself, Cell.word_of_empty]
      simp [Cell.word, Row.cell, hbit]
    · rw [hself]
      exact Cell.ok_of_empty _
    · simp only [if_true]
      split_ifs
      · simp [Row.cell, Row.setL2, Function.update_of_ne hne, hclear j hj, hne.symm]
      · exact Row.cell_setL2_of_ne _ _ hne

theorem Row.clearBit_snd (r : Row w) {i1 i2 : ℕ} (h1 : i1 < w) (h2 : i2 < w) :
    (r.clearBit i1 i2).2 = (r.cell i1).word.getLsbD i2 := by
  unfold Row.clearBit
  rw [getBit_eq _ h1]
  cases hbit : r.l1.getLsbD i1
  · simp [Cell.word, Row.cell, hbit]
  · simp [BitVector.clearBit_snd _ h2, Cell.word, Row.cell, hbit]

theorem eq_of_idx {x idx : ℕ} (h0 : idx0 w x = idx0 w idx) (h1 : idx1 w x = idx1 w idx)
    (h2 : idx2 w x = idx2 w idx) : x = idx := by
  rw [← index_idx w x, h0, h1, h2, index_idx]

/-- A change to one bit of one row, as a change to the set. -/
theorem TwoLevel.mem_toFinset_setRow {v : TwoLevel w} {r : Row w} {idx : ℕ} (hidx : idx < size k w)
    (hother : ∀ j < w, j ≠ idx1 w idx → r.cell j = (v.row (idx0 w idx)).cell j)
    (hbits : ∀ i2 < w, i2 ≠ idx2 w idx → (r.cell (idx1 w idx)).word.getLsbD i2 =
      ((v.row (idx0 w idx)).cell (idx1 w idx)).word.getLsbD i2) {x : ℕ} :
    x ∈ (v.setRow (idx0 w idx) r).toFinset k ↔
      (x = idx ∧ (r.cell (idx1 w idx)).word.getLsbD (idx2 w idx) = true) ∨
        (x ≠ idx ∧ x ∈ v.toFinset k) := by
  by_cases hxi : x = idx
  · subst hxi
    rw [mem_toFinset, and_iff_right hidx]
    simp [TwoLevel.setRow]
  · simp only [hxi, false_and, ne_eq, not_false_eq_true, true_and, false_or]
    rw [mem_toFinset, mem_toFinset]
    refine and_congr_right fun hx => ?_
    obtain ⟨h0, h1, h2⟩ := idx_lt hx
    by_cases he0 : idx0 w x = idx0 w idx
    · simp only [TwoLevel.setRow, he0, Function.update_self]
      by_cases he1 : idx1 w x = idx1 w idx
      · rw [he1, hbits _ h2 fun he2 => hxi (eq_of_idx he0 he1 he2)]
      · rw [hother _ h1 he1]
    · simp only [TwoLevel.setRow, Function.update_of_ne he0]

theorem TwoLevel.ok_setRow {v : TwoLevel w} {r : Row w} {i0 i1 : ℕ} (h0 : i0 < k) (hv : v.Ok k)
    (hself : (r.cell i1).Ok) (hother : ∀ j < w, j ≠ i1 → r.cell j = (v.row i0).cell j) :
    (v.setRow i0 r).Ok k := by
  intro i hi j hj
  by_cases hi0 : i = i0
  · subst hi0
    simp only [TwoLevel.setRow, Function.update_self]
    by_cases hj1 : j = i1
    · rw [hj1]
      exact hself
    · rw [hother j hj hj1]
      exact hv i h0 j hj
  · simp only [TwoLevel.setRow, Function.update_of_ne hi0]
    exact hv i hi j hj

theorem TwoLevel.setBit_spec {v : TwoLevel w} (hv : v.Ok k) {idx : ℕ} (hidx : idx < size k w) :
    ∃ v' res, v.setBit k idx = some (v', res) ∧ v'.toFinset k = insert idx (v.toFinset k) ∧
      (res = true ↔ insert idx (v.toFinset k) ≠ v.toFinset k) ∧ v'.Ok k := by
  obtain ⟨h0, h1, h2⟩ := idx_lt hidx
  obtain ⟨hself, hother⟩ := Row.setBit_cell (v.row (idx0 w idx)) h1 (idx2 w idx)
  have hbit : ∀ i2 < w, (((v.row (idx0 w idx)).setBit (idx1 w idx) (idx2 w idx)).1.cell
      (idx1 w idx)).word.getLsbD i2 = (((v.row (idx0 w idx)).cell (idx1 w idx)).word.getLsbD i2 ||
        decide (idx2 w idx = i2)) := by
    intro i2 hi2
    rw [hself, Cell.word, if_pos rfl, BitVec.getLsbD_or, getLsbD_mask hi2]
  refine ⟨_, _, by rw [TwoLevel.setBit, if_pos hidx], ?_, ?_, ?_⟩
  · ext x
    rw [mem_toFinset_setRow hidx hother fun i2 hi2 hne => by rw [hbit i2 hi2]; simp [hne.symm],
      hbit _ h2, Finset.mem_insert]
    by_cases hx : x = idx <;> simp [hx]
  · rw [Row.setBit_snd _ h1 h2, ne_eq, Finset.insert_eq_self, mem_toFinset, and_iff_right hidx]
    simp
  · refine ok_setRow h0 hv (fun _ => (ne_zero_iff _).mpr ⟨idx2 w idx, h2, ?_⟩) hother
    rw [hself, BitVec.getLsbD_or, getLsbD_mask h2]
    simp

theorem TwoLevel.clearBit_spec {v : TwoLevel w} (hv : v.Ok k) {idx : ℕ} (hidx : idx < size k w) :
    ∃ v' res, v.clearBit k idx = some (v', res) ∧ v'.toFinset k = (v.toFinset k).erase idx ∧
      (res = true ↔ (v.toFinset k).erase idx ≠ v.toFinset k) ∧ v'.Ok k := by
  obtain ⟨h0, h1, h2⟩ := idx_lt hidx
  obtain ⟨hself, hok, hother⟩ := Row.clearBit_cell (v.row (idx0 w idx)) h1 (idx2 w idx)
  have hbit : ∀ i2 < w, (((v.row (idx0 w idx)).clearBit (idx1 w idx) (idx2 w idx)).1.cell
      (idx1 w idx)).word.getLsbD i2 = (((v.row (idx0 w idx)).cell (idx1 w idx)).word.getLsbD i2 &&
        !decide (idx2 w idx = i2)) := by
    intro i2 hi2
    rw [hself, BitVec.getLsbD_and, BitVec.getLsbD_not, getLsbD_mask hi2]
    simp [hi2]
  refine ⟨_, _, by rw [TwoLevel.clearBit, if_pos hidx], ?_, ?_, ?_⟩
  · ext x
    rw [mem_toFinset_setRow hidx hother fun i2 hi2 hne => by rw [hbit i2 hi2]; simp [hne.symm],
      hbit _ h2, Finset.mem_erase]
    simp
  · rw [Row.clearBit_snd _ h1 h2, ne_eq, Finset.erase_eq_self, mem_toFinset, and_iff_right hidx,
      not_not]
  · exact ok_setRow h0 hv (hok (hv _ h0 _ h1)) hother

theorem TwoLevel.bit_check (v : TwoLevel w) {idx : ℕ} (hidx : ¬idx < size k w) :
    v.setBit k idx = none ∧ v.clearBit k idx = none := by
  simp [TwoLevel.setBit, TwoLevel.clearBit, hidx]

/-! ## The set operations -/

theorem operandRow_getD (o : Option (TwoLevel w)) (v : TwoLevel w) (i : ℕ) :
    (operandRow o i).getD (v.row i) = (o.getD v).row i := by
  cases o <;> rfl

theorem TwoLevel.toFinset_of_words {v u v' : TwoLevel w} {q : BitVec w → BitVec w → BitVec w}
    {p : Bool → Bool → Bool} (hq : ∀ b c, ∀ i < w, (q b c).getLsbD i = p (b.getLsbD i) (c.getLsbD i))
    (hwords : ∀ i < k, ∀ j < w, ((v'.row i).cell j).word =
      q ((v.row i).cell j).word ((u.row i).cell j).word) {idx : ℕ} (hidx : idx < size k w) :
    idx ∈ v'.toFinset k ↔
      p (decide (idx ∈ v.toFinset k)) (decide (idx ∈ u.toFinset k)) = true := by
  obtain ⟨h0, h1, h2⟩ := idx_lt hidx
  have hbit : ∀ x : TwoLevel w, decide (idx ∈ x.toFinset k) =
      ((x.row (idx0 w idx)).cell (idx1 w idx)).word.getLsbD (idx2 w idx) := by
    intro x
    rw [Bool.eq_iff_iff, decide_eq_true_eq, mem_toFinset, and_iff_right hidx]
  rw [hbit, hbit, mem_toFinset, and_iff_right hidx, hwords _ h0 _ h1, hq _ _ _ h2]

theorem TwoLevel.lt_of_mem {v : TwoLevel w} {idx : ℕ} (h : idx ∈ v.toFinset k) : idx < size k w :=
  (mem_toFinset.mp h).1

/-- `setUnion` adds the operand's members and tells whether the set has changed. -/
theorem TwoLevel.setUnion_spec {v : TwoLevel w} (hv : v.Ok k) {o : Option (TwoLevel w)}
    (ho : (o.getD v).Ok k) :
    (v.setUnion k o).1.toFinset k = v.toFinset k ∪ (o.getD v).toFinset k ∧
    ((v.setUnion k o).2 = true ↔ (v.setUnion k o).1.toFinset k ≠ v.toFinset k) ∧
    (v.setUnion k o).1.Ok k := by
  obtain ⟨hcells, -, hres⟩ := forRows_spec (k := k) (P := fun _ => True) _
    (fun i r res => (Row.setUnion_cell (operandRow o i) r res).1)
    (fun i r res _ => (Row.setUnion_cell (operandRow o i) r res).2) v
  simp only [operandRow_getD] at hcells hres
  have hwords : ∀ i < k, ∀ j < w, (((v.setUnion k o).1.row i).cell j).word =
      ((v.row i).cell j).word ||| (((o.getD v).row i).cell j).word := by
    intro i hi j hj
    rw [TwoLevel.setUnion, hcells i hi j hj, Cell.word_union]
  refine ⟨?_, ?_, ?_⟩
  · ext idx
    by_cases hidx : idx < size k w
    · rw [toFinset_of_words (p := or) (fun _ _ _ _ => BitVec.getLsbD_or) hwords hidx]
      simp
    · rw [Finset.mem_union]
      exact iff_of_false (fun h => hidx (lt_of_mem h))
        (fun h => hidx (h.elim lt_of_mem lt_of_mem))
  · rw [toFinset_ne_iff, TwoLevel.setUnion, hres fun _ _ => trivial]
    refine exists_congr fun i => and_congr_right fun hi => exists_congr fun j =>
      and_congr_right fun hj => ?_
    rw [hcells i hi j hj]
  · intro i hi j hj
    rw [TwoLevel.setUnion, hcells i hi j hj]
    exact (hv i hi j hj).union (ho i hi j hj)

/-- `setIntersection` keeps the operand's members and tells whether the set has changed. -/
theorem TwoLevel.setIntersection_spec {v : TwoLevel w} (hv : v.Ok k) (o : Option (TwoLevel w)) :
    (v.setIntersection k o).1.toFinset k = v.toFinset k ∩ (o.getD v).toFinset k ∧
    ((v.setIntersection k o).2 = true ↔ (v.setIntersection k o).1.toFinset k ≠ v.toFinset k) ∧
    (v.setIntersection k o).1.Ok k := by
  obtain ⟨hcells, -, hres⟩ := forRows_spec (k := k) (P := fun r => ∀ j < w, (r.cell j).Ok) _
    (fun i r res => (Row.setIntersection_cell (operandRow o i) r res).1)
    (fun i r res => (Row.setIntersection_cell (operandRow o i) r res).2) v
  simp only [operandRow_getD] at hcells hres
  have hwords : ∀ i < k, ∀ j < w, (((v.setIntersection k o).1.row i).cell j).word =
      ((v.row i).cell j).word &&& (((o.getD v).row i).cell j).word := by
    intro i hi j hj
    rw [TwoLevel.setIntersection, hcells i hi j hj, Cell.word_inter]
  refine ⟨?_, ?_, ?_⟩
  · ext idx
    by_cases hidx : idx < size k w
    · rw [toFinset_of_words (p := and) (fun _ _ _ _ => BitVec.getLsbD_and) hwords hidx]
      simp
    · rw [Finset.mem_inter]
      exact iff_of_false (fun h => hidx (lt_of_mem h)) (fun h => hidx (lt_of_mem h.1))
  · rw [toFinset_ne_iff, TwoLevel.setIntersection, hres hv]
    refine exists_congr fun i => and_congr_right fun hi => exists_congr fun j =>
      and_congr_right fun hj => ?_
    rw [hcells i hi j hj]
  · intro i hi j hj
    rw [TwoLevel.setIntersection, hcells i hi j hj]
    exact Cell.Ok.inter _ _

/-- `setDifference` removes the operand's members and tells whether the set has changed. -/
theorem TwoLevel.setDifference_spec {v : TwoLevel w} (hv : v.Ok k) (o : Option (TwoLevel w)) :
    (v.setDifference k o).1.toFinset k = v.toFinset k \ (o.getD v).toFinset k ∧
    ((v.setDifference k o).2 = true ↔ (v.setDifference k o).1.toFinset k ≠ v.toFinset k) ∧
    (v.setDifference k o).1.Ok k := by
  obtain ⟨hcells, -, hres⟩ := forRows_spec (k := k) (P := fun _ => True) _
    (fun i r res => (Row.setDifference_cell (operandRow o i) r res).1)
    (fun i r res _ => (Row.setDifference_cell (operandRow o i) r res).2) v
  simp only [operandRow_getD] at hcells hres
  have hwords : ∀ i < k, ∀ j < w, (((v.setDifference k o).1.row i).cell j).word =
      ((v.row i).cell j).word &&& ~~~(((o.getD v).row i).cell j).word := by
    intro i hi j hj
    rw [TwoLevel.setDifference, hcells i hi j hj, Cell.word_diff]
  refine ⟨?_, ?_, ?_⟩
  · ext idx
    by_cases hidx : idx < size k w
    · rw [toFinset_of_words (q := fun b c => b &&& ~~~c) (p := fun a b => a && !b)
        (fun b c i hi => by simp [hi]) hwords hidx]
      simp
    · rw [Finset.mem_sdiff]
      exact iff_of_false (fun h => hidx (lt_of_mem h)) (fun h => hidx (lt_of_mem h.1))
  · rw [toFinset_ne_iff, TwoLevel.setDifference, hres fun _ _ => trivial]
    refine exists_congr fun i => and_congr_right fun hi => exists_congr fun j =>
      and_congr_right fun hj => ?_
    rw [hcells i hi j hj]
  · intro i hi j hj
    rw [TwoLevel.setDifference, hcells i hi j hj]
    exact (hv i hi j hj).diff _

theorem TwoLevel.copyFrom_spec (v : TwoLevel w) {u : TwoLevel w} (hu : u.Ok k) :
    (v.copyFrom k (some u)).toFinset k = u.toFinset k ∧ (v.copyFrom k (some u)).Ok k := by
  obtain ⟨hempty, hok⟩ := v.clear_spec (k := k)
  obtain ⟨hset, -, hok'⟩ := TwoLevel.setUnion_spec hok (o := some u) hu
  refine ⟨?_, hok'⟩
  rw [TwoLevel.copyFrom, hset, hempty, Finset.empty_union]
  rfl

/-! ## empty, intersectsWith and getAndClearFirstOne -/

theorem TwoLevel.empty_iff {v : TwoLevel w} (hv : v.Ok k) :
    v.empty k = true ↔ v.toFinset k = ∅ := by
  have hmem := membersFrom_ne_nil hv (i := 0) (n := k) (by omega)
  have hnil : members k v = [] ↔ v.toFinset k = ∅ := by
    rw [List.eq_nil_iff_forall_not_mem, Finset.eq_empty_iff_forall_notMem]
    simp only [mem_members]
  rw [← hnil, TwoLevel.empty, List.all_eq_true, ← not_iff_not, ← ne_eq, members, hmem]
  simp only [List.mem_range, BitVector.empty_iff, Nat.zero_le, true_and, Nat.zero_add]
  push Not
  rfl

theorem forBits_or {p : ℕ → Bool} (t : BitVec w) (res : Bool) :
    forBits (fun i res => res || p i) t res = true ↔
      res = true ∨ ∃ i < w, t.getLsbD i = true ∧ p i = true := by
  rw [forBits_eq]
  have hfold : ∀ (l : List ℕ) (res : Bool), l.foldl (fun res i => res || p i) res = true ↔
      res = true ∨ ∃ i ∈ l, p i = true := by
    intro l
    induction l with
    | nil => simp
    | cons i l ih =>
      intro res
      rw [List.foldl_cons, ih]
      simp [or_assoc]
  rw [hfold]
  simp only [mem_ones, and_assoc]

theorem Row.intersectsWith_iff (r u : Row w) : r.intersectsWith u = true ↔
    ∃ i1 < w, ∃ i2 < w, (r.cell i1).word.getLsbD i2 = true ∧ (u.cell i1).word.getLsbD i2 = true := by
  unfold Row.intersectsWith
  rw [forBits_or]
  simp only [Bool.false_eq_true, false_or]
  refine exists_congr fun i1 => and_congr_right fun h1 => ?_
  rw [getBit_eq _ h1, BitVector.intersectsWith, Bool.and_eq_true, bne_iff_ne, ne_zero_iff]
  simp only [BitVector.setIntersection, BitVec.getLsbD_and, Bool.and_eq_true, Cell.getLsbD_word,
    Cell.bit, Row.cell]
  constructor
  · rintro ⟨⟨hr, hu⟩, -, i2, h2, hr2, hu2⟩
    exact ⟨i2, h2, ⟨hr, hr2⟩, hu, hu2⟩
  · rintro ⟨i2, h2, ⟨hr, hr2⟩, hu, hu2⟩
    exact ⟨⟨hr, hu⟩, hu, i2, h2, hr2, hu2⟩

theorem TwoLevel.intersectsWith_iff (v u : TwoLevel w) :
    v.intersectsWith k u = true ↔ ¬Disjoint (v.toFinset k) (u.toFinset k) := by
  rw [Finset.not_disjoint_iff, TwoLevel.intersectsWith, List.any_eq_true]
  simp only [List.mem_range, Row.intersectsWith_iff]
  constructor
  · rintro ⟨i0, h0, i1, h1, i2, h2, hv, hu⟩
    exact ⟨index w i0 i1 i2, (index_mem_toFinset h0 h1 h2).mpr hv,
      (index_mem_toFinset h0 h1 h2).mpr hu⟩
  · rintro ⟨idx, hv, hu⟩
    obtain ⟨hidx, hv⟩ := mem_toFinset.mp hv
    obtain ⟨-, hu⟩ := mem_toFinset.mp hu
    obtain ⟨h0, h1, h2⟩ := idx_lt hidx
    exact ⟨_, h0, _, h1, _, h2, hv, hu⟩

/-- The row from which `getAndClearFirstOne` has taken a bit. -/
def Row.clearFirst (r : Row w) (i1 i2 : ℕ) : Row w :=
  let b := (BitVector.clearBit (r.l2 i1) i2).1
  let r := { r with l1 := (BitVector.clearBit r.l1 i1).1 }.setL2 i1 b
  if !BitVector.empty b then { r with l1 := (BitVector.setBit r.l1 i1).1 } else r

/-- The cells of that row: the first-level bit is set again if the word still has bits. -/
theorem Row.clearFirst_cell (r : Row w) {i1 : ℕ} (h1 : i1 < w) (i2 : ℕ) :
    (r.clearFirst i1 i2).cell i1 =
      (!BitVector.empty (r.l2 i1 &&& ~~~(mask w i2)), r.l2 i1 &&& ~~~(mask w i2)) ∧
    ∀ j < w, j ≠ i1 → (r.clearFirst i1 i2).cell j = r.cell j := by
  have hclear := fun j (hj : j < w) => getLsbD_clearBit r.l1 i1 hj
  have hset := fun j (hj : j < w) => getLsbD_setBit (BitVector.clearBit r.l1 i1).1 i1 hj
  have hempty : BitVector.empty (BitVector.clearBit (r.l2 i1) i2).1 =
      BitVector.empty (r.l2 i1 &&& ~~~(mask w i2)) := rfl
  unfold Row.clearFirst
  dsimp only
  rw [hempty]
  cases BitVector.empty (r.l2 i1 &&& ~~~(mask w i2))
  · refine ⟨?_, fun j hj hne => ?_⟩
    · have hbit : (BitVector.setBit (BitVector.clearBit r.l1 i1).1 i1).1.getLsbD i1 = true := by
        rw [hset _ h1]
        simp
      simp only [Row.cell, Row.setL2, Bool.not_false, if_true, Function.update_self, hbit]
      rfl
    · simp [Row.cell, Row.setL2, hset _ hj, hclear _ hj, Function.update_of_ne hne, hne.symm]
  · refine ⟨?_, fun j hj hne => ?_⟩
    · simp [Row.cell, Row.setL2, BitVector.clearBit, getLsbD_mask h1]
    · simp [Row.cell, Row.setL2, hclear _ hj, Function.update_of_ne hne, hne.symm]

/-- `getAndClearFirstOne` takes the least bit of a row. -/
theorem Row.getAndClearFirstOne_spec {r : Row w} (hr : ∀ j < w, (r.cell j).Ok) (hne : r.l1 ≠ 0#w) :
    ∃ i1 < w, ∃ i2 < w, ∃ r', r.getAndClearFirstOne = some (i1, i2, r') ∧
      (∀ j < w, ∀ l < w, (r.cell j).word.getLsbD l = true → i1 < j ∨ i1 = j ∧ i2 ≤ l) ∧
      (r.cell i1).word.getLsbD i2 = true ∧ (r'.cell i1).Ok ∧
      (r'.cell i1).word = (r.cell i1).word &&& ~~~(mask w i2) ∧
      ∀ j < w, j ≠ i1 → r'.cell j = r.cell j := by
  obtain ⟨i1, h1, hget1, hbit1, hleast1⟩ := getAndClearFirstOne_least hne
  obtain ⟨i2, h2, hget2, hbit2, hleast2⟩ := getAndClearFirstOne_least (hr i1 h1 hbit1)
  have hword : (r.cell i1).word = r.l2 i1 := if_pos hbit1
  obtain ⟨hself, hother⟩ := Row.clearFirst_cell r h1 i2
  refine ⟨i1, h1, i2, h2, r.clearFirst i1 i2, ?_, ?_, ?_, ?_, ?_, hother⟩
  · unfold Row.getAndClearFirstOne
    rw [hget1]
    dsimp only [Row.cell] at hget2
    simp only [Option.bind_eq_bind, Option.bind_some, hget2]
    rfl
  · intro j hj l hl hbit
    rw [Cell.getLsbD_word, Cell.bit, Bool.and_eq_true] at hbit
    rcases Nat.lt_or_eq_of_le (hleast1 j hj hbit.1) with hlt | rfl
    · exact Or.inl hlt
    · exact Or.inr ⟨rfl, hleast2 l hl hbit.2⟩
  · rw [hword]
    exact hbit2
  · rw [hself]
    exact Cell.ok_of_empty _
  · rw [hself, Cell.word_of_empty, hword]

/-- The rows that `getAndClearFirstOne` passes over are empty. -/
theorem TwoLevel.getAndClearFirstOneFrom_spec {v : TwoLevel w} {n i : ℕ}
    (hn : i + n = k) (hbefore : ∀ i0 < i, (v.row i0).l1 = 0#w) :
    ((∀ i0 < k, (v.row i0).l1 = 0#w) ∧ v.getAndClearFirstOneFrom i n = none) ∨
    ∃ i0 < k, (v.row i0).l1 ≠ 0#w ∧ (∀ i' < i0, (v.row i').l1 = 0#w) ∧
      ∀ i1 i2 r', (v.row i0).getAndClearFirstOne = some (i1, i2, r') →
        v.getAndClearFirstOneFrom i n = some (v.setRow i0 r', index w i0 i1 i2) := by
  induction n generalizing i with
  | zero => exact Or.inl ⟨fun i0 h => hbefore i0 (by omega), rfl⟩
  | succ n ih =>
    unfold TwoLevel.getAndClearFirstOneFrom
    by_cases hempty : BitVector.empty (v.row i).l1 = true
    · rw [if_pos hempty]
      apply ih (by omega)
      intro i0 hi0
      rcases Nat.lt_succ_iff_lt_or_eq.mp hi0 with hlt | rfl
      · exact hbefore i0 hlt
      · exact BitVector.empty_iff.mp hempty
    · rw [if_neg hempty]
      refine Or.inr ⟨i, by omega, fun h => hempty (BitVector.empty_iff.mpr h), hbefore, ?_⟩
      intro i1 i2 r' hget
      rw [hget]
      rfl

/-- `getAndClearFirstOne` removes and returns the least member; the empty vector fails its `CHECK`. -/
theorem TwoLevel.getAndClearFirstOne_spec {v : TwoLevel w} (hv : v.Ok k) :
    (v.toFinset k = ∅ ∧ v.getAndClearFirstOne k = none) ∨
    ∃ v' idx, v.getAndClearFirstOne k = some (v', idx) ∧ idx ∈ v.toFinset k ∧
      (∀ x ∈ v.toFinset k, idx ≤ x) ∧ v'.toFinset k = (v.toFinset k).erase idx ∧ v'.Ok k := by
  rcases TwoLevel.getAndClearFirstOneFrom_spec (k := k) (v := v) (n := k) (i := 0) (by omega) (by simp) with
    ⟨hempty, hnone⟩ | ⟨i0, h0, hne, hbefore, hsome⟩
  · refine Or.inl ⟨?_, hnone⟩
    rw [← TwoLevel.empty_iff hv, TwoLevel.empty, List.all_eq_true]
    intro i hi
    exact BitVector.empty_iff.mpr (hempty i (List.mem_range.mp hi))
  · obtain ⟨i1, h1, i2, h2, r', hget, hleast, hbit, hok, hword, hother⟩ :=
      Row.getAndClearFirstOne_spec (hv i0 h0) hne
    obtain ⟨e0, e1, e2⟩ := idx_index i0 h1 h2
    refine Or.inr ⟨_, _, hsome i1 i2 r' hget, (index_mem_toFinset h0 h1 h2).mpr hbit, ?_, ?_,
      ok_setRow h0 hv hok hother⟩
    · intro x hx
      obtain ⟨hlt, hxbit⟩ := mem_toFinset.mp hx
      obtain ⟨-, hx1, hx2⟩ := idx_lt hlt
      rw [← index_idx w x]
      rcases Nat.lt_trichotomy (idx0 w x) i0 with hrow | hrow | hrow
      · rw [Cell.getLsbD_word, Cell.bit, Row.cell, hbefore _ hrow] at hxbit
        exact absurd hxbit (by simp)
      · rw [hrow] at hxbit ⊢
        rcases hleast _ hx1 _ hx2 hxbit with hlt | ⟨heq, hle⟩
        · exact Nat.le_of_lt (index_lt_of_word hlt h2)
        · rw [← heq]
          exact Nat.add_le_add_left hle _
      · exact Nat.le_of_lt (index_lt_of_row hrow h1 h2)
    · ext x
      have hmem := mem_toFinset_setRow (k := k) (v := v) (r := r') (x := x) (index_lt h0 h1 h2)
      rw [e0, e1, e2] at hmem
      rw [hmem hother ?_, hword, Finset.mem_erase, BitVec.getLsbD_and, BitVec.getLsbD_not,
        getLsbD_mask h2]
      · simp
      · intro l hl hne
        rw [hword, BitVec.getLsbD_and, BitVec.getLsbD_not, getLsbD_mask hl]
        simp [hl, hne.symm]

/-! ## Sequences of operations -/

/-- An operation on a vector of a family, with another one of the family as its operand. -/
inductive Op (ι : Type)
  | clear (i : ι)
  | setAll (i : ι)
  /-- `vs[i].setBit(idx)`. -/
  | setBit (i : ι) (idx : ℕ)
  /-- `vs[i].clearBit(idx)`. -/
  | clearBit (i : ι) (idx : ℕ)
  /-- `vs[i].setUnion(vs[j])`. -/
  | setUnion (i j : ι)
  /-- `vs[i].setIntersection(vs[j])`. -/
  | setIntersection (i j : ι)
  /-- `vs[i].setDifference(vs[j])`. -/
  | setDifference (i j : ι)
  /-- `vs[i].copyFrom(vs[j])`. -/
  | copyFrom (i j : ι)
  | getAndClearFirstOne (i : ι)

/-- What an operation returns. -/
inductive Result
  /-- Nothing. -/
  | unit
  /-- Whether bits have changed. -/
  | changed (res : Bool)
  /-- An index. -/
  | index (idx : ℕ)
  deriving DecidableEq

variable {ι : Type} [DecidableEq ι]

/-- The operand `vs[j]` of an operation on `vs[i]`. -/
def operand (vs : ι → TwoLevel w) (i j : ι) : Option (TwoLevel w) :=
  if i = j then none else some (vs j)

/-- An operation on the vectors; `none` is a failed `CHECK`. -/
def Op.exec (k : ℕ) (vs : ι → TwoLevel w) : Op ι → Option ((ι → TwoLevel w) × Result)
  | .clear i => some (Function.update vs i ((vs i).clear k), .unit)
  | .setAll i => some (Function.update vs i ((vs i).setAll k), .unit)
  | .setBit i idx =>
    ((vs i).setBit k idx).map (fun p => (Function.update vs i p.1, .changed p.2))
  | .clearBit i idx =>
    ((vs i).clearBit k idx).map (fun p => (Function.update vs i p.1, .changed p.2))
  | .setUnion i j =>
    let p := (vs i).setUnion k (operand vs i j)
    some (Function.update vs i p.1, .changed p.2)
  | .setIntersection i j =>
    let p := (vs i).setIntersection k (operand vs i j)
    some (Function.update vs i p.1, .changed p.2)
  | .setDifference i j =>
    let p := (vs i).setDifference k (operand vs i j)
    some (Function.update vs i p.1, .changed p.2)
  | .copyFrom i j => some (Function.update vs i ((vs i).copyFrom k (operand vs i j)), .unit)
  | .getAndClearFirstOne i =>
    ((vs i).getAndClearFirstOne k).map (fun p => (Function.update vs i p.1, .index p.2))

/-- A set is stored, and the result tells whether it has changed. -/
def store (S : ι → Finset ℕ) (i : ι) (s : Finset ℕ) : (ι → Finset ℕ) × Result :=
  (Function.update S i s, .changed (decide (s ≠ S i)))

/-- What an operation denotes on sets of indices below `n`; `none` where it is not defined. -/
def Op.denote (n : ℕ) (S : ι → Finset ℕ) : Op ι → Option ((ι → Finset ℕ) × Result)
  | .clear i => some (Function.update S i ∅, .unit)
  | .setAll i => some (Function.update S i (Finset.range n), .unit)
  | .setBit i idx => if idx < n then some (store S i (insert idx (S i))) else none
  | .clearBit i idx => if idx < n then some (store S i ((S i).erase idx)) else none
  | .setUnion i j => some (store S i (S i ∪ S j))
  | .setIntersection i j => some (store S i (S i ∩ S j))
  | .setDifference i j => some (store S i (S i \ S j))
  | .copyFrom i j => some (Function.update S i (S j), .unit)
  | .getAndClearFirstOne i =>
    if h : (S i).Nonempty then
      some (Function.update S i ((S i).erase ((S i).min' h)), .index ((S i).min' h))
    else none

/-- `vs[i].copyFrom(vs[i])`. -/
def Op.SelfCopy (op : Op ι) : Prop := ∃ i, op = .copyFrom i i

/-- The sets of a family of vectors. -/
def sets (k : ℕ) (vs : ι → TwoLevel w) (i : ι) : Finset ℕ := (vs i).toFinset k

theorem sets_update (vs : ι → TwoLevel w) (i : ι) (v : TwoLevel w) :
    sets k (Function.update vs i v) = Function.update (sets k vs) i (v.toFinset k) :=
  Function.comp_update (TwoLevel.toFinset k) vs i v

theorem ok_update {vs : ι → TwoLevel w} (hvs : ∀ i, (vs i).Ok k) {i : ι} {v : TwoLevel w}
    (hv : v.Ok k) (j : ι) : (Function.update vs i v j).Ok k := by
  by_cases hji : j = i
  · rw [hji, Function.update_self]
    exact hv
  · rw [Function.update_of_ne hji]
    exact hvs j

theorem operand_getD (vs : ι → TwoLevel w) (i j : ι) : (operand vs i j).getD (vs i) = vs j := by
  unfold operand
  split_ifs with hij
  · rw [hij]
    rfl
  · rfl

theorem sets_store {vs : ι → TwoLevel w} {i : ι} {v : TwoLevel w} {res : Bool} {s : Finset ℕ}
    (hset : v.toFinset k = s) (hres : res = true ↔ s ≠ (vs i).toFinset k) :
    (sets k (Function.update vs i v), Result.changed res) = store (sets k vs) i s := by
  have hflag : res = decide (s ≠ (vs i).toFinset k) := by
    rw [Bool.eq_iff_iff, hres, decide_eq_true_eq]
  rw [sets_update, hset, hflag]
  rfl

/-- One operation does on the vectors what it denotes on the sets, and keeps them in order. -/
theorem Op.exec_refines {vs : ι → TwoLevel w} (hvs : ∀ i, (vs i).Ok k) {op : Op ι}
    (hop : ¬op.SelfCopy) :
    (op.exec k vs).map (fun p => (sets k p.1, p.2)) = op.denote (size k w) (sets k vs) ∧
    ∀ p, op.exec k vs = some p → ∀ i, (p.1 i).Ok k := by
  cases op with
  | clear i =>
    obtain ⟨hset, hok⟩ := (vs i).clear_spec (k := k)
    refine ⟨?_, ?_⟩
    · simp only [Op.exec, Op.denote, Option.map_some, sets_update, hset]
    · rintro p ⟨⟩
      exact ok_update hvs hok
  | setAll i =>
    obtain ⟨hset, hok⟩ := (vs i).setAll_spec (k := k)
    refine ⟨?_, ?_⟩
    · simp only [Op.exec, Op.denote, Option.map_some, sets_update, hset]
    · rintro p ⟨⟩
      exact ok_update hvs hok
  | setBit i idx =>
    by_cases hidx : idx < size k w
    · obtain ⟨v', res, hexec, hset, hres, hok⟩ := TwoLevel.setBit_spec (hvs i) hidx
      simp only [Op.exec, Op.denote, hexec, Option.map_some, if_pos hidx]
      refine ⟨congrArg some (sets_store hset hres), ?_⟩
      rintro p ⟨⟩
      exact ok_update hvs hok
    · simp [Op.exec, Op.denote, hidx, ((vs i).bit_check hidx).1]
  | clearBit i idx =>
    by_cases hidx : idx < size k w
    · obtain ⟨v', res, hexec, hset, hres, hok⟩ := TwoLevel.clearBit_spec (hvs i) hidx
      simp only [Op.exec, Op.denote, hexec, Option.map_some, if_pos hidx]
      refine ⟨congrArg some (sets_store hset hres), ?_⟩
      rintro p ⟨⟩
      exact ok_update hvs hok
    · simp [Op.exec, Op.denote, hidx, ((vs i).bit_check hidx).2]
  | setUnion i j =>
    obtain ⟨hset, hres, hok⟩ := TwoLevel.setUnion_spec (hvs i) (o := operand vs i j)
      (by rw [operand_getD]; exact hvs j)
    rw [operand_getD] at hset
    rw [hset] at hres
    refine ⟨congrArg some (sets_store hset hres), ?_⟩
    rintro p ⟨⟩
    exact ok_update hvs hok
  | setIntersection i j =>
    obtain ⟨hset, hres, hok⟩ := TwoLevel.setIntersection_spec (hvs i) (operand vs i j)
    rw [operand_getD] at hset
    rw [hset] at hres
    refine ⟨congrArg some (sets_store hset hres), ?_⟩
    rintro p ⟨⟩
    exact ok_update hvs hok
  | setDifference i j =>
    obtain ⟨hset, hres, hok⟩ := TwoLevel.setDifference_spec (hvs i) (operand vs i j)
    rw [operand_getD] at hset
    rw [hset] at hres
    refine ⟨congrArg some (sets_store hset hres), ?_⟩
    rintro p ⟨⟩
    exact ok_update hvs hok
  | copyFrom i j =>
    have hij : i ≠ j := fun h => hop ⟨j, by rw [h]⟩
    have hoperand : operand vs i j = some (vs j) := if_neg hij
    obtain ⟨hset, hok⟩ := (vs i).copyFrom_spec (hvs j)
    simp only [Op.exec, Op.denote, Option.map_some, sets_update, hoperand, hset]
    refine ⟨rfl, ?_⟩
    rintro p ⟨⟩
    exact ok_update hvs hok
  | getAndClearFirstOne i =>
    rcases TwoLevel.getAndClearFirstOne_spec (hvs i) with
      ⟨hempty, hexec⟩ | ⟨v', idx, hexec, hmem, hleast, hset, hok⟩
    · simp [Op.exec, Op.denote, hexec, sets, hempty]
    · have hne : (sets k vs i).Nonempty := ⟨idx, hmem⟩
      have hmin : (sets k vs i).min' hne = idx :=
        le_antisymm (Finset.min'_le _ _ hmem) (Finset.le_min' _ _ _ hleast)
      simp only [Op.exec, Op.denote, hexec, Option.map_some, dif_pos hne, hmin, sets_update, hset]
      refine ⟨rfl, ?_⟩
      rintro p ⟨⟩
      exact ok_update hvs hok

/-- Every sequence of operations, from vectors that have been cleared with anything in their second
levels, returns what it denotes on sets and leaves vectors that represent these sets. In each of them
a set first-level bit has a word with bits, `empty` and `intersectsWith` are exact, and the loop over
an iterator uses the members in increasing order and stops. -/
theorem twoLevelBitVector_refines (k w : ℕ) (stale : ι → TwoLevel w) (ops : List (Op ι))
    (hops : ∀ op ∈ ops, ¬op.SelfCopy) :
    (runOps (Op.exec k) ops (fun i => (stale i).clear k)).map (fun p => (sets k p.1, p.2)) =
      runOps (Op.denote (size k w)) ops (fun _ => ∅) ∧
    ∀ vs rs, runOps (Op.exec k) ops (fun i => (stale i).clear k) = some (vs, rs) → ∀ i,
      (∀ i0 < k, ∀ i1 < w, ((vs i).row i0).l1.getLsbD i1 = true → ((vs i).row i0).l2 i1 ≠ 0#w) ∧
      (vs i).empty k = decide (sets k vs i = ∅) ∧
      (∀ j, (vs i).intersectsWith k (vs j) = decide (¬Disjoint (sets k vs i) (sets k vs j))) ∧
      (Iterator.start w).Yields k (vs i) ((sets k vs i).sort (· ≤ ·)) := by
  have hstart : ∀ i, ((stale i).clear k).Ok k := fun i => ((stale i).clear_spec).2
  have hempty : sets k (fun i => (stale i).clear k) = fun _ => ∅ :=
    funext fun i => ((stale i).clear_spec).1
  obtain ⟨hrun, hok⟩ := runOps_map (fun _ _ hvs hop => Op.exec_refines hvs hop)
    hops hstart
  rw [hempty] at hrun
  refine ⟨hrun, fun vs rs hvs i => ?_⟩
  have hv := hok _ hvs
  refine ⟨hv i, ?_, fun j => ?_, ?_⟩
  · rw [Bool.eq_iff_iff, decide_eq_true_eq]
    exact TwoLevel.empty_iff (hv i)
  · rw [Bool.eq_iff_iff, decide_eq_true_eq]
    exact (vs i).intersectsWith_iff (vs j)
  · rw [sets, TwoLevel.sort_toFinset]
    exact Iterator.yields_members (hv i)

/-- Bits of two vectors of 16 bits, one copied into the other. -/
theorem twoLevelBitVector_refines_copy :
    (runOps (Op.exec 1) [.setBit 0 9, .setBit 0 2, .setBit 1 3, .copyFrom 1 0,
        .getAndClearFirstOne 1]
      (fun _ : Fin 2 => (⟨fun _ => ⟨0#4, fun _ => 15#4⟩⟩ : TwoLevel 4).clear 1)).map
        (fun p => (sets 1 p.1, p.2)) =
      runOps (Op.denote (size 1 4)) [.setBit 0 9, .setBit 0 2, .setBit 1 3, .copyFrom 1 0,
        .getAndClearFirstOne 1] (fun _ => ∅) :=
  (twoLevelBitVector_refines 1 4 (fun _ : Fin 2 => ⟨fun _ => ⟨0#4, fun _ => 15#4⟩⟩)
    [.setBit 0 9, .setBit 0 2, .setBit 1 3, .copyFrom 1 0, .getAndClearFirstOne 1]
    (by
      intro op hop
      rintro ⟨i, rfl⟩
      simp only [List.mem_cons, reduceCtorEq, Op.copyFrom.injEq, List.not_mem_nil, or_false,
        false_or] at hop
      exact absurd (hop.1.symm.trans hop.2) (by decide))).1

/-- A second-level word may have bits although its first-level bit is clear: `clear` leaves it. -/
theorem twoLevelBitVector_stale_word :
    ∃ stale : TwoLevel 4, ¬∀ i0 < 1, ∀ i1 < 4,
      (((stale.clear 1).row i0).l1.getLsbD i1 = true ↔ ((stale.clear 1).row i0).l2 i1 ≠ 0#4) := by
  refine ⟨⟨fun _ => ⟨0#4, fun _ => 15#4⟩⟩, fun h => ?_⟩
  exact absurd (h 0 (by decide) 0 (by decide)) (by decide)

end Tasan.BitVector
