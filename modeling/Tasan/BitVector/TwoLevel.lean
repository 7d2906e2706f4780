import Tasan.BitVector.Basic

/-!
# Two-level bit vectors

`TwoLevelBitVector` of `sanitizer_bitvector.h`, for words of any width `w` and any `kLevel1Size`. A
set bit of the first level says that the word of the second level has bits. A word of the second level
whose first-level bit is clear is stale: it keeps whatever was there, and every operation has to ignore
or clear it.

The operand of a set operation may be the vector itself, which is written as `none`: it is read again
at each access. The operations work on one pair of a first-level bit and its word at a time, a `Cell`.
Each operation has one formula for the cells, and the facts about sets are proved for a cell and then
lifted to a row and to the vector.
-/

namespace Tasan.BitVector

/-- `l1_[i0]` and `l2_[i0]`. -/
structure Row (w : ℕ) where
  /-- The first level. -/
  l1 : BitVec w
  /-- The second level, for each bit of the first. -/
  l2 : ℕ → BitVec w

/-- `TwoLevelBitVector`, by its rows. -/
structure TwoLevel (w : ℕ) where
  /-- The rows below `kLevel1Size`. -/
  row : ℕ → Row w

variable {w : ℕ}

/-- A word of the second level is stored. -/
def Row.setL2 (r : Row w) (i1 : ℕ) (b : BitVec w) : Row w :=
  { r with l2 := Function.update r.l2 i1 b }

/-- A row is stored. -/
def TwoLevel.setRow (v : TwoLevel w) (i0 : ℕ) (r : Row w) : TwoLevel w where
  row := Function.update v.row i0 r

/-- `kSize`. -/
def size (k w : ℕ) : ℕ := w * w * k

/-- `idx0`. -/
def idx0 (w idx : ℕ) : ℕ := idx / (w * w)

/-- `idx1`. -/
def idx1 (w idx : ℕ) : ℕ := idx / w % w

/-- `idx2`. -/
def idx2 (w idx : ℕ) : ℕ := idx % w

/-! ## The operations -/

/-- `for (i0 = 0; i0 < kLevel1Size; i0++)` over the rows, with a flag. -/
def forRows (k : ℕ) (body : ℕ → Row w → Bool → Row w × Bool) (v : TwoLevel w) : TwoLevel w × Bool :=
  (List.range k).foldl (fun s i0 =>
    let (r, res) := body i0 (s.1.row i0) s.2
    (s.1.setRow i0 r, res)) (v, false)

/-- `clear`. -/
def TwoLevel.clear (k : ℕ) (v : TwoLevel w) : TwoLevel w :=
  (forRows k (fun _ r res => ({ r with l1 := 0#w }, res)) v).1

/-- `setAll`. -/
def TwoLevel.setAll (k : ℕ) (v : TwoLevel w) : TwoLevel w :=
  (forRows k (fun _ r res =>
    ((List.range w).foldl (fun r i1 => r.setL2 i1 (BitVec.allOnes w))
      { r with l1 := BitVec.allOnes w }, res)) v).1

/-- `empty`. -/
def TwoLevel.empty (k : ℕ) (v : TwoLevel w) : Bool :=
  (List.range k).all (fun i0 => BitVector.empty (v.row i0).l1)

/-- `setBit` on a row. -/
def Row.setBit (r : Row w) (i1 i2 : ℕ) : Row w × Bool :=
  let r := if !BitVector.getBit r.l1 i1 then
      { r with l1 := (BitVector.setBit r.l1 i1).1 }.setL2 i1 0#w
    else r
  let (b, res) := BitVector.setBit (r.l2 i1) i2
  (r.setL2 i1 b, res)

/-- `clearBit` on a row. -/
def Row.clearBit (r : Row w) (i1 i2 : ℕ) : Row w × Bool :=
  if BitVector.getBit r.l1 i1 then
    let (b, res) := BitVector.clearBit (r.l2 i1) i2
    let r := r.setL2 i1 b
    (if BitVector.empty b then { r with l1 := (BitVector.clearBit r.l1 i1).1 } else r, res)
  else (r, false)

/-- `setBit`; `none` is a failed `CHECK`. -/
def TwoLevel.setBit (k : ℕ) (v : TwoLevel w) (idx : ℕ) : Option (TwoLevel w × Bool) :=
  if idx < size k w then
    let (r, res) := (v.row (idx0 w idx)).setBit (idx1 w idx) (idx2 w idx)
    some (v.setRow (idx0 w idx) r, res)
  else none

/-- `clearBit`. -/
def TwoLevel.clearBit (k : ℕ) (v : TwoLevel w) (idx : ℕ) : Option (TwoLevel w × Bool) :=
  if idx < size k w then
    let (r, res) := (v.row (idx0 w idx)).clearBit (idx1 w idx) (idx2 w idx)
    some (v.setRow (idx0 w idx) r, res)
  else none

/-- `getBit`. -/
def TwoLevel.getBit (k : ℕ) (v : TwoLevel w) (idx : ℕ) : Option Bool :=
  if idx < size k w then
    let r := v.row (idx0 w idx)
    some (BitVector.getBit r.l1 (idx1 w idx) &&
      BitVector.getBit (r.l2 (idx1 w idx)) (idx2 w idx))
  else none

/-- `getAndClearFirstOne` on a row that is not empty. -/
def Row.getAndClearFirstOne (r : Row w) : Option (ℕ × ℕ × Row w) := do
  let (i1, l1) ← BitVector.getAndClearFirstOne r.l1
  let (i2, b) ← BitVector.getAndClearFirstOne (r.l2 i1)
  let r := { r with l1 := l1 }.setL2 i1 b
  return (i1, i2, if !BitVector.empty b then { r with l1 := (BitVector.setBit r.l1 i1).1 } else r)

/-- `getAndClearFirstOne`: the rows from `i0` on, of which `n` are left. -/
def TwoLevel.getAndClearFirstOneFrom (v : TwoLevel w) (i0 : ℕ) : ℕ → Option (TwoLevel w × ℕ)
  | 0 => none
  | n + 1 =>
    if BitVector.empty (v.row i0).l1 then v.getAndClearFirstOneFrom (i0 + 1) n
    else do
      let (i1, i2, r) ← (v.row i0).getAndClearFirstOne
      return (v.setRow i0 r, i0 * w * w + i1 * w + i2)

/-- `getAndClearFirstOne`. -/
def TwoLevel.getAndClearFirstOne (k : ℕ) (v : TwoLevel w) : Option (TwoLevel w × ℕ) :=
  v.getAndClearFirstOneFrom 0 k

/-- One word of `setUnion`. -/
def unionStep (o : Option (Row w)) (i1 : ℕ) (s : Row w × Bool) : Row w × Bool :=
  let (l1, fresh) := BitVector.setBit s.1.l1 i1
  let r : Row w := { s.1 with l1 := l1 }
  let r := if fresh then r.setL2 i1 0#w else r
  let (b, new) := BitVector.setUnion (r.l2 i1) ((o.getD r).l2 i1)
  (r.setL2 i1 b, s.2 || new)

/-- One word of `setIntersection`. -/
def intersectionStep (o : Option (Row w)) (i1 : ℕ) (s : Row w × Bool) : Row w × Bool :=
  let (b, gone) := BitVector.setIntersection (s.1.l2 i1) ((o.getD s.1).l2 i1)
  let r := s.1.setL2 i1 b
  (if BitVector.empty b then { r with l1 := (BitVector.clearBit r.l1 i1).1 } else r, s.2 || gone)

/-- One word of `setDifference`. -/
def differenceStep (o : Option (Row w)) (i1 : ℕ) (s : Row w × Bool) : Row w × Bool :=
  let (b, gone) := BitVector.setDifference (s.1.l2 i1) ((o.getD s.1).l2 i1)
  let r := s.1.setL2 i1 b
  (if BitVector.empty b then { r with l1 := (BitVector.clearBit r.l1 i1).1 } else r, s.2 || gone)

/-- `setUnion` on a row. -/
def Row.setUnion (o : Option (Row w)) (r : Row w) (res : Bool) : Row w × Bool :=
  forBits (unionStep o) (o.getD r).l1 (r, res)

/-- `setIntersection` on a row. The loop has nothing to do if the first level is empty. -/
def Row.setIntersection (o : Option (Row w)) (r : Row w) (res : Bool) : Row w × Bool :=
  let (l1, gone) := BitVector.setIntersection r.l1 (o.getD r).l1
  forBits (intersectionStep o) l1 ({ r with l1 := l1 }, res || gone)

/-- `setDifference` on a row. -/
def Row.setDifference (o : Option (Row w)) (r : Row w) (res : Bool) : Row w × Bool :=
  forBits (differenceStep o) (BitVector.setIntersection r.l1 (o.getD r).l1).1 (r, res)

/-- The row of an operand. -/
def operandRow (o : Option (TwoLevel w)) (i0 : ℕ) : Option (Row w) := o.map (fun v => v.row i0)

/-- `setUnion`. -/
def TwoLevel.setUnion (k : ℕ) (v : TwoLevel w) (o : Option (TwoLevel w)) : TwoLevel w × Bool :=
  forRows k (fun i0 r res => r.setUnion (operandRow o i0) res) v

/-- `setIntersection`. -/
def TwoLevel.setIntersection (k : ℕ) (v : TwoLevel w) (o : Option (TwoLevel w)) :
    TwoLevel w × Bool :=
  forRows k (fun i0 r res => r.setIntersection (operandRow o i0) res) v

/-- `setDifference`. -/
def TwoLevel.setDifference (k : ℕ) (v : TwoLevel w) (o : Option (TwoLevel w)) :
    TwoLevel w × Bool :=
  forRows k (fun i0 r res => r.setDifference (operandRow o i0) res) v

/-- `copyFrom`: the operand is read after the vector has been cleared. -/
def TwoLevel.copyFrom (k : ℕ) (v : TwoLevel w) (o : Option (TwoLevel w)) : TwoLevel w :=
  ((v.clear k).setUnion k o).1

/-- `intersectsWith` on a row. The word of the operand is looked at if its first-level bit is set. -/
def Row.intersectsWith (r u : Row w) : Bool :=
  forBits (fun i1 res => res ||
    (BitVector.getBit u.l1 i1 && BitVector.intersectsWith (r.l2 i1) (u.l2 i1)))
    (BitVector.setIntersection r.l1 u.l1).1 false

/-- `intersectsWith`. -/
def TwoLevel.intersectsWith (k : ℕ) (v u : TwoLevel w) : Bool :=
  (List.range k).any (fun i0 => (v.row i0).intersectsWith (u.row i0))

/-! ## Cells -/

/-- A bit of the first level and its word of the second. -/
abbrev Cell (w : ℕ) := Bool × BitVec w

/-- The cell of a row. -/
def Row.cell (r : Row w) (i1 : ℕ) : Cell w := (r.l1.getLsbD i1, r.l2 i1)

/-- The bit `i2` of a cell: a word whose first-level bit is clear is stale. -/
def Cell.bit (c : Cell w) (i2 : ℕ) : Bool := c.1 && c.2.getLsbD i2

/-- A set bit of the first level says that the word has bits. -/
def Cell.Ok (c : Cell w) : Prop := c.1 = true → c.2 ≠ 0#w

/-- The word of a cell that is not stale. -/
def Cell.word (c : Cell w) : BitVec w := if c.1 then c.2 else 0#w

theorem Cell.getLsbD_word (c : Cell w) (i2 : ℕ) : c.word.getLsbD i2 = Cell.bit c i2 := by
  unfold Cell.word Cell.bit
  cases c.1 <;> simp

/-- `setUnion` on a cell. -/
def Cell.union (c d : Cell w) : Cell w := if d.1 then (true, c.word ||| d.2) else c

/-- `setIntersection` on a cell. -/
def Cell.inter (c d : Cell w) : Cell w :=
  if c.1 && d.1 then (!BitVector.empty (c.2 &&& d.2), c.2 &&& d.2) else (false, c.2)

/-- `setDifference` on a cell. -/
def Cell.diff (c d : Cell w) : Cell w :=
  if c.1 && d.1 then (!BitVector.empty (c.2 &&& ~~~d.2), c.2 &&& ~~~d.2) else c

theorem Cell.ok_of_empty (b : BitVec w) : Cell.Ok (!BitVector.empty b, b) := by
  intro h
  simpa [BitVector.empty] using h

theorem Cell.word_of_empty (b : BitVec w) : Cell.word (!BitVector.empty b, b) = b := by
  unfold Cell.word BitVector.empty
  by_cases h : b = 0#w <;> simp [h]

theorem Cell.word_union (c d : Cell w) : (c.union d).word = c.word ||| d.word := by
  unfold Cell.union
  cases hd : d.1
  · simp [Cell.word, hd]
  · simp [Cell.word, hd]

theorem Cell.word_inter (c d : Cell w) : (c.inter d).word = c.word &&& d.word := by
  unfold Cell.inter
  cases hc : c.1 <;> cases hd : d.1
  · simp [Cell.word, hc]
  · simp [Cell.word, hc]
  · simp [Cell.word, hd]
  · simp only [Bool.and_self, if_true, word_of_empty]
    simp [Cell.word, hc, hd]

theorem Cell.word_diff (c d : Cell w) : (c.diff d).word = c.word &&& ~~~d.word := by
  unfold Cell.diff
  cases hc : c.1 <;> cases hd : d.1
  · simp [Cell.word, hc]
  · simp [Cell.word, hc]
  · simp [Cell.word, hd]
  · simp only [Bool.and_self, if_true, word_of_empty]
    simp [Cell.word, hc, hd]

theorem Cell.Ok.union {c d : Cell w} (hc : Cell.Ok c) (hd : Cell.Ok d) : Cell.Ok (c.union d) := by
  unfold Cell.union
  split_ifs with hd1
  · intro _ h0
    obtain ⟨i, hi, hbit⟩ := (ne_zero_iff d.2).mp (hd hd1)
    have hzero := (eq_zero_iff _).mp h0 i hi
    rw [BitVec.getLsbD_or, hbit, Bool.or_true] at hzero
    exact absurd hzero (by simp)
  · exact hc

theorem Cell.Ok.inter (c d : Cell w) : Cell.Ok (c.inter d) := by
  unfold Cell.inter
  split_ifs
  · exact ok_of_empty _
  · intro h
    exact absurd h (by simp)

theorem Cell.Ok.diff {c : Cell w} (hc : Cell.Ok c) (d : Cell w) : Cell.Ok (c.diff d) := by
  unfold Cell.diff
  split_ifs
  · exact ok_of_empty _
  · exact hc

/-! ## Rows -/

/-- The cells and the flag after a loop over bits, when each round changes one cell. -/
theorem foldl_cells {step : ℕ → Row w × Bool → Row w × Bool} {f : ℕ → Cell w → Cell w}
    {g : ℕ → Cell w → Bool}
    (hself : ∀ i < w, ∀ s, (step i s).1.cell i = f i (s.1.cell i))
    (hother : ∀ i < w, ∀ j < w, j ≠ i → ∀ s, (step i s).1.cell j = s.1.cell j)
    (hflag : ∀ i < w, ∀ s, (step i s).2 = (s.2 || g i (s.1.cell i)))
    {l : List ℕ} (hl : l.Nodup) (hlt : ∀ i ∈ l, i < w) (s : Row w × Bool) :
    (∀ j < w, (l.foldl (fun s i => step i s) s).1.cell j =
      if j ∈ l then f j (s.1.cell j) else s.1.cell j) ∧
    (l.foldl (fun s i => step i s) s).2 = (s.2 || l.any (fun i => g i (s.1.cell i))) := by
  induction l generalizing s with
  | nil => simp
  | cons i l ih =>
    obtain ⟨hi, hl⟩ := List.nodup_cons.mp hl
    have hiw := hlt i List.mem_cons_self
    obtain ⟨hcells, hres⟩ := ih hl (fun j hj => hlt j (List.mem_cons_of_mem _ hj)) (step i s)
    have hne : ∀ j ∈ l, j ≠ i := fun j hj heq => hi (heq ▸ hj)
    constructor
    · intro j hj
      rw [List.foldl_cons, hcells j hj]
      by_cases hji : j = i
      · subst hji
        rw [if_neg hi, if_pos List.mem_cons_self, hself j hj]
      · rw [hother i hiw j hj hji]
        simp only [List.mem_cons, hji, false_or]
    · rw [List.foldl_cons, hres, hflag i hiw, List.any_cons, Bool.or_assoc]
      congr 2
      rw [Bool.eq_iff_iff, List.any_eq_true, List.any_eq_true]
      refine exists_congr fun j => and_congr_right fun hj => ?_
      rw [hother i hiw j (hlt j (List.mem_cons_of_mem _ hj)) (hne j hj)]

theorem forBits_cells {step : ℕ → Row w × Bool → Row w × Bool} {f : ℕ → Cell w → Cell w}
    {g : ℕ → Cell w → Bool}
    (hself : ∀ i < w, ∀ s, (step i s).1.cell i = f i (s.1.cell i))
    (hother : ∀ i < w, ∀ j < w, j ≠ i → ∀ s, (step i s).1.cell j = s.1.cell j)
    (hflag : ∀ i < w, ∀ s, (step i s).2 = (s.2 || g i (s.1.cell i)))
    (t : BitVec w) (s : Row w × Bool) :
    (∀ j < w, (forBits step t s).1.cell j =
      if t.getLsbD j then f j (s.1.cell j) else s.1.cell j) ∧
    ((forBits step t s).2 = true ↔
      s.2 = true ∨ ∃ j < w, t.getLsbD j = true ∧ g j (s.1.cell j) = true) := by
  have hones : (ones t).Nodup := (pairwise_ones t).imp Nat.ne_of_lt
  obtain ⟨hcells, hres⟩ :=
    foldl_cells hself hother hflag hones (fun i hi => (mem_ones.mp hi).1) s
  rw [forBits_eq]
  refine ⟨fun j hj => ?_, ?_⟩
  · rw [hcells j hj]
    simp only [mem_ones, hj, true_and]
  · rw [hres, Bool.or_eq_true, List.any_eq_true]
    simp only [mem_ones, and_assoc]

theorem Row.cell_setL2_of_ne (r : Row w) {i j : ℕ} (b : BitVec w) (h : j ≠ i) :
    (r.setL2 i b).cell j = r.cell j := by
  simp [Row.cell, Row.setL2, Function.update_of_ne h]

theorem Row.cell_l1 (r : Row w) (l1 : BitVec w) (i : ℕ) :
    Row.cell { r with l1 := l1 } i = (l1.getLsbD i, r.l2 i) := rfl

theorem unionStep_self (o : Option (Row w)) {i : ℕ} (hi : i < w) (s : Row w × Bool) :
    (unionStep o i s).1.cell i =
      (true, (s.1.cell i).word ||| (o.map (fun u => u.l2 i)).getD (s.1.cell i).word) ∧
    (unionStep o i s).2 = (s.2 ||
      ((s.1.cell i).word ||| (o.map (fun u => u.l2 i)).getD (s.1.cell i).word) !=
        (s.1.cell i).word) := by
  have hset := getLsbD_setBit s.1.l1 i hi
  have hfresh := setBit_snd s.1.l1 hi
  cases hb : s.1.l1.getLsbD i <;> cases o <;>
    simp [unionStep, Row.cell, Row.setL2, Cell.word, BitVector.setUnion, hset, hfresh, hb]

theorem unionStep_other (o : Option (Row w)) {i j : ℕ} (hj : j < w) (h : j ≠ i)
    (s : Row w × Bool) : (unionStep o i s).1.cell j = s.1.cell j := by
  have hset := getLsbD_setBit s.1.l1 i hj
  cases hb : (BitVector.setBit s.1.l1 i).2 <;>
    simp [unionStep, Row.cell, Row.setL2, Function.update_of_ne h, hset, hb, h.symm]

/-- `setUnion` on a row. -/
theorem Row.setUnion_cell (o : Option (Row w)) (r : Row w) (res : Bool) :
    (∀ j < w, (r.setUnion o res).1.cell j = (r.cell j).union ((o.getD r).cell j)) ∧
    ((r.setUnion o res).2 = true ↔ res = true ∨
      ∃ j < w, ((r.cell j).union ((o.getD r).cell j)).word ≠ (r.cell j).word) := by
  have hword : ∀ j, (o.getD r).l1.getLsbD j = true →
      (true, (r.cell j).word ||| (o.map (fun u => u.l2 j)).getD (r.cell j).word) =
        (r.cell j).union ((o.getD r).cell j) := by
    intro j hbit
    cases o with
    | none =>
      have hl1 : r.l1.getLsbD j = true := hbit
      simp [Cell.union, Cell.word, Row.cell, hl1]
    | some u =>
      have hl1 : u.l1.getLsbD j = true := hbit
      simp [Cell.union, Row.cell, hl1]
  have hskip : ∀ j, ¬(o.getD r).l1.getLsbD j = true →
      (r.cell j).union ((o.getD r).cell j) = r.cell j := by
    intro j hbit
    exact if_neg hbit
  obtain ⟨hcells, hres⟩ := forBits_cells
    (f := fun i c => (true, c.word ||| (o.map (fun u => u.l2 i)).getD c.word))
    (g := fun i c => (c.word ||| (o.map (fun u => u.l2 i)).getD c.word) != c.word)
    (fun i hi s => (unionStep_self o hi s).1)
    (fun i _ j hj h s => unionStep_other o hj h s)
    (fun i hi s => (unionStep_self o hi s).2) (o.getD r).l1 (r, res)
  constructor
  · intro j hj
    rw [Row.setUnion, hcells j hj]
    split_ifs with hbit
    · exact hword j hbit
    · exact (hskip j hbit).symm
  · rw [Row.setUnion, hres]
    refine or_congr_right (exists_congr fun j => and_congr_right fun _ => ?_)
    constructor
    · rintro ⟨hbit, hne⟩
      rw [← hword j hbit]
      exact bne_iff_ne.mp hne
    · intro hne
      by_cases hbit : (o.getD r).l1.getLsbD j = true
      · rw [← hword j hbit] at hne
        exact ⟨hbit, bne_iff_ne.mpr hne⟩
      · exact absurd (congrArg Cell.word (hskip j hbit)) hne

/-- One word of `setIntersection` or `setDifference`, where `q` combines the words. -/
def shrinkStep (q : BitVec w → BitVec w → BitVec w) (o : Option (Row w)) (i1 : ℕ)
    (s : Row w × Bool) : Row w × Bool :=
  let b := q (s.1.l2 i1) ((o.getD s.1).l2 i1)
  let r := s.1.setL2 i1 b
  (if BitVector.empty b then { r with l1 := (BitVector.clearBit r.l1 i1).1 } else r,
    s.2 || b != s.1.l2 i1)

/-- The word that a step of `setIntersection` or `setDifference` stores. -/
def shrinkWord (q : BitVec w → BitVec w → BitVec w) (o : Option (Row w)) (i1 : ℕ) (c : Cell w) :
    BitVec w :=
  q c.2 ((o.map (fun u => u.l2 i1)).getD c.2)

theorem shrinkStep_self (q : BitVec w → BitVec w → BitVec w) (o : Option (Row w)) {i : ℕ}
    (hi : i < w) (s : Row w × Bool) :
    (shrinkStep q o i s).1.cell i = ((s.1.cell i).1 && !BitVector.empty (shrinkWord q o i (s.1.cell i)),
      shrinkWord q o i (s.1.cell i)) := by
  have hread : (o.getD s.1).l2 i = (o.map (fun u => u.l2 i)).getD (s.1.l2 i) := by
    cases o <;> rfl
  have hclear := getLsbD_clearBit s.1.l1 i hi
  unfold shrinkStep shrinkWord
  dsimp only [Row.cell]
  rw [← hread]
  split_ifs with hempty
  · simp [Row.setL2, hclear, hempty]
  · simp [Row.setL2, hempty]

theorem shrinkStep_other (q : BitVec w → BitVec w → BitVec w) (o : Option (Row w)) {i j : ℕ}
    (hj : j < w) (h : j ≠ i) (s : Row w × Bool) :
    (shrinkStep q o i s).1.cell j = s.1.cell j := by
  have hclear := getLsbD_clearBit s.1.l1 i hj
  unfold shrinkStep
  dsimp only
  split_ifs
  · simp [Row.cell, Row.setL2, Function.update_of_ne h, hclear, h.symm]
  · exact Row.cell_setL2_of_ne _ _ h

/-- The loop of `setIntersection` and `setDifference`. -/
theorem forBits_shrinkStep (q : BitVec w → BitVec w → BitVec w) (o : Option (Row w)) (t : BitVec w)
    (r : Row w) (res : Bool) :
    (∀ j < w, (forBits (shrinkStep q o) t (r, res)).1.cell j =
      if t.getLsbD j then
        ((r.cell j).1 && !BitVector.empty (q (r.l2 j) ((o.getD r).l2 j)),
          q (r.l2 j) ((o.getD r).l2 j))
      else r.cell j) ∧
    ((forBits (shrinkStep q o) t (r, res)).2 = true ↔ res = true ∨
      ∃ j < w, t.getLsbD j = true ∧ q (r.l2 j) ((o.getD r).l2 j) ≠ r.l2 j) := by
  have hread : ∀ j, shrinkWord q o j (r.cell j) = q (r.l2 j) ((o.getD r).l2 j) := by
    intro j
    cases o <;> rfl
  obtain ⟨hcells, hres⟩ := forBits_cells
    (f := fun i c => (c.1 && !BitVector.empty (shrinkWord q o i c), shrinkWord q o i c))
    (g := fun i c => shrinkWord q o i c != c.2)
    (fun i hi s => shrinkStep_self q o hi s)
    (fun i _ j hj h s => shrinkStep_other q o hj h s)
    (fun i _ s => by cases o <;> rfl) t (r, res)
  simp only [hread] at hcells hres
  refine ⟨hcells, ?_⟩
  rw [hres]
  simp only [bne_iff_ne, ne_eq]
  rfl

/-- `setIntersection` on a row. -/
theorem Row.setIntersection_cell (o : Option (Row w)) (r : Row w) (res : Bool) :
    (∀ j < w, (r.setIntersection o res).1.cell j = (r.cell j).inter ((o.getD r).cell j)) ∧
    ((∀ j < w, (r.cell j).Ok) → ((r.setIntersection o res).2 = true ↔ res = true ∨
      ∃ j < w, ((r.cell j).inter ((o.getD r).cell j)).word ≠ (r.cell j).word)) := by
  have hl2 : ∀ j, (o.getD { r with l1 := r.l1 &&& (o.getD r).l1 }).l2 j = (o.getD r).l2 j := by
    intro j
    cases o <;> rfl
  have hl1 : ∀ j, (r.l1 &&& (o.getD r).l1).getLsbD j = ((r.cell j).1 && ((o.getD r).cell j).1) :=
    fun j => BitVec.getLsbD_and
  obtain ⟨hcells, hres⟩ := forBits_shrinkStep (fun b v => b &&& v) o (r.l1 &&& (o.getD r).l1)
    { r with l1 := r.l1 &&& (o.getD r).l1 } (res || (r.l1 &&& (o.getD r).l1) != r.l1)
  have hloop : r.setIntersection o res =
      forBits (shrinkStep (fun b v => b &&& v) o) (r.l1 &&& (o.getD r).l1)
        ({ r with l1 := r.l1 &&& (o.getD r).l1 }, res || (r.l1 &&& (o.getD r).l1) != r.l1) := rfl
  simp only [hl2, Row.cell_l1, hl1] at hcells hres
  rw [hloop]
  constructor
  · intro j hj
    rw [hcells j hj, Cell.inter]
    split_ifs with hbit
    · rw [hbit, Bool.true_and]
      rfl
    · rw [Bool.eq_false_iff.mpr hbit]
      rfl
  · intro hok
    rw [hres, Bool.or_eq_true, bne_iff_ne, or_assoc]
    refine or_congr_right ?_
    constructor
    · rintro (hne | ⟨j, hj, hbit, hne⟩)
      · -- a first-level bit has gone, and with it a word that had bits
        obtain ⟨j, hj, hbit⟩ : ∃ j < w, (r.cell j).1 = true ∧ ((o.getD r).cell j).1 = false := by
          by_contra hall
          apply hne
          apply BitVec.eq_of_getLsbD_eq
          intro j hj
          rw [hl1]
          by_contra hdiff
          refine hall ⟨j, hj, ?_⟩
          simp only [Row.cell] at hdiff ⊢
          revert hdiff
          cases r.l1.getLsbD j <;> cases (o.getD r).l1.getLsbD j <;> simp
        refine ⟨j, hj, fun heq => hok j hj hbit.1 ?_⟩
        rw [Cell.word_inter] at heq
        simpa [Cell.word, hbit.1, hbit.2] using heq.symm
      · refine ⟨j, hj, ?_⟩
        rw [Cell.inter, if_pos hbit, Cell.word_of_empty, Cell.word,
          if_pos (Bool.and_eq_true_iff.mp hbit).1]
        exact hne
    · rintro ⟨j, hj, hne⟩
      by_cases hbit : ((r.cell j).1 && ((o.getD r).cell j).1) = true
      · rw [Cell.inter, if_pos hbit, Cell.word_of_empty, Cell.word,
          if_pos (Bool.and_eq_true_iff.mp hbit).1] at hne
        exact Or.inr ⟨j, hj, hbit, hne⟩
      · refine Or.inl fun heq => hne ?_
        have hsame := hl1 j
        rw [heq, Bool.eq_false_iff.mpr hbit] at hsame
        have hzero : (r.cell j).1 = false := hsame
        rw [Cell.word_inter]
        simp [Cell.word, hzero]

/-- `setDifference` on a row. -/
theorem Row.setDifference_cell (o : Option (Row w)) (r : Row w) (res : Bool) :
    (∀ j < w, (r.setDifference o res).1.cell j = (r.cell j).diff ((o.getD r).cell j)) ∧
    ((r.setDifference o res).2 = true ↔ res = true ∨
      ∃ j < w, ((r.cell j).diff ((o.getD r).cell j)).word ≠ (r.cell j).word) := by
  obtain ⟨hcells, hres⟩ := forBits_shrinkStep (fun b v => b &&& ~~~v) o (r.l1 &&& (o.getD r).l1) r res
  have hdiff : ∀ j, (r.l1 &&& (o.getD r).l1).getLsbD j = ((r.cell j).1 && ((o.getD r).cell j).1) :=
    fun j => BitVec.getLsbD_and
  have hloop : r.setDifference o res =
      forBits (shrinkStep (fun b v => b &&& ~~~v) o) (r.l1 &&& (o.getD r).l1) (r, res) := rfl
  rw [hloop]
  constructor
  · intro j hj
    rw [hcells j hj, hdiff, Cell.diff]
    split_ifs with hbit
    · rw [(Bool.and_eq_true_iff.mp hbit).1, Bool.true_and]
      rfl
    · rfl
  · rw [hres]
    refine or_congr_right (exists_congr fun j => and_congr_right fun _ => ?_)
    rw [hdiff, Cell.diff]
    split_ifs with hbit
    · rw [Cell.word_of_empty, Cell.word, if_pos (Bool.and_eq_true_iff.mp hbit).1]
      simp only [hbit, true_and]
      rfl
    · simp [hbit]

end Tasan.BitVector
