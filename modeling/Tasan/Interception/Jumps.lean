import Tasan.Interception.Model

/-!
# The jumps of the interception

`jumpTarget` decodes the jumps that the code writes. Each of the functions that write one checks that the
displacement fits, and so the jump that it has written goes where it should. An indirect jump, with the
cell that it goes through, is a `Branch`.
-/

namespace Tasan.Interception

/-- The target of the jump at an address: `E9 rel32`, `EB rel8` or `FF 25 [rip + rel32]`. -/
def jumpTarget (m : WordMem) (a : Word) : Option Word :=
  if m a = 0xE9 then some (a + 5 + loadS32 m (a + 1))
  else if m a = 0xEB then some (a + 2 + (m (a + 1)).signExtend 64)
  else if m a = 0xFF ∧ m (a + 1) = 0x25 then
    some (BitVec.ofNat 64 (m.load (a + 6 + loadS32 m (a + 2)) 8))
  else none

/-- The jumps that start at `a` lead to `b`. -/
def Leads (m : WordMem) (a b : Word) : Prop :=
  Relation.TransGen (fun x y => jumpTarget m x = some y) a b

theorem Leads.single {m : WordMem} {a b : Word} (h : jumpTarget m a = some b) : Leads m a b :=
  Relation.TransGen.single h

theorem Leads.tail {m : WordMem} {a b c : Word} (h : Leads m a b) (hb : jumpTarget m b = some c) :
    Leads m a c :=
  Relation.TransGen.tail h hb

theorem not_inRange_of_ne {a x : Word} {n : ℕ} (h : ∀ i < n, x ≠ a + BitVec.ofNat 64 i) :
    ¬ InRange a n x := fun hx => h _ hx (add_ofNat_toNat_sub a x).symm

theorem toInt_of_distanceIsWithin2Gig {source target : Word}
    (h : distanceIsWithin2Gig source target = true) :
    -2^31 ≤ (target - source).toInt ∧ (target - source).toInt < 2^31 := by
  unfold distanceIsWithin2Gig at h
  rw [BitVec.toInt_eq_toNat_cond]
  have hsource := source.isLt
  have htarget := target.isLt
  have h1 : (0x7FFFFFFF : Word).toNat = 0x7FFFFFFF := rfl
  have h2 : (0x80000000 : Word).toNat = 0x80000000 := rfl
  split_ifs at h with hlt <;>
    simp only [decide_eq_true_eq, BitVec.le_def, BitVec.lt_def, BitVec.toNat_sub, h1, h2]
      at h hlt ⊢ <;>
    split_ifs <;> omega

theorem loadS32_store (m : WordMem) (a d : Word) (h1 : -2^31 ≤ d.toInt) (h2 : d.toInt < 2^31) :
    loadS32 (m.store a 4 d.toNat) a = d := by
  unfold loadS32
  rw [WordMem.load_store_self m a _ (by norm_num), show 256^4 = 2^32 from rfl, ofNat_toNat_mod]
  exact signExtend_setWidth (by norm_num) (by norm_num) h1 h2

theorem loadS32_congr {m m' : WordMem} {a b : Word}
    (h : ∀ i < 4, m (a + BitVec.ofNat 64 i) = m' (b + BitVec.ofNat 64 i)) :
    loadS32 m a = loadS32 m' b := by
  unfold loadS32
  rw [WordMem.load_congr h]

theorem store_one (m : WordMem) (a : Word) (v : ℕ) : m.store a 1 v a = BitVec.ofNat 8 v := by
  have h := m.store_add_ofNat v a (show 0 < 1 by norm_num) (by norm_num)
  rwa [show a + BitVec.ofNat 64 0 = a from add_zero a, pow_zero, Nat.div_one] at h

theorem not_inRange_succ (a : Word) {n : ℕ} (hn : n < 2^32) : ¬ InRange (a + 1) n a := by
  refine not_inRange_of_ne fun i hi h => ?_
  have h0 : (1 : Word) + BitVec.ofNat 64 i = 0 := by
    have := sub_eq_zero.mpr h.symm
    rw [← this]
    ring
  have := congrArg BitVec.toNat h0
  rw [BitVec.toNat_add, BitVec.toNat_ofNat] at this
  simp at this
  omega

theorem writeJumpInstruction_opcode {m m' : WordMem} {source target : Word}
    (h : writeJumpInstruction m source target = some m') : m' source = 0xE9 := by
  unfold writeJumpInstruction at h
  split_ifs at h
  obtain rfl := Option.some.inj h
  rw [WordMem.store_of_not_inRange _ _ (not_inRange_succ source (by norm_num)), store_one]
  rfl

theorem writeShortJumpInstruction_opcode {m m' : WordMem} {source target : Word}
    (h : writeShortJumpInstruction m source target = some m') : m' source = 0xEB := by
  unfold writeShortJumpInstruction at h
  dsimp only at h
  split_ifs at h
  obtain rfl := Option.some.inj h
  rw [WordMem.store_of_not_inRange _ _ (not_inRange_succ source (by norm_num)), store_one]
  rfl

theorem writeJumpInstruction_spec {m m' : WordMem} {source target : Word}
    (h : writeJumpInstruction m source target = some m') :
    jumpTarget m' source = some target ∧ ∀ x, ¬ InRange source 5 x → m' x = m x := by
  have hopcode := writeJumpInstruction_opcode h
  unfold writeJumpInstruction at h
  split_ifs at h with hdist
  simp only [Bool.not_eq_true', Bool.not_eq_false] at hdist
  obtain rfl := Option.some.inj h
  obtain ⟨h1, h2⟩ := toInt_of_distanceIsWithin2Gig hdist
  rw [show target - (source + 5) = target - source - 5 by ring] at h1 h2
  constructor
  · unfold jumpTarget
    rw [if_pos hopcode, loadS32_store _ _ _ h1 h2]
    congr 1
    ring
  · intro x hx
    rw [WordMem.store_of_part _ _ (b := source + 1) (k := 1) rfl (by norm_num) (by norm_num) hx,
      WordMem.store_of_not_inRange _ _ fun h => hx (h.mono (by norm_num))]

/-- `WriteShortJumpInstruction` writes a jump to the target. -/
theorem writeShortJumpInstruction_spec {m m' : WordMem} {source target : Word}
    (h : writeShortJumpInstruction m source target = some m') :
    jumpTarget m' source = some target ∧ ∀ x, ¬ InRange source 2 x → m' x = m x := by
  have hopcode := writeShortJumpInstruction_opcode h
  unfold writeShortJumpInstruction at h
  dsimp only at h
  split_ifs at h with hfit
  obtain rfl := Option.some.inj h
  rw [not_or, not_lt, not_lt] at hfit
  constructor
  · have hdisp : (BitVec.ofNat 8 (target - source - 2).toNat).signExtend 64 =
        target - source - 2 := by
      rw [BitVec.ofNat_toNat]
      exact signExtend_setWidth (by norm_num) (by norm_num) hfit.1 (lt_of_le_of_lt hfit.2 (by norm_num))
    unfold jumpTarget
    rw [hopcode, if_neg (by decide), if_pos rfl, store_one, hdisp]
    congr 1
    ring
  · intro x hx
    rw [WordMem.store_of_part _ _ (b := source + 1) (k := 1) rfl (by norm_num) (by norm_num) hx,
      WordMem.store_of_not_inRange _ _ fun h => hx (h.mono (by norm_num))]

/-- The indirect jump at `source` goes through the cell at `indirect` to `target`. -/
structure Branch (m : WordMem) (source indirect target : Word) : Prop where
  /-- The first byte of the opcode. -/
  fst : m source = 0xFF
  /-- The second byte of the opcode. -/
  snd : m (source + 1) = 0x25
  /-- The displacement. -/
  displacement : source + 6 + loadS32 m (source + 2) = indirect
  /-- The cell. -/
  cell : BitVec.ofNat 64 (m.load indirect 8) = target

theorem Branch.jumpTarget_eq {m : WordMem} {source indirect target : Word}
    (h : Branch m source indirect target) : jumpTarget m source = some target := by
  unfold jumpTarget
  rw [h.fst, if_neg (by decide), if_neg (by decide), if_pos ⟨rfl, h.snd⟩, h.displacement, h.cell]

theorem inRange_branch (a : Word) {i : ℕ} (hi : i < 4) : InRange a 6 (a + 2 + BitVec.ofNat 64 i) := by
  have h := inRange_add_ofNat a (show 2 + i < 6 by omega) (by norm_num)
  rwa [BitVec.ofNat_add, ← add_assoc] at h

theorem Branch.congr {m m' : WordMem} {source indirect target : Word}
    (h : Branch m source indirect target)
    (hm : ∀ x, InRange source 6 x ∨ InRange indirect 8 x → m' x = m x) :
    Branch m' source indirect target where
  fst := by
    rw [hm _ (Or.inl (by simpa using inRange_add_ofNat source (show 0 < 6 by norm_num) (by norm_num)))]
    exact h.fst
  snd := by
    have hin := inRange_add_ofNat source (show 1 < 6 by norm_num) (by norm_num)
    exact (hm _ (Or.inl hin)).trans h.snd
  displacement := by
    rw [loadS32_congr fun i hi => hm _ (Or.inl (inRange_branch source hi))]
    exact h.displacement
  cell := by
    rw [WordMem.load_congr fun i hi => hm _ (Or.inr (inRange_add_ofNat indirect hi (by norm_num)))]
    exact h.cell

/-- `WriteBranch` writes a branch, when the cell is not in the jump. -/
theorem writeBranch_spec {m m' : WordMem} {source indirect target : Word}
    (h : writeBranch m source indirect target = some m')
    (hdisj : ∀ x, InRange source 6 x → ¬ InRange indirect 8 x) :
    Branch m' source indirect target ∧
      ∀ x, ¬ InRange source 6 x → ¬ InRange indirect 8 x → m' x = m x := by
  unfold writeBranch writeIndirectJumpInstruction at h
  dsimp only at h
  split_ifs at h with hdist
  · exact nomatch h
  simp only [Bool.not_eq_true', Bool.not_eq_false] at hdist
  rw [Option.map_some] at h
  obtain rfl := Option.some.inj h
  obtain ⟨h1, h2⟩ := toInt_of_distanceIsWithin2Gig hdist
  rw [show indirect - (source + 6) = indirect - source - 6 by ring] at h1 h2
  have hafter : ∀ i < 2, ¬ InRange (source + 2) 4 (source + BitVec.ofNat 64 i) := fun i hi h =>
    InRange.not_start (k := 2) h (by norm_num) (inRange_add_ofNat source hi (by norm_num))
  -- The bytes of the jump are as they were written.
  have hjump : ∀ x, InRange source 6 x →
      (((m.store source 2 0x25FF).store (source + 2) 4 (indirect - source - 6).toNat).store
        indirect 8 target.toNat) x =
        ((m.store source 2 0x25FF).store (source + 2) 4 (indirect - source - 6).toNat) x :=
    fun x hx => WordMem.store_of_not_inRange _ _ (hdisj x hx)
  refine ⟨⟨?_, ?_, ?_, ?_⟩, fun x hx hcell => ?_⟩
  · have hbyte := m.store_add_ofNat 0x25FF source (show 0 < 2 by norm_num) (by norm_num)
    have hnot := hafter 0 (by norm_num)
    have hin := inRange_add_ofNat source (show 0 < 6 by norm_num) (by norm_num)
    rw [show source + BitVec.ofNat 64 0 = source from add_zero source] at hbyte hnot hin
    rw [hjump _ hin, WordMem.store_of_not_inRange _ _ hnot, hbyte]
    rfl
  · have hbyte := m.store_add_ofNat 0x25FF source (show 1 < 2 by norm_num) (by norm_num)
    have hin := inRange_add_ofNat source (show 1 < 6 by norm_num) (by norm_num)
    refine (hjump _ hin).trans ?_
    rw [WordMem.store_of_not_inRange _ _ (hafter 1 (by norm_num)), hbyte]
    rfl
  · rw [loadS32_congr fun i hi => hjump _ (inRange_branch source hi), loadS32_store _ _ _ h1 h2]
    ring
  · rw [WordMem.load_store_self _ _ _ (by norm_num), show 256^8 = 2^64 from rfl,
      Nat.mod_eq_of_lt target.isLt, BitVec.ofNat_toNat, BitVec.setWidth_eq]
  · rw [WordMem.store_of_not_inRange _ _ hcell,
      WordMem.store_of_part _ _ (b := source + 2) (k := 2) rfl (by norm_num) (by norm_num) hx,
      WordMem.store_of_not_inRange _ _ fun h => hx (h.mono (by norm_num))]

end Tasan.Interception
