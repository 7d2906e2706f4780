import Tasan.Interception.Copy

/-!
# The decoder

`GetInstructionSize` of `interception_win.cpp` for x86-64 compares the first bytes of an instruction with
the labels of one `switch` after the other. The labels are in a table here, in the order of the source.
Whatever the bytes behind it, an instruction of the table is found by its own bytes, since a label that is
longer than an instruction clashes with the labels of that instruction (`instructionTable_pairwise`). So
what the decoder accepts are the instructions of an `InstructionSet` (`right_getInstructionSize`), and it
rejects jumps (`rejectsJumps_getInstructionSize`).
-/

namespace Tasan.Interception

/-- A jump at an address, other than `EB 06`. -/
def IsJump (m : WordMem) (a : Word) : Prop :=
  m a = 0xE9 ∨ (m a = 0xEB ∧ m (a + 1) ≠ 0x06) ∨ (m a = 0xFF ∧ m (a + 1) = 0x25)

/-- `GetInstructionSize` fails at jumps. -/
def RejectsJumps (E : Env) : Prop := ∀ m a, IsJump m a → (E.getInstructionSize m a).1 = 0

/-! ## The model -/

/-- Labels of a `switch` that return the same size. -/
structure CaseGroup where
  /-- The number of bytes that the `switch` looks at. -/
  width : ℕ
  /-- The labels. -/
  labels : List ℕ
  /-- The size of the instruction. -/
  size : ℕ
  relOffset : ℕ

/-- The bytes behind `0x83` with `mod == 1 && rm == 4`. -/
def modRmDisp8 : List ℕ := (List.range 256).filter fun b => b >>> 6 == 1 && b &&& 7 == 4

/-- `kPrologueWithShortJump1`. -/
def kPrologueWithShortJump1 : List Byte :=
  [0x48, 0x8B, 0xC1, 0x0F, 0xB7, 0x10, 0x48, 0x83, 0xC0, 0x02, 0x66, 0x85, 0xD2, 0x75, 0xF4]

/-- `kPrologueWithShortJump2`. -/
def kPrologueWithShortJump2 : List Byte :=
  [0x4C, 0x8B, 0xC1, 0x8A, 0x01, 0x48, 0xFF, 0xC1, 0x84, 0xC0, 0x75, 0xF7]

/-- The control instructions that are told by their first byte. -/
def controlInstructions : CaseGroup :=
  ⟨1, [0xE9, 0xE8, 0xEB, 0x70, 0x71, 0x72, 0x73, 0x74, 0x75, 0x76, 0x77, 0x78, 0x79, 0x7A, 0x7B, 0x7C,
    0x7D, 0x7E, 0x7F], 0, 0⟩

/-- `jmp` through a cell. -/
def indirectJump : CaseGroup := ⟨2, [0x25FF], 0, 0⟩

/-- The cases of `GetInstructionSize`. -/
def instructionTable : List CaseGroup := [
  -- `*(u64 *)address`
  ⟨8, [0x90909090909006EB], 8, 0⟩,
  -- `*(u8 *)address`
  ⟨1, [0x90, 0xC3, 0xCC], 1, 0⟩,
  ⟨1, [0x50, 0x51, 0x52, 0x53, 0x54, 0x55, 0x56, 0x57, 0x5D], 1, 0⟩,
  ⟨1, [0x6A], 2, 0⟩,
  ⟨1, [0x68], 5, 0⟩,
  ⟨1, [0xB8, 0xB9, 0xBA], 5, 0⟩,
  controlInstructions,
  -- `*(u16 *)address`
  ⟨2, [0x018A, 0xFF8B, 0xEC8B, 0xC889, 0xD189, 0xE589, 0xC18B, 0xC031, 0xC931, 0xD231, 0xC033, 0xC933,
    0xD233, 0x9066, 0xDB84, 0xC084, 0xC984, 0xD284], 2, 0⟩,
  ⟨2, [0x3980, 0x4D8B, 0x558B, 0x758B, 0xE483, 0xEC83, 0xC1F6], 3, 0⟩,
  ⟨2, [0x89FF, 0xEC81], 6, 0⟩,
  indirectJump,
  -- `0x00FFFFFF & *(u32 *)address`
  ⟨3, [0x244C8D, 0x2474FF], 4, 0⟩,
  ⟨3, [0x24A48D], 7, 0⟩,
  -- `0x000000FF & *(u32 *)address`
  ⟨1, [0xC2], 3, 0⟩,
  -- `*(u8 *)address`
  ⟨1, [0xA1], 9, 0⟩,
  ⟨5, [0x2444110F, 0x244C110F, 0x2454110F, 0x245C110F, 0x2464110F].map (· <<< 8 + 0xF2), 6, 0⟩,
  ⟨2, modRmDisp8.map (· <<< 8 + 0x83), 5, 0⟩,
  -- `*(u16 *)address`
  ⟨2, [0x5040, 0x5140, 0x5240, 0x5340, 0x5440, 0x5540, 0x5640, 0x5740, 0x5441, 0x5541, 0x5641, 0x5741,
    0xC084, 0x018A], 2, 0⟩,
  ⟨2, [0x7E80, 0x7D80, 0x7A80, 0x7880, 0x7B80, 0x7980], 4, 0⟩,
  ⟨2, [0x058A, 0x058B], 6, 2⟩,
  ⟨2, [0xB841], 6, 0⟩,
  ⟨2, [0x7E81, 0x7D81, 0x7A81, 0x7881, 0x7B81, 0x7981], 7, 0⟩,
  ⟨2, [0xB848, 0xBA48], 10, 0⟩,
  -- `0x00FFFFFF & *(u32 *)address`
  ⟨3, [0x10B70F, 0xC00B4D, 0xC03345, 0xC08548, 0xC0854D, 0xC08B41, 0xC0FF48, 0xC0FF49, 0xC18B41,
    0xC18B48, 0xC18B4C, 0xC1FF48, 0xC1FF49, 0xC28B41, 0x01B60F, 0x09B60F, 0x11B60F, 0xC2B60F, 0xC2FF48,
    0xC2FF49, 0xC38B41, 0xC3FF48, 0xC3FF49, 0xC48B41, 0xC48B48, 0xC4FF49, 0xC5FF49, 0xC6FF48, 0xC6FF49,
    0xC7FF48, 0xC7FF49, 0xC93345, 0xC98548, 0xC9854D, 0xC98B4C, 0xD12948, 0xCA2B48, 0xCA3B48, 0xD12B48,
    0xD18B48, 0xD18B4C, 0xD28548, 0xD2854D, 0xD28B4C, 0xD2B60F, 0xD2BE0F, 0xD98B4C, 0xD9F748, 0xC03145,
    0xC93145, 0xDB3345, 0xC08445, 0xD28445, 0xDB8548, 0xDB854D, 0xDC8B4C, 0xE48548, 0xE4854D, 0xC88948,
    0xCB8948, 0xD08948, 0xD18948, 0xD38948, 0xE58948, 0xED8548, 0xC88949, 0xC98949, 0xCA8949, 0xD08949,
    0xD18949, 0xD28949, 0xD38949, 0xED854D, 0xF6854D, 0xFF854D], 3, 0⟩,
  ⟨3, [0x245489, 0x428D44, 0x588948, 0xEC8348, 0xF88349, 0x488D49, 0x048D4C, 0x148D4E, 0x398366], 4,
    0⟩,
  ⟨3, [0x441F0F, 0x246483], 5, 0⟩,
  ⟨3, [0x788166, 0x798166, 0x7A8166, 0x7B8166, 0x7E8166, 0x7F8166], 6, 0⟩,
  ⟨3, [0xEC8148, 0xC0C748], 7, 0⟩,
  ⟨3, [0x788141, 0x798141, 0x7A8141, 0x7B8141, 0x7D8141, 0x7E8141, 0x7F8141, 0x247C81], 8, 0⟩,
  ⟨3, [0x058B48, 0x058D48, 0x0D8948, 0x158948, 0x25FF48, 0x158D4C], 7, 3⟩,
  ⟨3, [0x2444C7], 8, 0⟩,
  ⟨3, [0x7C8141], 9, 0⟩,
  -- `*(u32 *)address`
  ⟨4, [0x01B60F44, 0x09B60F44, 0x0AB60F44, 0x11B60F44, 0x1AB60F44], 4, 0⟩,
  ⟨4, [0x24448B48, 0x246C8948, 0x245C8948, 0x24748948, 0x247C8948, 0x244C8948, 0x24548948, 0x244C894C,
    0x2444894C, 0x244C8944, 0x24448944, 0x246C8D48], 5, 0⟩,
  ⟨4, [0x24648348], 6, 0⟩,
  ⟨4, [0x24A48D48], 8, 0⟩,
  -- `0xFFFFFFFFFFULL & *(u64 *)(address)`
  ⟨5, [0xC07E0F4866], 5, 0⟩]

/-- `memcmp(..) == 0`. -/
def startsWith (b : ℕ → Byte) (prologue : List Byte) : Bool :=
  (List.range prologue.length).map b == prologue

/-- The bytes of an instruction have one of the labels. -/
def CaseGroup.fits (g : CaseGroup) (b : ℕ → Byte) : Bool := g.labels.contains (Mem.readLE b 0 g.width)

/-- The `switch` statements of `GetInstructionSize`: the size, or zero on error, and `*rel_offset`. -/
def decodeInstruction (b : ℕ → Byte) : ℕ × ℕ :=
  match instructionTable.find? (·.fits b) with
  | some g => (g.size, g.relOffset)
  | none => (0, 0)

/-- `GetInstructionSize`, on x86-64. -/
def getInstructionSize (m : WordMem) (address : Word) : ℕ × ℕ :=
  let b := bytesAt m address
  if startsWith b kPrologueWithShortJump1 || startsWith b kPrologueWithShortJump2 then (0, 0)
  else decodeInstruction b

/-! ## Labels that clash -/

/-- No label of one group begins like a label of the other. -/
def clash (g g' : CaseGroup) : Bool :=
  g.labels.all fun v => g'.labels.all fun w =>
    v % 256^(min g.width g'.width) != w % 256^(min g.width g'.width)

theorem not_fits_of_clash {g g' : CaseGroup} {b : ℕ → Byte} (h : clash g g' = true)
    (hfits : g'.fits b = true) : g.fits b = false := by
  by_contra hg
  rw [Bool.not_eq_false, CaseGroup.fits, List.contains_iff_mem] at hg
  rw [CaseGroup.fits, List.contains_iff_mem] at hfits
  have hne := List.all_eq_true.mp (List.all_eq_true.mp h _ hg) _ hfits
  rw [Mem.readLE_mod _ _ (Nat.min_le_left _ _), Mem.readLE_mod _ _ (Nat.min_le_right _ _)] at hne
  exact absurd hne (by simp)

theorem instructionTable_sizes : instructionTable.all (fun g => decide (g.size ≤ 15 ∧
    (g.relOffset ≠ 0 → g.relOffset + 4 ≤ g.size) ∧ (g.size ≠ 0 → g.width ≤ g.size))) = true := by
  decide +kernel

theorem instructionTable_pairwise :
    instructionTable.Pairwise fun g g' => g'.size = 0 ∨ g.width ≤ g'.size ∨ clash g g' = true := by
  decide +kernel

theorem decodeInstruction_of_fits {before after : List CaseGroup} {g : CaseGroup} {b : ℕ → Byte}
    (htable : instructionTable = before ++ g :: after) (hfits : g.fits b = true)
    (hbefore : ∀ g' ∈ before, g'.fits b = false) : decodeInstruction b = (g.size, g.relOffset) := by
  have hfind : instructionTable.find? (·.fits b) = some g :=
    List.find?_eq_some_iff_append.mpr ⟨hfits, before, after, htable, fun g' hg' => by
      rw [hbefore g' hg']
      rfl⟩
  rw [decodeInstruction, hfind]

theorem exists_of_decodeInstruction {b : ℕ → Byte} (h : (decodeInstruction b).1 ≠ 0) :
    ∃ before g after, instructionTable = before ++ g :: after ∧ g.fits b = true ∧
      (∀ g' ∈ before, g'.fits b = false) ∧ decodeInstruction b = (g.size, g.relOffset) := by
  cases hfind : instructionTable.find? (·.fits b) with
  | none =>
    rw [decodeInstruction, hfind] at h
    exact absurd rfl h
  | some g =>
    obtain ⟨hfits, before, after, htable, hbefore⟩ := List.find?_eq_some_iff_append.mp hfind
    exact ⟨before, g, after, htable, hfits, fun g' hg' => by simpa using hbefore g' hg',
      by rw [decodeInstruction, hfind]⟩

theorem sizes_of_mem {g : CaseGroup} (h : g ∈ instructionTable) :
    g.size ≤ 15 ∧ (g.relOffset ≠ 0 → g.relOffset + 4 ≤ g.size) ∧ (g.size ≠ 0 → g.width ≤ g.size) :=
  of_decide_eq_true (List.all_eq_true.mp instructionTable_sizes g h)

theorem decodeInstruction_sizes (b : ℕ → Byte) :
    (decodeInstruction b).1 ≤ 15 ∧
      ((decodeInstruction b).2 ≠ 0 → (decodeInstruction b).2 + 4 ≤ (decodeInstruction b).1) := by
  unfold decodeInstruction
  split
  case h_1 g hfind =>
    obtain ⟨hlen, hdisp, -⟩ := sizes_of_mem (List.mem_of_find?_eq_some hfind)
    exact ⟨hlen, hdisp⟩
  case h_2 => exact ⟨Nat.zero_le _, fun h => absurd rfl h⟩

/-- The instructions that the decoder knows. -/
def knownInstructions : InstructionSet where
  decode := decodeInstruction
  length_le b := (decodeInstruction_sizes b).1
  displacement_le b := (decodeInstruction_sizes b).2
  congr := by
    intro b b' hpos hbytes
    obtain ⟨before, g, after, htable, hfits, hbefore, hdecode⟩ := exists_of_decodeInstruction hpos
    have hg : g ∈ instructionTable := by rw [htable]; exact List.mem_append_right _ List.mem_cons_self
    rw [hdecode] at hpos hbytes ⊢
    dsimp only at hpos hbytes
    have hread : ∀ n, n ≤ g.size → Mem.readLE b' 0 n = Mem.readLE b 0 n := fun n hn =>
      Mem.readLE_congr n fun i _ hi => (hbytes i (by omega)).symm
    have hfits' : g.fits b' = true := by
      rw [CaseGroup.fits, hread _ ((sizes_of_mem hg).2.2 hpos)]
      exact hfits
    refine decodeInstruction_of_fits htable hfits' fun g' hg' => ?_
    -- A group before it looks at the same bytes, or its labels clash.
    have hpair := instructionTable_pairwise
    rw [htable, List.pairwise_append] at hpair
    rcases hpair.2.2 g' hg' g List.mem_cons_self with hzero | hwidth | hclash
    · exact absurd hzero hpos
    · rw [CaseGroup.fits, hread _ hwidth]
      exact hbefore g' hg'
    · exact not_fits_of_clash hclash hfits'

theorem knownInstructions_decode : knownInstructions.decode = decodeInstruction := by
  rw [knownInstructions]

theorem right_getInstructionSize {E : Env} (h : E.getInstructionSize = getInstructionSize) :
    Right E knownInstructions := by
  intro m a hpos
  rw [h] at hpos ⊢
  rw [knownInstructions_decode]
  unfold getInstructionSize at hpos ⊢
  dsimp only at hpos ⊢
  split_ifs at hpos ⊢
  · exact absurd rfl hpos
  · rfl

/-! ## Jumps -/

theorem fits_stub {b : ℕ → Byte} (h : CaseGroup.fits ⟨8, [0x90909090909006EB], 8, 0⟩ b = true) :
    b 0 = 0xEB ∧ b 1 = 0x06 := by
  rw [CaseGroup.fits, List.contains_iff_mem, List.mem_singleton] at h
  dsimp only at h
  have hlow := Mem.readLE_mod b 0 (show 2 ≤ 8 by norm_num)
  rw [h] at hlow
  have h0 := (b 0).isLt
  have h1 := (b 1).isLt
  simp only [Mem.readLE, Nat.zero_add] at hlow
  constructor
  · exact BitVec.eq_of_toNat_eq (show (b 0).toNat = 0xEB by omega)
  · exact BitVec.eq_of_toNat_eq (show (b 1).toNat = 0x06 by omega)

theorem decodeInstruction_control {b : ℕ → Byte} (hfits : controlInstructions.fits b = true)
    (hstub : ¬ (b 0 = 0xEB ∧ b 1 = 0x06)) : decodeInstruction b = (0, 0) := by
  have htable : instructionTable = instructionTable.take 6 ++ controlInstructions ::
      instructionTable.drop 7 := rfl
  refine decodeInstruction_of_fits htable hfits fun g hg => ?_
  have hclash : ((instructionTable.take 6).drop 1).all (clash · controlInstructions) = true := by
    decide +kernel
  rcases List.mem_cons.mp (show g ∈ ⟨8, [0x90909090909006EB], 8, 0⟩ :: (instructionTable.take 6).drop 1
    from hg) with rfl | hg
  · by_contra hstub'
    exact hstub (fits_stub (by simpa using hstub'))
  · exact not_fits_of_clash (List.all_eq_true.mp hclash g hg) hfits

theorem decodeInstruction_indirectJump {b : ℕ → Byte} (hfits : indirectJump.fits b = true) :
    decodeInstruction b = (0, 0) := by
  have htable : instructionTable = instructionTable.take 10 ++ indirectJump ::
      instructionTable.drop 11 := rfl
  have hclash : (instructionTable.take 10).all (clash · indirectJump) = true := by decide +kernel
  exact decodeInstruction_of_fits htable hfits fun g hg =>
    not_fits_of_clash (List.all_eq_true.mp hclash g hg) hfits

/-- The decoder of the source rejects jumps. -/
theorem rejectsJumps_getInstructionSize {E : Env} (h : E.getInstructionSize = getInstructionSize) :
    RejectsJumps E := by
  intro m a hjump
  have h0 : bytesAt m a 0 = m a := congrArg m (add_zero a)
  have h1 : bytesAt m a 1 = m (a + 1) := rfl
  have hdecode : decodeInstruction (bytesAt m a) = (0, 0) := by
    rcases hjump with hjmp | ⟨hjmp, hnot⟩ | ⟨hfst, hsnd⟩
    · refine decodeInstruction_control ?_ fun hstub => ?_
      · simp [CaseGroup.fits, controlInstructions, Mem.readLE, h0, hjmp]
      · rw [h0, hjmp] at hstub
        exact absurd hstub.1 (by decide)
    · refine decodeInstruction_control ?_ fun hstub => hnot (h1.symm.trans hstub.2)
      simp [CaseGroup.fits, controlInstructions, Mem.readLE, h0, hjmp]
    · refine decodeInstruction_indirectJump ?_
      have hread : Mem.readLE (bytesAt m a) 0 2 = 0x25FF := by
        rw [Mem.readLE, Mem.readLE, Mem.readLE, h0, hfst, Nat.zero_add, h1, hsnd]
        rfl
      rw [CaseGroup.fits, indirectJump, hread]
      rfl
  rw [h]
  unfold getInstructionSize
  dsimp only
  split_ifs
  · rfl
  · rw [hdecode]

end Tasan.Interception
