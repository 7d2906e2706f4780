import Mathlib

/-!
# The layout of a fake stack

The functions of `asan_fake_stack.h` that compute where the flags and the frames are, and
`AddrIsInFakeStack` of `asan_fake_stack.cpp`. A `FakeStack` is mapped below `2^64` as a whole, so that
none of the sums wraps, and they are written with natural numbers.

Both regions are tiled. In units of `2^(stack_size_log - 16)` bytes the flags of class `c` take the
interval from `2048 - 2 * 2^(10 - c)` to `2048 - 2^(10 - c)`, and the next class starts there. The
frames of class `c` fill the `c`-th block of `2^stack_size_log` bytes. An address in the second region
is therefore in one frame, whose class and position are the quotients that `AddrIsInFakeStack` computes.
-/

namespace Tasan.FakeFrames

/-- `kMinStackFrameSizeLog`. -/
def kMinStackFrameSizeLog : ℕ := 6

/-- `kMaxStackFrameSizeLog`. -/
def kMaxStackFrameSizeLog : ℕ := 16

/-- `kNumberOfSizeClasses`. -/
def kNumberOfSizeClasses : ℕ := kMaxStackFrameSizeLog - kMinStackFrameSizeLog + 1

/-- `kFlagsOffset`. -/
def kFlagsOffset : ℕ := 4096

/-- `SizeRequiredForFlags`. -/
def sizeRequiredForFlags (stackSizeLog : ℕ) : ℕ := 1 <<< (stackSizeLog + 1 - kMinStackFrameSizeLog)

/-- `SizeRequiredForFrames`. -/
def sizeRequiredForFrames (stackSizeLog : ℕ) : ℕ := (1 <<< stackSizeLog) * kNumberOfSizeClasses

/-- `RequiredSize`. -/
def requiredSize (stackSizeLog : ℕ) : ℕ :=
  kFlagsOffset + sizeRequiredForFlags stackSizeLog + sizeRequiredForFrames stackSizeLog

/-- `FlagsOffset`. -/
def flagsOffset (stackSizeLog classId : ℕ) : ℕ :=
  let t := kNumberOfSizeClasses - 1 - classId
  let allOnes := (1 <<< (kNumberOfSizeClasses - 1)) - 1
  ((allOnes >>> t) <<< t) <<< (stackSizeLog - 15)

/-- `NumberOfFrames`. -/
def numberOfFrames (stackSizeLog classId : ℕ) : ℕ :=
  1 <<< (stackSizeLog - kMinStackFrameSizeLog - classId)

/-- `ModuloNumberOfFrames`. -/
def moduloNumberOfFrames (stackSizeLog classId n : ℕ) : ℕ :=
  n &&& (numberOfFrames stackSizeLog classId - 1)

/-- `BytesInSizeClass`. -/
def bytesInSizeClass (classId : ℕ) : ℕ := 1 <<< (classId + kMinStackFrameSizeLog)

/-- `SavedFlagPtr`: the last word of the frame. -/
def savedFlagPtr (x classId : ℕ) : ℕ := x + bytesInSizeClass classId - 8

/-- `sizeof(FakeFrame)`. -/
def sizeofFakeFrame : ℕ := 32

/-- The offset of `real_stack` in a `FakeFrame`. -/
def realStackOffset : ℕ := 24

/-- A fake stack: the address of the object, and `stack_size_log_`. -/
structure FakeStack where
  /-- `this`. -/
  base : ℕ
  stackSizeLog : ℕ
  /-- `kMinStackSizeLog` of `Create`. -/
  log_ge : 16 ≤ stackSizeLog
  /-- The object is mapped. -/
  mapped : base + requiredSize stackSizeLog < 2 ^ 64

/-- `GetFlags`. -/
def FakeStack.getFlags (fs : FakeStack) (classId : ℕ) : ℕ :=
  fs.base + kFlagsOffset + flagsOffset fs.stackSizeLog classId

/-- `GetFrame`. -/
def FakeStack.getFrame (fs : FakeStack) (classId pos : ℕ) : ℕ :=
  fs.base + kFlagsOffset + sizeRequiredForFlags fs.stackSizeLog + (1 <<< fs.stackSizeLog) * classId +
    bytesInSizeClass classId * pos

/-- `AddrIsInFakeStack`: `none` if a `CHECK` fails, else `frame_beg`, `frame_end` and the result, if it
is not 0. -/
def FakeStack.addrIsInFakeStack (fs : FakeStack) (ptr : ℕ) : Option (Option (ℕ × ℕ × ℕ)) :=
  let beg := fs.getFrame 0 0
  let fin := fs.base + requiredSize fs.stackSizeLog
  if ptr < beg ∨ ptr ≥ fin then some none
  else
    let classId := (ptr - beg) >>> fs.stackSizeLog
    let base := beg + (classId <<< fs.stackSizeLog)
    if ¬base ≤ ptr then none
    else if ¬ptr < base + (1 <<< fs.stackSizeLog) then none
    else
      let pos := (ptr - base) >>> (kMinStackFrameSizeLog + classId)
      let res := base + pos * bytesInSizeClass classId
      some (some (res + sizeofFakeFrame, res + bytesInSizeClass classId, res))

/-! ## Frames -/

/-- A frame: its class and its position there. -/
structure Frame where
  classId : ℕ
  pos : ℕ
  deriving DecidableEq

/-- The frame exists. -/
structure Frame.Valid (fs : FakeStack) (f : Frame) : Prop where
  class_lt : f.classId < kNumberOfSizeClasses
  pos_lt : f.pos < numberOfFrames fs.stackSizeLog f.classId

/-- Where the frame begins. -/
def FakeStack.frame (fs : FakeStack) (f : Frame) : ℕ := fs.getFrame f.classId f.pos

/-- The flag of the frame. -/
def FakeStack.flag (fs : FakeStack) (f : Frame) : ℕ := fs.getFlags f.classId + f.pos

/-- The number of bytes of the frame. -/
def Frame.size (f : Frame) : ℕ := bytesInSizeClass f.classId

/-- The address is in the frame. -/
def FakeStack.Contains (fs : FakeStack) (f : Frame) (p : ℕ) : Prop :=
  fs.frame f ≤ p ∧ p < fs.frame f + f.size

section Layout

variable {fs : FakeStack} {f g : Frame} {p : ℕ}

theorem numberOfFrames_eq {log c : ℕ} (hlog : 16 ≤ log) (hc : c < kNumberOfSizeClasses) :
    numberOfFrames log c = 2 ^ (10 - c) * 2 ^ (log - 16) := by
  have hc' : c < 11 := hc
  rw [numberOfFrames, Nat.one_shiftLeft, ← pow_add, kMinStackFrameSizeLog]
  congr 1
  omega

theorem flagsOffset_eq {log c : ℕ} (hlog : 16 ≤ log) (hc : c < kNumberOfSizeClasses) :
    flagsOffset log c = (2048 - 2 * 2 ^ (10 - c)) * 2 ^ (log - 16) := by
  have hmask : ∀ c < 11, (1023 >>> (10 - c)) <<< (10 - c) = 1024 - 2 ^ (10 - c) := by decide
  have hlog' : 2 ^ (log - 15) = 2 * 2 ^ (log - 16) := by
    rw [← pow_succ']
    congr 1
    omega
  unfold flagsOffset
  dsimp only
  rw [Nat.shiftLeft_eq _ (log - 15), hlog']
  change ((1023 >>> (10 - c)) <<< (10 - c)) * _ = _
  rw [hmask c hc, ← mul_assoc, Nat.sub_mul, Nat.mul_comm (2 ^ (10 - c)) 2]

theorem sizeRequiredForFlags_eq {log : ℕ} (hlog : 16 ≤ log) :
    sizeRequiredForFlags log = 2048 * 2 ^ (log - 16) := by
  rw [sizeRequiredForFlags, Nat.one_shiftLeft, kMinStackFrameSizeLog, show 2048 = 2 ^ 11 by rfl, ← pow_add]
  congr 1
  omega

theorem flagsOffset_add_le {log c d : ℕ} (hlog : 16 ≤ log) (hd : d < kNumberOfSizeClasses)
    (hcd : c < d) : flagsOffset log c + numberOfFrames log c ≤ flagsOffset log d := by
  have hc : c < kNumberOfSizeClasses := hcd.trans hd
  have hd' : d < 11 := hd
  rw [flagsOffset_eq hlog hc, flagsOffset_eq hlog hd, numberOfFrames_eq hlog hc, ← Nat.add_mul]
  apply Nat.mul_le_mul_right
  have hpow : 2 * 2 ^ (10 - d) ≤ 2 ^ (10 - c) := by
    rw [← pow_succ']
    exact Nat.pow_le_pow_right (by norm_num) (by omega)
  have hmax : 2 ^ (10 - c) ≤ 2 ^ 10 := Nat.pow_le_pow_right (by norm_num) (Nat.sub_le _ _)
  omega

theorem flagsOffset_add_lt {log c : ℕ} (hlog : 16 ≤ log) (hc : c < kNumberOfSizeClasses) :
    flagsOffset log c + numberOfFrames log c < sizeRequiredForFlags log := by
  rw [flagsOffset_eq hlog hc, numberOfFrames_eq hlog hc, sizeRequiredForFlags_eq hlog, ← Nat.add_mul]
  have hpos : 0 < 2 ^ (10 - c) := by positivity
  have hmax : 2 ^ (10 - c) ≤ 2 ^ 10 := Nat.pow_le_pow_right (by norm_num) (Nat.sub_le _ _)
  exact Nat.mul_lt_mul_of_pos_right (by omega) (by positivity)

theorem FakeStack.getFrame_zero (fs : FakeStack) :
    fs.getFrame 0 0 = fs.base + kFlagsOffset + sizeRequiredForFlags fs.stackSizeLog := by
  simp [FakeStack.getFrame]

theorem FakeStack.end_eq (fs : FakeStack) :
    fs.base + requiredSize fs.stackSizeLog = fs.getFrame 0 0 + 2 ^ fs.stackSizeLog * 11 := by
  rw [fs.getFrame_zero, requiredSize, sizeRequiredForFrames, Nat.one_shiftLeft]
  rw [show kNumberOfSizeClasses = 11 from rfl]
  omega

theorem numberOfFrames_mul {log c : ℕ} (hlog : 16 ≤ log) (hc : c < kNumberOfSizeClasses) :
    bytesInSizeClass c * numberOfFrames log c = 2 ^ log := by
  have hc' : c < 11 := hc
  rw [bytesInSizeClass, numberOfFrames, Nat.one_shiftLeft, Nat.one_shiftLeft, ← pow_add,
    kMinStackFrameSizeLog]
  congr 1
  omega

theorem FakeStack.frame_eq (fs : FakeStack) (f : Frame) : fs.frame f =
    fs.getFrame 0 0 + (2 ^ fs.stackSizeLog * f.classId + 2 ^ (f.classId + 6) * f.pos) := by
  rw [fs.getFrame_zero, FakeStack.frame, FakeStack.getFrame, Nat.one_shiftLeft, bytesInSizeClass,
    Nat.one_shiftLeft, kMinStackFrameSizeLog]
  omega

theorem Frame.size_eq (f : Frame) : f.size = 2 ^ (f.classId + 6) := by
  rw [Frame.size, bytesInSizeClass, Nat.one_shiftLeft, kMinStackFrameSizeLog]

theorem Frame.Valid.end_le (hf : f.Valid fs) :
    2 ^ (f.classId + 6) * f.pos + 2 ^ (f.classId + 6) ≤ 2 ^ fs.stackSizeLog := by
  have hblock := numberOfFrames_mul fs.log_ge hf.class_lt
  rw [bytesInSizeClass, Nat.one_shiftLeft, kMinStackFrameSizeLog] at hblock
  calc 2 ^ (f.classId + 6) * f.pos + 2 ^ (f.classId + 6)
      = 2 ^ (f.classId + 6) * (f.pos + 1) := by ring
    _ ≤ 2 ^ (f.classId + 6) * numberOfFrames fs.stackSizeLog f.classId :=
        Nat.mul_le_mul_left _ hf.pos_lt
    _ = 2 ^ fs.stackSizeLog := hblock

/-- The frame that contains an address is the one with these quotients. -/
theorem FakeStack.contains_iff (hp : fs.getFrame 0 0 ≤ p) :
    f.Valid fs ∧ fs.Contains f p ↔ p < fs.base + requiredSize fs.stackSizeLog ∧
      f.classId = (p - fs.getFrame 0 0) / 2 ^ fs.stackSizeLog ∧
      f.pos = (p - fs.getFrame 0 0) % 2 ^ fs.stackSizeLog / 2 ^ (f.classId + 6) := by
  obtain ⟨q, rfl⟩ := Nat.exists_eq_add_of_le hp
  have hblock : 0 < 2 ^ fs.stackSizeLog := by positivity
  rw [fs.end_eq, FakeStack.Contains, fs.frame_eq, f.size_eq, Nat.add_sub_cancel_left]
  have hsplit := Nat.div_add_mod q (2 ^ fs.stackSizeLog)
  have hmod := Nat.mod_lt q hblock
  constructor
  · rintro ⟨hf, hle, hlt⟩
    have hend := hf.end_le
    have hclass : f.classId < 11 := hf.class_lt
    have hnext : 2 ^ fs.stackSizeLog * f.classId + 2 ^ fs.stackSizeLog ≤ 2 ^ fs.stackSizeLog * 11 := by
      calc 2 ^ fs.stackSizeLog * f.classId + 2 ^ fs.stackSizeLog
          = 2 ^ fs.stackSizeLog * (f.classId + 1) := by ring
        _ ≤ 2 ^ fs.stackSizeLog * 11 := Nat.mul_le_mul_left _ hclass
    have hdiv : f.classId = q / 2 ^ fs.stackSizeLog := by
      symm
      apply Nat.div_eq_of_lt_le
      · rw [Nat.mul_comm]
        omega
      · rw [Nat.mul_comm, Nat.mul_succ]
        omega
    refine ⟨by omega, hdiv, ?_⟩
    rw [← hdiv] at hsplit
    symm
    apply Nat.div_eq_of_lt_le
    · rw [Nat.mul_comm]
      omega
    · rw [Nat.mul_comm, Nat.mul_succ]
      omega
  · rintro ⟨hlt, hclass, hpos⟩
    have hclass' : f.classId < 11 := by
      rw [hclass]
      exact Nat.div_lt_of_lt_mul (by omega)
    have hmod' := Nat.mod_lt (q % 2 ^ fs.stackSizeLog) (show 0 < 2 ^ (f.classId + 6) by positivity)
    have hsplit' := Nat.div_add_mod (q % 2 ^ fs.stackSizeLog) (2 ^ (f.classId + 6))
    rw [← hpos] at hsplit'
    rw [← hclass] at hsplit
    refine ⟨⟨hclass', ?_⟩, by omega, by omega⟩
    have hfill := numberOfFrames_mul fs.log_ge hclass'
    rw [bytesInSizeClass, Nat.one_shiftLeft, kMinStackFrameSizeLog] at hfill
    rw [hpos]
    apply Nat.div_lt_of_lt_mul
    omega

/-! ## Where everything is -/

theorem Frame.Valid.frame_mem (hf : f.Valid fs) :
    fs.getFrame 0 0 ≤ fs.frame f ∧ fs.frame f + f.size ≤ fs.base + requiredSize fs.stackSizeLog := by
  have hend := hf.end_le
  have hclass : f.classId < 11 := hf.class_lt
  have hnext : 2 ^ fs.stackSizeLog * (f.classId + 1) ≤ 2 ^ fs.stackSizeLog * 11 :=
    Nat.mul_le_mul_left _ hclass
  rw [Nat.mul_succ] at hnext
  rw [fs.end_eq, fs.frame_eq, f.size_eq]
  omega

theorem Frame.size_ge (f : Frame) : 64 ≤ f.size := by
  rw [f.size_eq]
  calc 64 = 2 ^ 6 := rfl
    _ ≤ 2 ^ (f.classId + 6) := Nat.pow_le_pow_right (by norm_num) (by omega)

theorem FakeStack.contains_unique (hf : f.Valid fs) (hg : g.Valid fs) (hfp : fs.Contains f p)
    (hgp : fs.Contains g p) : f = g := by
  have hp := hf.frame_mem.1.trans hfp.1
  obtain ⟨-, hfc, hfpos⟩ := (FakeStack.contains_iff hp).mp ⟨hf, hfp⟩
  obtain ⟨-, hgc, hgpos⟩ := (FakeStack.contains_iff hp).mp ⟨hg, hgp⟩
  have hclass : f.classId = g.classId := hfc.trans hgc.symm
  rw [hclass] at hfpos
  cases f
  cases g
  simp only [Frame.mk.injEq]
  exact ⟨hclass, hfpos.trans hgpos.symm⟩

theorem Frame.Valid.disjoint (hf : f.Valid fs) (hg : g.Valid fs) (hne : f ≠ g) :
    fs.frame f + f.size ≤ fs.frame g ∨ fs.frame g + g.size ≤ fs.frame f := by
  by_contra hboth
  rw [not_or, not_le, not_le] at hboth
  have hfs := f.size_ge
  have hgs := g.size_ge
  rcases le_total (fs.frame f) (fs.frame g) with hle | hle
  · exact hne (FakeStack.contains_unique hf hg ⟨hle, hboth.1⟩ ⟨le_rfl, by omega⟩)
  · exact hne (FakeStack.contains_unique hf hg ⟨le_rfl, by omega⟩ ⟨hle, hboth.2⟩)

theorem Frame.Valid.frame_inj (hf : f.Valid fs) (hg : g.Valid fs) (heq : fs.frame f = fs.frame g) :
    f = g := by
  by_contra hne
  have hfs := f.size_ge
  have hgs := g.size_ge
  rcases hf.disjoint hg hne with h | h <;> omega

theorem Frame.Valid.flag_mem (hf : f.Valid fs) :
    fs.base + kFlagsOffset ≤ fs.flag f ∧ fs.flag f < fs.getFrame 0 0 := by
  have hlt := flagsOffset_add_lt fs.log_ge hf.class_lt
  have hpos := hf.pos_lt
  rw [fs.getFrame_zero, FakeStack.flag, FakeStack.getFlags]
  omega

theorem Frame.Valid.flag_lt_frame (hf : f.Valid fs) (hg : g.Valid fs) : fs.flag f < fs.frame g :=
  hf.flag_mem.2.trans_le hg.frame_mem.1

theorem Frame.Valid.flag_inj (hf : f.Valid fs) (hg : g.Valid fs) (heq : fs.flag f = fs.flag g) :
    f = g := by
  have hfp := hf.pos_lt
  have hgp := hg.pos_lt
  rw [FakeStack.flag, FakeStack.flag, FakeStack.getFlags, FakeStack.getFlags] at heq
  rcases lt_trichotomy f.classId g.classId with hlt | hclass | hlt
  · have := flagsOffset_add_le fs.log_ge hg.class_lt hlt
    omega
  · rw [hclass] at heq
    cases f
    cases g
    simp only [Frame.mk.injEq]
    exact ⟨hclass, by simpa using heq⟩
  · have := flagsOffset_add_le fs.log_ge hf.class_lt hlt
    omega

theorem FakeStack.savedFlagPtr_mem (fs : FakeStack) (f : Frame) : fs.frame f + sizeofFakeFrame ≤
    savedFlagPtr (fs.frame f) f.classId ∧
    savedFlagPtr (fs.frame f) f.classId + 8 = fs.frame f + f.size := by
  have hsize := f.size_ge
  rw [Frame.size] at hsize ⊢
  unfold savedFlagPtr sizeofFakeFrame
  omega

/-- `AddrIsInFakeStack` finds the frame that contains an address, and nothing outside of the frames. -/
theorem FakeStack.addrIsInFakeStack_eq (fs : FakeStack) (p : ℕ) :
    (∃ f, f.Valid fs ∧ fs.Contains f p ∧ fs.addrIsInFakeStack p =
      some (some (fs.frame f + sizeofFakeFrame, fs.frame f + f.size, fs.frame f))) ∨
    (p < fs.getFrame 0 0 ∨ fs.base + requiredSize fs.stackSizeLog ≤ p) ∧
      fs.addrIsInFakeStack p = some none := by
  unfold FakeStack.addrIsInFakeStack
  dsimp only
  by_cases hout : p < fs.getFrame 0 0 ∨ p ≥ fs.base + requiredSize fs.stackSizeLog
  · rw [if_pos hout]
    exact Or.inr ⟨hout, rfl⟩
  rw [if_neg hout]
  rw [not_or, not_lt, not_le] at hout
  obtain ⟨hp, hlt⟩ := hout
  obtain ⟨q, rfl⟩ := Nat.exists_eq_add_of_le hp
  have hsplit := Nat.div_add_mod q (2 ^ fs.stackSizeLog)
  have hmod := Nat.mod_lt q (show 0 < 2 ^ fs.stackSizeLog by positivity)
  rw [Nat.add_sub_cancel_left, Nat.shiftRight_eq_div_pow, Nat.shiftLeft_eq, Nat.one_shiftLeft,
    Nat.mul_comm (q / 2 ^ fs.stackSizeLog)]
  rw [if_neg (by omega), if_neg (by omega)]
  have hrest : fs.getFrame 0 0 + q - (fs.getFrame 0 0 + 2 ^ fs.stackSizeLog * (q / 2 ^ fs.stackSizeLog)) =
      q % 2 ^ fs.stackSizeLog := by omega
  rw [hrest, Nat.shiftRight_eq_div_pow]
  -- the quotients are those of `contains_iff`
  obtain ⟨hf, hcontains⟩ := (FakeStack.contains_iff (f := ⟨q / 2 ^ fs.stackSizeLog,
    q % 2 ^ fs.stackSizeLog / 2 ^ (q / 2 ^ fs.stackSizeLog + 6)⟩) hp).mpr
    ⟨hlt, by rw [Nat.add_sub_cancel_left], by rw [Nat.add_sub_cancel_left]⟩
  refine Or.inl ⟨_, hf, hcontains, ?_⟩
  rw [fs.frame_eq, Frame.size_eq, bytesInSizeClass, Nat.one_shiftLeft, kMinStackFrameSizeLog,
    Nat.add_comm 6, Nat.mul_comm (q % 2 ^ fs.stackSizeLog / _), Nat.add_assoc (fs.getFrame 0 0)]

theorem moduloNumberOfFrames_eq (log c n : ℕ) :
    moduloNumberOfFrames log c n = n % numberOfFrames log c := by
  rw [moduloNumberOfFrames, numberOfFrames, Nat.one_shiftLeft, Nat.and_two_pow_sub_one_eq_mod]

end Layout

end Tasan.FakeFrames
