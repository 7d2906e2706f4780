import Tasan.Asan.Shadow
import Tasan.FakeStack.Runs

/-!
# The shadow of a fake stack

`OnMalloc` makes the bytes of a frame that its function uses addressable and poisons the rest, `OnFree`
poisons the frame, and `GC` poisons the frames that it collects. All of them go through `SetShadow`,
which has two ways to write: small size classes store words over the shadow of the whole frame, and
large ones call `PoisonShadow` for the bytes in use. `setShadowBy` has the choice as an argument, and
`setShadowBy_zero` and `setShadowBy_magic` say what each way leaves.
-/

namespace Tasan.FakeFrames

open Asan

/-- `kAsanStackAfterReturnMagic`. -/
def kAsanStackAfterReturnMagic : Byte := 0xf5

/-- `kAsanStackRightRedzoneMagic`. -/
def kAsanStackRightRedzoneMagic : Byte := 0xf3

/-- `kMagic1`. -/
def kMagic1 : ℕ := kAsanStackAfterReturnMagic.toNat

/-- `kMagic2`. -/
def kMagic2 : ℕ := (kMagic1 <<< 8) ||| kMagic1

/-- `kMagic4`. -/
def kMagic4 : ℕ := (kMagic2 <<< 16) ||| kMagic2

/-- `kMagic8`. -/
def kMagic8 : ℕ := (kMagic4 <<< 32) ||| kMagic4

/-- The loop of `SetShadow`: `n` words stored from `shadow` on. -/
def storeWords (σ : Mem) (shadow n magic : ℕ) : Mem :=
  (List.range n).foldl (fun σ i => σ.writeLE (shadow + 8 * i) 8 magic) σ

/-- `SetShadow`, with words or with `PoisonShadow`; `none` is a failed `CHECK`. -/
def setShadowBy (inlined : Bool) (C : Config) (σ : Mem) (ptr size classId magic : ℕ) : Option Mem := do
  check (C.mapping.addrIsAlignedByGranularity (Word.add 64 ptr size))
  let shadow ← C.mapping.memToShadow ptr
  let σ ←
    if inlined then some (storeWords σ shadow (1 <<< classId) magic)
    else poisonShadow C σ ptr size (BitVec.ofNat 8 magic)
  if magic = 0 then
    poisonShadow C σ (Word.add 64 ptr size) (Word.sub 64 (bytesInSizeClass classId) size)
      kAsanStackRightRedzoneMagic
  else some σ

/-- `SetShadow`. -/
def setShadow (C : Config) (σ : Mem) (ptr size classId magic : ℕ) : Option Mem :=
  setShadowBy (C.mapping.scale = 3 && classId ≤ 6) C σ ptr size classId magic

section Operations

variable (fs : FakeStack) (C : Config)

/-- What `GC` does with one frame, on the memory and the shadow. -/
def FakeStack.gcFrameShadow (bottom realStack : ℕ) (m : Mem × Mem) (f : Frame) : Option (Mem × Mem) :=
  if m.1 (fs.flag f) = 0 then some m
  else if bottom < fs.realStack m.1 f ∧ fs.realStack m.1 f < realStack then
    (setShadow C m.2 (fs.frame f) (bytesInSizeClass f.classId) f.classId kMagic8).map fun σ =>
      (m.1.set (fs.flag f) 0, σ)
  else some m

/-- `GC`, with the shadow. -/
def FakeStack.gcShadow (s : State) (σ : Mem) (thread : Option (ℕ × ℕ)) (realStack : ℕ) :
    Option (State × Mem) :=
  match thread with
  | none => some (s, σ)
  | some (top, bottom) =>
    if realStack < bottom ∨ realStack > top then some (s, σ)
    else
      (fs.forFrames (fun m f => m.bind fun m => fs.gcFrameShadow C bottom realStack m f)
        (some (s.mem, σ))).map fun m => ({ s with needsGc := false, mem := m.1 }, m.2)

/-- `OnMalloc`, on a thread that has a fake stack: the frame, if there is one. -/
def FakeStack.onMalloc (s : State) (σ : Mem) (thread : Option (ℕ × ℕ)) (classId size realStack : ℕ) :
    Option (State × Mem × Option ℕ) :=
  if classId < kNumberOfSizeClasses then
    (if s.needsGc then fs.gcShadow C s σ thread realStack else some (s, σ)).bind fun m =>
      let r := fs.probe classId realStack (numIter (numberOfFrames fs.stackSizeLog classId)) m.1
      match r.2 with
      | none => some (r.1, m.2, none)  -- out of fake stack
      | some ptr => (setShadow C m.2 ptr size classId 0).map fun σ => (r.1, σ, some ptr)
  else none

/-- `OnFree`. -/
def onFree (s : State) (σ : Mem) (ptr classId size : ℕ) : Option (State × Mem) :=
  (setShadow C σ ptr size classId kMagic8).map fun σ => (s.deallocate ptr classId, σ)

end Operations

/-! ## Words -/

theorem writeLE_eq_fill {b : Byte} {n v : ℕ} (hv : ∀ k < n, BitVec.ofNat 8 (v / 256^k) = b) (m : Mem)
    (a : ℕ) : m.writeLE a n v = m.fill a n b := by
  induction n generalizing m a v with
  | zero => rw [Mem.fill_zero, Mem.writeLE]
  | succ n ih =>
    have hhead : BitVec.ofNat 8 v = b := by simpa using hv 0 (Nat.succ_pos n)
    have htail : ∀ k < n, BitVec.ofNat 8 (v / 256 / 256^k) = b := fun k hk => by
      rw [Nat.div_div_eq_div_mul, ← pow_succ']
      exact hv (k + 1) (Nat.succ_lt_succ hk)
    rw [Mem.writeLE, ih htail, hhead]
    funext x
    unfold Mem.fill Mem.set
    split_ifs <;> first | rfl | omega

theorem storeWords_eq_fill {b : Byte} {magic : ℕ} (hv : ∀ k < 8, BitVec.ofNat 8 (magic / 256^k) = b)
    (σ : Mem) (shadow n : ℕ) : storeWords σ shadow n magic = σ.fill shadow (8 * n) b := by
  rw [storeWords]
  induction n with
  | zero => rw [List.range_zero, List.foldl_nil, Nat.mul_zero, Mem.fill_zero]
  | succ n ih =>
    rw [List.range_succ, List.foldl_append, ih, List.foldl_cons, List.foldl_nil, writeLE_eq_fill hv,
      Mem.fill_fill, Nat.mul_succ]

theorem kMagic8_bytes : ∀ k < 8, BitVec.ofNat 8 (kMagic8 / 256^k) = kAsanStackAfterReturnMagic := by
  decide

/-! ## Frames and granules -/

section Granules

variable {fs : FakeStack} {C : Config} {f : Frame}

/-- Where the fake stack is: in a mapping of application memory that does not end where application
memory does, and whose address is that of a page. A granule is no larger than the smallest frame, and
memory can be poisoned. -/
structure Placed (C : Config) (fs : FakeStack) : Prop where
  /-- The address is that of a page. -/
  aligned : 4096 ∣ fs.base
  /-- The mapping, and the byte after it. -/
  inMem : ∀ a, fs.base ≤ a → a ≤ fs.base + requiredSize fs.stackSizeLog →
    C.mapping.addrIsInMem a = true
  /-- A granule is no larger than a frame. -/
  scale_le : C.mapping.scale ≤ 6
  /-- `CanPoisonMemory()`. -/
  canPoison : C.canPoisonMemory = true

/-- The granules of a frame: it begins at granule `p` and has `n` of them. -/
structure Granules (C : Config) (fs : FakeStack) (f : Frame) (p n : ℕ) : Prop where
  /-- Where it begins. -/
  frame_eq : fs.frame f = C.mapping.granularity * p
  /-- How many there are. -/
  size_eq : f.size = C.mapping.granularity * n

theorem Placed.granules (h : Placed C fs) (f : Frame) : ∃ p n, Granules C fs f p n := by
  have h64 : C.mapping.granularity ∣ 64 := pow_dvd_pow 2 h.scale_le
  have hsize : 64 ∣ 2^(f.classId + 6) := pow_dvd_pow 2 (Nat.le_add_left 6 f.classId)
  have hframe : 64 ∣ fs.frame f := by
    have hlog : 2^6 ∣ 2^fs.stackSizeLog := pow_dvd_pow 2 ((by decide : 6 ≤ 16).trans fs.log_ge)
    rw [fs.frame_eq, fs.getFrame_zero, sizeRequiredForFlags_eq fs.log_ge]
    refine Nat.dvd_add (Nat.dvd_add (Nat.dvd_add ?_ (by decide)) ?_) (Nat.dvd_add ?_ ?_)
    · exact (show 64 ∣ 4096 by decide).trans h.aligned
    · exact Nat.dvd_mul_right_of_dvd (by decide) _
    · exact Nat.dvd_mul_right_of_dvd hlog _
    · exact Nat.dvd_mul_right_of_dvd hsize _
  obtain ⟨p, hp⟩ := h64.trans hframe
  obtain ⟨n, hn⟩ := h64.trans hsize
  exact ⟨p, n, hp, f.size_eq.trans hn⟩

variable {p n m : ℕ} {σ : Mem}

theorem Granules.words (hg : Granules C fs f p n) (hscale : C.mapping.scale = 3) :
    8 * (1 <<< f.classId) = n := by
  have h8 := hg.size_eq
  rw [C.mapping.granularity_eq_eight hscale, f.size_eq, pow_add] at h8
  rw [Nat.one_shiftLeft]
  omega

theorem Granules.inMem (hg : Granules C fs f p n) (h : Placed C fs) (hf : f.Valid fs) {q : ℕ}
    (hq : p ≤ q + 1) (hq' : q ≤ p + n) :
    C.mapping.addrIsInMem (C.mapping.granularity * q) = true := by
  have hmem := hf.frame_mem
  have hbase : fs.base + 4096 ≤ fs.getFrame 0 0 := by
    rw [fs.getFrame_zero]
    exact Nat.le_add_right _ _
  have hle : C.mapping.granularity * p ≤ C.mapping.granularity * q + C.mapping.granularity := by
    rw [← Nat.mul_succ]
    exact Nat.mul_le_mul_left _ hq
  have hle' : C.mapping.granularity * q ≤ C.mapping.granularity * p + C.mapping.granularity * n := by
    rw [← Nat.mul_add]
    exact Nat.mul_le_mul_left _ hq'
  rw [hg.frame_eq, hg.size_eq] at hmem
  have := C.mapping.granularity_le
  exact h.inMem _ (by omega) (by omega)

theorem Granules.pos (hg : Granules C fs f p n) (hf : f.Valid fs) : 0 < p ∧ 0 < n := by
  have hmem := hf.frame_mem.1
  have hbase := fs.getFrame_zero
  have hflags : 0 < kFlagsOffset := by decide
  have hsize := f.size_ge
  rw [hg.frame_eq] at hmem
  rw [hg.size_eq] at hsize
  constructor
  · refine Nat.pos_of_ne_zero fun h0 => ?_
    rw [h0, Nat.mul_zero] at hmem
    omega
  · refine Nat.pos_of_ne_zero fun h0 => ?_
    rw [h0, Nat.mul_zero] at hsize
    omega

theorem Granules.poisonShadow_eq (hg : Granules C fs f p n) (h : Placed C fs) (hf : f.Valid fs)
    {q k : ℕ} (hq : p ≤ q) (hk : q + k ≤ p + n) (σ : Mem) (value : Byte) :
    poisonShadow C σ (C.mapping.granularity * q) (C.mapping.granularity * k) value =
      some (σ.fill (q + C.mapping.offset) k value) := by
  have hpos := hg.pos hf
  exact poisonShadow_eq_some C h.canPoison σ q k value (by omega)
    (hg.inMem h hf (by omega) (by omega)) (hg.inMem h hf (by omega) (by omega))

/-- The first lines of `SetShadow` do not fail. -/
theorem Granules.setShadowBy_eq (hg : Granules C fs f p n) (h : Placed C fs) (hf : f.Valid fs)
    (hm : m ≤ n) (inlined : Bool) (magic : ℕ) (σ : Mem) :
    setShadowBy inlined C σ (fs.frame f) (C.mapping.granularity * m) f.classId magic =
      ((if inlined then some (storeWords σ (p + C.mapping.offset) (1 <<< f.classId) magic)
        else some (σ.fill (p + C.mapping.offset) m (BitVec.ofNat 8 magic))).bind fun σ =>
        if magic = 0 then
          some (σ.fill (p + m + C.mapping.offset) (n - m) kAsanStackRightRedzoneMagic)
        else some σ) := by
  have hend := fs.mapped
  have hmem := hf.frame_mem.2
  rw [hg.frame_eq, hg.size_eq] at hmem
  have hle : C.mapping.granularity * m ≤ C.mapping.granularity * n := Nat.mul_le_mul_left _ hm
  have hin := hg.inMem h hf (q := p) (by omega) (by omega)
  have hsum : Word.add 64 (C.mapping.granularity * p) (C.mapping.granularity * m) =
      C.mapping.granularity * (p + m) := by
    rw [Word.add_of_lt (by omega), Nat.mul_add]
  have hrest : Word.sub 64 (bytesInSizeClass f.classId) (C.mapping.granularity * m) =
      C.mapping.granularity * (n - m) := by
    rw [← Frame.size, hg.size_eq, Word.sub_of_le hle (by omega), Nat.mul_sub]
  have halign : C.mapping.addrIsAlignedByGranularity (C.mapping.granularity * (p + m)) = true :=
    (C.mapping.addrIsAlignedByGranularity_iff _).mpr (Nat.mul_mod_right _ _)
  have hshadow : C.mapping.memToShadow (C.mapping.granularity * p) = some (p + C.mapping.offset) := by
    rw [Layout.memToShadow, if_pos hin, C.mapping.MEM_TO_SHADOW_of_le (C.mapping.le_of_addrIsInMem hin),
      Nat.mul_div_cancel_left _ C.mapping.granularity_pos]
  have hfirst := hg.poisonShadow_eq h hf (k := m) le_rfl (by omega) σ (BitVec.ofNat 8 magic)
  have hsecond := fun σ : Mem =>
    hg.poisonShadow_eq h hf (q := p + m) (k := n - m) (by omega) (by omega) σ
      kAsanStackRightRedzoneMagic
  rw [setShadowBy, hg.frame_eq, hsum, hrest, halign, hshadow, hfirst]
  simp only [check_true, hsecond]
  cases inlined <;> rfl

theorem setShadowBy_zero (hg : Granules C fs f p n) (h : Placed C fs) (hf : f.Valid fs) (hm : m ≤ n)
    {inlined : Bool} (hscale : inlined = true → C.mapping.scale = 3) (σ : Mem) :
    setShadowBy inlined C σ (fs.frame f) (C.mapping.granularity * m) f.classId 0 =
      some ((σ.fill (p + C.mapping.offset) m 0).fill (p + m + C.mapping.offset) (n - m)
        kAsanStackRightRedzoneMagic) := by
  rw [hg.setShadowBy_eq h hf hm]
  cases inlined with
  | false => rfl
  | true =>
    have hzero : ∀ k < 8, BitVec.ofNat 8 (0 / 256^k) = (0 : Byte) := by simp
    have hwords := storeWords_eq_fill hzero σ (p + C.mapping.offset) (1 <<< f.classId)
    rw [if_pos rfl, hwords, hg.words (hscale rfl), Option.bind_some, if_pos rfl]
    refine congrArg some (funext fun x => ?_)
    unfold Mem.fill
    split_ifs <;> first | rfl | omega

theorem setShadowBy_magic (hg : Granules C fs f p n) (h : Placed C fs) (hf : f.Valid fs) (hm : m ≤ n)
    {inlined : Bool} (hscale : inlined = true → C.mapping.scale = 3) (σ : Mem) :
    setShadowBy inlined C σ (fs.frame f) (C.mapping.granularity * m) f.classId kMagic8 =
      some (σ.fill (p + C.mapping.offset) (if inlined then n else m) kAsanStackAfterReturnMagic) := by
  have hne : kMagic8 ≠ 0 := by decide
  rw [hg.setShadowBy_eq h hf hm]
  cases inlined with
  | false => rw [if_neg Bool.false_ne_true, Option.bind_some, if_neg hne, if_neg Bool.false_ne_true]; rfl
  | true =>
    rw [if_pos rfl, storeWords_eq_fill kMagic8_bytes, hg.words (hscale rfl), Option.bind_some,
      if_neg hne, if_pos rfl]

end Granules

end Tasan.FakeFrames
