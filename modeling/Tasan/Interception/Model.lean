import Tasan.WordMemory

/-!
# The interception of functions on 64-bit Windows

The functions of `interception_win.cpp` that patch a function so that a call of it reaches its
interceptor. What they ask the system for is in `Env`: the sizes of instructions, whether the memory
protection can be changed, the module of an address, and new memory for trampolines. `none` is
`InterceptionFailed`, which does not return.
-/

namespace Tasan.Interception

/-- A machine word. -/
abbrev Word := BitVec 64

/-- `TrampolineMemoryRegion`. -/
structure TrampolineMemoryRegion where
  content : Word
  allocatedSize : Word
  maxSize : Word

/-- What the code asks the system for. -/
structure Env where
  /-- `GetInstructionSize`: the size of the instruction at an address, or zero, and the offset of its
  displacement relative to `rip`, or zero. -/
  getInstructionSize : WordMem → Word → ℕ × ℕ
  /-- Whether `ChangeMemoryProtection` succeeds. -/
  changeMemoryProtection : Word → Word → Bool
  /-- Whether `RestoreMemoryProtection` succeeds. -/
  restoreMemoryProtection : Word → Word → Bool
  /-- The base and the size of the module of an address, when it has one. -/
  moduleInformation : Word → Option (Word × Word)
  getMmapGranularity : Word
  /-- `AllocateTrampolineRegion`, with the regions that there are, and zero when it fails. -/
  allocateTrampolineRegion : List TrampolineMemoryRegion → (minAddr maxAddr funcAddr : Word) → Word

/-- What the code changes. -/
structure State where
  /-- The memory. -/
  mem : WordMem
  /-- The used part of `TrampolineRegions`. -/
  regions : List TrampolineMemoryRegion
  origOldFunc : Word

/-- `DistanceIsWithin2Gig`. -/
def distanceIsWithin2Gig (source target : Word) : Bool :=
  if source < target then target - source ≤ 0x7FFFFFFF else source - target ≤ 0x80000000

/-- `IsMemoryPadding`. -/
def isMemoryPadding (m : WordMem) (address : Word) (size : ℕ) : Bool :=
  (List.range size).all fun i =>
    m (address + BitVec.ofNat 64 i) == 0x90 || m (address + BitVec.ofNat 64 i) == 0xCC

/-- `kHintNop8Bytes`. -/
def kHintNop8Bytes : List Byte := [0x0F, 0x1F, 0x84, 0x00, 0x00, 0x00, 0x00, 0x00]

/-- `FunctionHasPrefix`. -/
def functionHasPrefix (m : WordMem) (address : Word) (pattern : List Byte) : Bool :=
  (List.range pattern.length).map
    (fun i => m (address - BitVec.ofNat 64 pattern.length + BitVec.ofNat 64 i)) == pattern

/-- `FunctionHasPadding`. -/
def functionHasPadding (m : WordMem) (address : Word) (size : ℕ) : Bool :=
  isMemoryPadding m (address - BitVec.ofNat 64 size) size ||
    (size ≤ kHintNop8Bytes.length && functionHasPrefix m address kHintNop8Bytes)

/-- `WritePadding`. -/
def writePadding (m : WordMem) (source : Word) (size : ℕ) : WordMem := m.fill source size 0xCC

/-- `kAddressLength`. -/
def kAddressLength : ℕ := 8

/-- `kJumpInstructionLength`. -/
def kJumpInstructionLength : ℕ := 5

/-- `kShortJumpInstructionLength`. -/
def kShortJumpInstructionLength : ℕ := 2

/-- `kIndirectJumpInstructionLength`. -/
def kIndirectJumpInstructionLength : ℕ := 6

/-- `kBranchLength`. -/
def kBranchLength : ℕ := kIndirectJumpInstructionLength

/-- `kDirectBranchLength`. -/
def kDirectBranchLength : ℕ := kBranchLength + kAddressLength

/-- `WriteJumpInstruction`. -/
def writeJumpInstruction (m : WordMem) (source target : Word) : Option WordMem :=
  if !distanceIsWithin2Gig (source + 5) target then none
  else
    let offset := target - source - 5
    some ((m.store source 1 0xE9).store (source + 1) 4 offset.toNat)

/-- `WriteShortJumpInstruction`. -/
def writeShortJumpInstruction (m : WordMem) (source target : Word) : Option WordMem :=
  let offset := target - source - 2
  if offset.toInt < -128 ∨ 127 < offset.toInt then none
  else some ((m.store source 1 0xEB).store (source + 1) 1 offset.toNat)

/-- `WriteIndirectJumpInstruction`. -/
def writeIndirectJumpInstruction (m : WordMem) (source indirectTarget : Word) : Option WordMem :=
  let offset := indirectTarget - source - 6
  if !distanceIsWithin2Gig (source + 6) indirectTarget then none
  else some ((m.store source 2 0x25FF).store (source + 2) 4 offset.toNat)

/-- `WriteBranch`. -/
def writeBranch (m : WordMem) (source indirectTarget target : Word) : Option WordMem :=
  (writeIndirectJumpInstruction m source indirectTarget).map fun m =>
    m.store indirectTarget 8 target.toNat

/-- `WriteDirectBranch`. -/
def writeDirectBranch (m : WordMem) (source target : Word) : Option WordMem :=
  writeBranch m source (source + 6) target

/-- `kTrampolineRangeLimit`. -/
def kTrampolineRangeLimit : Word := 1 <<< 31

/-- `kMaxTrampolineRegion`. -/
def kMaxTrampolineRegion : ℕ := 1024

/-- The limits of `AllocateMemoryForTrampoline`. -/
def trampolineLimits (E : Env) (funcAddress size : Word) : Word × Word :=
  let (minAddr, maxAddr) :=
    match E.moduleInformation funcAddress with
    | some (base, imageSize) =>
      (base + imageSize - kTrampolineRangeLimit, base + kTrampolineRangeLimit - size)
    | none => (funcAddress - kTrampolineRangeLimit, funcAddress + kTrampolineRangeLimit - size)
  -- Check for overflow.
  (if funcAddress < minAddr then 0 else minAddr, if maxAddr < funcAddress then -1 else maxAddr)

/-- A region has room for `size` bytes within the limits. -/
def TrampolineMemoryRegion.hasRoom (r : TrampolineMemoryRegion) (minAddr maxAddr size : Word) :
    Bool :=
  size < r.maxSize - r.allocatedSize &&
    !(r.content + r.allocatedSize < minAddr || maxAddr < r.content + r.allocatedSize)

/-- The search of `AllocateMemoryForTrampoline`, which takes the space in the first region that has
room: the address of the space, and the regions after that. -/
def takeRoom (minAddr maxAddr size : Word) :
    List TrampolineMemoryRegion → Option (Word × List TrampolineMemoryRegion)
  | [] => none
  | r :: rs =>
    if r.hasRoom minAddr maxAddr size then
      some (r.content + r.allocatedSize, { r with allocatedSize := r.allocatedSize + size } :: rs)
    else (takeRoom minAddr maxAddr size rs).map fun (a, rs) => (a, r :: rs)

/-- `AllocateMemoryForTrampoline`: zero when it fails. -/
def allocateMemoryForTrampoline (E : Env) (s : State) (funcAddress : Word) (size : ℕ) :
    Word × State :=
  let (minAddr, maxAddr) := trampolineLimits E funcAddress (BitVec.ofNat 64 size)
  match takeRoom minAddr maxAddr (BitVec.ofNat 64 size) s.regions with
  | some (a, regions) => (a, { s with regions := regions, mem := writePadding s.mem a size })
  | none =>
    if s.regions.length < kMaxTrampolineRegion then
      -- No valid region found, allocate a new region.
      let content := E.allocateTrampolineRegion s.regions minAddr maxAddr funcAddress
      if content = 0 then (0, s)
      else (content, { s with
        regions := s.regions ++ [⟨content, BitVec.ofNat 64 size, E.getMmapGranularity⟩]
        mem := writePadding s.mem content size })
    else (0, s)

/-- The loop of `RoundUpToInstrBoundary`; each turn goes at least one byte on. -/
def roundUpLoop (E : Env) (m : WordMem) (size : ℕ) (address : Word) : (fuel cursor : ℕ) → ℕ
  | 0, cursor => cursor
  | fuel + 1, cursor =>
    if cursor < size then
      let instructionSize := (E.getInstructionSize m (address + BitVec.ofNat 64 cursor)).1
      if instructionSize = 0 then 0 else roundUpLoop E m size address fuel (cursor + instructionSize)
    else cursor

/-- `RoundUpToInstrBoundary`. -/
def roundUpToInstrBoundary (E : Env) (m : WordMem) (size : ℕ) (address : Word) : ℕ :=
  roundUpLoop E m size address size 0

/-- `*(s32 *)address`, as a word. -/
def loadS32 (m : WordMem) (address : Word) : Word :=
  (BitVec.ofNat 32 (m.load address 4)).signExtend 64

/-- The relocation of a displacement in `CopyInstructions`; `none` when it does not fit in 32 bits. -/
def relocate (m : WordMem) (target source displacement : Word) : Option WordMem :=
  let delta := target - source
  let relocatedOffset := loadS32 m displacement - delta
  if relocatedOffset.toInt < -0x80000000 ∨ 0x7FFFFFFF < relocatedOffset.toInt then none
  else some (m.store displacement 4 relocatedOffset.toNat)

/-- The loop of `CopyInstructions`, with the result and the memory; `none` when it goes past `size`
and does not return. -/
def copyLoop (E : Env) (target source : Word) (size : ℕ) :
    (fuel : ℕ) → WordMem → (cursor : ℕ) → Option (Bool × WordMem)
  | 0, m, cursor => if cursor = size then some (true, m) else none
  | fuel + 1, m, cursor =>
    if cursor = size then some (true, m)
    else
      let (instructionSize, relOffset) := E.getInstructionSize m (source + BitVec.ofNat 64 cursor)
      if instructionSize = 0 then some (false, m)
      else
        let m := m.copy (target + BitVec.ofNat 64 cursor) (source + BitVec.ofNat 64 cursor)
          instructionSize
        if relOffset = 0 then copyLoop E target source size fuel m (cursor + instructionSize)
        else
          match relocate m target source
            (target + BitVec.ofNat 64 cursor + BitVec.ofNat 64 relOffset) with
          | none => some (false, m)
          | some m => copyLoop E target source size fuel m (cursor + instructionSize)

/-- `CopyInstructions`; each turn of the loop goes at least one byte on. -/
def copyInstructions (E : Env) (m : WordMem) (target source : Word) (size : ℕ) :
    Option (Bool × WordMem) :=
  copyLoop E target source size size m 0

/-- The end of every override: the memory protection is changed, the patch is written, and the
protection is restored. -/
def patch (E : Env) (s : State) (address length : Word) (write : WordMem → Option WordMem) :
    Option (Bool × State) :=
  if !E.changeMemoryProtection address length then some (false, s)
  else (write s.mem).map fun m => (E.restoreMemoryProtection address length, { s with mem := m })

/-- `OverrideFunctionWithRedirectJump`; `orig` says whether `orig_old_func` is not null. -/
def overrideFunctionWithRedirectJump (E : Env) (s : State) (oldFunc newFunc : Word) (orig : Bool) :
    Option (Bool × State) :=
  -- Check whether the first instruction is a relative jump.
  if s.mem oldFunc ≠ 0xE9 then some (false, s)
  else
    let relativeOffset := loadS32 s.mem (oldFunc + 1)
    let absoluteTarget := oldFunc + relativeOffset + 5
    let s := if orig then { s with origOldFunc := absoluteTarget } else s
    let (trampoline, s) := allocateMemoryForTrampoline E s oldFunc kDirectBranchLength
    if trampoline = 0 then some (false, s)
    else (writeDirectBranch s.mem trampoline newFunc).bind fun m =>
      patch E { s with mem := m } oldFunc 5 fun m => writeJumpInstruction m oldFunc trampoline

/-- The copy of the displaced instructions, with the branch behind it, in `OverrideFunctionWithHotPatch`
and in `OverrideFunctionWithTrampoline`. -/
def writeTrampoline (E : Env) (s : State) (oldFunc : Word) (instructionsLength : ℕ) :
    Option (Bool × State) :=
  let (trampoline, s) :=
    allocateMemoryForTrampoline E s oldFunc (instructionsLength + kDirectBranchLength)
  if trampoline = 0 then some (false, s)
  else
    (copyInstructions E s.mem trampoline oldFunc instructionsLength).bind fun (copied, m) =>
      if !copied then some (false, { s with mem := m })
      else
        (writeDirectBranch m (trampoline + BitVec.ofNat 64 instructionsLength)
          (oldFunc + BitVec.ofNat 64 instructionsLength)).map fun m =>
            (true, { s with mem := m, origOldFunc := trampoline })

/-- `OverrideFunctionWithHotPatch`. -/
def overrideFunctionWithHotPatch (E : Env) (s : State) (oldFunc newFunc : Word) (orig : Bool) :
    Option (Bool × State) :=
  let header := oldFunc - 6
  -- Validate that the function is hot patchable.
  let instructionSize := (E.getInstructionSize s.mem oldFunc).1
  if instructionSize < kShortJumpInstructionLength ∨
      !functionHasPadding s.mem oldFunc kBranchLength then some (false, s)
  else
    (if orig then writeTrampoline E s oldFunc instructionSize else some (true, s)).bind
      fun (written, s) =>
        if !written then some (false, s)
        else
          let (indirectAddress, s) := allocateMemoryForTrampoline E s oldFunc kAddressLength
          if indirectAddress = 0 then some (false, s)
          else patch E s header 8 fun m =>
            (writeBranch m header indirectAddress newFunc).bind fun m =>
              writeShortJumpInstruction m oldFunc header

/-- The cell for `new_func` in `OverrideFunctionWithTrampoline`, with the length of the padding that it
takes; `none` when there is no memory for it. -/
def indirectCell (E : Env) (s : State) (oldFunc : Word) : Option (Word × ℕ) × State :=
  -- Check if the targeted address can be encoded in the function padding.
  if isMemoryPadding s.mem (oldFunc - 8) kAddressLength then (some (oldFunc - 8, kAddressLength), s)
  else
    let (indirectAddress, s) := allocateMemoryForTrampoline E s oldFunc kAddressLength
    (if indirectAddress = 0 then none else some (indirectAddress, 0), s)

/-- `OverrideFunctionWithTrampoline`. -/
def overrideFunctionWithTrampoline (E : Env) (s : State) (oldFunc newFunc : Word) (orig : Bool) :
    Option (Bool × State) :=
  let instructionsLength :=
    if orig then roundUpToInstrBoundary E s.mem kBranchLength oldFunc else kBranchLength
  if instructionsLength = 0 then some (false, s)
  else
    (if orig then writeTrampoline E s oldFunc instructionsLength else some (true, s)).bind
      fun (written, s) =>
        if !written then some (false, s)
        else
          match indirectCell E s oldFunc with
          | (none, s) => some (false, s)
          | (some (indirectAddress, paddingLength), s) =>
            patch E s (oldFunc - BitVec.ofNat 64 paddingLength)
              (BitVec.ofNat 64 (instructionsLength + paddingLength)) fun m =>
                writeBranch m oldFunc indirectAddress newFunc

end Tasan.Interception
