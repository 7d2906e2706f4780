import Tasan.Word

/-!
# The layout of an allocation

The arithmetic of `Allocator::Allocate` in `asan_allocator.cpp`, on words of 32 or 64 bits: the
redzone for a size, the size that is asked of the underlying allocator, and the place of the chunk
header and of the user's memory in the block that it returns. Every `CHECK` on the way is a possible
failure, which `Check` names. The shadow granularity is 8.
-/

namespace Tasan.Allocator

/-- `SANITIZER_WORDSIZE`. -/
inductive Wordsize where
  | w32
  | w64
  deriving DecidableEq, Repr

/-- The number of bits of a word. -/
def Wordsize.bits : Wordsize → ℕ
  | .w32 => 32
  | .w64 => 64

/-- `FIRST_32_SECOND_64(a, b)`. -/
def Wordsize.first32Second64 (w : Wordsize) (a b : ℕ) : ℕ :=
  match w with
  | .w32 => a
  | .w64 => b

/-- The `CHECK`s of an allocation. -/
inductive Check where
  /-- `CHECK_LT(rz_log, 8)`. -/
  | rzLog
  /-- `CHECK_GE(rz_size, 16)`. -/
  | rzMin
  /-- `CHECK_LE(rz_size, 2048)`. -/
  | rzMax
  /-- `CHECK(IsPowerOfTwo(x))`. -/
  | powerOfTwo
  /-- `CHECK_EQ(rz_size, RZLog2Size(res))`. -/
  | rzRoundTrip
  /-- `CHECK(IsAligned(needed_size, min_alignment))`. -/
  | neededSize
  /-- `CHECK_LE(user_end, alloc_end)`. -/
  | userEnd
  /-- `CHECK(size)`. -/
  | size
  /-- `CHECK_EQ(UsedSize(), size)`. -/
  | usedSize
  /-- `CHECK_LE(alloc_beg + sizeof(LargeChunkHeader), chunk_beg)`. -/
  | largeChunkHeader
  deriving DecidableEq, Repr

/-- A `CHECK`. -/
def require (c : Check) (b : Bool) : Except Check Unit := if b then .ok () else .error c

/-! ## Constants and options -/

/-- `kChunkHeaderSize`. -/
def kChunkHeaderSize : ℕ := 16

/-- `kChunkHeader2Size`. -/
def kChunkHeader2Size : ℕ := 8

/-- `min_alignment`, the shadow granularity. -/
def minAlignment : ℕ := 8

/-- `kMaxAllowedMallocSize`. -/
def kMaxAllowedMallocSize (w : Wordsize) : ℕ := w.first32Second64 (3 * 2^30) (2^40)

/-- `sizeof(LargeChunkHeader)`, two words. -/
def sizeofLargeChunkHeader (w : Wordsize) : ℕ := w.first32Second64 8 16

/-- `CheckOptions`, for the redzones. -/
def checkOptions (w : Wordsize) (minRedzone maxRedzone : ℕ) : Bool :=
  16 ≤ minRedzone && minRedzone ≤ maxRedzone && maxRedzone ≤ 2048 &&
    Word.isPowerOfTwo w.bits minRedzone && Word.isPowerOfTwo w.bits maxRedzone

/-- An allocator with options that `CheckOptions` accepts. -/
structure Config where
  /-- The word size. -/
  wordsize : Wordsize := .w64
  /-- `kMaxSizeLog` of the size class map. -/
  kMaxSizeLog : ℕ := 17
  minRedzone : ℕ := 16
  maxRedzone : ℕ := 2048
  maxUserDefinedMallocSize : ℕ := 2^40
  /-- The size class maps end at `2^18` at most. -/
  kMaxSizeLog_le : kMaxSizeLog ≤ 18 := by decide
  /-- The redzones have passed `CheckOptions`. -/
  options : checkOptions wordsize minRedzone maxRedzone = true := by decide

/-- The number of bits of a word. -/
def Config.w (c : Config) : ℕ := c.wordsize.bits

/-- `PrimaryAllocator::CanAllocate`. -/
def Config.canAllocate (c : Config) (size alignment : ℕ) : Bool :=
  size ≤ 2^c.kMaxSizeLog && alignment ≤ 2^c.kMaxSizeLog

/-! ## Redzones -/

/-- `RZLog2Size`. -/
def rzLog2Size (rzLog : ℕ) : Except Check ℕ := do
  require .rzLog (rzLog < 8)
  return 16 <<< rzLog

/-- `Log2`, the index of the only bit that is set. -/
def log2 (w x : ℕ) : Except Check ℕ := do
  require .powerOfTwo (Word.isPowerOfTwo w x)
  return Nat.log2 x

/-- `RZSize2Log`. -/
def rzSize2Log (w rzSize : ℕ) : Except Check ℕ := do
  require .rzMin (16 ≤ rzSize)
  require .rzMax (rzSize ≤ 2048)
  let log ← log2 w rzSize
  let size ← rzLog2Size (log - 4)
  require .rzRoundTrip (rzSize == size)
  return log - 4

/-- The logarithm of the redzone that a size asks for. -/
def sizeRZLog (size : ℕ) : ℕ :=
  if size ≤ 64 - 16 then 0
  else if size ≤ 128 - 32 then 1
  else if size ≤ 512 - 64 then 2
  else if size ≤ 4096 - 128 then 3
  else if size ≤ 2^14 - 256 then 4
  else if size ≤ 2^15 - 512 then 5
  else if size ≤ 2^16 - 1024 then 6
  else 7

/-- `ComputeRZLog`. The size of the header is a power of two. -/
def Config.computeRZLog (c : Config) (size : ℕ) : Except Check ℕ := do
  let hdrLog ← rzSize2Log c.w kChunkHeaderSize
  let minLog ← rzSize2Log c.w c.minRedzone
  let maxLog ← rzSize2Log c.w c.maxRedzone
  return min (max (sizeRZLog size) (max minLog hdrLog)) (max maxLog hdrLog)

/-- `ComputeUserRequestedAlignmentLog`. -/
def computeUserRequestedAlignmentLog (w alignment : ℕ) : Except Check ℕ :=
  if alignment < 8 then .ok 0
  else do
    let log ← log2 w (if 512 < alignment then 512 else alignment)
    return log - 2

/-! ## The request and the block -/

/-- What `Allocate` computes before it has a block. -/
structure Request where
  /-- `size`, not zero. -/
  size : ℕ
  /-- `alignment`, at least `min_alignment`. -/
  alignment : ℕ
  /-- `user_requested_alignment_log`. -/
  alignmentLog : ℕ
  rzSize : ℕ
  neededSize : ℕ
  fromPrimary : Bool
  /-- The request is refused, with null or a report. -/
  tooBig : Bool
  deriving DecidableEq, Repr

/-- `rounded_size + rz_size`, and the alignment if it is not the least one. -/
def neededSizeBase (w size alignment rzSize : ℕ) : ℕ :=
  let needed := Word.add w (Word.roundUpTo w (max size kChunkHeader2Size) alignment) rzSize
  if minAlignment < alignment then Word.add w needed alignment else needed

/-- `Allocate` before it has a block. -/
def Config.request (c : Config) (size alignment : ℕ) : Except Check Request := do
  let alignmentLog ← computeUserRequestedAlignmentLog c.w alignment
  let alignment := if alignment < minAlignment then minAlignment else alignment
  let size := if size = 0 then 1 else size
  require .powerOfTwo (Word.isPowerOfTwo c.w alignment)
  let rzLog ← c.computeRZLog size
  let rzSize ← rzLog2Size rzLog
  let needed := neededSizeBase c.w size alignment rzSize
  let fromPrimary := c.canAllocate needed alignment
  let neededSize := if fromPrimary then needed else Word.add c.w needed rzSize
  require .neededSize (Word.isAligned c.w neededSize minAlignment)
  return {
    size := size
    alignment := alignment
    alignmentLog := alignmentLog
    rzSize := rzSize
    neededSize := neededSize
    fromPrimary := fromPrimary
    tooBig := kMaxAllowedMallocSize c.wordsize < size ||
      kMaxAllowedMallocSize c.wordsize < neededSize || c.maxUserDefinedMallocSize < size }

/-- `UsedSize` after `SetUsedSize`: the low 32 bits, and on 64 bits 16 bits more. -/
def usedSize (w : Wordsize) (size : ℕ) : ℕ :=
  w.first32Second64 (size % 2^32) (size / 2^32 % 2^16 * 2^32 + size % 2^32)

/-- The places in a block. -/
structure Layout where
  userBeg : ℕ
  chunkBeg : ℕ
  deriving DecidableEq, Repr

/-- `Allocate` with the block at `allocBeg`. -/
def Config.layout (c : Config) (r : Request) (allocBeg : ℕ) : Except Check Layout := do
  let allocEnd := Word.add c.w allocBeg r.neededSize
  let afterRedzone := Word.add c.w allocBeg r.rzSize
  let userBeg := if Word.isAligned c.w afterRedzone r.alignment then afterRedzone
    else Word.roundUpTo c.w afterRedzone r.alignment
  let userEnd := Word.add c.w userBeg r.size
  require .userEnd (userEnd ≤ allocEnd)
  let chunkBeg := Word.sub c.w userBeg kChunkHeaderSize
  require .size (r.size != 0)
  require .usedSize (usedSize c.wordsize r.size == r.size)
  require .largeChunkHeader (allocBeg == chunkBeg ||
    decide (Word.add c.w allocBeg (sizeofLargeChunkHeader c.wordsize) ≤ chunkBeg))
  return { userBeg := userBeg, chunkBeg := chunkBeg }

/-! ## Entry points -/

/-- The alignment that `asan_memalign` lets through. -/
def checkMemalign (w alignment : ℕ) : Bool := Word.isPowerOfTwo w alignment

/-- `CheckPosixMemalignAlignment`. -/
def checkPosixMemalignAlignment (w alignment : ℕ) : Bool :=
  alignment != 0 && Word.isPowerOfTwo w alignment && alignment % (w / 8) == 0

/-- `CheckAlignedAllocAlignmentAndSize`, on POSIX systems. -/
def checkAlignedAllocAlignmentAndSize (w alignment size : ℕ) : Bool :=
  alignment != 0 && Word.isPowerOfTwo w alignment && size &&& Word.sub w alignment 1 == 0

/-- One of the three entry points lets the request through. -/
def LetThrough (w size alignment : ℕ) : Prop :=
  checkMemalign w alignment = true ∨ checkPosixMemalignAlignment w alignment = true ∨
    checkAlignedAllocAlignmentAndSize w alignment size = true

end Tasan.Allocator
