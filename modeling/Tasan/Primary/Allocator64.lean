import Tasan.Primary.Region
import Tasan.Primary.SizeClassMap

/-!
# The primary allocator

`SizeClassAllocator64` gives each size class a region of the address space, in which three areas are mapped
as they are needed: the chunks from the beginning of the region on, the metadata of the chunks down from
`GetMetadataEnd`, and from there on the free array. `PopulateFreeArray` maps memory for more chunks, then for
their metadata, then for the free array, and any of these may fail after the ones before have succeeded.
`GetBlockBegin` and `GetMetaData` find the chunk of a pointer by division.

Words have 64 bits. Whether the system maps memory when it is asked to is up to a parameter. Each region has
a mutex, which the operations here hold.
-/

namespace Tasan.Primary

/-- The template parameters of the allocator, and where its space is. In every instance `kSpaceSize` is a
power of two, and a `kSpaceBeg` that is constant is a multiple of `kRegionSize`: the masks and remainders
that find a region rely on it. -/
structure Config where
  /-- `SizeClassMap`. -/
  map : SizeClassMap
  kUsingConstantSpaceBeg : Bool
  spaceBeg : ℕ
  premappedHeap : Bool
  /-- `kSpaceSize` is this power of two. -/
  kSpaceSizeLog : ℕ
  kMetadataSize : ℕ
  kRandomShuffleChunks : Bool
  /-- `COMPILER_CHECK(kNumClasses <= 256)`. -/
  kNumClasses_le : map.kNumClasses ≤ 256 := by decide
  /-- `COMPILER_CHECK` of `kRegionSize`, see `CompactPtrT`. -/
  kRegionSize_le : 2^kSpaceSizeLog / map.kNumClassesRounded ≤ 2^36 := by decide
  /-- `static_assert(kRegionSize >= SizeClassMap::kMaxSize)`. -/
  kMaxSize_le : map.kMaxSize ≤ 2^kSpaceSizeLog / map.kNumClassesRounded := by decide
  /-- The regions start at multiples of their size. -/
  spaceBeg_dvd : kUsingConstantSpaceBeg = true →
    2^kSpaceSizeLog / map.kNumClassesRounded ∣ spaceBeg := by decide
  /-- The space ends in the address space. -/
  spaceEnd_lt : spaceBeg + 2^kSpaceSizeLog < 2^64 := by decide
  /-- The size of the metadata of a region does not wrap. -/
  kMetadataSize_lt : kMetadataSize < 2^27 := by decide

/-- `RegionInfo`, and the free array. What `MaybeReleaseToOS` needs is left out. -/
structure RegionInfo where
  numFreedChunks : ℕ
  mappedFreeArray : ℕ
  allocatedUser : ℕ
  allocatedMeta : ℕ
  mappedUser : ℕ
  mappedMeta : ℕ
  randState : ℕ
  exhausted : Bool
  nAllocated : ℕ
  nFreed : ℕ
  /-- The elements of the free array. -/
  freeArray : ℕ → ℕ

/-- A region before its first use. -/
def RegionInfo.init : RegionInfo := ⟨0, 0, 0, 0, 0, 0, 0, false, 0, 0, fun _ => 0⟩

/-- How an operation dies. -/
inductive Fault
  /-- `CHECK_LE(new_mapped_free_array, kFreeArraySize)`. -/
  | freeArray
  /-- `CHECK_LE(region->allocated_user, region->mapped_user)`. -/
  | user
  /-- `CHECK_LE(region->allocated_meta, region->mapped_meta)`. -/
  | metadata
  /-- `CHECK_GE(region->num_freed_chunks, n_chunks)`. -/
  | count
  /-- The free array cannot be mapped for chunks that are returned. -/
  | freeListExhausted
  /-- `CHECK(kMetadataSize)`. -/
  | noMetadata
  /-- A division by zero. -/
  | division
  /-- `CHECK_NE(class_id, 0UL)` and `CHECK_LT(class_id, kNumClasses)` of a local cache. -/
  | classId
  /-- `CHECK_GE(c->count, count)` of a local cache. -/
  | cacheCount
  deriving DecidableEq

/-- A check that dies. -/
def require (b : Bool) (f : Fault) : Except Fault Unit := if b then .ok () else .error f

theorem require_of {b : Bool} (h : b = true) (f : Fault) : require b f = .ok () := if_pos h

theorem require_of_not {b : Bool} (h : b = false) (f : Fault) : require b f = .error f :=
  if_neg (h ▸ Bool.false_ne_true)

@[simp]
theorem ok_bind {α β : Type} (x : α) (f : α → Except Fault β) : (Except.ok x >>= f) = f x := rfl

/-- `kUserMapSize`. -/
def kUserMapSize : ℕ := 2^18

/-- `kMetaMapSize`. -/
def kMetaMapSize : ℕ := 2^16

/-- `kFreeArrayMapSize`. -/
def kFreeArrayMapSize : ℕ := 2^18

/-- `sizeof(CompactPtrT)`. -/
def sizeofCompactPtr : ℕ := 4

/-- `kCompactPtrScale`. -/
def kCompactPtrScale : ℕ := 4

namespace Config

variable (C : Config)

/-- `kSpaceSize`. -/
def kSpaceSize : ℕ := 2^C.kSpaceSizeLog

/-- `kRegionSize`. -/
def kRegionSize : ℕ := C.kSpaceSize / C.map.kNumClassesRounded

/-- `kFreeArraySize`. -/
def kFreeArraySize : ℕ := C.kRegionSize / 8

/-- `ClassIdToSize`. -/
def classIdToSize (classId : ℕ) : ℕ := C.map.size classId

/-! ## Addresses -/

/-- `GetRegionBeginBySizeClass`. -/
def getRegionBeginBySizeClass (classId : ℕ) : ℕ :=
  Word.add 64 C.spaceBeg (C.kRegionSize * classId % 2^64)

/-- `GetRegionBegin`. -/
def getRegionBegin (p : ℕ) : ℕ :=
  if C.kUsingConstantSpaceBeg then Word.roundDownTo 64 p C.kRegionSize
  else Word.add 64 (Word.roundDownTo 64 (Word.sub 64 p C.spaceBeg) C.kRegionSize) C.spaceBeg

/-- `GetSizeClass`. -/
def getSizeClass (p : ℕ) : ℕ :=
  if C.kUsingConstantSpaceBeg && C.spaceBeg % C.kSpaceSize == 0 then
    p / C.kRegionSize % C.map.kNumClassesRounded
  else Word.sub 64 p C.spaceBeg / C.kRegionSize % C.map.kNumClassesRounded

/-- `GetMetadataEnd`. -/
def getMetadataEnd (regionBeg : ℕ) : ℕ :=
  Word.sub 64 (Word.add 64 regionBeg C.kRegionSize) C.kFreeArraySize

/-- `GetFreeArray`. -/
def getFreeArray (regionBeg : ℕ) : ℕ := C.getMetadataEnd regionBeg

/-- `GetChunkIdx`. -/
def getChunkIdx (chunk size : ℕ) : Except Fault ℕ :=
  let chunk := if C.kUsingConstantSpaceBeg then chunk else Word.sub 64 chunk C.spaceBeg
  let offset := chunk % C.kRegionSize
  -- The size is taken to fit into 32 bits, and if the offset does, the division is one of 32 bits.
  if offset >>> 32 ≠ 0 then .ok (offset / size)
  else if size % 2^32 = 0 then .error .division
  else .ok (offset % 2^32 / (size % 2^32))

/-- `GetBlockBegin`. -/
def getBlockBegin (regions : ℕ → RegionInfo) (p : ℕ) : Except Fault (Option ℕ) :=
  let classId := C.getSizeClass p
  if C.map.kNumClasses ≤ classId then .ok none
  else if C.classIdToSize classId = 0 then .ok none
  else do
    let chunkIdx ← C.getChunkIdx p (C.classIdToSize classId)
    let beg := chunkIdx * C.classIdToSize classId % 2^64
    let nextBeg := Word.add 64 beg (C.classIdToSize classId)
    if nextBeg ≤ (regions classId).mappedUser then
      pure (some (Word.add 64 (C.getRegionBegin p) beg))
    else pure none

/-- `GetMetaData`. -/
def getMetaData (p : ℕ) : Except Fault (Option ℕ) := do
  require (C.kMetadataSize ≠ 0) .noMetadata
  let classId := C.getSizeClass p
  if C.classIdToSize classId = 0 then
    pure none
  else
    let chunkIdx ← C.getChunkIdx p (C.classIdToSize classId)
    let regionBeg := C.getRegionBeginBySizeClass classId
    pure (some (Word.sub 64 (C.getMetadataEnd regionBeg) ((1 + chunkIdx) * C.kMetadataSize % 2^64)))

/-! ## Mapping -/

/-- `MapWithCallback`, where the system maps what `sys` says. -/
def mapWithCallback (sys : ℕ → ℕ → Bool) (beg size : ℕ) : Bool :=
  if C.premappedHeap then C.spaceBeg ≤ beg && Word.add 64 beg size ≤ C.spaceBeg + C.kSpaceSize
  else sys beg size

/-- `EnsureFreeArraySpace`. -/
def ensureFreeArraySpace (sys : ℕ → ℕ → Bool) (r : RegionInfo) (regionBeg numFreedChunks : ℕ) :
    Except Fault (Bool × RegionInfo) := do
  let neededSpace := numFreedChunks * sizeofCompactPtr % 2^64
  if r.mappedFreeArray < neededSpace then
    let newMappedFreeArray := Word.roundUpTo 64 neededSpace kFreeArrayMapSize
    require (newMappedFreeArray ≤ C.kFreeArraySize) .freeArray
    let currentMapEnd := Word.add 64 (C.getFreeArray regionBeg) r.mappedFreeArray
    let newMapSize := Word.sub 64 newMappedFreeArray r.mappedFreeArray
    if C.mapWithCallback sys currentMapEnd newMapSize then
      pure (true, { r with mappedFreeArray := newMappedFreeArray })
    else pure (false, r)
  else pure (true, r)

/-- The test of `IsRegionExhausted`. -/
def isRegionExhausted (r : RegionInfo) (additionalMapSize : ℕ) : Bool :=
  C.kRegionSize - C.kFreeArraySize <
    Word.add 64 (Word.add 64 r.mappedUser r.mappedMeta) additionalMapSize

/-- The first part of `PopulateFreeArray`: memory for the chunks. -/
def mapUser (sys : ℕ → ℕ → Bool) (r : RegionInfo) (regionBeg size requestedCount : ℕ) :
    Bool × RegionInfo :=
  let totalUserBytes := Word.add 64 r.allocatedUser (requestedCount * size % 2^64)
  if r.mappedUser < totalUserBytes then
    let r := if r.mappedUser = 0 ∧ C.kUsingConstantSpaceBeg = false ∧ C.kRandomShuffleChunks = true then
      { r with randState := (regionBeg >>> 12) % 2^32 } else r
    let userMapSize := Word.roundUpTo 64 (Word.sub 64 totalUserBytes r.mappedUser) kUserMapSize
    if C.isRegionExhausted r userMapSize then (false, { r with exhausted := true })
    else if C.mapWithCallback sys (Word.add 64 regionBeg r.mappedUser) userMapSize then
      (true, { r with mappedUser := Word.add 64 r.mappedUser userMapSize })
    else (false, r)
  else (true, r)

/-- The second part: memory for the metadata. -/
def mapMeta (sys : ℕ → ℕ → Bool) (r : RegionInfo) (regionBeg newChunksCount : ℕ) : Bool × RegionInfo :=
  if C.kMetadataSize ≠ 0 then
    let totalMetaBytes := Word.add 64 r.allocatedMeta (newChunksCount * C.kMetadataSize % 2^64)
    let metaMapSize :=
      if r.mappedMeta < totalMetaBytes then
        Word.roundUpTo 64 (Word.sub 64 totalMetaBytes r.mappedMeta) kMetaMapSize
      else 0
    if metaMapSize ≠ 0 then
      if C.isRegionExhausted r metaMapSize then (false, { r with exhausted := true })
      else if C.mapWithCallback sys
          (Word.sub 64 (Word.sub 64 (C.getMetadataEnd regionBeg) r.mappedMeta) metaMapSize)
          metaMapSize then
        (true, { r with mappedMeta := Word.add 64 r.mappedMeta metaMapSize })
      else (false, r)
    else (true, r)
  else (true, r)

/-- `PointerToCompactPtr(0, ptr)`. -/
def pointerToCompactPtr (ptr : ℕ) : ℕ := (ptr >>> kCompactPtrScale) % 2^32

/-- The loop that fills the free array, after its first turns: the last of the new elements first. -/
def fillFreeArray (freeArray : ℕ → ℕ) (totalFreedChunks chunk size : ℕ) : ℕ → ℕ → ℕ
  | 0 => freeArray
  | i + 1 => Function.update (fillFreeArray freeArray totalFreedChunks chunk size i)
      (totalFreedChunks - 1 - i) (pointerToCompactPtr (chunk + i * size))

/-- The last part: the new chunks are pushed and counted. -/
def pushChunks (r : RegionInfo) (size newChunksCount : ℕ) : Except Fault RegionInfo := do
  let freeArray := fillFreeArray r.freeArray (r.numFreedChunks + newChunksCount) r.allocatedUser size
    newChunksCount
  let shuffled := if C.kRandomShuffleChunks then
    randomShuffle freeArray r.numFreedChunks newChunksCount r.randState else (freeArray, r.randState)
  let allocatedUser := Word.add 64 r.allocatedUser (newChunksCount * size % 2^64)
  require (allocatedUser ≤ r.mappedUser) .user
  let allocatedMeta := Word.add 64 r.allocatedMeta (newChunksCount * C.kMetadataSize % 2^64)
  require (allocatedMeta ≤ r.mappedMeta) .metadata
  pure { r with
    freeArray := shuffled.1
    randState := shuffled.2
    numFreedChunks := r.numFreedChunks + newChunksCount
    allocatedUser
    allocatedMeta
    exhausted := false }

/-- `PopulateFreeArray`. -/
def populateFreeArray (sys : ℕ → ℕ → Bool) (r : RegionInfo) (classId requestedCount : ℕ) :
    Except Fault (Bool × RegionInfo) :=
  let regionBeg := C.getRegionBeginBySizeClass classId
  let size := C.classIdToSize classId
  let (mapped, r) := C.mapUser sys r regionBeg size requestedCount
  if mapped = false then .ok (false, r)
  else
    let newChunksCount := Word.sub 64 r.mappedUser r.allocatedUser / size
    let (mapped, r) := C.mapMeta sys r regionBeg newChunksCount
    if mapped = false then .ok (false, r)
    else do
      let (mapped, r) ← C.ensureFreeArraySpace sys r regionBeg (r.numFreedChunks + newChunksCount)
      if mapped = false then pure (false, r)
      else
        let r ← C.pushChunks r size newChunksCount
        pure (true, r)

/-! ## Refills and returns -/

/-- `GetFromAllocator`: whether there were enough chunks, what they are, and the region. -/
def getFromAllocator (sys : ℕ → ℕ → Bool) (r : RegionInfo) (classId nChunks : ℕ) :
    Except Fault (Option (List ℕ) × RegionInfo) := do
  let (enough, r) ←
    if r.numFreedChunks < nChunks then
      C.populateFreeArray sys r classId (nChunks - r.numFreedChunks)
    else pure (true, r)
  if enough = false then
    pure (none, r)
  else
    require (nChunks ≤ r.numFreedChunks) .count
    let baseIdx := r.numFreedChunks - nChunks
    pure (some (slots (fun i => r.freeArray (baseIdx + i)) nChunks),
      { r with numFreedChunks := baseIdx, nAllocated := Word.add 64 r.nAllocated nChunks })

/-- `ReturnToAllocator`. -/
def returnToAllocator (sys : ℕ → ℕ → Bool) (r : RegionInfo) (classId : ℕ) (chunks : List ℕ) :
    Except Fault RegionInfo := do
  let newNumFreedChunks := r.numFreedChunks + chunks.length
  let (mapped, r) ← C.ensureFreeArraySpace sys r (C.getRegionBeginBySizeClass classId) newNumFreedChunks
  require mapped .freeListExhausted
  pure { r with
    freeArray := copyBlock r.freeArray r.numFreedChunks (fun i => chunks.getD i 0) chunks.length
    numFreedChunks := newNumFreedChunks
    nFreed := Word.add 64 r.nFreed chunks.length }

end Config

end Tasan.Primary
