import Mathlib

/-!
# The leak checker

LeakSanitizer tags each chunk of the heap. It starts from the words of the root ranges, the pointers
that the thread registry keeps, and the chunks that are to be ignored, and marks what they point to,
and so on, as reachable. What is left is leaked: directly, or indirectly where another leaked chunk
points to it.

A chunk is named by the address where its user memory begins. Memory does not change during a check:
the tags are kept outside of it, as a function of the chunk.
-/

namespace Tasan.Lsan

/-- `ChunkTag`. -/
inductive ChunkTag
  /-- `kDirectlyLeaked`, the default. -/
  | kDirectlyLeaked
  | kIndirectlyLeaked
  | kReachable
  | kIgnored
  deriving DecidableEq

/-- The tags of the chunks. -/
abbrev Tags := ℕ → ChunkTag

/-- The heap, as the checker sees it, and the flags. -/
structure Heap where
  /-- The chunks, in the order in which `ForEachChunk` visits them. -/
  chunks : List ℕ
  allocated : ℕ → Bool
  requestedSize : ℕ → ℕ
  stackTraceId : ℕ → ℕ
  /-- The chunk whose block has an address, as the allocator finds it, or 0. -/
  blockBegin : ℕ → ℕ
  /-- `*reinterpret_cast<void **>(p)`. -/
  loadPtr : ℕ → ℕ
  maybeUserPointer : ℕ → Bool
  wordIsPoisoned : ℕ → Bool
  pointerAlignment : ℕ
  usePoisoned : Bool
  /-- `sizeof(void *)`. -/
  sizeofPtr : ℕ
  /-- The allocator finds its own chunks. -/
  blockBegin_mem : ∀ p, blockBegin p ≠ 0 → blockBegin p ∈ chunks
  /-- The alignment is 1 or the size of a word. -/
  pointerAlignment_pos : 0 < pointerAlignment
  /-- Words are not empty. -/
  sizeofPtr_pos : 0 < sizeofPtr

namespace Heap

variable (H : Heap)

/-- `IsSpecialCaseOfOperatorNew0`, for the Itanium ABI. -/
def isSpecialCaseOfOperatorNew0 (chunkBeg chunkSize addr : ℕ) : Bool :=
  chunkSize = H.sizeofPtr && chunkBeg + chunkSize = addr && H.loadPtr chunkBeg = 0

/-- `PointsIntoChunk`. -/
def pointsIntoChunk (addr : ℕ) : ℕ :=
  let chunk := H.blockBegin addr
  if chunk = 0 then 0
  else if addr < chunk then 0
  else if !H.allocated chunk then 0
  else if addr < chunk + H.requestedSize chunk then chunk
  else if H.isSpecialCaseOfOperatorNew0 chunk (H.requestedSize chunk) addr then chunk
  else 0

/-- The addresses from `pp` on that the loop of `ScanForPointers` visits, at most `n` of them. -/
def wordsFrom («end» : ℕ) : ℕ → ℕ → List ℕ
  | 0, _ => []
  | n + 1, pp =>
    if pp + H.sizeofPtr ≤ «end» then pp :: wordsFrom «end» n (pp + H.pointerAlignment) else []

/-- The first address that `ScanForPointers` visits. -/
def firstWord (begin : ℕ) : ℕ :=
  if begin % H.pointerAlignment ≠ 0 then begin + H.pointerAlignment - begin % H.pointerAlignment
  else begin

/-- The addresses that `ScanForPointers` visits. There are fewer than `end` of them. -/
def words (begin «end» : ℕ) : List ℕ := H.wordsFrom «end» «end» (H.firstWord begin)

end Heap

/-- The tags, and the frontier with its last element first. -/
structure State where
  /-- The tags. -/
  tags : Tags
  frontier : List ℕ

/-- `m.set_tag(tag)`. -/
def State.setTag (s : State) (chunk : ℕ) (tag : ChunkTag) : State :=
  { s with tags := Function.update s.tags chunk tag }

/-- `frontier->push_back(chunk)`. -/
def State.pushBack (s : State) (chunk : ℕ) : State := { s with frontier := chunk :: s.frontier }

/-- One iteration of `ScanForPointers`; `frontier` is false for a null `frontier`. -/
def scanWord (H : Heap) (begin : ℕ) (frontier : Bool) (tag : ChunkTag) (s : State) (pp : ℕ) :
    State :=
  let p := H.loadPtr pp
  if !H.maybeUserPointer p then s
  else
    let chunk := H.pointsIntoChunk p
    if chunk = 0 then s
    -- pointers to self don't count
    else if chunk = begin then s
    else if s.tags chunk = .kReachable ∨ s.tags chunk = .kIgnored then s
    else if !H.usePoisoned && H.wordIsPoisoned pp then s
    else if frontier then (s.setTag chunk tag).pushBack chunk
    else s.setTag chunk tag

/-- `ScanForPointers`, on a range. -/
def scanForPointers (H : Heap) (range : ℕ × ℕ) (frontier : Bool) (tag : ChunkTag) (s : State) :
    State :=
  (H.words range.1 range.2).foldl (scanWord H range.1 frontier tag) s

/-- `ScanForPointers` on one root range after the other. -/
def scanRanges (H : Heap) (ranges : List (ℕ × ℕ)) (s : State) : State :=
  ranges.foldl (fun s range => scanForPointers H range true .kReachable s) s

/-- One iteration of `ProcessThreadRegistry`. -/
def processThreadPtr (H : Heap) (s : State) (ptr : ℕ) : State :=
  let chunk := H.pointsIntoChunk ptr
  if chunk = 0 then s
  else if !H.allocated chunk then s
  else (s.setTag chunk .kReachable).pushBack chunk

/-- `ProcessThreadRegistry`. -/
def processThreadRegistry (H : Heap) (ptrs : List ℕ) (s : State) : State :=
  ptrs.foldl (processThreadPtr H) s

/-- The user memory of a chunk. -/
def Heap.range (H : Heap) (chunk : ℕ) : ℕ × ℕ := (chunk, chunk + H.requestedSize chunk)

/-- `FloodFillTag`, for at most `n` iterations. Before each one the frontier may be reordered, as
`order` says; the code leaves it as it is. -/
def floodFillTag (H : Heap) (order : List ℕ → List ℕ) (tag : ChunkTag) :
    ℕ → State → Option State
  | 0, _ => none
  | n + 1, s =>
    match order s.frontier with
    | [] => some s
    | chunk :: frontier =>
      floodFillTag H order tag n
        (scanForPointers H (H.range chunk) true tag { s with frontier := frontier })

/-- `MarkIndirectlyLeakedCb`. -/
def markIndirectlyLeakedCb (H : Heap) (s : State) (chunk : ℕ) : State :=
  if H.allocated chunk ∧ s.tags chunk ≠ .kReachable then
    scanForPointers H (H.range chunk) false .kIndirectlyLeaked s
  else s

/-- `IgnoredSuppressedCb`. The binary search finds the id of a stack iff it is in the vector. -/
def ignoredSuppressedCb (H : Heap) (suppressed : List ℕ) (tags : Tags) (chunk : ℕ) : Tags :=
  if !H.allocated chunk ∨ tags chunk = .kIgnored then tags
  else if H.stackTraceId chunk ∉ suppressed then tags
  else Function.update tags chunk .kIgnored

/-- `CollectIgnoredCb`. -/
def collectIgnoredCb (H : Heap) (s : State) (chunk : ℕ) : State :=
  if H.allocated chunk ∧ s.tags chunk = .kIgnored then s.pushBack chunk else s

/-- What a check starts from. -/
structure Roots where
  /-- `GetSortedSuppressedStacks()`. -/
  suppressed : List ℕ := []
  /-- The ranges that `ProcessGlobalRegions` and `ProcessThread` scan. -/
  ranges : List (ℕ × ℕ) := []
  /-- The pointers of `GetAdditionalThreadContextPtrsLocked`. -/
  threadPtrs : List ℕ := []
  /-- The ranges that `ProcessRootRegions` scans. -/
  rootRegions : List (ℕ × ℕ) := []

/-- The tags after `ForEachChunk(IgnoredSuppressedCb, ..)`. -/
def ignoreSuppressed (H : Heap) (suppressed : List ℕ) (tags : Tags) : Tags :=
  if suppressed ≠ [] then H.chunks.foldl (ignoredSuppressedCb H suppressed) tags else tags

/-- The part of `ClassifyAllChunks` before `FloodFillTag`. -/
def processRoots (H : Heap) (roots : Roots) (tags : Tags) : State :=
  let s : State := ⟨ignoreSuppressed H roots.suppressed tags, []⟩
  let s := H.chunks.foldl (collectIgnoredCb H) s
  let s := scanRanges H roots.ranges s
  let s := processThreadRegistry H roots.threadPtrs s
  scanRanges H roots.rootRegions s

/-- `ClassifyAllChunks`, with at most `n` iterations in each of its loops. On Linux,
`ProcessPlatformSpecificAllocations` does nothing. -/
def classifyAllChunks (H : Heap) (order : List ℕ → List ℕ) (n : ℕ) (roots : Roots) (tags : Tags) :
    Option Tags := do
  let s ← floodFillTag H order .kReachable n (processRoots H roots tags)
  let s ← floodFillTag H order .kReachable n s
  return (H.chunks.foldl (markIndirectlyLeakedCb H) s).tags

/-! ## Checks -/

/-- `LeakedChunk`. -/
structure LeakedChunk where
  chunk : ℕ
  stackTraceId : ℕ
  leakedSize : ℕ
  tag : ChunkTag
  deriving DecidableEq

/-- `CollectLeaksCb`. -/
def collectLeaksCb (H : Heap) (tags : Tags) (leaks : List LeakedChunk) (chunk : ℕ) :
    List LeakedChunk :=
  if !H.allocated chunk then leaks
  else if tags chunk = .kDirectlyLeaked ∨ tags chunk = .kIndirectlyLeaked then
    leaks ++ [⟨chunk, H.stackTraceId chunk, H.requestedSize chunk, tags chunk⟩]
  else leaks

/-- `ResetTagsCb`. -/
def resetTagsCb (H : Heap) (tags : Tags) (chunk : ℕ) : Tags :=
  if H.allocated chunk ∧ tags chunk ≠ .kIgnored then
    Function.update tags chunk .kDirectlyLeaked
  else tags

/-- What `CheckForLeaksCallback` does once it has classified the chunks: the leaks that it collects,
and the tags that it leaves. -/
def collectAndReset (H : Heap) (tags : Tags) : List LeakedChunk × Tags :=
  (H.chunks.foldl (collectLeaksCb H tags) [], H.chunks.foldl (resetTagsCb H) tags)

/-- `CheckForLeaksCallback`, with all threads suspended. -/
def checkForLeaks (H : Heap) (order : List ℕ → List ℕ) (n : ℕ) (roots : Roots) (tags : Tags) :
    Option (List LeakedChunk × Tags) :=
  (classifyAllChunks H order n roots tags).map (collectAndReset H)

end Tasan.Lsan
