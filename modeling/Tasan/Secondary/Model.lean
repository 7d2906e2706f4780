import Tasan.Sorting.HeapSort
import Tasan.Word

/-!
# The secondary allocator

`LargeMmapAllocator` gives each chunk a mapping of its own. The user's memory starts at a page, the page
before it holds the `Header`, and what is mapped before that is the slack that the alignment needed.
`chunks_` lists the headers of the live chunks. A chunk that is freed is replaced by the last one of the
list, each header keeps its chunk's index, and the list is sorted when a fast lookup needs it.

Addresses are words of `w` bits, and sums wrap. The system is the function from the size that is asked for
to the address that `MmapOrDieOnFatalError` returns, zero when it fails. The array behind `chunks_` is
`PtrArrayT`, of which the allocator knows only that `EnsureSpace` dies when it is full. The lock is held
where the code holds it, so the operations happen one after the other.
-/

namespace Tasan.Secondary

/-- What the platform and the template parameters fix. -/
structure Params where
  /-- The bits of a word. -/
  w : ℕ
  /-- Words have at most 64 bits. -/
  w_le : w ≤ 64
  /-- `page_size_` is this power of two. -/
  pageLog : ℕ
  /-- A page is smaller than the address space. -/
  pageLog_lt : pageLog < w
  /-- `PtrArrayT::EnsureSpace`: there is room for a chunk with this index. -/
  ensureSpace : ℕ → Bool

/-- `Header`. -/
structure Header where
  mapBeg : ℕ
  mapSize : ℕ
  /-- The size that the user asked for. -/
  size : ℕ
  /-- `chunk_idx`, the chunk's place in `chunks_`. -/
  chunkIdx : ℕ
  deriving DecidableEq, Inhabited

/-- `Stats`. -/
structure Stats where
  nAllocs : ℕ
  nFrees : ℕ
  currentlyAllocated : ℕ
  maxAllocated : ℕ
  bySizeLog : ℕ → ℕ

/-- `LargeMmapAllocator`, and the headers in the memory it has mapped. -/
structure LargeMmapAllocator where
  /-- `chunks_`: the addresses of headers. -/
  chunks : ℕ → ℕ
  nChunks : ℕ
  chunksSorted : Bool
  stats : Stats
  /-- The header at an address. -/
  headers : ℕ → Header

/-- How an operation dies. -/
inductive Fault
  /-- A `CHECK` of the allocator fails. -/
  | check
  /-- `EnsureSpace` has no room. -/
  | space
  deriving DecidableEq

/-- What `Allocate` returns. -/
inductive Result
  /-- Null, after the warning about this map size and this alignment. -/
  | overflow (mapSize alignment : ℕ)
  /-- Null, since nothing was mapped. -/
  | unmapped
  /-- The user's pointer. -/
  | chunk (res : ℕ)
  deriving DecidableEq

/-- `CHECK(b)`. -/
def check (b : Bool) : Except Fault Unit := if b then .ok () else .error .check

theorem check_of {b : Bool} (h : b = true) : check b = .ok () := if_pos h

@[simp]
theorem ok_bind {α β : Type} (x : α) (f : α → Except Fault β) : (Except.ok x >>= f) = f x := rfl

variable (P : Params)

/-- `page_size_`. -/
def Params.page : ℕ := 2^P.pageLog

/-! ## Allocation -/

/-- `RoundUpMapSize`. -/
def Params.roundUpMapSize (size : ℕ) : ℕ := Word.add P.w (Word.roundUpTo P.w size P.page) P.page

/-- `map_size`. -/
def Params.mapSize (size alignment : ℕ) : ℕ :=
  let mapSize := P.roundUpMapSize size
  if P.page < alignment then Word.add P.w mapSize alignment else mapSize

/-- `res`: the page after the first, moved up to the alignment. -/
def Params.userBeg (mapBeg alignment : ℕ) : ℕ :=
  let res := Word.add P.w mapBeg P.page
  let rest := res &&& Word.sub P.w alignment 1
  if rest ≠ 0 then Word.add P.w res (Word.sub P.w alignment rest) else res

/-- `GetHeader`. -/
def Params.getHeader (p : ℕ) : Except Fault ℕ := do
  check (Word.isAligned P.w p P.page)
  pure (Word.sub P.w p P.page)

/-- `GetUser`. -/
def Params.getUser (h : ℕ) : Except Fault ℕ := do
  check (Word.isAligned P.w h P.page)
  pure (Word.add P.w h P.page)

/-- What `Allocate` does under the lock: the header `h` is listed and counted. -/
def LargeMmapAllocator.record (a : LargeMmapAllocator) (h : ℕ) (header : Header) (sizeLog : ℕ) :
    LargeMmapAllocator where
  chunks := Function.update a.chunks a.nChunks h
  nChunks := a.nChunks + 1
  chunksSorted := false
  headers := Function.update a.headers h { header with chunkIdx := a.nChunks }
  stats :=
    let currentlyAllocated := Word.add P.w a.stats.currentlyAllocated header.mapSize
    { nAllocs := Word.add P.w a.stats.nAllocs 1
      nFrees := a.stats.nFrees
      currentlyAllocated
      maxAllocated := max a.stats.maxAllocated currentlyAllocated
      bySizeLog := Function.update a.stats.bySizeLog sizeLog
        (Word.add P.w (a.stats.bySizeLog sizeLog) 1) }

/-- The second half of `Allocate`, in the mapping `[mapBeg, mapBeg + mapSize)`. -/
def LargeMmapAllocator.place (a : LargeMmapAllocator) (mapBeg mapSize size alignment : ℕ) :
    Except Fault (Result × LargeMmapAllocator) := do
  check (Word.isAligned P.w mapBeg P.page)
  let mapEnd := Word.add P.w mapBeg mapSize
  let res := P.userBeg mapBeg alignment
  check (Word.isAligned P.w res alignment)
  check (Word.isAligned P.w res P.page)
  check (mapBeg ≤ Word.add P.w res size)
  check (Word.add P.w res size ≤ mapEnd)
  let h ← P.getHeader res
  -- MostSignificantSetBitIndex
  check (mapSize ≠ 0)
  let sizeLog := mapSize.log2
  check (sizeLog < 64)
  if P.ensureSpace a.nChunks then
    pure (.chunk res, a.record P h { mapBeg, mapSize, size, chunkIdx := a.nChunks } sizeLog)
  else throw .space

/-- `Allocate`. -/
def LargeMmapAllocator.allocate (a : LargeMmapAllocator) (mmap : ℕ → ℕ) (size alignment : ℕ) :
    Except Fault (Result × LargeMmapAllocator) := do
  check (Word.isPowerOfTwo P.w alignment)
  let mapSize := P.mapSize size alignment
  if mapSize < size then
    pure (.overflow mapSize alignment, a)
  else if mmap mapSize = 0 then
    pure (.unmapped, a)
  else
    a.place P (mmap mapSize) mapSize size alignment

/-! ## Deallocation -/

/-- The header at an address is given another index. -/
def setIdx (headers : ℕ → Header) (h idx : ℕ) : ℕ → Header :=
  Function.update headers h { headers h with chunkIdx := idx }

/-- The chunk at `idx` is replaced by the last one. -/
def LargeMmapAllocator.unlist (a : LargeMmapAllocator) (idx : ℕ) : LargeMmapAllocator where
  chunks := Function.update a.chunks idx (a.chunks (a.nChunks - 1))
  nChunks := a.nChunks - 1
  chunksSorted := false
  headers := setIdx a.headers (a.chunks (a.nChunks - 1)) idx
  stats := a.stats

/-- The counters after the chunk is freed. -/
def Stats.freed (s : Stats) (mapSize : ℕ) : Stats :=
  { s with
    nFrees := Word.add P.w s.nFrees 1
    currentlyAllocated := Word.sub P.w s.currentlyAllocated mapSize }

/-- `Deallocate`: the allocator afterwards, and the mapping that is returned to the system. -/
def LargeMmapAllocator.deallocate (a : LargeMmapAllocator) (p : ℕ) :
    Except Fault ((ℕ × ℕ) × LargeMmapAllocator) := do
  let h ← P.getHeader p
  let idx := (a.headers h).chunkIdx
  check (a.chunks idx = h)
  check (idx < a.nChunks)
  let unlisted := a.unlist idx
  let header := unlisted.headers h
  pure ((header.mapBeg, header.mapSize),
    { unlisted with stats := a.stats.freed P header.mapSize })

/-! ## Lookup -/

/-- `nearest_chunk`, after the first turns of the loop. -/
def nearest (chunks : ℕ → ℕ) (p : ℕ) : ℕ → ℕ
  | 0 => 0
  | i + 1 =>
    let chunk := nearest chunks p i
    if p < chunks i then chunk
    else if Word.sub P.w p (chunks i) < Word.sub P.w p chunk then chunks i else chunk

/-- `GetBlockBegin`. -/
def LargeMmapAllocator.getBlockBegin (a : LargeMmapAllocator) (p : ℕ) : Except Fault (Option ℕ) := do
  let h := nearest P a.chunks p a.nChunks
  if h = 0 then
    pure none
  else
    let header := a.headers h
    check (header.mapBeg ≤ h)
    check (h < Word.add P.w header.mapBeg header.mapSize)
    check (h ≤ p)
    if Word.add P.w header.mapBeg header.mapSize ≤ p then
      pure none
    else
      some <$> P.getUser h

/-- The loop of `EnsureSortedChunks`, after the first turns. -/
def reindex (chunks : ℕ → ℕ) (headers : ℕ → Header) : ℕ → ℕ → Header
  | 0 => headers
  | i + 1 => setIdx (reindex chunks headers i) (chunks i) i

/-- `EnsureSortedChunks`. -/
def LargeMmapAllocator.ensureSortedChunks (a : LargeMmapAllocator) : LargeMmapAllocator :=
  if a.chunksSorted then a
  else
    let chunks := Sorting.sort (fun x y => decide (x < y)) a.chunks a.nChunks
    { a with chunks, headers := reindex chunks a.headers a.nChunks, chunksSorted := true }

/-- The loop of `GetBlockBeginFastLocked`: what is left of the list. -/
def searchLoop (chunks : ℕ → ℕ) (p beg «end» : ℕ) : ℕ × ℕ :=
  if 2 ≤ «end» - beg then
    let mid := (beg + «end») / 2
    if p < chunks mid then searchLoop chunks p beg (mid - 1) else searchLoop chunks p mid «end»
  else (beg, «end»)
termination_by «end» - beg

/-- The chunk that `GetBlockBeginFastLocked` ends at. -/
def search (chunks : ℕ → ℕ) (p n : ℕ) : Except Fault ℕ := do
  let (beg, «end») := searchLoop chunks p 0 (n - 1)
  if beg < «end» then
    check (beg + 1 = «end»)
    pure (if chunks «end» ≤ p then «end» else beg)
  else
    pure beg

/-- `GetBlockBeginFastLocked`: the result, and the allocator with its list in order. -/
def LargeMmapAllocator.getBlockBeginFastLocked (a : LargeMmapAllocator) (p : ℕ) :
    Except Fault (Option ℕ × LargeMmapAllocator) := do
  if a.nChunks = 0 then
    pure (none, a)
  else
    let a := a.ensureSortedChunks
    let last := a.chunks (a.nChunks - 1)
    -- The end of the highest chunk, if its header is where its mapping starts.
    let maxMmap := Word.add P.w last (a.headers last).mapSize
    if p < a.chunks 0 ∨ maxMmap ≤ p then
      pure (none, a)
    else
      let idx ← search a.chunks p a.nChunks
      let h := a.chunks idx
      let header := a.headers h
      if Word.add P.w header.mapBeg header.mapSize ≤ p ∨ p < header.mapBeg then
        pure (none, a)
      else
        let user ← P.getUser h
        pure (some user, a)

end Tasan.Secondary
