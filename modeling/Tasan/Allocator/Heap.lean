import Tasan.Asan.Shadow
import Tasan.Allocator.Model

/-!
# The heap

`Allocate`, `Deallocate` and `Reallocate` of `asan_allocator.cpp` on 64-bit words, with the quarantine
and the callbacks that poison the shadow. The state is the shadow, the memory with the chunk headers
in it, and what the underlying allocator knows: the memory that its primary part has mapped, and the
blocks that are handed out. The underlying allocator itself is not modelled. It answers each request
with a `Grant`, and `EnvOk` says what is assumed of the answer. `none` is a failed `CHECK`, which ends
the process; a report of a bad free does not.

The changes of the chunk states are logged in `moves`, which no function reads.
-/

namespace Tasan.Allocator

open Asan (check poisonShadow kAsanHeapLeftRedzoneMagic kAsanHeapFreeMagic)

/-- `CHUNK_INVALID`. -/
def CHUNK_INVALID : Byte := 0

/-- `CHUNK_ALLOCATED`. -/
def CHUNK_ALLOCATED : Byte := 2

/-- `CHUNK_QUARANTINE`. -/
def CHUNK_QUARANTINE : Byte := 3

/-- `FROM_MALLOC`. -/
def FROM_MALLOC : ℕ := 1

/-- `kInvalidTid`. -/
def kInvalidTid : ℕ := 2^32 - 1

/-- `kAllocBegMagic`, on 64 bits. -/
def kAllocBegMagic : ℕ := 0xCC6E96B9CC6E96B9

/-- What the heap reads besides its state. -/
structure HeapConfig where
  /-- The shadow mapping and the flags of the poisoning functions. -/
  asan : Asan.Config
  /-- The options of the allocator. -/
  alloc : Config
  maxMallocFillSize : ℕ := 0x1000
  mallocFillByte : Byte := 0xbe
  maxFreeFillSize : ℕ := 0
  freeFillByte : Byte := 0x55
  /-- `max_size_` of the quarantine. -/
  quarantineMaxSize : ℕ := 256 * 2^20
  /-- `max_cache_size_` of the quarantine. -/
  quarantineMaxCacheSize : ℕ := 1024 * 2^10

/-! ## Chunk headers -/

/-- `AsanChunk::Beg`. -/
def beg (m : ℕ) : ℕ := m + kChunkHeaderSize

/-- `ChunkHeader::UsedSize`: 16 high bits at offset 2 and 32 low bits at offset 4. -/
def chunkUsedSize (mem : Mem) (m : ℕ) : ℕ := mem.readLE (m + 2) 2 <<< 32 + mem.readLE (m + 4) 4

/-- `ChunkHeader::SetUsedSize`, without its `CHECK`, which `Config.layout` makes. -/
def setUsedSize (mem : Mem) (m size : ℕ) : Mem :=
  (mem.writeLE (m + 4) 4 size).writeLE (m + 2) 2 (size >>> 32)

/-- `AtomicContextStore`. -/
def atomicContextStore (mem : Mem) (a tid stack : ℕ) : Mem := mem.writeLE a 8 (tid <<< 32 + stack)

/-- `ChunkHeader::SetAllocContext`. -/
def setAllocContext (mem : Mem) (m tid stack : ℕ) : Mem := atomicContextStore mem (m + 8) tid stack

/-- `ChunkBase::SetFreeContext`, in the first 8 bytes of the user's memory. -/
def setFreeContext (mem : Mem) (m tid stack : ℕ) : Mem := atomicContextStore mem (m + 16) tid stack

/-- `alloc_type`, `lsan_tag` and `user_requested_alignment_log`, in 7 bits at offset 1. -/
def setFlags (mem : Mem) (m allocType lsanTag alignmentLog : ℕ) : Mem :=
  mem.set (m + 1)
    (BitVec.ofNat 8 ((mem (m + 1)).toNat / 128 * 128 + alignmentLog * 16 + lsanTag * 4 + allocType))

/-- `LargeChunkHeader::Set` of a chunk. -/
def setLargeChunkHeader (mem : Mem) (allocBeg m : ℕ) : Mem :=
  (mem.writeLE (allocBeg + 8) 8 m).writeLE allocBeg 8 kAllocBegMagic

/-- `LargeChunkHeader::Set` of null, for a chunk that is not at the beginning of its block. -/
def clearLargeChunkHeader (mem : Mem) (allocBeg m : ℕ) : Option Mem :=
  if allocBeg ≠ m then do
    check (mem.readLE allocBeg 8 == kAllocBegMagic)
    return mem.writeLE allocBeg 8 0
  else some mem

/-- `FillChunk`. -/
def fillChunk (H : HeapConfig) (mem : Mem) (m : ℕ) : Mem :=
  if 0 < H.maxFreeFillSize ∧ kChunkHeader2Size ≤ chunkUsedSize mem m then
    mem.fill (m + kChunkHeaderSize + kChunkHeader2Size)
      (min (chunkUsedSize mem m - kChunkHeader2Size) H.maxFreeFillSize) H.freeFillByte
  else mem

/-! ## The state -/

/-- A block that the underlying allocator has handed out. -/
structure Block where
  /-- `GetBlockBegin`. -/
  allocBeg : ℕ
  /-- `GetActuallyAllocatedSize`. -/
  size : ℕ
  /-- `FromPrimary`. -/
  primary : Bool
  /-- The beginning of its mapping if it has one of its own, else of the block. -/
  mapBeg : ℕ
  /-- The size of its mapping if it has one of its own, else of the block. -/
  mapSize : ℕ
  /-- The address of its chunk. -/
  chunkBeg : ℕ
  deriving DecidableEq, Repr

/-- The address lies in the block. -/
def Block.Contains (b : Block) (a : ℕ) : Prop := b.allocBeg ≤ a ∧ a < b.allocBeg + b.size

instance (b : Block) (a : ℕ) : Decidable (b.Contains a) := inferInstanceAs (Decidable (_ ∧ _))

/-- A change of a chunk's state. -/
structure Move where
  /-- The address of the chunk. -/
  chunk : ℕ
  /-- The state before. -/
  old : Byte
  /-- The state after. -/
  new : Byte
  deriving DecidableEq

/-- The shadow, the memory and the underlying allocator. -/
structure Heap where
  /-- The shadow memory. -/
  shadow : Mem
  /-- The application memory. -/
  mem : Mem
  /-- What the primary allocator has mapped: the beginning and the size of each range. -/
  regions : List (ℕ × ℕ)
  /-- The blocks that are handed out. -/
  blocks : List Block
  /-- The chunks in the quarantine. -/
  quarantine : List ℕ
  /-- The changes of chunk states, the last one first. -/
  moves : List Move

/-- A heap before its first use. -/
def Heap.init (shadow mem : Mem) : Heap where
  shadow := shadow
  mem := mem
  regions := []
  blocks := []
  quarantine := []
  moves := []

/-- The state of the chunk at `m`: what its header says while its block is handed out, and
`CHUNK_INVALID` otherwise. -/
def Heap.chunkState (s : Heap) (m : ℕ) : Byte :=
  if s.blocks.any (fun b => b.chunkBeg == m) then s.mem m else CHUNK_INVALID

/-- `GetBlockBegin`, for an address in a block that is handed out. -/
def Heap.getBlock (s : Heap) (m : ℕ) : Option Block := s.blocks.find? (fun b => b.Contains m)

/-- A new state of the chunk at `m` is logged. -/
def Heap.log (s : Heap) (m : ℕ) (new : Byte) : List Move := ⟨m, s.chunkState m, new⟩ :: s.moves

/-! ## `Allocate` -/

/-- What the underlying allocator answers. -/
structure Grant where
  /-- The block. -/
  allocBeg : ℕ
  /-- `GetActuallyAllocatedSize` of the block. -/
  size : ℕ
  /-- `map_beg`, in the secondary allocator. -/
  mapBeg : ℕ
  /-- `map_size`, in the secondary allocator. -/
  mapSize : ℕ

/-- The arguments of `Allocate`, and what the call finds in its environment. -/
structure AllocArgs where
  size : ℕ
  alignment : ℕ
  allocType : ℕ := FROM_MALLOC
  canFill : Bool := true
  /-- The thread. -/
  tid : ℕ := 0
  /-- The stack, by its number in the depot. -/
  stack : ℕ := 1
  lsanTag : ℕ := 0
  /-- The answer of the underlying allocator, or null. -/
  grant : Option Grant

/-- `OnMapSecondary`. -/
def onMapSecondary (H : HeapConfig) (σ : Mem) (p size userBegin userSize : ℕ) : Option Mem := do
  let g := H.asan.mapping.granularity
  let userEnd := Word.roundDownTo 64 (Word.add 64 userBegin userSize) g
  let userBegin := Word.roundUpTo 64 userBegin g
  let σ ← poisonShadow H.asan σ p (Word.sub 64 userBegin p) kAsanHeapLeftRedzoneMagic
  poisonShadow H.asan σ userEnd (Word.sub 64 size (Word.sub 64 userEnd p)) kAsanHeapLeftRedzoneMagic

/-- The callback when the underlying allocator answers: the secondary one has made a mapping. -/
def onGrant (H : HeapConfig) (σ : Mem) (r : Request) (g : Grant) : Option Mem :=
  if H.alloc.canAllocate r.neededSize 8 then some σ
  else onMapSecondary H σ g.mapBeg g.mapSize g.allocBeg r.neededSize

/-- `Allocate` poisons left and right of the block if the allocator provides an unpoisoned one. -/
def poisonRedzones (H : HeapConfig) (σ : Mem) (r : Request) (allocBeg size userBeg : ℕ) :
    Option Mem :=
  if !r.fromPrimary || σ (H.asan.mapping.MEM_TO_SHADOW allocBeg) == 0 then do
    let userEnd := Word.add 64 userBeg r.size
    let tailBeg := Word.roundUpTo 64 userEnd H.asan.mapping.granularity
    let tailEnd := Word.add 64 allocBeg size
    let σ ← poisonShadow H.asan σ allocBeg (Word.sub 64 userBeg allocBeg) kAsanHeapLeftRedzoneMagic
    poisonShadow H.asan σ tailBeg (Word.sub 64 tailEnd tailBeg) kAsanHeapLeftRedzoneMagic
  else some σ

/-- `Allocate` unpoisons the bulk of the user's memory. -/
def unpoisonBulk (H : HeapConfig) (σ : Mem) (userBeg down : ℕ) : Option Mem :=
  if down ≠ 0 then poisonShadow H.asan σ userBeg down 0 else some σ

/-- `Allocate` deals with the end of the user's memory if its size is not aligned to granules. -/
def unpoisonEnd (H : HeapConfig) (σ : Mem) (size userBeg down : ℕ) : Option Mem :=
  if size ≠ down ∧ H.asan.canPoisonMemory then do
    let shadow ← H.asan.mapping.memToShadow (Word.add 64 userBeg down)
    return σ.set shadow (if H.asan.poisonPartial then
      BitVec.ofNat 8 (size &&& (H.asan.mapping.granularity - 1)) else 0)
  else some σ

/-- `Allocate` unpoisons the user's memory. -/
def unpoisonUser (H : HeapConfig) (σ : Mem) (size userBeg : ℕ) : Option Mem := do
  let down := Word.roundDownTo 64 size H.asan.mapping.granularity
  let σ ← unpoisonBulk H σ userBeg down
  unpoisonEnd H σ size userBeg down

/-- `Allocate` writes the chunk header, except for the state. -/
def initHeader (mem : Mem) (m : ℕ) (a : AllocArgs) (r : Request) : Mem :=
  let mem := setUsedSize mem m r.size
  let mem := setFlags mem m a.allocType a.lsanTag r.alignmentLog
  setAllocContext mem m a.tid a.stack

/-- `Allocate` fills the user's memory. -/
def mallocFill (H : HeapConfig) (mem : Mem) (canFill : Bool) (userBeg size : ℕ) : Mem :=
  if canFill && H.maxMallocFillSize != 0 then
    mem.fill userBeg (min size H.maxMallocFillSize) H.mallocFillByte
  else mem

/-- The writes of `Allocate` to the block. -/
def initChunk (H : HeapConfig) (mem : Mem) (a : AllocArgs) (r : Request) (allocBeg : ℕ)
    (l : Layout) : Mem :=
  let m := l.chunkBeg
  let mem := initHeader mem m a r
  let mem := mallocFill H mem a.canFill l.userBeg r.size
  let mem := mem.set m CHUNK_ALLOCATED
  if allocBeg ≠ m then setLargeChunkHeader mem allocBeg m else mem

/-- The block of a request. The underlying allocator is asked for an alignment of 8. -/
def Config.block (c : Config) (r : Request) (g : Grant) (chunkBeg : ℕ) : Block :=
  let primary := c.canAllocate r.neededSize 8
  { allocBeg := g.allocBeg
    size := g.size
    primary := primary
    mapBeg := if primary then g.allocBeg else g.mapBeg
    mapSize := if primary then g.size else g.mapSize
    chunkBeg := chunkBeg }

/-- `Allocate`: the pointer, zero for null, and the heap. -/
def allocate (H : HeapConfig) (s : Heap) (a : AllocArgs) : Option (ℕ × Heap) := do
  let r ← (H.alloc.request a.size a.alignment).toOption
  if r.tooBig then return (0, s)
  else
    match a.grant with
    | none => return (0, s)
    | some g => do
      let σ ← onGrant H s.shadow r g
      let l ← (H.alloc.layout r g.allocBeg).toOption
      let σ ← poisonRedzones H σ r g.allocBeg g.size l.userBeg
      let σ ← unpoisonUser H σ r.size l.userBeg
      return (l.userBeg, { s with
        shadow := σ
        mem := initChunk H s.mem a r g.allocBeg l
        blocks := H.alloc.block r g l.chunkBeg :: s.blocks
        moves := s.log l.chunkBeg CHUNK_ALLOCATED })

/-! ## `Deallocate` and `Reallocate` -/

/-- The user's memory of a chunk, rounded up to granules, is poisoned. -/
def poisonChunk (H : HeapConfig) (σ mem : Mem) (m : ℕ) (value : Byte) : Option Mem :=
  poisonShadow H.asan σ (beg m)
    (Word.roundUpTo 64 (chunkUsedSize mem m) H.asan.mapping.granularity) value

/-- The underlying allocator takes the block back. -/
def Heap.deallocateBlock (s : Heap) (b : Block) : List Block :=
  s.blocks.filter (fun c => c.allocBeg ≠ b.allocBeg)

/-- `QuarantineCallback::PreQuarantine`. -/
def preQuarantine (H : HeapConfig) (s : Heap) (m : ℕ) : Option Heap := do
  let mem := fillChunk H s.mem m
  let σ ← poisonChunk H s.shadow mem m kAsanHeapFreeMagic
  return { s with shadow := σ, mem := mem }

/-- `QuarantineCallback::Recycle`. The block of the chunk is handed out. -/
def recycle (H : HeapConfig) (s : Heap) (m : ℕ) : Option Heap := do
  let b ← s.getBlock m
  if b.primary then do
    let mem ← clearLargeChunkHeader s.mem b.allocBeg m
    check (mem m == CHUNK_QUARANTINE)
    let mem := mem.set m CHUNK_INVALID
    let σ ← poisonChunk H s.shadow mem m kAsanHeapLeftRedzoneMagic
    return { s with
      shadow := σ
      mem := mem
      blocks := s.deallocateBlock b
      moves := s.log m CHUNK_INVALID }
  else do
    -- `OnUnmap`. The mapping and the header in it are gone.
    let σ ← poisonShadow H.asan s.shadow b.mapBeg b.mapSize 0
    return { s with
      shadow := σ
      blocks := s.deallocateBlock b
      moves := s.log m CHUNK_INVALID }

/-- `QuarantineCallback::RecyclePassThrough`. -/
def recyclePassThrough (H : HeapConfig) (s : Heap) (m : ℕ) : Option Heap := do
  let b ← s.getBlock m
  recycle H (if b.primary then { s with mem := fillChunk H s.mem m } else s) m

/-- `AtomicallySetQuarantineFlagIfAllocated` on a chunk that is allocated. -/
def atomicallySetQuarantineFlag (s : Heap) (m : ℕ) : Heap :=
  { s with
    mem := setFreeContext (s.mem.set m CHUNK_QUARANTINE) m kInvalidTid 0
    moves := s.log m CHUNK_QUARANTINE }

/-- `QuarantineChunk`, with `Quarantine::Put`. What `Put` drains is recycled by steps of its own. -/
def quarantineChunk (H : HeapConfig) (s : Heap) (m tid stack : ℕ) : Option Heap := do
  check (s.mem m == CHUNK_QUARANTINE)
  let s := { s with mem := setFreeContext s.mem m tid stack }
  if H.quarantineMaxCacheSize ≠ 0 ∧ chunkUsedSize s.mem m ≤ H.quarantineMaxSize then do
    let s ← preQuarantine H s m
    return { s with quarantine := m :: s.quarantine }
  else recyclePassThrough H s m

/-- `Deallocate`. A chunk that is not allocated is reported and nothing else is done. -/
def deallocate (H : HeapConfig) (s : Heap) (p tid stack : ℕ) : Option Heap :=
  if p = 0 then some s
  else
    let m := Word.sub 64 p kChunkHeaderSize
    if s.mem m ≠ CHUNK_ALLOCATED then some s
    else quarantineChunk H (atomicallySetQuarantineFlag s m) m tid stack

/-- `memcpy`. -/
def copy (mem : Mem) (dst src n : ℕ) : Mem :=
  fun x => if dst ≤ x ∧ x < dst + n then mem (src + (x - dst)) else mem x

/-- The arguments of the `Allocate` of a `Reallocate`. -/
def reallocArgs (newSize tid stack lsanTag : ℕ) (grant : Option Grant) : AllocArgs where
  size := newSize
  alignment := 8
  tid := tid
  stack := stack
  lsanTag := lsanTag
  grant := grant

/-- `Reallocate` up to its `Deallocate`: the new pointer, zero for null, and the heap. -/
def reallocateCopy (H : HeapConfig) (s : Heap) (p : ℕ) (a : AllocArgs) : Option (ℕ × Heap) := do
  check (p != 0 && a.size != 0)
  let (new, s) ← allocate H s a
  if new = 0 then return (0, s)
  else
    -- A chunk that is not allocated is reported, and copied nevertheless.
    let m := Word.sub 64 p kChunkHeaderSize
    return (new, { s with mem := copy s.mem new p (min a.size (chunkUsedSize s.mem m)) })

/-- `Reallocate`. -/
def reallocate (H : HeapConfig) (s : Heap) (p : ℕ) (a : AllocArgs) : Option Heap := do
  let (new, s) ← reallocateCopy H s p a
  if new = 0 then return s else deallocate H s p a.tid a.stack

/-! ## Steps -/

/-- What happens to a heap. -/
inductive Event where
  /-- The primary allocator maps memory: `OnMap`. -/
  | onMap (p size : ℕ)
  | allocate (a : AllocArgs)
  | deallocate (p tid stack : ℕ)
  | reallocate (p newSize tid stack lsanTag : ℕ) (grant : Option Grant)
  /-- The quarantine recycles one of its chunks. -/
  | recycle (m : ℕ)
  /-- The program or the underlying allocator stores a byte. -/
  | store (a : ℕ) (v : Byte)

/-- The effect of an event. -/
def step (H : HeapConfig) (s : Heap) : Event → Option Heap
  | .onMap p size => do
    let σ ← poisonShadow H.asan s.shadow p size kAsanHeapLeftRedzoneMagic
    return { s with shadow := σ, regions := (p, size) :: s.regions }
  | .allocate a => do
    let (_, s) ← allocate H s a
    return s
  | .deallocate p tid stack => deallocate H s p tid stack
  | .reallocate p newSize tid stack lsanTag grant =>
    reallocate H s p (reallocArgs newSize tid stack lsanTag grant)
  | .recycle m => recycle H { s with quarantine := s.quarantine.erase m } m
  | .store a v => some { s with mem := s.mem.set a v }

/-! ## What is assumed of the environment -/

/-- The settings under which the shadow tracks the heap. -/
structure HeapConfig.Settings (H : HeapConfig) : Prop where
  /-- Words have 64 bits. -/
  wordsize : H.alloc.wordsize = .w64
  /-- A granule has 8 bytes. -/
  scale : H.asan.mapping.scale = 3
  /-- User space ends below `2^57` on every 64-bit system; this much is enough. -/
  kHighMemEnd_lt : H.asan.mapping.kHighMemEnd < 2^62
  /-- Memory poisoning is enabled. -/
  canPoisonMemory : H.asan.canPoisonMemory = true
  /-- `poison_partial` is on. -/
  poisonPartial : H.asan.poisonPartial = true

/-- The ranges `[a, a + n)` and `[b, b + k)` have no address in common. -/
def Apart (a n b k : ℕ) : Prop := a + n ≤ b ∨ b + k ≤ a

/-- The underlying allocator hands out blocks that are aligned to 8, large enough, in application
memory and apart from each other. A block of the primary allocator lies in what it has mapped, and
one of the secondary allocator in a mapping of its own. -/
structure GrantOk (H : HeapConfig) (s : Heap) (r : Request) (b : Block) : Prop where
  /-- A mapping does not start at zero. -/
  pos : 0 < b.mapBeg
  /-- The mapping is aligned. -/
  map_aligned : 8 ∣ b.mapBeg ∧ 8 ∣ b.mapSize
  /-- The block is aligned. -/
  aligned : 8 ∣ b.allocBeg ∧ 8 ∣ b.size
  /-- The block lies in its mapping. -/
  inside : b.mapBeg ≤ b.allocBeg ∧ b.allocBeg + b.size ≤ b.mapBeg + b.mapSize
  /-- The block is large enough, and not empty. -/
  needed : max r.neededSize 1 ≤ b.size
  /-- The mapping is application memory. -/
  inMem : ∀ x, b.mapBeg ≤ x → x < b.mapBeg + b.mapSize → H.asan.mapping.addrIsInMem x = true
  /-- No other block is in the way. -/
  apart : ∀ c ∈ s.blocks, Apart b.mapBeg b.mapSize c.mapBeg c.mapSize
  /-- A block of the primary allocator lies in its memory. -/
  primary : b.primary = true → ∃ g ∈ s.regions, g.1 ≤ b.allocBeg ∧ b.allocBeg + b.size ≤ g.1 + g.2
  /-- A mapping of the secondary allocator does not. -/
  secondary : b.primary = false → ∀ g ∈ s.regions, Apart b.mapBeg b.mapSize g.1 g.2

/-- The alignment is a word, and the grant is in order. -/
def AllocOk (H : HeapConfig) (s : Heap) (a : AllocArgs) : Prop :=
  a.alignment < 2^64 ∧ ∀ r g, H.alloc.request a.size a.alignment = .ok r → a.grant = some g →
    GrantOk H s r (H.alloc.block r g 0)

/-- What is assumed of an event: new memory of the primary allocator is apart from the blocks, grants
are in order, the quarantine recycles what it holds, and a store goes to memory that is addressable or
in no block. -/
def EnvOk (H : HeapConfig) (s : Heap) : Event → Prop
  | .onMap p size => 0 < p ∧ 0 < size ∧ 8 ∣ p ∧ 8 ∣ size ∧
    (∀ x, p ≤ x → x < p + size → H.asan.mapping.addrIsInMem x = true) ∧
    ∀ b ∈ s.blocks, Apart p size b.mapBeg b.mapSize
  | .allocate a => AllocOk H s a
  | .deallocate _ _ _ => True
  | .reallocate _ newSize tid stack lsanTag grant =>
    AllocOk H s (reallocArgs newSize tid stack lsanTag grant)
  | .recycle m => m ∈ s.quarantine
  | .store a _ => (∀ b ∈ s.blocks, ¬ b.Contains a) ∨
    Asan.addressIsPoisoned H.asan.mapping.toLayout s.shadow a = false

/-- A pointer that `Deallocate` tells right: null, the beginning of a chunk, or one without
`CHUNK_ALLOCATED` where its chunk header would be. -/
def PointerOk (s : Heap) (p : ℕ) : Prop :=
  p = 0 ∨ (∃ b ∈ s.blocks, p = beg b.chunkBeg) ∨
    s.mem (Word.sub 64 p kChunkHeaderSize) ≠ CHUNK_ALLOCATED

/-- Every pointer that an event passes to `Deallocate` is one that it tells right. -/
def Event.PointerOk (H : HeapConfig) (s : Heap) : Event → Prop
  | .deallocate p _ _ => Allocator.PointerOk s p
  | .reallocate p newSize tid stack lsanTag grant =>
    ∀ new s', reallocateCopy H s p (reallocArgs newSize tid stack lsanTag grant) = some (new, s') →
      new ≠ 0 → Allocator.PointerOk s' p
  | _ => True

/-- A step in which the environment behaves. -/
def EnvStep (H : HeapConfig) (s s' : Heap) : Prop := ∃ e, EnvOk H s e ∧ step H s e = some s'

/-- A step in which, besides, `Deallocate` tells its pointer right. -/
def Step (H : HeapConfig) (s s' : Heap) : Prop :=
  ∃ e : Event, EnvOk H s e ∧ e.PointerOk H s ∧ step H s e = some s'

/-! ## What the shadow is to say -/

/-- The moves of a chunk's state. -/
def Move.Allowed (m : Move) : Prop :=
  m.old = CHUNK_INVALID ∧ m.new = CHUNK_ALLOCATED ∨
    m.old = CHUNK_ALLOCATED ∧ m.new = CHUNK_QUARANTINE ∨
    m.old = CHUNK_QUARANTINE ∧ m.new = CHUNK_INVALID

/-- The state of the chunk at `m` after a log. -/
def lastState : List Move → ℕ → Byte
  | [], _ => CHUNK_INVALID
  | v :: vs, m => if v.chunk = m then v.new else lastState vs m

/-- Each move of a log is allowed, and starts where the chunk's last one ended. -/
def Legal : List Move → Prop
  | [] => True
  | v :: vs => v.Allowed ∧ v.old = lastState vs v.chunk ∧ Legal vs

/-- The shadow tracks the heap. -/
structure Sound (H : HeapConfig) (s : Heap) : Prop where
  /-- A block has a chunk that is allocated or in quarantine. -/
  state : ∀ b ∈ s.blocks, b.Contains b.chunkBeg ∧
    (s.mem b.chunkBeg = CHUNK_ALLOCATED ∨ s.mem b.chunkBeg = CHUNK_QUARANTINE)
  /-- A byte of an allocated chunk's block is addressable iff it lies in the user's memory. -/
  allocated : ∀ b ∈ s.blocks, s.mem b.chunkBeg = CHUNK_ALLOCATED → ∀ a, b.Contains a →
    (Asan.addressIsPoisoned H.asan.mapping.toLayout s.shadow a = false ↔
      beg b.chunkBeg ≤ a ∧ a < beg b.chunkBeg + chunkUsedSize s.mem b.chunkBeg)
  /-- No byte of a quarantined chunk's block is addressable. -/
  quarantined : ∀ b ∈ s.blocks, s.mem b.chunkBeg = CHUNK_QUARANTINE → ∀ a, b.Contains a →
    Asan.addressIsPoisoned H.asan.mapping.toLayout s.shadow a = true
  /-- No byte of the primary allocator's memory is addressable outside the blocks. -/
  recycled : ∀ g ∈ s.regions, ∀ a, g.1 ≤ a → a < g.1 + g.2 → (∀ b ∈ s.blocks, ¬ b.Contains a) →
    Asan.addressIsPoisoned H.asan.mapping.toLayout s.shadow a = true
  /-- The states of chunks only move from invalid to allocated to quarantine to invalid. -/
  moves : Legal s.moves ∧ ∀ m, s.chunkState m = lastState s.moves m
  /-- No chunk is in the quarantine twice, and its chunks are in quarantine. -/
  quarantine : s.quarantine.Nodup ∧ ∀ m ∈ s.quarantine, s.chunkState m = CHUNK_QUARANTINE
  /-- A second `Deallocate` does nothing. -/
  doubleFree : ∀ m ∈ s.quarantine, ∀ tid stack, deallocate H s (beg m) tid stack = some s

end Tasan.Allocator
