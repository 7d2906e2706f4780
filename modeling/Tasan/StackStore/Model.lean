import Tasan.Word
import Tasan.Codec.Lzw

/-!
# The stack store

`StackStore` of `sanitizer_stack_store.cpp`, with 64-bit words. Frames are handed out by bumping a
counter, a range that straddles two blocks is given up and its halves are credited to the blocks, and
a block that has all its frames stored may be packed and later unpacked again. The block size and the
block count are parameters, with what the static assertion and the sizes of the other data say about
them.

A block's memory is raw frames, which may be protected from writes, or a compressed block after its
header. What the hardware or a `CHECK` would catch is a `Fault`.
-/

namespace Tasan.StackStore

open Codec

/-- The constants of the store. -/
structure Params where
  kBlockSizeFrames : ℕ
  kBlockCount : ℕ
  /-- The logarithm of `GetPageSizeCached()`. -/
  pageLog : ℕ := 12
  /-- `static_assert(u64(kBlockCount) * kBlockSizeFrames == 1ull << (sizeof(Id) * 8))`. -/
  ids : kBlockCount * kBlockSizeFrames = 2^32
  /-- The longest trace with its header, of 256 frames, is less than a block. -/
  lt : 256 < kBlockSizeFrames
  /-- The codes of the compressor, two for each frame at most, stay below those it reserves. -/
  le : kBlockSizeFrames ≤ 2^30

/-- The constants of the source. -/
def Params.default : Params where
  kBlockSizeFrames := 0x100000
  kBlockCount := 0x1000
  ids := by decide
  lt := by decide
  le := by decide

/-- `kBlockSizeBytes`. -/
def Params.kBlockSizeBytes (P : Params) : ℕ := P.kBlockSizeFrames * 8

/-- `Compression`. -/
inductive Compression where
  | none
  | delta
  | lzw
  deriving DecidableEq, Repr

/-- `BlockInfo::State`. -/
inductive State where
  | storing
  | packed
  | unpacked
  deriving DecidableEq, Repr

/-- A stack trace. -/
@[ext]
structure StackTrace where
  /-- `trace` and `size`. -/
  frames : List Word64 := []
  tag : ℕ := 0
  deriving DecidableEq

/-- The ways in which an operation fails. -/
inductive Fault where
  /-- A failed `CHECK`. -/
  | check
  /-- An access past the end of `blocks_` or of a block. -/
  | outOfBounds
  /-- A write to a packed or a protected block. -/
  | badWrite
  /-- A packed block that does not decode. -/
  | badBlock
  /-- The allocation loop has not ended. -/
  | fuel
  deriving DecidableEq, Repr

/-- The memory of a block. -/
inductive BlockData where
  /-- Frames, and whether `MprotectReadOnly` was called. -/
  | raw (frames : ℕ → Word64) (readOnly : Bool)
  /-- A `PackedHeader` and its data. -/
  | packed (type : Compression) (data : List Byte)

/-- `BlockInfo`. -/
structure BlockInfo where
  data : Option BlockData := none
  /-- `stored_`, a 32-bit counter. -/
  stored : ℕ := 0
  state : State := .storing

/-- `StackStore`. -/
structure Store where
  totalFrames : ℕ := 0
  allocated : ℕ := 0
  /-- `blocks_`, whose bound the operations check. -/
  blocks : ℕ → BlockInfo := fun _ => {}

/-- A failed `CHECK`. -/
def check (b : Bool) : Except Fault Unit := if b then .ok () else .error .check

/-- One block replaced. -/
def Store.setBlock (s : Store) (i : ℕ) (b : BlockInfo) : Store :=
  { s with blocks := fun j => if j = i then b else s.blocks j }

/-! ## Storing -/

/-- `BlockInfo::Stored`: the counter, and whether the block is complete. -/
def BlockInfo.addStored (P : Params) (b : BlockInfo) (n : ℕ) : BlockInfo × Bool :=
  ({ b with stored := (b.stored + n) % 2^32 }, n + b.stored == P.kBlockSizeFrames)

/-- `blocks_[i].Stored(n)`. -/
def Store.addStored (P : Params) (s : Store) (i n : ℕ) : Except Fault (Store × ℕ) :=
  if i < P.kBlockCount then
    let (b, full) := (s.blocks i).addStored P n
    .ok (s.setBlock i b, full.toNat)
  else .error .outOfBounds

/-- `blocks_[i].GetOrCreate(this)`. -/
def Store.getOrCreate (P : Params) (s : Store) (i : ℕ) : Store :=
  match (s.blocks i).data with
  | some _ => s
  | none =>
    { s.setBlock i { s.blocks i with data := some (.raw (fun _ => 0) false) } with
      allocated := Word.add 64 s.allocated P.kBlockSizeBytes }

/-- `Alloc`, with fuel for its loop: the index of the first frame, or `none` when there is no space,
and the number of blocks completed. -/
def Store.alloc (P : Params) (count : ℕ) : ℕ → Store → ℕ → Except Fault (Store × Option ℕ × ℕ)
  | 0, _, _ => .error .fuel
  | fuel + 1, s, pack =>
    let start := s.totalFrames
    let s := { s with totalFrames := Word.add 64 start count }
    let blockIdx := start / P.kBlockSizeFrames
    let lastIdx := Word.sub 64 (Word.add 64 start count) 1 / P.kBlockSizeFrames
    if blockIdx = lastIdx then
      -- Fits into a single block.
      if P.kBlockCount ≤ blockIdx then .ok (s, none, pack)
      else .ok (s.getOrCreate P blockIdx, some start, pack)
    else do
      -- Retry. We can't use range allocated in two different blocks.
      check (count ≤ P.kBlockSizeFrames)
      let inFirst := P.kBlockSizeFrames - start % P.kBlockSizeFrames
      let (s, full1) ← s.addStored P blockIdx inFirst
      let (s, full2) ← s.addStored P lastIdx (count - inFirst)
      s.alloc P count fuel (pack + full1 + full2)

/-- `StackTraceHeader::size`. -/
def headerSize (trace : StackTrace) : ℕ := min trace.frames.length 255

/-- `StackTraceHeader::ToUptr`. -/
def headerToUptr (size tag : ℕ) : Word64 := BitVec.ofNat 64 (size ||| tag <<< 8)

/-- The frames of a block with a trace written from `pos`. -/
def writeTrace (frames : ℕ → Word64) (pos : ℕ) (trace : StackTrace) : ℕ → Word64 := fun i =>
  if i = pos then headerToUptr (headerSize trace) trace.tag
  else if pos < i ∧ i ≤ pos + headerSize trace then trace.frames.getD (i - pos - 1) 0
  else frames i

/-- The trace written to its range. -/
def Store.write (P : Params) (s : Store) (idx : ℕ) (trace : StackTrace) : Except Fault Store :=
  let i := idx / P.kBlockSizeFrames
  match (s.blocks i).data with
  | some (.raw frames false) =>
    .ok (s.setBlock i { s.blocks i with
      data := some (.raw (writeTrace frames (idx % P.kBlockSizeFrames) trace) false) })
  | _ => .error .badWrite

/-- `OffsetToId`. -/
def offsetToId (idx : ℕ) : ℕ := Word.add 32 (idx % 2^32) 1

/-- `Store`: the id and the number of blocks completed, which is not written for an empty trace. The
allocation loop makes at most two rounds. -/
def Store.store (P : Params) (s : Store) (trace : StackTrace) :
    Except Fault (Store × ℕ × Option ℕ) :=
  if trace.frames.length = 0 ∧ trace.tag = 0 then .ok (s, 0, none)
  else do
    check (trace.tag == trace.tag % 256)
    let (s, idx, pack) ← s.alloc P (headerSize trace + 1) 2 0
    match idx with
    | none => return (s, 0, some pack)
    | some idx => do
      let s ← s.write P idx trace
      let (s, full) ← s.addStored P (idx / P.kBlockSizeFrames) (headerSize trace + 1)
      return (s, offsetToId idx, some (pack + full))

/-! ## Packing and loading -/

/-- The offset of `data` in `PackedHeader`, after an `uptr` and an `u8`. -/
def packedDataOffset : ℕ := 9

/-- `sizeof(PackedHeader)`, with its padding. -/
def sizeofPackedHeader : ℕ := 16

/-- The frames of a block, in order. -/
def frameList (P : Params) (frames : ℕ → Word64) : List Word64 :=
  (List.range P.kBlockSizeFrames).map frames

/-- `CompressDelta` and `CompressLzw` into the rest of a block after the header; `none` for a type
that `Pack` does not expect. -/
def compress (P : Params) (type : Compression) (vs : List Word64) : Option (List Byte) :=
  let cap := P.kBlockSizeBytes - packedDataOffset
  match type with
  | .none => none
  | .delta => some (encodeDelta 0 vs cap)
  | .lzw => (lzwEncode (fun a b => decide (a ≤ b)) id vs).map fun ws => encodeDelta 0 ws cap

/-- `UncompressDelta` and `UncompressLzw`. -/
def uncompress (type : Compression) (data : List Byte) : Option (List Word64) :=
  match type with
  | .none => none
  | .delta => decodeDelta 0 data.length data
  | .lzw => (decodeDelta 0 data.length data).bind (lzwDecode id)

/-- `BlockInfo::Pack`, on the block and `allocated_`: the number of released bytes. -/
def BlockInfo.pack (P : Params) (type : Compression) (b : BlockInfo) (allocated : ℕ) :
    Except Fault (BlockInfo × ℕ × ℕ) :=
  if type = .none ∨ b.state ≠ .storing then .ok (b, allocated, 0)
  else match b.data with
    | some (.raw frames _) =>
      if !(b.addStored P 0).2 then .ok (b, allocated, 0)
      else match compress P type (frameList P frames) with
        | none => .error .check
        | some data =>
          let size := packedDataOffset + data.length
          if P.kBlockSizeBytes - size < P.kBlockSizeBytes / 8 then
            -- Undo and keep block unpacked.
            .ok ({ b with data := some (.raw frames true), state := .unpacked }, allocated, 0)
          else
            let packedSizeAligned := Word.roundUpTo 64 size (2^P.pageLog)
            .ok ({ b with data := some (.packed type data), state := .packed },
              Word.sub 64 (Word.add 64 allocated packedSizeAligned) P.kBlockSizeBytes,
              Word.sub 64 P.kBlockSizeBytes packedSizeAligned)
    | some (.packed _ _) => .error .badBlock
    | none => .ok (b, allocated, 0)

/-- `Pack`, over the first `n` blocks. -/
def Store.packBlocks (P : Params) (type : Compression) (s : Store) : ℕ → Except Fault (Store × ℕ)
  | 0 => .ok (s, 0)
  | n + 1 => do
    let (s, res) ← s.packBlocks P type n
    let (b, allocated, released) ← (s.blocks n).pack P type s.allocated
    return ({ s.setBlock n b with allocated := allocated }, Word.add 64 res released)

/-- `Pack`. -/
def Store.pack (P : Params) (type : Compression) (s : Store) : Except Fault (Store × ℕ) :=
  s.packBlocks P type P.kBlockCount

/-- `BlockInfo::GetOrUnpack`, on the block and `allocated_`. -/
def BlockInfo.getOrUnpack (P : Params) (b : BlockInfo) (allocated : ℕ) :
    Except Fault (BlockInfo × ℕ) :=
  match b.state with
  | .storing => .ok ({ b with state := .unpacked }, allocated)
  | .unpacked => .ok (b, allocated)
  | .packed =>
    match b.data with
    | some (.packed type data) => do
      let size := packedDataOffset + data.length
      check (size ≤ P.kBlockSizeBytes)
      check (sizeofPackedHeader ≤ size)
      match uncompress type data with
      | none => .error .badBlock
      | some vs => do
        check (vs.length == P.kBlockSizeFrames)
        let packedSizeAligned := Word.roundUpTo 64 size (2^P.pageLog)
        return ({ b with data := some (.raw (fun i => vs.getD i 0) true), state := .unpacked },
          Word.sub 64 (Word.add 64 allocated P.kBlockSizeBytes) packedSizeAligned)
    | _ => .error .badBlock

/-- The view of the trace at position `pos` of a block's frames. For an id that `Store` has not
returned it may end past the block, where the model has zeros. -/
def readTrace (frames : ℕ → Word64) (pos : ℕ) : StackTrace :=
  let header := (frames pos).toNat
  let size := header % 2^8
  let tag := (header >>> 8) % 2^8
  { frames := (List.range size).map fun k => frames (pos + 1 + k), tag := tag }

/-- `Load`. -/
def Store.load (P : Params) (s : Store) (id : ℕ) : Except Fault (Store × StackTrace) :=
  if id = 0 then .ok (s, {})
  else do
    let idx := id - 1
    let blockIdx := idx / P.kBlockSizeFrames
    check (blockIdx < P.kBlockCount)
    let (b, allocated) ← (s.blocks blockIdx).getOrUnpack P s.allocated
    let s := { s.setBlock blockIdx b with allocated := allocated }
    match b.data with
    | none => return (s, {})
    | some (.raw frames _) => return (s, readTrace frames (idx % P.kBlockSizeFrames))
    | some (.packed _ _) => .error .badBlock

end Tasan.StackStore
