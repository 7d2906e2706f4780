import Tasan.MmapVector
import Tasan.ReadFile.Buffer

/-!
# The bytes that are read

`ReadFileToBuffer` and `ReadFileToVector` of `sanitizer_file.cpp`, with the bytes of the buffer, the
position in the open file and the wrapping of sizes. `ReadFromFile` writes what it reads at a place
in the buffer, and it is an outcome of its own (`MmapFault.outside`) when the number of bytes that
are asked for does not fit there.

Position, number of bytes read and bytes in the buffer agree at each read, so that the loop that
fills a buffer is that of `readLoop` (`fillLoop_eq`). A file has less than `2^63` bytes, since its
length is an `off_t`: the sizes are doubled only after they have been filled, and do not wrap.
-/

namespace Tasan.ReadFile

open FlagParser (nul)

/-- A file on a system with its pages. -/
structure SystemFile extends File where
  /-- The system. -/
  env : MmapEnv
  /-- The length is an `off_t`. -/
  length_lt : content.length < 2^63

/-- The number of bytes and the buffer after a read, or none if it fails. -/
abbrev ReadResult := Option (ℕ × List Char)

/-- `ReadFromFile`, at a position in the file: so many bytes at a place of a buffer. -/
def SystemFile.readFromFile (f : SystemFile) (attempt pos : ℕ) (mem : List Char) (start count : ℕ) :
    Outcome MmapFault ReadResult :=
  if mem.length < start + count then .stopped .outside
  else
    match f.read attempt pos count with
    | none => .returned none
    | some n =>
      .returned (some (n, mem.take start ++ ((f.content.drop pos).take n ++ mem.drop (start + n))))

variable (f : SystemFile) (maxLen : ℕ)

/-! ## The buffer -/

variable {f} {maxLen}

/-! ## A read -/

/-- A mapping fails. -/
def MapFails (E : MmapEnv) : Prop := ∃ n, E.maps n = false

/-- The size of a buffer: a power of two up to `2^63`, or the largest one. -/
def GoodSize (maxLen size : ℕ) : Prop := size ≤ 2^63 ∧ (size = maxLen ∨ ∃ j, size = 2^j)

/-- The buffer holds the file up to the largest length. -/
structure Buffer.Holds (b : Buffer) (content : List Char) (maxLen : ℕ) : Prop where
  /-- The length. -/
  readLen : b.readLen = min content.length maxLen
  /-- The bytes. -/
  bytes : b.mem.take b.readLen = content.take maxLen
  /-- They are in the buffer. -/
  readLen_le : b.readLen ≤ b.buffSize
  /-- The buffer is mapped. -/
  buffSize_le : b.buffSize ≤ b.mem.length

/-- The vector when so many bytes have been read. -/
structure VectorOk (f : SystemFile) (maxLen : ℕ) (buff : InternalMmapVector) (readLen : ℕ) :
    Prop where
  /-- They are in the vector. -/
  readLen_le : readLen ≤ buff.size
  /-- The vector is in its mapping. -/
  size_le_capacity : buff.size ≤ buff.capacity
  /-- `CHECK_LE(buff->size(), max_len)`. -/
  size_le : buff.size ≤ maxLen
  /-- They are there in the file. -/
  readLen_le_length : readLen ≤ f.content.length
  /-- They are the first ones. -/
  bytes : buff.data.take readLen = f.content.take readLen
  /-- The size, after the first resizing. -/
  good : buff.size = 0 ∨ GoodSize maxLen buff.size

variable {buff : InternalMmapVector} {k : ℕ}

theorem VectorOk.resize {n : ℕ} (h : VectorOk f maxLen buff buff.size) (hlt : buff.size < n)
    (hle : n ≤ maxLen) (hgood : GoodSize maxLen n) :
    (∃ v, buff.resize f.env n = .returned v ∧ VectorOk f maxLen v buff.size ∧ buff.size < v.size) ∨
      buff.resize f.env n = .stopped .mmapOrDie ∧ MapFails f.env := by
  rcases InternalMmapVector.resize_grow f.env h.size_le_capacity hlt hgood.1 with
    ⟨v, hrun, rfl, hroom, hbytes, -⟩ | ⟨hrun, hfail⟩
  · have hlen : (buff.data.take buff.size).length = buff.size :=
      List.length_take_of_le h.size_le_capacity
    have htake : v.data.take buff.size = f.content.take buff.size := by
      calc v.data.take buff.size = (v.data.take v.size).take buff.size := by
            rw [List.take_take, min_eq_left hlt.le]
        _ = buff.data.take buff.size := by rw [hbytes, List.take_left' hlen]
        _ = f.content.take buff.size := h.bytes
    exact Or.inl ⟨v, hrun, ⟨hlt.le, hroom, hle, h.readLen_le_length, htake, Or.inr hgood⟩, hlt⟩
  · exact Or.inr ⟨hrun, _, hfail⟩

end Tasan.ReadFile
