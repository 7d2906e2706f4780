import Tasan.Word
import Tasan.FlagParser.Model

/-!
# Reading a file into a buffer

`ReadFileToBuffer` of `sanitizer_file.cpp`. The file is opened and read anew into buffers of growing size,
until a read comes to its end or the largest size is full. The bytes after what has been read are the zeros
that `mmap` returns, so that there is a NUL after the text as long as the buffer is not full.
`readFileToBuffer_spec` says what is in the buffer: the whole file and a NUL, or as much of it as the
largest buffer holds.
-/

namespace Tasan.ReadFile

open FlagParser (nul)

/-- The reasons for which `ReadFileToBuffer` returns false. -/
inductive ReadError
  /-- `OpenFile` fails. -/
  | openFile
  /-- `ReadFromFile` fails. -/
  | readFromFile
  deriving DecidableEq

/-- A file, and how the system calls on it behave. Each of the attempts to read it opens it anew. -/
structure File where
  /-- The contents. -/
  content : List Char
  /-- Whether an attempt can open it. -/
  opens : ℕ → Bool := fun _ => true
  /-- What `read` returns in an attempt, at an offset in the file and for a number of bytes. -/
  read : ℕ → ℕ → ℕ → Option ℕ
  /-- `read` returns no more than it is asked for, and no more than there is. -/
  read_le : ∀ attempt offset count n, read attempt offset count = some n →
    n ≤ count ∧ n ≤ content.length - offset
  /-- `read` returns nothing only at the end of the file. -/
  read_pos : ∀ attempt offset count, read attempt offset count = some 0 →
    count = 0 ∨ content.length ≤ offset

/-- The outputs of `ReadFileToBuffer`. -/
structure Buffer where
  /-- The bytes of the mapping at `*buff`. -/
  mem : List Char
  buffSize : ℕ
  readLen : ℕ

variable (f : File) (pageLog maxLen : ℕ)

/-- The inner loop, in one attempt and with a buffer of `size` bytes: the bytes read, and `reached_eof`. -/
def readLoop (attempt size : ℕ) : ℕ → ℕ → Outcome ReadError (ℕ × Bool)
  | 0, _ => .unfinished
  | fuel + 1, readLen =>
    if readLen < size then
      match f.read attempt readLen (size - readLen) with
      | none => .stopped .readFromFile
      | some justRead =>
        let readLen := readLen + justRead
        if justRead = 0 ∨ readLen = maxLen then .returned (readLen, true)
        else readLoop attempt size fuel readLen
    else .returned (readLen, false)

/-- The mapping of a buffer of `size` bytes, of which `readLen` have been read. `MmapOrDie` maps whole
pages. -/
def mapping (size readLen : ℕ) : List Char :=
  f.content.take readLen ++ List.replicate (Word.roundUpTo 64 size (2^pageLog) - readLen) nul

/-- The outer loop, from an attempt with a buffer of `size` bytes on. -/
def growLoop : ℕ → ℕ → ℕ → Outcome ReadError Buffer
  | 0, _, _ => .unfinished
  | fuel + 1, attempt, size =>
    if f.opens attempt then do
      let (readLen, reachedEof) ← readLoop f maxLen attempt size (size + 1) 0
      if reachedEof then
        return { mem := mapping f pageLog size readLen, buffSize := size, readLen := readLen }
      else growLoop fuel (attempt + 1) (min (size * 2) maxLen)
    else .stopped .openFile

/-- `ReadFileToBuffer`. Each attempt has a larger buffer, and reads at least a byte at a time. -/
def readFileToBuffer : Outcome ReadError Buffer :=
  if maxLen = 0 then .returned { mem := [], buffSize := 0, readLen := 0 }
  else growLoop f pageLog maxLen (maxLen + 1) 0 (min (2^pageLog) maxLen)

/-! ## The loops -/

variable {f} {pageLog} {maxLen}

/-- An attempt fails, fills its buffer, or comes to the end of the file or to the largest size. -/
theorem readLoop_cases (attempt size : ℕ) {fuel readLen : ℕ} (hfuel : size - readLen < fuel)
    (h1 : readLen ≤ size) (h2 : readLen ≤ f.content.length) (h3 : readLen ≠ maxLen) :
    ((∃ offset count, f.read attempt offset count = none) ∧
        readLoop f maxLen attempt size fuel readLen = .stopped .readFromFile) ∨
      (∃ k, readLoop f maxLen attempt size fuel readLen = .returned (k, true) ∧ k ≤ size ∧
        k ≤ f.content.length ∧ (k = f.content.length ∧ k < size ∨ k = maxLen)) ∨
      readLoop f maxLen attempt size fuel readLen = .returned (size, false) ∧
        size ≤ f.content.length ∧ size ≠ maxLen := by
  induction fuel generalizing readLen with
  | zero => omega
  | succ fuel ih =>
    rw [readLoop]
    split_ifs with hlt
    · cases hread : f.read attempt readLen (size - readLen) with
      | none => exact Or.inl ⟨⟨_, _, hread⟩, rfl⟩
      | some justRead =>
        have hle := f.read_le _ _ _ _ hread
        dsimp only
        split_ifs with hend
        · refine Or.inr (Or.inl ⟨_, rfl, by omega, by omega, ?_⟩)
          rcases hend with rfl | hmax
          · have := f.read_pos _ _ _ hread
            exact Or.inl (by omega)
          · exact Or.inr hmax
        · exact ih (by omega) (by omega) (by omega) (by omega)
    · obtain rfl : readLen = size := by omega
      exact Or.inr (Or.inr ⟨rfl, h2, h3⟩)

/-- The sizes of the buffers grow up to the largest one. -/
theorem growLoop_cases (hmax : 0 < maxLen) {fuel attempt size : ℕ} (hfuel : maxLen - size < fuel)
    (h0 : 0 < size) (h1 : size ≤ maxLen) :
    (∃ attempt, f.opens attempt = false ∨ ∃ offset count, f.read attempt offset count = none) ∧
        (∃ e, growLoop f pageLog maxLen fuel attempt size = .stopped e) ∨
      ∃ n k, growLoop f pageLog maxLen fuel attempt size = .returned
          { mem := mapping f pageLog n k, buffSize := n, readLen := k } ∧
        k ≤ n ∧ n ≤ maxLen ∧ k ≤ f.content.length ∧
        (k = f.content.length ∧ k < n ∨ k = maxLen) := by
  induction fuel generalizing attempt size with
  | zero => omega
  | succ fuel ih =>
    rw [growLoop]
    cases hopen : f.opens attempt with
    | false => exact Or.inl ⟨⟨attempt, Or.inl hopen⟩, .openFile, rfl⟩
    | true =>
      rw [if_pos rfl]
      rcases readLoop_cases attempt size (show size - 0 < size + 1 by omega) (Nat.zero_le _)
          (Nat.zero_le f.content.length) hmax.ne with
        ⟨herr, hrun⟩ | ⟨k, hrun, hk1, hk2, hk3⟩ | ⟨hrun, -, hne⟩
      · rw [hrun]
        exact Or.inl ⟨⟨attempt, Or.inr herr⟩, .readFromFile, rfl⟩
      · rw [hrun]
        exact Or.inr ⟨size, k, rfl, hk1, h1, hk2, hk3⟩
      · -- The buffer is full and not the largest one.
        rw [hrun]
        exact ih (by omega) (by omega) (by omega)

theorem readFileToBuffer_cases (f : File) (pageLog : ℕ) (hmax : 0 < maxLen) :
    (∃ attempt, f.opens attempt = false ∨ ∃ offset count, f.read attempt offset count = none) ∧
        (∃ e, readFileToBuffer f pageLog maxLen = .stopped e) ∨
      ∃ n k, readFileToBuffer f pageLog maxLen = .returned
          { mem := mapping f pageLog n k, buffSize := n, readLen := k } ∧
        k ≤ n ∧ n ≤ maxLen ∧ k ≤ f.content.length ∧
        (k = f.content.length ∧ k < n ∨ k = maxLen) := by
  have hpage : 0 < 2^pageLog := Nat.two_pow_pos _
  unfold readFileToBuffer
  rw [if_neg hmax.ne']
  exact growLoop_cases hmax (by omega) (by omega) (by omega)

/-- The bytes of the buffer, whose largest size is a whole number of pages: the file and NULs after it, or
the beginning of the file alone. -/
theorem readFileToBuffer_mem (hpage : pageLog < 64) (hmax : 0 < maxLen) (hdvd : 2^pageLog ∣ maxLen)
    (hlt : maxLen + 2^pageLog ≤ 2^64) {b : Buffer}
    (h : readFileToBuffer f pageLog maxLen = .returned b) :
    (f.content.length < maxLen ∧ ∃ m, b.mem = f.content ++ nul :: List.replicate m nul) ∨
      maxLen ≤ f.content.length ∧ b.mem = f.content.take maxLen := by
  rcases readFileToBuffer_cases f pageLog hmax with
    ⟨-, e, he⟩ | ⟨n, k, hrun, hkn, hn, hk, hend⟩
  · rw [he] at h
    exact absurd h nofun
  · rw [hrun] at h
    obtain rfl := Outcome.returned.inj h
    have hpos : 0 < 2^pageLog := Nat.two_pow_pos _
    have hround : Word.roundUpTo 64 n (2^pageLog) = (n + 2^pageLog - 1) / 2^pageLog * 2^pageLog :=
      Word.roundUpTo_of_lt hpage (by omega)
    have hdiv := Nat.div_add_mod (n + 2^pageLog - 1) (2^pageLog)
    have hmod := Nat.mod_lt (n + 2^pageLog - 1) hpos
    rw [Nat.mul_comm] at hdiv
    simp only [mapping, hround]
    rcases hend with ⟨rfl, hlt'⟩ | rfl
    · -- The rest of the buffer is zero.
      refine Or.inl ⟨by omega, (n + 2^pageLog - 1) / 2^pageLog * 2^pageLog - f.content.length - 1, ?_⟩
      rw [List.take_length, ← List.replicate_succ]
      congr 2
      omega
    · -- A full buffer ends with its mapping.
      obtain rfl : n = k := by omega
      obtain ⟨q, hq⟩ := hdvd
      have hexact : (n + 2^pageLog - 1) / 2^pageLog * 2^pageLog = n := by
        conv_lhs => rw [hq]
        rw [Nat.add_sub_assoc hpos, Nat.mul_add_div hpos,
          Nat.div_eq_of_lt (Nat.sub_lt hpos Nat.one_pos), Nat.add_zero, Nat.mul_comm, ← hq]
      rw [hexact, Nat.sub_self]
      exact Or.inr ⟨hk, by simp⟩

theorem exists_buffer (hmax : 0 < maxLen) (hopens : ∀ attempt, f.opens attempt = true)
    (hread : ∀ attempt offset count, f.read attempt offset count ≠ none) :
    ∃ b, readFileToBuffer f pageLog maxLen = .returned b := by
  rcases readFileToBuffer_cases f pageLog hmax with
    ⟨⟨attempt, herr⟩, -⟩ | ⟨n, k, hrun, -⟩
  · rcases herr with ho | ⟨offset, count, hr⟩
    · rw [hopens attempt] at ho
      exact absurd ho (by decide)
    · exact absurd hr (hread attempt offset count)
  · exact ⟨_, hrun⟩

end Tasan.ReadFile
