import Tasan.Print.Buffers

/-!
# The path of the report

`ParseAndSetPath` of `sanitizer_file.cpp`, which expands the pattern of `log_path`, and the
functions of `sanitizer_libc.cpp` that it calls. A string is the list of the characters of its
object from a pointer on, and the destination is the list of its `dest_size` characters. A read or a
write outside of an object is an outcome of its own.

The destination holds a text when it begins with it and a NUL (`Holds`). The theorems here say what
the library functions make of a destination that holds a text, in terms of the text alone.
-/

namespace Tasan.ReportPath

open FlagParser (nul)
open Format (toInt)

/-- The ways in which `ParseAndSetPath` stops. -/
inductive Fault
  /-- A `CHECK` or `RAW_CHECK` fails. -/
  | died
  /-- Not a death: a character outside of the pattern or of the destination is read or written. -/
  | outside
  deriving DecidableEq

/-- What `ParseAndSetPath` asks the system for. -/
structure Env where
  /-- `GetEnv("HOME")`. -/
  home : Option (List Char)
  /-- `GetEnv("TMPDIR")`. -/
  tmpdir : Option (List Char)
  /-- `internal_getpid`. -/
  pid : BitVec 64
  /-- The target of the formatter. -/
  target : Print.Target
  /-- The variables are strings. -/
  nul_not_mem : ∀ value ∈ home.toList ++ tmpdir.toList, nul ∉ value

/-! ## Library functions -/

/-- A character of an object. -/
def charAt (mem : List Char) (i : ℕ) : Outcome Fault Char :=
  match mem[i]? with
  | some c => .returned c
  | none => .stopped .outside

/-- `internal_strlen`. -/
def internalStrlen (mem : List Char) : Outcome Fault ℕ :=
  if nul ∈ mem then .returned (mem.takeWhile (· ≠ nul)).length else .stopped .outside

/-- `internal_strnlen`. -/
def internalStrnlen (mem : List Char) (maxlen : ℕ) : Outcome Fault ℕ :=
  if nul ∈ mem ∨ maxlen ≤ mem.length then
    .returned (min (mem.takeWhile (· ≠ nul)).length maxlen)
  else .stopped .outside

/-- `internal_memmove` of the first `n` characters of `src` to the position `pos`. -/
def internalMemmove (dst : List Char) (pos : ℕ) (src : List Char) (n : ℕ) :
    Outcome Fault (List Char) :=
  if n ≤ src.length ∧ pos + n ≤ dst.length then
    .returned (dst.take pos ++ (src.take n ++ dst.drop (pos + n)))
  else .stopped .outside

/-- A character is written. -/
def setChar (dst : List Char) (i : ℕ) (c : Char) : Outcome Fault (List Char) :=
  if i < dst.length then .returned (dst.set i c) else .stopped .outside

/-- `internal_strlcat`: the result, and the destination. The lengths of two objects in one address
space have a sum that is a word. -/
def internalStrlcat (dst src : List Char) (maxlen : ℕ) : Outcome Fault (ℕ × List Char) := do
  let srclen ← internalStrlen src
  let dstlen ← internalStrnlen dst maxlen
  if dstlen = maxlen then return (maxlen + srclen, dst)
  else if srclen < maxlen - dstlen then do
    let dst ← internalMemmove dst dstlen src (srclen + 1)
    return (dstlen + srclen, dst)
  else do
    let dst ← internalMemmove dst dstlen src (maxlen - dstlen - 1)
    let dst ← setChar dst (maxlen - 1) nul
    return (dstlen + srclen, dst)

/-- `internal_strlcpy`. -/
def internalStrlcpy (dst src : List Char) (maxlen : ℕ) : Outcome Fault (ℕ × List Char) := do
  let srclen ← internalStrlen src
  if srclen < maxlen then do
    let dst ← internalMemmove dst 0 src (srclen + 1)
    return (srclen, dst)
  else if maxlen ≠ 0 then do
    let dst ← internalMemmove dst 0 src (maxlen - 1)
    let dst ← setChar dst (maxlen - 1) nul
    return (srclen, dst)
  else return (srclen, dst)

/-- `internal_snprintf` of a number with `%ld`, at a position of the destination. -/
def internalSnprintf (T : Print.Target) (dst : List Char) (pos : ℕ) (length : ℤ) (v : BitVec 64) :
    Outcome Fault (ℕ × List Char) :=
  match Print.vsnprintf T length (dst.drop pos) ['%', 'l', 'd'] [.long v] with
  | .returned (mem, n) => .returned (n, dst.take pos ++ mem)
  | _ => .stopped .died

/-! ## The pattern -/

variable (env : Env) (destSize : ℕ)

/-- `CHECK_LT` of the result of `internal_strlcat` or `internal_strlcpy` and `dest_size`. -/
def checkLt (result : ℕ × List Char) : Outcome Fault (List Char) :=
  if result.1 < destSize then .returned result.2 else .stopped .died

/-- `CHECK(str_to_concat)`, and the string is appended. -/
def concat (strToConcat : Option (List Char)) (dest : List Char) : Outcome Fault (List Char) :=
  match strToConcat with
  | none => .stopped .died
  | some str => do
    let result ← internalStrlcat dest (str ++ [nul]) destSize
    checkLt destSize result

/-- The PID is printed into the destination. -/
def printPid (dest : List Char) : Outcome Fault (List Char) := do
  let len ← internalStrlen dest
  let remainingCapacity := toInt (destSize - len)
  let (bytesCopied, dest) ← internalSnprintf env.target dest len remainingCapacity env.pid
  if 0 < bytesCopied ∧ bytesCopied < remainingCapacity then return dest else .stopped .died

/-- A directive, unless the character behind the `%` is another one. -/
def directive (c : Char) (dest : List Char) : Option (Outcome Fault (List Char)) :=
  if c = '%' then some (concat destSize (some ['%']) dest)
  else if c = 'H' then some (concat destSize env.home dest)
  else if c = 't' then some (concat destSize env.tmpdir dest)
  else if c = 'p' then some (do
    let dest ← printPid env destSize dest
    concat destSize (some []) dest)
  else none

/-- An `int` is added to the length of the destination. -/
def addLength (destLen : ℕ) (bytesToCopy : ℤ) : ℕ := ((destLen + bytesToCopy + 1) % 2^64).toNat

/-- The loop of `ParseAndSetPath`, with `i` and `next_substr_start_idx`. -/
def parseLoop (pattern : List Char) :
    ℕ → ℕ → ℕ → List Char → Outcome Fault (List Char)
  | 0, _, _, _ => .unfinished
  | fuel + 1, i, nextSubstrStartIdx, dest => do
    let len ← internalStrlen pattern
    if i < Word.sub 64 len 1 then do
      let c ← charAt pattern i
      if c ≠ '%' then parseLoop pattern fuel (i + 1) nextSubstrStartIdx dest
      else do
        let bytesToCopy := toInt (i - nextSubstrStartIdx)
        let destLen ← internalStrlen dest
        let result ← internalStrlcat dest (pattern.drop nextSubstrStartIdx)
          (addLength destLen bytesToCopy)
        let dest ← checkLt destSize result
        let c ← charAt pattern (i + 1)
        match directive env destSize c dest with
        | some run => do
          let dest ← run
          parseLoop pattern fuel (i + 2) (i + 2) dest
        | none => do
          let result ← internalStrlcpy dest pattern destSize
          checkLt destSize result
    else do
      let result ← internalStrlcat dest (pattern.drop nextSubstrStartIdx) destSize
      checkLt destSize result

/-- `ParseAndSetPath`. The index comes to the end of the pattern at most. -/
def parseAndSetPath (pattern dest : List Char) : Outcome Fault (List Char) :=
  if destSize = 0 then .stopped .died
  else do
    let dest ← setChar dest 0 nul
    parseLoop env destSize pattern (pattern.length + 1) 0 0 dest

/-! ## Texts in the destination -/

/-- The destination holds a text. -/
structure Holds (destSize : ℕ) (text dest : List Char) : Prop where
  /-- The text is a string. -/
  nul_not_mem : nul ∉ text
  /-- It is at the beginning. -/
  eq : ∃ rest, dest = text ++ nul :: rest
  /-- The destination has its size. -/
  length_eq : dest.length = destSize

section

variable {destSize : ℕ} {text s rest dest : List Char}

theorem Holds.length_lt (h : Holds destSize text dest) : text.length < destSize := by
  obtain ⟨rest, rfl⟩ := h.eq
  have hlen := h.length_eq
  rw [List.length_append, List.length_cons] at hlen
  omega

theorem takeWhile_string (hs : nul ∉ s) (rest : List Char) :
    (s ++ nul :: rest).takeWhile (· ≠ nul) = s := by
  have hall : ∀ c ∈ s, decide (c ≠ nul) = true :=
    fun c hc => decide_eq_true fun h => hs (h ▸ hc)
  rw [List.takeWhile_append_of_pos hall, List.takeWhile_cons_of_neg (by decide), List.append_nil]

theorem nul_mem_string (s rest : List Char) : nul ∈ s ++ nul :: rest :=
  List.mem_append_right _ List.mem_cons_self

theorem internalStrlen_string (hs : nul ∉ s) (rest : List Char) :
    internalStrlen (s ++ nul :: rest) = .returned s.length := by
  unfold internalStrlen
  rw [if_pos (nul_mem_string s rest), takeWhile_string hs]

theorem Holds.strlen (h : Holds destSize text dest) :
    internalStrlen dest = .returned text.length := by
  obtain ⟨rest, rfl⟩ := h.eq
  exact internalStrlen_string h.nul_not_mem rest

theorem holds_of_eq {old : List Char} (hlen : dest.length = destSize) (htext : nul ∉ text)
    (hroom : text.length < destSize) (heq : old = text ++ nul :: dest.drop (text.length + 1)) :
    Holds destSize text old := by
  refine ⟨htext, ⟨_, heq⟩, ?_⟩
  rw [heq, List.length_append, List.length_cons, List.length_drop]
  omega

/-- `internal_strlcat` appends as much of a string as `maxlen` allows, and writes outside of the
destination if that is too much for it. -/
theorem internalStrlcat_spec (h : Holds destSize text dest) (hs : nul ∉ s) (rest : List Char)
    {maxlen : ℕ} (hmax : text.length < maxlen) :
    (text.length + min s.length (maxlen - text.length - 1) < destSize → ∃ dest',
      internalStrlcat dest (s ++ nul :: rest) maxlen =
        .returned (text.length + s.length, dest') ∧
      Holds destSize (text ++ s.take (maxlen - text.length - 1)) dest') ∧
    (destSize ≤ text.length + min s.length (maxlen - text.length - 1) →
      internalStrlcat dest (s ++ nul :: rest) maxlen = .stopped .outside) := by
  have htext := h.nul_not_mem
  have hdest := h.length_eq
  obtain ⟨old, hold⟩ := h.eq
  have htake : dest.take text.length = text := by rw [hold, List.take_left']; rfl
  have hstrn : internalStrnlen dest maxlen = .returned text.length := by
    unfold internalStrnlen
    rw [hold, if_pos (Or.inl (nul_mem_string text old)), takeWhile_string htext,
      min_eq_left hmax.le]
  have hlen : (s ++ nul :: rest).length = s.length + 1 + rest.length := by
    rw [List.length_append, List.length_cons]
    omega
  unfold internalStrlcat
  rw [internalStrlen_string hs, Outcome.returned_bind, hstrn, Outcome.returned_bind,
    if_neg hmax.ne]
  split_ifs with hfits
  · -- the whole string and its NUL are copied
    rw [min_eq_left (by omega), List.take_of_length_le (by omega)]
    have hsrc : (s ++ nul :: rest).take (s.length + 1) = s ++ [nul] := by
      rw [List.take_append, List.take_of_length_le (Nat.le_succ _), Nat.add_sub_cancel_left]
      rfl
    unfold internalMemmove
    constructor
    · intro hroom
      rw [if_pos (by omega), Outcome.returned_bind, htake, hsrc]
      refine ⟨_, rfl, holds_of_eq hdest ?_ ?_ ?_⟩
      · exact fun hmem => (List.mem_append.mp hmem).elim htext hs
      · rwa [List.length_append]
      · rw [List.length_append]
        simp [Nat.add_assoc]
    · intro hroom
      rw [if_neg (by omega)]
      rfl
  · rw [min_eq_right (by omega)]
    have hsrc : (s ++ nul :: rest).take (maxlen - text.length - 1) =
        s.take (maxlen - text.length - 1) := List.take_append_of_le_length (by omega)
    have hk : (s.take (maxlen - text.length - 1)).length = maxlen - text.length - 1 :=
      List.length_take_of_le (by omega)
    have hcopy : text.length + (maxlen - text.length - 1) ≤ destSize →
        (text ++ (s.take (maxlen - text.length - 1) ++
          dest.drop (text.length + (maxlen - text.length - 1)))).length = destSize := by
      intro hle
      rw [List.length_append, List.length_append, List.length_drop, hk]
      omega
    unfold internalMemmove setChar
    constructor
    · intro hroom
      have hcopied := hcopy hroom.le
      rw [if_pos (by omega), Outcome.returned_bind, htake, hsrc, if_pos (by omega),
        Outcome.returned_bind]
      refine ⟨_, rfl, holds_of_eq hdest ?_ ?_ ?_⟩
      · exact fun hmem => (List.mem_append.mp hmem).elim htext
          fun hmem => hs (List.mem_of_mem_take hmem)
      · rw [List.length_append, hk]
        omega
      · -- the NUL comes behind what has been copied
        have hpos : maxlen - 1 = (text ++ s.take (maxlen - text.length - 1)).length := by
          rw [List.length_append, hk]
          omega
        have hlt : text.length + (maxlen - text.length - 1) < dest.length := by omega
        rw [← List.append_assoc, hpos, List.set_append_right _ _ le_rfl, Nat.sub_self,
          List.length_append, hk, ← List.cons_getElem_drop_succ (h := hlt), List.set_cons_zero]
    · intro hroom
      rcases Nat.lt_or_ge destSize (text.length + (maxlen - text.length - 1)) with hlt | hle
      · rw [if_neg (by omega)]
        rfl
      · have hcopied := hcopy hle
        rw [if_pos (by omega), Outcome.returned_bind, htake, hsrc, if_neg (by omega)]
        rfl

theorem concat_spec (h : Holds destSize text dest) (hs : nul ∉ s) :
    (text.length + s.length < destSize → ∃ dest', concat destSize (some s) dest = .returned dest' ∧
      Holds destSize (text ++ s) dest') ∧
    (destSize ≤ text.length + s.length → concat destSize (some s) dest = .stopped .died) := by
  have hlt := h.length_lt
  obtain ⟨dest', hrun, hdest⟩ := (internalStrlcat_spec h hs [] hlt).1 (by omega)
  unfold concat checkLt
  dsimp only
  rw [hrun, Outcome.returned_bind]
  constructor
  · intro hroom
    rw [List.take_of_length_le (by omega)] at hdest
    exact ⟨dest', if_pos hroom, hdest⟩
  · exact fun hroom => if_neg (not_lt.mpr hroom)

/-- `internal_strlcpy` replaces the text if there is room for the string, and the check of its
result fails otherwise. -/
theorem internalStrlcpy_spec (h : Holds destSize text dest) (hs : nul ∉ s) :
    (s.length < destSize → ∃ dest', (internalStrlcpy dest (s ++ [nul]) destSize >>=
        checkLt destSize) = .returned dest' ∧ Holds destSize s dest') ∧
    (destSize ≤ s.length →
      (internalStrlcpy dest (s ++ [nul]) destSize >>= checkLt destSize) = .stopped .died) := by
  have hlt := h.length_lt
  have hdest := h.length_eq
  have hlen : (s ++ [nul]).length = s.length + 1 := List.length_append
  unfold internalStrlcpy internalMemmove setChar checkLt
  rw [internalStrlen_string hs, Outcome.returned_bind]
  constructor
  · intro hroom
    rw [if_pos hroom, if_pos (by omega), Outcome.returned_bind, Outcome.pure_eq,
      Outcome.returned_bind, if_pos hroom]
    refine ⟨_, rfl, holds_of_eq hdest hs hroom ?_⟩
    rw [List.take_zero, List.nil_append, List.take_of_length_le hlen.le, List.append_assoc,
      Nat.zero_add]
    rfl
  · intro hroom
    have hcopied : (dest.take 0 ++ ((s ++ [nul]).take (destSize - 1) ++
        dest.drop (0 + (destSize - 1)))).length = destSize := by
      rw [List.take_zero, List.nil_append, List.length_append, List.length_take, List.length_drop]
      omega
    rw [if_neg (not_lt.mpr hroom), if_pos (by omega), if_pos (by omega), Outcome.returned_bind,
      if_pos (by omega), Outcome.returned_bind, Outcome.pure_eq, Outcome.returned_bind,
      if_neg (not_lt.mpr hroom)]

/-- The PID in the path. -/
def Env.pidText (env : Env) : List Char := Print.NumberConv.d.rendering [] env.pid.toInt

/-- The PID is printed if there is room for it as an `int`, and the program dies if there is no
room. -/
theorem printPid_spec (env : Env) (h : Holds destSize text dest) :
    ((env.pidText.length : ℤ) < toInt (destSize - text.length) →
      ∃ dest', printPid env destSize dest = .returned dest' ∧
        Holds destSize (text ++ env.pidText) dest') ∧
    (toInt (destSize - text.length) ≤ env.pidText.length →
      printPid env destSize dest = .stopped .died) := by
  have hlt := h.length_lt
  have hdest := h.length_eq
  obtain ⟨old, hold⟩ := h.eq
  have htake : dest.take text.length = text := by rw [hold, List.take_left']; rfl
  have hle := Print.toInt_le (destSize - text.length)
  have hmem : (dest.drop text.length).length = destSize - text.length := by
    rw [List.length_drop, hdest]
  have hok : ∀ item ∈ [Print.Item.long .d [] ['l'] env.pid], item.Ok :=
    List.forall_mem_singleton.mpr ⟨List.forall_mem_nil _, by decide, by decide⟩
  have hrendering : Print.rendering env.target [Print.Item.long .d [] ['l'] env.pid] =
      env.pidText := List.append_nil _
  unfold printPid internalSnprintf
  rw [h.strlen, Outcome.returned_bind]
  dsimp only
  by_cases hpos : toInt (destSize - text.length) ≤ 0
  · have hzero := Int.natCast_nonneg env.pidText.length
    unfold Print.vsnprintf
    rw [if_pos hpos]
    exact ⟨fun hroom => by omega, fun _ => rfl⟩
  · lift toInt (destSize - text.length) to ℕ using (by omega) with room
    have hprint := Print.vsnprintf_eq env.target hok (show 1 ≤ room by omega)
      (show room ≤ (dest.drop text.length).length by omega)
    rw [hrendering] at hprint
    have hformat : Print.vsnprintf env.target room (dest.drop text.length) ['%', 'l', 'd']
        [.long env.pid] = .returned (Print.printed room (dest.drop text.length) env.pidText,
          env.pidText.length) := hprint
    rw [hformat]
    dsimp only
    rw [Outcome.returned_bind]
    dsimp only
    have hdigits : 0 < env.pidText.length := Print.length_rendering_d_pos _
    constructor
    · intro hroom
      obtain ⟨rest, hrest⟩ := @Print.printed_fits room (dest.drop text.length) env.pidText
        (by omega)
      have hbytes := Print.length_printed (show 1 ≤ room by omega)
        (show room ≤ (dest.drop text.length).length by omega) env.pidText
      rw [if_pos ⟨by omega, hroom⟩, htake]
      refine ⟨_, rfl, ?_, ⟨rest, by rw [hrest, List.append_assoc]⟩, ?_⟩
      · exact fun hmem => (List.mem_append.mp hmem).elim h.nul_not_mem
          (Print.nul_not_mem_rendering_d _)
      · rw [List.length_append, hbytes]
        omega
    · exact fun hroom => if_neg fun h => absurd h.2 (not_lt.mpr hroom)

end

end Tasan.ReportPath
