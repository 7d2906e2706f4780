import Tasan.Allocator.Model
import Tasan.FlagParser.Meaning
import Tasan.ReadFile.Buffer
import Tasan.ReadFile.Suppressions

/-!
# Parsing a file

The texts that `FlagParser::ParseFile` and `SuppressionContext::ParseFromFile` get from
`ReadFileToBuffer`. The largest buffers are whole pages, so that nothing follows a buffer that is full:
the text is terminated exactly when the file is shorter than that (`readFileToBuffer_terminated_iff`).
-/

namespace Tasan.ReadFile

open FlagParser (nul meaning Config Parser)

/-- The largest buffer of `ParseFile`: `Max(kMaxIncludeSize, GetPageSizeCached())`. -/
def includeMaxLen (pageLog : ℕ) : ℕ := max (2^15) (2^pageLog)

/-- `kDefaultFileMaxSize`, the largest buffer of `ParseFromFile`. -/
def kDefaultFileMaxSize (w : Allocator.Wordsize) : ℕ := w.first32Second64 (2^26) (2^28)

/-- The text in the buffer is terminated, and `ParseString` does not read behind the buffer, if its
handlers keep to terminated texts as well. -/
def SafeForFlags (b : Buffer) : Prop :=
  nul ∈ b.mem ∧ ∀ (σ : Type) (cfg : Config σ),
    (∀ h ∈ cfg.handlers, ∀ value flags, (h.2 value flags).NulTerminated) →
    ∀ (env : Option (List Char)) (p : Parser σ), meaning cfg (some b.mem) env p ≠ .stopped .overrun

/-- The text in the buffer is terminated, and `Parse` does not read behind the buffer, if no type of
suppressions has a newline in it. -/
def SafeForSuppressions (b : Buffer) : Prop :=
  nul ∈ b.mem ∧ ∀ ctx : Suppressions.Context,
    (∀ type ∈ ctx.suppressionTypes, Suppressions.newline ∉ type) →
    Suppressions.parse ctx b.mem ≠ .stopped .overrun

theorem safeForFlags_iff {b : Buffer} : SafeForFlags b ↔ nul ∈ b.mem :=
  ⟨fun h => h.1, fun h => ⟨h, fun _ cfg hcfg env p =>
    FlagParser.meaning_ne_stopped cfg (Or.inl rfl) hcfg h env p⟩⟩

theorem safeForSuppressions_iff {b : Buffer} : SafeForSuppressions b ↔ nul ∈ b.mem :=
  ⟨fun h => h.1, fun h => ⟨h, fun _ htypes => (Suppressions.parse_terminated htypes h).1⟩⟩

variable {f : File} {pageLog maxLen : ℕ}

theorem nul_mem_iff (hpage : pageLog < 64) (hmax : 0 < maxLen) (hdvd : 2^pageLog ∣ maxLen)
    (hlt : maxLen + 2^pageLog ≤ 2^64) (hnul : nul ∉ f.content) {b : Buffer}
    (h : readFileToBuffer f pageLog maxLen = .returned b) :
    nul ∈ b.mem ↔ f.content.length < maxLen := by
  rcases readFileToBuffer_mem hpage hmax hdvd hlt h with ⟨hshort, m, hmem⟩ | ⟨hlong, hmem⟩
  · rw [hmem]
    exact iff_of_true (List.mem_append_right _ List.mem_cons_self) hshort
  · rw [hmem]
    exact iff_of_false (fun hin => hnul (List.mem_of_mem_take hin)) (not_lt.mpr hlong)

theorem dvd_includeMaxLen (pageLog : ℕ) : 2^pageLog ∣ includeMaxLen pageLog := by
  unfold includeMaxLen
  rcases le_total pageLog 15 with h | h
  · rw [max_eq_left (Nat.pow_le_pow_right (by norm_num) h)]
    exact Nat.pow_dvd_pow 2 h
  · rw [max_eq_right (Nat.pow_le_pow_right (by norm_num) h)]

theorem dvd_kDefaultFileMaxSize (w : Allocator.Wordsize) (h : pageLog ≤ 26) :
    2^pageLog ∣ kDefaultFileMaxSize w := by
  cases w with
  | w32 => exact Nat.pow_dvd_pow 2 h
  | w64 => exact Nat.pow_dvd_pow 2 (h.trans (by norm_num))

/-- A file without NULs, on a system whose pages have at most `2^26` bytes, whatever `read` returns. If it
can be opened and read, its text is handed to the parsers of flags and of suppressions; and the text is
terminated inside the buffer, so that the parser does not read behind it, exactly when the file is shorter
than the largest buffer. -/
theorem readFileToBuffer_terminated_iff (f : File) (hnul : nul ∉ f.content) (pageLog : ℕ)
    (hpage : pageLog ≤ 26) :
    ((∀ attempt, f.opens attempt = true) →
      (∀ attempt offset count, f.read attempt offset count ≠ none) →
      (∃ b, readFileToBuffer f pageLog (includeMaxLen pageLog) = .returned b) ∧
        ∀ w, ∃ b, readFileToBuffer f pageLog (kDefaultFileMaxSize w) = .returned b) ∧
    (∀ b, readFileToBuffer f pageLog (includeMaxLen pageLog) = .returned b →
      (SafeForFlags b ↔ f.content.length < includeMaxLen pageLog)) ∧
    ∀ w b, readFileToBuffer f pageLog (kDefaultFileMaxSize w) = .returned b →
      (SafeForSuppressions b ↔ f.content.length < kDefaultFileMaxSize w) := by
  have hpow : 2^pageLog ≤ 2^26 := Nat.pow_le_pow_right (by norm_num) hpage
  have hinclude : 0 < includeMaxLen pageLog ∧ includeMaxLen pageLog ≤ 2^26 := by
    unfold includeMaxLen
    omega
  have hdefault : ∀ w, 0 < kDefaultFileMaxSize w ∧ kDefaultFileMaxSize w ≤ 2^28 := by
    intro w
    cases w with
    | w32 => decide
    | w64 => decide
  refine ⟨fun hopens hread => ⟨exists_buffer hinclude.1 hopens hread,
    fun w => exists_buffer (hdefault w).1 hopens hread⟩, fun b hb => ?_, fun w b hb => ?_⟩
  · rw [safeForFlags_iff, nul_mem_iff (by omega) hinclude.1 (dvd_includeMaxLen pageLog) (by omega)
      hnul hb]
  · have hw := hdefault w
    rw [safeForSuppressions_iff, nul_mem_iff (by omega) hw.1 (dvd_kDefaultFileMaxSize w hpage)
      (by omega) hnul hb]

/-- A file, with a `read` that returns as much as it can. -/
def plainFile (content : List Char) : File where
  content := content
  read := fun _ offset count => some (min count (content.length - offset))
  read_le := by
    intro _ offset count n h
    obtain rfl := Option.some.inj h
    omega
  read_pos := by
    intro _ offset count h
    have := Option.some.inj h
    omega

/-- An option file of four bytes is terminated. -/
theorem readFileToBuffer_terminated_iff_short :
    ∃ b, readFileToBuffer (plainFile ['a', '=', '1', ' ']) 12 (includeMaxLen 12) = .returned b ∧
      SafeForFlags b := by
  have h := readFileToBuffer_terminated_iff (plainFile ['a', '=', '1', ' ']) (by decide) 12 (by decide)
  obtain ⟨b, hb⟩ := (h.1 (fun _ => rfl) (fun _ _ _ => nofun)).1
  exact ⟨b, hb, (h.2.1 b hb).mpr (by decide)⟩

theorem advanceWhile_all {p : Char → Bool} {text : List Char} (h : ∀ c ∈ text, p c = true) (pos : ℕ) :
    FlagParser.advanceWhile p text pos = .stopped .overrun := by
  induction text generalizing pos with
  | nil => rfl
  | cons c rest ih =>
    rw [FlagParser.advanceWhile, if_pos (h c List.mem_cons_self)]
    exact ih (fun c hc => h c (List.mem_cons_of_mem _ hc)) _

/-- A text that is one unfinished name is read further. -/
theorem meaning_overrun {text : List Char} (h : ∀ c ∈ text, c = 'a') (hne : text ≠ []) {σ : Type}
    (cfg : Config σ) (env : Option (List Char)) (p : Parser σ) :
    meaning cfg (some text) env p = .stopped .overrun := by
  obtain ⟨c, rest, rfl⟩ := List.exists_cons_of_ne_nil hne
  obtain rfl := h c List.mem_cons_self
  have hname : FlagParser.scan FlagParser.inName ('a' :: rest) 0 = .stopped .overrun :=
    advanceWhile_all (fun c hc => by rw [h c hc]; decide) 0
  have hskip : FlagParser.scan FlagParser.isSpace ('a' :: rest) 0 = .returned 0 := by
    unfold FlagParser.scan
    rw [List.drop_zero, FlagParser.advanceWhile, if_neg (by decide)]
  have hrun : FlagParser.parseString cfg 1 (some ('a' :: rest)) env p = .stopped .overrun := by
    unfold FlagParser.parseString FlagParser.withString
    dsimp only
    rw [FlagParser.parseFlags, FlagParser.skipWhitespace]
    dsimp only
    rw [hskip]
    simp only [Outcome.returned_bind, Outcome.pure_eq, FlagParser.read, FlagParser.parseFlag,
      List.getElem?_cons_zero]
    rw [if_neg (by decide), hname]
    rfl
  exact (FlagParser.chain_parseString cfg _ env p).limit_eq_of_ne (n := 1)
    (by simp [hrun]) |>.trans hrun

/-- An option file of 32768 letters fills its buffer, and the parser of flags reads behind it. -/
theorem readFileToBuffer_unterminated :
    ∃ b, readFileToBuffer (plainFile (List.replicate (2^15) 'a')) 12 (includeMaxLen 12) =
        .returned b ∧
      nul ∉ b.mem ∧ ∀ (env : Option (List Char)) (p : Parser Unit),
        meaning { handlers := [] } (some b.mem) env p = .stopped .overrun := by
  have hmax : includeMaxLen 12 = 2^15 := by decide
  have hlen : (plainFile (List.replicate (2^15) 'a')).content.length = 2^15 := List.length_replicate
  obtain ⟨b, hb⟩ : ∃ b, readFileToBuffer (plainFile (List.replicate (2^15) 'a')) 12
      (includeMaxLen 12) = .returned b :=
    exists_buffer (by decide) (fun _ => rfl) (fun _ _ _ => nofun)
  have hmem : b.mem = List.replicate (2^15) 'a' := by
    rcases readFileToBuffer_mem (by decide) (by decide) (by decide) (by decide) hb with
      ⟨h, -⟩ | ⟨-, h⟩
    · rw [hlen, hmax] at h
      exact absurd h (lt_irrefl _)
    · rw [h, hmax]
      exact List.take_of_length_le hlen.le
  have hall : ∀ c ∈ b.mem, c = 'a' := by
    rw [hmem]
    exact fun c hc => (List.mem_replicate.mp hc).2
  have hne : b.mem ≠ [] := by
    intro h
    rw [h] at hmem
    have := congrArg List.length hmem
    rw [List.length_replicate] at this
    exact absurd this (by decide)
  refine ⟨b, hb, fun hin => absurd (hall nul hin) (by decide), fun env p => ?_⟩
  exact meaning_overrun hall hne _ env p

end Tasan.ReadFile
