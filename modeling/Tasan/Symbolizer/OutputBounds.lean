import Tasan.Symbolizer.Tokens

/-!
# The parsers of a symbolizer's output stay in bounds

The line of a file in the output may be a colon and a number, for a file without a name. Then the
second round of `ParseFileLineInfo` looks in front of its copy. `outputParsers_iff` says that
nothing else goes wrong: the three parsers finish on every string, and stay inside their arrays when
none of the file lines that they come to is a colon and a number.
-/

namespace Tasan.Symbolizer

open FlagParser (nul)
open Format (isDigit)
open Libc (internalSimpleStrtoll)
open Buffer (read read_eq)

/-- The lines of files that `ParseSymbolizePCOutput` comes to: the second one of each pair of lines,
up to a pair that starts with an empty line. -/
inductive PCFileLine : List Char → List Char → Prop
  /-- The pair that is first. -/
  | first {text : List Char} (h : upTo [newline] text ≠ []) :
    PCFileLine text (upTo [newline] (after [newline] text))
  /-- The pairs behind it. -/
  | later {text line : List Char} (h : upTo [newline] text ≠ [])
    (hline : PCFileLine (after [newline] (after [newline] text)) line) : PCFileLine text line

/-- What `ParseSymbolizeFrameOutput` has behind one variable. -/
def nextLocal (text : List Char) : List Char :=
  after [newline] (after [' '] (after [' ']
    (after [newline] (after [newline] (after [newline] text)))))

/-- The lines of files that `ParseSymbolizeFrameOutput` comes to: the third line of each
variable. -/
inductive FrameFileLine : List Char → List Char → Prop
  /-- That of the variable that is first. -/
  | first {text : List Char} (h : text ≠ []) :
    FrameFileLine text (upTo [newline] (after [newline] (after [newline] text)))
  /-- Those behind it. -/
  | later {text line : List Char} (h : text ≠ []) (hline : FrameFileLine (nextLocal text) line) :
    FrameFileLine text line

variable {str text junk delims : List Char} {pos : ℕ}

/-! ## The cursor comes on -/

theorem length_after_le (delims text : List Char) : (after delims text).length ≤ text.length := by
  unfold after
  rw [List.length_tail]
  have := List.length_dropWhile_le (!delims.contains ·) text
  omega

theorem length_after_lt (delims : List Char) (h : text ≠ []) :
    (after delims text).length < text.length := by
  have := List.length_dropWhile_le (!delims.contains ·) text
  have hpos := List.length_pos_of_ne_nil h
  unfold after
  rw [List.length_tail]
  omega

theorem read_token (hnul : nul ∉ text) :
    ∃ c, read OutputFault.token (text ++ [nul]) 0 = .returned c ∧ (c = nul ↔ text = []) := by
  cases text with
  | nil => exact ⟨nul, rfl, iff_of_true rfl rfl⟩
  | cons c text =>
    exact ⟨c, rfl, iff_of_false (fun heq => hnul (heq ▸ List.mem_cons_self)) (List.cons_ne_nil _ _)⟩

theorem dropUnknown_some (hnul : nul ∉ text) : dropUnknown (some (text ++ [nul])) =
    .returned (if text = unknownName then none else some (text ++ [nul])) := by
  unfold dropUnknown
  dsimp only
  rw [cString_eq (ahead_zero hnul)]
  rfl

theorem dropUnknown_eq {name : Option (List Char)} (h : Named name) :
    ∃ name', dropUnknown name = .returned name' := by
  cases name with
  | none => exact ⟨none, rfl⟩
  | some array =>
    obtain ⟨text, rfl, hnul⟩ := h array rfl
    exact ⟨_, dropUnknown_some hnul⟩

theorem extractNumber_eq (h : Ahead str pos text junk) (delims : List Char) :
    ∃ n next, extractNumber str pos delims = .returned (n, next) ∧
      Ahead str next (after delims text) junk := by
  obtain ⟨next, hrun, hnext⟩ := extractToken_eq (e := .output) h delims
  have hnul : nul ∉ upTo delims text := fun hmem => h.nul_notMem (of_mem_upTo hmem).1
  unfold extractNumber
  rw [hrun, Outcome.returned_bind]
  dsimp only
  rw [cString_eq (ahead_zero hnul)]
  exact ⟨_, next, rfl, hnext⟩

theorem extractUptr_eq (h : Ahead str pos text junk) (delims : List Char) :
    ∃ n next, extractUptr str pos delims = .returned (n, next) ∧
      Ahead str next (after delims text) junk := by
  obtain ⟨n, next, hrun, hnext⟩ := extractNumber_eq h delims
  unfold extractUptr
  rw [hrun]
  exact ⟨_, next, rfl, hnext⟩

theorem startsUnknown_eq (h : Ahead str pos text junk) :
    startsUnknown str pos = .returned (unknownName.isPrefixOf text) := by
  unfold startsUnknown
  rw [cString_eq h]
  rfl

/-! ## `ParseSymbolizePCOutput` -/

theorem named_some (hnul : nul ∉ text) : Named (some (text ++ [nul])) := by
  intro array harray
  obtain rfl := Option.some.inj harray
  exact ⟨text, rfl, hnul⟩

theorem parsePCLoop_end (h : Ahead str pos text junk) (hnil : upTo [newline] text = [])
    (res : AddressInfo) (fuel : ℕ) (done : List AddressInfo) :
    parsePCLoop str res (fuel + 1) pos done = .returned done := by
  obtain ⟨next, hrun, -⟩ := extractToken_eq (e := .output) h [newline]
  rw [parsePCLoop, hrun, hnil]
  rfl

/-- Another turn ends with the copy of its file line, or leads to the next one. -/
theorem parsePCLoop_turn {res : AddressInfo} (hres : Named res.file) (h : Ahead str pos text junk)
    (hne : upTo [newline] text ≠ []) (done : List AddressInfo) :
    (IsNumber (upTo [newline] (after [newline] text)) →
      ∀ fuel, parsePCLoop str res (fuel + 1) pos done = .stopped .token) ∧
    (¬ IsNumber (upTo [newline] (after [newline] text)) → ∃ next done',
      (∀ fuel, parsePCLoop str res (fuel + 1) pos done = parsePCLoop str res fuel next done') ∧
        Ahead str next (after [newline] (after [newline] text)) junk) := by
  have hnul : nul ∉ upTo [newline] text := fun hmem => h.nul_notMem (of_mem_upTo hmem).1
  obtain ⟨next, hrun, hnext⟩ := extractToken_eq (e := .output) h [newline]
  obtain ⟨c, hread, hc⟩ := read_token hnul
  constructor
  · intro hnumber fuel
    rw [parsePCLoop, hrun, Outcome.returned_bind]
    dsimp only
    rw [hread, Outcome.returned_bind, if_neg fun heq => hne (hc.mp heq),
      parseFileLineInfo_number hnext hnumber]
    rfl
  · intro hnumber
    obtain ⟨info, next', hparse, hnext', hfun, hfile⟩ := parseFileLineInfo_eq hnext hnumber
      { (if done.isEmpty then res
        else (AddressInfo.new res.address).fillModuleInfo res.module res.moduleOffset
          res.moduleArch) with function := some (upTo [newline] text ++ [nul]) } (by
        dsimp only
        split_ifs
        · exact hres
        · exact fun _ harray => absurd harray.symm (Option.some_ne_none _))
    have hname : Named info.function := by
      rw [hfun]
      exact named_some hnul
    obtain ⟨function, hfunction⟩ := dropUnknown_eq hname
    obtain ⟨file, hfile⟩ := dropUnknown_eq hfile
    refine ⟨next', done ++ [{ info with function := function, file := file }], fun fuel => ?_,
      hnext'⟩
    rw [parsePCLoop, hrun, Outcome.returned_bind]
    dsimp only
    rw [hread, Outcome.returned_bind, if_neg fun heq => hne (hc.mp heq), hparse,
      Outcome.returned_bind]
    dsimp only
    rw [hfunction, Outcome.returned_bind, hfile]
    rfl

theorem length_after_pair_lt (hne : upTo [newline] text ≠ []) :
    (after [newline] (after [newline] text)).length < text.length := by
  have hne' : text ≠ [] := by
    rintro rfl
    exact hne rfl
  calc
    (after [newline] (after [newline] text)).length ≤ (after [newline] text).length :=
      length_after_le _ _
    _ < text.length := length_after_lt _ hne'

theorem parsePCLoop_eq {res : AddressInfo} (hres : Named res.file) (h : Ahead str pos text junk)
    (hlines : ∀ line, PCFileLine text line → ¬ IsNumber line) (done : List AddressInfo) :
    ∃ done', ∀ fuel > text.length, parsePCLoop str res fuel pos done = .returned done' := by
  induction hlength : text.length using Nat.strong_induction_on generalizing pos text done with
  | _ n ih =>
    subst hlength
    rcases eq_or_ne (upTo [newline] text) [] with hnil | hne
    · refine ⟨done, fun fuel hfuel => ?_⟩
      obtain ⟨fuel, rfl⟩ := Nat.exists_eq_succ_of_ne_zero (Nat.zero_lt_of_lt hfuel).ne'
      exact parsePCLoop_end h hnil res fuel done
    · obtain ⟨next, done₁, hturn, hnext⟩ :=
        (parsePCLoop_turn hres h hne done).2 (hlines _ (.first hne))
      have hlt := length_after_pair_lt hne
      obtain ⟨done', hrest⟩ :=
        ih _ hlt hnext (fun line hline => hlines line (.later hne hline)) done₁ rfl
      refine ⟨done', fun fuel hfuel => ?_⟩
      obtain ⟨fuel, rfl⟩ := Nat.exists_eq_succ_of_ne_zero (Nat.zero_lt_of_lt hfuel).ne'
      rw [hturn, hrest fuel (by omega)]

theorem parsePCLoop_number {res : AddressInfo} (hres : Named res.file) {line : List Char}
    (hline : PCFileLine text line) (hnumber : IsNumber line) {fuel : ℕ}
    (h : Ahead str pos text junk) (hfuel : text.length < fuel) (done : List AddressInfo) :
    parsePCLoop str res fuel pos done = .stopped .token := by
  induction hline generalizing fuel pos done with
  | @first text hne =>
    obtain ⟨fuel, rfl⟩ := Nat.exists_eq_succ_of_ne_zero (Nat.zero_lt_of_lt hfuel).ne'
    exact (parsePCLoop_turn hres h hne done).1 hnumber fuel
  | @later text line hne hline ih =>
    obtain ⟨fuel, rfl⟩ := Nat.exists_eq_succ_of_ne_zero (Nat.zero_lt_of_lt hfuel).ne'
    obtain ⟨hstop, hnext⟩ := parsePCLoop_turn hres h hne done
    by_cases hfirst : IsNumber (upTo [newline] (after [newline] text))
    · exact hstop hfirst fuel
    · obtain ⟨next, done', hturn, hnext⟩ := hnext hfirst
      have hlt := length_after_pair_lt hne
      rw [hturn]
      exact ih hnumber hnext (by omega) done'

theorem parseSymbolizePCOutput_iff (hnul : nul ∉ text) {res : AddressInfo} (hres : Named res.file) :
    (∃ frames, ∀ fuel > text.length,
        parseSymbolizePCOutput fuel (text ++ [nul]) res = .returned frames) ↔
      ∀ line, PCFileLine text line → ¬ IsNumber line := by
  unfold parseSymbolizePCOutput
  constructor
  · rintro ⟨frames, hframes⟩ line hline hnumber
    have hrun := hframes (text.length + 1) (Nat.lt_succ_self _)
    rw [parsePCLoop_number hres hline hnumber (ahead_zero hnul) (Nat.lt_succ_self _)] at hrun
    cases hrun
  · intro hlines
    obtain ⟨done, hdone⟩ := parsePCLoop_eq hres (ahead_zero hnul) hlines []
    refine ⟨if done.isEmpty then [res] else done, fun fuel hfuel => ?_⟩
    rw [hdone fuel hfuel]
    rfl

/-! ## `ParseSymbolizeFrameOutput` -/

theorem parseFrameLoop_end (h : Ahead str pos [] junk) (fuel : ℕ) (locals : List LocalInfo) :
    parseFrameLoop str (fuel + 1) pos locals = .returned locals := by
  rw [parseFrameLoop, read_eq h.drop_eq]
  rfl

/-- Another turn ends with the copy of its file line, or leads to the next one. -/
theorem parseFrameLoop_turn (h : Ahead str pos text junk) (hne : text ≠ [])
    (locals : List LocalInfo) :
    (IsNumber (upTo [newline] (after [newline] (after [newline] text))) →
      ∀ fuel, parseFrameLoop str (fuel + 1) pos locals = .stopped .token) ∧
    (¬ IsNumber (upTo [newline] (after [newline] (after [newline] text))) → ∃ next locals',
      (∀ fuel, parseFrameLoop str (fuel + 1) pos locals = parseFrameLoop str fuel next locals') ∧
        Ahead str next (nextLocal text) junk) := by
  obtain ⟨c, tail, rfl⟩ := List.exists_cons_of_ne_nil hne
  have hc : c ≠ nul := fun heq => h.nul_notMem (heq ▸ List.mem_cons_self)
  obtain ⟨next, hfunction, hnext⟩ := extractToken_eq (e := .output) h [newline]
  obtain ⟨next, hname, hnext⟩ := extractToken_eq (e := .output) hnext [newline]
  constructor
  · intro hnumber fuel
    rw [parseFrameLoop, read_eq h.drop_eq, Outcome.returned_bind, if_neg hc, hfunction,
      Outcome.returned_bind]
    dsimp only
    rw [hname, Outcome.returned_bind]
    dsimp only
    rw [parseFileLineInfo_number hnext hnumber]
    rfl
  · intro hnumber
    obtain ⟨addr, next, hparse, hnext, -, -⟩ := parseFileLineInfo_eq hnext hnumber (.new 0)
      (fun _ harray => absurd harray.symm (Option.some_ne_none _))
    obtain ⟨frameOffset, next', hoffset, hnext'⟩ := extractNumber_eq hnext [' ']
    obtain ⟨size, next'', hsize, hnext''⟩ := extractUptr_eq hnext' [' ']
    obtain ⟨tagOffset, last, htag, hlast⟩ := extractUptr_eq hnext'' [newline]
    -- What is found is whatever the turn leads to.
    refine ⟨last, ?found, fun fuel => ?_, hlast⟩
    rotate_left
    rw [parseFrameLoop, read_eq h.drop_eq, Outcome.returned_bind, if_neg hc, hfunction,
      Outcome.returned_bind]
    dsimp only
    rw [hname, Outcome.returned_bind]
    dsimp only
    rw [hparse, Outcome.returned_bind]
    dsimp only
    rw [startsUnknown_eq hnext, Outcome.returned_bind, extractSptr, hoffset, Outcome.returned_bind]
    dsimp only
    rw [startsUnknown_eq hnext', Outcome.returned_bind, hsize, Outcome.returned_bind]
    dsimp only
    rw [startsUnknown_eq hnext'', Outcome.returned_bind, htag]
    rfl

theorem length_nextLocal_lt (hne : text ≠ []) : (nextLocal text).length < text.length := by
  unfold nextLocal
  calc
    _ ≤ (after [' '] (after [' ']
          (after [newline] (after [newline] (after [newline] text))))).length := length_after_le _ _
    _ ≤ (after [' '] (after [newline] (after [newline] (after [newline] text)))).length :=
      length_after_le _ _
    _ ≤ (after [newline] (after [newline] (after [newline] text))).length := length_after_le _ _
    _ ≤ (after [newline] (after [newline] text)).length := length_after_le _ _
    _ ≤ (after [newline] text).length := length_after_le _ _
    _ < text.length := length_after_lt _ hne

theorem parseFrameLoop_eq (h : Ahead str pos text junk)
    (hlines : ∀ line, FrameFileLine text line → ¬ IsNumber line) (locals : List LocalInfo) :
    ∃ locals', ∀ fuel > text.length, parseFrameLoop str fuel pos locals = .returned locals' := by
  induction hlength : text.length using Nat.strong_induction_on generalizing pos text locals with
  | _ n ih =>
    subst hlength
    rcases eq_or_ne text [] with rfl | hne
    · refine ⟨locals, fun fuel hfuel => ?_⟩
      obtain ⟨fuel, rfl⟩ := Nat.exists_eq_succ_of_ne_zero (Nat.zero_lt_of_lt hfuel).ne'
      exact parseFrameLoop_end h fuel locals
    · obtain ⟨next, locals₁, hturn, hnext⟩ :=
        (parseFrameLoop_turn h hne locals).2 (hlines _ (.first hne))
      have hlt := length_nextLocal_lt hne
      obtain ⟨locals', hrest⟩ :=
        ih _ hlt hnext (fun line hline => hlines line (.later hne hline)) locals₁ rfl
      refine ⟨locals', fun fuel hfuel => ?_⟩
      obtain ⟨fuel, rfl⟩ := Nat.exists_eq_succ_of_ne_zero (Nat.zero_lt_of_lt hfuel).ne'
      rw [hturn, hrest fuel (by omega)]

theorem parseFrameLoop_number {line : List Char} (hline : FrameFileLine text line)
    (hnumber : IsNumber line) {fuel : ℕ} (h : Ahead str pos text junk) (hfuel : text.length < fuel)
    (locals : List LocalInfo) : parseFrameLoop str fuel pos locals = .stopped .token := by
  induction hline generalizing fuel pos locals with
  | @first text hne =>
    obtain ⟨fuel, rfl⟩ := Nat.exists_eq_succ_of_ne_zero (Nat.zero_lt_of_lt hfuel).ne'
    exact (parseFrameLoop_turn h hne locals).1 hnumber fuel
  | @later text line hne hline ih =>
    obtain ⟨fuel, rfl⟩ := Nat.exists_eq_succ_of_ne_zero (Nat.zero_lt_of_lt hfuel).ne'
    obtain ⟨hstop, hnext⟩ := parseFrameLoop_turn h hne locals
    by_cases hfirst : IsNumber (upTo [newline] (after [newline] (after [newline] text)))
    · exact hstop hfirst fuel
    · obtain ⟨next, locals', hturn, hnext⟩ := hnext hfirst
      have hlt := length_nextLocal_lt hne
      rw [hturn]
      exact ih hnumber hnext (by omega) locals'

theorem parseSymbolizeFrameOutput_iff (hnul : nul ∉ text) (locals : List LocalInfo) :
    (∃ locals', ∀ fuel > text.length,
        parseSymbolizeFrameOutput fuel (text ++ [nul]) locals = .returned locals') ↔
      unknownName <+: text ∨ ∀ line, FrameFileLine text line → ¬ IsNumber line := by
  unfold parseSymbolizeFrameOutput
  rw [startsUnknown_eq (ahead_zero hnul), ← List.isPrefixOf_iff_prefix]
  simp only [Outcome.returned_bind]
  cases unknownName.isPrefixOf text with
  | true => exact iff_of_true ⟨locals, fun _ _ => rfl⟩ (Or.inl rfl)
  | false =>
    rw [or_iff_right Bool.false_ne_true]
    change (∃ locals', ∀ fuel > text.length,
      parseFrameLoop (text ++ [nul]) fuel 0 locals = .returned locals') ↔ _
    constructor
    · rintro ⟨locals', hlocals⟩ line hline hnumber
      have hrun := hlocals (text.length + 1) (Nat.lt_succ_self _)
      rw [parseFrameLoop_number hline hnumber (ahead_zero hnul) (Nat.lt_succ_self _)] at hrun
      cases hrun
    · exact fun hlines => parseFrameLoop_eq (ahead_zero hnul) hlines locals

/-! ## All of them -/

theorem parseSymbolizeDataOutput_eq (hnul : nul ∉ text) :
    ∃ info, parseSymbolizeDataOutput (text ++ [nul]) = .returned info := by
  obtain ⟨pos, hname, hpos⟩ := extractToken_eq (e := .output) (ahead_zero hnul) [newline]
  obtain ⟨start, pos, hstart, hpos⟩ := extractUptr_eq hpos [' ']
  obtain ⟨size, pos, hsize, hpos⟩ := extractUptr_eq hpos [newline]
  obtain ⟨pos, hfile, hpos⟩ := extractToken_eq (e := .output) hpos [':']
  obtain ⟨line, pos, hline, -⟩ := extractUptr_eq hpos [newline]
  unfold parseSymbolizeDataOutput
  rw [hname, Outcome.returned_bind]
  dsimp only
  rw [hstart, Outcome.returned_bind]
  dsimp only
  rw [hsize, Outcome.returned_bind]
  dsimp only
  rw [hfile, Outcome.returned_bind]
  dsimp only
  rw [hline]
  exact ⟨_, rfl⟩

/-- The parsers of a symbolizer's output finish on every string, and inside their arrays, exactly
when none of the file lines that they come to is a colon and a number. -/
theorem outputParsers_iff (hnul : nul ∉ text) {res : AddressInfo} (hres : Named res.file)
    (locals : List LocalInfo) :
    ((∃ frames, ∀ fuel > text.length,
        parseSymbolizePCOutput fuel (text ++ [nul]) res = .returned frames) ↔
      ∀ line, PCFileLine text line → ¬ IsNumber line) ∧
    (∃ info, parseSymbolizeDataOutput (text ++ [nul]) = .returned info) ∧
    ((∃ locals', ∀ fuel > text.length,
        parseSymbolizeFrameOutput fuel (text ++ [nul]) locals = .returned locals') ↔
      unknownName <+: text ∨ ∀ line, FrameFileLine text line → ¬ IsNumber line) :=
  ⟨parseSymbolizePCOutput_iff hnul hres, parseSymbolizeDataOutput_eq hnul,
    parseSymbolizeFrameOutput_iff hnul locals⟩

/-- The function f in a file without a name, at line 1. -/
def unnamedFile : List Char := ['f', newline, ':', '1', newline]

/-- The copy of the file line is left. -/
theorem unnamedFile_outside : nul ∉ unnamedFile ∧ ∀ fuel > 5,
    parseSymbolizePCOutput fuel (unnamedFile ++ [nul]) (.new 0) = .stopped .token := by
  have hnul : nul ∉ unnamedFile := by decide
  have hnumber : IsNumber (upTo [newline] (after [newline] unnamedFile)) :=
    ⟨['1'], by decide, List.cons_ne_nil _ _, List.all_eq_true.mp (by decide)⟩
  have hline : PCFileLine unnamedFile (upTo [newline] (after [newline] unnamedFile)) :=
    .first (by decide)
  have hres : Named (AddressInfo.new 0).file := fun _ harray =>
    absurd harray.symm (Option.some_ne_none _)
  refine ⟨hnul, fun fuel hfuel => ?_⟩
  unfold parseSymbolizePCOutput
  rw [parsePCLoop_number hres hline hnumber (ahead_zero hnul) hfuel]
  rfl

/-- The function f in a file a, at line 1. -/
def namedFile : List Char := ['f', newline, 'a', ':', '1', newline]

/-- The theorem for it. -/
theorem outputParsers_iff_named :
    ((∃ frames, ∀ fuel > 6,
        parseSymbolizePCOutput fuel (namedFile ++ [nul]) (.new 0) = .returned frames) ↔
      ∀ line, PCFileLine namedFile line → ¬ IsNumber line) ∧
    (∃ info, parseSymbolizeDataOutput (namedFile ++ [nul]) = .returned info) ∧
    ((∃ locals', ∀ fuel > 6,
        parseSymbolizeFrameOutput fuel (namedFile ++ [nul]) [] = .returned locals') ↔
      unknownName <+: namedFile ∨ ∀ line, FrameFileLine namedFile line → ¬ IsNumber line) :=
  @outputParsers_iff namedFile (by decide) (.new 0)
    (fun _ harray => absurd harray.symm (Option.some_ne_none _)) []

end Tasan.Symbolizer
