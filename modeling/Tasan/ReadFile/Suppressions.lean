import Mathlib.Data.List.DropRight
import Tasan.FlagParser.Model

/-!
# The parser of suppressions

`SuppressionContext::Parse` of `sanitizer_suppressions.cpp`, on a pointer into a text. The pointer is the
list of the characters from it to the end of the memory, and a read behind that is an outcome of its own
(`Stop.overrun`). A terminated text is read up to its NUL at most (`parse_terminated`): each line is
searched for its end before anything else is done with it, and a type that matches ends before the line
does, since it has no newline in it.
-/

namespace Tasan.Suppressions

open FlagParser (nul)

/-- The newline. -/
def newline : Char := Char.ofNat 10

/-- The tab. -/
def tab : Char := Char.ofNat 9

/-- The carriage return. -/
def carriageReturn : Char := Char.ofNat 13

/-- The ways in which the parser stops. -/
inductive Stop
  /-- `CHECK(can_parse_)`. -/
  | cannotParse
  /-- `failed to parse suppressions.` -/
  | failedToParse
  /-- Not a death: memory outside of the text is read. -/
  | overrun
  deriving DecidableEq

/-- `Suppression`, without its counters, which the parser does not touch. -/
structure Suppression where
  type : List Char
  templ : List Char
  deriving DecidableEq

/-- `SuppressionContext`. -/
structure Context where
  suppressionTypes : List (List Char)
  suppressions : List Suppression := []
  hasSuppressionType : ℕ → Bool := fun _ => false
  canParse : Bool := true

/-- The loop over the blanks at the beginning of a line. -/
def skipBlanks : List Char → Outcome Stop (List Char)
  | [] => .stopped .overrun
  | c :: rest => if c = ' ' ∨ c = tab then skipBlanks rest else .returned (c :: rest)

/-- `internal_strchr` for the newline, or `internal_strlen`: the line, and the text from its end on. -/
def findEnd : List Char → Outcome Stop (List Char × List Char)
  | [] => .stopped .overrun
  | c :: rest =>
    if c = newline ∨ c = nul then .returned ([], c :: rest)
    else do
      let (line, tail) ← findEnd rest
      return (c :: line, tail)

/-- A character that `end2` is moved back over. -/
def isBlank (c : Char) : Bool := c = ' ' || c = tab || c = carriageReturn

/-- The characters of the line up to `end2`. -/
def trimEnd (line : List Char) : List Char := line.rdropWhile isBlank

/-- `StripPrefix`. -/
def stripPrefix : List Char → List Char → Outcome Stop (Option (List Char))
  | [], _ => .stopped .overrun
  | c :: str, [] => .returned (some (c :: str))
  | c :: str, p :: pre =>
    if c ≠ nul ∧ c = p then stripPrefix str pre else .returned none

/-- The loop over the types, from one index on: the index and the text of the type that matches, and the
text after its colon. -/
def findType (text : List Char) : ℕ → List (List Char) →
    Outcome Stop (Option (ℕ × List Char × List Char))
  | _, [] => .returned none
  | i, type :: types => do
    match ← stripPrefix text type with
    | some (c :: rest) =>
      if c = ':' then return some (i, type, rest) else findType text (i + 1) types
    | some [] => .stopped .overrun
    | none => findType text (i + 1) types

/-- The suppression on a line that is neither empty nor a comment. `text` is the text from the line on. -/
def addSuppression (ctx : Context) (text line : List Char) : Outcome Stop Context := do
  match ← findType text 0 ctx.suppressionTypes with
  | none => .stopped .failedToParse
  | some (i, type, rest) =>
    let start := text.length - rest.length
    let end2 := (trimEnd line).length
    -- The copy of `end2 - line` bytes.
    if end2 < start then .stopped .overrun
    else
      return { ctx with
        suppressions := ctx.suppressions ++ [{ type := type, templ := rest.take (end2 - start) }]
        hasSuppressionType := Function.update ctx.hasSuppressionType i true }

/-- The line is added unless it is empty or a comment. -/
def addLine (ctx : Context) (text line : List Char) : Outcome Stop Context :=
  if line ≠ [] ∧ line.head? ≠ some '#' then addSuppression ctx text line else .returned ctx

/-- One round of the loop over the lines, and the text of the next one. -/
def parseLine (ctx : Context) (text : List Char) : Outcome Stop (Context × Option (List Char)) := do
  let text ← skipBlanks text
  let (line, tail) ← findEnd text
  let ctx ← addLine ctx text line
  match tail with
  | [] => .stopped .overrun
  | c :: rest => return (ctx, if c = nul then none else some rest)

/-- The loop over the lines. -/
def parseLines : ℕ → Context → List Char → Outcome Stop Context
  | 0, _, _ => .unfinished
  | fuel + 1, ctx, text => do
    match ← parseLine ctx text with
    | (ctx, none) => return ctx
    | (ctx, some text) => parseLines fuel ctx text

/-- `Parse`. Each line takes a byte at least. -/
def parse (ctx : Context) (str : List Char) : Outcome Stop Context :=
  if ctx.canParse then parseLines (str.length + 1) ctx str else .stopped .cannotParse

/-! ## Terminated texts -/

theorem skipBlanks_eq {text : List Char} (h : nul ∈ text) :
    ∃ text', skipBlanks text = .returned text' ∧ nul ∈ text' ∧ text'.length ≤ text.length := by
  induction text with
  | nil => exact absurd h List.not_mem_nil
  | cons c rest ih =>
    rw [skipBlanks]
    split_ifs with hc
    · have hne : nul ≠ c := by
        rintro rfl
        exact absurd hc (by decide)
      obtain ⟨text', hrun, hmem, hlen⟩ := ih ((List.mem_cons.mp h).resolve_left hne)
      exact ⟨text', hrun, hmem, hlen.trans (Nat.le_succ _)⟩
    · exact ⟨_, rfl, h, le_rfl⟩

theorem findEnd_eq {text : List Char} (h : nul ∈ text) :
    ∃ line c tail, findEnd text = .returned (line, c :: tail) ∧ text = line ++ c :: tail ∧
      (c = nul ∨ c = newline ∧ nul ∈ tail) ∧ nul ∉ line ∧ newline ∉ line := by
  induction text with
  | nil => exact absurd h List.not_mem_nil
  | cons a rest ih =>
    rw [findEnd]
    split_ifs with ha
    · refine ⟨[], a, rest, rfl, rfl, ?_, List.not_mem_nil, List.not_mem_nil⟩
      rcases ha with rfl | rfl
      · exact Or.inr ⟨rfl, (List.mem_cons.mp h).resolve_left (by decide)⟩
      · exact Or.inl rfl
    · rw [not_or] at ha
      obtain ⟨line, c, tail, hrun, htext, hc, hnul, hnewline⟩ :=
        ih ((List.mem_cons.mp h).resolve_left (Ne.symm ha.2))
      refine ⟨a :: line, c, tail, ?_, by rw [htext]; rfl, hc, ?_, ?_⟩
      · rw [hrun]
        rfl
      · exact List.not_mem_cons_of_ne_of_not_mem (Ne.symm ha.2) hnul
      · exact List.not_mem_cons_of_ne_of_not_mem (Ne.symm ha.1) hnewline

theorem stripPrefix_eq {text : List Char} (type : List Char) (h : nul ∈ text) :
    ∃ r, stripPrefix text type = .returned r ∧
      ∀ rest, r = some rest → text = type ++ rest ∧ nul ∉ type ∧ nul ∈ rest := by
  induction text generalizing type with
  | nil => exact absurd h List.not_mem_nil
  | cons c text ih =>
    cases type with
    | nil =>
      refine ⟨_, rfl, fun rest hrest => ?_⟩
      obtain rfl := Option.some.inj hrest
      exact ⟨rfl, List.not_mem_nil, h⟩
    | cons p pre =>
      rw [stripPrefix]
      split_ifs with hc
      · obtain ⟨hne, rfl⟩ := hc
        obtain ⟨r, hrun, hr⟩ := ih pre ((List.mem_cons.mp h).resolve_left (Ne.symm hne))
        refine ⟨r, hrun, fun rest hrest => ?_⟩
        obtain ⟨rfl, hpre, hmem⟩ := hr rest hrest
        exact ⟨rfl, List.not_mem_cons_of_ne_of_not_mem (Ne.symm hne) hpre, hmem⟩
      · exact ⟨none, rfl, nofun⟩

/-- The search for a type ends, and a type that it finds stands before a colon in the text. -/
theorem findType_eq {text : List Char} (h : nul ∈ text) (i : ℕ) (types : List (List Char)) :
    ∃ r, findType text i types = .returned r ∧
      ∀ j type rest, r = some (j, type, rest) →
        type ∈ types ∧ nul ∉ type ∧ text = type ++ ':' :: rest := by
  induction types generalizing i with
  | nil => exact ⟨none, rfl, nofun⟩
  | cons type types ih =>
    obtain ⟨r, hrun, hr⟩ := ih (i + 1)
    have hrest : ∀ j t rest, r = some (j, t, rest) →
        t ∈ type :: types ∧ nul ∉ t ∧ text = t ++ ':' :: rest :=
      fun j t rest h => ⟨List.mem_cons_of_mem _ (hr j t rest h).1, (hr j t rest h).2⟩
    obtain ⟨o, hstrip, ho⟩ := stripPrefix_eq type h
    rw [findType, hstrip, Outcome.returned_bind]
    cases o with
    | none => exact ⟨r, hrun, hrest⟩
    | some s =>
      obtain ⟨htext, hnul, hmem⟩ := ho s rfl
      cases s with
      | nil => exact absurd hmem List.not_mem_nil
      | cons c rest =>
        dsimp only
        split_ifs with hc
        · refine ⟨_, rfl, fun j t rest' heq => ?_⟩
          obtain ⟨rfl, rfl, rfl⟩ : i = j ∧ type = t ∧ rest = rest' := by simpa using heq
          exact ⟨List.mem_cons_self, hnul, by rw [htext, hc]⟩
        · exact ⟨r, hrun, hrest⟩

theorem exists_eq_append_of_append_eq {l l' r r' : List Char} {c : Char} (h : l ++ r = l' ++ c :: r')
    (hc : c ∉ l) : ∃ mid, l' = l ++ mid := by
  rcases List.append_eq_append_iff.mp h with ⟨mid, hl, -⟩ | ⟨mid, hl, hr⟩
  · exact ⟨mid, hl⟩
  · cases mid with
    | nil => exact ⟨[], by rw [hl]; simp⟩
    | cons a mid =>
      obtain ⟨rfl, -⟩ : c = a ∧ r' = mid ++ r := by simpa using hr
      exact absurd (by rw [hl]; simp) hc

theorem length_le_trimEnd {a : Char} (ha : isBlank a = false) (l mid : List Char) :
    (l ++ [a]).length ≤ (trimEnd (l ++ [a] ++ mid)).length := by
  have hneg : ¬ isBlank a = true := by simp [ha]
  induction mid using List.reverseRecOn with
  | nil =>
    rw [List.append_nil, trimEnd, List.rdropWhile_concat_neg _ _ _ hneg]
  | append_singleton mid x ih =>
    rw [← List.append_assoc, trimEnd]
    rcases Bool.eq_false_or_eq_true (isBlank x) with hx | hx
    · rw [List.rdropWhile_concat_pos _ _ _ hx]
      exact ih
    · rw [List.rdropWhile_concat_neg _ _ _ (by simp [hx])]
      simp only [List.length_append]
      omega

variable {ctx : Context} (htypes : ∀ type ∈ ctx.suppressionTypes, newline ∉ type)

include htypes

/-- A line is added within the text, when no type has a newline in it. -/
theorem addSuppression_ne {line tail : List Char} {c : Char}
    (hc : c = nul ∨ c = newline ∧ nul ∈ tail) :
    addSuppression ctx (line ++ c :: tail) line = .stopped .failedToParse ∨
      ∃ ctx', addSuppression ctx (line ++ c :: tail) line = .returned ctx' ∧
        ctx'.suppressionTypes = ctx.suppressionTypes := by
  have hmem : nul ∈ line ++ c :: tail := by
    refine List.mem_append_right _ ?_
    rcases hc with rfl | ⟨-, h⟩
    · exact List.mem_cons_self
    · exact List.mem_cons_of_mem _ h
  obtain ⟨r, hrun, hr⟩ := findType_eq hmem 0 ctx.suppressionTypes
  unfold addSuppression
  rw [hrun, Outcome.returned_bind]
  cases r with
  | none => exact Or.inl rfl
  | some x =>
    obtain ⟨i, type, rest⟩ := x
    obtain ⟨htype, hnul, htext⟩ := hr i type rest rfl
    -- The type and the colon are in the line, and not blank at the end.
    have hnot : c ∉ type ++ [':'] := by
      have hne : c ≠ ':' := by
        rcases hc with rfl | ⟨rfl, -⟩
        · decide
        · decide
      have hout : c ∉ type := by
        rcases hc with rfl | ⟨rfl, -⟩
        · exact hnul
        · exact htypes type htype
      simp [hne, hout]
    obtain ⟨mid, rfl⟩ := exists_eq_append_of_append_eq
      (show type ++ [':'] ++ rest = line ++ c :: tail by rw [htext]; simp) hnot
    have hlen := length_le_trimEnd (show isBlank ':' = false by decide) type mid
    have htotal := congrArg List.length htext
    simp only [List.length_append, List.length_cons, List.length_nil] at hlen htotal
    dsimp only
    rw [if_neg]
    · exact Or.inr ⟨_, rfl, rfl⟩
    · simp only [List.length_append, List.length_cons, List.length_nil]
      omega

/-- A terminated text is parsed, or fails to parse. -/
theorem parseLines_ne {text : List Char} (h : nul ∈ text) {fuel : ℕ} (hfuel : text.length < fuel) :
    parseLines fuel ctx text = .stopped .failedToParse ∨
      ∃ ctx', parseLines fuel ctx text = .returned ctx' := by
  induction fuel generalizing text ctx with
  | zero => omega
  | succ fuel ih =>
    obtain ⟨text', hskip, hmem, hlen⟩ := skipBlanks_eq h
    obtain ⟨line, c, tail, hfind, rfl, hc, -⟩ := findEnd_eq hmem
    have hline : addLine ctx (line ++ c :: tail) line = .stopped .failedToParse ∨
        ∃ ctx', addLine ctx (line ++ c :: tail) line = .returned ctx' ∧
          ctx'.suppressionTypes = ctx.suppressionTypes := by
      unfold addLine
      split_ifs
      · exact addSuppression_ne htypes hc
      · exact Or.inr ⟨ctx, rfl, rfl⟩
    rw [parseLines, parseLine, hskip, Outcome.returned_bind, hfind, Outcome.returned_bind]
    dsimp only
    rcases hline with hfail | ⟨ctx', hrun, hsame⟩
    · rw [hfail]
      exact Or.inl rfl
    · rw [hrun, Outcome.returned_bind]
      dsimp only [Outcome.pure_eq, Outcome.returned_bind]
      split_ifs with hnul
      · exact Or.inr ⟨ctx', rfl⟩
      · -- The next line is in the rest of the text.
        have htail := (hc.resolve_left hnul).2
        simp only [List.length_append, List.length_cons] at hlen
        exact ih (by rw [hsame]; exact htypes) htail (by omega)

theorem parse_terminated {text : List Char} (h : nul ∈ text) :
    parse ctx text ≠ .stopped .overrun ∧ parse ctx text ≠ .unfinished := by
  unfold parse
  split_ifs
  · rcases parseLines_ne htypes h (Nat.lt_succ_self text.length) with hrun | ⟨ctx', hrun⟩
    · rw [hrun]
      exact ⟨nofun, nofun⟩
    · rw [hrun]
      exact ⟨nofun, nofun⟩
  · exact ⟨nofun, nofun⟩

end Tasan.Suppressions
