import Tasan.ReadFile.Suppressions

/-!
# Suppressions line by line

What the parser makes of a line does not depend on the text around it: a line is accepted if it is
empty or a comment behind its leading blanks, or if a type stands before its first colon
(`Accepted`). So the run over a text is a run over its lines (`parseLines_eq`).

The parser looks whether a line is empty before it takes the blanks at the end away. A line of a
text with CRLF line endings is therefore not empty, whatever the same line is with LF endings:
`parse_crlf_iff` says which texts are accepted with both.
-/

namespace Tasan.Suppressions

open FlagParser (nul)

/-! ## Lines -/

/-- A blank that `line` is moved over. -/
def isLeading (c : Char) : Bool := c = ' ' || c = tab

/-- A line without its leading blanks. -/
def trimStart (line : List Char) : List Char := line.dropWhile isLeading

/-- The characters before the first colon. -/
def beforeColon (line : List Char) : List Char := line.takeWhile (· ≠ ':')

/-- The characters after the first colon. -/
def afterColon (line : List Char) : List Char := (line.dropWhile (· ≠ ':')).tail

/-- The suppression on a line, if it is neither empty nor a comment. -/
def lineEntry (line : List Char) : Option Suppression :=
  let line := trimEnd (trimStart line)
  if line = [] ∨ line.head? = some '#' then none
  else some { type := beforeColon line, templ := afterColon line }

/-- The parser accepts a line without its leading blanks. -/
def Accepted (types : List (List Char)) (line : List Char) : Prop :=
  line = [] ∨ line.head? = some '#' ∨ ':' ∈ line ∧ beforeColon line ∈ types

/-- The suppression on a line is added, unless the line is empty or a comment. -/
def Context.push (ctx : Context) (line : List Char) : Context :=
  if line ≠ [] ∧ line.head? ≠ some '#' then
    { ctx with
      suppressions := ctx.suppressions ++
        [{ type := beforeColon line, templ := afterColon (trimEnd line) }]
      hasSuppressionType := Function.update ctx.hasSuppressionType
        (ctx.suppressionTypes.idxOf (beforeColon line)) true }
  else ctx

instance (types : List (List Char)) (line : List Char) : Decidable (Accepted types line) :=
  inferInstanceAs (Decidable (_ ∨ _ ∨ _ ∧ _))

/-- The run over the lines of a text. -/
def runLines (ctx : Context) : List (List Char) → Outcome Stop Context
  | [] => .returned ctx
  | line :: lines =>
    if Accepted ctx.suppressionTypes (trimStart line) then
      runLines (ctx.push (trimStart line)) lines
    else .stopped .failedToParse

/-- A text with CRLF line endings in place of LF. -/
def crlf (text : List Char) : List Char :=
  text.flatMap fun c => if c = newline then [carriageReturn, newline] else [c]

variable {ctx : Context} {line tail type rest : List Char} {c : Char}

/-! ## A line -/

theorem eq_beforeColon (h : ':' ∈ line) : line = beforeColon line ++ ':' :: afterColon line := by
  induction line with
  | nil => exact absurd h List.not_mem_nil
  | cons a line ih =>
    unfold beforeColon afterColon at ih ⊢
    by_cases ha : a = ':'
    · subst ha
      rfl
    · have hpos : decide (a ≠ ':') = true := decide_eq_true ha
      rw [List.takeWhile_cons, List.dropWhile_cons, if_pos hpos, if_pos hpos, List.cons_append,
        ← ih ((List.mem_cons.mp h).resolve_left (Ne.symm ha))]

theorem beforeColon_append (htype : ':' ∉ type) (rest : List Char) :
    beforeColon (type ++ ':' :: rest) = type ∧ afterColon (type ++ ':' :: rest) = rest := by
  have hpos : ∀ a ∈ type, decide (a ≠ ':') = true := fun a ha =>
    decide_eq_true (ne_of_mem_of_not_mem ha htype)
  unfold beforeColon afterColon
  rw [List.takeWhile_append_of_pos hpos, List.dropWhile_append_of_pos hpos]
  exact ⟨List.append_nil _, rfl⟩

/-- A type is compared with the line, and no further. -/
theorem stripPrefix_line (hnul : nul ∉ line) (htype : c = nul ∨ c ∉ type) :
    stripPrefix (line ++ c :: tail) type =
      .returned (if type <+: line then some (line.drop type.length ++ c :: tail) else none) := by
  induction line generalizing type with
  | nil =>
    cases type with
    | nil => rfl
    | cons p type =>
      rw [List.nil_append, stripPrefix, if_neg, if_neg (by simp)]
      rintro ⟨hne, rfl⟩
      exact htype.elim hne fun h => h List.mem_cons_self
  | cons a line ih =>
    cases type with
    | nil => rfl
    | cons p type =>
      have ha : a ≠ nul := fun h => hnul (h ▸ List.mem_cons_self)
      rw [List.cons_append, stripPrefix]
      by_cases hp : a = p
      · subst hp
        rw [if_pos ⟨ha, rfl⟩, ih (fun h => hnul (List.mem_cons_of_mem a h))
          (htype.imp_right fun h hmem => h (List.mem_cons_of_mem a hmem))]
        simp only [List.cons_prefix_cons, true_and, List.length_cons, List.drop_succ_cons]
      · rw [if_neg fun h => hp h.2, if_neg fun h => hp (List.cons_prefix_cons.mp h).1.symm]

/-- The type that is found is the one before the first colon of the line. -/
theorem findType_line (hnul : nul ∉ line) (hc : c = nul ∨ c = newline) {types : List (List Char)}
    (htypes : ∀ type ∈ types, newline ∉ type ∧ ':' ∉ type) (i : ℕ) :
    findType (line ++ c :: tail) i types =
      .returned (if ':' ∈ line ∧ beforeColon line ∈ types then
        some (i + types.idxOf (beforeColon line), beforeColon line, afterColon line ++ c :: tail)
      else none) := by
  induction types generalizing i with
  | nil => rw [findType, if_neg (by simp)]
  | cons type types ih =>
    obtain ⟨hnewline, hcolon⟩ := htypes type List.mem_cons_self
    have hrest := ih (fun t ht => htypes t (List.mem_cons_of_mem type ht)) (i + 1)
    have hctype : c = nul ∨ c ∉ type := by
      rcases hc with rfl | rfl
      · exact Or.inl rfl
      · exact Or.inr hnewline
    have hcne : c ≠ ':' := by
      rcases hc with rfl | rfl
      · decide
      · decide
    -- the type is passed over if it does not stand before a colon
    have hskip : (∀ q, line ≠ type ++ ':' :: q) →
        findType (line ++ c :: tail) (i + 1) types =
          .returned (if ':' ∈ line ∧ beforeColon line ∈ type :: types then
            some (i + (type :: types).idxOf (beforeColon line), beforeColon line,
              afterColon line ++ c :: tail)
          else none) := by
      intro hq
      rw [hrest]
      by_cases hmem : ':' ∈ line
      · have hne : beforeColon line ≠ type := fun h =>
          hq (afterColon line) (h ▸ eq_beforeColon hmem)
        simp only [List.idxOf_cons_ne _ (Ne.symm hne), List.mem_cons, hne, false_or, Nat.add_assoc,
          Nat.add_comm 1]
      · rw [if_neg fun h => hmem h.1, if_neg fun h => hmem h.1]
    rw [findType, stripPrefix_line hnul hctype, Outcome.returned_bind]
    by_cases hprefix : type <+: line
    · obtain ⟨q, rfl⟩ := hprefix
      rw [if_pos (List.prefix_append type q), List.drop_left]
      cases q with
      | nil =>
        dsimp only [List.nil_append]
        rw [if_neg hcne]
        exact hskip fun q hq => absurd (List.append_cancel_left hq) (List.cons_ne_nil _ _).symm
      | cons d q =>
        dsimp only [List.cons_append]
        by_cases hd : d = ':'
        · subst hd
          obtain ⟨hbefore, hafter⟩ := beforeColon_append hcolon q
          rw [if_pos rfl, hbefore, hafter, if_pos ⟨by simp, List.mem_cons_self⟩,
            List.idxOf_cons_self]
          rfl
        · rw [if_neg hd]
          exact hskip fun q hq => hd (List.cons.inj (List.append_cancel_left hq)).1
    · rw [if_neg hprefix]
      exact hskip fun q hq => hprefix (hq ▸ List.prefix_append type (':' :: q))

theorem trimEnd_colon (type rest : List Char) :
    type.length + 1 ≤ (trimEnd (type ++ ':' :: rest)).length ∧
      trimEnd (type ++ ':' :: rest) =
        type ++ ':' :: rest.take ((trimEnd (type ++ ':' :: rest)).length - (type.length + 1)) := by
  have hprefix : trimEnd (type ++ ':' :: rest) <+: type ++ ':' :: rest :=
    List.rdropWhile_prefix isBlank _
  have hlen : type.length + 1 ≤ (trimEnd (type ++ ':' :: rest)).length := by
    have hle := length_le_trimEnd (show isBlank ':' = false by decide) type rest
    simpa using hle
  refine ⟨hlen, ?_⟩
  calc trimEnd (type ++ ':' :: rest)
      = (type ++ [':'] ++ rest).take (trimEnd (type ++ ':' :: rest)).length := by
        rw [List.append_assoc, List.singleton_append]
        exact List.prefix_iff_eq_take.mp hprefix
    _ = type ++ ':' :: rest.take ((trimEnd (type ++ ':' :: rest)).length - (type.length + 1)) := by
        rw [List.take_append, List.take_of_length_le (by simpa using hlen)]
        simp

/-- What the parser does with a line. -/
theorem addLine_eq (htypes : ∀ type ∈ ctx.suppressionTypes, newline ∉ type ∧ ':' ∉ type)
    (hnul : nul ∉ line) (hc : c = nul ∨ c = newline) :
    addLine ctx (line ++ c :: tail) line =
      if Accepted ctx.suppressionTypes line then .returned (ctx.push line)
      else .stopped .failedToParse := by
  unfold addLine Context.push
  by_cases hline : line ≠ [] ∧ line.head? ≠ some '#'
  · rw [if_pos hline, if_pos hline, addSuppression, findType_line hnul hc htypes,
      Outcome.returned_bind]
    by_cases hfound : ':' ∈ line ∧ beforeColon line ∈ ctx.suppressionTypes
    · have haccepted : Accepted ctx.suppressionTypes line := Or.inr (Or.inr hfound)
      rw [if_pos hfound, if_pos haccepted]
      obtain ⟨hlen, htrim⟩ := trimEnd_colon (beforeColon line) (afterColon line)
      have hcolon := (htypes _ hfound.2).2
      have heq := eq_beforeColon hfound.1
      have hafter := (beforeColon_append hcolon
        ((afterColon line).take ((trimEnd line).length - ((beforeColon line).length + 1)))).2
      rw [← heq] at hlen htrim
      rw [← htrim] at hafter
      have htotal := congrArg List.length heq
      rw [List.length_append, List.length_cons] at htotal
      -- the type and the colon stand before the rest
      have hstart : (line ++ c :: tail).length - (afterColon line ++ c :: tail).length =
          (beforeColon line).length + 1 := by
        simp only [List.length_append, List.length_cons]
        omega
      have htempl : (afterColon line ++ c :: tail).take
          ((trimEnd line).length - ((beforeColon line).length + 1)) =
            afterColon (trimEnd line) := by
        have hle : (trimEnd line).length ≤ line.length :=
          (List.rdropWhile_prefix isBlank line).length_le
        rw [hafter, List.take_append_of_le_length (by omega)]
      dsimp only
      rw [hstart, if_neg (by omega), htempl, Nat.zero_add]
      rfl
    · have hnot : ¬ Accepted ctx.suppressionTypes line := by
        rintro (h | h | h)
        · exact hline.1 h
        · exact hline.2 h
        · exact hfound h
      rw [if_neg hfound, if_neg hnot]
  · have haccepted : Accepted ctx.suppressionTypes line := by
      by_cases hnil : line = []
      · exact Or.inl hnil
      · exact Or.inr (Or.inl (not_not.mp fun h => hline ⟨hnil, h⟩))
    rw [if_neg hline, if_neg hline, if_pos haccepted]

theorem push_types (ctx : Context) (line : List Char) :
    (ctx.push line).suppressionTypes = ctx.suppressionTypes := by
  unfold Context.push
  split_ifs
  · rfl
  · rfl

/-! ## A text -/

theorem skipBlanks_line (hc : c = nul ∨ c = newline) :
    skipBlanks (line ++ c :: tail) = .returned (trimStart line ++ c :: tail) := by
  have hne : ¬ (c = ' ' ∨ c = tab) := by
    rcases hc with rfl | rfl
    · decide
    · decide
  induction line with
  | nil => exact if_neg hne
  | cons a line ih =>
    rw [List.cons_append, skipBlanks]
    by_cases ha : a = ' ' ∨ a = tab
    · have hlead : isLeading a = true := by simpa [isLeading] using ha
      rw [if_pos ha, ih, trimStart, trimStart, List.dropWhile_cons, if_pos hlead]
    · have hlead : ¬ isLeading a = true := by simpa [isLeading] using ha
      rw [if_neg ha, trimStart, List.dropWhile_cons, if_neg hlead]
      rfl

theorem findEnd_line (hnul : nul ∉ line) (hnewline : newline ∉ line) (hc : c = nul ∨ c = newline) :
    findEnd (line ++ c :: tail) = .returned (line, c :: tail) := by
  induction line with
  | nil => exact if_pos hc.symm
  | cons a line ih =>
    have ha : ¬ (a = newline ∨ a = nul) := by
      rintro (rfl | rfl)
      · exact hnewline List.mem_cons_self
      · exact hnul List.mem_cons_self
    rw [List.cons_append, findEnd, if_neg ha, ih (fun h => hnul (List.mem_cons_of_mem a h))
      (fun h => hnewline (List.mem_cons_of_mem a h))]
    rfl

theorem parseLine_eq (htypes : ∀ type ∈ ctx.suppressionTypes, newline ∉ type ∧ ':' ∉ type)
    (hnul : nul ∉ line) (hnewline : newline ∉ line) (hc : c = nul ∨ c = newline) :
    parseLine ctx (line ++ c :: tail) =
      if Accepted ctx.suppressionTypes (trimStart line) then
        .returned (ctx.push (trimStart line), if c = nul then none else some tail)
      else .stopped .failedToParse := by
  have hsub : ∀ a ∈ trimStart line, a ∈ line := fun a ha => (List.dropWhile_sublist _).mem ha
  have hnul' : nul ∉ trimStart line := fun h => hnul (hsub nul h)
  have hnewline' : newline ∉ trimStart line := fun h => hnewline (hsub newline h)
  rw [parseLine, skipBlanks_line hc, Outcome.returned_bind, findEnd_line hnul' hnewline' hc,
    Outcome.returned_bind]
  dsimp only
  rw [addLine_eq htypes hnul' hc]
  split_ifs
  · rfl
  · rfl
  · rfl
  · rfl

/-- A text is the run over its lines. -/
theorem parseLines_eq {text : List Char} {fuel : ℕ} (hnul : nul ∉ text)
    (hfuel : text.length < fuel)
    (htypes : ∀ type ∈ ctx.suppressionTypes, newline ∉ type ∧ ':' ∉ type) :
    parseLines fuel ctx (text ++ [nul]) = runLines ctx (text.splitOn newline) := by
  induction fuel generalizing text ctx with
  | zero => omega
  | succ fuel ih =>
    by_cases hmem : newline ∈ text
    · obtain ⟨line, rest, rfl, hline⟩ := List.eq_append_cons_of_mem hmem
      rw [List.mem_append, List.mem_cons, not_or, not_or] at hnul
      rw [List.length_append, List.length_cons] at hfuel
      rw [List.splitOn_append_cons_self_of_not_mem hline, List.append_assoc, List.cons_append,
        parseLines, parseLine_eq htypes hnul.1 hline (Or.inr rfl), runLines]
      by_cases haccepted : Accepted ctx.suppressionTypes (trimStart line)
      · rw [if_pos haccepted, if_pos haccepted]
        exact ih hnul.2.2 (by omega) (by rw [push_types]; exact htypes)
      · rw [if_neg haccepted, if_neg haccepted]
        rfl
    · rw [List.splitOn_eq_singleton hmem, parseLines, parseLine_eq htypes hnul hmem (Or.inl rfl),
        runLines]
      by_cases haccepted : Accepted ctx.suppressionTypes (trimStart text)
      · rw [if_pos haccepted, if_pos haccepted]
        rfl
      · rw [if_neg haccepted, if_neg haccepted]
        rfl

/-! ## The suppressions of a text -/

theorem trimEnd_cons {a : Char} (ha : isBlank a = false) (rest : List Char) :
    (trimEnd (a :: rest)).head? = some a := by
  have hle := length_le_trimEnd ha [] rest
  have hprefix : trimEnd (a :: rest) <+: a :: rest := List.rdropWhile_prefix isBlank _
  rw [List.nil_append, List.singleton_append] at hle
  cases htrim : trimEnd (a :: rest) with
  | nil =>
    rw [htrim] at hle
    exact absurd hle (by simp)
  | cons b l =>
    rw [htrim] at hprefix
    exact congrArg some (List.cons_prefix_cons.mp hprefix).1

theorem notMem_beforeColon (line : List Char) : ':' ∉ beforeColon line := fun h =>
  absurd (List.mem_takeWhile_imp h) (by decide)

/-- An accepted line adds its suppression. -/
theorem push_suppressions {line : List Char}
    (haccepted : Accepted ctx.suppressionTypes (trimStart line)) :
    (ctx.push (trimStart line)).suppressions = ctx.suppressions ++ (lineEntry line).toList := by
  unfold Context.push lineEntry
  generalize trimStart line = line at haccepted ⊢
  dsimp only
  by_cases hcomment : line.head? = some '#'
  · -- a comment stays one
    obtain ⟨rest, rfl⟩ := List.head?_eq_some_iff.mp hcomment
    have hhead := trimEnd_cons (show isBlank '#' = false by decide) rest
    rw [if_neg fun h => h.2 hcomment, if_pos (Or.inr hhead)]
    exact (List.append_nil _).symm
  · rcases haccepted with rfl | h | ⟨hmem, -⟩
    · have htrim : trimEnd [] = [] := rfl
      rw [if_neg fun h => h.1 rfl, if_pos (Or.inl htrim)]
      exact (List.append_nil _).symm
    · exact absurd h hcomment
    · have hne : line ≠ [] := List.ne_nil_of_mem hmem
      have hcolon := notMem_beforeColon line
      obtain ⟨-, htrim⟩ := trimEnd_colon (beforeColon line) (afterColon line)
      rw [← eq_beforeColon hmem] at htrim
      have hbefore : beforeColon (trimEnd line) = beforeColon line := by
        rw [htrim]
        exact (beforeColon_append hcolon _).1
      have hhead : (trimEnd line).head? = line.head? := by
        rw [htrim, eq_beforeColon hmem, (beforeColon_append hcolon _).1]
        cases beforeColon line <;> rfl
      have hnot : ¬ (trimEnd line = [] ∨ (trimEnd line).head? = some '#') := by
        rw [hhead]
        rintro (h | h)
        · rw [h] at htrim
          exact List.append_ne_nil_of_right_ne_nil _ (List.cons_ne_nil _ _) htrim.symm
        · exact hcomment h
      rw [if_pos ⟨hne, hcomment⟩, if_neg hnot, hbefore]
      rfl

theorem runLines_suppressions {lines : List (List Char)} {ctx' : Context}
    (htypes : ∀ type ∈ ctx.suppressionTypes, newline ∉ type ∧ ':' ∉ type)
    (h : runLines ctx lines = .returned ctx') :
    ctx'.suppressions = ctx.suppressions ++ lines.filterMap lineEntry := by
  induction lines generalizing ctx with
  | nil =>
    obtain rfl := Outcome.returned.inj h
    exact (List.append_nil _).symm
  | cons line lines ih =>
    rw [runLines] at h
    split_ifs at h with haccepted
    have hrest := ih (by rw [push_types]; exact htypes) h
    rw [hrest, push_suppressions haccepted, List.append_assoc, List.filterMap_cons]
    cases lineEntry line <;> rfl

/-! ## Other line endings -/

/-- The lines of the text with CRLF line endings: a carriage return at the end of each but the
last. -/
def crlfLines : List (List Char) → List (List Char)
  | [] => []
  | [line] => [line]
  | line :: lines => (line ++ [carriageReturn]) :: crlfLines lines

theorem crlfLines_modifyHead (c : Char) (lines : List (List Char)) :
    crlfLines (lines.modifyHead (c :: ·)) = (crlfLines lines).modifyHead (c :: ·) := by
  cases lines with
  | nil => rfl
  | cons line lines => cases lines <;> rfl

theorem splitOn_crlf (text : List Char) :
    (crlf text).splitOn newline = crlfLines (text.splitOn newline) := by
  induction text with
  | nil => rfl
  | cons c text ih =>
    have hcons : crlf (c :: text) =
        (if c = newline then [carriageReturn, newline] else [c]) ++ crlf text := List.flatMap_cons
    rw [hcons, List.splitOn_cons_eq_if_modifyHead]
    by_cases hc : c = newline
    · subst hc
      have hne : carriageReturn ≠ newline := by decide
      rw [if_pos rfl, if_pos (beq_self_eq_true _), List.cons_append, List.singleton_append,
        List.splitOn_cons_eq_if_modifyHead, if_neg (by simpa using hne),
        List.splitOn_cons_eq_if_modifyHead, if_pos (beq_self_eq_true _), ih]
      cases hlines : text.splitOn newline with
      | nil => exact absurd hlines (List.splitOn_ne_nil _ _)
      | cons line lines => rfl
    · rw [if_neg hc, if_neg (by simpa using hc), List.singleton_append,
        List.splitOn_cons_eq_if_modifyHead, if_neg (by simpa using hc), ih, crlfLines_modifyHead]

/-- A carriage return at the end of a line does not matter, unless the line is empty behind its
leading blanks. Then it is not accepted any more. -/
theorem runLines_crlf (ctx : Context) (line : List Char) (lines : List (List Char)) :
    runLines ctx ((line ++ [carriageReturn]) :: lines) =
      if trimStart line = [] then .stopped .failedToParse else runLines ctx (line :: lines) := by
  have hstart : trimStart (line ++ [carriageReturn]) = trimStart line ++ [carriageReturn] := by
    unfold trimStart
    rw [List.dropWhile_append]
    split_ifs with hempty
    · rw [List.isEmpty_iff.mp hempty]
      rfl
    · rfl
  rw [runLines, runLines, hstart]
  generalize trimStart line = line
  by_cases hline : line = []
  · subst hline
    have hnot : ¬ Accepted ctx.suppressionTypes [carriageReturn] := by
      rintro (h | h | h)
      · exact absurd h (List.cons_ne_nil _ _)
      · exact absurd h (by decide)
      · exact absurd h.1 (by decide)
    rw [if_pos rfl, List.nil_append, if_neg hnot]
  · have hhead : (line ++ [carriageReturn]).head? = line.head? :=
      List.head?_append_of_ne_nil _ hline
    have hmem : ':' ∈ line ++ [carriageReturn] ↔ ':' ∈ line := by
      rw [List.mem_append, or_iff_left (by decide)]
    have hbefore : ':' ∈ line → beforeColon (line ++ [carriageReturn]) = beforeColon line := by
      intro h
      have happend := (beforeColon_append (notMem_beforeColon line)
        (afterColon line ++ [carriageReturn])).1
      rwa [← List.cons_append, ← List.append_assoc, ← eq_beforeColon h] at happend
    have htrim : trimEnd (line ++ [carriageReturn]) = trimEnd line :=
      List.rdropWhile_concat_pos _ _ _ (by decide)
    have haccepted : Accepted ctx.suppressionTypes (line ++ [carriageReturn]) ↔
        Accepted ctx.suppressionTypes line := by
      unfold Accepted
      rw [hhead, hmem]
      refine or_congr (iff_of_false (by simp) hline) (or_congr_right (and_congr_right fun h => ?_))
      rw [hbefore h]
    have hne : line ++ [carriageReturn] ≠ [] := List.append_ne_nil_of_left_ne_nil hline _
    have hpush : Accepted ctx.suppressionTypes line →
        ctx.push (line ++ [carriageReturn]) = ctx.push line := by
      unfold Context.push
      rintro (h | h | h)
      · exact absurd h hline
      · rw [if_neg fun h' => h'.2 (hhead.trans h), if_neg fun h' => h'.2 h]
      · rw [hbefore h.1, htrim]
        exact if_congr (and_congr (iff_of_true hne hline) (by rw [hhead])) rfl rfl
    rw [if_neg hline]
    by_cases h : Accepted ctx.suppressionTypes line
    · rw [if_pos h, if_pos (haccepted.mpr h), hpush h]
    · rw [if_neg h, if_neg fun h' => h (haccepted.mp h')]

/-- The lines with CRLF line endings are accepted with the same result, unless one of them but the
last is empty behind its leading blanks. -/
theorem runLines_crlfLines {lines : List (List Char)} {ctx' : Context}
    (h : runLines ctx lines = .returned ctx') :
    runLines ctx (crlfLines lines) =
      if ∀ line ∈ lines.dropLast, trimStart line ≠ [] then .returned ctx'
      else .stopped .failedToParse := by
  induction lines generalizing ctx with
  | nil =>
    rw [← h, crlfLines]
    exact (if_pos (List.forall_mem_nil _)).symm
  | cons line lines ih =>
    cases lines with
    | nil =>
      rw [← h, crlfLines]
      exact (if_pos (List.forall_mem_nil _)).symm
    | cons line' lines =>
      rw [crlfLines, runLines_crlf, List.dropLast_cons_cons]
      by_cases hline : trimStart line = []
      · rw [if_pos hline, if_neg fun hall => hall line List.mem_cons_self hline]
      · rw [if_neg hline]
        rw [runLines] at h ⊢
        split_ifs at h with haccepted
        rw [if_pos haccepted, ih h]
        refine if_congr ?_ rfl rfl
        exact ⟨fun hall => List.forall_mem_cons.mpr ⟨hline, hall⟩,
          fun hall => (List.forall_mem_cons.mp hall).2⟩
      · exact List.cons_ne_nil _ _

/-- An accepted text, for a parser whose types have no newline and no colon in them. There is one
suppression for each line that is neither empty nor a comment behind its leading blanks, with what
stands before and after its first colon. With CRLF in place of each LF, the text is accepted with
the same suppressions exactly if no line that ends in LF is empty behind its leading blanks. -/
theorem parse_crlf_iff {text : List Char} {ctx' : Context} (hnul : nul ∉ text)
    (htypes : ∀ type ∈ ctx.suppressionTypes, newline ∉ type ∧ ':' ∉ type)
    (h : parse ctx (text ++ [nul]) = .returned ctx') :
    ctx'.suppressions = ctx.suppressions ++ (text.splitOn newline).filterMap lineEntry ∧
      ((∃ r, parse ctx (crlf text ++ [nul]) = .returned r ∧ r.suppressions = ctx'.suppressions) ↔
        ∀ line ∈ (text.splitOn newline).dropLast, trimStart line ≠ []) := by
  have hnul' : nul ∉ crlf text := by
    intro hmem
    obtain ⟨c, hc, hmem⟩ := List.mem_flatMap.mp hmem
    split_ifs at hmem
    · exact absurd hmem (by decide)
    · obtain rfl := List.mem_singleton.mp hmem
      exact hnul hc
  unfold parse at h ⊢
  split_ifs at h with hcan
  rw [parseLines_eq hnul (by rw [List.length_append]; simp) htypes] at h
  refine ⟨runLines_suppressions htypes h, ?_⟩
  rw [if_pos hcan, parseLines_eq hnul' (by rw [List.length_append]; simp) htypes, splitOn_crlf,
    runLines_crlfLines h]
  split_ifs with hall
  · exact iff_of_true ⟨ctx', rfl, rfl⟩ hall
  · refine iff_of_false ?_ hall
    rintro ⟨r, hr, -⟩
    cases hr

/-- The only type is `race`. -/
def raceContext : Context := { suppressionTypes := [['r', 'a', 'c', 'e']] }

/-- A blank line with LF is accepted, and with CRLF it is not. -/
theorem parse_crlf_blank :
    parse raceContext ([newline] ++ [nul]) = .returned raceContext ∧
      parse raceContext (crlf [newline] ++ [nul]) = .stopped .failedToParse :=
  ⟨rfl, rfl⟩

/-- The text `race:f` with a newline. -/
def raceLine : List Char := ['r', 'a', 'c', 'e', ':', 'f', newline]

/-- The text `race:f` with a newline is accepted with CRLF too. -/
theorem parse_crlf_iff_race : ∃ ctx', parse raceContext (raceLine ++ [nul]) = .returned ctx' ∧
    ctx'.suppressions = (raceLine.splitOn newline).filterMap lineEntry := by
  refine ⟨_, rfl, ?_⟩
  exact (@parse_crlf_iff raceContext raceLine _ (by decide) (by decide) rfl).1

end Tasan.Suppressions
