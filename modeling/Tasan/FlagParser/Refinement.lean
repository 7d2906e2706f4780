import Mathlib.Data.List.TakeWhile
import Tasan.FlagParser.Grammar

/-!
# The parser reads the grammar

`parseFlags_eq` is the refinement: on a string whose reading is known, the cursor machine calls
`run_handler` for the flags of the reading in their order and then ends as the reading does, whatever
follows the NUL. A nested `ParseString` gives the cursor back (`CursorFree`), so that the outer one goes
on where it was. The meaning of `ParseString` takes the fuel away; in it a handler runs with the same
meaning for its nested calls (`meaning_eq`).
-/

namespace Tasan.FlagParser

variable {σ : Type}

/-! ## The cursor -/

/-- Another cursor. -/
def Parser.setCursor (buf : List Char) (pos : ℕ) (p : Parser σ) : Parser σ :=
  { p with buf := buf, pos := pos }

@[simp] theorem Parser.setCursor_self (p : Parser σ) : p.setCursor p.buf p.pos = p := rfl

/-- A nested call neither reads nor changes the cursor of its caller. -/
def CursorFree (nested : Nested σ) : Prop :=
  ∀ s env p buf pos, nested s env (p.setCursor buf pos) = Parser.setCursor buf pos <$> nested s env p

theorem cursorFree_withString (flags : Option (List Char) → Parser σ → Outcome Stop (Parser σ)) :
    CursorFree (withString flags) := by
  intro s env p buf pos
  cases s with
  | none => rfl
  | some text =>
    change (do
      let p' ← flags env (p.setCursor text 0)
      return p'.setCursor buf pos) = Parser.setCursor buf pos <$> (do
      let p' ← flags env (p.setCursor text 0)
      return p'.setCursor p.buf p.pos)
    cases flags env (p.setCursor text 0) <;> rfl

theorem runAction_setCursor {nested : Nested σ} (hn : CursorFree nested) (buf : List Char) (pos : ℕ) :
    ∀ (action : Action σ) (p : Parser σ), runAction nested action (p.setCursor buf pos) =
      (fun r => (r.1, r.2.setCursor buf pos)) <$> runAction nested action p
  | .done _ _, _ => rfl
  | .parseString s env flags next, p => by
    have hcall := hn s env { p with flags := flags } buf pos
    change nested s env (Parser.setCursor buf pos { p with flags := flags }) >>= _ = _ <$> (_ >>= _)
    rw [hcall]
    cases nested s env { p with flags := flags } with
    | returned q => exact runAction_setCursor hn buf pos (next q.flags) q
    | stopped e => rfl
    | unfinished => rfl

theorem runHandler_setCursor (cfg : Config σ) {nested : Nested σ} (hn : CursorFree nested)
    (name value buf : List Char) (pos : ℕ) (p : Parser σ) :
    runHandler cfg nested name value (p.setCursor buf pos) =
      (fun r => (r.1, r.2.setCursor buf pos)) <$> runHandler cfg nested name value p := by
  unfold runHandler
  cases cfg.handlers.find? (·.1 = name) with
  | some h => exact runAction_setCursor hn buf pos _ p
  | none =>
    by_cases hlt : p.unknownFlags.length < kMaxUnknownFlags
    · simp [addUnknown, Parser.setCursor, hlt]
    · simp [addUnknown, Parser.setCursor, hlt]

theorem runHandler_cursor (cfg : Config σ) {nested : Nested σ} (hn : CursorFree nested)
    {name value : List Char} {p p' : Parser σ} {res : Bool}
    (h : runHandler cfg nested name value p = .returned (res, p')) :
    p'.buf = p.buf ∧ p'.pos = p.pos := by
  have hself := runHandler_setCursor cfg hn name value p.buf p.pos p
  rw [Parser.setCursor_self, h] at hself
  have hp' : p' = p'.setCursor p.buf p.pos := congrArg Prod.snd (Outcome.returned.inj hself)
  rw [hp']
  exact ⟨rfl, rfl⟩

theorem applyFlag_setCursor (cfg : Config σ) {nested : Nested σ} (hn : CursorFree nested)
    (buf : List Char) (pos : ℕ) (p : Parser σ) (flag : List Char × List Char) :
    applyFlag cfg nested (p.setCursor buf pos) flag =
      Parser.setCursor buf pos <$> applyFlag cfg nested p flag := by
  unfold applyFlag
  rw [runHandler_setCursor cfg hn]
  cases runHandler cfg nested flag.1 flag.2 p with
  | returned r => cases hr : r.1 <;> simp [hr]
  | stopped e => rfl
  | unfinished => rfl

/-! ## Reading a string -/

theorem advanceWhile_run {p : Char → Bool} {c : Char} {rest : List Char} (hc : p c = false) :
    ∀ {run : List Char} {pos : ℕ}, (∀ c ∈ run, p c = true) →
      advanceWhile p (run ++ c :: rest) pos = .returned (pos + run.length)
  | [], pos, _ => by simp [advanceWhile, hc]
  | c' :: run, pos, hrun => by
    obtain ⟨hc', hrun⟩ := List.forall_mem_cons.mp hrun
    rw [List.cons_append, advanceWhile, if_pos hc', advanceWhile_run hc hrun, List.length_cons,
      Nat.add_assoc, Nat.add_comm 1]

section At

variable {buf pre rest : List Char} {pos : ℕ}

theorem scan_at {p : Char → Bool} {c : Char} {run : List Char} (hbuf : buf = pre ++ (run ++ c :: rest))
    (hpos : pos = pre.length) (hrun : ∀ c ∈ run, p c = true) (hc : p c = false) :
    scan p buf pos = .returned (pos + run.length) := by
  rw [scan, hbuf, hpos, List.drop_left, advanceWhile_run hc hrun]

theorem read_at {c : Char} (hbuf : buf = pre ++ c :: rest) (hpos : pos = pre.length) :
    read buf pos = .returned c := by
  simp [read, hbuf, hpos]

theorem llStrndup_at {value : List Char} {n : ℕ} (hbuf : buf = pre ++ (value ++ rest))
    (hpos : pos = pre.length) (hn : n = value.length) (hv : nul ∉ value) :
    llStrndup (buf.drop pos) n = value := by
  rw [llStrndup, hbuf, hpos, List.drop_left, hn, List.take_left]
  have htrue : ∀ c ∈ value, decide (c ≠ nul) = true := fun c hc => by
    simpa using fun h : c = nul => hv (h ▸ hc)
  exact List.takeWhile_eq_self_iff.mpr htrue

end At

theorem IsName.inName {name : List Char} (h : IsName name) (hnul : nul ∉ name) :
    ∀ c ∈ name, inName c = true := by
  intro c hc
  obtain ⟨hne, hspace⟩ := h c hc
  have hcn : c ≠ nul := fun h => hnul (h ▸ hc)
  simp [FlagParser.inName, hne, hspace, hcn]

theorem AtSeparator.exists_cons {rest : List Char} (h : AtSeparator rest) (tail : List Char) :
    ∃ c rest', rest ++ nul :: tail = c :: rest' ∧ (c = nul ∨ isSpace c = true) := by
  cases rest with
  | nil => exact ⟨nul, tail, rfl, Or.inl rfl⟩
  | cons c rest => exact ⟨c, rest ++ nul :: tail, rfl, Or.inr (h c rfl)⟩

/-- A value is read, and the cursor is behind it. -/
theorem parseValue_eq {t value rest : List Char} (h : Value t value rest) (hnul : nul ∉ t)
    {buf pre tail : List Char} {pos : ℕ} (hbuf : buf = pre ++ (t ++ nul :: tail))
    (hpos : pos = pre.length) :
    ∃ pre', buf = pre' ++ (rest ++ nul :: tail) ∧
      parseValue buf pos = .returned (value, pre'.length) := by
  cases h with
  | @quoted quote value rest hq hv =>
    have hvn : nul ∉ value := fun h => hnul (by simp [h])
    have hqn : quote ≠ nul := fun h => hnul (by simp [h])
    have hbuf₁ : buf = (pre ++ [quote]) ++ (value ++ quote :: (rest ++ nul :: tail)) := by simp [hbuf]
    have hpos₁ : pos + 1 = (pre ++ [quote]).length := by simp [hpos]
    have hpos₂ : pos + 1 + value.length = (pre ++ [quote] ++ value).length := by
      simp [hpos, Nat.add_assoc, Nat.add_comm 1]
    have hscan : scan (inQuotes quote) buf (pos + 1) = .returned (pos + 1 + value.length) :=
      scan_at hbuf₁ hpos₁ (fun c hc => by
        simpa [inQuotes] using ⟨fun h => hvn (h ▸ hc), fun h => hv (h ▸ hc)⟩) (by simp [inQuotes])
    refine ⟨pre ++ [quote] ++ value ++ [quote], by simp [hbuf], ?_⟩
    rw [parseValue, read_at (hbuf.trans (by rw [List.cons_append])) hpos, Outcome.returned_bind,
      if_pos (show quote = singleQuote ∨ quote = doubleQuote from hq), hscan, Outcome.returned_bind, read_at (by rw [hbuf₁, ← List.append_assoc]) hpos₂,
      Outcome.returned_bind, if_neg hqn, llStrndup_at hbuf₁ hpos₁ (by omega) hvn]
    simp [hpos]
    omega
  | @plain value rest hq hv hr =>
    have hvn : nul ∉ value := fun h => hnul (by simp [h])
    obtain ⟨c, rest', hrest, hc⟩ := hr.exists_cons tail
    have hbuf₁ : buf = pre ++ (value ++ c :: rest') := by rw [hbuf, List.append_assoc, hrest]
    have hend : inValue c = false := by rcases hc with rfl | hc <;> simp [inValue, *]
    have hscan : scan inValue buf pos = .returned (pos + value.length) :=
      scan_at hbuf₁ hpos (fun c hc => by
        simpa [inValue] using ⟨fun h => hvn (h ▸ hc), hv c hc⟩) hend
    have hpos₂ : pos + value.length = (pre ++ value).length := by simp [hpos]
    -- The first character opens no quote.
    obtain ⟨c₀, hread, hquote⟩ : ∃ c₀, read buf pos = .returned c₀ ∧ ¬ IsQuote c₀ := by
      cases value with
      | nil =>
        refine ⟨c, read_at hbuf₁ hpos, fun hquote => ?_⟩
        rcases hc with rfl | hc
        · rcases hquote with h | h <;> exact absurd h (by decide)
        · exact absurd hc (by simp [hquote.isSpace])
      | cons c₀ value => exact ⟨c₀, read_at hbuf₁ hpos, hq c₀ rfl⟩
    refine ⟨pre ++ value, by simp [hbuf], ?_⟩
    have hsep : ¬ (c ≠ nul ∧ ¬ isSpace c = true) := by
      rcases hc with rfl | hc <;> simp [*]
    rw [parseValue, hread, Outcome.returned_bind, if_neg (show ¬ (c₀ = singleQuote ∨ c₀ = doubleQuote) from hquote),
      hscan, Outcome.returned_bind,
      read_at (by rw [hbuf₁, ← List.append_assoc]) hpos₂, Outcome.returned_bind, if_neg hsep,
      llStrndup_at hbuf₁ hpos (by omega) hvn]
    simp [hpos]

theorem parseValue_unterminated {quote : Char} {body : List Char} (hq : IsQuote quote)
    (hb : quote ∉ body) (hnul : nul ∉ body) {buf pre tail : List Char} {pos : ℕ}
    (hbuf : buf = pre ++ (quote :: body ++ nul :: tail)) (hpos : pos = pre.length) :
    parseValue buf pos = .stopped .unterminatedString := by
  have hbuf₁ : buf = (pre ++ [quote]) ++ (body ++ nul :: tail) := by simp [hbuf]
  have hpos₁ : pos + 1 = (pre ++ [quote]).length := by simp [hpos]
  have hpos₂ : pos + 1 + body.length = (pre ++ [quote] ++ body).length := by
    simp [hpos, Nat.add_assoc, Nat.add_comm 1]
  have hscan : scan (inQuotes quote) buf (pos + 1) = .returned (pos + 1 + body.length) :=
    scan_at hbuf₁ hpos₁ (fun c hc => by
      simpa [inQuotes] using ⟨fun h => hnul (h ▸ hc), fun h => hb (h ▸ hc)⟩) (by simp [inQuotes])
  rw [parseValue, read_at (hbuf.trans (by rw [List.cons_append])) hpos, Outcome.returned_bind,
    if_pos (show quote = singleQuote ∨ quote = doubleQuote from hq), hscan, Outcome.returned_bind,
    read_at (by rw [hbuf₁, ← List.append_assoc]) hpos₂, Outcome.returned_bind, if_pos rfl]

section Flag

variable {cfg : Config σ} {nested : Nested σ} {env : Option (List Char)} {p : Parser σ}
  {pre name t tail : List Char}

theorem scan_name (hn : IsName name) (hnul : nul ∉ name) {c : Char} (hc : inName c = false)
    (hbuf : p.buf = pre ++ (name ++ c :: t)) (hpos : p.pos = pre.length) :
    scan inName p.buf p.pos = .returned (p.pos + name.length) ∧
      read p.buf (p.pos + name.length) = .returned c :=
  ⟨scan_at hbuf hpos (hn.inName hnul) hc,
    read_at (by rw [hbuf, ← List.append_assoc]) (by simp [hpos])⟩

theorem parseFlag_eq (hn : IsName name) (hnul : nul ∉ name)
    (hbuf : p.buf = pre ++ (name ++ '=' :: t)) (hpos : p.pos = pre.length) :
    parseFlag cfg nested env p = parseValue p.buf (p.pos + name.length + 1) >>= fun r =>
      applyFlag cfg nested (p.setCursor p.buf r.2) (name, r.1) := by
  obtain ⟨hscan, hread⟩ := scan_name hn hnul (by decide) hbuf hpos
  simp only [parseFlag, hscan, hread, Outcome.returned_bind, ne_eq, not_true_eq_false, if_false]
  rw [llStrndup_at hbuf hpos (by omega) hnul]
  rfl

theorem parseFlag_expectedEquals (hn : IsName name) (hnul : nul ∉ name) {rest : List Char}
    (hr : AtSeparator rest) (hbuf : p.buf = pre ++ (name ++ rest ++ nul :: tail))
    (hpos : p.pos = pre.length) :
    parseFlag cfg nested env p = .stopped (.expectedEquals env) := by
  obtain ⟨c, rest', hrest, hc⟩ := hr.exists_cons tail
  have hend : inName c = false := by rcases hc with rfl | hc <;> simp [inName, *]
  have hne : c ≠ '=' := by
    rintro rfl
    rcases hc with hc | hc <;> exact absurd hc (by decide)
  obtain ⟨hscan, hread⟩ := scan_name hn hnul hend
    (by rw [hbuf, List.append_assoc name, hrest]) hpos
  simp only [parseFlag, hscan, hread, Outcome.returned_bind, if_pos hne]

theorem parseFlags_start {c : Char} (hc : isSpace c = false) (hnul : c ≠ nul)
    (hbuf : p.buf = pre ++ c :: t) (hpos : p.pos = pre.length) (n : ℕ) :
    parseFlags cfg (n + 1) env p =
      parseFlag cfg (parseString cfg n) env p >>= parseFlags cfg n env := by
  have hskip : skipWhitespace p = .returned p := by
    rw [skipWhitespace, scan_at (show p.buf = pre ++ ([] ++ c :: t) from hbuf) hpos nofun hc]
    rfl
  rw [parseFlags, hskip, Outcome.returned_bind, read_at hbuf hpos, Outcome.returned_bind, if_neg hnul]
  rfl

theorem parseFlags_separator {c : Char} (hc : isSpace c = true)
    (hbuf : p.buf = pre ++ c :: t) (hpos : p.pos = pre.length) (n : ℕ) :
    parseFlags cfg n env p = parseFlags cfg n env (p.setCursor p.buf (p.pos + 1)) := by
  cases n with
  | zero => rfl
  | succ n =>
    have hscan : scan isSpace p.buf p.pos = scan isSpace p.buf (p.pos + 1) := by
      have hdrop : p.buf.drop (p.pos + 1) = t := by
        rw [← List.drop_drop, hbuf, hpos, List.drop_left]
        rfl
      rw [scan, scan, hdrop, hbuf, hpos, List.drop_left, advanceWhile, if_pos hc]
    have hskip : skipWhitespace p = skipWhitespace (p.setCursor p.buf (p.pos + 1)) := by
      rw [skipWhitespace, hscan]
      rfl
    rw [parseFlags, parseFlags, hskip]

end Flag

/-! ## The flags of a reading -/

/-- How the parser ends. -/
def Ending.finish (cfg : Config σ) (env : Option (List Char)) (p : Parser σ) :
    Ending → Outcome Stop (Parser σ)
  | eof => .returned { p with flags := cfg.sanityCheck p.flags }
  | expectedEquals => .stopped (.expectedEquals env)
  | unterminatedString => .stopped .unterminatedString

/-- The handlers run for the flags of a reading, with the fuel of `parseFlags`. -/
def runFlags (cfg : Config σ) (env : Option (List Char)) (e : Ending) :
    ℕ → List (List Char × List Char) → Parser σ → Outcome Stop (Parser σ)
  | 0, _, _ => .unfinished
  | _ + 1, [], p => e.finish cfg env p
  | n + 1, f :: fs, p => do
    let p ← applyFlag cfg (parseString cfg n) p f
    runFlags cfg env e n fs p

theorem IsName.exists_cons {name : List Char} (hn : IsName name) (hnul : nul ∉ name) (t : List Char) :
    ∃ c r, name ++ '=' :: t = c :: r ∧ isSpace c = false ∧ c ≠ nul := by
  cases name with
  | nil => exact ⟨'=', t, rfl, by decide, by decide⟩
  | cons c name =>
    exact ⟨c, name ++ '=' :: t, rfl, (hn c List.mem_cons_self).2, fun h => hnul (h ▸ List.mem_cons_self)⟩

/-- The cursor machine runs the handlers for the flags of the reading. -/
theorem parseFlags_eq (cfg : Config σ) (env : Option (List Char)) {s : List Char}
    {fs : List (List Char × List Char)} {e : Ending} (h : Options s fs e) (hnul : nul ∉ s)
    {pre tail : List Char} {p : Parser σ} (hbuf : p.buf = pre ++ (s ++ nul :: tail))
    (hpos : p.pos = pre.length) (b : List Char) (i n : ℕ) :
    Parser.setCursor b i <$> parseFlags cfg n env p = runFlags cfg env e n fs (p.setCursor b i) := by
  induction h generalizing pre p n with
  | eof =>
    cases n with
    | zero => rfl
    | succ n =>
      have hskip : skipWhitespace p = .returned p := by
        rw [skipWhitespace, scan_at hbuf hpos nofun (by decide)]
        rfl
      rw [parseFlags, hskip, Outcome.returned_bind, read_at hbuf hpos, Outcome.returned_bind, if_pos rfl]
      rfl
  | @separator c s fs e hc _ ih =>
    rw [parseFlags_separator hc (hbuf.trans (by rw [List.cons_append])) hpos]
    have hbuf₁ : p.buf = pre ++ [c] ++ (s ++ nul :: tail) := by simp [hbuf]
    have hpos₁ : p.pos + 1 = (pre ++ [c]).length := by simp [hpos]
    exact ih (fun h => hnul (List.mem_cons_of_mem c h)) (p := p.setCursor p.buf (p.pos + 1)) hbuf₁
      hpos₁ n
  | @flag name t value rest fs e hn hv _ ih =>
    have hnn : nul ∉ name := fun h => hnul (List.mem_append_left _ h)
    have hnt : nul ∉ t := fun h => hnul (List.mem_append_right _ (List.mem_cons_of_mem _ h))
    have hnr : nul ∉ rest := fun h => hnt (hv.mem_of_rest h)
    cases n with
    | zero => rfl
    | succ n =>
      have hbuf₁ : p.buf = pre ++ (name ++ '=' :: (t ++ nul :: tail)) := by simp [hbuf]
      obtain ⟨c, r, hcr, hc, hcn⟩ := hn.exists_cons hnn (t ++ nul :: tail)
      have hbuf₂ : p.buf = pre ++ name ++ ['='] ++ (t ++ nul :: tail) := by simp [hbuf]
      have hpos₂ : p.pos + name.length + 1 = (pre ++ name ++ ['=']).length := by
        simp [hpos, Nat.add_assoc]
      obtain ⟨pre', hbuf', hvalue⟩ := parseValue_eq hv hnt hbuf₂ hpos₂
      rw [parseFlags_start hc hcn (by rw [hbuf₁, hcr]) hpos, parseFlag_eq hn hnn hbuf₁ hpos, hvalue,
        Outcome.returned_bind, runFlags]
      dsimp only
      -- The flag does not see the cursor, so that it can be taken out on both sides.
      have hfree : CursorFree (parseString cfg n) := cursorFree_withString (parseFlags cfg n)
      rw [applyFlag_setCursor cfg hfree, applyFlag_setCursor cfg hfree]
      cases applyFlag cfg (parseString cfg n) p (name, value) with
      | returned q => exact ih hnr (p := q.setCursor p.buf pre'.length) hbuf' rfl n
      | stopped e => rfl
      | unfinished => rfl
  | @expectedEquals name rest hne hn hr =>
    have hnn : nul ∉ name := fun h => hnul (List.mem_append_left _ h)
    cases n with
    | zero => rfl
    | succ n =>
      obtain ⟨c, name', rfl⟩ := List.exists_cons_of_ne_nil hne
      have hc := (hn c List.mem_cons_self).2
      have hcn : c ≠ nul := fun h => hnn (h ▸ List.mem_cons_self)
      rw [parseFlags_start hc hcn (hbuf.trans (by rw [List.cons_append, List.cons_append])) hpos,
        parseFlag_expectedEquals hn hnn hr hbuf hpos]
      rfl
  | @unterminated name body quote hn hq hb =>
    have hnn : nul ∉ name := fun h => hnul (List.mem_append_left _ h)
    have hnb : nul ∉ body := fun h => hnul (by simp [h])
    cases n with
    | zero => rfl
    | succ n =>
      have hbuf₁ : p.buf = pre ++ (name ++ '=' :: (quote :: body ++ nul :: tail)) := by simp [hbuf]
      obtain ⟨c, r, hcr, hc, hcn⟩ := hn.exists_cons hnn (quote :: body ++ nul :: tail)
      have hbuf₂ : p.buf = pre ++ name ++ ['='] ++ (quote :: body ++ nul :: tail) := by simp [hbuf]
      have hpos₂ : p.pos + name.length + 1 = (pre ++ name ++ ['=']).length := by
        simp [hpos, Nat.add_assoc]
      rw [parseFlags_start hc hcn (by rw [hbuf₁, hcr]) hpos, parseFlag_eq hn hnn hbuf₁ hpos,
        parseValue_unterminated hq hb hnb hbuf₂ hpos₂]
      rfl

theorem parseString_eq (cfg : Config σ) {s : List Char} {fs : List (List Char × List Char)} {e : Ending}
    (h : Options s fs e) (hnul : nul ∉ s) (tail : List Char) (env : Option (List Char)) (p : Parser σ)
    (n : ℕ) : parseString cfg n (some (s ++ nul :: tail)) env p = runFlags cfg env e n fs p :=
  parseFlags_eq cfg env h hnul (p := p.setCursor (s ++ nul :: tail) 0) (List.nil_append _).symm rfl
    p.buf p.pos n

end Tasan.FlagParser
