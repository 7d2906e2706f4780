import Tasan.CString
import Tasan.Format.Loops
import Tasan.Format.Sizes

/-!
# What `printf_common` checks

The loop of `printf_common` over the directives of a format, with the arguments that it takes and
the ranges that it checks. Strings are looked at before their range is known: by `internal_strnlen`
up to a precision, and by `internal_strlen` without one.

A format with literal widths and precisions is a list of pieces, and the loop runs over them one
after the other (`directiveLoop_format`). The parser stores the precision as an `int`, and zero for
none: `printf_string_iff` says when the bytes that are looked at and checked for a string are those
that C `printf` may read.
-/

namespace Tasan.Format

open CString (IsLength reads)
open FlagParser (nul)

/-! ## The loop -/

/-- What the loop does with an argument. -/
inductive Event
  /-- `internal_strnlen` of the argument up to a limit or `internal_strlen`, and the range check. -/
  | string (argp : ℕ) (limit : ℕ∞)
  /-- The check of an empty range. -/
  | empty (argp : ℕ)
  /-- The check that an argument may be written. -/
  | write (argp : ℕ) (size : ℤ)

/-- The arguments that are left, and what has been done. -/
structure VaState where
  /-- The arguments. -/
  args : List ℕ
  /-- What has been done. -/
  events : List Event

/-- `va_arg`. -/
def VaState.vaArg (s : VaState) : ℕ × VaState := (s.args.headD 0, { s with args := s.args.tail })

/-- The next argument is done with. -/
def VaState.add (s : VaState) (e : Event) : VaState := { s with events := s.events ++ [e] }

/-- `SKIP_SCALAR_ARG`, which may leave the loop. -/
def skipScalarArg (convSpecifier : Char) (size : ℤ) (s : VaState) : VaState ⊕ VaState :=
  if formatIsFloatConv convSpecifier then
    if size = 8 ∨ size = 12 ∨ size = 16 then .inl s.vaArg.2 else .inr s
  else if size = 1 ∨ size = 2 ∨ size = 4 ∨ size = 8 then .inl s.vaArg.2
  else .inr s

/-- What is done for a string. -/
def stringEvent (dir : PrintfDirective) (argp : ℕ) : Event :=
  if dir.starredPrecision then .empty argp
  else if 0 < dir.fieldPrecision then .string argp dir.fieldPrecision.toNat
  else .string argp ⊤

/-- The loop of `printf_common` after the dynamic width and precision. -/
def printfArgument (T : Target) (dir : PrintfDirective) (s : VaState) : VaState ⊕ VaState :=
  if dir.convSpecifier = 'm' then .inl s
  else
    let size := printfGetValueSize T dir
    if size = fssInvalid then .inr s
    else if dir.convSpecifier = 'n' then .inl (s.vaArg.2.add (.write s.vaArg.1 size))
    else if size = fssStrlen then
      if s.vaArg.1 ≠ 0 then .inl (s.vaArg.2.add (stringEvent dir s.vaArg.1)) else .inl s.vaArg.2
    else if size = fssWcslen then
      if s.vaArg.1 ≠ 0 then .inl (s.vaArg.2.add (.empty s.vaArg.1)) else .inl s.vaArg.2
    else skipScalarArg dir.convSpecifier size s

/-- What the loop of `printf_common` does with a directive. -/
def printfDoWhat (T : Target) (dir : PrintfDirective) (s : VaState) : VaState ⊕ VaState :=
  if dir.argIdx ≠ -1 ∨ dir.precisionIdx ≠ -1 then .inr s
  else
    match if dir.starredWidth then skipScalarArg 'd' 4 s else .inl s with
    | .inr s => .inr s
    | .inl s =>
      match if dir.starredPrecision then skipScalarArg 'd' 4 s else .inl s with
      | .inr s => .inr s
      | .inl s => printfArgument T dir s

/-- `printf_common`, without the check of the format string itself. -/
def printfCommon (T : Target) (format : List Char) (args : List ℕ) : Outcome Fault VaState :=
  directiveLoop printfParseNext (printfDoWhat T) format.length format ⟨args, []⟩

/-! ## Formats -/

/-- A directive with a literal width and precision. -/
structure Conversion where
  /-- The flags. -/
  flags : List Char
  /-- The digits of the width, if there are any. -/
  width : List Char
  /-- The digits after the dot, if there is one. -/
  precision : Option (List Char)
  /-- The length modifier. -/
  len : List Char
  /-- The conversion specifier. -/
  conv : Char

/-- A piece of a format. -/
inductive Piece
  /-- An ordinary character. -/
  | char (c : Char)
  /-- `%%`. -/
  | percent
  /-- A directive. -/
  | directive (d : Conversion)

/-- The precision, with its dot. -/
def Conversion.precisionText (d : Conversion) : List Char :=
  match d.precision with
  | none => []
  | some digits => '.' :: digits

/-- A directive after its `%`. -/
def Conversion.text (d : Conversion) : List Char :=
  d.flags ++ (d.width ++ (d.precisionText ++ (d.len ++ [d.conv])))

/-- A piece of a format string. -/
def Piece.text : Piece → List Char
  | .char c => [c]
  | .percent => ['%', '%']
  | .directive d => '%' :: d.text

/-- A format string. -/
def formatOf (pieces : List Piece) : List Char := pieces.flatMap Piece.text

/-- The parts of a directive are what they are called, and the conversion specifier is no character
of the others. -/
structure Conversion.Ok (d : Conversion) : Prop where
  /-- Flags. -/
  flags : ∀ c ∈ d.flags, c ∈ printfFlags
  /-- Digits, of which the first is no flag. -/
  width : (∀ c ∈ d.width, isDigit c = true) ∧ peek d.width ≠ '0'
  /-- Digits. -/
  precision : ∀ digits, d.precision = some digits → ∀ c ∈ digits, isDigit c = true
  /-- A length modifier. -/
  len : d.len ∈ lengthModifiers
  /-- No other character. -/
  conv : d.conv ∉ [nul, 'j', 'z', 't', 'L', 'q', 'h', 'l'] ∧ d.conv ∉ printfFlags ∧
    isDigit d.conv = false ∧ d.conv ∉ ['.', '*', '$', '%']

/-- The directives of a format are right, and its ordinary characters ordinary. -/
def Piece.Ok : Piece → Prop
  | .char c => c ≠ '%' ∧ c ≠ nul
  | .percent => True
  | .directive d => d.Ok

/-- What the parser makes of a directive. -/
def Conversion.parsed (d : Conversion) : PrintfDirective where
  fieldWidth := narrowed (decimal d.width)
  fieldPrecision := narrowed (decimal (d.precision.getD []))
  argIdx := -1
  precisionIdx := -1
  starredWidth := false
  starredPrecision := false
  lengthModifier := modifierOf d.len
  convSpecifier := d.conv

/-- The loop over the pieces of a format: what is left of the arguments, and whether the loop goes
on. -/
def runPieces (T : Target) : List Piece → VaState → VaState ⊕ VaState
  | [], s => .inl s
  | .directive d :: pieces, s =>
    match printfDoWhat T d.parsed s with
    | .inl s => runPieces T pieces s
    | .inr s => .inr s
  | _ :: pieces, s => runPieces T pieces s

/-! ## The parser on a directive -/

theorem maybeParseNumberOrStar_digits {digits rest : List Char}
    (hdigits : ∀ c ∈ digits, isDigit c = true) (hrest : isDigit (peek rest) = false)
    (hstar : peek rest ≠ '*') :
    maybeParseNumberOrStar (digits ++ rest) 0 = (rest, narrowed (decimal digits), false) := by
  unfold maybeParseNumberOrStar maybeParseNumber parseNumber
  rw [toInt_internalAtoll, takeWhile_digits hdigits hrest, dropWhile_digits hdigits hrest]
  cases digits with
  | nil =>
    rw [List.nil_append, if_neg hstar, if_neg (by rw [hrest]; decide)]
    rfl
  | cons c digits =>
    have hc : isDigit c = true := hdigits c List.mem_cons_self
    have hpeek : peek (c :: digits ++ rest) = c := rfl
    have hne : c ≠ '*' := by
      rintro rfl
      exact absurd hc (by decide)
    rw [hpeek, if_neg hne, if_pos hc]

/-- The first characters after the flags, the width and the precision. -/
structure Tail (p : List Char) : Prop where
  /-- No digit. -/
  digit : isDigit (peek p) = false
  /-- No star. -/
  star : peek p ≠ '*'
  /-- No flag. -/
  flag : isFlag (peek p) = false
  /-- There is a character. -/
  ne : p ≠ []

variable {d : Conversion} (hd : d.Ok) (rest : List Char)
include hd

theorem Conversion.Ok.tail_len :
    Tail (d.len ++ d.conv :: rest) ∧ peek (d.len ++ d.conv :: rest) ≠ '.' := by
  have hlen := hd.len
  obtain ⟨hmod, hflag, hdigit, hother⟩ := hd.conv
  simp only [List.mem_cons, List.not_mem_nil, or_false, not_or] at hmod hother
  cases hl : d.len with
  | nil =>
    refine ⟨⟨hdigit, hother.2.1, ?_, List.cons_ne_nil _ _⟩, hother.1⟩
    change charIsOneOf d.conv printfFlags = false
    rw [charIsOneOf, List.contains_eq_mem, decide_eq_false_iff_not, List.mem_append,
      List.mem_singleton]
    exact fun h => h.elim hflag hmod.1
  | cons a len =>
    obtain ⟨h1, -, h3, -, h5, h6, -⟩ := of_mem_lengthModifiers _ (hl ▸ hlen) a List.mem_cons_self
    exact ⟨⟨h1, h3, h6, List.cons_ne_nil _ _⟩, h5⟩

theorem Conversion.Ok.tail_precision : Tail (d.precisionText ++ (d.len ++ d.conv :: rest)) := by
  unfold Conversion.precisionText
  cases d.precision with
  | none => exact (hd.tail_len rest).1
  | some digits =>
    exact ⟨show isDigit '.' = false by decide, show '.' ≠ '*' by decide,
      show isFlag '.' = false by decide, List.cons_ne_nil _ _⟩

theorem Conversion.Ok.not_isFlag :
    isFlag (peek (d.width ++ (d.precisionText ++ (d.len ++ d.conv :: rest)))) = false := by
  obtain ⟨hdigits, hzero⟩ := hd.width
  cases hw : d.width with
  | nil => exact (hd.tail_precision rest).flag
  | cons c width =>
    rw [hw] at hdigits hzero
    exact isFlag_of_isDigit (hdigits c List.mem_cons_self) hzero

theorem Conversion.Ok.parsePrecision :
    parsePrecision (d.precisionText ++ (d.len ++ d.conv :: rest)) (-1) =
      (d.len ++ d.conv :: rest, narrowed (decimal (d.precision.getD [])), false, -1) := by
  have htail := hd.tail_len rest
  unfold Format.parsePrecision Conversion.precisionText
  cases hp : d.precision with
  | none =>
    rw [List.nil_append, if_neg htail.2]
    rfl
  | some digits =>
    have hpeek : peek ('.' :: digits ++ (d.len ++ d.conv :: rest)) = '.' := rfl
    have hnext : ('.' :: digits ++ (d.len ++ d.conv :: rest)).tail =
        digits ++ (d.len ++ d.conv :: rest) := rfl
    dsimp only
    rw [if_pos hpeek, hnext,
      maybeParseNumberOrStar_digits (hd.precision digits hp) htail.1.digit htail.1.star]
    rfl

theorem Conversion.Ok.char_cases {c : Char}
    (hc : c ∈ d.flags ++ (d.width ++ (d.precisionText ++ d.len))) :
    c ∈ printfFlags ∨ isDigit c = true ∨ c = '.' ∨ c ∈ d.len := by
  simp only [List.mem_append] at hc
  rcases hc with hc | hc | hc | hc
  · exact Or.inl (hd.flags c hc)
  · exact Or.inr (Or.inl (hd.width.1 c hc))
  · unfold Conversion.precisionText at hc
    cases hp : d.precision with
    | none =>
      rw [hp] at hc
      exact absurd hc List.not_mem_nil
    | some digits =>
      rw [hp] at hc
      rcases List.mem_cons.mp hc with hc | hc
      · exact Or.inr (Or.inr (Or.inl hc))
      · exact Or.inr (Or.inl (hd.precision digits hp c hc))
  · exact Or.inr (Or.inr (Or.inr hc))

/-- A directive is parsed. -/
theorem Conversion.Ok.printfDirective :
    printfDirective (d.text ++ rest) = .ok (some (.at rest), d.parsed) := by
  have htext : d.text ++ rest =
      d.flags ++ (d.width ++ (d.precisionText ++ (d.len ++ d.conv :: rest))) := by
    simp [Conversion.text]
  have hflags : ∀ c ∈ d.flags, isFlag c = true := fun c hc =>
    List.elem_eq_true_of_mem (List.mem_append_left [nul] (hd.flags c hc))
  -- no dollar sign follows a number
  have hdollar : peek ((d.text ++ rest).dropWhile isDigit) ≠ '$' := by
    have hconv : peek ((d.conv :: rest).dropWhile isDigit) ≠ '$' := by
      rw [List.dropWhile_cons_of_neg (by rw [hd.conv.2.2.1]; decide)]
      have hother := hd.conv.2.2.2
      simp only [List.mem_cons, List.not_mem_nil, or_false, not_or] at hother
      exact hother.2.2.1
    have hpieces : ∀ c ∈ d.flags ++ (d.width ++ (d.precisionText ++ d.len)), c ≠ '$' := by
      rintro c hc rfl
      rcases hd.char_cases hc with hc | hc | hc | hc
      · exact absurd hc (by decide)
      · exact absurd hc (by decide)
      · exact absurd hc (by decide)
      · exact (of_mem_lengthModifiers _ hd.len _ hc).2.1 rfl
    have hall := peek_dropWhile_ne_dollar hpieces hconv
    rw [htext]
    simpa only [List.append_assoc] using hall
  have hindex : maybeParseParamIndex (d.text ++ rest) (-1) = (d.text ++ rest, -1) := by
    unfold maybeParseParamIndex parseNumber
    dsimp only
    rw [if_neg hdollar]
    exact ite_self _
  have hskip : skipFlags (d.text ++ rest) =
      .ok (d.width ++ (d.precisionText ++ (d.len ++ d.conv :: rest))) := by
    have hne : d.width ++ (d.precisionText ++ (d.len ++ d.conv :: rest)) ≠ [] := fun h =>
      (hd.tail_precision rest).ne (List.append_eq_nil_iff.mp h).2
    rw [skipFlags_eq, htext, List.dropWhile_append_of_pos hflags,
      dropWhile_isFlag (Or.inr (hd.not_isFlag rest)), if_neg hne]
  have hwidth := maybeParseNumberOrStar_digits hd.width.1 (hd.tail_precision rest).digit
    (hd.tail_precision rest).star
  unfold Format.printfDirective
  rw [hindex]
  dsimp only
  rw [hskip]
  simp only [Bind.bind, Except.bind, hwidth, hd.parsePrecision rest,
    maybeParseLengthModifier_append hd.len hd.conv.1]
  rfl

omit hd in
theorem Conversion.Ok.text_ne (hd : d.Ok) : ∃ c p, d.text ++ rest = c :: p ∧ c ≠ '%' := by
  have hconv : d.conv ≠ '%' := by
    have hother := hd.conv.2.2.2
    simp only [List.mem_cons, List.not_mem_nil, or_false, not_or] at hother
    exact hother.2.2.2
  have hpieces : ∀ c ∈ d.flags ++ (d.width ++ (d.precisionText ++ d.len)), c ≠ '%' := by
    rintro c hc rfl
    rcases hd.char_cases hc with hc | hc | hc | hc
    · exact absurd hc (by decide)
    · exact absurd hc (by decide)
    · exact absurd hc (by decide)
    · have hnone : lengthModifiers.all (fun len => '%' ∉ len) := by decide
      exact absurd hc (by simpa only [decide_eq_true_eq] using List.all_eq_true.mp hnone _ hd.len)
  have htext : d.text ++ rest =
      d.flags ++ (d.width ++ (d.precisionText ++ d.len)) ++ d.conv :: rest := by
    simp [Conversion.text]
  rw [htext]
  cases hp : d.flags ++ (d.width ++ (d.precisionText ++ d.len)) with
  | nil => exact ⟨_, _, rfl, hconv⟩
  | cons c p => exact ⟨_, _, rfl, hpieces c (hp ▸ List.mem_cons_self)⟩

omit hd

/-! ## The loop on a format -/

/-- The loop over a format is the loop over its pieces. -/
theorem directiveLoop_format (T : Target) {pieces : List Piece} (hok : ∀ piece ∈ pieces, piece.Ok)
    {fuel : ℕ} (hfuel : (formatOf pieces).length ≤ fuel) (s : VaState) :
    directiveLoop printfParseNext (printfDoWhat T) fuel (formatOf pieces) s =
      .returned ((runPieces T pieces s).elim id id) := by
  -- characters that the parser skips do not matter to the loop
  have hskip : ∀ (c : Char) (p q : List Char) (fuel : ℕ) (s : VaState),
      printfParseNext (c :: p) = printfParseNext q → q.length ≤ fuel →
      directiveLoop printfParseNext (printfDoWhat T) (fuel + 1) (c :: p) s =
        directiveLoop printfParseNext (printfDoWhat T) (fuel + 1) q s := by
    intro c p q fuel s hnext _
    cases q with
    | nil =>
      have hend :
          directiveLoop printfParseNext (printfDoWhat T) (fuel + 1) [] s = .returned s := rfl
      rw [hend, directiveLoop, hnext]
      rfl
    | cons a q => rw [directiveLoop, directiveLoop, hnext]
  induction pieces generalizing fuel s with
  | nil =>
    cases fuel <;> rfl
  | cons piece pieces ih =>
    have hrest : ∀ piece ∈ pieces, piece.Ok := fun p hp => hok p (List.mem_cons_of_mem _ hp)
    have hcons : formatOf (piece :: pieces) = piece.text ++ formatOf pieces := List.flatMap_cons
    have hthis := hok piece List.mem_cons_self
    rw [hcons, List.length_append] at hfuel
    rw [hcons]
    cases piece with
    | char c =>
      obtain ⟨fuel, rfl⟩ : ∃ k, fuel = k + 1 := Nat.exists_eq_succ_of_ne_zero (by
        rw [Piece.text, List.length_singleton] at hfuel
        omega)
      have hlen : (formatOf pieces).length ≤ fuel := by
        rw [Piece.text, List.length_singleton] at hfuel
        omega
      have hnext : printfParseNext (c :: formatOf pieces) = printfParseNext (formatOf pieces) := by
        rw [printfParseNext.eq_def]
        exact if_pos hthis.1
      exact (hskip c _ _ fuel s hnext hlen).trans (ih hrest (by omega) s)
    | percent =>
      obtain ⟨fuel, rfl⟩ : ∃ k, fuel = k + 1 := Nat.exists_eq_succ_of_ne_zero (by
        rw [Piece.text, List.length_cons] at hfuel
        omega)
      have hlen : (formatOf pieces).length ≤ fuel := by
        rw [Piece.text, List.length_cons, List.length_singleton] at hfuel
        omega
      have hnext : printfParseNext ('%' :: '%' :: formatOf pieces) =
          printfParseNext (formatOf pieces) := by
        rw [printfParseNext.eq_def]
        rfl
      exact (hskip '%' _ _ fuel s hnext hlen).trans (ih hrest (by omega) s)
    | directive d =>
      have hd : d.Ok := hthis
      obtain ⟨fuel, rfl⟩ : ∃ k, fuel = k + 1 := Nat.exists_eq_succ_of_ne_zero (by
        rw [Piece.text, List.length_cons] at hfuel
        omega)
      have hlen : (formatOf pieces).length ≤ fuel := by
        rw [Piece.text, List.length_cons] at hfuel
        omega
      have hnext : printfParseNext ('%' :: (d.text ++ formatOf pieces)) =
          .ok (some (.at (formatOf pieces)), d.parsed) := by
        obtain ⟨c, p, hcp, hc⟩ := hd.text_ne (formatOf pieces)
        rw [← hd.printfDirective (formatOf pieces), hcp, printfParseNext.eq_def]
        exact if_neg hc
      have hnul : ¬ Directive.convSpecifier d.parsed = nul := fun h =>
        hd.conv.1 (List.mem_cons.mpr (Or.inl h))
      change directiveLoop printfParseNext (printfDoWhat T) (fuel + 1)
        ('%' :: (d.text ++ formatOf pieces)) s = _
      rw [directiveLoop, hnext]
      dsimp only
      rw [if_neg hnul, runPieces]
      cases printfDoWhat T d.parsed s with
      | inl s' => exact ih hrest hlen s'
      | inr s' => rfl

/-! ## What is looked at and checked -/

/-- The bytes that `internal_strnlen` or `internal_strlen` looks at. -/
def Event.scanned (m : Mem) : Event → Set ℕ
  | .string argp limit => reads m argp limit
  | _ => ∅

/-- The range that is checked: up to the length, and the NUL unless the limit came first. -/
def Event.checked (m : Mem) : Event → Set ℕ
  | .string argp limit => {b | ∃ n, IsLength m argp limit n ∧ argp ≤ b ∧
      b < argp + (if (n : ℕ∞) < limit then n + 1 else n)}
  | _ => ∅

/-- The bytes that C `printf` may read of a string: as many as the precision says, but not behind
the NUL. -/
def allowed (m : Mem) (argp : ℕ) (precision : Option (List Char)) : Set ℕ :=
  reads m argp (match precision with
    | none => ⊤
    | some digits => (decimal digits : ℕ))

/-- What is checked is what is looked at, if that ends. -/
theorem checked_eq {m : Mem} {argp : ℕ} {limit : ℕ∞} (h : ∃ n, IsLength m argp limit n) :
    (Event.string argp limit).checked m = reads m argp limit := by
  obtain ⟨n, hn⟩ := h
  have hrange : ∀ b, argp ≤ b → (b < argp + (if (n : ℕ∞) < limit then n + 1 else n) ↔
      b ≤ argp + n ∧ ((b - argp : ℕ) : ℕ∞) < limit) := by
    intro b hb
    split_ifs with hlt
    · have hin : b ≤ argp + n → ((b - argp : ℕ) : ℕ∞) < limit := fun hle =>
        lt_of_le_of_lt (Nat.cast_le.mpr (by omega)) hlt
      exact ⟨fun h => ⟨by omega, hin (by omega)⟩, fun h => by omega⟩
    · -- the limit came first
      obtain rfl : (n : ℕ∞) = limit := le_antisymm hn.le (not_lt.mp hlt)
      rw [Nat.cast_lt]
      omega
  ext b
  rw [CString.mem_reads_iff hn]
  constructor
  · rintro ⟨n', hn', hb, h⟩
    obtain rfl := hn.unique hn'
    exact ⟨hb, (hrange b hb).mp h⟩
  · rintro ⟨hb, h⟩
    exact ⟨n, hn, hb, (hrange b hb).mpr h⟩

/-- The bytes that are looked at and checked for a string are those that may be read. -/
def Event.Right (m : Mem) (argp : ℕ) (precision : Option (List Char)) (e : Event) : Prop :=
  e.scanned m = allowed m argp precision ∧ e.checked m = allowed m argp precision

/-- The precision `k` is not zero; and it is positive as an `int` and the NUL comes before that
unless it is the same, or it is not and the NUL comes before `k`. -/
def PrecisionOk (m : Mem) (argp k : ℕ) : Prop :=
  if 0 < narrowed k then narrowed k = k ∨ ∃ i : ℕ, (i : ℤ) < narrowed k ∧ m (argp + i) = 0
  else 0 < k ∧ ∃ i < k, m (argp + i) = 0

theorem narrowed_le (k : ℕ) : narrowed k ≤ k := by
  unfold narrowed
  split_ifs <;> omega

/-- With a precision, the bytes are right exactly if it is, for the string. -/
theorem right_precision_iff {d : Conversion} {digits : List Char} (hp : d.precision = some digits)
    (m : Mem) (argp : ℕ) : (stringEvent d.parsed argp).Right m argp d.precision ↔
      PrecisionOk m argp (decimal digits) := by
  have hprec : d.parsed.fieldPrecision = narrowed (decimal digits) := by
    rw [Conversion.parsed, hp]
    rfl
  have hle := narrowed_le (decimal digits)
  unfold stringEvent PrecisionOk Event.Right allowed
  rw [if_neg (show ¬ d.parsed.starredPrecision = true from Bool.false_ne_true), hprec, hp]
  dsimp only
  generalize decimal digits = k at hle ⊢
  by_cases hpos : 0 < narrowed k
  · -- `internal_strnlen` with the narrowed precision
    obtain ⟨w, hw⟩ := Int.eq_ofNat_of_zero_le hpos.le
    rw [if_pos hpos, if_pos hpos, hw, Int.toNat_natCast]
    rw [hw] at hle
    have hiff := CString.reads_eq_iff (m := m) (p := argp)
      (Nat.cast_le (α := ℕ∞).mpr (Int.ofNat_le.mp hle))
    rw [checked_eq ⟨_, CString.isLength_strnlen m argp w⟩, Event.scanned, and_self, hiff]
    simp only [Nat.cast_inj, Nat.cast_lt]
  · -- `internal_strlen`
    rw [if_neg hpos, if_neg hpos, Event.scanned]
    have hiff := CString.reads_eq_iff (m := m) (p := argp) (a := (k : ℕ∞)) le_top
    rw [eq_comm (a := reads m argp k), or_iff_right (ENat.natCast_ne_top k)] at hiff
    constructor
    · rintro ⟨hscanned, -⟩
      obtain ⟨i, hi, hnul⟩ := hiff.mp hscanned
      have hik := Nat.cast_lt.mp hi
      exact ⟨by omega, i, hik, hnul⟩
    · rintro ⟨-, i, hi, hnul⟩
      have hscanned := hiff.mpr ⟨i, Nat.cast_lt.mpr hi, hnul⟩
      -- the string ends
      have hlen := CString.isLength_strnlen m argp k
      have hend : IsLength m argp ⊤ (CString.strnlen m argp k) :=
        ⟨le_top, hlen.char,
          fun _ => hlen.stop (Nat.cast_lt.mpr ((hlen.le_of_nul hnul).trans_lt hi))⟩
      exact ⟨hscanned, (checked_eq ⟨_, hend⟩).trans hscanned⟩

theorem runPieces_append (T : Target) (pre post : List Piece) (s : VaState) :
    runPieces T (pre ++ post) s = match runPieces T pre s with
      | .inl s => runPieces T post s
      | .inr s => .inr s := by
  induction pre generalizing s with
  | nil => rfl
  | cons piece pre ih =>
    cases piece with
    | char c => exact ih s
    | percent => exact ih s
    | directive d =>
      rw [List.cons_append, runPieces, runPieces]
      cases printfDoWhat T d.parsed s with
      | inl s' => exact ih s'
      | inr s' => rfl

theorem printfDoWhat_string (T : Target) {d : Conversion} (hconv : d.conv = 's')
    (hlen : d.len = []) {argp : ℕ} (hargp : argp ≠ 0) (rest : List ℕ) (events : List Event) :
    printfDoWhat T d.parsed ⟨argp :: rest, events⟩ =
      .inl ⟨rest, events ++ [stringEvent d.parsed argp]⟩ := by
  have hsize : printfGetValueSize T d.parsed = fssStrlen := by
    unfold printfGetValueSize Conversion.parsed
    rw [hconv, hlen]
    rfl
  have hc : d.parsed.convSpecifier = 's' := hconv
  unfold printfDoWhat
  rw [if_neg (by simp [Conversion.parsed]),
    if_neg (show ¬ d.parsed.starredWidth = true from Bool.false_ne_true)]
  dsimp only
  rw [if_neg (show ¬ d.parsed.starredPrecision = true from Bool.false_ne_true)]
  dsimp only
  unfold printfArgument
  rw [hc, hsize, if_neg (by decide)]
  dsimp only
  rw [if_neg (by decide), if_neg (by decide), if_pos rfl]
  exact if_pos hargp

/-- A format with literal widths and precisions, and a `%s` in it that the loop comes to with an
argument that is not null; without a precision, the argument is a string. The loop does what it does
for a string, and goes on with the next argument. The bytes that it looks at and checks are those
that C may read exactly if there is no precision, or if it is positive and fits into an `int`, or if
the NUL comes early enough all the same. -/
theorem printf_string_iff (T : Target) (m : Mem) (pre post : List Piece) (d : Conversion)
    (hok : ∀ piece ∈ pre ++ .directive d :: post, piece.Ok) (hconv : d.conv = 's')
    (hlen : d.len = []) (args rest : List ℕ) (events : List Event) (argp : ℕ)
    (hpre : runPieces T pre ⟨args, []⟩ = .inl ⟨argp :: rest, events⟩) (hargp : argp ≠ 0)
    (hterm : d.precision = none → ∃ n, IsLength m argp ⊤ n) :
    ∃ e : Event, printfCommon T (formatOf (pre ++ .directive d :: post)) args =
        .returned ((runPieces T post ⟨rest, events ++ [e]⟩).elim id id) ∧
      (e.Right m argp d.precision ↔
        ∀ digits, d.precision = some digits → PrecisionOk m argp (decimal digits)) := by
  refine ⟨stringEvent d.parsed argp, ?_, ?_⟩
  · rw [printfCommon, directiveLoop_format T hok le_rfl, runPieces_append, hpre]
    dsimp only
    rw [runPieces, printfDoWhat_string T hconv hlen hargp]
  · cases hp : d.precision with
    | none =>
      refine iff_of_true ?_ fun digits h => absurd h (Option.some_ne_none digits).symm
      have hevent : stringEvent d.parsed argp = .string argp ⊤ := by
        unfold stringEvent
        have hprec : d.parsed.fieldPrecision = 0 := by
          rw [Conversion.parsed, hp]
          rfl
        rw [if_neg (show ¬ d.parsed.starredPrecision = true from Bool.false_ne_true), hprec,
          if_neg (lt_irrefl (0 : ℤ))]
      rw [hevent]
      exact ⟨rfl, checked_eq (hterm hp)⟩
    | some digits =>
      rw [← hp, right_precision_iff hp]
      constructor
      · rintro h digits' heq
        obtain rfl := Option.some.inj (hp.symm.trans heq)
        exact h
      · exact fun h => h digits hp

/-- `%.0s`. -/
def emptyString : Conversion := ⟨[], [], some ['0'], [], 's'⟩

/-- `%.0s` and the argument 16, where no string is: the loop looks at all memory. -/
theorem printf_emptyString :
    formatOf [.directive emptyString] = ['%', '.', '0', 's'] ∧
      printfCommon .linux64 ['%', '.', '0', 's'] [16] = .returned ⟨[], [.string 16 ⊤]⟩ ∧
      allowed (fun _ => 1) 16 (some ['0']) = ∅ ∧
      (Event.string 16 ⊤).scanned (fun _ => 1) = {b | 16 ≤ b} := by
  refine ⟨by decide, rfl, ?_, ?_⟩
  · ext b
    simp [allowed, reads, decimal]
  · ext b
    constructor
    · rintro ⟨i, rfl, -⟩
      exact Nat.le_add_right 16 i
    · intro h
      exact ⟨b - 16, (Nat.add_sub_cancel' h).symm, ENat.natCast_lt_top _,
        fun _ _ (h : (1 : Byte) = 0) => absurd h (by decide)⟩

/-- `%.3s` of the string `ab`. -/
def threeOfString : Conversion := ⟨[], [], some ['3'], [], 's'⟩

/-- `%.3s` of a string of two characters. -/
theorem printf_string_iff_three : ∃ e : Event,
    printfCommon .linux64 (formatOf [.directive threeOfString]) [16] = .returned ⟨[], [e]⟩ ∧
      e.Right (fun a => if a = 18 then 0 else 97) 16 (some ['3']) := by
  have hok : threeOfString.Ok :=
    ⟨List.forall_mem_nil _, ⟨List.forall_mem_nil _, by decide⟩,
      fun digits h => Option.some.inj h ▸ List.forall_mem_singleton.mpr rfl, by decide, by decide⟩
  obtain ⟨e, hrun, hiff⟩ := printf_string_iff .linux64 (fun a => if a = 18 then 0 else 97) [] []
    threeOfString (fun piece h => by obtain rfl := List.mem_singleton.mp h; exact hok) rfl rfl [16]
    [] [] 16 rfl (by decide) (fun h => absurd h (Option.some_ne_none _))
  have hright : PrecisionOk (fun a => if a = 18 then 0 else 97) 16 3 := by
    unfold PrecisionOk
    rw [if_pos (by decide)]
    exact Or.inl (by decide)
  refine ⟨e, ?_, ?_⟩
  · rw [List.nil_append, List.nil_append] at hrun
    exact hrun
  · refine hiff.mpr fun digits h => ?_
    obtain rfl := Option.some.inj h
    exact hright

end Tasan.Format
