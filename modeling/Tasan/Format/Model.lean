import Tasan.FlagParser.Model

/-!
# The parsers of format strings

`scanf_parse_next` and `printf_parse_next` of `sanitizer_common_interceptors_format.inc`, and the loops of
`scanf_common` and `printf_common` around them. A pointer into the format string is what is left of the
string there, without the NUL, so that the pointer to the NUL is the empty list; `Pointer.behind` points
behind the NUL, and reading there is the fault `overrun`. `internal_strchr` also finds the NUL of the
string that it searches, which makes `charIsOneOf` true of the NUL.
-/

namespace Tasan.Format

open FlagParser (nul)

/-- A pointer into a format string. -/
inductive Pointer
  /-- What is left of the string, up to the NUL. -/
  | at (p : List Char)
  /-- Behind the NUL. -/
  | behind
  deriving DecidableEq

/-- What goes wrong. -/
inductive Fault
  /-- A byte behind the NUL is read. -/
  | overrun
  /-- `CHECK_EQ(*p, 0)` fails. -/
  | check
  deriving DecidableEq

/-- `*p`. -/
def peek (p : List Char) : Char := p.headD nul

/-- `*p`, where `p` may be behind the NUL. -/
def Pointer.peek : Pointer → Except Fault Char
  | .at p => .ok (Format.peek p)
  | .behind => .error .overrun

/-- `p + 1`. -/
def advance : List Char → Pointer
  | [] => .behind
  | _ :: p => .at p

/-- `*p++`. -/
def Pointer.next : Pointer → Except Fault (Char × Pointer)
  | .at p => .ok (Format.peek p, advance p)
  | .behind => .error .overrun

/-- `*p >= '0' && *p <= '9'`. -/
def isDigit (c : Char) : Bool := '0' ≤ c && c ≤ '9'

/-- One turn of the loop of `internal_simple_strtoll` over the digits. -/
def addDigit (res : ℕ) (c : Char) : ℕ :=
  let res := if res ≤ (2^64 - 1) / 10 then res * 10 else 2^64 - 1
  let digit := c.toNat - '0'.toNat
  if res ≤ 2^64 - 1 - digit then res + digit else 2^64 - 1

/-- `internal_atoll` of a text that starts with a digit. -/
def internalAtoll (p : List Char) : ℕ := min (2^63 - 1) ((p.takeWhile isDigit).foldl addDigit 0)

/-- The conversion of an `s64` to an `int`. -/
def toInt (n : ℕ) : ℤ := (BitVec.ofNat 32 n).toInt

/-- `parse_number`: the number, and what follows it. -/
def parseNumber (p : List Char) : ℤ × List Char := (toInt (internalAtoll p), p.dropWhile isDigit)

/-- `maybe_parse_param_index`: what follows, and the index, `out` when there is none. -/
def maybeParseParamIndex (p : List Char) (out : ℤ) : List Char × ℤ :=
  if isDigit (peek p) then
    let (number, q) := parseNumber p
    if peek q = '$' then (q.tail, number) else (p, out)
  else (p, out)

/-- `char_is_one_of`. The search comes to the NUL of `s`, and finds it. -/
def charIsOneOf (c : Char) (s : List Char) : Bool := (s ++ [nul]).contains c

/-- `maybe_parse_length_modifier`: what follows, and the modifier. -/
def maybeParseLengthModifier (p : List Char) : Pointer × Char × Char :=
  if charIsOneOf (peek p) ['j', 'z', 't', 'L', 'q'] then (advance p, peek p, nul)
  else if peek p = 'h' then
    let p := p.tail
    if peek p = 'h' then (.at p.tail, 'h', 'h') else (.at p, 'h', nul)
  else if peek p = 'l' then
    let p := p.tail
    if peek p = 'l' then (.at p.tail, 'l', 'l') else (.at p, 'l', nul)
  else (.at p, nul, nul)

/-! ## scanf -/

/-- `ScanfDirective`, without the pointers to its text. -/
structure ScanfDirective where
  argIdx : ℤ
  fieldWidth : ℤ
  suppressed : Bool
  allocate : Bool
  lengthModifier : Char × Char
  convSpecifier : Char
  maybeGnuMalloc : Bool

/-- A directive before anything is parsed. -/
def ScanfDirective.empty : ScanfDirective where
  argIdx := -1
  fieldWidth := 0
  suppressed := false
  allocate := false
  lengthModifier := (nul, nul)
  convSpecifier := nul
  maybeGnuMalloc := false

/-- The rest of a `[...]` expression, which may not hold a character that `stop` excludes; `none` at the
end of the string, or at such a character. -/
def consumeSet (stop : Char → Bool) (p : List Char) : Option (List Char) :=
  let p := if peek p = '^' then p.tail else p
  let p := if peek p = ']' then p.tail else p
  match p.dropWhile fun c => c ≠ ']' && !stop c with
  | [] => none
  | c :: p => if c = ']' then some p else none

/-- The GNU extension `%as`, `%aS` and `%a[...]`: whether it is used, and what follows. -/
def consumeGnuMalloc (p : List Char) : Option (Bool × List Char) :=
  if peek p = 's' || peek p = 'S' then some (true, p.tail)
  else if peek p = '[' then (consumeSet (· = '%') p.tail).map fun p => (true, p)
  else some (false, p)

/-- The end of `scanf_parse_next`, from the conversion specifier on; `none` is a null pointer. -/
def scanfConversion (allowGnuMalloc : Bool) (p : Pointer) (dir : ScanfDirective) :
    Except Fault (Option Pointer × ScanfDirective) := do
  let (conv, p) ← p.next
  let dir := { dir with convSpecifier := conv }
  match p with
  | .behind => return (some .behind, dir)
  | .at p =>
    if conv = '[' then return ((consumeSet (fun _ => false) p).map .at, dir)
    else if allowGnuMalloc && conv = 'a' && dir.lengthModifier.1 = nul then
      match consumeGnuMalloc p with
      | none => return (none, dir)
      | some (gnu, p) => return (some (.at p), { dir with maybeGnuMalloc := gnu })
    else return (some (.at p), dir)

/-- `scanf_parse_next` after a `%` that starts a directive. -/
def scanfDirective (allowGnuMalloc : Bool) (p : List Char) :
    Except Fault (Option Pointer × ScanfDirective) :=
  let (p, argIdx) := maybeParseParamIndex p (-1)
  let dir := { ScanfDirective.empty with argIdx := argIdx }
  let suppressed := peek p = '*'
  let p := if suppressed then p.tail else p
  let dir := { dir with suppressed := suppressed }
  let hasWidth := isDigit (peek p)
  let (fieldWidth, p) := if hasWidth then parseNumber p else (0, p)
  let dir := { dir with fieldWidth := fieldWidth }
  -- The width, if there is one, must be positive.
  if hasWidth && fieldWidth ≤ 0 then .ok (none, dir)
  else
    let allocate := peek p = 'm'
    let p := if allocate then p.tail else p
    let dir := { dir with allocate := allocate }
    let (p, lengthModifier) := maybeParseLengthModifier p
    scanfConversion allowGnuMalloc p { dir with lengthModifier := lengthModifier }

/-- `scanf_parse_next`; `none` is a null pointer. -/
def scanfParseNext (allowGnuMalloc : Bool) :
    List Char → Except Fault (Option Pointer × ScanfDirective)
  | [] => .ok (some (.at []), .empty)
  | c :: p =>
    if c ≠ '%' then scanfParseNext allowGnuMalloc p
    else match p with
      | [] => .ok (none, .empty)
      | d :: rest =>
        if d = '%' then scanfParseNext allowGnuMalloc rest else scanfDirective allowGnuMalloc (d :: rest)

/-! ## printf -/

/-- `PrintfDirective`, without the pointers to its text. -/
structure PrintfDirective where
  fieldWidth : ℤ
  fieldPrecision : ℤ
  argIdx : ℤ
  precisionIdx : ℤ
  starredWidth : Bool
  starredPrecision : Bool
  lengthModifier : Char × Char
  convSpecifier : Char

/-- A directive before anything is parsed. -/
def PrintfDirective.empty : PrintfDirective where
  fieldWidth := 0
  fieldPrecision := 0
  argIdx := -1
  precisionIdx := -1
  starredWidth := false
  starredPrecision := false
  lengthModifier := (nul, nul)
  convSpecifier := nul

/-- `maybe_parse_number`. -/
def maybeParseNumber (p : List Char) (out : ℤ) : List Char × ℤ :=
  if isDigit (peek p) then
    let (number, q) := parseNumber p
    (q, number)
  else (p, out)

/-- `maybe_parse_number_or_star`: what follows, the number, and whether there is a star. -/
def maybeParseNumberOrStar (p : List Char) (out : ℤ) : List Char × ℤ × Bool :=
  if peek p = '*' then (p.tail, out, true)
  else
    let (p, number) := maybeParseNumber p out
    (p, number, false)

/-- The flags of `printf`. -/
def printfFlags : List Char := [Char.ofNat 39, '-', '+', ' ', '#', '0']

/-- The loop over the flags. -/
def skipFlags : List Char → Except Fault (List Char)
  -- The NUL is one of the flags, and the next byte is read.
  | [] => .error .overrun
  | c :: p => if charIsOneOf c printfFlags then skipFlags p else .ok (c :: p)

/-- The precision: what follows, the number, whether there is a star, and its index. -/
def parsePrecision (p : List Char) (precisionIdx : ℤ) : List Char × ℤ × Bool × ℤ :=
  if peek p = '.' then
    let (p, fieldPrecision, starredPrecision) := maybeParseNumberOrStar p.tail 0
    if starredPrecision then
      let (p, precisionIdx) := maybeParseParamIndex p precisionIdx
      (p, fieldPrecision, starredPrecision, precisionIdx)
    else (p, fieldPrecision, starredPrecision, precisionIdx)
  else (p, 0, false, precisionIdx)

/-- `printf_parse_next` after a `%` that starts a directive. The index of the argument is stored as that
of the precision. -/
def printfDirective (p : List Char) : Except Fault (Option Pointer × PrintfDirective) := do
  let (p, precisionIdx) := maybeParseParamIndex p (-1)
  let p ← skipFlags p
  let (p, fieldWidth, starredWidth) := maybeParseNumberOrStar p 0
  let (p, fieldPrecision, starredPrecision, precisionIdx) := parsePrecision p precisionIdx
  let (p, lengthModifier) := maybeParseLengthModifier p
  let (conv, p) ← p.next
  return (some p, {
    fieldWidth := fieldWidth
    fieldPrecision := fieldPrecision
    argIdx := -1
    precisionIdx := precisionIdx
    starredWidth := starredWidth
    starredPrecision := starredPrecision
    lengthModifier := lengthModifier
    convSpecifier := conv })

/-- `printf_parse_next`; `none` is a null pointer. -/
def printfParseNext : List Char → Except Fault (Option Pointer × PrintfDirective)
  | [] => .ok (some (.at []), .empty)
  | c :: p =>
    if c ≠ '%' then printfParseNext p
    else match p with
      | [] => .ok (none, .empty)
      | d :: rest => if d = '%' then printfParseNext rest else printfDirective (d :: rest)

/-! ## The loops -/

/-- What the loops read of a directive. -/
class Directive (δ : Type) where
  convSpecifier : δ → Char

instance : Directive ScanfDirective := ⟨ScanfDirective.convSpecifier⟩

instance : Directive PrintfDirective := ⟨PrintfDirective.convSpecifier⟩

variable {δ σ : Type} [Directive δ]

/-- The loop of `scanf_common` and of `printf_common`, whose fuel is the number of directives. `doWhat` is
what is done with a valid directive: with the state of the arguments it either goes on or leaves the
loop. -/
def directiveLoop (parseNext : List Char → Except Fault (Option Pointer × δ))
    (doWhat : δ → σ → σ ⊕ σ) : ℕ → List Char → σ → Outcome Fault σ
  | _, [], s => .returned s
  | 0, _ :: _, _ => .unfinished
  | fuel + 1, c :: p, s =>
    match parseNext (c :: p) with
    | .error e => .stopped e
    | .ok (none, _) => .returned s
    | .ok (some q, dir) =>
      if Directive.convSpecifier dir = nul then
        -- This can only happen at the end of the format string.
        match q.peek with
        | .error e => .stopped e
        | .ok c => if c = nul then .returned s else .stopped .check
      else match q with
        | .behind => .stopped .overrun
        | .at q => match doWhat dir s with
          | .inl s => directiveLoop parseNext doWhat fuel q s
          | .inr s => .returned s

end Tasan.Format
