import Tasan.Format.Sizes

/-!
# The formatter of the runtime

`VSNPrintf` of `sanitizer_printf.cpp` with the functions that append to its buffer, on a target
whose `long` and pointers have 64 bits. The buffer is the list of the characters from `buff` on, and
`Printed` is where the next one goes, with the number of those that there would have been with room
for all. A failed `CHECK` is an outcome of its own.
-/

namespace Tasan.Print

open FlagParser (nul)
open Format (peek isDigit decimal)

/-- What the formatter depends on. -/
structure Target where
  /-- `SANITIZER_POINTER_FORMAT_LENGTH`. -/
  pointerLength : ℕ
  /-- It is less than `kMaxLen` of `AppendNumber`. -/
  pointerLength_lt : pointerLength < 30

/-- A variable argument. -/
inductive Arg
  /-- Of type `int` or `unsigned`. -/
  | int (v : BitVec 32)
  /-- Of a type with 64 bits, or a pointer. -/
  | long (v : BitVec 64)
  /-- The string that a `char *` points to, up to its NUL, or the null pointer. -/
  | str (s : Option (List Char))

/-- The ways in which the formatter stops. -/
inductive Fault
  /-- A `CHECK` or `RAW_CHECK` fails. -/
  | check
  /-- Not a death: there is no argument of the type that is asked for. -/
  | noArg
  deriving DecidableEq

/-- What has been printed. -/
structure Printed where
  /-- `buff`, as an index. -/
  pos : ℕ
  /-- The buffer. -/
  mem : List Char
  result : ℕ

/-- `AppendChar`. -/
def appendChar (buffEnd : ℕ) (c : Char) (s : Printed) : Printed :=
  if s.pos < buffEnd then ⟨s.pos + 1, s.mem.set s.pos c, s.result + 1⟩
  else ⟨s.pos, s.mem, s.result + 1⟩

/-! ## Numbers -/

/-- The digits of a number, the first one at the front. There is room for so many more of them in
`num_buffer`. -/
def digitLoop (base : ℕ) : ℕ → ℕ → List ℕ → Outcome Fault (List ℕ)
  | 0, _, _ => .stopped .check
  | room + 1, value, digits =>
    if value / base = 0 then .returned (value % base :: digits)
    else digitLoop base room (value / base) (value % base :: digits)

/-- The loop over the leading zeros: the digits that are left. -/
def leadingLoop (buffEnd : ℕ) (padWithZero : Bool) : List ℕ → Printed → List ℕ × Printed
  | [], s => ([], s)
  | d :: digits, s =>
    if d = 0 then
      leadingLoop buffEnd padWithZero digits
        (appendChar buffEnd (if padWithZero || digits.isEmpty then '0' else ' ') s)
    else (d :: digits, s)

/-- A digit as a character. -/
def digitChar (uppercase : Bool) (d : ℕ) : Char :=
  if d < 10 then Char.ofNat ('0'.toNat + d)
  else Char.ofNat ((if uppercase then 'A' else 'a').toNat + d - 10)

/-- The loop over the digits. -/
def digitsLoop (buffEnd : ℕ) (uppercase : Bool) : List ℕ → Printed → Printed
  | [], s => s
  | d :: digits, s =>
    digitsLoop buffEnd uppercase digits (appendChar buffEnd (digitChar uppercase d) s)

/-- `AppendNumber`. -/
def appendNumber (buffEnd absoluteValue base minimalNumLength : ℕ)
    (padWithZero negative uppercase : Bool) (s : Printed) : Outcome Fault Printed :=
  if (base = 10 ∨ base = 16) ∧ (base = 10 ∨ negative = false) ∧
      (absoluteValue ≠ 0 ∨ negative = false) ∧ minimalNumLength < 30 then do
    let minimalNumLength :=
      if negative = true ∧ minimalNumLength ≠ 0 then minimalNumLength - 1 else minimalNumLength
    let s := if negative && padWithZero then appendChar buffEnd '-' s else s
    let digits ← digitLoop base 30 absoluteValue []
    let (digits, s) := leadingLoop buffEnd padWithZero
      (List.replicate (minimalNumLength - digits.length) 0 ++ digits) s
    let s := if negative && !padWithZero then appendChar buffEnd '-' s else s
    return digitsLoop buffEnd uppercase digits s
  else .stopped .check

/-- `AppendUnsigned`. The width is narrowed to a byte. -/
def appendUnsigned (buffEnd num base minimalNumLength : ℕ) (padWithZero uppercase : Bool)
    (s : Printed) : Outcome Fault Printed :=
  appendNumber buffEnd num base (minimalNumLength % 2^8) padWithZero false uppercase s

/-- `AppendSignedDecimal`. -/
def appendSignedDecimal (buffEnd : ℕ) (num : BitVec 64) (minimalNumLength : ℕ) (padWithZero : Bool)
    (s : Printed) : Outcome Fault Printed :=
  let negative : Bool := num.toInt < 0
  appendNumber buffEnd (if negative then -num else num).toNat 10 (minimalNumLength % 2^8)
    padWithZero negative false s

/-! ## Strings -/

/-- The loop over the characters of a string, with the number of those before. -/
def stringLoop (buffEnd : ℕ) (maxChars : ℤ) : List Char → ℕ → Printed → ℕ × Printed
  | [], n, s => (n, s)
  | c :: str, n, s =>
    if 0 ≤ maxChars ∧ maxChars ≤ n then (n, s)
    else stringLoop buffEnd maxChars str (n + 1) (appendChar buffEnd c s)

/-- The loop over the spaces behind a string of `n` characters. There are at most `-width`. -/
def padLoop (buffEnd : ℕ) (width : ℤ) : ℕ → ℕ → Printed → Printed
  | 0, _, s => s
  | fuel + 1, n, s =>
    if width < -(n : ℤ) then padLoop buffEnd width fuel (n + 1) (appendChar buffEnd ' ' s) else s

/-- The string for a null pointer. -/
def nullString : List Char := ['<', 'n', 'u', 'l', 'l', '>']

/-- `AppendString`. -/
def appendString (buffEnd : ℕ) (width maxChars : ℤ) (str : Option (List Char)) (s : Printed) :
    Printed :=
  let (n, s) := stringLoop buffEnd maxChars (str.getD nullString) 0 s
  padLoop buffEnd width (-width).toNat n s

/-- `AppendPointer`. -/
def appendPointer (T : Target) (buffEnd ptrValue : ℕ) (s : Printed) : Outcome Fault Printed :=
  appendUnsigned buffEnd ptrValue 16 T.pointerLength true false
    (appendString buffEnd 0 (-1) (some ['0', 'x']) s)

/-! ## Directives -/

/-- `va_arg` of an `int`. -/
def vaInt : List Arg → Outcome Fault (BitVec 32 × List Arg)
  | .int v :: args => .returned (v, args)
  | _ => .stopped .noArg

/-- `va_arg` of a type with 64 bits. -/
def vaLong : List Arg → Outcome Fault (BitVec 64 × List Arg)
  | .long v :: args => .returned (v, args)
  | _ => .stopped .noArg

/-- `va_arg` of a `char *`. -/
def vaString : List Arg → Outcome Fault (Option (List Char) × List Arg)
  | .str s :: args => .returned (s, args)
  | _ => .stopped .noArg

/-- `va_arg` of a precision, if there is one. -/
def vaPrecision (havePrecision : Bool) (args : List Arg) : Outcome Fault (ℤ × List Arg) :=
  if havePrecision then do
    let (v, args) ← vaInt args
    return (v.toInt, args)
  else .returned (-1, args)

/-- `va_arg` of a signed number. -/
def vaSigned (haveLength : Bool) (args : List Arg) : Outcome Fault (BitVec 64 × List Arg) :=
  if haveLength then vaLong args
  else do
    let (v, args) ← vaInt args
    return (v.signExtend 64, args)

/-- `va_arg` of an unsigned number. -/
def vaUnsigned (haveLength : Bool) (args : List Arg) : Outcome Fault (BitVec 64 × List Arg) :=
  if haveLength then vaLong args
  else do
    let (v, args) ← vaInt args
    return (v.setWidth 64, args)

/-- The parts of a directive before its last character. -/
structure Spec where
  leftJustified : Bool
  haveWidth : Bool
  padWithZero : Bool
  width : ℕ
  precision : ℤ
  /-- `have_length`, which is true for `z`, `l` and `ll`. -/
  haveLength : Bool

/-- `have_flags`. -/
def Spec.haveFlags (spec : Spec) : Bool := spec.haveWidth || spec.haveLength

/-- The length modifier: whether there is one, and what follows. -/
def parseLength (cur : List Char) : Bool × List Char :=
  let haveZ : Bool := peek cur = 'z'
  let cur := if haveZ then cur.tail else cur
  let haveL : Bool := peek cur = 'l' ∧ peek cur.tail ≠ 'l'
  let cur := if haveL then cur.tail else cur
  let haveLl : Bool := peek cur = 'l' ∧ peek cur.tail = 'l'
  let cur := if haveLl then cur.tail.tail else cur
  (haveZ || haveL || haveLl, cur)

/-- A directive up to its last character: its parts, what is left of it, and the arguments. -/
def parseSpec (cur : List Char) (args : List Arg) :
    Outcome Fault (Spec × List Char × List Arg) := do
  let leftJustified : Bool := peek cur = '-'
  let cur := if leftJustified then cur.tail else cur
  let haveWidth := isDigit (peek cur)
  let padWithZero : Bool := peek cur = '0'
  let width := decimal (cur.takeWhile isDigit)
  let cur := cur.dropWhile isDigit
  let havePrecision : Bool := peek cur = '.' ∧ peek cur.tail = '*'
  let (precision, args) ← vaPrecision havePrecision args
  let cur := if havePrecision then cur.tail.tail else cur
  let (haveLength, cur) := parseLength cur
  return ({ leftJustified, haveWidth, padWithZero, width, precision, haveLength }, cur, args)

/-- The last character of a directive. -/
def convert (T : Target) (buffEnd : ℕ) (spec : Spec) (c : Char) (args : List Arg) (s : Printed) :
    Outcome Fault (Printed × List Arg) :=
  if (0 ≤ spec.precision ∨ spec.leftJustified = true) ∧ c ≠ 's' then .stopped .check
  else if c = 'd' then do
    let (dval, args) ← vaSigned spec.haveLength args
    let s ← appendSignedDecimal buffEnd dval spec.width spec.padWithZero s
    return (s, args)
  else if c = 'u' ∨ c = 'x' ∨ c = 'X' then do
    let (uval, args) ← vaUnsigned spec.haveLength args
    let s ← appendUnsigned buffEnd uval.toNat (if c = 'u' then 10 else 16) spec.width
      spec.padWithZero (c = 'X') s
    return (s, args)
  else if c = 'p' then
    if spec.haveFlags then .stopped .check
    else do
      let (v, args) ← vaLong args
      let s ← appendPointer T buffEnd v.toNat s
      return (s, args)
  else if c = 's' then
    if spec.haveLength = true ∨ spec.haveWidth = true ∧ spec.leftJustified = false then
      .stopped .check
    else do
      let (str, args) ← vaString args
      return (appendString buffEnd (if spec.leftJustified then -spec.width else spec.width)
        spec.precision str s, args)
  else if c = 'c' then
    if spec.haveFlags then .stopped .check
    else do
      let (v, args) ← vaInt args
      return (appendChar buffEnd (Char.ofNat (v.toNat % 2^8)) s, args)
  else if c = '%' then
    if spec.haveFlags then .stopped .check else .returned (appendChar buffEnd '%' s, args)
  else .stopped .check

/-- The loop of `VSNPrintf`. -/
def printLoop (T : Target) (buffEnd : ℕ) :
    ℕ → List Char → List Arg → Printed → Outcome Fault Printed
  | _, [], _, s => .returned s
  | 0, _ :: _, _, _ => .unfinished
  | fuel + 1, c :: cur, args, s =>
    if c ≠ '%' then printLoop T buffEnd fuel cur args (appendChar buffEnd c s)
    else do
      let (spec, cur, args) ← parseSpec cur args
      let (s, args) ← convert T buffEnd spec (peek cur) args s
      printLoop T buffEnd fuel cur.tail args s

/-- `VSNPrintf`: the buffer, and the result. The last character that fits is kept for the NUL. -/
def vsnprintf (T : Target) (buffLength : ℤ) (mem format : List Char) (args : List Arg) :
    Outcome Fault (List Char × ℕ) :=
  if buffLength ≤ 0 then .stopped .check
  else do
    let buffEnd := (buffLength - 1).toNat
    let s ← printLoop T buffEnd format.length format args ⟨0, mem, 0⟩
    if buffEnd < s.pos then .stopped .check
    else return ((appendChar (buffEnd + 1) nul s).mem, s.result)

end Tasan.Print
