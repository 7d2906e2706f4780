import Tasan.Fuel

/-!
# The parser of options strings

`sanitizer_flag_parser.cpp`: a cursor machine over a NUL-terminated string, which calls the handler of
each flag as soon as it has read its value. A handler may parse further strings with the same parser: the
include flags do, with the contents of a file. The memory of a string is the list of its characters, and
a read behind its end is an outcome of its own (`Stop.overrun`). The fuel bounds the number of flags and
the depth of the nested calls; `Tasan.Outcome.limit` takes it away again.
-/

namespace Tasan.FlagParser

/-- The character that ends a string. -/
def nul : Char := Char.ofNat 0

/-- The single quote. -/
def singleQuote : Char := Char.ofNat 39

/-- The double quote. -/
def doubleQuote : Char := Char.ofNat 34

/-- The ways in which the parser stops. -/
inductive Stop
  /-- `ERROR: expected '='`, with the name of the option where it is known. -/
  | expectedEquals (envOptionName : Option (List Char))
  /-- `ERROR: unterminated string`. -/
  | unterminatedString
  /-- `ERROR: expected separator or eol`. -/
  | expectedSeparator
  /-- `ERROR: Flag parsing failed.` -/
  | flagParsingFailed
  /-- The `CHECK` of `UnknownFlags::Add`. -/
  | tooManyUnknownFlags
  /-- Not a death: memory behind the string is read. -/
  | overrun
  deriving DecidableEq

/-- `kMaxUnknownFlags`. -/
def kMaxUnknownFlags : ℕ := 20

/-- The parser. -/
structure Parser (σ : Type) where
  /-- The memory at `buf_`. -/
  buf : List Char := []
  pos : ℕ := 0
  /-- The names in `unknown_flags`. -/
  unknownFlags : List (List Char) := []
  /-- The values of the flags, and what else the handlers change. -/
  flags : σ

/-- What a handler does: it changes the flags, may call `ParseString`, and in the end accepts or rejects
its value. -/
inductive Action (σ : Type)
  /-- The handler returns. -/
  | done (accepted : Bool) (flags : σ)
  /-- The handler calls `ParseString` and then goes on. -/
  | parseString (s : Option (List Char)) (envName : Option (List Char)) (flags : σ)
    (next : σ → Action σ)

/-- `FlagHandlerBase::Parse`. -/
abbrev Handler (σ : Type) := List Char → σ → Action σ

/-- The registered flags and their surroundings. -/
structure Config (σ : Type) where
  /-- The names and handlers in `flags_`. -/
  handlers : List (List Char × Handler σ)
  /-- The check of `malloc_context_size` at the end of `parse_flags`. -/
  sanityCheck : σ → σ := id

variable {σ : Type}

/-! ## Reading -/

/-- `is_space`. -/
def isSpace (c : Char) : Bool :=
  c = ' ' || c = ',' || c = ':' || c = Char.ofNat 10 || c = Char.ofNat 9 || c = Char.ofNat 13

/-- `buf_[pos]`. -/
def read (buf : List Char) (pos : ℕ) : Outcome Stop Char :=
  match buf[pos]? with
  | some c => .returned c
  | none => .stopped .overrun

/-- The loop `while (p(buf_[pos])) ++pos` over the characters from `pos` on. -/
def advanceWhile (p : Char → Bool) : List Char → ℕ → Outcome Stop ℕ
  | [], _ => .stopped .overrun
  | c :: rest, pos => if p c then advanceWhile p rest (pos + 1) else .returned pos

/-- The position where the loop ends that starts at `pos`. -/
def scan (p : Char → Bool) (buf : List Char) (pos : ℕ) : Outcome Stop ℕ :=
  advanceWhile p (buf.drop pos) pos

/-- `ll_strndup`. -/
def llStrndup (s : List Char) (n : ℕ) : List Char := (s.take n).takeWhile (· ≠ nul)

/-- `skip_whitespace`. -/
def skipWhitespace (p : Parser σ) : Outcome Stop (Parser σ) := do
  let pos ← scan isSpace p.buf p.pos
  return { p with pos := pos }

/-! ## Flags -/

/-- Whether a character of a name goes on. -/
def inName (c : Char) : Bool := c ≠ nul && c ≠ '=' && !isSpace c

/-- Whether a character of a value without quotes goes on. -/
def inValue (c : Char) : Bool := c ≠ nul && !isSpace c

/-- Whether a character of a value in quotes goes on. -/
def inQuotes (quote c : Char) : Bool := c ≠ nul && c ≠ quote

/-- The value in `parse_flag`, from the position behind the `=` on, with the position behind the value. -/
def parseValue (buf : List Char) (valueStart : ℕ) : Outcome Stop (List Char × ℕ) := do
  let quote ← read buf valueStart
  if quote = singleQuote ∨ quote = doubleQuote then
    let pos ← scan (inQuotes quote) buf (valueStart + 1)
    let c ← read buf pos
    if c = nul then .stopped .unterminatedString
    else return (llStrndup (buf.drop (valueStart + 1)) (pos - valueStart - 1), pos + 1)
  else
    let pos ← scan inValue buf valueStart
    let c ← read buf pos
    if c ≠ nul ∧ ¬ isSpace c then .stopped .expectedSeparator
    else return (llStrndup (buf.drop valueStart) (pos - valueStart), pos)

/-- What a handler calls for `ParseString`, of a string and the name of its option. -/
abbrev Nested (σ : Type) :=
  Option (List Char) → Option (List Char) → Parser σ → Outcome Stop (Parser σ)

/-- A handler runs, with `nested` for `ParseString`. -/
def runAction (nested : Nested σ) : Action σ → Parser σ → Outcome Stop (Bool × Parser σ)
  | .done accepted flags, p => .returned (accepted, { p with flags := flags })
  | .parseString s envName flags next, p => do
    let p ← nested s envName { p with flags := flags }
    runAction nested (next p.flags) p

/-- `UnknownFlags::Add`. -/
def addUnknown (name : List Char) (p : Parser σ) : Outcome Stop (Parser σ) :=
  if p.unknownFlags.length < kMaxUnknownFlags then
    .returned { p with unknownFlags := p.unknownFlags ++ [name] }
  else .stopped .tooManyUnknownFlags

/-- `run_handler`. -/
def runHandler (cfg : Config σ) (nested : Nested σ) (name value : List Char) (p : Parser σ) :
    Outcome Stop (Bool × Parser σ) :=
  match cfg.handlers.find? (·.1 = name) with
  | some (_, handler) => runAction nested (handler value p.flags) p
  | none => do
    -- This is not a fatal error, a warning may be printed later.
    let p ← addUnknown name p
    return (true, p)

/-- The end of `parse_flag`: the handler runs, and must accept the value. -/
def applyFlag (cfg : Config σ) (nested : Nested σ) (p : Parser σ) (flag : List Char × List Char) :
    Outcome Stop (Parser σ) := do
  let (res, p) ← runHandler cfg nested flag.1 flag.2 p
  if !res then .stopped .flagParsingFailed else return p

/-- `parse_flag`. -/
def parseFlag (cfg : Config σ) (nested : Nested σ) (envOptionName : Option (List Char)) (p : Parser σ) :
    Outcome Stop (Parser σ) := do
  let nameStart := p.pos
  let pos ← scan inName p.buf nameStart
  let c ← read p.buf pos
  if c ≠ '=' then .stopped (.expectedEquals envOptionName)
  else
    let name := llStrndup (p.buf.drop nameStart) (pos - nameStart)
    let (value, pos) ← parseValue p.buf (pos + 1)
    applyFlag cfg nested { p with pos := pos } (name, value)

/-- `ParseString`, around `parse_flags`. -/
def withString (flags : Option (List Char) → Parser σ → Outcome Stop (Parser σ)) : Nested σ :=
  fun s envOptionName p =>
    match s with
    | none => .returned p
    | some text => do
      let p' ← flags envOptionName { p with buf := text, pos := 0 }
      return { p' with buf := p.buf, pos := p.pos }

/-- `parse_flags`. -/
def parseFlags (cfg : Config σ) : ℕ → Option (List Char) → Parser σ → Outcome Stop (Parser σ)
  | 0, _, _ => .unfinished
  | n + 1, envOptionName, p => do
    let p ← skipWhitespace p
    let c ← read p.buf p.pos
    if c = nul then return { p with flags := cfg.sanityCheck p.flags }
    else
      let p ← parseFlag cfg (withString (parseFlags cfg n)) envOptionName p
      parseFlags cfg n envOptionName p

/-- `ParseString`. -/
def parseString (cfg : Config σ) (n : ℕ) : Nested σ := withString (parseFlags cfg n)

/-! ## Files -/

/-- What `ReadFileToBuffer` leaves in the buffer: a file that is as long as the buffer may be is not
followed by a NUL. -/
def fileBuffer (maxLen : ℕ) (content : List Char) : List Char :=
  if content.length < maxLen then content ++ [nul] else content.take maxLen

/-- `ParseFile`, where `readFile` gives the contents of the files that can be read. -/
def parseFile (readFile : List Char → Option (List Char)) (pageSize : ℕ) (path : List Char)
    (ignoreMissing : Bool) (flags : σ) (next : Bool → σ → Action σ) : Action σ :=
  match readFile path with
  | none => next ignoreMissing flags
  | some content =>
    .parseString (some (fileBuffer (max (2^15) pageSize) content)) (some path) flags (next true)

/-- `FlagHandlerInclude::Parse`, where `substitute` is `SubstituteForFlagValue`. -/
def includeHandler (readFile : List Char → Option (List Char)) (pageSize : ℕ)
    (substitute : List Char → List Char) (ignoreMissing : Bool) : Handler σ := fun value flags =>
  let path := if '%' ∈ value then substitute value else value
  parseFile readFile pageSize path ignoreMissing flags .done

end Tasan.FlagParser
