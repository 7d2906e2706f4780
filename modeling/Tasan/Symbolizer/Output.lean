import Tasan.Buffer
import Tasan.Libc.Strtoll

/-!
# What a symbolizer has written

`ParseSymbolizePCOutput`, `ParseSymbolizeDataOutput` and `ParseSymbolizeFrameOutput` of
`sanitizer_symbolizer_libcdep.cpp`. The output is an array that ends with a NUL, and so is every
token that `ExtractToken` copies out of it; a load or a store outside its array is an outcome of its
own. What the cursor `pos` has in front of it is `str.drop pos`, and the functions of the C library
look at a string up to its NUL (`cString`).
-/

namespace Tasan.Symbolizer

open FlagParser (nul)
open Format (isDigit)
open Libc (internalSimpleStrtoll)
open Buffer (read write readAt readBlock writeBlock scan)

/-- A load or a store outside an array. -/
inductive OutputFault
  /-- Outside the output of the symbolizer. -/
  | output
  /-- Outside the copy of a token. -/
  | token
  deriving DecidableEq

/-- `ModuleArch`. -/
inductive ModuleArch
  | unknown | i386 | x8664 | x8664h | armv6 | armv7 | armv7s | armv7k | arm64 | loongArch64
  | riscv64 | hexagon
  deriving DecidableEq

/-- `AddressInfo`. A string is the array that holds it, with the NUL. -/
structure AddressInfo where
  address : ℕ
  /-- `module`. It is not null when a tool is asked. -/
  module : List Char
  moduleOffset : ℕ
  moduleArch : ModuleArch
  /-- The first `uuid_size` bytes of `uuid`. -/
  uuid : List (BitVec 8)
  function : Option (List Char)
  functionOffset : ℕ
  file : Option (List Char)
  line : ℤ
  column : ℤ
  deriving DecidableEq

/-- `AddressInfo::AddressInfo`, with the address that `SymbolizedStack::New` stores. -/
def AddressInfo.new (address : ℕ) : AddressInfo where
  address := address
  module := []
  moduleOffset := 0
  moduleArch := .unknown
  uuid := []
  function := none
  functionOffset := 2^64 - 1
  file := none
  line := 0
  column := 0

/-- `AddressInfo::FillModuleInfo` with a name, an offset and an architecture. -/
def AddressInfo.fillModuleInfo (info : AddressInfo) (modName : List Char) (modOffset : ℕ)
    (modArch : ModuleArch) : AddressInfo :=
  { info with module := modName, moduleOffset := modOffset, moduleArch := modArch, uuid := [] }

/-- The parts of `DataInfo` that are read from the output. -/
structure DataInfo where
  name : List Char
  start : ℕ
  size : ℕ
  file : List Char
  line : ℕ

/-- `LocalInfo`. -/
structure LocalInfo where
  functionName : List Char
  name : List Char
  declFile : Option (List Char)
  declLine : ℕ
  hasFrameOffset : Bool
  hasSize : Bool
  hasTagOffset : Bool
  frameOffset : ℤ
  size : ℕ
  tagOffset : ℕ

/-- The conversion of an `s64` to an `int`. -/
def toInt (n : ℤ) : ℤ := (BitVec.ofInt 32 n).toInt

/-- The conversion of an `s64` to a `uptr`. -/
def toUptr (n : ℤ) : ℕ := (n % 2^64).toNat

/-- The name of what is not known. -/
def unknownName : List Char := ['?', '?']

/-- The newline. -/
def newline : Char := Char.ofNat 10

/-- The string at `pos`, up to its NUL. -/
def cString (e : OutputFault) (str : List Char) (pos : ℕ) : Outcome OutputFault (List Char) := do
  let stop ← scan e (· ≠ nul) str pos
  readBlock e str pos (stop - pos)

/-- `internal_strcspn`. -/
def internalStrcspn (e : OutputFault) (str : List Char) (pos : ℕ) (reject : List Char) :
    Outcome OutputFault ℕ := do
  let stop ← scan e (fun c => c ≠ nul && !reject.contains c) str pos
  return stop - pos

/-- `internal_strncmp(str, "??", 2) == 0`. -/
def startsUnknown (str : List Char) (pos : ℕ) : Outcome OutputFault Bool := do
  let text ← cString .output str pos
  return unknownName.isPrefixOf text

/-- `ExtractToken`: the copy of the token, and the cursor behind it. -/
def extractToken (e : OutputFault) (str : List Char) (pos : ℕ) (delims : List Char) :
    Outcome OutputFault (List Char × ℕ) := do
  let prefixLen ← internalStrcspn e str pos delims
  let text ← readBlock e str pos prefixLen
  let result ← writeBlock .token (List.replicate (prefixLen + 1) nul) 0 text
  let result ← write .token result prefixLen nul
  let c ← read e str (pos + prefixLen)
  return (result, if c ≠ nul then pos + prefixLen + 1 else pos + prefixLen)

/-- `ExtractInt`, `ExtractUptr` and `ExtractSptr` before their conversion of the `s64`. -/
def extractNumber (str : List Char) (pos : ℕ) (delims : List Char) :
    Outcome OutputFault (ℤ × ℕ) := do
  let (buff, pos) ← extractToken .output str pos delims
  let text ← cString .token buff 0
  return ((internalSimpleStrtoll text).1, pos)

/-- `ExtractUptr`. -/
def extractUptr (str : List Char) (pos : ℕ) (delims : List Char) : Outcome OutputFault (ℕ × ℕ) := do
  let (n, pos) ← extractNumber str pos delims
  return (toUptr n, pos)

/-- `ExtractSptr`. -/
def extractSptr (str : List Char) (pos : ℕ) (delims : List Char) : Outcome OutputFault (ℤ × ℕ) :=
  extractNumber str pos delims

/-- `while (back > file_line_info && IsDigit(*back)) --back`, from an index that is not negative. -/
def backOverDigits (fileLineInfo : List Char) : ℕ → Outcome OutputFault ℕ
  | 0 => .returned 0
  | back + 1 => do
    let c ← read .token fileLineInfo (back + 1)
    if isDigit c then backOverDigits fileLineInfo back else return back + 1

/-- The same. Nothing is loaded when `back` is before the array. -/
def skipDigits (fileLineInfo : List Char) : ℤ → Outcome OutputFault ℤ
  | .ofNat back => do return ((← backOverDigits fileLineInfo back : ℕ) : ℤ)
  | .negSucc k => .returned (.negSucc k)

/-- The loop of `ParseFileLineInfo`, with `n` rounds left. -/
def splitRounds : ℕ → List Char → ℤ → AddressInfo →
    Outcome OutputFault (List Char × AddressInfo)
  | 0, fileLineInfo, _, info => .returned (fileLineInfo, info)
  | n + 1, fileLineInfo, back, info => do
    let back ← skipDigits fileLineInfo back
    if (← readAt .token fileLineInfo back) ≠ ':' then return (fileLineInfo, info)
    else if !isDigit (← readAt .token fileLineInfo (back + 1)) then return (fileLineInfo, info)
    else
      let number ← cString .token fileLineInfo (back + 1).toNat
      let info := { info with
        column := info.line
        line := toInt (internalSimpleStrtoll number).1 }
      -- The string is cut off at the colon.
      let fileLineInfo ← write .token fileLineInfo back.toNat nul
      splitRounds n fileLineInfo (back - 1) info

/-- `ParseFileLineInfo`. -/
def parseFileLineInfo (str : List Char) (pos : ℕ) (info : AddressInfo) :
    Outcome OutputFault (AddressInfo × ℕ) := do
  let (fileLineInfo, pos) ← extractToken .output str pos [newline]
  let size := (← cString .token fileLineInfo 0).length
  if size ≠ 0 then
    let (fileLineInfo, info) ← splitRounds 2 fileLineInfo (size - 1) info
    let (file, _) ← extractToken .token fileLineInfo 0 []
    return ({ info with file := some file }, pos)
  else return (info, pos)

/-- A name that is "??" is not known. -/
def dropUnknown : Option (List Char) → Outcome OutputFault (Option (List Char))
  | none => .returned none
  | some name => do
    let text ← cString .token name 0
    return if text = unknownName then none else some name

/-- The loop of `ParseSymbolizePCOutput`. The frames that are done start with the one that is there
before, so that there is none as long as `top_frame` is true. -/
def parsePCLoop (str : List Char) (res : AddressInfo) :
    ℕ → ℕ → List AddressInfo → Outcome OutputFault (List AddressInfo)
  | 0, _, _ => .unfinished
  | fuel + 1, pos, done => do
    let (functionName, pos) ← extractToken .output str pos [newline]
    if (← read .token functionName 0) = nul then return done
    else
      let cur := if done.isEmpty then res
        else (AddressInfo.new res.address).fillModuleInfo res.module res.moduleOffset res.moduleArch
      let (info, pos) ← parseFileLineInfo str pos { cur with function := some functionName }
      let function ← dropUnknown info.function
      let file ← dropUnknown info.file
      parsePCLoop str res fuel pos (done ++ [{ info with function := function, file := file }])

/-- `ParseSymbolizePCOutput`: the stack, which keeps its first frame when there is none in the
output. -/
def parseSymbolizePCOutput (fuel : ℕ) (str : List Char) (res : AddressInfo) :
    Outcome OutputFault (List AddressInfo) := do
  let done ← parsePCLoop str res fuel 0 []
  return if done.isEmpty then [res] else done

/-- `ParseSymbolizeDataOutput`. -/
def parseSymbolizeDataOutput (str : List Char) : Outcome OutputFault DataInfo := do
  let (name, pos) ← extractToken .output str 0 [newline]
  let (start, pos) ← extractUptr str pos [' ']
  let (size, pos) ← extractUptr str pos [newline]
  let (file, pos) ← extractToken .output str pos [':']
  let (line, _) ← extractUptr str pos [newline]
  return ⟨name, start, size, file, line⟩

/-- The loop of `ParseSymbolizeFrameOutput`. -/
def parseFrameLoop (str : List Char) : ℕ → ℕ → List LocalInfo → Outcome OutputFault (List LocalInfo)
  | 0, _, _ => .unfinished
  | fuel + 1, pos, locals => do
    if (← read .output str pos) = nul then return locals
    else
      let (functionName, pos) ← extractToken .output str pos [newline]
      let (name, pos) ← extractToken .output str pos [newline]
      let (addr, pos) ← parseFileLineInfo str pos (.new 0)
      let hasFrameOffset := !(← startsUnknown str pos)
      let (frameOffset, pos) ← extractSptr str pos [' ']
      let hasSize := !(← startsUnknown str pos)
      let (size, pos) ← extractUptr str pos [' ']
      let hasTagOffset := !(← startsUnknown str pos)
      let (tagOffset, pos) ← extractUptr str pos [newline]
      let declLine := (BitVec.ofInt 32 addr.line).toNat
      parseFrameLoop str fuel pos (locals ++ [⟨functionName, name, addr.file, declLine,
        hasFrameOffset, hasSize, hasTagOffset, frameOffset, size, tagOffset⟩])

/-- `ParseSymbolizeFrameOutput`. -/
def parseSymbolizeFrameOutput (fuel : ℕ) (str : List Char) (locals : List LocalInfo) :
    Outcome OutputFault (List LocalInfo) := do
  if ← startsUnknown str 0 then return locals else parseFrameLoop str fuel 0 locals

end Tasan.Symbolizer
