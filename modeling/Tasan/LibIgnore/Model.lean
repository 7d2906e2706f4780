import Tasan.FlagParser.Model

/-!
# Code ranges of ignored libraries

`LibIgnore` of `sanitizer_libignore.cpp` keeps the code ranges of the libraries whose names match a
suppression. `onLibraryLoaded` walks the loaded modules for each template, records an executable range of a
module that has come to match, and marks the range of a module that has gone as unloaded. A process that
dies, in `Die` or in a `CHECK`, is an error.
-/

namespace Tasan.LibIgnore

/-! ## Modules -/

/-- `LoadedModule::AddressRange`, of one address at least. -/
structure AddressRange where
  /-- The first address. -/
  beg : ℕ
  /-- The address after the last one. -/
  «end» : ℕ
  /-- Whether the range holds code. -/
  executable : Bool
  /-- A range is not empty. -/
  beg_lt : beg < «end»

/-- The parts of a `LoadedModule` that are read here. -/
structure LoadedModule where
  fullName : List Char
  ranges : List AddressRange
  instrumented : Bool

/-- The executable ranges of a module. -/
def LoadedModule.code (mod : LoadedModule) : List AddressRange := mod.ranges.filter (·.executable)

/-! ## Templates -/

/-- A character that ends a literal part of a template. -/
def isSpecial (c : Char) : Bool := c = '*' || c = '$'

/-- The position of the first occurrence of a literal, as `internal_strstr` finds it. -/
def findLiteral (str literal : List Char) : Option ℕ :=
  if str.length < literal.length then none
  else (List.range (str.length - literal.length + 1)).find? fun pos =>
    (str.drop pos).take literal.length == literal

/-- The loop of `TemplateMatch`, whose fuel is the length of the template. -/
def templateMatchLoop : ℕ → List Char → List Char → Bool → Bool → Bool
  | 0, _, _, _, _ => true
  | _ + 1, [], _, _, _ => true
  | fuel + 1, c :: templ, str, start, asterisk =>
    if c = '*' then templateMatchLoop fuel templ str false true
    else if c = '$' then str.isEmpty || asterisk
    else if str.isEmpty then false
    else
      let literal := c :: templ.takeWhile (!isSpecial ·)
      match findLiteral str literal with
      | none => false
      | some pos =>
        if start && pos ≠ 0 then false
        else templateMatchLoop fuel (templ.dropWhile (!isSpecial ·)) (str.drop (pos + literal.length))
          false false

/-- `TemplateMatch`. -/
def templateMatch (templ str : List Char) : Bool :=
  if str.isEmpty then false
  else match templ with
    | '^' :: templ => templateMatchLoop templ.length templ str true false
    | templ => templateMatchLoop templ.length templ str false false

/-! ## Ignored libraries -/

/-- `LibIgnore::Lib`. -/
structure Lib where
  templ : List Char
  name : Option (List Char)
  /-- `real_name`, the target of a symlink. -/
  realName : Option (List Char)
  /-- `range_id`, with `kInvalidCodeRangeId` as `none`. -/
  rangeId : Option ℕ

/-- `Lib::loaded`. -/
def Lib.loaded (lib : Lib) : Bool := lib.rangeId.isSome

/-- A module matches a library, by its template or by the target of the symlink. -/
def Lib.matchesModule (lib : Lib) (mod : LoadedModule) : Bool :=
  templateMatch lib.templ mod.fullName || lib.realName == some mod.fullName

/-- `LibIgnore::LibCodeRange`. -/
structure LibCodeRange where
  begin : ℕ
  /-- `end`, zero when the module has been unloaded. -/
  «end» : ℕ

/-- `LibCodeRange::IsInRange`. -/
def LibCodeRange.isInRange (range : LibCodeRange) (pc : ℕ) : Bool := range.begin ≤ pc && pc < range.end

/-- `LibCodeRange::OnUnload`. -/
def LibCodeRange.onUnload (range : LibCodeRange) : LibCodeRange := { range with «end» := 0 }

/-- `kMaxIgnoredRanges`. -/
def kMaxIgnoredRanges : ℕ := 128

/-- `kMaxInstrumentedRanges`. -/
def kMaxInstrumentedRanges : ℕ := 1024

/-- The fields of a `LibIgnore`. -/
structure State where
  /-- The part of `libs_` that is in use. -/
  libs : List Lib
  /-- The part of `ignored_code_ranges_` that is in use. -/
  ignoredCodeRanges : List LibCodeRange
  /-- The part of `instrumented_code_ranges_` that is in use. -/
  instrumentedCodeRanges : List LibCodeRange
  trackInstrumentedLibs : Bool

/-- The death of the process. -/
inductive Death
  /-- A suppression is matched against two libraries. -/
  | twoLibraries
  /-- A `CHECK` fails. -/
  | check
  deriving DecidableEq

/-- A call of `OnLibraryLoaded`, or of `OnLibraryUnloaded` when there is no name. -/
structure Call where
  /-- The name that was given to `dlopen`, if any. -/
  name : Option (List Char)
  /-- What `internal_readlink` makes of the name: the target of a symlink, or nothing. -/
  readlink : List Char
  /-- The modules that are loaded. -/
  modules : List LoadedModule

/-- What a call does to a library before the modules are scanned. -/
def Call.link (c : Call) (lib : Lib) : Lib :=
  match c.name with
  | none => lib
  | some name =>
    if c.readlink ≠ [] ∧ !lib.loaded ∧ lib.realName = none ∧ templateMatch lib.templ name then
      { lib with realName := some c.readlink }
    else lib

/-- A library, the ignored code ranges, and the flag `loaded` of a scan. -/
abbrev Scan := Lib × List LibCodeRange × Bool

/-- The loop over the ranges of a module. -/
def scanRanges (mod : LoadedModule) : List AddressRange → Scan → Except Death Scan
  | [], scan => .ok scan
  | range :: rest, (lib, ranges, loaded) =>
    if !range.executable then scanRanges mod rest (lib, ranges, loaded)
    else if !lib.matchesModule mod then scanRanges mod rest (lib, ranges, loaded)
    else if loaded then .error .twoLibraries
    else if lib.loaded then scanRanges mod rest (lib, ranges, true)
    else if ranges.length < kMaxIgnoredRanges then
      -- The loop is left here, whatever other ranges the module has.
      .ok ({ lib with name := some mod.fullName, rangeId := some ranges.length },
        ranges ++ [⟨range.beg, range.end⟩], true)
    else .error .check

/-- The loop over the modules. -/
def scanModules : List LoadedModule → Scan → Except Death Scan
  | [], scan => .ok scan
  | mod :: rest, scan => do
    let scan ← scanRanges mod mod.ranges scan
    scanModules rest scan

/-- What is done to a library in one call. -/
def scanLib (modules : List LoadedModule) (lib : Lib) (ranges : List LibCodeRange) :
    Except Death (Lib × List LibCodeRange) := do
  let (lib, ranges, loaded) ← scanModules modules (lib, ranges, false)
  match lib.rangeId with
  | some id =>
    if !loaded then return ({ lib with rangeId := none }, ranges.modify id .onUnload)
    else return (lib, ranges)
  | none => return (lib, ranges)

/-- The loop over the libraries. -/
def scanLibs (modules : List LoadedModule) :
    List Lib → List LibCodeRange → Except Death (List Lib × List LibCodeRange)
  | [], ranges => .ok ([], ranges)
  | lib :: rest, ranges => do
    let (lib, ranges) ← scanLib modules lib ranges
    let (rest, ranges) ← scanLibs modules rest ranges
    return (lib :: rest, ranges)

/-- `IsPcInstrumented`, and the loop of `IsIgnored`. -/
def isInRanges (ranges : List LibCodeRange) (pc : ℕ) : Bool := ranges.any (·.isInRange pc)

/-- The instrumented code ranges after a range of code. -/
def trackRange (ranges : List LibCodeRange) (range : AddressRange) :
    Except Death (List LibCodeRange) :=
  if isInRanges ranges range.beg && isInRanges ranges (range.end - 1) then .ok ranges
  else if ranges.length < kMaxInstrumentedRanges then .ok (ranges ++ [⟨range.beg, range.end⟩])
  else .error .check

/-- The code of the instrumented modules. -/
def instrumentedCode (modules : List LoadedModule) : List AddressRange :=
  (modules.filter (·.instrumented)).flatMap LoadedModule.code

/-- The last part of `OnLibraryLoaded`: the instrumented code ranges afterwards. -/
def trackInstrumented (modules : List LoadedModule) (s : State) : Except Death (List LibCodeRange) :=
  if s.trackInstrumentedLibs then
    (instrumentedCode modules).foldlM trackRange s.instrumentedCodeRanges
  else .ok s.instrumentedCodeRanges

/-- `OnLibraryLoaded`. -/
def onLibraryLoaded (c : Call) (s : State) : Except Death State := do
  let (libs, ignored) ← scanLibs c.modules (s.libs.map c.link) s.ignoredCodeRanges
  let instrumented ← trackInstrumented c.modules s
  return { s with libs := libs, ignoredCodeRanges := ignored, instrumentedCodeRanges := instrumented }

/-- `IsIgnored`: what it returns, and `pc_in_ignored_lib`. -/
def isIgnored (s : State) (pc : ℕ) : Bool × Bool :=
  if isInRanges s.ignoredCodeRanges pc then (true, true)
  else (s.trackInstrumentedLibs && !isInRanges s.instrumentedCodeRanges pc, false)

/-- `kMaxLibs`. -/
def kMaxLibs : ℕ := 1024

/-- `AddIgnoredLibrary`; `none` is the death of the process. -/
def addIgnoredLibrary (templ : List Char) (s : State) : Option State :=
  if kMaxLibs ≤ s.libs.length then none
  else some { s with
    libs := s.libs ++ [{ templ := templ, name := none, realName := none, rangeId := none }] }

/-- A `LibIgnore` before any library has been added. -/
def initial (trackInstrumentedLibs : Bool) : State where
  libs := []
  ignoredCodeRanges := []
  instrumentedCodeRanges := []
  trackInstrumentedLibs := trackInstrumentedLibs

example : templateMatch "^lib*.so$".toList "libc.so".toList = true := by decide

end Tasan.LibIgnore
