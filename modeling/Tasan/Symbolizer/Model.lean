import Tasan.FlagParser.Model

/-!
# The pipe to the external symbolizer

`SymbolizerProcess` of `sanitizer_symbolizer_libcdep.cpp` sends a command to a symbolizer that runs in
another process and reads its answer into a vector, until the answer is complete by the measure of the
class, `reachedEndOfOutput`. `Addr2LineProcess` of `sanitizer_symbolizer_posix_libcdep.cpp` then cuts off
the terminator. What the other process does is the parameter `Pipe`: what each `read`, `write` and start
of a process returns. The loop over the reads has fuel, since the symbolizer may go on forever.
-/

namespace Tasan.Symbolizer

open FlagParser (nul)

/-! ## Vectors -/

/-- `InternalMmapVector<char>`. Sizes do not wrap: `MmapOrDie` dies before. -/
structure MmapVector where
  /-- The bytes of the mapping at `data_`, as many as the capacity. -/
  data : List Char
  size : ℕ

/-- `RoundUpTo` at the size of a page. -/
def roundUpToPage (pageLog size : ℕ) : ℕ := (size + 2^pageLog - 1) / 2^pageLog * 2^pageLog

namespace MmapVector

variable (pageLog : ℕ) (v : MmapVector)

/-- `capacity`. -/
def capacity : ℕ := v.data.length

/-- The bytes of the vector. -/
def contents : List Char := v.data.take v.size

/-- `Realloc`. A new mapping holds zeros. -/
def realloc (newCapacity : ℕ) : MmapVector :=
  { v with data := v.contents ++ List.replicate (roundUpToPage pageLog newCapacity - v.size) nul }

/-- `reserve`. -/
def reserve (newSize : ℕ) : MmapVector :=
  if newSize > v.capacity then v.realloc pageLog newSize else v

/-- `resize`. -/
def resize (newSize : ℕ) : MmapVector :=
  if newSize > v.size then
    let v := v.reserve pageLog newSize
    { data := v.contents ++ List.replicate (newSize - v.size) nul ++ v.data.drop newSize
      size := newSize }
  else { v with size := newSize }

/-- `clear`. -/
def clear : MmapVector := { v with size := 0 }

/-- `push_back`. -/
def pushBack (element : Char) : MmapVector :=
  let v := if v.size ≥ v.capacity then v.realloc pageLog (2^Nat.clog 2 (v.size + 1)) else v
  { data := v.data.set v.size element, size := v.size + 1 }

/-- The bytes that `read` stores at a position. -/
def store (pos : ℕ) (chunk : List Char) : MmapVector :=
  { v with data := v.data.take pos ++ chunk ++ v.data.drop (pos + chunk.length) }

end MmapVector

/-! ## Processes -/

/-- What comes of starting the symbolizer. -/
inductive Start
  /-- `StartSymbolizerSubprocess` returns before it has pipes to a child. -/
  | failed
  /-- There are pipes to a child, which may have exited already. -/
  | started (inputFd outputFd : ℤ) (running : Bool)

/-- The behaviour of the system towards a `SymbolizerProcess`, by the number of the call. -/
structure Pipe where
  /-- The bytes that a `read` of so many bytes stores, or an error. -/
  read : ℕ → ℕ → Option (List Char)
  /-- `read` stores no more than it is asked for. -/
  read_le : ∀ i count chunk, read i count = some chunk → chunk.length ≤ count
  /-- The number of bytes that a `write` of so many bytes takes, or an error. -/
  write : ℕ → ℕ → Option ℕ
  /-- What comes of starting the symbolizer. -/
  start : ℕ → Start

/-- The fields of a `SymbolizerProcess`, and how many calls it has made. -/
structure SymbolizerProcess where
  inputFd : ℤ
  outputFd : ℤ
  buffer : MmapVector
  timesRestarted : ℕ
  failedToStart : Bool
  /-- How often it has read. -/
  reads : ℕ
  /-- How often it has written. -/
  writes : ℕ
  /-- How often it has started the symbolizer. -/
  starts : ℕ

/-- The classes of processes. -/
inductive Kind
  /-- `LLVMSymbolizerProcess`. -/
  | llvm
  /-- `Addr2LineProcess`. -/
  | addr2line
  /-- `AtosSymbolizerProcess`. -/
  | atos
  deriving DecidableEq

/-- The end of a run. -/
inductive Stop
  /-- `CHECK(garbage)` fails. -/
  | garbage
  /-- A string is read behind the end of its mapping. -/
  | overrun
  deriving DecidableEq

/-- An event of `SendCommand`. -/
inductive Event
  /-- `SendCommandImpl` is called in a state. -/
  | attempt (s : SymbolizerProcess)
  /-- `Restart` is called. -/
  | restart

/-- `kInvalidFd`. -/
def kInvalidFd : ℤ := -1

/-- `kMaxTimesRestarted`. -/
def kMaxTimesRestarted : ℕ := 5

/-- `max_length`. -/
def maxLength : ℕ := 1024

/-- `output_terminator_`, two lines. -/
def outputTerminator : List Char :=
  ['?', '?', Char.ofNat 10, '?', '?', ':', '0', Char.ofNat 10]

/-- `ReachedEndOfOutput` of each class. -/
def reachedEndOfOutput : Kind → List Char → Bool
  | .llvm, buffer => 2 ≤ buffer.length && buffer[buffer.length - 1]? == some (Char.ofNat 10) &&
      buffer[buffer.length - 2]? == some (Char.ofNat 10)
  | .addr2line, buffer =>
      if buffer.length ≤ outputTerminator.length then false
      else buffer.drop (buffer.length - outputTerminator.length) == outputTerminator
  | .atos, buffer => 1 ≤ buffer.length && buffer[buffer.length - 1]? == some (Char.ofNat 10)

/-- `internal_strstr`, from the memory at `haystack` on: the offset of the first occurrence. -/
def internalStrstr (mem needle : List Char) : Outcome Stop (Option ℕ) :=
  if nul ∈ mem then
    let haystack := mem.takeWhile (· ≠ nul)
    if haystack.length < needle.length then .returned none
    else .returned ((List.range (haystack.length - needle.length + 1)).find? fun pos =>
      (haystack.drop pos).take needle.length == needle)
  else .stopped .overrun

variable (pipe : Pipe) (pageLog : ℕ)

/-- The loop of `ReadFromSymbolizer`: the vector, and the number of the next read. -/
def readLoop (reachedEnd : List Char → Bool) :
    ℕ → MmapVector → ℕ → Outcome Stop (MmapVector × ℕ)
  | 0, _, _ => .unfinished
  | fuel + 1, v, i =>
    let sizeBefore := v.size
    let v := v.resize pageLog (sizeBefore + maxLength)
    let v := v.resize pageLog v.capacity
    -- A failed read counts as one of no bytes.
    let chunk := (pipe.read i (v.size - sizeBefore)).getD []
    let v := (v.store sizeBefore chunk).resize pageLog (sizeBefore + chunk.length)
    -- `ret = false` before the `break` sets the `ret` declared in the loop, not the one returned.
    if chunk.length = 0 then .returned (v, i + 1)
    else if reachedEnd v.contents then .returned (v, i + 1)
    else readLoop reachedEnd fuel v (i + 1)

/-- `SymbolizerProcess::ReadFromSymbolizer`. -/
def readFromSymbolizerBase (reachedEnd : List Char → Bool) (fuel : ℕ) (s : SymbolizerProcess) :
    Outcome Stop (Bool × SymbolizerProcess) := do
  let ret := true
  let (v, reads) ← readLoop pipe pageLog reachedEnd fuel s.buffer.clear s.reads
  return (ret, { s with buffer := v.pushBack pageLog nul, reads := reads })

/-- What `Addr2LineProcess::ReadFromSymbolizer` does to a complete answer. -/
def trimGarbage (s : SymbolizerProcess) : Outcome Stop SymbolizerProcess := do
  let garbage ← internalStrstr (s.buffer.data.drop 1) outputTerminator
  match garbage with
  | none => .stopped .garbage
  | some pos =>
    let newSize := pos + 1
    return { s with buffer := (s.buffer.resize pageLog newSize).pushBack pageLog nul }

/-- `ReadFromSymbolizer` of each class. -/
def readFromSymbolizer (kind : Kind) (fuel : ℕ) (s : SymbolizerProcess) :
    Outcome Stop (Bool × SymbolizerProcess) := do
  let (ret, s) ← readFromSymbolizerBase pipe pageLog (reachedEndOfOutput kind) fuel s
  match kind with
  | .llvm | .atos => return (ret, s)
  | .addr2line =>
    if !ret then return (false, s)
    else
      let s ← trimGarbage pageLog s
      return (true, s)

/-- `WriteToSymbolizer`. -/
def writeToSymbolizer (command : List Char) (s : SymbolizerProcess) : Bool × SymbolizerProcess :=
  if command.length = 0 then (true, s)
  else (pipe.write s.writes command.length == some command.length, { s with writes := s.writes + 1 })

/-- `Restart`. What it returns is not looked at. -/
def restart (s : SymbolizerProcess) : SymbolizerProcess :=
  match pipe.start s.starts with
  | .failed => { s with starts := s.starts + 1 }
  | .started inputFd outputFd _ =>
    { s with inputFd := inputFd, outputFd := outputFd, starts := s.starts + 1 }

/-- `SendCommandImpl`. -/
def sendCommandImpl (kind : Kind) (command : List Char) (fuel : ℕ) (s : SymbolizerProcess) :
    Outcome Stop (Option MmapVector × SymbolizerProcess) :=
  if s.inputFd = kInvalidFd ∨ s.outputFd = kInvalidFd then .returned (none, s)
  else
    let (written, s) := writeToSymbolizer pipe command s
    if !written then .returned (none, s)
    else do
      let (ret, s) ← readFromSymbolizer pipe pageLog kind fuel s
      if !ret then return (none, s) else return (some s.buffer, s)

/-- The loop of `SendCommand`, with what is left of `kMaxTimesRestarted`: the answer, the process and the
events. -/
def sendCommandLoop (kind : Kind) (command : List Char) (fuel : ℕ) :
    ℕ → SymbolizerProcess → Outcome Stop (Option MmapVector × SymbolizerProcess × List Event)
  | 0, s => .returned (none, { s with failedToStart := true }, [])
  | n + 1, s => do
    let (res, s') ← sendCommandImpl pipe pageLog kind command fuel s
    match res with
    | some buffer => return (some buffer, s', [.attempt s])
    | none =>
      let s' := restart pipe s'
      let (res, s', events) ←
        sendCommandLoop kind command fuel n { s' with timesRestarted := s'.timesRestarted + 1 }
      return (res, s', .attempt s :: .restart :: events)

/-- `SendCommand`. `isSameModule` is whether the symbolizer would start itself. -/
def sendCommand (isSameModule : Bool) (kind : Kind) (command : List Char) (fuel : ℕ)
    (s : SymbolizerProcess) : Outcome Stop (Option MmapVector × SymbolizerProcess × List Event) :=
  if s.failedToStart then .returned (none, s, [])
  else if isSameModule then .returned (none, { s with failedToStart := true }, [])
  else sendCommandLoop pipe pageLog kind command fuel (kMaxTimesRestarted - s.timesRestarted) s

end Tasan.Symbolizer
