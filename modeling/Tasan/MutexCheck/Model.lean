import Mathlib.Tactic

/-!
# The check of the mutex hierarchy

`DebugMutexInit` and `InternalDeadlockDetector` of `sanitizer_mutex.cpp`. A tool describes in `mutex_meta`
which types of mutexes can be locked under which; the table is turned into a matrix once, and the detector
of each thread checks every mutex that the thread locks against the type that it has locked last. A failing
`CHECK` and `Die` stop the program. `CHECK_LT` compares its arguments as unsigned words, so that a negative
type is too large for it. The sequence numbers and the recursion counts are not bounded here.
-/

namespace Tasan.MutexCheck

/-- The program stops. -/
inductive Stop
  /-- A `CHECK` fails. -/
  | check
  | die
  deriving DecidableEq

theorem bind_eq_ok {α β : Type} {x : Except Stop α} {f : α → Except Stop β} {b : β} :
    x >>= f = .ok b ↔ ∃ a, x = .ok a ∧ f a = .ok b := by
  cases x with
  | error e => exact iff_of_false nofun nofun
  | ok a => exact ⟨fun h => ⟨a, rfl, h⟩, fun ⟨_, ha, h⟩ => Except.ok.inj ha ▸ h⟩

/-- `kMutexTypeMax`. -/
def kMutexTypeMax : ℕ := 20

/-- `MutexInvalid`. -/
def mutexInvalid : ℤ := 0

/-- `MutexUnchecked`. -/
def mutexUnchecked : ℤ := -1

/-- `MutexLeaf`. -/
def mutexLeaf : ℤ := -1

/-- `MutexMulti`. -/
def mutexMulti : ℤ := -3

/-- `MutexMeta`. -/
structure MutexMeta where
  type : ℤ
  name : Option String
  canLock : List ℤ

/-- `mutex_meta`; the entries from `kMutexTypeMax` on are never read. -/
abbrev MetaTable := ℕ → MutexMeta

/-- `CHECK_LT`. -/
def checkLt (z : ℤ) (n : ℕ) : Bool := 0 ≤ z && z < n

/-! ## DebugMutexInit -/

/-- The matrix, the marks and the counters that `DebugMutexInit` fills. -/
structure Scan where
  /-- `mutex_can_lock`. -/
  canLock : ℕ → ℕ → Bool
  /-- `mutex_multi`. -/
  multi : ℕ → Bool
  leaf : ℕ → Bool
  cnt : ℕ → ℕ

/-- All zero. -/
def Scan.zero : Scan := ⟨fun _ _ => false, fun _ => false, fun _ => false, fun _ => 0⟩

/-- `mutex_can_lock[t][z] = true`. -/
def setCanLock (canLock : ℕ → ℕ → Bool) (t z : ℕ) : ℕ → ℕ → Bool :=
  Function.update canLock t (Function.update (canLock t) z true)

/-- The loop over the `can_lock` of the type `t`. -/
def scanEntries (t : ℕ) : List ℤ → Scan → Except Stop Scan
  | [], s => .ok s
  | z :: zs, s =>
    if z = mutexInvalid then .ok s
    else if z = mutexLeaf then
      if s.leaf t then .error .check
      else scanEntries t zs { s with leaf := Function.update s.leaf t true }
    else if z = mutexMulti then
      scanEntries t zs { s with multi := Function.update s.multi t true }
    else if !checkLt z kMutexTypeMax then .error .check
    else if s.canLock t z.toNat then .error .check
    else scanEntries t zs { s with
      canLock := setCanLock s.canLock t z.toNat
      cnt := Function.update s.cnt t (s.cnt t + 1) }

/-- The loop over the types, with the value of `mutex_type_count`. -/
def scanTypes (mutexMeta : MetaTable) : List ℕ → ℕ → Scan → Except Stop (ℕ × Scan)
  | [], count, s => .ok (count, s)
  | t :: ts, _, s =>
    if (mutexMeta t).name = none then .ok (t, s)
    else if (mutexMeta t).type ≠ t then .error .check
    else do
      let s ← scanEntries t (mutexMeta t).canLock s
      scanTypes mutexMeta ts t s

/-- The inner loop of the loop that adds the leaf mutexes: the leaf `t` can be locked under `z`. -/
def addLeaf (leaf : ℕ → Bool) (t : ℕ) : List ℕ → (ℕ → ℕ → Bool) → Except Stop (ℕ → ℕ → Bool)
  | [], canLock => .ok canLock
  | z :: zs, canLock =>
    if (z : ℤ) = mutexInvalid ∨ t = z ∨ leaf z then addLeaf leaf t zs canLock
    else if canLock z t then .error .check
    else addLeaf leaf t zs (setCanLock canLock z t)

/-- The loop that adds the leaf mutexes. -/
def addLeaves (s : Scan) (count : ℕ) : List ℕ → (ℕ → ℕ → Bool) → Except Stop (ℕ → ℕ → Bool)
  | [], canLock => .ok canLock
  | t :: ts, canLock =>
    if !s.leaf t then addLeaves s count ts canLock
    else if s.cnt t ≠ 0 then .error .check
    else do
      let canLock ← addLeaf s.leaf t (List.range count) canLock
      addLeaves s count ts canLock

/-- A row of `trans`: the loop over `j`. -/
def transRow (canLock : ℕ → Bool) (count : ℕ) : ℕ :=
  (List.range count).foldl (fun row j => if canLock j then row ||| 1 <<< j else row) 0

/-- The loop over `i` of the transitive closure. -/
def closeRow (k : ℕ) (trans : ℕ → ℕ) (i : ℕ) : ℕ → ℕ :=
  if (trans i).testBit k then Function.update trans i (trans i ||| trans k) else trans

/-- The loops of the transitive closure. -/
def closure (count : ℕ) (trans : ℕ → ℕ) : ℕ → ℕ :=
  (List.range count).foldl (fun trans k => (List.range count).foldl (closeRow k) trans) trans

/-- What `DebugMutexInit` leaves in the global variables. -/
structure Tables where
  /-- `mutex_type_count`. -/
  count : ℕ
  /-- `mutex_can_lock`. -/
  canLock : ℕ → ℕ → Bool
  /-- `mutex_multi`. -/
  multi : ℕ → Bool

/-- `DebugMutexInit`. -/
def debugMutexInit (mutexMeta : MetaTable) : Except Stop Tables := do
  let (count, s) ← scanTypes mutexMeta (List.range kMutexTypeMax) 0 .zero
  if !checkLt count kMutexTypeMax then .error .check
  else do
    let canLock ← addLeaves s count (List.range count) s.canLock
    let trans := closure count fun i => transRow (canLock i) count
    if (List.range count).any fun i => (trans i).testBit i then .error .die
    else .ok ⟨count, canLock, s.multi⟩

/-! ## InternalDeadlockDetector -/

/-- `LockDesc`. -/
structure LockDesc where
  seq : ℕ
  pc : ℕ
  recursion : ℕ

/-- `InternalDeadlockDetector`. -/
structure Detector where
  initialized : ℤ
  sequence : ℕ
  locked : ℕ → LockDesc

/-- The detector of a new thread. -/
def Detector.zero : Detector := ⟨0, 0, fun _ => ⟨0, 0, 0⟩⟩

/-- The tables, which `DebugMutexInit` makes when they are not there; `mutex_type_count` is negative until
then. -/
def getTables (mutexMeta : MetaTable) : Option Tables → Except Stop Tables
  | some T => .ok T
  | none => debugMutexInit mutexMeta

/-- `Initialize`: the global variables, the detector and the result. -/
def initializeDetector (mutexMeta : MetaTable) (tables : Option Tables) (d : Detector) (type : ℤ) :
    Except Stop (Option Tables × Detector × Bool) :=
  if type = mutexUnchecked ∨ type = mutexInvalid then .ok (tables, d, false)
  else if d.initialized ≠ 0 then .ok (tables, d, 0 < d.initialized)
  else do
    let T ← getTables mutexMeta tables
    let initialized : ℤ := if T.count ≠ 0 then 1 else -1
    return (some T, { d with initialized := initialized }, 0 < initialized)

/-- The loop of `Lock` that finds the last locked type: `max_seq` and `max_idx`. -/
def findLast (locked : ℕ → LockDesc) : List ℕ → ℕ × ℕ → Except Stop (ℕ × ℕ)
  | [], r => .ok r
  | i :: is, (maxSeq, maxIdx) =>
    if (locked i).seq = 0 then findLast locked is (maxSeq, maxIdx)
    else if (locked i).seq = maxSeq then .error .check
    else if maxSeq < (locked i).seq then findLast locked is ((locked i).seq, i)
    else findLast locked is (maxSeq, maxIdx)

/-- `Lock`, after `Initialize`. -/
def lockChecked (T : Tables) (d : Detector) (type : ℤ) (pc : ℕ) : Except Stop Detector :=
  if !checkLt type T.count then .error .check
  else do
    let t := type.toNat
    let (maxSeq, maxIdx) ← findLast d.locked (List.range T.count) (0, 0)
    if maxIdx = t ∧ T.multi t then
      -- Recursive lock of the same type.
      if (d.locked t).seq ≠ maxSeq then .error .check
      else if (d.locked t).pc = 0 then .error .check
      else return { d with
        locked := Function.update d.locked t { d.locked t with recursion := (d.locked t).recursion + 1 } }
    else if maxIdx ≠ 0 ∧ ¬ T.canLock maxIdx t then .error .check
    else return { d with
      sequence := d.sequence + 1
      locked := Function.update d.locked t ⟨d.sequence + 1, pc, 1⟩ }

/-- `Unlock`, after `Initialize`. -/
def unlockChecked (T : Tables) (d : Detector) (type : ℤ) : Except Stop Detector :=
  if !checkLt type T.count then .error .check
  else
    let t := type.toNat
    if (d.locked t).seq = 0 then .error .check
    else if (d.locked t).recursion = 0 then .error .check
    else if (d.locked t).recursion - 1 ≠ 0 then .ok { d with
      locked := Function.update d.locked t { d.locked t with recursion := (d.locked t).recursion - 1 } }
    else .ok { d with locked := Function.update d.locked t ⟨0, 0, 0⟩ }

/-- `Lock` and `Unlock`: without the tables of the detector there is nothing to check. -/
def announce (mutexMeta : MetaTable) (tables : Option Tables) (d : Detector) (type : ℤ)
    (check : Tables → Detector → Except Stop Detector) : Except Stop (Option Tables × Detector) := do
  let (tables, d, ready) ← initializeDetector mutexMeta tables d type
  match ready, tables with
  | true, some T => return (tables, ← check T d)
  | _, _ => return (tables, d)

/-- `Lock`. -/
def lock (mutexMeta : MetaTable) (tables : Option Tables) (d : Detector) (type : ℤ) (pc : ℕ) :
    Except Stop (Option Tables × Detector) :=
  announce mutexMeta tables d type fun T d => lockChecked T d type pc

/-- `Unlock`. -/
def unlock (mutexMeta : MetaTable) (tables : Option Tables) (d : Detector) (type : ℤ) :
    Except Stop (Option Tables × Detector) :=
  announce mutexMeta tables d type fun T d => unlockChecked T d type

end Tasan.MutexCheck
