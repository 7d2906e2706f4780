import Mathlib.Data.List.AList
import Mathlib.Tactic

/-!
# Arguments and return values of threads

`sanitizer_thread_arg_retval.cpp`: a table from thread ids to the argument or the return value of the
thread, which is kept until the thread is joined or detached. `Join` is two critical sections around a
blocking call during which the id may be reused, so that each entry carries the generation of its
creation.

The first part is the class. The second part puts it next to what the operating system knows: threads in
the order of their creation, each with its id, and which of them is the latest holder of an id. A
`Join` in progress remembers, for the proofs, which creation its `BeforeJoin` saw.
-/

namespace Tasan.ThreadArgRetval

/-- The ways in which the class ends the process. -/
inductive Stop
  /-- A failed `CHECK`. -/
  | check
  /-- `Die`, after the report of an invalid join. -/
  | die
  deriving DecidableEq

/-- `ThreadArgRetval::Args`. -/
structure Args where
  /-- The routine that the thread runs. -/
  routine : ℕ := 0
  /-- Either the argument or the return value. -/
  argRetval : ℕ := 0
  deriving DecidableEq

/-- `ThreadArgRetval::Data`. -/
structure Data where
  /-- The routine, with the argument or the return value. -/
  args : Args
  /-- The generation. -/
  gen : ℕ
  /-- Whether the thread is detached. -/
  detached : Bool
  /-- Whether the thread has finished. -/
  done : Bool
  deriving DecidableEq

/-- `kInvalidGen`. -/
def kInvalidGen : ℕ := 2^32 - 1

/-- The state of the class. -/
structure Table where
  data : AList fun _ : ℕ => Data := ∅
  gen : ℕ := 0

namespace Table

variable (t : Table)

/-- `CreateLocked`. -/
def createLocked (thread : ℕ) (detached : Bool) (args : Args) : Table where
  data := t.data.insert thread { args := args, gen := t.gen, detached := detached, done := false }
  gen :=
    let gen := (t.gen + 1) % 2^32
    if gen = kInvalidGen then 0 else gen

/-- `GetArgs`. -/
def getArgs (thread : ℕ) : Except Stop Args :=
  match t.data.lookup thread with
  | none => .error .check
  | some d => .ok (if d.done then {} else d.args)

/-- `Finish`. -/
def finish (thread retval : ℕ) : Table :=
  match t.data.lookup thread with
  | none => t
  | some d =>
    -- The return value of a detached thread cannot be retrieved.
    if d.detached then { t with data := t.data.erase thread }
    else
      { t with
        data := t.data.insert thread
          { d with done := true, args := { d.args with argRetval := retval } } }

/-- `BeforeJoin`, with `common_flags()->detect_invalid_join`. -/
def beforeJoin (detectInvalidJoin : Bool) (thread : ℕ) : Except Stop ℕ :=
  match t.data.lookup thread with
  | some d =>
    if !d.detached then .ok d.gen
    else if !detectInvalidJoin then .ok kInvalidGen
    else .error .die
  | none => if !detectInvalidJoin then .ok kInvalidGen else .error .die

/-- `AfterJoin`. -/
def afterJoin (thread gen : ℕ) : Except Stop Table :=
  match t.data.lookup thread with
  | none => .ok t
  | some d =>
    -- The thread was reused and erased by any other event, or we had an invalid join.
    if gen ≠ d.gen then .ok t
    else if d.detached then .error .check
    else .ok { t with data := t.data.erase thread }

/-- `DetachLocked`. -/
def detachLocked (thread : ℕ) : Except Stop Table :=
  match t.data.lookup thread with
  | none => .error .check
  | some d =>
    if d.detached then .error .check
    -- The return value cannot be retrieved after a detached thread has finished.
    else if d.done then .ok { t with data := t.data.erase thread }
    else .ok { t with data := t.data.insert thread { d with detached := true } }

/-- `GetAllPtrsLocked`, in some order. -/
def getAllPtrsLocked : List ℕ := t.data.entries.map fun e => e.2.args.argRetval

theorem mem_getAllPtrsLocked {t : Table} {thread : ℕ} {d : Data}
    (h : t.data.lookup thread = some d) : d.args.argRetval ∈ t.getAllPtrsLocked :=
  List.mem_map.mpr ⟨⟨thread, d⟩, AList.mem_lookup_iff.mp h, rfl⟩

end Table

/-! ## Threads and their ids -/

/-- What the operating system knows of a thread. -/
structure Thread where
  /-- The id. -/
  id : ℕ
  /-- The routine and the argument. -/
  args : Args
  /-- Whether the thread was created detached or has been detached. -/
  detached : Bool
  /-- The return value, once the thread has called `Finish`. -/
  finished : Option ℕ := none
  /-- Whether the thread was cancelled, so that it ends without `Finish`. -/
  cancelled : Bool := false
  /-- Whether the thread has been joined. -/
  joined : Bool := false

namespace Thread

/-- The thread is over. -/
def Over (th : Thread) : Prop := th.finished.isSome = true ∨ th.cancelled = true

/-- The thread still runs. -/
def Running (th : Thread) : Prop := ¬ th.Over

/-- Another thread may get the same id. -/
def Reusable (th : Thread) : Prop := th.joined = true ∨ th.detached = true ∧ th.Over

/-- The entry of the `n`-th creation. -/
def entry (th : Thread) (n : ℕ) : Data where
  args := { th.args with argRetval := th.finished.getD th.args.argRetval }
  gen := n % kInvalidGen
  detached := th.detached
  done := th.finished.isSome

/-- The table has no entry of a thread that is detached and has finished. -/
def Dropped (th : Thread) : Prop := th.detached = true ∧ th.finished.isSome = true

end Thread

/-- A `Join` between its critical sections. -/
structure Join where
  /-- The id. -/
  thread : ℕ
  /-- What `BeforeJoin` returned. -/
  gen : ℕ
  /-- The creation that `BeforeJoin` saw, if it found an entry that is not detached. -/
  seen : Option ℕ
  /-- The number of creations before `BeforeJoin`. -/
  before : ℕ

/-- Where a thread that joins is. -/
inductive JoinState
  /-- Not in `Join`. -/
  | idle
  /-- After `BeforeJoin`, in `fn()`. -/
  | waiting (join : Join)
  /-- After `fn()` has returned true. -/
  | returned (join : Join)

/-- The table, the threads and the calls of `Join` in progress, one for each joining thread. -/
structure State (J : Type) where
  /-- The table. -/
  table : Table := {}
  /-- The number of creations. -/
  created : ℕ := 0
  /-- The threads, by creation. -/
  threads : ℕ → Thread := fun _ => { id := 0, args := {}, detached := false }
  /-- The latest creation with an id. -/
  holder : ℕ → Option ℕ := fun _ => none
  /-- The calls of `Join`. -/
  joins : J → JoinState := fun _ => .idle

/-- A critical section, or what the operating system does between two of them. -/
inductive Op (J : Type)
  /-- `Create`, where `fn()` returns `thread`. -/
  | create (thread : ℕ) (detached : Bool) (args : Args)
  /-- `GetArgs`, by the thread itself. -/
  | getArgs (thread : ℕ)
  /-- `Finish`, by the thread itself. -/
  | finish (thread retval : ℕ)
  /-- The thread is cancelled. -/
  | cancel (thread : ℕ)
  | beforeJoin (j : J) (thread : ℕ)
  /-- `fn()` returns true in `Join`: the current holder of the id is joined. -/
  | joinSucceeds (j : J)
  /-- `fn()` returns false in `Join`. -/
  | joinFails (j : J)
  | afterJoin (j : J)
  /-- `Detach`, where `fn()` returns true. -/
  | detach (thread : ℕ)
  /-- `GetAllPtrsLocked`. -/
  | getAllPtrs

variable {J : Type} [DecidableEq J]

namespace State

/-- The changes of one thread. -/
def setThread (s : State J) (n : ℕ) (th : Thread) : State J :=
  { s with threads := Function.update s.threads n th }

/-- The changes of one call of `Join`. -/
def setJoin (s : State J) (j : J) (st : JoinState) : State J :=
  { s with joins := Function.update s.joins j st }

/-- The change of the current holder of an id. -/
def onHolder (s : State J) (thread : ℕ) (f : Thread → Thread) : State J :=
  match s.holder thread with
  | none => s
  | some n => s.setThread n (f (s.threads n))

/-- The creation that `BeforeJoin` sees. -/
def seen (s : State J) (thread : ℕ) : Option ℕ :=
  match s.table.data.lookup thread with
  | some d => if !d.detached then s.holder thread else none
  | none => none

end State

/-- The operating system, and the callers of the class. A thread id is given out only when its previous
holder was joined, or was detached and is over; a thread calls `GetArgs` and `Finish` for itself while
it runs; only a thread that is over and neither joined nor detached can be joined, and only one that
is neither joined nor detached can be detached. -/
def Admits (s : State J) : Op J → Prop
  | .create thread _ _ => ∀ n, s.holder thread = some n → (s.threads n).Reusable
  | .getArgs thread => ∃ n, s.holder thread = some n ∧ (s.threads n).Running
  | .finish thread _ => ∃ n, s.holder thread = some n ∧ (s.threads n).Running
  | .cancel thread => ∃ n, s.holder thread = some n ∧ (s.threads n).Running
  | .beforeJoin j _ => s.joins j = .idle
  | .joinSucceeds j => ∃ join n, s.joins j = .waiting join ∧ s.holder join.thread = some n ∧
      (s.threads n).Over ∧ (s.threads n).joined = false ∧ (s.threads n).detached = false
  | .joinFails j => ∃ join, s.joins j = .waiting join
  | .afterJoin j => ∃ join, s.joins j = .returned join
  | .detach thread => ∃ n, s.holder thread = some n ∧ (s.threads n).joined = false ∧
      (s.threads n).detached = false
  | .getAllPtrs => True

/-- One step. -/
def exec (detectInvalidJoin : Bool) (s : State J) : Op J → Except Stop (State J)
  | .create thread detached args =>
    if thread = 0 then .ok s
    else
      .ok { s with
        table := s.table.createLocked thread detached args
        created := s.created + 1
        threads := Function.update s.threads s.created
          { id := thread, args := args, detached := detached }
        holder := Function.update s.holder thread (some s.created) }
  | .getArgs thread => do
    let _ ← s.table.getArgs thread
    return s
  | .finish thread retval =>
    .ok { s.onHolder thread fun th => { th with finished := some retval } with
      table := s.table.finish thread retval }
  | .cancel thread => .ok (s.onHolder thread fun th => { th with cancelled := true })
  | .beforeJoin j thread => do
    let gen ← s.table.beforeJoin detectInvalidJoin thread
    return s.setJoin j (.waiting
      { thread := thread, gen := gen, seen := s.seen thread, before := s.created })
  | .joinSucceeds j =>
    match s.joins j with
    | .waiting join =>
      .ok ((s.onHolder join.thread fun th => { th with joined := true }).setJoin j (.returned join))
    | _ => .ok s
  | .joinFails j => .ok (s.setJoin j .idle)
  | .afterJoin j =>
    match s.joins j with
    | .returned join => do
      let table ← s.table.afterJoin join.thread join.gen
      return { s.setJoin j .idle with table := table }
    | _ => .ok s
  | .detach thread => do
    let table ← s.table.detachLocked thread
    return { s.onHolder thread fun th => { th with detached := true } with table := table }
  | .getAllPtrs => .ok s

end Tasan.ThreadArgRetval
