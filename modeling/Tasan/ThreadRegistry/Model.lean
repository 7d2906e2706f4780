import Mathlib

/-!
# The thread registry

`sanitizer_thread_registry.cpp`. A context is found by its tid, so the two lists of contexts are lists
of tids, and `live_` is the map that a `DenseMap` represents (`DenseMap.Refinement`). The virtual
callbacks of a context do nothing in the base class. Each operation holds the lock of the registry from
its first line to its last, except `JoinThread`, which takes it once in each round of its loop: a round
is one operation here.

A failed `CHECK` and the end of the process at the limit of threads are the two ways to stop.
-/

namespace Tasan.ThreadRegistry

/-! ## Contexts -/

/-- `ThreadStatus`. -/
inductive Status
  | invalid
  | created
  | running
  | finished
  | dead
  deriving DecidableEq

/-- `ThreadType`. -/
inductive ThreadType
  | regular
  | worker
  | fiber
  deriving DecidableEq

/-- `ThreadContextBase`. -/
structure Context where
  uniqueId : ℕ
  reuseCount : ℕ
  osId : ℕ
  userId : ℕ
  name : String
  status : Status
  detached : Bool
  threadType : ThreadType
  parentTid : ℕ
  stackId : ℕ
  threadDestroyed : Bool
  deriving DecidableEq

/-- Why an operation does not return. -/
inductive Stop
  /-- A `CHECK` fails. -/
  | check
  /-- `Die`, at the limit of threads. -/
  | die
  deriving DecidableEq

/-- `CHECK`. -/
def check (p : Prop) [Decidable p] : Except Stop Unit := if p then .ok () else .error .check

/-- The constructor of a context. -/
def Context.new : Context where
  uniqueId := 0
  reuseCount := 0
  osId := 0
  userId := 0
  name := ""
  status := .invalid
  detached := false
  threadType := .regular
  parentTid := 0
  stackId := 0
  threadDestroyed := false

/-- `SetDead`. -/
def Context.setDead (c : Context) : Except Stop Context := do
  check (c.status = .running ∨ c.status = .finished)
  return { c with status := .dead, userId := 0 }

/-- `SetDestroyed`. -/
def Context.setDestroyed (c : Context) : Context := { c with threadDestroyed := true }

/-- `SetJoined`. -/
def Context.setJoined (c : Context) : Except Stop Context := do
  check (c.detached = false)
  check (c.status = .finished)
  return { c with status := .dead, userId := 0 }

/-- `SetFinished`. -/
def Context.setFinished (c : Context) : Context :=
  if c.detached = false ∨ c.status = .created then { c with status := .finished } else c

/-- `SetStarted`. -/
def Context.setStarted (c : Context) (osId : ℕ) (threadType : ThreadType) : Context :=
  { c with status := .running, osId := osId, threadType := threadType }

/-- `SetCreated` of the context with this tid. -/
def Context.setCreated (c : Context) (tid userId uniqueId : ℕ) (detached : Bool)
    (parentTid stackId : ℕ) : Context :=
  let c := { c with
    status := .created, userId := userId, uniqueId := uniqueId, detached := detached }
  -- the parent makes no sense for the main thread
  if tid ≠ 0 then { c with parentTid := parentTid, stackId := stackId } else c

/-- `Reset`. -/
def Context.reset (c : Context) : Context :=
  { c with status := .invalid, name := "", threadDestroyed := false }

/-! ## The registry -/

/-- The parameters of the constructor. -/
structure Config where
  maxThreads : ℕ
  threadQuarantineSize : ℕ
  maxReuse : ℕ
  /-- `max_threads` is a `u32`. -/
  maxThreads_lt : maxThreads < 2 ^ 32

/-- `ThreadRegistry`. -/
structure Registry where
  totalThreads : ℕ
  aliveThreads : ℕ
  maxAliveThreads : ℕ
  runningThreads : ℕ
  threads : List Context
  deadThreads : List ℕ
  invalidThreads : List ℕ
  live : ℕ → Option ℕ

/-- After the constructor. -/
def Registry.init : Registry := ⟨0, 0, 0, 0, [], [], [], fun _ => none⟩

/-- `threads_[tid]`. -/
def Registry.get (r : Registry) (tid : ℕ) : Except Stop Context :=
  match r.threads[tid]? with
  | some c => .ok c
  | none => .error .check

/-- The context of a tid is changed. -/
def Registry.set (r : Registry) (tid : ℕ) (c : Context) : Registry :=
  { r with threads := r.threads.set tid c }

/-- `if (user_id) live_.erase(user_id)`. -/
def Registry.eraseLive (r : Registry) (userId : ℕ) : Registry :=
  { r with live := if userId ≠ 0 then Function.update r.live userId none else r.live }

/-- `CHECK(live_.try_emplace(user_id, tid).second)`. -/
def Registry.emplaceLive (r : Registry) (userId tid : ℕ) : Except Stop Registry := do
  check (r.live userId = none)
  return { r with live := Function.update r.live userId (some tid) }

/-- The part of `CreateThread` for a user id, if there is one. -/
def Registry.addLive (r : Registry) (userId tid : ℕ) : Except Stop Registry :=
  if userId ≠ 0 then r.emplaceLive userId tid else .ok r

section Config

variable (cfg : Config)

/-- `QuarantinePush`. -/
def Registry.quarantinePush (r : Registry) (tid : ℕ) : Except Stop Registry :=
  -- the main thread is not reused
  if tid = 0 then .ok r
  else
    let r := { r with deadThreads := r.deadThreads ++ [tid] }
    if r.deadThreads.length ≤ cfg.threadQuarantineSize then .ok r
    else match r.deadThreads with
      | [] => .ok r
      | front :: rest => do
        let r := { r with deadThreads := rest }
        let c ← r.get front
        check (c.status = .dead)
        let c := c.reset
        let c := { c with reuseCount := c.reuseCount + 1 }
        let r := r.set front c
        if cfg.maxReuse > 0 ∧ c.reuseCount ≥ cfg.maxReuse then return r
        return { r with invalidThreads := r.invalidThreads ++ [front] }

/-- The first lines of `CreateThread`: `QuarantinePop`, or a new context. -/
def Registry.allocate (r : Registry) : Except Stop (Registry × ℕ) :=
  match r.invalidThreads with
  | tid :: rest => .ok ({ r with invalidThreads := rest }, tid)
  | [] =>
    if r.threads.length < cfg.maxThreads then
      .ok ({ r with threads := r.threads ++ [Context.new] }, r.threads.length)
    else .error .die

/-- `kInvalidTid`. -/
def kInvalidTid : ℕ := 2 ^ 32 - 1

/-- `alive_threads_++`, with the largest number so far. -/
def Registry.addAlive (r : Registry) : Except Stop Registry := do
  let r := { r with aliveThreads := r.aliveThreads + 1 }
  if r.maxAliveThreads < r.aliveThreads then
    let r := { r with maxAliveThreads := r.maxAliveThreads + 1 }
    check (r.aliveThreads = r.maxAliveThreads)
    return r
  return r

/-- `CreateThread`. -/
def Registry.createThread (r : Registry) (userId : ℕ) (detached : Bool) (parentTid stackId : ℕ) :
    Except Stop (Registry × ℕ) := do
  let (r, tid) ← r.allocate cfg
  let c ← r.get tid
  check (tid ≠ kInvalidTid)
  check (tid < cfg.maxThreads)
  check (c.status = .invalid)
  let r ← r.addAlive
  let r ← r.addLive userId tid
  let c := c.setCreated tid userId r.totalThreads detached parentTid stackId
  return ({ r with totalThreads := r.totalThreads + 1 }.set tid c, tid)

/-- What `DetachThread` and `FinishThread` do with a context that dies. -/
def Registry.kill (r : Registry) (tid : ℕ) (c : Context) : Except Stop Registry := do
  let r := r.eraseLive c.userId
  let c ← c.setDead
  (r.set tid c).quarantinePush cfg tid

/-- `DetachThread`. -/
def Registry.detachThread (r : Registry) (tid : ℕ) : Except Stop Registry := do
  let c ← r.get tid
  if c.status = .invalid then return r  -- detach of a non-existent thread
  if c.status = .finished then
    r.kill cfg tid c
  else
    return r.set tid { c with detached := true }

/-- One round of the loop of `JoinThread`, with whether it is the last one. -/
def Registry.joinThread (r : Registry) (tid : ℕ) : Except Stop (Registry × Bool) := do
  let c ← r.get tid
  if c.status = .invalid then return (r, true)  -- join of a non-existent thread
  if c.threadDestroyed then
    let r := r.eraseLive c.userId
    let c ← c.setJoined
    let r ← (r.set tid c).quarantinePush cfg tid
    return (r, true)
  return (r, false)

/-- The counters of `FinishThread`, with whether the context dies. -/
def Registry.leave (r : Registry) (c : Context) : Except Stop (Registry × Bool) :=
  if c.status = .running then do
    check (r.runningThreads > 0)
    return ({ r with runningThreads := r.runningThreads - 1 }, c.detached)
  else do
    -- the thread never really existed
    check (c.status = .created)
    return (r, true)

/-- `FinishThread`, with the previous status. -/
def Registry.finishThread (r : Registry) (tid : ℕ) : Except Stop (Registry × Status) := do
  check (r.aliveThreads > 0)
  let r := { r with aliveThreads := r.aliveThreads - 1 }
  let c ← r.get tid
  let prevStatus := c.status
  let (r, dead) ← r.leave c
  let c := c.setFinished
  let r ← if dead then r.kill cfg tid c else .ok (r.set tid c)
  -- `SetDestroyed`, also if the context has been reset by now
  let c ← r.get tid
  return (r.set tid c.setDestroyed, prevStatus)

end Config

/-- `StartThread`. -/
def Registry.startThread (r : Registry) (tid osId : ℕ) (threadType : ThreadType) :
    Except Stop Registry := do
  let r := { r with runningThreads := r.runningThreads + 1 }
  let c ← r.get tid
  check (c.status = .created)
  return r.set tid (c.setStarted osId threadType)

/-- `ConsumeThreadUserId`. -/
def Registry.consumeThreadUserId (r : Registry) (userId : ℕ) : Except Stop (Registry × ℕ) :=
  match r.live userId with
  | none => .error .check
  | some tid => do
    let r := { r with live := Function.update r.live userId none }
    let c ← r.get tid
    check (c.userId = userId)
    return (r.set tid { c with userId := 0 }, tid)

/-- `SetThreadUserId`. -/
def Registry.setThreadUserId (r : Registry) (tid userId : ℕ) : Except Stop Registry := do
  let c ← r.get tid
  check (c.status ≠ .invalid)
  check (c.status ≠ .dead)
  check (c.userId = 0)
  (r.set tid { c with userId := userId }).emplaceLive userId tid

/-- The loop of `OnFork`, over the tids in the list. -/
def Registry.forkLoop (tid : ℕ) : List ℕ → Registry → Except Stop Registry
  | [], r => .ok r
  | u :: us, r => do
    let c ← r.get u
    if u = tid ∨ c.userId = 0 then forkLoop tid us r
    else
      check (r.live c.userId ≠ none)
      forkLoop tid us ((r.eraseLive c.userId).set u { c with userId := 0 })

/-- `OnFork`. -/
def Registry.onFork (r : Registry) (tid : ℕ) : Except Stop (Registry × ℕ) := do
  let r ← Registry.forkLoop tid (List.range r.threads.length) r
  return (r, r.aliveThreads)

end Tasan.ThreadRegistry
