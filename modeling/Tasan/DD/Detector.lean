import Tasan.DD.CycleCheck

/-!
# The arrays of the adjacency-list detector

The calls of `sanitizer_deadlock_detector2.cpp` by any number of threads, with each write to one of its
arrays checked against the length of the array. The links of a mutex and the path of the check never run
out of room. The locks of a thread do, since `CHECK_LE(lt->nlocked, kMaxNesting)` lets one more lock pass
than there is room for, and so do the pending links of a large search and the entries of a report about a
long cycle. `detector_iff` says that this is all.
-/

namespace Tasan.DD

/-! ## The state -/

/-- `kMaxNesting`. -/
def kMaxNesting : ℕ := 64

/-- `kMaxLoopSize`. -/
def kMaxLoopSize : ℕ := 20

/-- An id that is in use, of a mutex of the table. -/
abbrev MutexId := Fin kMaxMutex

/-- `DDMutex`, whose id is absent for `kNoId`. -/
structure DDMutex where
  id : Option MutexId
  recursion : BitVec 32
  /-- `owner`, a logical thread. -/
  owner : Option ℕ

/-- `ThreadMutex`. -/
structure ThreadMutex where
  id : MutexId
  stk : BitVec 32

/-- `DDLogicalThread`. -/
structure DDLogicalThread where
  ctx : BitVec 64
  /-- `locked`, the first `nlocked` of them. -/
  locked : List ThreadMutex
  /-- There is room for them. -/
  locked_le : locked.length ≤ kMaxNesting

/-- An entry of `DDReport`. -/
structure LoopEntry where
  thrCtx : BitVec 64
  mtxCtx0 : ℕ
  mtxCtx1 : ℕ
  stk : BitVec 32 × BitVec 32

/-- The parts of a `DDPhysicalThread` that outlive a call. -/
structure DDPhysicalThread where
  /-- `rep`, the first `n` entries of `loop`. -/
  rep : List LoopEntry
  reportPending : Bool

/-- `DD`, with the mutexes and threads of the process. -/
structure Detector where
  /-- `mutex`. -/
  table : Table
  /-- `free_id`, the last one in front. -/
  freeId : List MutexId
  idGen : ℕ
  /-- The mutexes of the process. -/
  mutexes : ℕ → DDMutex
  /-- The logical threads. -/
  logical : ℕ → DDLogicalThread
  /-- The physical threads. -/
  physical : ℕ → DDPhysicalThread

/-- The detector at the start. -/
def Detector.init : Detector where
  table := ⟨fun _ => ⟨0, [], Nat.zero_le _⟩, fun _ _ h => absurd h List.not_mem_nil⟩
  freeId := []
  idGen := 0
  mutexes _ := ⟨none, 0, none⟩
  logical _ := ⟨0, [], Nat.zero_le _⟩
  physical _ := ⟨[], false⟩

/-- `DDCallback`. -/
structure Callback where
  pt : ℕ
  lt : ℕ
  /-- What `Unwind` returns. -/
  unwind : BitVec 32

/-! ## The calls -/

variable (secondDeadlockStack : Bool)

/-- `allocateId`. -/
def Detector.allocateId (d : Detector) : Outcome Fault (Detector × MutexId) :=
  match d.freeId with
  | id :: freeId => .returned ({ d with freeId := freeId }, id)
  | [] => if h : d.idGen < kMaxMutex then .returned ({ d with idGen := d.idGen + 1 }, ⟨d.idGen, h⟩)
    else .stopped .check

/-- `if (m->id == kNoId) m->id = allocateId(cb)`. -/
def Detector.ensureId (d : Detector) (m : ℕ) : Outcome Fault (Detector × MutexId) :=
  match (d.mutexes m).id with
  | some id => .returned (d, id)
  | none => do
    let (d, id) ← d.allocateId
    return ({ d with mutexes := Function.update d.mutexes m { d.mutexes m with id := some id } }, id)

/-- `lt->locked[lt->nlocked++]` is written. -/
def Detector.pushLocked (d : Detector) (cb : Callback) (id : MutexId) : Outcome Fault Detector :=
  let lt := d.logical cb.lt
  if h : lt.locked.length < kMaxNesting then
    let tm : ThreadMutex := ⟨id, if secondDeadlockStack then cb.unwind else 0⟩
    .returned { d with
      logical := Function.update d.logical cb.lt
        { lt with locked := lt.locked ++ [tm], locked_le := by rw [List.length_append]; exact h } }
  else .stopped .outside

/-- `link[nlink++] = l`. -/
def MutexState.addLink (s : MutexState) (l : Link) : Outcome Fault MutexState :=
  if h : s.link.length < kMaxLink then
    .returned { s with link := s.link ++ [l], link_le := by rw [List.length_append]; exact h }
  else .stopped .outside

/-- The links of a mutex after a lock that is held while another one is taken, and whether a link was
added. -/
def MutexState.linkTo (s : MutexState) (l : Link) : Outcome Fault (MutexState × Bool) :=
  if s.link.length = kMaxLink then .returned (s, false)
  else
    match s.link.findIdx? (·.id = l.id) with
    | some li =>
      if (s.link.getD li l).seq ≠ l.seq then
        .returned ({ s with
          link := s.link.set li l
          link_le := by rw [List.length_set]; exact s.link_le }, true)
      else .returned (s, false)
    | none => do
      let s ← s.addLink l
      return (s, true)

/-- The links of a mutex lead to mutexes. -/
theorem linkTo_id_lt {s s' : MutexState} {l : Link} {added : Bool}
    (h : s.linkTo l = .returned (s', added)) (hs : ∀ x ∈ s.link, x.id < kMaxMutex)
    (hl : l.id < kMaxMutex) : ∀ x ∈ s'.link, x.id < kMaxMutex := by
  unfold MutexState.linkTo at h
  split_ifs at h with hfull
  · cases h
    exact hs
  · rcases hfind : s.link.findIdx? (·.id = l.id) with _ | li
    · rw [hfind] at h
      obtain ⟨s'', hadd, hret⟩ := Outcome.bind_eq_returned.mp h
      unfold MutexState.addLink at hadd
      split_ifs at hadd with hroom
      cases hadd
      cases hret
      intro x hx
      rcases List.mem_append.mp hx with hx | hx
      · exact hs x hx
      · exact List.mem_singleton.mp hx ▸ hl
    · rw [hfind] at h
      dsimp only at h
      split_ifs at h with hseq
      · cases h
        intro x hx
        rcases List.mem_or_eq_of_mem_set hx with hx | rfl
        · exact hs x hx
        · exact hl
      · cases h
        exact hs

/-- A round of the loop over the locks that are held: the mutex of the lock gets a link to the one that is
taken. -/
def Table.linkFrom (T : Table) (ctx : BitVec 64) (unwind : BitVec 32) (id : MutexId) (tm : ThreadMutex) :
    Outcome Fault (Table × Bool) :=
  let l : Link := ⟨id, (T.getMutex id).seq, ctx.setWidth 32, tm.stk, unwind⟩
  match h : (T.getMutex tm.id).linkTo l with
  | .returned (s, added) => .returned (⟨Function.update T.getMutex tm.id s, fun i x hx => by
      rcases eq_or_ne i tm.id with rfl | hne
      · rw [Function.update_self] at hx
        exact linkTo_id_lt h (T.id_lt tm.id) id.isLt x hx
      · rw [Function.update_of_ne hne] at hx
        exact T.id_lt i x hx⟩, added)
  | .stopped e => .stopped e
  | .unfinished => .unfinished

/-- The loop over the locks that are held. -/
def Table.linkAll (T : Table) (ctx : BitVec 64) (unwind : BitVec 32) (id : MutexId)
    (locked : List ThreadMutex) : Outcome Fault (Table × Bool) :=
  locked.foldlM (fun (T, added) tm => do
    let (T, added') ← T.linkFrom ctx unwind id tm
    return (T, added || added')) (T, false)

/-- `rep->loop[i]` is written for the link of the path at `i`. -/
def reportEntry (path : List Link) (i : ℕ) : Outcome Fault LoopEntry :=
  let link := path.getD i .endMarker
  let link0 := path.getD (if i = 0 then path.length - 1 else i - 1) .endMarker
  if i < kMaxLoopSize then
    .returned ⟨link.tid.setWidth 64, link0.id, link.id,
      (if secondDeadlockStack then link.stk0 else 0, link.stk1)⟩
  else .stopped .outside

/-- `Report`. -/
def report (path : List Link) : Outcome Fault DDPhysicalThread := do
  let rep ← (List.range path.length).mapM (reportEntry secondDeadlockStack path)
  return ⟨rep, true⟩

/-- `CycleCheck`, with its report. -/
def Detector.checkCycle (d : Detector) (cb : Callback) (id : MutexId) (fuel : ℕ) :
    Outcome Fault Detector := do
  match ← cycleCheck kMaxMutex d.table id fuel with
  | none => return d
  | some path =>
    let pt ← report secondDeadlockStack path
    return { d with physical := Function.update d.physical cb.pt pt }

/-- `MutexBeforeLock`. -/
def Detector.mutexBeforeLock (d : Detector) (cb : Callback) (m fuel : ℕ) : Outcome Fault Detector :=
  if (d.mutexes m).owner = some cb.lt then .returned d
  else if kMaxNesting < (d.logical cb.lt).locked.length then .stopped .check
  else do
    let (d, id) ← d.ensureId m
    let held := (d.logical cb.lt).locked
    let d ← d.pushLocked secondDeadlockStack cb id
    if held = [] then return d
    else
      let (T, added) ← d.table.linkAll (d.logical cb.lt).ctx cb.unwind id held
      let d := { d with table := T }
      if added = false ∨ (T.getMutex id).link = [] then return d
      else d.checkCycle secondDeadlockStack cb id fuel

/-- `MutexAfterLock`. -/
def Detector.mutexAfterLock (d : Detector) (cb : Callback) (m : ℕ) (wlock trylock : Bool) :
    Outcome Fault Detector :=
  let mtx := d.mutexes m
  if mtx.owner = some cb.lt then
    if wlock = false then .stopped .check
    else .returned { d with
      mutexes := Function.update d.mutexes m { mtx with recursion := mtx.recursion + 1 } }
  else if mtx.owner ≠ none then .stopped .check
  else if wlock = true ∧ mtx.recursion ≠ 0 then .stopped .check
  else
    let d := if wlock then
        { d with mutexes := Function.update d.mutexes m { mtx with recursion := 1, owner := some cb.lt } }
      else d
    if trylock = false then .returned d
    else if kMaxNesting < (d.logical cb.lt).locked.length then .stopped .check
    else do
      let (d, id) ← d.ensureId m
      d.pushLocked secondDeadlockStack cb id

/-- The last lock of the mutex is taken out, and the last of all locks is put in its place. -/
def DDLogicalThread.unlock (lt : DDLogicalThread) (id : MutexId) : DDLogicalThread :=
  match (List.range lt.locked.length).reverse.find? fun i => (lt.locked[i]?.map ThreadMutex.id) = some id,
    lt.locked.getLast? with
  | some i, some last => { lt with
      locked := (lt.locked.set i last).dropLast
      locked_le := by
        rw [List.length_dropLast, List.length_set]
        exact (Nat.sub_le _ 1).trans lt.locked_le }
  | _, _ => lt

/-- `MutexBeforeUnlock`. -/
def Detector.mutexBeforeUnlock (d : Detector) (cb : Callback) (m : ℕ) : Outcome Fault Detector :=
  let mtx := d.mutexes m
  let owned := mtx.owner = some cb.lt
  let mtx := if owned then { mtx with recursion := mtx.recursion - 1 } else mtx
  let mtx := if owned ∧ mtx.recursion = 0 then { mtx with owner := none } else mtx
  let d := { d with mutexes := Function.update d.mutexes m mtx }
  if owned ∧ mtx.recursion ≠ 0 then .returned d
  else
    match mtx.id with
    | none => .stopped .check
    | some id => .returned { d with
        logical := Function.update d.logical cb.lt ((d.logical cb.lt).unlock id) }

/-- `MutexDestroy`. -/
def Detector.mutexDestroy (d : Detector) (cb : Callback) (m : ℕ) : Detector :=
  match (d.mutexes m).id with
  | none => d
  | some id => { d with
      logical := Function.update d.logical cb.lt ((d.logical cb.lt).unlock id)
      table := {
        getMutex := Function.update d.table.getMutex id
          ⟨(d.table.getMutex id).seq + 1, [], Nat.zero_le _⟩
        id_lt := fun i x hx => by
          rcases eq_or_ne i id with rfl | hne
          · rw [Function.update_self] at hx
            exact absurd hx List.not_mem_nil
          · rw [Function.update_of_ne hne] at hx
            exact d.table.id_lt i x hx }
      freeId := id :: d.freeId }

/-- A call. -/
inductive Op
  | createLogicalThread (lt : ℕ) (ctx : BitVec 64)
  | mutexInit (m : ℕ)
  | mutexBeforeLock (cb : Callback) (m : ℕ)
  | mutexAfterLock (cb : Callback) (m : ℕ) (wlock trylock : Bool)
  | mutexBeforeUnlock (cb : Callback) (m : ℕ)
  | mutexDestroy (cb : Callback) (m : ℕ)
  | getReport (pt : ℕ)

/-- What a call does. -/
def Detector.step (d : Detector) (fuel : ℕ) : Op → Outcome Fault Detector
  | .createLogicalThread lt ctx => .returned { d with
      logical := Function.update d.logical lt ⟨ctx, [], Nat.zero_le _⟩ }
  | .mutexInit m => .returned { d with mutexes := Function.update d.mutexes m ⟨none, 0, none⟩ }
  | .mutexBeforeLock cb m => d.mutexBeforeLock secondDeadlockStack cb m fuel
  | .mutexAfterLock cb m wlock trylock => d.mutexAfterLock secondDeadlockStack cb m wlock trylock
  | .mutexBeforeUnlock cb m => d.mutexBeforeUnlock cb m
  | .mutexDestroy cb m => .returned (d.mutexDestroy cb m)
  | .getReport pt => .returned { d with
      physical := Function.update d.physical pt { d.physical pt with reportPending := false } }

/-! ## The helpers -/

/-- The names of mutexes are given without a change of the table and the threads. -/
theorem ensureId_frame {d d' : Detector} {m : ℕ} {id : MutexId} (h : d.ensureId m = .returned (d', id)) :
    d'.table = d.table ∧ d'.logical = d.logical ∧ (d'.mutexes m).id = some id ∧
      (d'.mutexes m).owner = (d.mutexes m).owner := by
  unfold Detector.ensureId at h
  split at h
  · next hsome =>
    cases h
    exact ⟨rfl, rfl, hsome, rfl⟩
  · obtain ⟨⟨d'', id'⟩, halloc, hret⟩ := Outcome.bind_eq_returned.mp h
    cases hret
    have hmutexes : d''.table = d.table ∧ d''.logical = d.logical ∧ d''.mutexes = d.mutexes := by
      unfold Detector.allocateId at halloc
      split at halloc
      · cases halloc
        exact ⟨rfl, rfl, rfl⟩
      · split_ifs at halloc
        cases halloc
        exact ⟨rfl, rfl, rfl⟩
    refine ⟨hmutexes.1, hmutexes.2.1, ?_, ?_⟩
    · dsimp only
      rw [Function.update_self]
    · dsimp only
      rw [Function.update_self, hmutexes.2.2]

/-- The mutex has a name, or one is left for it. -/
def Detector.HasId (d : Detector) (m : ℕ) : Prop :=
  (d.mutexes m).id ≠ none ∨ d.freeId ≠ [] ∨ d.idGen < kMaxMutex

theorem ensureId_returned {d : Detector} {m : ℕ} (h : d.HasId m) :
    ∃ d' id, d.ensureId m = .returned (d', id) := by
  unfold Detector.ensureId
  split
  · exact ⟨_, _, rfl⟩
  · next hnone =>
    unfold Detector.allocateId
    split
    · exact ⟨_, _, rfl⟩
    · next hnil =>
      rw [dif_pos ((h.resolve_left (not_not.mpr hnone)).resolve_left (not_not.mpr hnil))]
      exact ⟨_, _, rfl⟩

theorem ensureId_check {d : Detector} {m : ℕ} (h : ¬ d.HasId m) : d.ensureId m = .stopped .check := by
  obtain ⟨hnone, hrest⟩ := not_or.mp h
  obtain ⟨hnil, hfull⟩ := not_or.mp hrest
  rw [Detector.ensureId, not_not.mp hnone]
  dsimp only
  rw [Detector.allocateId, not_not.mp hnil]
  dsimp only
  rw [dif_neg hfull]
  rfl

theorem linkTo_returned (s : MutexState) (l : Link) : ∃ r, s.linkTo l = .returned r := by
  unfold MutexState.linkTo
  split_ifs with hfull
  · exact ⟨_, rfl⟩
  · split
    · split_ifs
      · exact ⟨_, rfl⟩
      · exact ⟨_, rfl⟩
    · rw [MutexState.addLink, dif_pos (lt_of_le_of_ne s.link_le hfull)]
      exact ⟨_, rfl⟩

theorem linkFrom_returned (T : Table) (ctx : BitVec 64) (unwind : BitVec 32) (id : MutexId)
    (tm : ThreadMutex) : ∃ r, T.linkFrom ctx unwind id tm = .returned r := by
  obtain ⟨r, hr⟩ := linkTo_returned (T.getMutex tm.id)
    ⟨id, (T.getMutex id).seq, ctx.setWidth 32, tm.stk, unwind⟩
  unfold Table.linkFrom
  dsimp only
  split
  · exact ⟨_, rfl⟩
  · next h => exact absurd (hr.symm.trans h) nofun
  · next h => exact absurd (hr.symm.trans h) nofun

theorem linkAll_returned (T : Table) (ctx : BitVec 64) (unwind : BitVec 32) (id : MutexId)
    (locked : List ThreadMutex) : ∃ r, T.linkAll ctx unwind id locked = .returned r := by
  unfold Table.linkAll
  generalize (T, false) = start
  induction locked generalizing start with
  | nil => exact ⟨start, rfl⟩
  | cons tm locked ih =>
    obtain ⟨T, added⟩ := start
    obtain ⟨⟨T', added'⟩, hr⟩ := linkFrom_returned T ctx unwind id tm
    rw [List.foldlM_cons]
    dsimp only
    rw [hr]
    exact ih _

theorem mapM_ite {ε α β : Type} (p : α → Prop) [DecidablePred p] (g : α → β) (e : ε) (l : List α) :
    l.mapM (fun x => if p x then Outcome.returned (g x) else .stopped e) =
      if ∀ x ∈ l, p x then .returned (l.map g) else .stopped e := by
  induction l with
  | nil => simp
  | cons x l ih =>
    rw [List.mapM_cons, ih]
    by_cases hx : p x
    · rw [if_pos hx, Outcome.returned_bind]
      by_cases hl : ∀ y ∈ l, p y
      · rw [if_pos hl, if_pos (List.forall_mem_cons.mpr ⟨hx, hl⟩)]
        rfl
      · rw [if_neg hl, if_neg fun h => hl (List.forall_mem_cons.mp h).2]
        rfl
    · rw [if_neg hx, if_neg fun h => hx (List.forall_mem_cons.mp h).1]
      rfl

theorem report_eq (path : List Link) : (∃ rep, report secondDeadlockStack path = .returned rep) ∧
    path.length ≤ kMaxLoopSize ∨
    report secondDeadlockStack path = .stopped .outside ∧ kMaxLoopSize < path.length := by
  unfold report reportEntry
  rw [mapM_ite]
  rcases Nat.lt_or_ge kMaxLoopSize path.length with hlong | hshort
  · refine .inr ⟨?_, hlong⟩
    rw [if_neg fun h => (h kMaxLoopSize (List.mem_range.mpr hlong)).false, Outcome.stopped_bind]
  · refine .inl ⟨?_, hshort⟩
    rw [if_pos fun i hi => (List.mem_range.mp hi).trans_le hshort, Outcome.returned_bind]
    exact ⟨_, rfl⟩

/-! ## What is needed -/

/-- The search for a cycle has room: the links that are still to be followed fit in `pending`, and the
cycle in the report. -/
def SearchFits (T : Table) (id : ℕ) : Prop :=
  ∃ visited r n, Search.Explore T.graph id ∅ (T.graph.out id) visited r n ∧
    n ≤ kMaxMutex ∧ ∀ path ∈ r, path.length ≤ kMaxLoopSize

/-- There is room for the lock. -/
def Detector.HasRoom (d : Detector) (lt : ℕ) : Prop := (d.logical lt).locked.length < kMaxNesting

/-- The condition for a call to stay inside the arrays. -/
def Detector.Meets (d : Detector) : Op → Prop
  | .mutexBeforeLock cb m =>
    (d.mutexes m).owner ≠ some cb.lt → ∀ d' id, d.ensureId m = .returned (d', id) →
      d.HasRoom cb.lt ∧
      ∀ T, (d.logical cb.lt).locked ≠ [] →
        d.table.linkAll (d.logical cb.lt).ctx cb.unwind id (d.logical cb.lt).locked = .returned (T, true) →
        (T.getMutex id).link ≠ [] → SearchFits T id
  | .mutexAfterLock cb m wlock trylock =>
    (d.mutexes m).owner = none → trylock = true → (wlock = true → (d.mutexes m).recursion = 0) → d.HasId m →
      d.HasRoom cb.lt
  | _ => True

/-- A run ends, and inside the arrays just when that holds. -/
def EndsInside (run : ℕ → Outcome Fault Detector) (p : Prop) : Prop :=
  ∃ o, (∃ k, ∀ fuel ≥ k, run fuel = o) ∧ o ≠ .unfinished ∧ (o ≠ .stopped .outside ↔ p)

theorem EndsInside.const {o : Outcome Fault Detector} {p : Prop} (hend : o ≠ .unfinished)
    (h : o ≠ .stopped .outside ↔ p) : EndsInside (fun _ => o) p :=
  ⟨o, ⟨0, fun _ _ => rfl⟩, hend, h⟩

/-- The check and its report. -/
theorem checkCycle_endsInside (d : Detector) (cb : Callback) (id : MutexId) :
    EndsInside (d.checkCycle secondDeadlockStack cb id) (SearchFits d.table id) := by
  -- What the check does is the same with each amount of fuel that is enough.
  have hcheck : ∀ {visited r n}, Search.Explore d.table.graph id ∅ (d.table.graph.out id) visited r n →
      ∃ o, (∃ k, ∀ fuel ≥ k, d.checkCycle secondDeadlockStack cb id fuel = o) ∧ o ≠ .unfinished ∧
        (o ≠ .stopped .outside ↔ n ≤ kMaxMutex ∧ ∀ path ∈ r, path.length ≤ kMaxLoopSize) := by
    intro visited r n hex
    obtain ⟨k, hk⟩ := cycleCheck_explore le_rfl hex
    by_cases hn : n ≤ kMaxMutex
    · simp only [if_pos hn] at hk
      cases r with
      | none =>
        refine ⟨.returned d, ⟨k, fun fuel hfuel => ?_⟩, nofun, fun _ => ⟨hn, nofun⟩, fun _ => nofun⟩
        rw [Detector.checkCycle, hk fuel hfuel]
        rfl
      | some path =>
        rcases report_eq secondDeadlockStack path with ⟨⟨rep, hrep⟩, hshort⟩ | ⟨hrep, hlong⟩
        · refine ⟨.returned { d with physical := Function.update d.physical cb.pt rep },
            ⟨k, fun fuel hfuel => ?_⟩, nofun, fun _ => ⟨hn, fun p hp => ?_⟩, fun _ => nofun⟩
          · rw [Detector.checkCycle, hk fuel hfuel, Outcome.returned_bind]
            dsimp only
            rw [hrep]
            rfl
          · exact Option.some.inj hp ▸ hshort
        · refine ⟨.stopped .outside, ⟨k, fun fuel hfuel => ?_⟩, nofun, fun h => absurd rfl h, fun h => ?_⟩
          · rw [Detector.checkCycle, hk fuel hfuel, Outcome.returned_bind]
            dsimp only
            rw [hrep]
            rfl
          · exact absurd (h.2 path rfl) (Nat.not_le.mpr hlong)
    · simp only [if_neg hn] at hk
      refine ⟨.stopped .outside, ⟨k, fun fuel hfuel => ?_⟩, nofun, fun h => absurd rfl h,
        fun h => absurd h.1 hn⟩
      rw [Detector.checkCycle, hk fuel hfuel]
      rfl
  obtain ⟨visited, r, n, hex⟩ := Search.Explore.total (graph_target_lt d.table) id ∅ (d.table.graph.out id)
    fun a ha => Finset.mem_range.mpr (d.table.id_lt id a (List.mem_reverse.mp ha))
  obtain ⟨o, ⟨k, hk⟩, hend, hiff⟩ := hcheck hex
  refine ⟨o, ⟨k, hk⟩, hend, fun h => ⟨visited, r, n, hex, hiff.mp h⟩, ?_⟩
  rintro ⟨visited', r', n', hex', hfits⟩
  obtain ⟨o', ⟨k', hk'⟩, -, hiff'⟩ := hcheck hex'
  rw [← hk (max k k') (le_max_left k k'), hk' (max k k') (le_max_right k k')]
  exact hiff'.mpr hfits

/-! ## The calls -/

theorem pushLocked_outside (d : Detector) (cb : Callback) (id : MutexId) (h : ¬ d.HasRoom cb.lt) :
    d.pushLocked secondDeadlockStack cb id = .stopped .outside := by
  unfold Detector.pushLocked
  exact dif_neg h

theorem pushLocked_returned (d : Detector) (cb : Callback) (id : MutexId) (h : d.HasRoom cb.lt) :
    ∃ d', d.pushLocked secondDeadlockStack cb id = .returned d' ∧ d'.table = d.table ∧
      d'.mutexes = d.mutexes ∧ (d'.logical cb.lt).ctx = (d.logical cb.lt).ctx ∧
      (d'.logical cb.lt).locked.length = (d.logical cb.lt).locked.length + 1 := by
  unfold Detector.HasRoom at h
  unfold Detector.pushLocked
  refine ⟨_, dif_pos h, rfl, rfl, ?_, ?_⟩
  · dsimp only
    rw [Function.update_self]
  · dsimp only
    rw [Function.update_self, List.length_append, List.length_singleton]

theorem not_kMaxNesting_lt (d : Detector) (lt : ℕ) : ¬ kMaxNesting < (d.logical lt).locked.length :=
  Nat.not_lt.mpr (d.logical lt).locked_le

/-- `MutexBeforeLock` stays inside the arrays just when there is room for the lock and for the search. -/
theorem mutexBeforeLock_endsInside (d : Detector) (cb : Callback) (m : ℕ) :
    EndsInside (d.mutexBeforeLock secondDeadlockStack cb m) (d.Meets (.mutexBeforeLock cb m)) := by
  unfold Detector.mutexBeforeLock
  by_cases howner : (d.mutexes m).owner = some cb.lt
  · simp only [if_pos howner]
    exact .const nofun ⟨fun _ hother => absurd howner hother, fun _ => nofun⟩
  simp only [if_neg howner, if_neg (not_kMaxNesting_lt d cb.lt)]
  by_cases hhas : d.HasId m
  swap
  · simp only [ensureId_check hhas, Outcome.stopped_bind]
    refine .const nofun ⟨fun _ _ d' id hid => ?_, fun _ => nofun⟩
    rw [ensureId_check hhas] at hid
    cases hid
  obtain ⟨d₁, id, hid⟩ := ensureId_returned hhas
  obtain ⟨htable, hlogical, -⟩ := ensureId_frame hid
  simp only [hid, Outcome.returned_bind, hlogical]
  -- What the condition says, once the id is known.
  have hmeets : d.Meets (.mutexBeforeLock cb m) ↔ d.HasRoom cb.lt ∧
      ∀ T, (d.logical cb.lt).locked ≠ [] →
        d.table.linkAll (d.logical cb.lt).ctx cb.unwind id (d.logical cb.lt).locked = .returned (T, true) →
        (T.getMutex id).link ≠ [] → SearchFits T id := by
    refine ⟨fun h => h howner d₁ id hid, fun h _ d' id' hid' => ?_⟩
    obtain ⟨rfl, rfl⟩ := Prod.mk.inj (Outcome.returned.inj (hid.symm.trans hid'))
    exact h
  have hroom_iff : d₁.HasRoom cb.lt ↔ d.HasRoom cb.lt := by
    rw [Detector.HasRoom, hlogical, Detector.HasRoom]
  by_cases hroom : d.HasRoom cb.lt
  swap
  · simp only [pushLocked_outside secondDeadlockStack d₁ cb id (hroom_iff.not.mpr hroom),
      Outcome.stopped_bind]
    exact .const nofun ⟨fun h => absurd rfl h, fun h => absurd (hmeets.mp h).1 hroom⟩
  obtain ⟨d₂, hpush, htable', -, hctx, -⟩ :=
    pushLocked_returned secondDeadlockStack d₁ cb id (hroom_iff.mpr hroom)
  simp only [hpush, Outcome.returned_bind]
  by_cases hheld : (d.logical cb.lt).locked = []
  · simp only [if_pos hheld]
    exact .const nofun ⟨fun _ => hmeets.mpr ⟨hroom, fun _ h => absurd hheld h⟩, fun _ => nofun⟩
  simp only [if_neg hheld]
  obtain ⟨⟨T, added⟩, hlinks⟩ :=
    linkAll_returned d.table (d.logical cb.lt).ctx cb.unwind id (d.logical cb.lt).locked
  simp only [htable', htable, hctx, hlogical, hlinks, Outcome.returned_bind]
  by_cases hskip : added = false ∨ (T.getMutex id).link = []
  · simp only [if_pos hskip]
    refine .const nofun ⟨fun _ => hmeets.mpr ⟨hroom, fun T' _ hT hlink => ?_⟩, fun _ => nofun⟩
    obtain ⟨rfl, rfl⟩ := Prod.mk.inj (Outcome.returned.inj (hlinks.symm.trans hT))
    exact absurd hskip (not_or.mpr ⟨by decide, hlink⟩)
  simp only [if_neg hskip]
  obtain ⟨hadded, hlink⟩ := not_or.mp hskip
  rw [Bool.not_eq_false] at hadded
  subst hadded
  obtain ⟨o, hrun, hend, hiff⟩ :=
    checkCycle_endsInside secondDeadlockStack { d₂ with table := T } cb id
  refine ⟨o, hrun, hend, hiff.trans ⟨fun h => hmeets.mpr ⟨hroom, fun T' _ hT _ => ?_⟩, fun h => ?_⟩⟩
  · obtain ⟨rfl, -⟩ := Prod.mk.inj (Outcome.returned.inj (hlinks.symm.trans hT))
    exact h
  · exact (hmeets.mp h).2 T hheld hlinks hlink

theorem hasId_update {d : Detector} {m : ℕ} {mtx : DDMutex} (h : mtx.id = (d.mutexes m).id) :
    ({ d with mutexes := Function.update d.mutexes m mtx } : Detector).HasId m ↔ d.HasId m := by
  unfold Detector.HasId
  dsimp only
  rw [Function.update_self, h]

theorem ensureId_pushLocked (d : Detector) (cb : Callback) (m : ℕ) :
    (d.ensureId m >>= fun (d, id) => d.pushLocked secondDeadlockStack cb id) ≠ .unfinished ∧
      ((d.ensureId m >>= fun (d, id) => d.pushLocked secondDeadlockStack cb id) ≠ .stopped .outside ↔
        (d.HasId m → d.HasRoom cb.lt)) := by
  by_cases hhas : d.HasId m
  swap
  · rw [ensureId_check hhas, Outcome.stopped_bind]
    exact ⟨nofun, fun _ h => absurd h hhas, fun _ => nofun⟩
  obtain ⟨d₁, id, hid⟩ := ensureId_returned hhas
  have hroom_iff : d₁.HasRoom cb.lt ↔ d.HasRoom cb.lt := by
    rw [Detector.HasRoom, (ensureId_frame hid).2.1, Detector.HasRoom]
  rw [hid, Outcome.returned_bind]
  by_cases hroom : d.HasRoom cb.lt
  · obtain ⟨d₂, hpush, -⟩ := pushLocked_returned secondDeadlockStack d₁ cb id (hroom_iff.mpr hroom)
    dsimp only
    rw [hpush]
    exact ⟨nofun, fun _ _ => hroom, fun _ => nofun⟩
  · dsimp only
    rw [pushLocked_outside secondDeadlockStack d₁ cb id (hroom_iff.not.mpr hroom)]
    exact ⟨nofun, fun h => absurd rfl h, fun h => absurd (h hhas) hroom⟩

/-- `MutexAfterLock` stays inside the array just when there is room for the lock of a successful try. -/
theorem mutexAfterLock_endsInside (d : Detector) (cb : Callback) (m : ℕ) (wlock trylock : Bool) :
    EndsInside (fun _ => d.mutexAfterLock secondDeadlockStack cb m wlock trylock)
      (d.Meets (.mutexAfterLock cb m wlock trylock)) := by
  unfold Detector.mutexAfterLock
  dsimp only
  by_cases howner : (d.mutexes m).owner = some cb.lt
  · have hmeets : d.Meets (.mutexAfterLock cb m wlock trylock) := fun hnone => by
      rw [hnone] at howner
      cases howner
    rw [if_pos howner]
    cases wlock
    · exact .const nofun ⟨fun _ => hmeets, fun _ => nofun⟩
    · exact .const nofun ⟨fun _ => hmeets, fun _ => nofun⟩
  rw [if_neg howner]
  by_cases hnone : (d.mutexes m).owner = none
  swap
  · rw [if_pos hnone]
    exact .const nofun ⟨fun _ h => absurd h hnone, fun _ => nofun⟩
  rw [if_neg (not_not.mpr hnone)]
  by_cases hrec : wlock = true ∧ (d.mutexes m).recursion ≠ 0
  · rw [if_pos hrec]
    exact .const nofun ⟨fun _ _ _ h => absurd (h hrec.1) hrec.2, fun _ => nofun⟩
  rw [if_neg hrec]
  have hrec' : wlock = true → (d.mutexes m).recursion = 0 := fun hw => not_not.mp fun h => hrec ⟨hw, h⟩
  cases trylock
  · rw [if_pos rfl]
    exact .const nofun ⟨fun _ _ h => absurd h (by decide), fun _ => nofun⟩
  simp only [Bool.true_eq_false, if_false]
  have hmeets : d.Meets (.mutexAfterLock cb m wlock true) ↔ (d.HasId m → d.HasRoom cb.lt) :=
    ⟨fun h => h hnone rfl hrec', fun h _ _ _ => h⟩
  cases wlock
  · have hpush := ensureId_pushLocked secondDeadlockStack d cb m
    simp only [Bool.false_eq_true, if_false, if_neg (not_kMaxNesting_lt d cb.lt)]
    exact .const hpush.1 (hpush.2.trans hmeets.symm)
  · let owned : DDMutex := ⟨(d.mutexes m).id, 1, some cb.lt⟩
    have hpush := ensureId_pushLocked secondDeadlockStack
      { d with mutexes := Function.update d.mutexes m owned } cb m
    simp only [if_true, if_neg (not_kMaxNesting_lt d cb.lt)]
    refine .const hpush.1 (hpush.2.trans (Iff.trans ?_ hmeets.symm))
    exact imp_congr (hasId_update rfl) Iff.rfl

theorem mutexBeforeUnlock_cases (d : Detector) (cb : Callback) (m : ℕ) :
    (∃ d', d.mutexBeforeUnlock cb m = .returned d') ∨ d.mutexBeforeUnlock cb m = .stopped .check := by
  unfold Detector.mutexBeforeUnlock
  dsimp only
  repeat' split
  all_goals first | exact .inl ⟨_, rfl⟩ | exact .inr rfl

theorem step_endsInside (d : Detector) (op : Op) :
    EndsInside (fun fuel => d.step secondDeadlockStack fuel op) (d.Meets op) := by
  cases op with
  | mutexBeforeLock cb m => exact mutexBeforeLock_endsInside secondDeadlockStack d cb m
  | mutexAfterLock cb m wlock trylock =>
    exact mutexAfterLock_endsInside secondDeadlockStack d cb m wlock trylock
  | mutexBeforeUnlock cb m =>
    rcases mutexBeforeUnlock_cases d cb m with ⟨d', h⟩ | h
    · exact ⟨.returned d', ⟨0, fun _ _ => h⟩, nofun, fun _ => trivial, fun _ => nofun⟩
    · exact ⟨.stopped .check, ⟨0, fun _ _ => h⟩, nofun, fun _ => trivial, fun _ => nofun⟩
  | createLogicalThread | mutexInit | mutexDestroy | getReport =>
    exact .const nofun ⟨fun _ => trivial, fun _ => nofun⟩

/-! ## Runs -/

/-- Each access of the calls, one after another, is inside its array, or a `CHECK` fails. -/
def AllInBounds : Detector → List Op → Prop
  | _, [] => True
  | d, op :: ops => ∃ o, (∃ k, ∀ fuel ≥ k, d.step secondDeadlockStack fuel op = o) ∧
      o ≠ .unfinished ∧ o ≠ .stopped .outside ∧ ∀ d', o = .returned d' → AllInBounds d' ops

/-- Each call meets its condition. -/
def AllMeet : Detector → List Op → Prop
  | _, [] => True
  | d, op :: ops => d.Meets op ∧
      ∀ d', (∃ k, ∀ fuel ≥ k, d.step secondDeadlockStack fuel op = .returned d') → AllMeet d' ops

theorem ends_unique {run : ℕ → Outcome Fault Detector} {o o' : Outcome Fault Detector}
    (h : ∃ k, ∀ fuel ≥ k, run fuel = o) (h' : ∃ k, ∀ fuel ≥ k, run fuel = o') : o = o' := by
  obtain ⟨k, hk⟩ := h
  obtain ⟨k', hk'⟩ := h'
  exact (hk (max k k') (le_max_left k k')).symm.trans (hk' (max k k') (le_max_right k k'))

/-- The calls stay inside the arrays just when each of them meets its condition: the locks have room, and
so does each search for a cycle. -/
theorem detector_iff (ops : List Op) :
    AllInBounds secondDeadlockStack .init ops ↔ AllMeet secondDeadlockStack .init ops := by
  generalize Detector.init = d
  induction ops generalizing d with
  | nil => exact Iff.rfl
  | cons op ops ih =>
    obtain ⟨o, hrun, hend, hiff⟩ := step_endsInside secondDeadlockStack d op
    constructor
    · rintro ⟨o', hrun', -, hinside, hrest⟩
      obtain rfl := ends_unique hrun hrun'
      exact ⟨hiff.mp hinside, fun d' hd' => (ih d').mp (hrest d' (ends_unique hrun hd'))⟩
    · rintro ⟨hmeets, hrest⟩
      refine ⟨o, hrun, hend, hiff.mpr hmeets, fun d' hd' => (ih d').mpr (hrest d' ?_)⟩
      exact hd' ▸ hrun

/-- A thread tries to take a mutex for reading, and does. -/
def readTry : Op := .mutexAfterLock ⟨0, 0, 0⟩ 0 false true

/-- As many such locks as there are places, and one more. -/
theorem not_allInBounds_readTry (n : ℕ) (d : Detector) (howner : (d.mutexes 0).owner = none)
    (hhas : d.HasId 0) (hlocked : (d.logical 0).locked.length + n = kMaxNesting) :
    ¬ AllInBounds secondDeadlockStack d (List.replicate (n + 1) readTry) := by
  induction n generalizing d with
  | zero =>
    rintro ⟨o, hrun, -, hinside, -⟩
    obtain ⟨o', hrun', -, hiff⟩ := step_endsInside secondDeadlockStack d readTry
    obtain rfl := ends_unique hrun hrun'
    have hroom : d.HasRoom 0 := hiff.mp hinside howner rfl (fun h => absurd h (by decide)) hhas
    exact absurd hroom (Nat.not_lt.mpr hlocked.ge)
  | succ n ih =>
    rintro ⟨o, ⟨k, hk⟩, -, -, hrest⟩
    obtain ⟨d₁, id, hid⟩ := ensureId_returned hhas
    obtain ⟨-, hlogical, hname, howner'⟩ := ensureId_frame hid
    have hroom : d₁.HasRoom 0 := by
      unfold Detector.HasRoom
      rw [hlogical]
      omega
    obtain ⟨d₂, hpush, -, hmutexes, -, hlength⟩ :=
      pushLocked_returned secondDeadlockStack d₁ ⟨0, 0, 0⟩ id hroom
    have hstep : d.step secondDeadlockStack k readTry = .returned d₂ := by
      simp only [readTry, Detector.step, Detector.mutexAfterLock, howner, reduceCtorEq, if_false,
        ne_eq, not_true, Bool.false_eq_true, false_and, Bool.true_eq_false, if_neg (not_kMaxNesting_lt d 0)]
      rw [hid, Outcome.returned_bind]
      exact hpush
    refine ih d₂ ?_ (.inl ?_) ?_ (hrest d₂ ((hk k le_rfl).symm.trans hstep))
    · rw [hmutexes, howner', howner]
    · rw [hmutexes, hname]
      nofun
    · dsimp only at hlength
      rw [hlength, hlogical]
      omega

/-- The nesting of a thread may reach one more than there is room for. -/
theorem detector_outside_deep : ¬ AllInBounds false .init (List.replicate (kMaxNesting + 1) readTry) :=
  not_allInBounds_readTry false kMaxNesting .init rfl (.inr (.inr (by decide))) (by decide)

end Tasan.DD
