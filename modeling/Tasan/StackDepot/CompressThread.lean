import Mathlib.Tactic

/-!
# The compression thread of the stack depot

`CompressThread` of `sanitizer_stackdepot.cpp`: any number of threads that call `NewWorkNotify`,
`Stop`, and `LockAndStop` with its `Unlock`, and the workers that they start. The critical sections
of `mutex_`, the operations on the semaphore, the accesses to `run_`, the start of a worker and its
join are steps of their own; `state_` and `thread_` are read and written only by the thread that holds
`mutex_`.

A worker that has not been joined is in one place: in `thread_`, in the hands of the `NewWorkNotify`
that is about to store it there, or in those of the `Stop` that has taken it out (`Inv.custody`). While
it is in none of the last two, `state_` says whether there is one, and so a worker is only started when
all others are joined.
-/

namespace Tasan.CompressThread

open Relation

/-- `CompressThread::State`. -/
inductive State
  | notStarted
  | started
  | failed
  | stopped
  deriving DecidableEq

/-- Where a worker is in `Run`. -/
inductive WorkerPc
  /-- It has not been started. -/
  | unborn
  /-- At `semaphore_.Wait()`. -/
  | waiting
  /-- Before it loads `run_`. -/
  | loading
  /-- In `CompressStackStore`. -/
  | compressing
  /-- It has returned. -/
  | finished
  deriving DecidableEq

/-- Where a caller is. -/
inductive Pc
  /-- In no call. -/
  | idle
  /-- `NewWorkNotify`, before it locks. -/
  | notifyLock
  /-- `NewWorkNotify`, at the first test of `state_`. -/
  | notifyTest
  /-- `NewWorkNotify`, before it sets `run_`. -/
  | notifyRun
  /-- `NewWorkNotify`, before it starts a worker. -/
  | notifyStart
  /-- `NewWorkNotify`, with what `internal_start_thread` has returned. -/
  | notifyStore (thread : Option ℕ)
  /-- `NewWorkNotify`, before it posts. -/
  | notifyPost
  /-- `NewWorkNotify`, before it unlocks; whether it has posted. -/
  | notifyUnlock (posted : Bool)
  /-- `NewWorkNotify`, in `CompressStackStore`. -/
  | compress
  /-- `Stop`, before it locks. -/
  | stopLock
  /-- `Stop`, at the test of `state_`. -/
  | stopTest
  /-- `Stop`, before it unlocks, with the worker that it has taken. -/
  | stopUnlock (t : Option ℕ)
  /-- `Stop`, before it clears `run_`. -/
  | stopRun (t : ℕ)
  /-- `Stop`, before it posts. -/
  | stopPost (t : ℕ)
  /-- `Stop`, before it joins. -/
  | stopJoin (t : ℕ)
  /-- `LockAndStop`, before it locks. -/
  | forkLock
  /-- `LockAndStop`, at the test of `state_`. -/
  | forkTest
  /-- `LockAndStop`, before it clears `run_`. -/
  | forkRun
  /-- `LockAndStop`, before it posts. -/
  | forkPost
  /-- `LockAndStop`, before it joins. -/
  | forkJoin
  /-- `LockAndStop`, before it resets `state_` and `thread_`. -/
  | forkReset
  /-- After the return of `LockAndStop`, before `Unlock`. -/
  | forked
  /-- A `CHECK` has failed. -/
  | dead
  deriving DecidableEq

/-- A `CompressThread`, its callers and its workers. -/
structure World (Thread : Type) where
  semaphore : ℕ
  /-- Who holds `mutex_`. -/
  mutex : Option Thread
  state : State
  thread : Option ℕ
  run : Bool
  /-- The number of workers that have been started. -/
  started : ℕ
  /-- The workers. -/
  worker : ℕ → WorkerPc
  /-- How often a worker has been joined. -/
  joins : ℕ → ℕ
  /-- The callers. -/
  pc : Thread → Pc

/-- The state before the first call. -/
def World.initial (Thread : Type) : World Thread where
  semaphore := 0
  mutex := none
  state := .notStarted
  thread := none
  run := false
  started := 0
  worker _ := .unborn
  joins _ := 0
  pc _ := .idle

/-- The first step of `NewWorkNotify`, which depends on the flag `compress_stack_depot`. -/
def notifyEntry (compress : ℤ) : Pc :=
  if compress = 0 then .idle else if 0 < compress then .notifyLock else .compress

/-- What `NewWorkNotify` does after the first test of `state_`. -/
def afterNotifyTest : State → Pc
  | .notStarted => .notifyRun
  | .started => .notifyPost
  | .failed | .stopped => .notifyUnlock false

/-- One step of a caller or of a worker. -/
inductive Step {Thread : Type} [DecidableEq Thread] (compress : ℤ) :
    World Thread → World Thread → Prop
  /-- `NewWorkNotify` is called. -/
  | callNotify {w} (i : Thread) (hpc : w.pc i = .idle) :
      Step compress w { w with pc := Function.update w.pc i (notifyEntry compress) }
  /-- It locks. -/
  | notifyLock {w} (i : Thread) (hpc : w.pc i = .notifyLock) (hfree : w.mutex = none) :
      Step compress w { w with mutex := some i, pc := Function.update w.pc i .notifyTest }
  /-- It tests `state_`. -/
  | notifyTest {w} (i : Thread) (hpc : w.pc i = .notifyTest) :
      Step compress w { w with pc := Function.update w.pc i (afterNotifyTest w.state) }
  /-- It sets `run_`. -/
  | notifyRun {w} (i : Thread) (hpc : w.pc i = .notifyRun) :
      Step compress w { w with run := true, pc := Function.update w.pc i .notifyStart }
  /-- `CHECK_EQ(nullptr, thread_)` fails. -/
  | notifyDie {w} (i : Thread) (hpc : w.pc i = .notifyStart) (hthread : w.thread ≠ none) :
      Step compress w { w with pc := Function.update w.pc i .dead }
  /-- It starts a worker. -/
  | notifyStart {w} (i : Thread) (hpc : w.pc i = .notifyStart) (hthread : w.thread = none) :
      Step compress w { w with
        started := w.started + 1
        worker := Function.update w.worker w.started .waiting
        pc := Function.update w.pc i (.notifyStore (some w.started)) }
  /-- The worker cannot be started. -/
  | notifyFail {w} (i : Thread) (hpc : w.pc i = .notifyStart) (hthread : w.thread = none) :
      Step compress w { w with pc := Function.update w.pc i (.notifyStore none) }
  /-- It stores `thread_` and `state_`, and tests `state_` again. -/
  | notifyStore {w} (i : Thread) (t : Option ℕ) (hpc : w.pc i = .notifyStore t) :
      Step compress w { w with
        thread := t
        state := if t.isSome then .started else .failed
        pc := Function.update w.pc i (if t.isSome then .notifyPost else .notifyUnlock false) }
  /-- It posts. -/
  | notifyPost {w} (i : Thread) (hpc : w.pc i = .notifyPost) :
      Step compress w { w with
        semaphore := (w.semaphore + 1) % 2^32
        pc := Function.update w.pc i (.notifyUnlock true) }
  /-- It unlocks. -/
  | notifyUnlock {w} (i : Thread) (posted : Bool) (hpc : w.pc i = .notifyUnlock posted) :
      Step compress w { w with
        mutex := none
        pc := Function.update w.pc i (if posted then .idle else .compress) }
  /-- It returns from `CompressStackStore`. -/
  | notifyReturn {w} (i : Thread) (hpc : w.pc i = .compress) :
      Step compress w { w with pc := Function.update w.pc i .idle }
  /-- `Stop` is called. -/
  | callStop {w} (i : Thread) (hpc : w.pc i = .idle) :
      Step compress w { w with pc := Function.update w.pc i .stopLock }
  /-- It locks. -/
  | stopLock {w} (i : Thread) (hpc : w.pc i = .stopLock) (hfree : w.mutex = none) :
      Step compress w { w with mutex := some i, pc := Function.update w.pc i .stopTest }
  /-- There is nothing to stop. -/
  | stopSkip {w} (i : Thread) (hpc : w.pc i = .stopTest) (hstate : w.state ≠ .started) :
      Step compress w { w with pc := Function.update w.pc i (.stopUnlock none) }
  /-- `CHECK_NE(nullptr, thread_)` fails. -/
  | stopDie {w} (i : Thread) (hpc : w.pc i = .stopTest) (hstate : w.state = .started)
      (hthread : w.thread = none) :
      Step compress w { w with state := .stopped, pc := Function.update w.pc i .dead }
  /-- It takes the worker out. -/
  | stopTake {w} (i : Thread) (t : ℕ) (hpc : w.pc i = .stopTest) (hstate : w.state = .started)
      (hthread : w.thread = some t) :
      Step compress w { w with
        state := .stopped
        thread := none
        pc := Function.update w.pc i (.stopUnlock (some t)) }
  /-- It unlocks and returns. -/
  | stopReturn {w} (i : Thread) (hpc : w.pc i = .stopUnlock none) :
      Step compress w { w with mutex := none, pc := Function.update w.pc i .idle }
  /-- It unlocks and goes on. -/
  | stopUnlock {w} (i : Thread) (t : ℕ) (hpc : w.pc i = .stopUnlock (some t)) :
      Step compress w { w with mutex := none, pc := Function.update w.pc i (.stopRun t) }
  /-- It clears `run_`. -/
  | stopRun {w} (i : Thread) (t : ℕ) (hpc : w.pc i = .stopRun t) :
      Step compress w { w with run := false, pc := Function.update w.pc i (.stopPost t) }
  /-- It posts. -/
  | stopPost {w} (i : Thread) (t : ℕ) (hpc : w.pc i = .stopPost t) :
      Step compress w { w with
        semaphore := (w.semaphore + 1) % 2^32
        pc := Function.update w.pc i (.stopJoin t) }
  /-- It joins the worker and returns. -/
  | stopJoin {w} (i : Thread) (t : ℕ) (hpc : w.pc i = .stopJoin t)
      (hfinished : w.worker t = .finished) :
      Step compress w { w with
        joins := Function.update w.joins t (w.joins t + 1)
        pc := Function.update w.pc i .idle }
  /-- `LockAndStop` is called. -/
  | callFork {w} (i : Thread) (hpc : w.pc i = .idle) :
      Step compress w { w with pc := Function.update w.pc i .forkLock }
  /-- It locks. -/
  | forkLock {w} (i : Thread) (hpc : w.pc i = .forkLock) (hfree : w.mutex = none) :
      Step compress w { w with mutex := some i, pc := Function.update w.pc i .forkTest }
  /-- There is nothing to stop. -/
  | forkSkip {w} (i : Thread) (hpc : w.pc i = .forkTest) (hstate : w.state ≠ .started) :
      Step compress w { w with pc := Function.update w.pc i .forked }
  /-- `CHECK_NE(nullptr, thread_)` fails. -/
  | forkDie {w} (i : Thread) (hpc : w.pc i = .forkTest) (hstate : w.state = .started)
      (hthread : w.thread = none) : Step compress w { w with pc := Function.update w.pc i .dead }
  /-- There is a worker to stop. -/
  | forkTest {w} (i : Thread) (hpc : w.pc i = .forkTest) (hstate : w.state = .started)
      (hthread : w.thread ≠ none) : Step compress w { w with pc := Function.update w.pc i .forkRun }
  /-- It clears `run_`. -/
  | forkRun {w} (i : Thread) (hpc : w.pc i = .forkRun) :
      Step compress w { w with run := false, pc := Function.update w.pc i .forkPost }
  /-- It posts. -/
  | forkPost {w} (i : Thread) (hpc : w.pc i = .forkPost) :
      Step compress w { w with
        semaphore := (w.semaphore + 1) % 2^32
        pc := Function.update w.pc i .forkJoin }
  /-- It joins the worker. -/
  | forkJoin {w} (i : Thread) (t : ℕ) (hpc : w.pc i = .forkJoin) (hthread : w.thread = some t)
      (hfinished : w.worker t = .finished) :
      Step compress w { w with
        joins := Function.update w.joins t (w.joins t + 1)
        pc := Function.update w.pc i .forkReset }
  /-- It allows to restart. -/
  | forkReset {w} (i : Thread) (hpc : w.pc i = .forkReset) :
      Step compress w { w with
        state := .notStarted
        thread := none
        pc := Function.update w.pc i .forked }
  | unlock {w} (i : Thread) (hpc : w.pc i = .forked) :
      Step compress w { w with mutex := none, pc := Function.update w.pc i .idle }
  /-- `semaphore_.Wait()` of a worker. -/
  | wait {w} (k : ℕ) (hpc : w.worker k = .waiting) (hpos : w.semaphore ≠ 0) :
      Step compress w { w with
        semaphore := w.semaphore - 1
        worker := Function.update w.worker k .loading }
  /-- A worker loads `run_`. -/
  | load {w} (k : ℕ) (hpc : w.worker k = .loading) :
      Step compress w { w with
        worker := Function.update w.worker k (if w.run then .compressing else .finished) }
  /-- `CompressStackStore` of a worker. -/
  | compress {w} (k : ℕ) (hpc : w.worker k = .compressing) :
      Step compress w { w with worker := Function.update w.worker k .waiting }

/-- A state that the calls can lead to. -/
def Reachable {Thread : Type} [DecidableEq Thread] (compress : ℤ) (w : World Thread) : Prop :=
  ReflTransGen (Step compress) (World.initial Thread) w

/-- A worker that has been started and has not returned. -/
def World.Running {Thread : Type} (w : World Thread) (k : ℕ) : Prop :=
  w.worker k ≠ .unborn ∧ w.worker k ≠ .finished

/-! ## What a place says -/

/-- The places between the lock of `mutex_` and its unlock. -/
def Pc.Holds : Pc → Prop
  | .notifyTest | .notifyRun | .notifyStart | .notifyStore _ | .notifyPost | .notifyUnlock _
  | .stopTest | .stopUnlock _ | .forkTest | .forkRun | .forkPost | .forkJoin | .forkReset
  | .forked => True
  | _ => False

/-- What is known of `state_` at a place. -/
def Pc.Expects (state : State) : Pc → Prop
  | .notifyRun | .notifyStart | .notifyStore _ => state = .notStarted
  | .notifyPost | .forkRun | .forkPost | .forkJoin | .forkReset => state = .started
  | .forked => state ≠ .started
  | .dead => False
  | _ => True

/-- The worker in the hands of a `Stop`. -/
def Pc.takes : Pc → Option ℕ
  | .stopUnlock t => t
  | .stopRun t | .stopPost t | .stopJoin t => some t
  | _ => none

/-- The worker in the hands of a `NewWorkNotify`. -/
def Pc.stores : Pc → Option ℕ
  | .notifyStore t => t
  | _ => none

/-! ## The invariant -/

section Invariant

variable {Thread : Type}

/-- What holds in every state. -/
structure Inv (w : World Thread) : Prop where
  /-- The holder of `mutex_` is in a critical section, and nobody else is. -/
  owner : ∀ i, w.mutex = some i ↔ (w.pc i).Holds
  /-- `state_` is what a caller has found it to be. -/
  expects : ∀ i, (w.pc i).Expects w.state
  /-- `state_` says whether there is a thread. -/
  status : w.state = .started ↔ w.thread ≠ none
  /-- The workers that have not been started. -/
  unborn : ∀ k, w.started ≤ k → w.worker k = .unborn ∧ w.joins k = 0
  /-- A worker is joined once, after it has returned. -/
  joined : ∀ k, w.joins k = 0 ∨ w.joins k = 1 ∧ w.worker k = .finished
  /-- Only the last worker is not joined. -/
  last : ∀ k < w.started, w.joins k = 0 → k + 1 = w.started
  /-- `thread_` is a worker. -/
  thread : ∀ k, w.thread = some k → k < w.started
  /-- It has been joined only when a `LockAndStop` is about to reset it. -/
  reset : ∀ k, w.thread = some k → (w.joins k = 0 ↔ ∀ i, w.pc i ≠ .forkReset)
  /-- The worker that a `Stop` has taken. -/
  takes : ∀ i k, (w.pc i).takes = some k → w.state = .stopped ∧ k < w.started ∧ w.joins k = 0
  /-- One `Stop` at most has taken a worker. -/
  one : ∀ i j k l, (w.pc i).takes = some k → (w.pc j).takes = some l → i = j
  /-- The worker that a `NewWorkNotify` has started. -/
  stores : ∀ i k, (w.pc i).stores = some k → k < w.started ∧ w.joins k = 0
  /-- A worker that has not been joined is in one of these places. -/
  custody : ∀ k < w.started, w.joins k = 0 →
    w.thread = some k ∨ (∃ i, (w.pc i).stores = some k) ∨ ∃ i, (w.pc i).takes = some k

theorem inv_initial : Inv (World.initial Thread) where
  owner _ := ⟨fun h => (nomatch h), fun h => h.elim⟩
  expects _ := trivial
  status := ⟨fun h => (nomatch h), fun h => absurd rfl h⟩
  unborn _ _ := ⟨rfl, rfl⟩
  joined _ := Or.inl rfl
  last _ h := absurd h (Nat.not_lt_zero _)
  thread _ h := nomatch h
  reset _ h := nomatch h
  takes _ _ h := nomatch h
  one _ _ _ _ h := nomatch h
  stores _ _ h := nomatch h
  custody _ h := absurd h (Nat.not_lt_zero _)

variable {w : World Thread}

theorem Inv.eq_of_holds (h : Inv w) {i j : Thread} (hi : (w.pc i).Holds) (hj : (w.pc j).Holds) :
    i = j := by
  have hown := (h.owner i).mpr hi
  rw [(h.owner j).mpr hj] at hown
  exact (Option.some.inj hown).symm

theorem Inv.stores_spec (h : Inv w) {i : Thread} {k : ℕ} (hi : (w.pc i).stores = some k) :
    (w.pc i).Holds ∧ w.state = .notStarted := by
  have hexp := h.expects i
  cases hpc : w.pc i with
  | notifyStore t =>
    rw [hpc] at hexp
    exact ⟨trivial, hexp⟩
  | _ =>
    rw [hpc] at hi
    exact nomatch hi

theorem Inv.takes_eq_none (h : Inv w) (hstate : w.state ≠ .stopped) (i : Thread) :
    (w.pc i).takes = none := by
  cases hi : (w.pc i).takes with
  | none => rfl
  | some k => exact absurd (h.takes i k hi).1 hstate

theorem Inv.joined_of_none (h : Inv w) (hstate : w.state ≠ .started)
    (hstores : ∀ i, (w.pc i).stores = none) (htakes : ∀ i, (w.pc i).takes = none) {k : ℕ}
    (hk : k < w.started) : w.joins k ≠ 0 := by
  intro h0
  rcases h.custody k hk h0 with ht | ⟨i, hi⟩ | ⟨i, hi⟩
  · exact hstate (h.status.mpr (by rw [ht]; exact nofun))
  · rw [hstores i] at hi
    exact nomatch hi
  · rw [htakes i] at hi
    exact nomatch hi

theorem Inv.joined_of_notifyStart (h : Inv w) {i : Thread} (hpc : w.pc i = .notifyStart) {k : ℕ}
    (hk : k < w.started) : w.joins k ≠ 0 := by
  have hstate : w.state = .notStarted := by
    have := h.expects i
    rwa [hpc] at this
  refine h.joined_of_none (by rw [hstate]; decide) (fun j => ?_)
    (h.takes_eq_none (by rw [hstate]; decide)) hk
  -- The caller that has a worker in hand would hold `mutex_`.
  cases hj : (w.pc j).stores with
  | none => rfl
  | some l =>
    have hij := h.eq_of_holds (i := i) (by rw [hpc]; trivial) (h.stores_spec hj).1
    rw [← hij, hpc] at hj
    exact nomatch hj

theorem Pc.Expects.of_not_holds {p : Pc} {state : State} (h : p.Expects state) (hp : ¬ p.Holds)
    (state' : State) : p.Expects state' := by
  cases p <;> first | exact trivial | exact h | exact absurd trivial hp

variable [DecidableEq Thread]

/-- A caller moves between places with the same worker in hand. -/
theorem Inv.move (h : Inv w) {i : Thread} {p : Pc} {m : Option Thread} (semaphore : ℕ) (run : Bool)
    (howner : ∀ j, m = some j ↔ (Function.update w.pc i p j).Holds)
    (hexpects : p.Expects w.state) (htakes : p.takes = (w.pc i).takes)
    (hstores : p.stores = (w.pc i).stores) (hreset : w.pc i ≠ .forkReset) (hp : p ≠ .forkReset) :
    Inv { w with
      mutex := m
      semaphore := semaphore
      run := run
      pc := Function.update w.pc i p } := by
  have htakes' : ∀ j, (Function.update w.pc i p j).takes = (w.pc j).takes := fun j => by
    rcases eq_or_ne j i with rfl | hj
    · rw [Function.update_self, htakes]
    · rw [Function.update_of_ne hj]
  have hstores' : ∀ j, (Function.update w.pc i p j).stores = (w.pc j).stores := fun j => by
    rcases eq_or_ne j i with rfl | hj
    · rw [Function.update_self, hstores]
    · rw [Function.update_of_ne hj]
  refine
    { owner := howner
      expects := fun j => ?_
      status := h.status
      unborn := h.unborn
      joined := h.joined
      last := h.last
      thread := h.thread
      reset := fun k hk => (h.reset k hk).trans ?_
      takes := fun j k hj => h.takes j k ((htakes' j).symm.trans hj)
      one := fun a b k l ha hb =>
        h.one a b k l ((htakes' a).symm.trans ha) ((htakes' b).symm.trans hb)
      stores := fun j k hj => h.stores j k ((hstores' j).symm.trans hj)
      custody := fun k hk h0 => ?_ }
  · dsimp only
    rcases eq_or_ne j i with rfl | hj
    · rw [Function.update_self]
      exact hexpects
    · rw [Function.update_of_ne hj]
      exact h.expects j
  · refine Iff.trans ?_ (Function.forall_update_iff w.pc fun _ q => q ≠ .forkReset).symm
    exact ⟨fun hall => ⟨hp, fun j _ => hall j⟩, fun hall j => (eq_or_ne j i).elim
      (fun heq => heq ▸ hreset) (hall.2 j)⟩
  · simp only [htakes', hstores']
    exact h.custody k hk h0

theorem Inv.owner_goto (h : Inv w) {i : Thread} {p : Pc} (hholds : p.Holds ↔ (w.pc i).Holds)
    (j : Thread) : w.mutex = some j ↔ (Function.update w.pc i p j).Holds := by
  rcases eq_or_ne j i with rfl | hj
  · rw [Function.update_self, hholds]
    exact h.owner j
  · rw [Function.update_of_ne hj]
    exact h.owner j

/-- What two places have in common whose callers have the same worker in hand. -/
def Pc.Same (p q : Pc) : Prop :=
  (q ≠ .forkReset ∧ p ≠ .forkReset) ∧ p.takes = q.takes ∧ p.stores = q.stores

theorem afterNotifyTest_spec (state : State) :
    (afterNotifyTest state).Same .notifyTest ∧ (afterNotifyTest state).Holds ∧
      (afterNotifyTest state).Expects state := by
  cases state <;> exact ⟨⟨⟨nofun, nofun⟩, rfl, rfl⟩, trivial, by trivial⟩

theorem Inv.goto (h : Inv w) {i : Thread} {p q : Pc} (semaphore : ℕ) (run : Bool)
    (hpc : w.pc i = q) (hsame : p.Same q) (hholds : p.Holds ↔ q.Holds)
    (hexpects : q.Expects w.state → p.Expects w.state) :
    Inv { w with semaphore := semaphore, run := run, pc := Function.update w.pc i p } := by
  subst hpc
  exact h.move semaphore run (h.owner_goto hholds) (hexpects (h.expects i)) hsame.2.1 hsame.2.2
    hsame.1.1 hsame.1.2

theorem Inv.lock (h : Inv w) {i : Thread} {p q : Pc} (hpc : w.pc i = q) (hfree : w.mutex = none)
    (hsame : p.Same q) (hholds : p.Holds) (hexpects : p.Expects w.state) :
    Inv { w with mutex := some i, pc := Function.update w.pc i p } := by
  subst hpc
  refine h.move w.semaphore w.run (fun j => ?_) hexpects hsame.2.1 hsame.2.2 hsame.1.1 hsame.1.2
  rcases eq_or_ne j i with rfl | hj
  · rw [Function.update_self]
    exact iff_of_true rfl hholds
  · rw [Function.update_of_ne hj, ← h.owner j, hfree]
    exact iff_of_false (fun heq => hj (Option.some.inj heq).symm) nofun

theorem Inv.unlock (h : Inv w) {i : Thread} {p q : Pc} (hpc : w.pc i = q) (hsame : p.Same q)
    (hq : q.Holds) (hp : ¬ p.Holds) (hexpects : p.Expects w.state) :
    Inv { w with mutex := none, pc := Function.update w.pc i p } := by
  subst hpc
  refine h.move w.semaphore w.run (fun j => ?_) hexpects hsame.2.1 hsame.2.2 hsame.1.1 hsame.1.2
  rcases eq_or_ne j i with rfl | hj
  · rw [Function.update_self]
    exact iff_of_false nofun hp
  · rw [Function.update_of_ne hj]
    exact iff_of_false nofun fun hholds => hj (h.eq_of_holds hholds hq)

omit [DecidableEq Thread] in
/-- A worker that has been started moves. -/
theorem Inv.work (h : Inv w) {k : ℕ} {p q : WorkerPc} (semaphore : ℕ) (hpc : w.worker k = q)
    (hq : q ≠ .unborn ∧ q ≠ .finished) :
    Inv { w with semaphore := semaphore, worker := Function.update w.worker k p } where
  owner := h.owner
  expects := h.expects
  status := h.status
  unborn j hj := by
    have hjk : j ≠ k := fun heq => hq.1 (by rw [← hpc, ← heq]; exact (h.unborn j hj).1)
    dsimp only
    rw [Function.update_of_ne hjk]
    exact h.unborn j hj
  joined j := by
    refine (h.joined j).imp_right fun ⟨h1, h2⟩ => ⟨h1, ?_⟩
    have hjk : j ≠ k := fun heq => hq.2 (by rw [← hpc, ← heq]; exact h2)
    dsimp only
    rw [Function.update_of_ne hjk]
    exact h2
  last := h.last
  thread := h.thread
  reset := h.reset
  takes := h.takes
  one := h.one
  stores := h.stores
  custody := h.custody

theorem Inv.expects_goto (h : Inv w) {i : Thread} {p : Pc} {state : State} (hi : (w.pc i).Holds)
    (hp : p.Expects state) (j : Thread) : (Function.update w.pc i p j).Expects state := by
  rcases eq_or_ne j i with rfl | hj
  · rw [Function.update_self]
    exact hp
  · rw [Function.update_of_ne hj]
    exact (h.expects j).of_not_holds (fun hholds => hj (h.eq_of_holds hholds hi)) state

/-- A worker is started. -/
theorem Inv.notifyStart (h : Inv w) {i : Thread} (hpc : w.pc i = .notifyStart)
    (hthread : w.thread = none) :
    Inv { w with
      started := w.started + 1
      worker := Function.update w.worker w.started .waiting
      pc := Function.update w.pc i (.notifyStore (some w.started)) } := by
  have hjoined := fun k (hk : k < w.started) => h.joined_of_notifyStart hpc hk
  have hnew := (h.unborn w.started le_rfl).2
  have hstate : w.state = .notStarted := by
    have := h.expects i
    rwa [hpc] at this
  have htakes := h.takes_eq_none (by rw [hstate]; decide)
  have htakes' : ∀ j, (Function.update w.pc i (.notifyStore (some w.started)) j).takes = none :=
    (Function.forall_update_iff w.pc fun _ q => q.takes = none).mpr ⟨rfl, fun j _ => htakes j⟩
  refine
    { owner := h.owner_goto (by rw [hpc]; exact Iff.rfl)
      expects := h.expects_goto (by rw [hpc]; trivial) hstate
      status := h.status
      unborn := fun k hk => ?_
      joined := fun k => ?_
      last := fun k hk h0 => ?_
      thread := fun k hk => ?_
      reset := fun k hk => ?_
      takes := fun j k hj => ?_
      one := fun a b k l ha => ?_
      stores := fun j k hj => ?_
      custody := fun k hk h0 => ?_ }
  · dsimp only at hk ⊢
    rw [Function.update_of_ne (by omega)]
    exact h.unborn k (by omega)
  · rcases eq_or_ne k w.started with rfl | hk
    · exact Or.inl hnew
    · dsimp only
      rw [Function.update_of_ne hk]
      exact h.joined k
  · dsimp only at hk h0
    have : ¬ k < w.started := fun hlt => hjoined k hlt h0
    show k + 1 = w.started + 1
    omega
  · rw [show w.thread = some k from hk] at hthread
    exact nomatch hthread
  · rw [show w.thread = some k from hk] at hthread
    exact nomatch hthread
  · exact nomatch (htakes' j).symm.trans hj
  · exact nomatch (htakes' a).symm.trans ha
  · dsimp only at hj ⊢
    rcases eq_or_ne j i with rfl | hji
    · rw [Function.update_self] at hj
      obtain rfl : w.started = k := Option.some.inj hj
      exact ⟨by omega, hnew⟩
    · rw [Function.update_of_ne hji] at hj
      obtain ⟨hk, h0⟩ := h.stores j k hj
      exact ⟨by omega, h0⟩
  · dsimp only at hk h0 ⊢
    have : ¬ k < w.started := fun hlt => hjoined k hlt h0
    refine Or.inr (Or.inl ⟨i, ?_⟩)
    rw [Function.update_self, show k = w.started by omega]
    rfl

theorem Inv.stores_goto (h : Inv w) {i : Thread} {p : Pc} (hi : (w.pc i).Holds)
    (hp : p.stores = none) (j : Thread) : (Function.update w.pc i p j).stores = none := by
  rcases eq_or_ne j i with rfl | hj
  · rw [Function.update_self]
    exact hp
  · rw [Function.update_of_ne hj]
    cases hstores : (w.pc j).stores with
    | none => rfl
    | some k => exact absurd (h.eq_of_holds (h.stores_spec hstores).1 hi) hj

theorem Inv.takes_goto (h : Inv w) (hstate : w.state ≠ .stopped) {i : Thread} {p : Pc}
    (hp : p.takes = none) (j : Thread) : (Function.update w.pc i p j).takes = none :=
  (Function.forall_update_iff w.pc fun _ q => q.takes = none).mpr
    ⟨hp, fun j _ => h.takes_eq_none hstate j⟩ j

/-- `NewWorkNotify` stores `thread_` and `state_`. -/
theorem Inv.notifyStore (h : Inv w) {i : Thread} {t : Option ℕ} (hpc : w.pc i = .notifyStore t) :
    Inv { w with
      thread := t
      state := if t.isSome then .started else .failed
      pc := Function.update w.pc i (if t.isSome then .notifyPost else .notifyUnlock false) } := by
  have hholds : (w.pc i).Holds := by rw [hpc]; trivial
  have hstate : w.state = .notStarted := by
    have := h.expects i
    rwa [hpc] at this
  have hthread : w.thread = none := by
    by_contra hne
    have := h.status.mpr hne
    rw [hstate] at this
    exact nomatch this
  have htakes := h.takes_goto (by rw [hstate]; decide) (i := i)
    (p := if t.isSome then .notifyPost else .notifyUnlock false) (by cases t <;> rfl)
  have hstores := h.stores_goto hholds (p := if t.isSome then .notifyPost else .notifyUnlock false)
    (by cases t <;> rfl)
  refine
    { owner := h.owner_goto (by rw [hpc]; cases t <;> exact Iff.rfl)
      expects := h.expects_goto hholds (by cases t; exacts [trivial, rfl])
      status := by cases t <;> simp
      unborn := h.unborn
      joined := h.joined
      last := h.last
      thread := fun k hk => (h.stores i k (by rw [hpc]; exact hk)).1
      reset := fun k hk => ?_
      takes := fun j k hj => nomatch (htakes j).symm.trans hj
      one := fun a b k l ha => nomatch (htakes a).symm.trans ha
      stores := fun j k hj => nomatch (hstores j).symm.trans hj
      custody := fun k hk h0 => ?_ }
  · refine iff_of_true (h.stores i k (by rw [hpc]; exact hk)).2 fun j hj => ?_
    dsimp only at hj
    rcases eq_or_ne j i with rfl | hji
    · rw [Function.update_self] at hj
      cases t <;> exact nomatch hj
    · rw [Function.update_of_ne hji] at hj
      exact hji (h.eq_of_holds (by rw [hj]; trivial) hholds)
  · rcases h.custody k hk h0 with hk | ⟨j, hj⟩ | ⟨j, hj⟩
    · rw [hthread] at hk
      exact nomatch hk
    · -- The caller that has the worker in hand is the one that stores it.
      obtain rfl := h.eq_of_holds (h.stores_spec hj).1 hholds
      rw [hpc] at hj
      exact Or.inl hj
    · rw [h.takes_eq_none (by rw [hstate]; decide) j] at hj
      exact nomatch hj

/-- `Stop` takes the worker out. -/
theorem Inv.stopTake (h : Inv w) {i : Thread} {t : ℕ} (hpc : w.pc i = .stopTest)
    (hstate : w.state = .started) (hthread : w.thread = some t) :
    Inv { w with
      state := .stopped
      thread := none
      pc := Function.update w.pc i (.stopUnlock (some t)) } := by
  have hholds : (w.pc i).Holds := by rw [hpc]; trivial
  have hstores := h.stores_goto hholds (p := .stopUnlock (some t)) rfl
  have htakes : ∀ j k, (Function.update w.pc i (.stopUnlock (some t)) j).takes = some k →
      j = i ∧ k = t := fun j k hj => by
    rcases eq_or_ne j i with rfl | hji
    · rw [Function.update_self] at hj
      exact ⟨rfl, (Option.some.inj hj).symm⟩
    · rw [Function.update_of_ne hji, h.takes_eq_none (by rw [hstate]; decide)] at hj
      exact nomatch hj
  have ht : w.joins t = 0 := by
    refine (h.reset t hthread).mpr fun j hj => ?_
    obtain rfl := h.eq_of_holds (j := j) hholds (by rw [hj]; trivial)
    rw [hpc] at hj
    exact nomatch hj
  refine
    { owner := h.owner_goto (by rw [hpc]; exact Iff.rfl)
      expects := h.expects_goto hholds trivial
      status := ⟨fun h => (nomatch h), fun h => absurd rfl h⟩
      unborn := h.unborn
      joined := h.joined
      last := h.last
      thread := fun k hk => nomatch hk
      reset := fun k hk => nomatch hk
      takes := fun j k hj => ?_
      one := fun a b k l ha hb => (htakes a k ha).1.trans (htakes b l hb).1.symm
      stores := fun j k hj => nomatch (hstores j).symm.trans hj
      custody := fun k hk h0 => ?_ }
  · obtain ⟨-, rfl⟩ := htakes j k hj
    exact ⟨rfl, h.thread k hthread, ht⟩
  · rcases h.custody k hk h0 with hk | ⟨j, hj⟩ | ⟨j, hj⟩
    · refine Or.inr (Or.inr ⟨i, ?_⟩)
      dsimp only
      rw [Function.update_self, ← hthread, hk]
      rfl
    · have := (h.stores_spec hj).2
      rw [hstate] at this
      exact nomatch this
    · rw [h.takes_eq_none (by rw [hstate]; decide) j] at hj
      exact nomatch hj

omit [DecidableEq Thread] in
theorem Inv.joins_update (h : Inv w) {t : ℕ} (ht : t < w.started) (h0 : w.joins t = 0) {k : ℕ}
    (hk : k < w.started) : Function.update w.joins t (w.joins t + 1) k ≠ 0 := by
  rcases eq_or_ne k t with rfl | hkt
  · rw [Function.update_self]
    omega
  · rw [Function.update_of_ne hkt]
    intro hk0
    have h1 := h.last t ht h0
    have h2 := h.last k hk hk0
    omega

omit [DecidableEq Thread] in
theorem Inv.joined_update (h : Inv w) {t : ℕ} (h0 : w.joins t = 0)
    (hfinished : w.worker t = .finished) (k : ℕ) :
    Function.update w.joins t (w.joins t + 1) k = 0 ∨
      Function.update w.joins t (w.joins t + 1) k = 1 ∧ w.worker k = .finished := by
  rcases eq_or_ne k t with rfl | hkt
  · rw [Function.update_self, h0]
    exact Or.inr ⟨rfl, hfinished⟩
  · rw [Function.update_of_ne hkt]
    exact h.joined k

omit [DecidableEq Thread] in
theorem Inv.unborn_update (h : Inv w) {t : ℕ} (ht : t < w.started) (k : ℕ) (hk : w.started ≤ k) :
    w.worker k = .unborn ∧ Function.update w.joins t (w.joins t + 1) k = 0 := by
  rw [Function.update_of_ne (by omega)]
  exact h.unborn k hk

/-- `Stop` joins its worker. -/
theorem Inv.stopJoin (h : Inv w) {i : Thread} {t : ℕ} (hpc : w.pc i = .stopJoin t)
    (hfinished : w.worker t = .finished) :
    Inv { w with
      joins := Function.update w.joins t (w.joins t + 1)
      pc := Function.update w.pc i .idle } := by
  have hi : (w.pc i).takes = some t := by rw [hpc]; rfl
  obtain ⟨hstate, ht, h0⟩ := h.takes i t hi
  have htakes : ∀ j, (Function.update w.pc i .idle j).takes = none := fun j => by
    rcases eq_or_ne j i with rfl | hji
    · rw [Function.update_self]
      rfl
    · rw [Function.update_of_ne hji]
      cases hj : (w.pc j).takes with
      | none => rfl
      | some k => exact absurd (h.one j i k t hj hi) hji
  have hstores : ∀ j, (Function.update w.pc i .idle j).stores = none := fun j => by
    rcases eq_or_ne j i with rfl | hji
    · rw [Function.update_self]
      rfl
    · rw [Function.update_of_ne hji]
      cases hj : (w.pc j).stores with
      | none => rfl
      | some k =>
        have := (h.stores_spec hj).2
        rw [hstate] at this
        exact nomatch this
  have hthread : w.thread = none := by
    by_contra hne
    have := h.status.mpr hne
    rw [hstate] at this
    exact nomatch this
  exact
    { owner := h.owner_goto (by rw [hpc]; exact Iff.rfl)
      expects := fun j => by
        dsimp only
        rcases eq_or_ne j i with rfl | hji
        · rw [Function.update_self]
          trivial
        · rw [Function.update_of_ne hji]
          exact h.expects j
      status := h.status
      unborn := h.unborn_update ht
      joined := h.joined_update h0 hfinished
      last := fun k hk hk0 => absurd hk0 (h.joins_update ht h0 hk)
      thread := h.thread
      reset := fun k hk => nomatch hthread.symm.trans hk
      takes := fun j k hj => nomatch (htakes j).symm.trans hj
      one := fun a b k l ha => nomatch (htakes a).symm.trans ha
      stores := fun j k hj => nomatch (hstores j).symm.trans hj
      custody := fun k hk hk0 => absurd hk0 (h.joins_update ht h0 hk) }

/-- `LockAndStop` joins the worker. -/
theorem Inv.forkJoin (h : Inv w) {i : Thread} {t : ℕ} (hpc : w.pc i = .forkJoin)
    (hthread : w.thread = some t) (hfinished : w.worker t = .finished) :
    Inv { w with
      joins := Function.update w.joins t (w.joins t + 1)
      pc := Function.update w.pc i .forkReset } := by
  have hholds : (w.pc i).Holds := by rw [hpc]; trivial
  have hstate : w.state = .started := by
    have := h.expects i
    rwa [hpc] at this
  have ht := h.thread t hthread
  have h0 : w.joins t = 0 := by
    refine (h.reset t hthread).mpr fun j hj => ?_
    obtain rfl := h.eq_of_holds (j := j) hholds (by rw [hj]; trivial)
    rw [hpc] at hj
    exact nomatch hj
  have htakes := h.takes_goto (by rw [hstate]; decide) (i := i) (p := .forkReset) rfl
  have hstores := h.stores_goto hholds (p := .forkReset) rfl
  exact
    { owner := h.owner_goto (by rw [hpc]; exact Iff.rfl)
      expects := h.expects_goto hholds hstate
      status := h.status
      unborn := h.unborn_update ht
      joined := h.joined_update h0 hfinished
      last := fun k hk hk0 => absurd hk0 (h.joins_update ht h0 hk)
      thread := h.thread
      reset := fun k hk => iff_of_false (h.joins_update ht h0 (h.thread k hk))
        fun hall => hall i (Function.update_self ..)
      takes := fun j k hj => nomatch (htakes j).symm.trans hj
      one := fun a b k l ha => nomatch (htakes a).symm.trans ha
      stores := fun j k hj => nomatch (hstores j).symm.trans hj
      custody := fun k hk hk0 => absurd hk0 (h.joins_update ht h0 hk) }

/-- `LockAndStop` resets `state_` and `thread_`. -/
theorem Inv.forkReset (h : Inv w) {i : Thread} (hpc : w.pc i = .forkReset) :
    Inv { w with
      state := .notStarted
      thread := none
      pc := Function.update w.pc i .forked } := by
  have hholds : (w.pc i).Holds := by rw [hpc]; trivial
  have hstate : w.state = .started := by
    have := h.expects i
    rwa [hpc] at this
  have htakes := h.takes_goto (by rw [hstate]; decide) (i := i) (p := .forked) rfl
  have hstores := h.stores_goto hholds (p := .forked) rfl
  refine
    { owner := h.owner_goto (by rw [hpc]; exact Iff.rfl)
      expects := h.expects_goto hholds (show State.notStarted ≠ .started by decide)
      status := ⟨fun h => (nomatch h), fun h => absurd rfl h⟩
      unborn := h.unborn
      joined := h.joined
      last := h.last
      thread := fun k hk => nomatch hk
      reset := fun k hk => nomatch hk
      takes := fun j k hj => nomatch (htakes j).symm.trans hj
      one := fun a b k l ha => nomatch (htakes a).symm.trans ha
      stores := fun j k hj => nomatch (hstores j).symm.trans hj
      custody := fun k hk h0 => ?_ }
  rcases h.custody k hk h0 with hk | ⟨j, hj⟩ | ⟨j, hj⟩
  · -- The worker of `thread_` has just been joined.
    exact absurd hpc ((h.reset k hk).mp h0 i)
  · have := (h.stores_spec hj).2
    rw [hstate] at this
    exact nomatch this
  · rw [h.takes_eq_none (by rw [hstate]; decide) j] at hj
    exact nomatch hj

/-- The invariant is kept by every step. -/
theorem Inv.step {compress : ℤ} (h : Inv w) {w' : World Thread} (hstep : Step compress w w') :
    Inv w' := by
  cases hstep with
  | callNotify i hpc =>
    have hentry : notifyEntry compress = .idle ∨ notifyEntry compress = .notifyLock ∨
        notifyEntry compress = .compress := by
      unfold notifyEntry
      split_ifs <;> simp
    rcases hentry with he | he | he <;> rw [he] <;>
      exact h.goto _ _ hpc ⟨⟨nofun, nofun⟩, rfl, rfl⟩ Iff.rfl fun _ => trivial
  | notifyLock i hpc hfree => exact h.lock hpc hfree ⟨⟨nofun, nofun⟩, rfl, rfl⟩ trivial trivial
  | notifyTest i hpc =>
    obtain ⟨hsame, hholds, hexp⟩ := afterNotifyTest_spec w.state
    exact h.goto _ _ hpc hsame (iff_of_true hholds trivial) fun _ => hexp
  | notifyRun i hpc =>
    exact h.goto _ _ hpc ⟨⟨nofun, nofun⟩, rfl, rfl⟩ Iff.rfl fun hexp => hexp
  | notifyDie i hpc hthread =>
    have hexp := h.expects i
    rw [hpc] at hexp
    have := h.status.mpr hthread
    rw [show w.state = .notStarted from hexp] at this
    exact nomatch this
  | notifyStart i hpc hthread => exact h.notifyStart hpc hthread
  | notifyFail i hpc hthread =>
    exact h.goto _ _ hpc ⟨⟨nofun, nofun⟩, rfl, rfl⟩ Iff.rfl fun hexp => hexp
  | notifyStore i t hpc => exact h.notifyStore hpc
  | notifyPost i hpc =>
    exact h.goto _ _ hpc ⟨⟨nofun, nofun⟩, rfl, rfl⟩ Iff.rfl fun _ => trivial
  | notifyUnlock i posted hpc =>
    cases posted <;> exact h.unlock hpc ⟨⟨nofun, nofun⟩, rfl, rfl⟩ trivial not_false trivial
  | notifyReturn i hpc =>
    exact h.goto _ _ hpc ⟨⟨nofun, nofun⟩, rfl, rfl⟩ Iff.rfl fun _ => trivial
  | callStop i hpc =>
    exact h.goto _ _ hpc ⟨⟨nofun, nofun⟩, rfl, rfl⟩ Iff.rfl fun _ => trivial
  | stopLock i hpc hfree => exact h.lock hpc hfree ⟨⟨nofun, nofun⟩, rfl, rfl⟩ trivial trivial
  | stopSkip i hpc hstate =>
    exact h.goto _ _ hpc ⟨⟨nofun, nofun⟩, rfl, rfl⟩ Iff.rfl fun _ => trivial
  | stopDie i hpc hstate hthread => exact absurd hthread (h.status.mp hstate)
  | stopTake i t hpc hstate hthread => exact h.stopTake hpc hstate hthread
  | stopReturn i hpc =>
    exact h.unlock hpc ⟨⟨nofun, nofun⟩, rfl, rfl⟩ trivial not_false trivial
  | stopUnlock i t hpc =>
    exact h.unlock hpc ⟨⟨nofun, nofun⟩, rfl, rfl⟩ trivial not_false trivial
  | stopRun i t hpc =>
    exact h.goto _ _ hpc ⟨⟨nofun, nofun⟩, rfl, rfl⟩ Iff.rfl fun _ => trivial
  | stopPost i t hpc =>
    exact h.goto _ _ hpc ⟨⟨nofun, nofun⟩, rfl, rfl⟩ Iff.rfl fun _ => trivial
  | stopJoin i t hpc hfinished => exact h.stopJoin hpc hfinished
  | callFork i hpc =>
    exact h.goto _ _ hpc ⟨⟨nofun, nofun⟩, rfl, rfl⟩ Iff.rfl fun _ => trivial
  | forkLock i hpc hfree => exact h.lock hpc hfree ⟨⟨nofun, nofun⟩, rfl, rfl⟩ trivial trivial
  | forkSkip i hpc hstate =>
    exact h.goto _ _ hpc ⟨⟨nofun, nofun⟩, rfl, rfl⟩ Iff.rfl fun _ => hstate
  | forkDie i hpc hstate hthread => exact absurd hthread (h.status.mp hstate)
  | forkTest i hpc hstate hthread =>
    exact h.goto _ _ hpc ⟨⟨nofun, nofun⟩, rfl, rfl⟩ Iff.rfl fun _ => hstate
  | forkRun i hpc =>
    exact h.goto _ _ hpc ⟨⟨nofun, nofun⟩, rfl, rfl⟩ Iff.rfl fun hexp => hexp
  | forkPost i hpc =>
    exact h.goto _ _ hpc ⟨⟨nofun, nofun⟩, rfl, rfl⟩ Iff.rfl fun hexp => hexp
  | forkJoin i t hpc hthread hfinished => exact h.forkJoin hpc hthread hfinished
  | forkReset i hpc => exact h.forkReset hpc
  | unlock i hpc => exact h.unlock hpc ⟨⟨nofun, nofun⟩, rfl, rfl⟩ trivial not_false trivial
  | wait k hpc hpos => exact h.work _ hpc ⟨nofun, nofun⟩
  | load k hpc => exact h.work _ hpc ⟨nofun, nofun⟩
  | compress k hpc => exact h.work _ hpc ⟨nofun, nofun⟩

theorem inv_of_reachable {compress : ℤ} (h : Reachable compress w) : Inv w := by
  induction h with
  | refl => exact inv_initial
  | tail _ hstep ih => exact ih.step hstep

omit [DecidableEq Thread] in
theorem Inv.running (h : Inv w) {k : ℕ} (hk : w.Running k) : k < w.started ∧ w.joins k = 0 := by
  constructor
  · by_contra hge
    exact hk.1 (h.unborn k (not_lt.mp hge)).1
  · exact (h.joined k).resolve_right fun hjoined => hk.2 hjoined.2

theorem Inv.stopped_step {compress : ℤ} (h : Inv w) (hstate : w.state = .stopped)
    {w' : World Thread} (hstep : Step compress w w') :
    w'.state = .stopped ∧ w'.started = w.started := by
  have hexp := h.expects
  simp only [hstate] at hexp
  cases hstep with
  | notifyStart i hpc hthread =>
    have := hexp i
    rw [hpc] at this
    exact nomatch (show State.stopped = .notStarted from this)
  | notifyStore i t hpc =>
    have := hexp i
    rw [hpc] at this
    exact nomatch (show State.stopped = .notStarted from this)
  | forkReset i hpc =>
    have := hexp i
    rw [hpc] at this
    exact nomatch (show State.stopped = .started from this)
  | _ => exact ⟨by first | exact hstate | rfl, rfl⟩

theorem Inv.stopped_run {compress : ℤ} (h : Inv w) (hstate : w.state = .stopped)
    {w' : World Thread} (hrun : ReflTransGen (Step compress) w w') :
    Inv w' ∧ w'.state = .stopped ∧ w'.started = w.started := by
  induction hrun with
  | refl => exact ⟨h, hstate, rfl⟩
  | tail _ hstep ih =>
    obtain ⟨hinv, hstopped, hstarted⟩ := ih
    obtain ⟨hstopped', hstarted'⟩ := hinv.stopped_step hstopped hstep
    exact ⟨hinv.step hstep, hstopped', hstarted'.trans hstarted⟩

omit [DecidableEq Thread] in
theorem Inv.running_of_forked (h : Inv w) {i : Thread} (hpc : w.pc i = .forked) {k : ℕ}
    (hk : w.Running k) : w.state = .stopped ∧ ∃ j, (w.pc j).takes = some k := by
  have hexp := h.expects i
  rw [hpc] at hexp
  obtain ⟨hlt, h0⟩ := h.running hk
  rcases h.custody k hlt h0 with ht | ⟨j, hj⟩ | ⟨j, hj⟩
  · exact absurd (h.status.mpr (by rw [ht]; exact nofun)) hexp
  · obtain rfl := h.eq_of_holds (i := i) (by rw [hpc]; trivial) (h.stores_spec hj).1
    rw [hpc] at hj
    exact nomatch hj
  · exact ⟨(h.takes j k hj).1, j, hj⟩

/-- What every state promises. -/
structure Safe (compress : ℤ) (w : World Thread) : Prop where
  /-- `state_` is `Started` exactly when `thread_` is not null, while `mutex_` is free. -/
  state_iff : w.mutex = none → (w.state = .started ↔ w.thread ≠ none)
  /-- At most one worker has been started and has not returned. -/
  one_running : ∀ j k, w.Running j → w.Running k → j = k
  /-- A worker is joined at most once. -/
  joins_le : ∀ k, w.joins k ≤ 1
  /-- No `CHECK` has failed. -/
  no_check : ∀ i, w.pc i ≠ .dead
  /-- After `Stop` has moved `state_` to `Stopped`, no worker is started. -/
  stopped : w.state = .stopped → ∀ w', ReflTransGen (Step compress) w w' →
    w'.state = .stopped ∧ w'.started = w.started
  /-- From the return of `LockAndStop` until `Unlock` no worker runs, except one that a `Stop` has
  taken out of `thread_` and not yet joined. -/
  forked : ∀ i, w.pc i = .forked → ∀ k, w.Running k →
    w.state = .stopped ∧ ∃ j, (w.pc j).takes = some k

/-- Every interleaving of any number of callers and of their workers is safe. -/
theorem compressThread_safe (compress : ℤ) {w : World Thread} (h : Reachable compress w) :
    Safe compress w := by
  have hinv := inv_of_reachable h
  refine
    { state_iff := fun _ => hinv.status
      one_running := fun j k hj hk => ?_
      joins_le := fun k => ?_
      no_check := fun i hi => ?_
      stopped := fun hstate w' hrun => (hinv.stopped_run hstate hrun).2
      forked := fun i hi k hk => hinv.running_of_forked hi hk }
  · -- Both are the last worker.
    obtain ⟨hj1, hj2⟩ := hinv.running hj
    obtain ⟨hk1, hk2⟩ := hinv.running hk
    have h1 := hinv.last j hj1 hj2
    have h2 := hinv.last k hk1 hk2
    omega
  · rcases hinv.joined k with h0 | ⟨h1, -⟩ <;> omega
  · have hexp := hinv.expects i
    rw [hi] at hexp
    exact hexp

end Invariant

/-- A caller starts a worker, and `LockAndStop` stops it and returns. -/
theorem compressThread_safe_fork :
    ∃ w : World ℕ, Reachable 1 w ∧ w.pc 1 = .forked ∧ w.joins 0 = 1 ∧ Safe 1 w := by
  have hstart := ReflTransGen.refl (r := Step 1) (a := World.initial ℕ)
    |>.tail (.callNotify 0 rfl) |>.tail (.notifyLock 0 rfl rfl) |>.tail (.notifyTest 0 rfl)
    |>.tail (.notifyRun 0 rfl) |>.tail (.notifyStart 0 rfl rfl) |>.tail (.notifyStore 0 (some 0) rfl)
    |>.tail (.notifyPost 0 rfl) |>.tail (.notifyUnlock 0 true rfl)
  have hrun := hstart
    |>.tail (.callFork 1 rfl) |>.tail (.forkLock 1 rfl rfl) |>.tail (.forkTest 1 rfl rfl nofun)
    |>.tail (.forkRun 1 rfl) |>.tail (.forkPost 1 rfl) |>.tail (.wait 0 rfl (by decide))
    |>.tail (.load 0 rfl) |>.tail (.forkJoin 1 0 rfl rfl rfl) |>.tail (.forkReset 1 rfl)
  exact ⟨_, hrun, rfl, rfl, compressThread_safe 1 hrun⟩

/-- `LockAndStop` can return while a worker compresses: a `Stop` has taken it out of `thread_`, and
has not yet cleared `run_`. -/
theorem not_quiet_after_lockAndStop :
    ¬ ∀ w : World ℕ, Reachable 1 w → ∀ i, w.pc i = .forked → ∀ k, ¬ w.Running k := by
  have hstart := ReflTransGen.refl (r := Step 1) (a := World.initial ℕ)
    |>.tail (.callNotify 0 rfl) |>.tail (.notifyLock 0 rfl rfl) |>.tail (.notifyTest 0 rfl)
    |>.tail (.notifyRun 0 rfl) |>.tail (.notifyStart 0 rfl rfl) |>.tail (.notifyStore 0 (some 0) rfl)
    |>.tail (.notifyPost 0 rfl) |>.tail (.notifyUnlock 0 true rfl)
  have hrun := hstart
    |>.tail (.wait 0 rfl (by decide)) |>.tail (.load 0 rfl)
    |>.tail (.callStop 0 rfl) |>.tail (.stopLock 0 rfl rfl) |>.tail (.stopTake 0 0 rfl rfl rfl)
    |>.tail (.stopUnlock 0 0 rfl)
    |>.tail (.callFork 1 rfl) |>.tail (.forkLock 1 rfl rfl) |>.tail (.forkSkip 1 rfl nofun)
  exact fun hquiet => hquiet _ hrun 1 rfl 0 ⟨nofun, nofun⟩

end Tasan.CompressThread
