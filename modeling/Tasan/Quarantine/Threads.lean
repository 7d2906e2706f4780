import Tasan.Quarantine.Model

/-!
# Threads on one quarantine

Any number of threads call `Put`, `Drain` and `DrainAndRecycle` of `sanitizer_quarantine.h`, each with
a cache of its own. A critical section is one step, and so is each lock of `recycle_mutex_` and each
call of `cb.Recycle`. The logs record the events: what has been put and recycled, and for each place
what has entered it and left it. They are not read by any step.

Every step moves a list of pointers from one place to another, or to the callback, and the places are
queues: `State.Moves`. The two invariants about pointers follow from that alone, the flow of pointers
between the places and the order in which they leave.
-/

namespace Tasan.Quarantine

variable {T α : Type}

/-- The sizes that `Init` stores, and the size that each pointer is put with. -/
structure Config (α : Type) where
  maxSize : ℕ
  maxCacheSize : ℕ
  /-- The argument `size` of `Put`. -/
  bytes : α → ℕ

/-- `min_size_`. -/
def Config.minSize (cfg : Config α) : ℕ := cfg.maxSize / 10 * 9

/-- The next step of a thread. -/
inductive Pc
  /-- None: the thread is outside of the quarantine. -/
  | idle
  /-- `cache_.Transfer(c)` of `Drain`. -/
  | drain
  /-- `cache_.Size() > GetMaxSize()`. -/
  | checkSize
  | tryLock
  /-- `cache_.Transfer(c)` of `DrainAndRecycle`. -/
  | drainAll
  | lock
  /-- The critical section of `Recycle`. -/
  | recycle (minSize : ℕ)
  | unlock
  | doRecycle
  deriving DecidableEq

/-- Where a pointer can be. -/
inductive Place (T : Type)
  /-- The cache of a thread. -/
  | cache (t : T)
  /-- `cache_`. -/
  | global
  /-- `tmp` of a thread that recycles, and the batch that it has taken from there. -/
  | tmp (t : T)
  deriving DecidableEq, Fintype

/-- The events so far. -/
structure Log (T α : Type) where
  /-- The pointers that have been put. -/
  puts : List α
  /-- The pointers that have been passed to `Recycle` or `RecyclePassThrough`. -/
  recycled : List α
  /-- The pointers that have entered a place. -/
  entered : Place T → List α
  /-- The pointers that have left a place. -/
  left : Place T → List α

/-- The state of the quarantine and of its threads. -/
structure State (T α : Type) where
  /-- The caches of the threads. -/
  caches : T → Cache α
  /-- `cache_`. -/
  global : Cache α
  /-- The thread that holds `recycle_mutex_`. -/
  owner : Option T
  /-- The next step of each thread. -/
  pc : T → Pc
  /-- `tmp` of `Recycle`. -/
  tmp : T → Cache α
  /-- What is left of the batch that `DoRecycle` has dequeued. -/
  current : T → List α
  /-- The events. -/
  log : Log T α

/-- The pointers in a place, in the order in which they leave it. -/
def State.contents (s : State T α) : Place T → List α
  | .cache t => (s.caches t).ptrs
  | .global => s.global.ptrs
  | .tmp t => s.current t ++ (s.tmp t).ptrs

/-- Empty caches, and no thread inside. -/
def State.init : State T α where
  caches _ := Cache.new
  global := Cache.new
  owner := none
  pc _ := .idle
  tmp _ := Cache.new
  current _ := []
  log := ⟨[], [], fun _ => [], fun _ => []⟩

variable [DecidableEq T]

/-- Pointers move from `src` to `dst`; `none` is the caller of `Put` or the callback. -/
def Log.move (log : Log T α) (src dst : Option (Place T)) (xs : List α) : Log T α where
  puts := log.puts ++ if src = none then xs else []
  recycled := log.recycled ++ if dst = none then xs else []
  entered p := log.entered p ++ if dst = some p then xs else []
  left p := log.left p ++ if src = some p then xs else []

/-- The next step of a thread is stored. -/
def State.setPc (s : State T α) (t : T) (pc : Pc) : State T α :=
  { s with pc := Function.update s.pc t pc }

/-- A call of one of the three functions. -/
inductive Call (α : Type)
  /-- `Put(c, cb, ptr, size)`. -/
  | put (ptr : α)
  /-- `Drain(c, cb)`. -/
  | drain
  /-- `DrainAndRecycle(c, cb)`. -/
  | drainAndRecycle

/-- The part of `Put` before `Drain`, on the thread's own cache. -/
def State.put (cfg : Config α) (s : State T α) (t : T) (ptr : α) : Option (State T α) :=
  if cfg.maxCacheSize ≠ 0 ∧ cfg.bytes ptr ≤ cfg.maxSize then
    ((s.caches t).enqueue ptr (cfg.bytes ptr)).map fun c =>
      { s with
        caches := Function.update s.caches t c
        log := s.log.move none (some (.cache t)) [ptr] }
  else some { s with log := s.log.move none none [ptr] }

/-- The state after the test `c->Size() > max_cache_size` of `Put`. -/
def State.afterPut (cfg : Config α) (s : State T α) (t : T) : State T α :=
  s.setPc t (if cfg.maxCacheSize < (s.caches t).size then .drain else .idle)

/-- A thread that is idle makes a call. -/
def State.call (cfg : Config α) (s : State T α) (t : T) (call : Call α) : Option (State T α) :=
  if s.pc t = .idle then
    match call with
    | .put ptr => (s.put cfg t ptr).map fun s => s.afterPut cfg t
    | .drain => some (s.setPc t .drain)
    | .drainAndRecycle => some (s.setPc t .drainAll)
  else none

/-- `cache_.Transfer(c)`, under `cache_mutex_`. -/
def State.transfer (s : State T α) (t : T) : State T α :=
  { s with
    caches := Function.update s.caches t (s.global.transfer (s.caches t)).2
    global := (s.global.transfer (s.caches t)).1
    log := s.log.move (some (.cache t)) (some .global) (s.caches t).ptrs }

/-- The thread takes or gives back `recycle_mutex_`. -/
def State.setOwner (s : State T α) (owner : Option T) : State T α := { s with owner := owner }

/-- The critical section of `Recycle`. -/
def State.recycle (s : State T α) (t : T) (minSize : ℕ) : Option (State T α) :=
  (s.global.recycle minSize).map fun p =>
    { s with
      global := p.1
      tmp := Function.update s.tmp t p.2
      log := s.log.move (some .global) (some (.tmp t)) p.2.ptrs }

/-- `cb.Recycle(b->batch[i])`. -/
def State.recycleOne (s : State T α) (t : T) (ptr : α) (rest : List α) : State T α :=
  { s with
    current := Function.update s.current t rest
    log := s.log.move (some (.tmp t)) none [ptr] }

/-- A step of `DoRecycle`: a pointer of the batch is recycled, or the next batch is dequeued. -/
def State.doRecycle (s : State T α) (t : T) : State T α :=
  match s.current t with
  | ptr :: rest => s.recycleOne t ptr rest
  | [] =>
    match (s.tmp t).dequeueBatch with
    | some (b, tmp) =>
      { s with
        tmp := Function.update s.tmp t tmp
        current := Function.update s.current t b.batch }
    | none => s.setPc t .idle

/-- The next step of a thread; `none` if it waits for a lock or a `CHECK` fails. -/
def State.run (cfg : Config α) (s : State T α) (t : T) : Option (State T α) :=
  match s.pc t with
  | .idle => none
  | .drain => some ((s.transfer t).setPc t .checkSize)
  | .checkSize => some (s.setPc t (if cfg.maxSize < s.global.size then .tryLock else .idle))
  | .tryLock =>
    some (if s.owner = none then (s.setOwner (some t)).setPc t (.recycle cfg.minSize)
      else s.setPc t .idle)
  | .drainAll => some ((s.transfer t).setPc t .lock)
  | .lock => if s.owner = none then some ((s.setOwner (some t)).setPc t (.recycle 0)) else none
  | .recycle minSize => (s.recycle t minSize).map fun s => s.setPc t .unlock
  | .unlock => some ((s.setOwner none).setPc t .doRecycle)
  | .doRecycle => some (s.doRecycle t)

/-- A step of some thread. -/
def State.Step (cfg : Config α) (s s' : State T α) : Prop :=
  ∃ t, (∃ call, s.call cfg t call = some s') ∨ s.run cfg t = some s'

/-- The states that the threads can reach, in any order of their steps. -/
def Reachable (cfg : Config α) (s : State T α) : Prop :=
  Relation.ReflTransGen (State.Step cfg) State.init s

/-! ## What a step moves -/

/-- The pointers `xs` move from the front of `src` to the back of `dst`, and nothing else moves. -/
def State.Moves (s s' : State T α) (src dst : Option (Place T)) (xs : List α) : Prop :=
  s'.log = s.log.move src dst xs ∧
  ∀ p, s.contents p ++ (if dst = some p then xs else []) =
    (if src = some p then xs else []) ++ s'.contents p

/-- A step that moves nothing. -/
def State.Still (s s' : State T α) : Prop := s'.log = s.log ∧ s'.contents = s.contents

/-- A step moves pointers, or nothing. -/
def State.MovesOrStill (s s' : State T α) : Prop :=
  s.Still s' ∨ ∃ src dst xs, s.Moves s' src dst xs

theorem State.contents_setPc (s : State T α) (t : T) (pc : Pc) :
    (s.setPc t pc).contents = s.contents := by
  funext p
  cases p <;> rfl

theorem State.put_moves {cfg : Config α} {s s' : State T α} {t : T} {ptr : α}
    (h : s.put cfg t ptr = some s') : ∃ dst, s.Moves s' none dst [ptr] := by
  unfold State.put at h
  split_ifs at h
  · obtain ⟨c, hc, rfl⟩ := Option.map_eq_some_iff.mp h
    refine ⟨some (.cache t), rfl, fun p => ?_⟩
    cases p with
    | cache u =>
      by_cases hut : u = t
      · subst hut
        simp [State.contents, Cache.enqueue_ptrs hc]
      · have hne : t ≠ u := fun h => hut h.symm
        simp [State.contents, Function.update_of_ne hut, hne]
    | global => simp [State.contents]
    | tmp u => simp [State.contents]
  · obtain rfl := Option.some.inj h
    refine ⟨none, rfl, fun p => ?_⟩
    cases p <;> simp [State.contents]

theorem State.transfer_moves (s : State T α) (t : T) :
    s.Moves (s.transfer t) (some (.cache t)) (some .global) (s.caches t).ptrs := by
  obtain ⟨hglobal, hcache⟩ := Cache.transfer_ptrs s.global (s.caches t)
  refine ⟨rfl, fun p => ?_⟩
  cases p with
  | cache u =>
    by_cases hut : u = t
    · subst hut
      simp [State.contents, State.transfer, hcache]
    · have hne : t ≠ u := fun h => hut h.symm
      simp [State.contents, State.transfer, Function.update_of_ne hut, hne]
  | global => simp [State.contents, State.transfer, hglobal]
  | tmp u => simp [State.contents, State.transfer]

theorem State.recycle_moves {s s' : State T α} {t : T} {minSize : ℕ}
    (hempty : s.contents (.tmp t) = []) (h : s.recycle t minSize = some s') :
    ∃ xs, s.Moves s' (some .global) (some (.tmp t)) xs := by
  obtain ⟨p, hp, rfl⟩ := Option.map_eq_some_iff.mp h
  refine ⟨p.2.ptrs, rfl, fun place => ?_⟩
  cases place with
  | cache u => simp [State.contents]
  | global => simp [State.contents, Cache.recycle_ptrs hp]
  | tmp u =>
    by_cases hut : u = t
    · subst hut
      obtain ⟨hcur, htmp⟩ := List.append_eq_nil_iff.mp hempty
      simp [State.contents, hcur, htmp]
    · have hne : t ≠ u := fun h => hut h.symm
      simp [State.contents, Function.update_of_ne hut, hne]

/-- A step of `DoRecycle` recycles the first pointer of `tmp`, or moves nothing. -/
theorem State.doRecycle_moves (s : State T α) (t : T) : s.MovesOrStill (s.doRecycle t) := by
  unfold State.doRecycle
  split
  · next ptr rest hcur =>
    refine Or.inr ⟨some (.tmp t), none, [ptr], rfl, fun p => ?_⟩
    cases p with
    | cache u => simp [State.contents, State.recycleOne]
    | global => simp [State.contents, State.recycleOne]
    | tmp u =>
      by_cases hut : u = t
      · subst hut
        simp [State.contents, State.recycleOne, hcur]
      · have hne : t ≠ u := fun h => hut h.symm
        simp [State.contents, State.recycleOne, Function.update_of_ne hut, hne]
  · next hcur =>
    refine Or.inl ?_
    split
    · next b tmp hb =>
      refine ⟨rfl, funext fun p => ?_⟩
      cases p with
      | cache u => rfl
      | global => rfl
      | tmp u =>
        by_cases hut : u = t
        · subst hut
          unfold Cache.dequeueBatch at hb
          split at hb
          · exact absurd hb (by simp)
          · next b' l hl =>
            obtain ⟨rfl, rfl⟩ := Prod.mk.inj (Option.some.inj hb)
            simp [State.contents, hcur, Cache.ptrs, hl]
        · simp [State.contents, Function.update_of_ne hut]
    · exact ⟨rfl, s.contents_setPc t .idle⟩

/-! ## The invariant -/

/-- A place is a queue: what has entered it has left it, in this order, or is in it. -/
def State.Fifo (s : State T α) : Prop :=
  ∀ p, s.log.entered p = s.log.left p ++ s.contents p

theorem State.Fifo.movesOrStill {s s' : State T α} (hs : s.Fifo) (h : s.MovesOrStill s') :
    s'.Fifo := by
  intro p
  rcases h with ⟨hlog, hcontents⟩ | ⟨src, dst, xs, hlog, hcontents⟩
  · rw [hlog, hcontents]
    exact hs p
  · rw [hlog]
    simp only [Log.move]
    rw [hs p, List.append_assoc, hcontents p, List.append_assoc]

section Flow

variable [Fintype T] [DecidableEq α]

/-- Every pointer that comes out of `Put` or of a place goes into a place or to the callback. -/
def Log.Balanced (log : Log T α) : Prop :=
  ∀ x, log.puts.count x + ∑ p, (log.left p).count x =
    log.recycled.count x + ∑ p, (log.entered p).count x

theorem sum_count_append (l : Place T → List α) (o : Option (Place T)) (xs : List α) (x : α) :
    ∑ p, (l p ++ if o = some p then xs else []).count x =
      ∑ p, (l p).count x + if o = none then 0 else xs.count x := by
  simp only [List.count_append, Finset.sum_add_distrib]
  congr 1
  cases o with
  | none => simp
  | some q =>
    simp only [Option.some_inj, reduceCtorEq, if_false]
    rw [Finset.sum_eq_single q]
    · simp
    · intro p _ hp
      simp [hp.symm]
    · intro h
      exact absurd (Finset.mem_univ q) h

theorem Log.Balanced.move {log : Log T α} (h : log.Balanced) (src dst : Option (Place T))
    (xs : List α) : (log.move src dst xs).Balanced := by
  intro x
  have hx := h x
  simp only [Log.move]
  rw [sum_count_append, sum_count_append, List.count_append, List.count_append]
  cases src <;> cases dst <;> simp <;> omega

theorem Log.Balanced.movesOrStill {s s' : State T α} (hs : s.log.Balanced)
    (h : s.MovesOrStill s') : s'.log.Balanced := by
  rcases h with ⟨hlog, -⟩ | ⟨src, dst, xs, hlog, -⟩
  · rw [hlog]
    exact hs
  · rw [hlog]
    exact hs.move src dst xs

end Flow

/-- The thread has pointers to recycle, or an empty `tmp`. -/
def Pc.HasTmp (pc : Pc) : Prop := pc = .unlock ∨ pc = .doRecycle

/-- The thread holds `recycle_mutex_`. -/
def Pc.Locked (pc : Pc) : Prop := pc = .unlock ∨ ∃ minSize, pc = .recycle minSize

/-- The caches' sizes are right, and the threads' next steps go with their `tmp` and the lock. -/
structure State.Ok (cfg : Config α) (s : State T α) : Prop where
  /-- The caches of the threads. -/
  caches : ∀ t, (s.caches t).Ok cfg.bytes
  /-- The global cache. -/
  global : s.global.Ok cfg.bytes
  /-- A thread that has not extracted anything. -/
  tmp : ∀ t, ¬(s.pc t).HasTmp → s.contents (.tmp t) = []
  /-- The owner of the lock. -/
  owner : ∀ t, s.owner = some t → (s.pc t).Locked

theorem State.Ok.update {cfg : Config α} {s s' : State T α} (hs : s.Ok cfg) {t : T}
    (hcaches : ∀ u, (s'.caches u).Ok cfg.bytes) (hglobal : s'.global.Ok cfg.bytes)
    (hpc : ∀ u, u ≠ t → s'.pc u = s.pc u)
    (htmp : ∀ u, u ≠ t → s'.contents (.tmp u) = s.contents (.tmp u))
    (hself : ¬(s'.pc t).HasTmp → s'.contents (.tmp t) = [])
    (howner : ∀ u, s'.owner = some u → u = t ∧ (s'.pc t).Locked ∨ u ≠ t ∧ s.owner = some u) :
    s'.Ok cfg := by
  refine ⟨hcaches, hglobal, fun u hu => ?_, fun u hu => ?_⟩
  · by_cases hut : u = t
    · rw [hut] at hu ⊢
      exact hself hu
    · rw [htmp u hut]
      rw [hpc u hut] at hu
      exact hs.tmp u hu
  · rcases howner u hu with ⟨rfl, h⟩ | ⟨hut, h⟩
    · exact h
    · rw [hpc u hut]
      exact hs.owner u h

theorem State.MovesOrStill.congr {s s' s'' : State T α} (h : s.MovesOrStill s')
    (hlog : s''.log = s'.log) (hcontents : s''.contents = s'.contents) : s.MovesOrStill s'' := by
  rcases h with ⟨hl, hc⟩ | ⟨src, dst, xs, hl, hc⟩
  · exact Or.inl ⟨hlog.trans hl, hcontents.trans hc⟩
  · refine Or.inr ⟨src, dst, xs, hlog.trans hl, ?_⟩
    rw [hcontents]
    exact hc

omit [DecidableEq T] in
theorem State.Ok.ne_owner {cfg : Config α} {s : State T α} (hs : s.Ok cfg) {t : T}
    (ht : ¬(s.pc t).Locked) (u : T) (hu : s.owner = some u) : u ≠ t := by
  rintro rfl
  exact ht (hs.owner u hu)

theorem State.Ok.setPc {cfg : Config α} {s : State T α} (hs : s.Ok cfg) {t : T}
    (htmp : ¬(s.pc t).HasTmp) (hlock : ¬(s.pc t).Locked) (pc : Pc) : (s.setPc t pc).Ok cfg :=
  hs.update (t := t) hs.caches hs.global (fun _ hu => Function.update_of_ne hu _ _)
    (fun _ _ => rfl) (fun _ => hs.tmp t htmp) (fun u hu => Or.inr ⟨hs.ne_owner hlock u hu, hu⟩)

theorem State.Ok.put {cfg : Config α} {s s' : State T α} (hs : s.Ok cfg) {t : T} {ptr : α}
    (h : s.put cfg t ptr = some s') : s'.Ok cfg ∧ s'.pc = s.pc := by
  unfold State.put at h
  split_ifs at h
  · obtain ⟨c, hc, rfl⟩ := Option.map_eq_some_iff.mp h
    obtain ⟨c', hc', hok⟩ := Cache.enqueue_ok (hs.caches t) ptr
    obtain rfl := Option.some.inj (hc.symm.trans hc')
    refine ⟨⟨fun u => ?_, hs.global, hs.tmp, hs.owner⟩, rfl⟩
    by_cases hut : u = t
    · subst hut
      simpa using hok
    · simpa [Function.update_of_ne hut] using hs.caches u
  · obtain rfl := Option.some.inj h
    exact ⟨⟨hs.caches, hs.global, hs.tmp, hs.owner⟩, rfl⟩

theorem State.Ok.transfer {cfg : Config α} {s : State T α} (hs : s.Ok cfg) (t : T) :
    (s.transfer t).Ok cfg := by
  obtain ⟨hglobal, hcache⟩ := Cache.transfer_ok hs.global (hs.caches t)
  refine ⟨fun u => ?_, hglobal, hs.tmp, hs.owner⟩
  by_cases hut : u = t
  · subst hut
    simpa [State.transfer] using hcache
  · simpa [State.transfer, Function.update_of_ne hut] using hs.caches u

theorem State.Ok.acquire {cfg : Config α} {s : State T α} (hs : s.Ok cfg) {t : T}
    (htmp : ¬(s.pc t).HasTmp) (minSize : ℕ) :
    ((s.setOwner (some t)).setPc t (.recycle minSize)).Ok cfg := by
  refine hs.update (t := t) hs.caches hs.global (fun u hu => Function.update_of_ne hu _ _)
    (fun _ _ => rfl) (fun _ => hs.tmp t htmp) (fun _ hu => Or.inl ⟨?_, Or.inr ⟨minSize, ?_⟩⟩)
  · exact (Option.some.inj hu).symm
  · simp [State.setPc]

theorem State.Ok.recycle {cfg : Config α} {s s' : State T α} (hs : s.Ok cfg) {t : T} {minSize : ℕ}
    (h : s.recycle t minSize = some s') : (s'.setPc t .unlock).Ok cfg := by
  obtain ⟨p, hp, rfl⟩ := Option.map_eq_some_iff.mp h
  refine hs.update (t := t) hs.caches (Cache.recycle_ok hs.global hp)
    (fun u hu => Function.update_of_ne hu _ _) (fun u hu => ?_) (fun hne => ?_) (fun u hu => ?_)
  · simp [State.contents, State.setPc, Function.update_of_ne hu]
  · exact absurd (Or.inl (by simp [State.setPc])) hne
  · by_cases hut : u = t
    · exact Or.inl ⟨hut, Or.inl (by simp [State.setPc])⟩
    · exact Or.inr ⟨hut, hu⟩

/-- A step of `DoRecycle` keeps the invariant. -/
theorem State.Ok.doRecycle {cfg : Config α} {s : State T α} (hs : s.Ok cfg) {t : T}
    (hpc : s.pc t = .doRecycle) : (s.doRecycle t).Ok cfg := by
  have hlock : ¬(s.pc t).Locked := by simp [hpc, Pc.Locked]
  have howner : ∀ u, s.owner = some u → u = t ∧ (s.pc t).Locked ∨ u ≠ t ∧ s.owner = some u :=
    fun u hu => Or.inr ⟨hs.ne_owner hlock u hu, hu⟩
  unfold State.doRecycle
  split
  · refine hs.update (t := t) hs.caches hs.global (fun _ _ => rfl) (fun u hu => ?_)
      (fun hne => absurd (Or.inr hpc) hne) howner
    simp [State.contents, State.recycleOne, Function.update_of_ne hu]
  · next hcur =>
    split
    · refine hs.update (t := t) hs.caches hs.global (fun _ _ => rfl) (fun u hu => ?_)
        (fun hne => absurd (Or.inr hpc) hne) howner
      simp [State.contents, Function.update_of_ne hu]
    · next hnone =>
      refine hs.update (t := t) hs.caches hs.global (fun u hu => Function.update_of_ne hu _ _)
        (fun _ _ => rfl) (fun _ => ?_) (fun u hu => Or.inr ⟨hs.ne_owner hlock u hu, hu⟩)
      have hlist : (s.tmp t).list = [] := by
        unfold Cache.dequeueBatch at hnone
        split at hnone
        · assumption
        · exact absurd hnone (by simp)
      simp [State.contents, State.setPc, hcur, Cache.ptrs, hlist]

theorem State.call_ok {cfg : Config α} {s s' : State T α} (hs : s.Ok cfg) {t : T} {call : Call α}
    (h : s.call cfg t call = some s') : s.MovesOrStill s' ∧ s'.Ok cfg := by
  unfold State.call at h
  split_ifs at h with hidle
  have htmp : ¬(s.pc t).HasTmp := by simp [hidle, Pc.HasTmp]
  have hlock : ¬(s.pc t).Locked := by simp [hidle, Pc.Locked]
  cases call with
  | put ptr =>
    obtain ⟨s₁, hput, rfl⟩ := Option.map_eq_some_iff.mp h
    obtain ⟨dst, hmoves⟩ := State.put_moves hput
    obtain ⟨hok, hpc⟩ := hs.put hput
    rw [← hpc] at htmp hlock
    exact ⟨State.MovesOrStill.congr (Or.inr ⟨none, dst, _, hmoves⟩) rfl (s₁.contents_setPc t _),
      hok.setPc htmp hlock _⟩
  | drain =>
    obtain rfl := Option.some.inj h
    exact ⟨Or.inl ⟨rfl, s.contents_setPc t _⟩, hs.setPc htmp hlock _⟩
  | drainAndRecycle =>
    obtain rfl := Option.some.inj h
    exact ⟨Or.inl ⟨rfl, s.contents_setPc t _⟩, hs.setPc htmp hlock _⟩

/-- A step of a thread moves pointers or nothing, and keeps the invariant. -/
theorem State.run_ok {cfg : Config α} {s s' : State T α} (hs : s.Ok cfg) {t : T}
    (h : s.run cfg t = some s') : s.MovesOrStill s' ∧ s'.Ok cfg := by
  have htransfer : ∀ pc, s.MovesOrStill ((s.transfer t).setPc t pc) := fun pc =>
    State.MovesOrStill.congr (Or.inr ⟨_, _, _, s.transfer_moves t⟩) rfl
      ((s.transfer t).contents_setPc t pc)
  unfold State.run at h
  cases hpc : s.pc t with
  | idle =>
    rw [hpc] at h
    exact absurd h (by simp)
  | drain =>
    rw [hpc] at h
    obtain rfl := Option.some.inj h
    refine ⟨htransfer _, (hs.transfer t).setPc ?_ ?_ _⟩
    · simp [State.transfer, hpc, Pc.HasTmp]
    · simp [State.transfer, hpc, Pc.Locked]
  | checkSize =>
    rw [hpc] at h
    obtain rfl := Option.some.inj h
    exact ⟨Or.inl ⟨rfl, s.contents_setPc t _⟩,
      hs.setPc (by simp [hpc, Pc.HasTmp]) (by simp [hpc, Pc.Locked]) _⟩
  | tryLock =>
    rw [hpc] at h
    obtain rfl := Option.some.inj h
    split_ifs
    · exact ⟨Or.inl ⟨rfl, (s.setOwner (some t)).contents_setPc t _⟩,
        hs.acquire (by simp [hpc, Pc.HasTmp]) _⟩
    · exact ⟨Or.inl ⟨rfl, s.contents_setPc t _⟩,
        hs.setPc (by simp [hpc, Pc.HasTmp]) (by simp [hpc, Pc.Locked]) _⟩
  | drainAll =>
    rw [hpc] at h
    obtain rfl := Option.some.inj h
    refine ⟨htransfer _, (hs.transfer t).setPc ?_ ?_ _⟩
    · simp [State.transfer, hpc, Pc.HasTmp]
    · simp [State.transfer, hpc, Pc.Locked]
  | lock =>
    rw [hpc] at h
    dsimp only at h
    split_ifs at h
    obtain rfl := Option.some.inj h
    exact ⟨Or.inl ⟨rfl, (s.setOwner (some t)).contents_setPc t _⟩,
      hs.acquire (by simp [hpc, Pc.HasTmp]) _⟩
  | recycle minSize =>
    rw [hpc] at h
    obtain ⟨s₁, hrec, rfl⟩ := Option.map_eq_some_iff.mp h
    obtain ⟨xs, hmoves⟩ := State.recycle_moves (hs.tmp t (by simp [hpc, Pc.HasTmp])) hrec
    exact ⟨State.MovesOrStill.congr (Or.inr ⟨_, _, _, hmoves⟩) rfl (s₁.contents_setPc t _),
      hs.recycle hrec⟩
  | unlock =>
    rw [hpc] at h
    obtain rfl := Option.some.inj h
    refine ⟨Or.inl ⟨rfl, (s.setOwner none).contents_setPc t _⟩, ?_⟩
    refine hs.update (t := t) hs.caches hs.global (fun u hu => Function.update_of_ne hu _ _)
      (fun _ _ => rfl) (fun hne => ?_) (fun u hu => absurd hu (by simp [State.setPc, State.setOwner]))
    exact absurd (Or.inr (by simp [State.setPc])) hne
  | doRecycle =>
    rw [hpc] at h
    obtain rfl := Option.some.inj h
    exact ⟨s.doRecycle_moves t, hs.doRecycle hpc⟩

theorem State.Step.ok {cfg : Config α} {s s' : State T α} (hs : s.Ok cfg) (h : s.Step cfg s') :
    s.MovesOrStill s' ∧ s'.Ok cfg := by
  obtain ⟨t, ⟨call, hcall⟩ | hrun⟩ := h
  · exact State.call_ok hs hcall
  · exact State.run_ok hs hrun

omit [DecidableEq T] in
theorem State.init_ok (cfg : Config α) : (State.init : State T α).Ok cfg :=
  ⟨fun _ => Cache.new_ok, Cache.new_ok, fun _ _ => rfl, fun t h => absurd h (by simp [State.init])⟩

theorem Reachable.inv [Fintype T] [DecidableEq α] {cfg : Config α} {s : State T α}
    (h : Reachable cfg s) : s.Ok cfg ∧ s.Fifo ∧ s.log.Balanced := by
  induction h with
  | refl =>
    refine ⟨State.init_ok cfg, fun p => ?_, fun x => ?_⟩
    · cases p <;> rfl
    · simp [State.init]
  | tail _ hstep ih =>
    obtain ⟨hok, hfifo, hbal⟩ := ih
    obtain ⟨hmoves, hok'⟩ := State.Step.ok hok hstep
    exact ⟨hok', hfifo.movesOrStill hmoves, hbal.movesOrStill hmoves⟩

/-! ## A thread on its own -/

/-- `n` steps of one thread. -/
def State.runs (cfg : Config α) (t : T) : ℕ → State T α → Option (State T α)
  | 0, s => some s
  | n + 1, s => (s.run cfg t).bind (State.runs cfg t n)

theorem State.runs_add {cfg : Config α} {t : T} {m n : ℕ} {s s₁ s₂ : State T α}
    (h₁ : s.runs cfg t m = some s₁) (h₂ : s₁.runs cfg t n = some s₂) :
    s.runs cfg t (m + n) = some s₂ := by
  induction m generalizing s with
  | zero =>
    obtain rfl := Option.some.inj h₁
    rw [Nat.zero_add]
    exact h₂
  | succ m ih =>
    obtain ⟨s₀, hs₀, h₁⟩ := Option.bind_eq_some_iff.mp h₁
    rw [Nat.succ_add, State.runs, hs₀]
    exact ih h₁

theorem State.runs_one {cfg : Config α} {t : T} {s s' : State T α} (h : s.run cfg t = some s') :
    s.runs cfg t 1 = some s' := by
  simp [State.runs, h]

/-- A run of `DoRecycle` that keeps the caches and recycles `xs`. -/
structure State.Recycles (cfg : Config α) (t : T) (s s' : State T α) (xs : List α) : Prop where
  /-- It is a run. -/
  run : ∃ n, s.runs cfg t n = some s'
  /-- The caches of the threads. -/
  caches : s'.caches = s.caches
  /-- The global cache. -/
  global : s'.global = s.global
  /-- The pointers that have been recycled. -/
  recycled : s'.log.recycled = s.log.recycled ++ xs

theorem State.Recycles.trans {cfg : Config α} {t : T} {s s₁ s₂ : State T α} {xs ys : List α}
    (h₁ : s.Recycles cfg t s₁ xs) (h₂ : s₁.Recycles cfg t s₂ ys) :
    s.Recycles cfg t s₂ (xs ++ ys) := by
  obtain ⟨⟨m, hm⟩, hc₁, hg₁, hr₁⟩ := h₁
  obtain ⟨⟨n, hn⟩, hc₂, hg₂, hr₂⟩ := h₂
  exact ⟨⟨m + n, State.runs_add hm hn⟩, hc₂.trans hc₁, hg₂.trans hg₁,
    by rw [hr₂, hr₁, List.append_assoc]⟩

theorem State.recycles_current (cfg : Config α) {t : T} {s : State T α}
    (hpc : s.pc t = .doRecycle) : ∃ s', s.Recycles cfg t s' (s.current t) ∧
      s'.pc t = .doRecycle ∧ s'.current t = [] ∧ s'.tmp t = s.tmp t := by
  generalize hcur : s.current t = xs
  induction xs generalizing s with
  | nil => exact ⟨s, ⟨⟨0, rfl⟩, rfl, rfl, by simp⟩, hpc, hcur, rfl⟩
  | cons x xs ih =>
    have hstep : s.run cfg t = some (s.recycleOne t x xs) := by
      simp [State.run, hpc, State.doRecycle, hcur]
    have hone : s.Recycles cfg t (s.recycleOne t x xs) [x] :=
      ⟨⟨1, State.runs_one hstep⟩, rfl, rfl, by simp [State.recycleOne, Log.move]⟩
    obtain ⟨s', hs', hrest⟩ := ih (s := s.recycleOne t x xs) hpc (by simp [State.recycleOne])
    exact ⟨s', hone.trans hs', hrest⟩

/-- `DoRecycle` recycles everything in `tmp` and returns. -/
theorem State.recycles_tmp (cfg : Config α) {t : T} {s : State T α} (hpc : s.pc t = .doRecycle) :
    ∃ s', s.Recycles cfg t s' (s.contents (.tmp t)) ∧ s'.pc t = .idle ∧
      s'.contents (.tmp t) = [] := by
  generalize hl : (s.tmp t).list = l
  induction l generalizing s with
  | nil =>
    obtain ⟨s₁, h₁, hpc₁, hcur₁, htmp₁⟩ := State.recycles_current cfg hpc
    have hlist : (s₁.tmp t).list = [] := by rw [htmp₁, hl]
    have hstep : s₁.run cfg t = some (s₁.setPc t .idle) := by
      simp [State.run, hpc₁, State.doRecycle, hcur₁, Cache.dequeueBatch, hlist]
    refine ⟨s₁.setPc t .idle, ?_, by simp [State.setPc], ?_⟩
    · have hlast : s₁.Recycles cfg t (s₁.setPc t .idle) [] :=
        ⟨⟨1, State.runs_one hstep⟩, rfl, rfl, (List.append_nil _).symm⟩
      have hptrs : s.contents (.tmp t) = s.current t ++ [] := by
        simp [State.contents, Cache.ptrs, hl]
      rw [hptrs]
      exact h₁.trans hlast
    · simp [State.contents, State.setPc, hcur₁, Cache.ptrs, hlist]
  | cons b l ih =>
    obtain ⟨s₁, h₁, hpc₁, hcur₁, htmp₁⟩ := State.recycles_current cfg hpc
    have hlist : (s₁.tmp t).list = b :: l := by rw [htmp₁, hl]
    let s₂ : State T α :=
      { s₁ with
        tmp := Function.update s₁.tmp t ⟨l, Word.sub 64 (s₁.tmp t).size b.size⟩
        current := Function.update s₁.current t b.batch }
    have hstep : s₁.run cfg t = some s₂ := by
      simp [State.run, hpc₁, State.doRecycle, hcur₁, Cache.dequeueBatch, hlist, s₂]
    have hnext : s₁.Recycles cfg t s₂ [] :=
      ⟨⟨1, State.runs_one hstep⟩, rfl, rfl, (List.append_nil _).symm⟩
    obtain ⟨s', hs', hidle, hempty⟩ := ih (s := s₂) hpc₁ (by simp [s₂])
    refine ⟨s', ?_, hidle, hempty⟩
    have hptrs : s.contents (.tmp t) = s.current t ++ ([] ++ s₂.contents (.tmp t)) := by
      simp [State.contents, Cache.ptrs, hl, s₂]
    rw [hptrs]
    exact h₁.trans (hnext.trans hs')

/-- `DrainAndRecycle` on its own empties the thread's cache and the global one, and recycles their
pointers. -/
theorem State.drainAndRecycle_alone {cfg : Config α} {s : State T α} (hs : s.Ok cfg) {t : T}
    (hidle : s.pc t = .idle) (howner : s.owner = none)
    (hfits : memory cfg.bytes (s.global.list ++ (s.caches t).list) < 2^64) :
    ∃ s₀ n s', s.call cfg t .drainAndRecycle = some s₀ ∧ s₀.runs cfg t n = some s' ∧
      s'.pc t = .idle ∧ (s'.caches t).list = [] ∧ s'.global.list = [] ∧
      s'.contents (.tmp t) = [] ∧
      s'.log.recycled = s.log.recycled ++ (s.global.ptrs ++ (s.caches t).ptrs) := by
  have hglobal : (s.global.transfer (s.caches t)).1.Ok cfg.bytes :=
    (Cache.transfer_ok hs.global (hs.caches t)).1
  obtain ⟨p, hp, hzero⟩ := Cache.recycle_some hglobal hfits 0
  have hempty : s.contents (.tmp t) = [] := hs.tmp t (by simp [hidle, Pc.HasTmp])
  obtain ⟨hcur, htmp⟩ := List.append_eq_nil_iff.mp hempty
  -- the call, the transfer, the lock, the critical section and the unlock
  let s₀ := s.setPc t .drainAll
  let s₁ := (s₀.transfer t).setPc t .lock
  let s₂ := (s₁.setOwner (some t)).setPc t (.recycle 0)
  let s₃ : State T α :=
    State.setPc { s₂ with
      global := p.1
      tmp := Function.update s₂.tmp t p.2
      log := s₂.log.move (some .global) (some (.tmp t)) p.2.ptrs } t .unlock
  let s₄ := (s₃.setOwner none).setPc t .doRecycle
  have h₁ : s₀.run cfg t = some s₁ := by simp [State.run, s₀, State.setPc, s₁]
  have h₂ : s₁.run cfg t = some s₂ := by
    simp [State.run, s₁, s₀, State.setPc, State.transfer, howner, s₂, State.setOwner]
  have h₃ : s₂.run cfg t = some s₃ := by
    have hpc₂ : s₂.pc t = .recycle 0 := by simp [s₂, State.setPc]
    have hglobal₂ : s₂.global.recycle 0 = some p := hp
    simp only [State.run, hpc₂, State.recycle, hglobal₂, Option.map_some]
    rfl
  have h₄ : s₃.run cfg t = some s₄ := by simp [State.run, s₃, State.setPc, s₄]
  obtain ⟨s', hrun, hpc', htmp'⟩ := State.recycles_tmp cfg (s := s₄) (t := t)
    (by simp [s₄, State.setPc])
  obtain ⟨⟨n, hn⟩, hcaches, hglobal', hrecycled⟩ := hrun
  refine ⟨s₀, 1 + (1 + (1 + (1 + n))), s', by simp [State.call, hidle, s₀], ?_, hpc', ?_, ?_, htmp',
    ?_⟩
  · exact State.runs_add (State.runs_one h₁) (State.runs_add (State.runs_one h₂)
      (State.runs_add (State.runs_one h₃) (State.runs_add (State.runs_one h₄) hn)))
  · rw [hcaches]
    simp [s₄, s₃, s₂, s₁, s₀, State.setPc, State.setOwner, State.transfer, Cache.transfer]
  · rw [hglobal']
    exact hzero rfl
  · rw [hrecycled]
    have hlog : s₄.log.recycled = s.log.recycled := by
      simp [s₄, s₃, s₂, s₁, s₀, State.setPc, State.setOwner, State.transfer, Log.move]
    have hcontents : s₄.contents (.tmp t) = p.2.ptrs := by
      have hsplit : s₄.contents (.tmp t) = s.current t ++ (s₄.tmp t).ptrs := rfl
      rw [hsplit, hcur]
      simp [s₄, s₃, State.setPc, State.setOwner]
    have hall : s.global.ptrs ++ (s.caches t).ptrs = p.2.ptrs := by
      rw [← (Cache.transfer_ptrs s.global (s.caches t)).1, Cache.recycle_ptrs hp]
      simp [Cache.ptrs, hzero rfl]
    rw [hlog, hcontents, hall]

/-! ## All interleavings -/

/-- In every state that any number of threads can reach: a pointer has been put as often as it has been
recycled and is in some place, so one that has been put once more than recycled is in exactly one
place, once; what has entered a place has left it in this order or is still there. `MergeBatches` keeps
the pointers and their order. A `DrainAndRecycle` that runs alone, with sizes that fit the address
space, empties the thread's cache and the global one, and recycles their pointers. -/
theorem quarantine_conserves [Fintype T] [DecidableEq α] (cfg : Config α) (s : State T α)
    (h : Reachable cfg s) :
    (∀ x, s.log.puts.count x = s.log.recycled.count x + ∑ p, (s.contents p).count x) ∧
    (∀ x, s.log.puts.count x = s.log.recycled.count x + 1 →
      ∃! p, (s.contents p).count x = 1 ∧ ∀ q ≠ p, x ∉ s.contents q) ∧
    (∀ p, s.log.entered p = s.log.left p ++ s.contents p) ∧
    (∀ (c dealloc c' dealloc' : Cache α), c.mergeBatches dealloc = some (c', dealloc') →
      c'.ptrs = c.ptrs ∧ ∃ es, dealloc'.list = dealloc.list ++ es ∧ ∀ e ∈ es, e.batch = []) ∧
    (∀ t, (∀ u, s.pc u = .idle) →
      memory cfg.bytes (s.global.list ++ (s.caches t).list) < 2^64 →
      ∃ s₀ n s', s.call cfg t .drainAndRecycle = some s₀ ∧ s₀.runs cfg t n = some s' ∧
        s'.pc t = .idle ∧ (s'.caches t).list = [] ∧ s'.global.list = [] ∧
        s'.contents (.tmp t) = [] ∧
        s'.log.recycled = s.log.recycled ++ (s.global.ptrs ++ (s.caches t).ptrs)) := by
  obtain ⟨hok, hfifo, hbal⟩ := Reachable.inv h
  have hcount : ∀ x, s.log.puts.count x =
      s.log.recycled.count x + ∑ p, (s.contents p).count x := by
    intro x
    have hx := hbal x
    simp only [hfifo _, List.count_append, Finset.sum_add_distrib] at hx
    omega
  refine ⟨hcount, fun x hx => ?_, hfifo, ?_, fun t hidle hfits => ?_⟩
  · have hsum : ∑ p, (s.contents p).count x = 1 := by
      have := hcount x
      omega
    obtain ⟨p, -, hp⟩ : ∃ p ∈ Finset.univ, (s.contents p).count x ≠ 0 := by
      apply Finset.exists_ne_zero_of_sum_ne_zero
      rw [hsum]
      exact one_ne_zero
    have hrest := Finset.add_sum_erase Finset.univ (fun p => (s.contents p).count x)
      (Finset.mem_univ p)
    have hzero : ∑ q ∈ Finset.univ.erase p, (s.contents q).count x = 0 := by
      omega
    have hother : ∀ q ≠ p, x ∉ s.contents q := by
      intro q hq
      have := (Finset.sum_eq_zero_iff.mp hzero) q (Finset.mem_erase.mpr ⟨hq, Finset.mem_univ q⟩)
      exact List.count_eq_zero.mp this
    refine ⟨p, ⟨?_, hother⟩, ?_⟩
    · omega
    · rintro q ⟨hq, -⟩
      by_contra hne
      have := List.count_eq_zero.mpr (hother q hne)
      omega
  · intro c dealloc c' dealloc' hmerge
    exact Cache.mergeBatches_ptrs hmerge
  · refine State.drainAndRecycle_alone hok (hidle t) ?_ hfits
    cases howner : s.owner with
    | none => rfl
    | some u =>
      have hlock := hok.owner u howner
      rw [hidle u] at hlock
      rcases hlock with hlock | ⟨_, hlock⟩ <;> exact absurd hlock (by simp)

/-- One of two threads puts a pointer of 16 bytes, and then drains the quarantine on its own. -/
theorem quarantine_conserves_put : ∃ s : State Bool ℕ,
    State.init.call ⟨1000000, 100000, fun _ => 16⟩ true (.put 7) = some s ∧
    s.log.puts.count 7 = s.log.recycled.count 7 + ∑ p, (s.contents p).count 7 ∧
    ∃ s₀ n s', s.call ⟨1000000, 100000, fun _ => 16⟩ true .drainAndRecycle = some s₀ ∧
      s₀.runs ⟨1000000, 100000, fun _ => 16⟩ true n = some s' ∧ s'.log.recycled = [7] := by
  refine ⟨_, rfl, ?_⟩
  obtain ⟨hcount, -, -, -, halone⟩ := quarantine_conserves ⟨1000000, 100000, fun _ => 16⟩ _
    (Relation.ReflTransGen.single ⟨true, Or.inl ⟨.put 7, rfl⟩⟩)
  refine ⟨hcount 7, ?_⟩
  obtain ⟨s₀, n, s', hcall, hrun, -, -, -, -, hrecycled⟩ := halone true
    (by intro u; cases u <;> rfl) (by decide)
  exact ⟨s₀, n, s', hcall, hrun, hrecycled⟩

end Tasan.Quarantine
