import Tasan.ThreadRegistry.Model

/-!
# The invariant of the thread registry

Runs are the legal sequences of operations, from the constructor. The history records what the registry does not
keep: the largest number of threads that were alive at once, how often each tid has been handed out, the
order in which contexts have died, and the unique ids. It is not read by any operation.

The invariant has two parts that do not look at each other. `Counts` compares the counters and the map of
user ids with the contexts. `Queues` is about the life of a tid: which of the two lists it is in, what
has happened since its last death, and the flag `thread_destroyed`.
-/

namespace Tasan.ThreadRegistry

/-! ## Operations -/

/-- The operations, with their arguments. -/
inductive Op
  | createThread (userId : ℕ) (detached : Bool) (parentTid stackId : ℕ)
  | startThread (tid osId : ℕ) (threadType : ThreadType)
  | finishThread (tid : ℕ)
  | joinThread (tid : ℕ)
  | detachThread (tid : ℕ)
  | setThreadUserId (tid userId : ℕ)
  | consumeThreadUserId (userId : ℕ)
  | onFork (tid : ℕ)
  deriving DecidableEq

/-- What an operation returns. -/
inductive Res
  | unit
  | tid (tid : ℕ)
  | status (status : Status)
  | joined (last : Bool)
  | alive (n : ℕ)
  deriving DecidableEq

/-- One operation. -/
def Registry.step (cfg : Config) (r : Registry) : Op → Except Stop (Registry × Res)
  | .createThread userId detached parentTid stackId =>
    (r.createThread cfg userId detached parentTid stackId).map fun p => (p.1, .tid p.2)
  | .startThread tid osId threadType =>
    (r.startThread tid osId threadType).map fun r => (r, .unit)
  | .finishThread tid => (r.finishThread cfg tid).map fun p => (p.1, .status p.2)
  | .joinThread tid => (r.joinThread cfg tid).map fun p => (p.1, .joined p.2)
  | .detachThread tid => (r.detachThread cfg tid).map fun r => (r, .unit)
  | .setThreadUserId tid userId => (r.setThreadUserId tid userId).map fun r => (r, .unit)
  | .consumeThreadUserId userId => (r.consumeThreadUserId userId).map fun p => (p.1, .tid p.2)
  | .onFork tid => (r.onFork tid).map fun p => (p.1, .alive p.2)

/-- What a caller may do. A thread is started once, finished once while it is created or running, and
joined only if it is not detached. A user id is not in use when it is given to a thread. What has died
is neither joined nor detached. -/
def Registry.Legal (r : Registry) : Op → Prop
  | .createThread userId _ _ _ => userId = 0 ∨ r.live userId = none
  | .startThread tid _ _ => ∃ c, r.threads[tid]? = some c ∧ c.status = .created
  | .finishThread tid =>
    ∃ c, r.threads[tid]? = some c ∧ (c.status = .created ∨ c.status = .running)
  | .joinThread tid => ∃ c, r.threads[tid]? = some c ∧
    (c.status = .invalid ∨ c.status ≠ .dead ∧ c.detached = false)
  | .detachThread tid => ∃ c, r.threads[tid]? = some c ∧ c.status ≠ .dead
  | .setThreadUserId tid userId => userId ≠ 0 ∧ r.live userId = none ∧
    ∃ c, r.threads[tid]? = some c ∧ c.status ≠ .invalid ∧ c.status ≠ .dead ∧ c.userId = 0
  | .consumeThreadUserId userId => r.live userId ≠ none
  | .onFork _ => True

/-! ## The history -/

/-- Created or running. -/
def Context.isAlive (c : Context) : Bool := c.status = .created ∨ c.status = .running

/-- Running. -/
def Context.isRunning (c : Context) : Bool := c.status = .running

/-- What has happened. -/
structure History where
  /-- The largest number of threads that have been alive at once. -/
  maxAlive : ℕ
  /-- How often `CreateThread` has returned each tid. -/
  handed : ℕ → ℕ
  /-- The contexts that have died, in order. -/
  deaths : List ℕ
  /-- The unique ids that `CreateThread` has given to contexts, the last one first. -/
  ids : List ℕ

/-- Before the first operation. -/
def History.init : History := ⟨0, fun _ => 0, [], []⟩

/-- The context that an operation lets die. -/
def Registry.dies (r : Registry) : Op → Option ℕ
  | .finishThread tid => (r.threads[tid]?).bind fun c =>
    if c.detached = true ∨ c.status = .created then some tid else none
  | .joinThread tid => (r.threads[tid]?).bind fun c =>
    if c.status ≠ .invalid ∧ c.threadDestroyed = true then some tid else none
  | .detachThread tid => (r.threads[tid]?).bind fun c =>
    if c.status = .finished then some tid else none
  | _ => none

/-- `CreateThread` returns a tid. -/
def History.hand (h : History) (r' : Registry) (tid : ℕ) : History :=
  { h with
    handed := Function.update h.handed tid (h.handed tid + 1)
    ids := ((r'.threads[tid]?).map Context.uniqueId).toList ++ h.ids }

/-- The history after an operation from `r` to `r'`. -/
def History.record (r r' : Registry) (h : History) (op : Op) (res : Res) : History :=
  let h := { h with
    maxAlive := max h.maxAlive (r'.threads.countP Context.isAlive)
    deaths := h.deaths ++ (r.dies op).toList }
  match op, res with
  | .createThread _ _ _ _, .tid tid => h.hand r' tid
  | _, _ => h

/-- A run of operations that are legal in the states in which they are made, with the state that it
reaches and the history. -/
inductive Run (cfg : Config) (legal : Registry → Op → Prop) : Registry → History → Prop
  | init : Run cfg legal Registry.init History.init
  | step {r r' : Registry} {h : History} {op : Op} {res : Res} :
      Run cfg legal r h → legal r op → r.step cfg op = .ok (r', res) →
      Run cfg legal r' (h.record r r' op res)

/-! ## The counters and the user ids -/

/-- The counters and the map of user ids agree with the contexts. -/
structure Counts (r : Registry) (h : History) : Prop where
  alive : r.aliveThreads = r.threads.countP Context.isAlive
  running : r.runningThreads = r.threads.countP Context.isRunning
  maxAlive : r.maxAliveThreads = h.maxAlive
  alive_le : r.aliveThreads ≤ r.maxAliveThreads
  live_iff : ∀ u t, r.live u = some t ↔
    u ≠ 0 ∧ ∃ c, r.threads[t]? = some c ∧ c.userId = u
  idle : ∀ (t : ℕ) (c : Context), r.threads[t]? = some c →
    c.status = .dead ∨ c.status = .invalid → c.userId = 0
  ids_lt : ∀ i ∈ h.ids, i < r.totalThreads
  ids_gt : h.ids.Pairwise (· > ·)

section Counts

variable {r r' : Registry} {h h' : History} {tid : ℕ} {c c' : Context}

theorem countP_set_add (p : Context → Bool) {l : List Context} (hc : l[tid]? = some c)
    (c' : Context) :
    (l.set tid c').countP p + (if p c then 1 else 0) = l.countP p + (if p c' then 1 else 0) := by
  obtain ⟨hlt, rfl⟩ := List.getElem?_eq_some_iff.mp hc
  have hpos : (if p l[tid] then 1 else 0) ≤ l.countP p := by
    split
    · exact List.countP_pos_iff.mpr ⟨_, List.getElem_mem hlt, by assumption⟩
    · exact Nat.zero_le _
  rw [List.countP_set hlt]
  omega

theorem Counts.live_userId (hcounts : Counts r h) (hc : r.threads[tid]? = some c) :
    r.live c.userId = if c.userId = 0 then none else some tid := by
  by_cases hzero : c.userId = 0
  · rw [if_pos hzero, hzero, Option.eq_none_iff_forall_ne_some]
    intro t ht
    exact ((hcounts.live_iff 0 t).mp ht).1 rfl
  · rw [if_neg hzero]
    exact (hcounts.live_iff _ _).mpr ⟨hzero, c, hc, rfl⟩

theorem Counts.live_same (hcounts : Counts r h) (hc : r.threads[tid]? = some c) (u : ℕ) :
    r.live u = if u = c.userId ∧ u ≠ 0 then some tid else if u = c.userId then none else r.live u := by
  by_cases hu : u = c.userId
  · rw [hu, hcounts.live_userId hc]
    by_cases hzero : c.userId = 0
    · simp [hzero]
    · simp [hzero]
  · simp [hu]

/-- One context changes, with the counters and the map. -/
theorem Counts.replace (hcounts : Counts r h) (hc : r.threads[tid]? = some c)
    (hthreads : r'.threads = r.threads.set tid c')
    (halive : r'.aliveThreads + (if c.isAlive then 1 else 0) =
      r.aliveThreads + (if c'.isAlive then 1 else 0))
    (hrunning : r'.runningThreads + (if c.isRunning then 1 else 0) =
      r.runningThreads + (if c'.isRunning then 1 else 0))
    (hmax : r'.maxAliveThreads = h'.maxAlive) (hle : r'.aliveThreads ≤ r'.maxAliveThreads)
    (hlive : ∀ u, r'.live u = if u = c'.userId ∧ u ≠ 0 then some tid
      else if u = c.userId then none else r.live u)
    (hfresh : c'.userId = 0 ∨ c'.userId = c.userId ∨ r.live c'.userId = none)
    (hidle : c'.status = .dead ∨ c'.status = .invalid → c'.userId = 0)
    (hlt : ∀ i ∈ h'.ids, i < r'.totalThreads) (hgt : h'.ids.Pairwise (· > ·)) : Counts r' h' := by
  obtain ⟨hbound, -⟩ := List.getElem?_eq_some_iff.mp hc
  have hself : r'.threads[tid]? = some c' := by rw [hthreads, List.getElem?_set_self hbound]
  have hother : ∀ t, t ≠ tid → r'.threads[t]? = r.threads[t]? := by
    intro t ht
    rw [hthreads, List.getElem?_set_ne (Ne.symm ht)]
  refine ⟨?_, ?_, hmax, hle, ?_, ?_, hlt, hgt⟩
  · have := countP_set_add Context.isAlive hc c'
    have := hcounts.alive
    rw [hthreads]
    omega
  · have := countP_set_add Context.isRunning hc c'
    have := hcounts.running
    rw [hthreads]
    omega
  · intro u t
    rw [hlive u]
    have hold := hcounts.live_iff u t
    have hid := hcounts.live_userId hc
    by_cases ht : t = tid
    · subst ht
      rw [hself]
      by_cases hnew : u = c'.userId ∧ u ≠ 0
      · rw [if_pos hnew]
        exact iff_of_true rfl ⟨hnew.2, c', rfl, hnew.1.symm⟩
      · rw [if_neg hnew]
        refine iff_of_false ?_ ?_
        · by_cases hu : u = c.userId
          · simp [hu]
          · rw [if_neg hu, hold]
            rintro ⟨-, c₁, hc₁, rfl⟩
            rw [hc] at hc₁
            exact hu (Option.some.inj hc₁ ▸ rfl)
        · rintro ⟨hne, c₁, hc₁, rfl⟩
          exact hnew ⟨Option.some.inj hc₁ ▸ rfl, hne⟩
    · rw [hother t ht, ← hold]
      by_cases hnew : u = c'.userId ∧ u ≠ 0
      · rw [if_pos hnew]
        refine iff_of_false (fun heq => ht (Option.some.inj heq).symm) fun heq => ?_
        rcases hfresh with hzero | hsame | hnone
        · exact hnew.2 (hnew.1.trans hzero)
        · rw [hnew.1, hsame, hid, if_neg (by rw [← hsame, ← hnew.1]; exact hnew.2)] at heq
          exact ht (Option.some.inj heq).symm
        · rw [hnew.1, hnone] at heq
          simp at heq
      · rw [if_neg hnew]
        by_cases hu : u = c.userId
        · rw [if_pos hu, hu, hid]
          refine iff_of_false (by simp) fun heq => ht ?_
          split at heq
          · simp at heq
          · exact (Option.some.inj heq).symm
        · rw [if_neg hu]
  · intro t c₁ hc₁ hstatus
    by_cases ht : t = tid
    · subst ht
      rw [hself] at hc₁
      obtain rfl := Option.some.inj hc₁
      exact hidle hstatus
    · rw [hother t ht] at hc₁
      exact hcounts.idle t c₁ hc₁ hstatus

end Counts

/-! ## The life of a tid -/

/-- At least `n` other contexts have died since the last death of a context. -/
def History.Aged (h : History) (tid n : ℕ) : Prop :=
  ∃ pre post, h.deaths = pre ++ tid :: post ∧ tid ∉ post ∧ n ≤ post.toFinset.card

/-- The lists of contexts, the flags and the numbers of uses agree with the statuses and the history. -/
structure Queues (cfg : Config) (r : Registry) (h : History) : Prop where
  length_le : r.threads.length ≤ cfg.maxThreads
  dead_mem : ∀ t ∈ r.deadThreads, t ≠ 0 ∧ ∃ c, r.threads[t]? = some c ∧ c.status = .dead
  dead_nodup : r.deadThreads.Nodup
  dead_length : r.deadThreads.length ≤ cfg.threadQuarantineSize
  invalid_mem : ∀ t ∈ r.invalidThreads, ∃ c, r.threads[t]? = some c ∧ c.status = .invalid ∧
    c.threadDestroyed = false ∧ (0 < cfg.maxReuse → c.reuseCount < cfg.maxReuse)
  invalid_nodup : r.invalidThreads.Nodup
  order : ∀ a t b, r.deadThreads = a ++ t :: b →
    ∃ pre post, h.deaths = pre ++ t :: post ∧ t ∉ post ∧ ∀ x ∈ b, x ∈ post
  aged : ∀ t ∈ r.invalidThreads, h.Aged t cfg.threadQuarantineSize
  destroyed : ∀ (t : ℕ) (c : Context), r.threads[t]? = some c → c.isAlive = true →
    c.threadDestroyed = false
  reuse : ∀ (t : ℕ) (c : Context), r.threads[t]? = some c → 0 < cfg.maxReuse →
    c.reuseCount ≤ cfg.maxReuse ∧ (c.status ≠ .invalid → c.reuseCount < cfg.maxReuse)
  handed : ∀ (t : ℕ) (c : Context), r.threads[t]? = some c →
    h.handed t = c.reuseCount + (if c.status = .invalid then 0 else 1)
  handed_new : ∀ t, r.threads.length ≤ t → h.handed t = 0

section Queues

variable {cfg : Config} {r r' : Registry} {h h' : History} {tid : ℕ} {c c' : Context}

theorem Queues.notMem (hq : Queues cfg r h) (hc : r.threads[tid]? = some c) :
    (c.status ≠ .dead → tid ∉ r.deadThreads) ∧ (c.status ≠ .invalid → tid ∉ r.invalidThreads) := by
  constructor
  · intro hstatus hmem
    obtain ⟨-, c₁, hc₁, hdead⟩ := hq.dead_mem tid hmem
    rw [hc] at hc₁
    exact hstatus (Option.some.inj hc₁ ▸ hdead)
  · intro hstatus hmem
    obtain ⟨c₁, hc₁, hinvalid, -⟩ := hq.invalid_mem tid hmem
    rw [hc] at hc₁
    exact hstatus (Option.some.inj hc₁ ▸ hinvalid)

/-- One context changes that is not queued for reuse. -/
theorem Queues.replace (hq : Queues cfg r h) (hc : r.threads[tid]? = some c)
    (hdead : tid ∈ r.deadThreads → c'.status = .dead) (hinvalid : tid ∉ r.invalidThreads)
    (hthreads : r'.threads = r.threads.set tid c') (hdead' : r'.deadThreads = r.deadThreads)
    (hinvalid' : r'.invalidThreads = r.invalidThreads) (hdeaths : h'.deaths = h.deaths)
    (hdestroyed : c'.isAlive = true → c'.threadDestroyed = false)
    (hreuse : 0 < cfg.maxReuse →
      c'.reuseCount ≤ cfg.maxReuse ∧ (c'.status ≠ .invalid → c'.reuseCount < cfg.maxReuse))
    (hhanded : h'.handed tid = c'.reuseCount + (if c'.status = .invalid then 0 else 1))
    (hhanded' : ∀ t, t ≠ tid → h'.handed t = h.handed t) : Queues cfg r' h' := by
  obtain ⟨hbound, -⟩ := List.getElem?_eq_some_iff.mp hc
  have hself : r'.threads[tid]? = some c' := by rw [hthreads, List.getElem?_set_self hbound]
  have hother : ∀ t, t ≠ tid → r'.threads[t]? = r.threads[t]? := by
    intro t ht
    rw [hthreads, List.getElem?_set_ne (Ne.symm ht)]
  have hlength : r'.threads.length = r.threads.length := by rw [hthreads, List.length_set]
  -- what holds of the new context and of all the others
  have hall : ∀ {P : ℕ → Context → Prop}, P tid c' →
      (∀ t c, t ≠ tid → r.threads[t]? = some c → P t c) →
      ∀ t c, r'.threads[t]? = some c → P t c := by
    intro P hnew hold t c₁ hc₁
    by_cases ht : t = tid
    · subst ht
      rw [hself] at hc₁
      exact Option.some.inj hc₁ ▸ hnew
    · exact hold t c₁ ht (hother t ht ▸ hc₁)
  constructor
  · exact hlength ▸ hq.length_le
  · intro t ht
    rw [hdead'] at ht
    by_cases heq : t = tid
    · subst heq
      exact ⟨(hq.dead_mem t ht).1, c', hself, hdead ht⟩
    · rw [hother t heq]
      exact hq.dead_mem t ht
  · exact hdead' ▸ hq.dead_nodup
  · exact hdead' ▸ hq.dead_length
  · intro t ht
    rw [hinvalid'] at ht
    rw [hother t fun heq => hinvalid (heq ▸ ht)]
    exact hq.invalid_mem t ht
  · exact hinvalid' ▸ hq.invalid_nodup
  · rw [hdead', hdeaths]
    exact hq.order
  · unfold History.Aged
    rw [hinvalid', hdeaths]
    exact hq.aged
  · exact hall hdestroyed fun t c _ => hq.destroyed t c
  · exact hall hreuse fun t c _ => hq.reuse t c
  · exact hall hhanded fun t c ht hc₁ => (hhanded' t ht).trans (hq.handed t c hc₁)
  · intro t ht
    rw [hlength] at ht
    rw [hhanded' t (by omega)]
    exact hq.handed_new t ht

/-- The history after a death. -/
def History.die (h : History) (tid : ℕ) : History := { h with deaths := h.deaths ++ [tid] }

/-- The death of a context that is in none of the lists. -/
theorem Queues.die (hq : Queues cfg r h) (hdead : tid ∉ r.deadThreads)
    (hinvalid : tid ∉ r.invalidThreads) : Queues cfg r (h.die tid) where
  length_le := hq.length_le
  dead_mem := hq.dead_mem
  dead_nodup := hq.dead_nodup
  dead_length := hq.dead_length
  invalid_mem := hq.invalid_mem
  invalid_nodup := hq.invalid_nodup
  order := by
    intro a t b hsplit
    obtain ⟨pre, post, hdeaths, hnot, hsub⟩ := hq.order a t b hsplit
    have hne : t ≠ tid := by
      rintro rfl
      exact hdead (hsplit ▸ List.mem_append_right a List.mem_cons_self)
    refine ⟨pre, post ++ [tid], by simp [History.die, hdeaths], by simp [hnot, hne], ?_⟩
    exact fun x hx => List.mem_append_left _ (hsub x hx)
  aged := by
    intro t ht
    obtain ⟨pre, post, hdeaths, hnot, hcard⟩ := hq.aged t ht
    have hne : t ≠ tid := fun heq => hinvalid (heq ▸ ht)
    refine ⟨pre, post ++ [tid], by simp [History.die, hdeaths], by simp [hnot, hne], ?_⟩
    refine hcard.trans (Finset.card_le_card ?_)
    intro x hx
    simp only [List.mem_toFinset, List.mem_append] at hx ⊢
    exact Or.inl hx
  destroyed := hq.destroyed
  reuse := hq.reuse
  handed := hq.handed
  handed_new := hq.handed_new

theorem Queues.order_push (hq : Queues cfg r h) (hdead : tid ∉ r.deadThreads) {a b : List ℕ} {t : ℕ}
    (hsplit : r.deadThreads ++ [tid] = a ++ t :: b) :
    ∃ pre post, (h.die tid).deaths = pre ++ t :: post ∧ t ∉ post ∧ ∀ x ∈ b, x ∈ post := by
  rcases List.eq_nil_or_concat b with rfl | ⟨b', y, rfl⟩
  · obtain ⟨-, hlast⟩ := List.append_inj' hsplit rfl
    obtain rfl := List.singleton_inj.mp hlast
    exact ⟨h.deaths, [], rfl, by simp, by simp⟩
  · rw [List.concat_eq_append] at hsplit ⊢
    have hsplit' : r.deadThreads ++ [tid] = (a ++ t :: b') ++ [y] := by simp [hsplit]
    obtain ⟨hinit, hlast⟩ := List.append_inj' hsplit' rfl
    obtain rfl := List.singleton_inj.mp hlast
    obtain ⟨pre, post, hdeaths, hnot, hsub⟩ := hq.order a t b' hinit
    have hne : t ≠ tid := by
      rintro rfl
      exact hdead (hinit ▸ List.mem_append_right a List.mem_cons_self)
    refine ⟨pre, post ++ [tid], by simp [History.die, hdeaths], by simp [hnot, hne], ?_⟩
    intro x hx
    rcases List.mem_append.mp hx with hx | hx
    · exact List.mem_append_left _ (hsub x hx)
    · exact List.mem_append_right _ hx

/-- A context is queued for reuse. -/
theorem Queues.addInvalid (hq : Queues cfg r h) (hc : r.threads[tid]? = some c)
    (hinvalid : tid ∉ r.invalidThreads) (hstatus : c.status = .invalid)
    (hdestroyed : c.threadDestroyed = false) (hreuse : 0 < cfg.maxReuse → c.reuseCount < cfg.maxReuse)
    (haged : h.Aged tid cfg.threadQuarantineSize) :
    Queues cfg { r with invalidThreads := r.invalidThreads ++ [tid] } h where
  length_le := hq.length_le
  dead_mem := hq.dead_mem
  dead_nodup := hq.dead_nodup
  dead_length := hq.dead_length
  invalid_mem := by
    intro t ht
    rcases List.mem_append.mp ht with ht | ht
    · exact hq.invalid_mem t ht
    · rw [List.mem_singleton.mp ht]
      exact ⟨c, hc, hstatus, hdestroyed, hreuse⟩
  invalid_nodup := by
    refine List.nodup_append.mpr ⟨hq.invalid_nodup, List.nodup_singleton tid, fun a ha b hb hab => ?_⟩
    rw [List.mem_singleton.mp hb] at hab
    exact hinvalid (hab ▸ ha)
  order := hq.order
  aged := by
    intro t ht
    rcases List.mem_append.mp ht with ht | ht
    · exact hq.aged t ht
    · rw [List.mem_singleton.mp ht]
      exact haged
  destroyed := hq.destroyed
  reuse := hq.reuse
  handed := hq.handed
  handed_new := hq.handed_new

theorem Queues.setDead (hq : Queues cfg r h) {dead : List ℕ}
    (hmem : ∀ t ∈ dead, t ≠ 0 ∧ ∃ c, r.threads[t]? = some c ∧ c.status = .dead) (hnodup : dead.Nodup)
    (hlength : dead.length ≤ cfg.threadQuarantineSize)
    (horder : ∀ a t b, dead = a ++ t :: b →
      ∃ pre post, h.deaths = pre ++ t :: post ∧ t ∉ post ∧ ∀ x ∈ b, x ∈ post) :
    Queues cfg { r with deadThreads := dead } h :=
  ⟨hq.length_le, hmem, hnodup, hlength, hq.invalid_mem, hq.invalid_nodup, horder, hq.aged, hq.destroyed,
    hq.reuse, hq.handed, hq.handed_new⟩

end Queues

/-! ## The quarantine -/

/-- Both parts of the invariant. -/
structure Inv (cfg : Config) (r : Registry) (h : History) : Prop where
  counts : Counts r h
  queues : Queues cfg r h

/-- The context is retired when it is reset, not queued for reuse. -/
def Context.Retires (cfg : Config) (c : Context) : Prop :=
  cfg.maxReuse > 0 ∧ c.reuseCount + 1 ≥ cfg.maxReuse

section Quarantine

variable {cfg : Config} {r r' : Registry} {h h' : History} {tid : ℕ} {c c' : Context}

theorem check_ok {p : Prop} [Decidable p] (hp : p) : check p = .ok () := if_pos hp

theorem ok_bind {α β : Type} (a : α) (f : α → Except Stop β) : (Except.ok a >>= f) = f a := rfl

theorem Registry.get_ok (hc : r.threads[tid]? = some c) : r.get tid = .ok c := by
  rw [Registry.get, hc]

theorem Counts.congr (hcounts : Counts r h) (hmax : h'.maxAlive = h.maxAlive)
    (hids : h'.ids = h.ids) : Counts r h' :=
  ⟨hcounts.alive, hcounts.running, hcounts.maxAlive.trans hmax.symm, hcounts.alive_le,
    hcounts.live_iff, hcounts.idle, hids ▸ hcounts.ids_lt, hids ▸ hcounts.ids_gt⟩

theorem Counts.keep (hcounts : Counts r h) (hc : r.threads[tid]? = some c)
    (hthreads : r'.threads = r.threads.set tid c') (halive : c'.isAlive = c.isAlive)
    (hrunning : c'.isRunning = c.isRunning) (huser : c'.userId = c.userId)
    (hidle : c'.status = .dead ∨ c'.status = .invalid → c'.userId = 0)
    (hsame : (r'.aliveThreads, r'.runningThreads, r'.maxAliveThreads, r'.totalThreads, r'.live) =
      (r.aliveThreads, r.runningThreads, r.maxAliveThreads, r.totalThreads, r.live)) :
    Counts r' h := by
  simp only [Prod.mk.injEq] at hsame
  obtain ⟨ha, hr, hm, ht, hl⟩ := hsame
  refine hcounts.replace hc hthreads (by rw [halive, ha]) (by rw [hrunning, hr])
    (hm.trans hcounts.maxAlive) (by rw [ha, hm]; exact hcounts.alive_le) ?_
    (Or.inr (Or.inl huser)) hidle (ht ▸ hcounts.ids_lt) hcounts.ids_gt
  rw [hl, huser]
  exact hcounts.live_same hc

/-- The context that leaves the quarantine, from a state in which it is in none of the lists. -/
theorem Inv.reset (hinv : Inv cfg r h) (hc : r.threads[tid]? = some c) (hstatus : c.status = .dead)
    (hdead : tid ∉ r.deadThreads) (haged : h.Aged tid cfg.threadQuarantineSize) :
    Inv cfg (r.set tid { c.reset with reuseCount := c.reset.reuseCount + 1 }) h ∧
      (¬c.Retires cfg → Inv cfg { r.set tid { c.reset with reuseCount := c.reset.reuseCount + 1 } with
        invalidThreads := r.invalidThreads ++ [tid] } h) := by
  obtain ⟨hcounts, hq⟩ := hinv
  obtain ⟨hbound, -⟩ := List.getElem?_eq_some_iff.mp hc
  have huser := hcounts.idle tid c hc (Or.inl hstatus)
  have hinvalid : tid ∉ r.invalidThreads := (hq.notMem hc).2 (by simp [hstatus])
  have hcounts' : Counts (r.set tid { c.reset with reuseCount := c.reset.reuseCount + 1 }) h := by
    refine hcounts.keep hc rfl ?_ ?_ rfl (fun _ => huser) rfl
    · simp [Context.isAlive, Context.reset, hstatus]
    · simp [Context.isRunning, Context.reset, hstatus]
  have hq' : Queues cfg (r.set tid { c.reset with reuseCount := c.reset.reuseCount + 1 }) h := by
    refine hq.replace hc (fun hmem => absurd hmem hdead) hinvalid rfl rfl rfl rfl (fun _ => rfl)
      ?_ ?_ fun _ _ => rfl
    · intro hpos
      have hlt := (hq.reuse tid c hc hpos).2 (by simp [hstatus])
      exact ⟨hlt, fun hne => absurd rfl hne⟩
    · rw [hq.handed tid c hc, hstatus]
      rfl
  refine ⟨⟨hcounts', hq'⟩, fun hkeep => ⟨?_, ?_⟩⟩
  · exact ⟨hcounts'.alive, hcounts'.running, hcounts'.maxAlive, hcounts'.alive_le,
      hcounts'.live_iff, hcounts'.idle, hcounts'.ids_lt, hcounts'.ids_gt⟩
  · refine hq'.addInvalid (List.getElem?_set_self hbound) hinvalid rfl rfl (fun hpos => ?_) haged
    by_contra hge
    exact hkeep ⟨hpos, not_lt.mp hge⟩

/-- `QuarantinePush` of a context that has just died. It is queued for reuse at once only if there is
no quarantine. -/
theorem Inv.quarantinePush (hinv : Inv cfg r h) (hc : r.threads[tid]? = some c)
    (hstatus : c.status = .dead) (hdead : tid ∉ r.deadThreads) :
    ∃ r' c', r.quarantinePush cfg tid = .ok r' ∧ Inv cfg r' (h.die tid) ∧
      r'.threads[tid]? = some c' ∧ c'.isAlive = false ∧
      (tid ∈ r'.invalidThreads → cfg.threadQuarantineSize = 0 ∧ tid ≠ 0 ∧ ¬c.Retires cfg) := by
  obtain ⟨hcounts, hq⟩ := hinv
  have hcounts' : Counts r (h.die tid) := hcounts.congr rfl rfl
  have hinvalid : tid ∉ r.invalidThreads := (hq.notMem hc).2 (by simp [hstatus])
  have hq' := hq.die hdead hinvalid
  have halive : c.isAlive = false := by simp [Context.isAlive, hstatus]
  unfold Registry.quarantinePush
  by_cases hzero : tid = 0
  · rw [if_pos hzero]
    exact ⟨r, c, rfl, ⟨hcounts', hq'⟩, hc, halive, fun hmem => absurd hmem hinvalid⟩
  rw [if_neg hzero]
  dsimp only
  have hmem : ∀ t ∈ r.deadThreads ++ [tid], t ≠ 0 ∧ ∃ c, r.threads[t]? = some c ∧ c.status = .dead := by
    intro t ht
    rcases List.mem_append.mp ht with ht | ht
    · exact hq.dead_mem t ht
    · rw [List.mem_singleton.mp ht]
      exact ⟨hzero, c, hc, hstatus⟩
  have hnodup : (r.deadThreads ++ [tid]).Nodup := by
    refine List.nodup_append.mpr ⟨hq.dead_nodup, List.nodup_singleton tid, fun a ha b hb hab => ?_⟩
    rw [List.mem_singleton.mp hb] at hab
    exact hdead (hab ▸ ha)
  by_cases hroom : (r.deadThreads ++ [tid]).length ≤ cfg.threadQuarantineSize
  · rw [if_pos hroom]
    refine ⟨_, c, rfl, ⟨?_, ?_⟩, hc, halive, fun hmem => absurd hmem hinvalid⟩
    · exact ⟨hcounts'.alive, hcounts'.running, hcounts'.maxAlive, hcounts'.alive_le,
        hcounts'.live_iff, hcounts'.idle, hcounts'.ids_lt, hcounts'.ids_gt⟩
    · exact hq'.setDead hmem hnodup hroom fun a t b hsplit => hq.order_push hdead hsplit
  rw [if_neg hroom]
  -- the quarantine is full: its oldest context leaves it
  obtain ⟨front, rest, hfront⟩ : ∃ front rest, r.deadThreads ++ [tid] = front :: rest :=
    List.exists_cons_of_ne_nil (by simp)
  rw [hfront] at hmem hnodup hroom ⊢
  obtain ⟨-, cf, hcf, hcfdead⟩ := hmem front List.mem_cons_self
  obtain ⟨hnot, hnodup'⟩ := List.nodup_cons.mp hnodup
  have hlength : rest.length = cfg.threadQuarantineSize := by
    have hle := hq.dead_length
    have hlen := congrArg List.length hfront
    simp only [List.length_append, List.length_cons, List.length_nil] at hlen hroom
    omega
  have hrest : Inv cfg { r with deadThreads := rest } (h.die tid) := by
    refine ⟨⟨hcounts'.alive, hcounts'.running, hcounts'.maxAlive, hcounts'.alive_le,
      hcounts'.live_iff, hcounts'.idle, hcounts'.ids_lt, hcounts'.ids_gt⟩, ?_⟩
    refine hq'.setDead (fun t ht => hmem t (List.mem_cons_of_mem _ ht)) hnodup' hlength.le ?_
    intro a t b hsplit
    exact hq.order_push hdead (a := front :: a) (by rw [hfront, hsplit]; rfl)
  have haged : (h.die tid).Aged front cfg.threadQuarantineSize := by
    obtain ⟨pre, post, hdeaths, hnew, hsub⟩ := hq.order_push hdead (a := []) hfront
    refine ⟨pre, post, hdeaths, hnew, ?_⟩
    rw [← hlength, ← List.toFinset_card_of_nodup hnodup']
    refine Finset.card_le_card fun x hx => ?_
    rw [List.mem_toFinset] at hx ⊢
    exact hsub x hx
  obtain ⟨hreset, hqueue⟩ := hrest.reset hcf hcfdead hnot haged
  -- if it is the context that has just died, there is no quarantine
  have hself : front = tid → cfg.threadQuarantineSize = 0 ∧ cf = c := by
    rintro rfl
    rw [hc] at hcf
    refine ⟨?_, (Option.some.inj hcf).symm⟩
    rcases List.eq_nil_or_concat rest with rfl | ⟨l, y, rfl⟩
    · exact hlength.symm
    · rw [List.concat_eq_append, ← List.cons_append] at hfront
      obtain ⟨hinit, -⟩ := List.append_inj' hfront rfl
      exact absurd (hinit ▸ List.mem_cons_self) hdead
  obtain ⟨hbound, -⟩ := List.getElem?_eq_some_iff.mp hcf
  have hctx : ∃ c', (r.threads.set front { cf.reset with
      reuseCount := cf.reset.reuseCount + 1 })[tid]? = some c' ∧ c'.isAlive = false := by
    by_cases heq : front = tid
    · rw [← heq]
      exact ⟨_, List.getElem?_set_self hbound, rfl⟩
    · exact ⟨c, by rw [List.getElem?_set_ne heq, hc], halive⟩
  obtain ⟨c', hc', halive'⟩ := hctx
  have hget : ({ r with deadThreads := rest } : Registry).get front = .ok cf := Registry.get_ok hcf
  dsimp only
  rw [hget, ok_bind, check_ok hcfdead, ok_bind]
  by_cases hretire : cf.Retires cfg
  · rw [if_pos (by exact hretire)]
    exact ⟨_, c', rfl, hreset, hc', halive', fun hmem' => absurd hmem' hinvalid⟩
  · rw [if_neg (by exact hretire)]
    refine ⟨_, c', rfl, hqueue hretire, hc', halive', fun hmem' => ?_⟩
    have hmem'' : tid ∈ r.invalidThreads ++ [front] := hmem'
    rcases List.mem_append.mp hmem'' with hold | hnew
    · exact absurd hold hinvalid
    · obtain ⟨hnone, rfl⟩ := hself (List.mem_singleton.mp hnew).symm
      exact ⟨hnone, hzero, hretire⟩

theorem Counts.eraseLive (hcounts : Counts r h) (hc : r.threads[tid]? = some c) (u : ℕ) :
    (r.eraseLive c.userId).live u = if u = c.userId then none else r.live u := by
  have hid := hcounts.live_userId hc
  unfold Registry.eraseLive
  dsimp only
  by_cases hzero : c.userId = 0
  · rw [if_neg (not_not_intro hzero)]
    by_cases hu : u = c.userId
    · rw [if_pos hu, hu, hid, if_pos hzero]
    · rw [if_neg hu]
  · rw [if_pos hzero, Function.update_apply]

/-- A context dies: it leaves the counters and the map, and enters the quarantine. -/
theorem Inv.bury (hinv : Inv cfg r h) (hc : r.threads[tid]? = some c) (hdead : c.status ≠ .dead)
    (hinvalid : c.status ≠ .invalid) (c' : Context) (alive running : ℕ)
    (halive : alive + (if c.isAlive then 1 else 0) = r.aliveThreads)
    (hrunning : running + (if c.isRunning then 1 else 0) = r.runningThreads)
    (hstatus : c'.status = .dead) (huser : c'.userId = 0) (hreuse : c'.reuseCount = c.reuseCount) :
    ∃ r' c₁, ((({ r with aliveThreads := alive, runningThreads := running } : Registry).eraseLive
        c.userId).set tid c').quarantinePush cfg tid = .ok r' ∧ Inv cfg r' (h.die tid) ∧
      r'.threads[tid]? = some c₁ ∧ c₁.isAlive = false ∧
      (tid ∈ r'.invalidThreads → cfg.threadQuarantineSize = 0 ∧ tid ≠ 0 ∧ ¬c.Retires cfg) := by
  obtain ⟨hcounts, hq⟩ := hinv
  obtain ⟨hbound, -⟩ := List.getElem?_eq_some_iff.mp hc
  have halive' : c'.isAlive = false := by simp [Context.isAlive, hstatus]
  have hrunning' : c'.isRunning = false := by simp [Context.isRunning, hstatus]
  have hinv' : Inv cfg ((({ r with
      aliveThreads := alive, runningThreads := running } : Registry).eraseLive c.userId).set tid c') h := by
    constructor
    · refine hcounts.replace hc rfl (by rw [halive']; exact halive) (by rw [hrunning']; exact hrunning)
        hcounts.maxAlive ?_ ?_ (Or.inl huser) (fun _ => huser) hcounts.ids_lt hcounts.ids_gt
      · have := hcounts.alive_le
        show alive ≤ r.maxAliveThreads
        omega
      · intro u
        rw [if_neg (by rw [huser]; exact fun hu => hu.2 hu.1)]
        exact hcounts.eraseLive hc u
    · refine hq.replace hc (fun hmem => absurd hmem ((hq.notMem hc).1 hdead)) ((hq.notMem hc).2 hinvalid)
        rfl rfl rfl rfl (by simp [halive']) (fun hpos => ?_) ?_ fun _ _ => rfl
      · have := (hq.reuse tid c hc hpos).2 hinvalid
        rw [hreuse]
        exact ⟨this.le, fun _ => this⟩
      · rw [hq.handed tid c hc, hreuse, hstatus, if_neg hinvalid]
        rfl
  have hretires : c'.Retires cfg ↔ c.Retires cfg := by rw [Context.Retires, hreuse, Context.Retires]
  obtain ⟨r', c₁, hpush, hinv'', hc₁, halive₁, hmem⟩ :=
    hinv'.quarantinePush (List.getElem?_set_self hbound) hstatus ((hq.notMem hc).1 hdead)
  exact ⟨r', c₁, hpush, hinv'', hc₁, halive₁, fun hmem' => by rw [← hretires]; exact hmem hmem'⟩

end Quarantine

end Tasan.ThreadRegistry
