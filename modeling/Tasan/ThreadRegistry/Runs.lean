import Tasan.ThreadRegistry.Invariant

/-!
# Runs of the thread registry

Every operation keeps the invariant, so it holds in every run: the two theorems at the end say what
follows for the contexts and for the flag `thread_destroyed`. One step is special. Without a quarantine,
`FinishThread` resets a context that dies, queues it for reuse and sets its flag after that:
`Registry.Reuses`.
-/

namespace Tasan.ThreadRegistry

/-! ## The operations -/

section Operations

variable {cfg : Config} {r r' : Registry} {h : History} {tid : ℕ} {c : Context}

/-- One live context changes, and stays out of the lists. -/
theorem Inv.replace (hinv : Inv cfg r h) (hc : r.threads[tid]? = some c) (c' : Context)
    (hdead : c.status ≠ .dead) (hinvalid : c.status ≠ .invalid)
    (hdead' : c'.status ≠ .dead) (hinvalid' : c'.status ≠ .invalid)
    (hreuse : c'.reuseCount = c.reuseCount)
    (hdestroyed : c'.isAlive = true → c'.threadDestroyed = false)
    (hthreads : r'.threads = r.threads.set tid c')
    (halive : r'.aliveThreads + (if c.isAlive then 1 else 0) =
      r.aliveThreads + (if c'.isAlive then 1 else 0)) (hle : r'.aliveThreads ≤ r.maxAliveThreads)
    (hrunning : r'.runningThreads + (if c.isRunning then 1 else 0) =
      r.runningThreads + (if c'.isRunning then 1 else 0))
    (hlive : ∀ u, r'.live u = if u = c'.userId ∧ u ≠ 0 then some tid
      else if u = c.userId then none else r.live u)
    (hfresh : c'.userId = 0 ∨ c'.userId = c.userId ∨ r.live c'.userId = none)
    (hsame : (r'.maxAliveThreads, r'.totalThreads, r'.deadThreads, r'.invalidThreads) =
      (r.maxAliveThreads, r.totalThreads, r.deadThreads, r.invalidThreads)) : Inv cfg r' h := by
  obtain ⟨hcounts, hq⟩ := hinv
  simp only [Prod.mk.injEq] at hsame
  obtain ⟨hm, ht, hd, hi⟩ := hsame
  constructor
  · refine hcounts.replace hc hthreads halive hrunning (hm.trans hcounts.maxAlive) (hm ▸ hle) hlive
      hfresh (fun hstatus => ?_) (ht ▸ hcounts.ids_lt) hcounts.ids_gt
    exact absurd hstatus (not_or.mpr ⟨hdead', hinvalid'⟩)
  · refine hq.replace hc (fun hmem => absurd hmem ((hq.notMem hc).1 hdead)) ((hq.notMem hc).2 hinvalid)
      hthreads hd hi rfl hdestroyed (fun hpos => ?_) ?_ fun _ _ => rfl
    · have hlt := (hq.reuse tid c hc hpos).2 hinvalid
      rw [hreuse]
      exact ⟨hlt.le, fun _ => hlt⟩
    · rw [hq.handed tid c hc, hreuse, if_neg hinvalid, if_neg hinvalid']

theorem Inv.startThread (hinv : Inv cfg r h) (hc : r.threads[tid]? = some c)
    (hstatus : c.status = .created) (osId : ℕ) (threadType : ThreadType) :
    ∃ r', r.startThread tid osId threadType = .ok r' ∧ Inv cfg r' h := by
  have hget : ({ r with runningThreads := r.runningThreads + 1 } : Registry).get tid = .ok c :=
    Registry.get_ok hc
  unfold Registry.startThread
  dsimp only
  rw [hget, ok_bind, check_ok hstatus, ok_bind]
  refine ⟨_, rfl, hinv.replace hc (c.setStarted osId threadType) (by simp [hstatus])
    (by simp [hstatus]) (by simp [Context.setStarted]) (by simp [Context.setStarted]) rfl ?_ rfl ?_
    hinv.counts.alive_le ?_ (hinv.counts.live_same (c := c) hc) (Or.inr (Or.inl rfl)) rfl⟩
  · intro _
    exact hinv.queues.destroyed tid c hc (by simp [Context.isAlive, hstatus])
  · simp [Context.isAlive, Context.setStarted, hstatus, Registry.set]
  · simp [Context.isRunning, Context.setStarted, hstatus, Registry.set]

theorem Inv.setThreadUserId (hinv : Inv cfg r h) (hc : r.threads[tid]? = some c) {userId : ℕ}
    (hfresh : r.live userId = none) (hinvalid : c.status ≠ .invalid) (hdead : c.status ≠ .dead)
    (hzero : c.userId = 0) (hne : userId ≠ 0) :
    ∃ r', r.setThreadUserId tid userId = .ok r' ∧ Inv cfg r' h := by
  have hfresh' : (r.set tid { c with userId := userId }).live userId = none := hfresh
  unfold Registry.setThreadUserId Registry.emplaceLive
  rw [Registry.get_ok hc, ok_bind, check_ok hinvalid, ok_bind, check_ok hdead, ok_bind, check_ok hzero,
    ok_bind, check_ok hfresh', ok_bind]
  refine ⟨_, rfl, hinv.replace hc { c with userId := userId } hdead hinvalid hdead hinvalid rfl
    (hinv.queues.destroyed tid c hc) rfl rfl hinv.counts.alive_le rfl ?_
    (Or.inr (Or.inr hfresh)) rfl⟩
  intro u
  have hid := hinv.counts.live_userId hc
  rw [hzero, if_pos rfl] at hid
  dsimp only [Registry.set]
  by_cases hu : u = userId
  · simp [hu, hne]
  · by_cases hu0 : u = 0
    · simp [hu0, hne.symm, hid, hzero]
    · simp [hu, hu0, hzero]

theorem Inv.consumeThreadUserId (hinv : Inv cfg r h) {userId : ℕ} (hlive : r.live userId = some tid) :
    ∃ r', r.consumeThreadUserId userId = .ok (r', tid) ∧ Inv cfg r' h := by
  obtain ⟨hne, c, hc, rfl⟩ := (hinv.counts.live_iff userId tid).mp hlive
  have hidle := hinv.counts.idle tid c hc
  have hdead : c.status ≠ .dead := fun hstatus => hne (hidle (Or.inl hstatus))
  have hinvalid : c.status ≠ .invalid := fun hstatus => hne (hidle (Or.inr hstatus))
  have hget : ({ r with live := Function.update r.live c.userId none } : Registry).get tid = .ok c :=
    Registry.get_ok hc
  unfold Registry.consumeThreadUserId
  rw [hlive]
  dsimp only
  rw [hget, ok_bind, check_ok rfl, ok_bind]
  refine ⟨_, rfl, hinv.replace hc { c with userId := 0 } hdead hinvalid hdead hinvalid rfl
    (hinv.queues.destroyed tid c hc) rfl rfl hinv.counts.alive_le rfl ?_ (Or.inl rfl) rfl⟩
  intro u
  rw [if_neg fun hu => hu.2 hu.1]
  exact Function.update_apply r.live c.userId none u

/-- The loop of `OnFork`. -/
theorem Inv.forkLoop (hinv : Inv cfg r h) (tid : ℕ) {us : List ℕ} (hus : ∀ u ∈ us, u < r.threads.length) :
    ∃ r', Registry.forkLoop tid us r = .ok r' ∧ Inv cfg r' h := by
  induction us generalizing r with
  | nil => exact ⟨r, rfl, hinv⟩
  | cons u us ih =>
    obtain ⟨c, hc⟩ : ∃ c, r.threads[u]? = some c :=
      ⟨_, List.getElem?_eq_getElem (hus u List.mem_cons_self)⟩
    unfold Registry.forkLoop
    rw [Registry.get_ok hc, ok_bind]
    by_cases hskip : u = tid ∨ c.userId = 0
    · rw [if_pos hskip]
      exact ih hinv fun v hv => hus v (List.mem_cons_of_mem u hv)
    rw [if_neg hskip]
    have hne : c.userId ≠ 0 := fun hzero => hskip (Or.inr hzero)
    have hidle := hinv.counts.idle u c hc
    have hdead : c.status ≠ .dead := fun hstatus => hne (hidle (Or.inl hstatus))
    have hinvalid : c.status ≠ .invalid := fun hstatus => hne (hidle (Or.inr hstatus))
    have hlive : r.live c.userId ≠ none := by
      rw [hinv.counts.live_userId hc, if_neg hne]
      simp
    rw [check_ok hlive, ok_bind]
    apply ih
    · refine hinv.replace hc { c with userId := 0 } hdead hinvalid hdead hinvalid rfl
        (hinv.queues.destroyed u c hc) rfl rfl hinv.counts.alive_le rfl ?_ (Or.inl rfl) rfl
      intro v
      rw [if_neg fun hv => hv.2 hv.1]
      exact hinv.counts.eraseLive hc v
    · intro v hv
      have hlength : ((r.eraseLive c.userId).set u { c with userId := 0 }).threads.length =
          r.threads.length := List.length_set
      rw [hlength]
      exact hus v (List.mem_cons_of_mem u hv)

theorem Inv.onFork (hinv : Inv cfg r h) (tid : ℕ) :
    ∃ r' n, r.onFork tid = .ok (r', n) ∧ Inv cfg r' h := by
  obtain ⟨r', hloop, hinv'⟩ := hinv.forkLoop tid fun u hu => List.mem_range.mp hu
  refine ⟨r', r'.aliveThreads, ?_, hinv'⟩
  unfold Registry.onFork
  rw [hloop]
  rfl

/-- `DetachThread`. -/
theorem Inv.detachThread (hinv : Inv cfg r h) (hc : r.threads[tid]? = some c)
    (hdead : c.status ≠ .dead) :
    ∃ r', r.detachThread cfg tid = .ok r' ∧
      Inv cfg r' (if c.status = .finished then h.die tid else h) := by
  unfold Registry.detachThread
  rw [Registry.get_ok hc, ok_bind]
  by_cases hinvalid : c.status = .invalid
  · rw [if_pos hinvalid, if_neg (by simp [hinvalid])]
    exact ⟨r, rfl, hinv⟩
  rw [if_neg hinvalid]
  by_cases hfinished : c.status = .finished
  · rw [if_pos hfinished, if_pos hfinished]
    obtain ⟨r', c₁, hpush, hinv', -⟩ := hinv.bury hc hdead hinvalid
      { c with status := .dead, userId := 0 } r.aliveThreads r.runningThreads
      (by simp [Context.isAlive, hfinished]) (by simp [Context.isRunning, hfinished]) rfl rfl rfl
    refine ⟨r', ?_, hinv'⟩
    unfold Registry.kill Context.setDead
    rw [check_ok (Or.inr hfinished)]
    exact hpush
  · rw [if_neg hfinished, if_neg hfinished]
    refine ⟨_, rfl, hinv.replace hc { c with detached := true } hdead hinvalid hdead hinvalid rfl
      (hinv.queues.destroyed tid c hc) rfl rfl hinv.counts.alive_le rfl
      (hinv.counts.live_same (c := c) hc) (Or.inr (Or.inl rfl)) rfl⟩

/-- A round of `JoinThread`. -/
theorem Inv.joinThread (hinv : Inv cfg r h) (hc : r.threads[tid]? = some c)
    (hlegal : c.status = .invalid ∨ c.status ≠ .dead ∧ c.detached = false) :
    ∃ r' last, r.joinThread cfg tid = .ok (r', last) ∧
      Inv cfg r' (if c.status ≠ .invalid ∧ c.threadDestroyed = true then h.die tid else h) ∧
      (c.isAlive = true → last = false ∧ r' = r) := by
  unfold Registry.joinThread
  rw [Registry.get_ok hc, ok_bind]
  by_cases hinvalid : c.status = .invalid
  · rw [if_pos hinvalid, if_neg (by simp [hinvalid])]
    exact ⟨r, true, rfl, hinv, by simp [Context.isAlive, hinvalid]⟩
  obtain ⟨hdead, hdetached⟩ := hlegal.resolve_left hinvalid
  rw [if_neg hinvalid]
  by_cases hdestroyed : c.threadDestroyed = true
  · -- the flag of a thread that is created or running is not set
    have halive : c.isAlive = false := by
      by_contra halive
      have := hinv.queues.destroyed tid c hc (by simpa using halive)
      rw [hdestroyed] at this
      exact absurd this (by simp)
    have hfinished : c.status = .finished := by
      unfold Context.isAlive at halive
      cases hstatus : c.status with
      | invalid => exact absurd hstatus hinvalid
      | created => simp [hstatus] at halive
      | running => simp [hstatus] at halive
      | finished => rfl
      | dead => exact absurd hstatus hdead
    rw [if_pos hdestroyed, if_pos ⟨hinvalid, hdestroyed⟩]
    obtain ⟨r', c₁, hpush, hinv', -⟩ := hinv.bury hc hdead hinvalid
      { c with status := .dead, userId := 0 } r.aliveThreads r.runningThreads
      (by simp [Context.isAlive, hfinished]) (by simp [Context.isRunning, hfinished]) rfl rfl rfl
    refine ⟨r', true, ?_, hinv', by simp [halive]⟩
    unfold Context.setJoined
    rw [check_ok hdetached, ok_bind, check_ok hfinished, ok_bind]
    show (Registry.quarantinePush cfg _ tid >>= _) = _
    rw [hpush]
    rfl
  · rw [if_neg hdestroyed, if_neg fun hboth => hdestroyed hboth.2]
    exact ⟨r, false, rfl, hinv, fun _ => ⟨rfl, rfl⟩⟩

theorem Inv.setDestroyed (hinv : Inv cfg r h) (hc : r.threads[tid]? = some c)
    (halive : c.isAlive = false) (hmem : tid ∉ r.invalidThreads) :
    Inv cfg (r.set tid c.setDestroyed) h := by
  obtain ⟨hcounts, hq⟩ := hinv
  refine ⟨hcounts.keep hc rfl rfl rfl rfl (hcounts.idle tid c hc) rfl, ?_⟩
  refine hq.replace hc (fun hdead => ?_) hmem rfl rfl rfl rfl (fun h' => ?_) (hq.reuse tid c hc)
    (hq.handed tid c hc) fun _ _ => rfl
  · obtain ⟨-, c₁, hc₁, hstatus⟩ := hq.dead_mem tid hdead
    rw [hc] at hc₁
    exact Option.some.inj hc₁ ▸ hstatus
  · exact absurd (halive.symm.trans h') (by simp)

/-- The step after which a context that is queued for reuse can have its flag set: `FinishThread` of a
thread that dies there, without a quarantine, unless the context is retired. -/
def Registry.Reuses (cfg : Config) (r : Registry) (tid : ℕ) : Prop :=
  cfg.threadQuarantineSize = 0 ∧ tid ≠ 0 ∧ ∃ c, r.threads[tid]? = some c ∧
    (c.detached = true ∨ c.status = .created) ∧ ¬c.Retires cfg

/-- `FinishThread`. -/
theorem Inv.finishThread (hinv : Inv cfg r h) (hc : r.threads[tid]? = some c)
    (hstatus : c.status = .created ∨ c.status = .running) (hsafe : ¬r.Reuses cfg tid) :
    ∃ r', r.finishThread cfg tid = .ok (r', c.status) ∧
      Inv cfg r' (if c.detached = true ∨ c.status = .created then h.die tid else h) := by
  have halive : c.isAlive = true := by simpa [Context.isAlive] using hstatus
  have hdead : c.status ≠ .dead := by rcases hstatus with hs | hs <;> simp [hs]
  have hinvalid : c.status ≠ .invalid := by rcases hstatus with hs | hs <;> simp [hs]
  obtain ⟨hbound, -⟩ := List.getElem?_eq_some_iff.mp hc
  have hmem : c ∈ r.threads := List.mem_of_getElem? hc
  have hpos : r.aliveThreads > 0 := by
    rw [hinv.counts.alive]
    exact List.countP_pos_iff.mpr ⟨c, hmem, halive⟩
  -- the counters
  obtain ⟨running, hleave, hrunning⟩ : ∃ running,
      ({ r with aliveThreads := r.aliveThreads - 1 } : Registry).leave c = .ok
        (({ r with aliveThreads := r.aliveThreads - 1, runningThreads := running } : Registry),
          decide (c.detached = true ∨ c.status = .created)) ∧
      running + (if c.isRunning then 1 else 0) = r.runningThreads := by
    unfold Registry.leave
    rcases hstatus with hs | hs
    · refine ⟨r.runningThreads, ?_, by simp [Context.isRunning, hs]⟩
      rw [if_neg (by simp [hs]), check_ok hs, ok_bind]
      simp [hs]
      rfl
    · have hrun : r.runningThreads > 0 := by
        rw [hinv.counts.running]
        exact List.countP_pos_iff.mpr ⟨c, hmem, by simp [Context.isRunning, hs]⟩
      refine ⟨r.runningThreads - 1, ?_, by simp [Context.isRunning, hs]; omega⟩
      rw [if_pos hs, check_ok hrun, ok_bind]
      simp [hs]
      rfl
  have hget : ({ r with aliveThreads := r.aliveThreads - 1 } : Registry).get tid = .ok c :=
    Registry.get_ok hc
  unfold Registry.finishThread
  rw [check_ok hpos, ok_bind]
  dsimp only
  rw [hget, ok_bind, hleave, ok_bind]
  dsimp only
  by_cases hdies : c.detached = true ∨ c.status = .created
  · rw [if_pos hdies, if_pos (decide_eq_true hdies)]
    have huser : c.setFinished.userId = c.userId := by
      unfold Context.setFinished
      split <;> rfl
    have hready : c.setFinished.status = .running ∨ c.setFinished.status = .finished := by
      unfold Context.setFinished
      split
      · exact Or.inr rfl
      · rename_i hkeep
        exact Or.inl (hstatus.resolve_left fun hs => hkeep (Or.inr hs))
    obtain ⟨r', c₁, hpush, hinv', hc₁, halive₁, hreuse⟩ := hinv.bury hc hdead hinvalid
      { c.setFinished with status := .dead, userId := 0 } (r.aliveThreads - 1) running
      (by rw [halive, if_pos rfl]; omega) hrunning rfl rfl
      (by unfold Context.setFinished; split <;> rfl)
    have hout : tid ∉ r'.invalidThreads := by
      intro hqueued
      obtain ⟨hnone, hzero, hretires⟩ := hreuse hqueued
      exact hsafe ⟨hnone, hzero, c, hc, hdies, hretires⟩
    refine ⟨_, ?_, hinv'.setDestroyed hc₁ halive₁ hout⟩
    unfold Registry.kill Context.setDead
    rw [check_ok hready, ok_bind, huser]
    show (Registry.quarantinePush cfg _ tid >>= _) = _
    rw [hpush, ok_bind, Registry.get_ok hc₁, ok_bind]
    rfl
  · rw [if_neg hdies, if_neg (by simpa using hdies), ok_bind]
    rw [not_or] at hdies
    have hs : c.status = .running := hstatus.resolve_left hdies.2
    have hfinished : c.setFinished = { c with status := .finished } :=
      if_pos (Or.inl (by simpa using hdies.1))
    rw [hfinished]
    have hget' : (({ r with aliveThreads := r.aliveThreads - 1, runningThreads := running } :
        Registry).set tid { c with status := .finished }).get tid =
          .ok { c with status := .finished } := Registry.get_ok (List.getElem?_set_self hbound)
    rw [hget', ok_bind]
    refine ⟨_, rfl, ?_⟩
    refine hinv.replace hc { c with status := .finished, threadDestroyed := true } hdead hinvalid
      (by simp) (by simp) rfl (by simp [Context.isAlive]) (List.set_set _) ?_ ?_ ?_
      (hinv.counts.live_same (c := c) hc) (Or.inr (Or.inl rfl)) rfl
    · show r.aliveThreads - 1 + _ = _
      rw [halive, if_pos rfl]
      simp [Context.isAlive]
      omega
    · have := hinv.counts.alive_le
      show r.aliveThreads - 1 ≤ _
      omega
    · show running + _ = _
      simp only [Context.isRunning] at hrunning ⊢
      simpa using hrunning

/-- `QuarantinePop`, or a new context: one that is in none of the lists. -/
theorem Inv.allocate (hinv : Inv cfg r h) :
    (∃ r' tid c, r.allocate cfg = .ok (r', tid) ∧ Inv cfg r' h ∧ r'.threads[tid]? = some c ∧
      c.status = .invalid ∧ c.threadDestroyed = false ∧
      (0 < cfg.maxReuse → c.reuseCount < cfg.maxReuse) ∧ tid ∉ r'.invalidThreads ∧
      (0 < h.handed tid → h.Aged tid cfg.threadQuarantineSize) ∧ r'.live = r.live) ∨
    r.allocate cfg = .error .die ∧ r.invalidThreads = [] ∧ cfg.maxThreads ≤ r.threads.length := by
  obtain ⟨hcounts, hq⟩ := hinv
  unfold Registry.allocate
  cases hlist : r.invalidThreads with
  | cons tid rest =>
    have hmem : tid ∈ r.invalidThreads := hlist ▸ List.mem_cons_self
    obtain ⟨c, hc, hstatus, hdestroyed, hreuse⟩ := hq.invalid_mem tid hmem
    obtain ⟨hnot, hnodup⟩ := List.nodup_cons.mp (hlist ▸ hq.invalid_nodup)
    have hsub : ∀ t ∈ rest, t ∈ r.invalidThreads := fun t ht => hlist ▸ List.mem_cons_of_mem tid ht
    refine Or.inl ⟨_, tid, c, rfl, ⟨?_, ?_⟩, hc, hstatus, hdestroyed, hreuse, hnot,
      fun _ => hq.aged tid hmem, rfl⟩
    · exact ⟨hcounts.alive, hcounts.running, hcounts.maxAlive, hcounts.alive_le, hcounts.live_iff,
        hcounts.idle, hcounts.ids_lt, hcounts.ids_gt⟩
    · exact ⟨hq.length_le, hq.dead_mem, hq.dead_nodup, hq.dead_length,
        fun t ht => hq.invalid_mem t (hsub t ht), hnodup, hq.order, fun t ht => hq.aged t (hsub t ht),
        hq.destroyed, hq.reuse, hq.handed, hq.handed_new⟩
  | nil =>
    dsimp only
    by_cases hroom : r.threads.length < cfg.maxThreads
    · rw [if_pos hroom]
      have hnew : (r.threads ++ [Context.new])[r.threads.length]? = some Context.new :=
        List.getElem?_concat_length
      -- what holds of the old contexts and of the new one
      have hall : ∀ {P : ℕ → Context → Prop}, (∀ t c, r.threads[t]? = some c → P t c) →
          P r.threads.length Context.new →
          ∀ t c, (r.threads ++ [Context.new])[t]? = some c → P t c := by
        intro P hold hlast t c hc
        by_cases ht : t < r.threads.length
        · rw [List.getElem?_append_left ht] at hc
          exact hold t c hc
        · obtain ⟨hlt, -⟩ := List.getElem?_eq_some_iff.mp hc
          rw [List.length_append, List.length_singleton] at hlt
          obtain rfl : t = r.threads.length := by omega
          rw [hnew] at hc
          exact Option.some.inj hc ▸ hlast
      have hkeep : ∀ (t : ℕ) (c : Context), r.threads[t]? = some c →
          (r.threads ++ [Context.new])[t]? = some c := by
        intro t c hc
        obtain ⟨hlt, -⟩ := List.getElem?_eq_some_iff.mp hc
        rw [List.getElem?_append_left hlt, hc]
      have hzero : h.handed r.threads.length = 0 := hq.handed_new _ le_rfl
      refine Or.inl ⟨_, _, Context.new, rfl, ⟨?_, ?_⟩, hnew, rfl, rfl, id, by simp,
        fun hpos => absurd hzero hpos.ne', rfl⟩
      · refine ⟨?_, ?_, hcounts.maxAlive, hcounts.alive_le, ?_, hall hcounts.idle fun _ => rfl,
          hcounts.ids_lt, hcounts.ids_gt⟩
        · rw [hcounts.alive, List.countP_append]
          rfl
        · rw [hcounts.running, List.countP_append]
          rfl
        · intro u t
          rw [hcounts.live_iff]
          refine and_congr_right fun hu => ⟨?_, ?_⟩
          · rintro ⟨c, hc, rfl⟩
            exact ⟨c, hkeep t c hc, rfl⟩
          · rintro ⟨c, hc, rfl⟩
            revert hu
            exact hall (P := fun t c => c.userId ≠ 0 → ∃ c₁, r.threads[t]? = some c₁ ∧
              c₁.userId = c.userId) (fun t c hc _ => ⟨c, hc, rfl⟩) (fun hne => absurd rfl hne) t c hc
      · refine ⟨by simpa using hroom, ?_, hq.dead_nodup, hq.dead_length, by simp, by simp, hq.order,
          by simp, hall hq.destroyed fun _ => rfl, hall hq.reuse ?_, hall hq.handed hzero, ?_⟩
        · intro t ht
          obtain ⟨hne, c, hc, hstatus⟩ := hq.dead_mem t ht
          exact ⟨hne, c, hkeep t c hc, hstatus⟩
        · exact fun _ => ⟨Nat.zero_le _, fun hne => absurd rfl hne⟩
        · intro t ht
          simp only [List.length_append, List.length_singleton] at ht
          exact hq.handed_new t (by omega)
    · rw [if_neg hroom]
      exact Or.inr ⟨rfl, rfl, not_lt.mp hroom⟩

theorem Counts.addAlive (hcounts : Counts r h) : r.addAlive = .ok { r with
    aliveThreads := r.aliveThreads + 1
    maxAliveThreads := max r.maxAliveThreads (r.aliveThreads + 1) } := by
  have hle := hcounts.alive_le
  unfold Registry.addAlive
  dsimp only
  by_cases hnew : r.maxAliveThreads < r.aliveThreads + 1
  · have heq : r.aliveThreads + 1 = r.maxAliveThreads + 1 := by omega
    rw [if_pos hnew, check_ok heq, ok_bind, ← heq, max_eq_right hnew.le]
    rfl
  · rw [if_neg hnew, max_eq_left (not_lt.mp hnew)]
    rfl

theorem Registry.addLive_ok {userId : ℕ} (tid : ℕ) (hfresh : userId = 0 ∨ r.live userId = none) :
    ∃ live, r.addLive userId tid = .ok { r with live := live } ∧
      ∀ u, live u = if u = userId ∧ u ≠ 0 then some tid else r.live u := by
  unfold Registry.addLive
  by_cases hzero : userId = 0
  · refine ⟨r.live, if_neg (not_not_intro hzero), fun u => ?_⟩
    rw [if_neg (by rw [hzero]; exact fun hu => hu.2 hu.1)]
  · refine ⟨Function.update r.live userId (some tid), ?_, fun u => ?_⟩
    · rw [if_pos hzero]
      unfold Registry.emplaceLive
      rw [check_ok (hfresh.resolve_left hzero), ok_bind]
      rfl
    · rw [Function.update_apply]
      by_cases hu : u = userId
      · simp [hu, hzero]
      · simp [hu]

/-- `SetCreated` of a context that is in none of the lists. -/
theorem Inv.setCreated {c' : Context} (hinv : Inv cfg r h) (hc : r.threads[tid]? = some c)
    (hstatus : c.status = .invalid) (hmem : tid ∉ r.invalidThreads)
    (hdestroyed : c.threadDestroyed = false) (hreuse : 0 < cfg.maxReuse → c.reuseCount < cfg.maxReuse)
    (hfresh : c'.userId = 0 ∨ r.live c'.userId = none) (hstatus' : c'.status = .created)
    (hunique : c'.uniqueId = r.totalThreads) (hdestroyed' : c'.threadDestroyed = c.threadDestroyed)
    (hreuse' : c'.reuseCount = c.reuseCount)
    (hthreads : r'.threads = r.threads.set tid c')
    (hcount : (r'.aliveThreads, r'.maxAliveThreads, r'.totalThreads) = (r.aliveThreads + 1,
      max r.maxAliveThreads (r.aliveThreads + 1), r.totalThreads + 1))
    (hlive : ∀ u, r'.live u = if u = c'.userId ∧ u ≠ 0 then some tid else r.live u)
    (hsame : (r'.runningThreads, r'.deadThreads, r'.invalidThreads) =
      (r.runningThreads, r.deadThreads, r.invalidThreads)) :
    Inv cfg r' { h.hand r' tid with
      maxAlive := max h.maxAlive (r'.threads.countP Context.isAlive) } := by
  obtain ⟨hcounts, hq⟩ := hinv
  obtain ⟨hbound, -⟩ := List.getElem?_eq_some_iff.mp hc
  simp only [Prod.mk.injEq] at hcount hsame
  obtain ⟨ha, hm, ht⟩ := hcount
  obtain ⟨hr, hd, hi⟩ := hsame
  have hself : r'.threads[tid]? = some c' := by rw [hthreads, List.getElem?_set_self hbound]
  have hzero := hcounts.idle tid c hc (Or.inr hstatus)
  have hids : (h.hand r' tid).ids = r.totalThreads :: h.ids := by
    rw [History.hand, hself, Option.map_some, hunique]
    rfl
  have halive : r'.threads.countP Context.isAlive = r.aliveThreads + 1 := by
    have hset := countP_set_add Context.isAlive hc c'
    rw [hthreads, hcounts.alive]
    simpa [Context.isAlive, hstatus, hstatus'] using hset
  constructor
  · refine hcounts.replace hc hthreads ?_ ?_ ?_ ?_ ?_ (hfresh.imp_right Or.inr) ?_ ?_ ?_
    · simp [Context.isAlive, hstatus, hstatus', ha]
    · simp [Context.isRunning, hstatus, hstatus', hr]
    · rw [hm, halive, hcounts.maxAlive]
    · rw [ha, hm]
      exact le_max_right _ _
    · intro u
      rw [hlive u]
      by_cases hu : u = c.userId
      · have hnone : r.live 0 = none := by
          have hid := hcounts.live_userId hc
          rwa [hzero, if_pos rfl] at hid
        simp [hu, hzero, hnone]
      · rw [if_neg hu]
    · rintro (hdead | hinvalid)
      · simp [hstatus'] at hdead
      · simp [hstatus'] at hinvalid
    · intro i hi
      rw [ht]
      change i ∈ (h.hand r' tid).ids at hi
      rw [hids] at hi
      rcases List.mem_cons.mp hi with rfl | hi
      · exact Nat.lt_succ_self _
      · exact (hcounts.ids_lt i hi).trans (Nat.lt_succ_self _)
    · show (h.hand r' tid).ids.Pairwise (· > ·)
      rw [hids]
      exact List.pairwise_cons.mpr ⟨hcounts.ids_lt, hcounts.ids_gt⟩
  · refine hq.replace hc (fun hmem' => ?_) hmem hthreads hd hi rfl (fun _ => hdestroyed'.trans hdestroyed)
      (fun hpos => ?_) ?_ fun t hne => Function.update_of_ne hne _ _
    · exact absurd hmem' ((hq.notMem hc).1 (by simp [hstatus]))
    · rw [hreuse']
      exact ⟨(hreuse hpos).le, fun _ => hreuse hpos⟩
    · show Function.update h.handed tid (h.handed tid + 1) tid = _
      rw [Function.update_self, hq.handed tid c hc, hreuse', hstatus, hstatus']
      rfl

/-- `CreateThread`: it stops only at the limit of threads. -/
theorem Inv.createThread (hinv : Inv cfg r h) {userId : ℕ}
    (hlegal : userId = 0 ∨ r.live userId = none) (detached : Bool) (parentTid stackId : ℕ) :
    (∃ r' tid, r.createThread cfg userId detached parentTid stackId = .ok (r', tid) ∧
      Inv cfg r' { h.hand r' tid with
        maxAlive := max h.maxAlive (r'.threads.countP Context.isAlive) } ∧
      (0 < h.handed tid → h.Aged tid cfg.threadQuarantineSize) ∧
      ∃ c, r'.threads[tid]? = some c ∧ c.status = .created) ∨
    r.createThread cfg userId detached parentTid stackId = .error .die ∧ r.invalidThreads = [] ∧
      cfg.maxThreads ≤ r.threads.length := by
  unfold Registry.createThread
  rcases hinv.allocate with ⟨r₁, tid, c, halloc, hinv₁, hc, hstatus, hdestroyed, hreuse, hmem, haged,
    hlive₁⟩ | ⟨hdie, hempty, hfull⟩
  · obtain ⟨hbound, -⟩ := List.getElem?_eq_some_iff.mp hc
    have hlt : tid < cfg.maxThreads := hbound.trans_le hinv₁.queues.length_le
    have hvalid : tid ≠ kInvalidTid := by
      have := cfg.maxThreads_lt
      unfold kInvalidTid
      omega
    obtain ⟨live, hadd, hlive⟩ := Registry.addLive_ok tid (r := { r₁ with
      aliveThreads := r₁.aliveThreads + 1
      maxAliveThreads := max r₁.maxAliveThreads (r₁.aliveThreads + 1) })
      (hlegal.imp_right fun hnone => hlive₁ ▸ hnone)
    have hfields : ∀ total, (c.setCreated tid userId total detached parentTid stackId).status =
          .created ∧
        (c.setCreated tid userId total detached parentTid stackId).userId = userId ∧
        (c.setCreated tid userId total detached parentTid stackId).uniqueId = total ∧
        (c.setCreated tid userId total detached parentTid stackId).threadDestroyed =
          c.threadDestroyed ∧
        (c.setCreated tid userId total detached parentTid stackId).reuseCount = c.reuseCount := by
      intro total
      unfold Context.setCreated
      dsimp only
      split <;> exact ⟨rfl, rfl, rfl, rfl, rfl⟩
    obtain ⟨hs', hu', hid', hd', hr'⟩ := hfields r₁.totalThreads
    rw [halloc, ok_bind]
    dsimp only
    rw [Registry.get_ok hc, ok_bind, check_ok hvalid, ok_bind, check_ok hlt, ok_bind, check_ok hstatus,
      ok_bind, hinv₁.counts.addAlive, ok_bind, hadd, ok_bind]
    refine Or.inl ⟨_, tid, rfl, ?_, haged, _, List.getElem?_set_self hbound, hs'⟩
    refine hinv₁.setCreated hc hstatus hmem hdestroyed hreuse ?_ hs' hid' hd' hr' rfl rfl ?_ rfl
    · rw [hu', hlive₁]
      exact hlegal
    · rw [hu']
      exact hlive
  · rw [hdie]
    exact Or.inr ⟨rfl, hempty, hfull⟩

/-! ## Runs -/

theorem Inv.init : Inv cfg Registry.init History.init where
  counts := ⟨rfl, rfl, rfl, le_rfl, by simp [Registry.init], by simp [Registry.init],
    by simp [History.init], List.Pairwise.nil⟩
  queues := ⟨Nat.zero_le _, by simp [Registry.init], List.nodup_nil, Nat.zero_le _,
    by simp [Registry.init], List.nodup_nil, by simp [Registry.init], by simp [Registry.init],
    by simp [Registry.init], by simp [Registry.init], by simp [Registry.init], fun _ _ => rfl⟩

theorem Inv.settle {d : Option ℕ} (hinv : Inv cfg r (d.elim h h.die)) :
    Inv cfg r { h with
      maxAlive := max h.maxAlive (r.threads.countP Context.isAlive)
      deaths := h.deaths ++ d.toList } := by
  have hmax : (d.elim h h.die).maxAlive = h.maxAlive := by cases d <;> rfl
  have hle : r.threads.countP Context.isAlive ≤ h.maxAlive := by
    rw [← hinv.counts.alive, ← hmax, ← hinv.counts.maxAlive]
    exact hinv.counts.alive_le
  rw [max_eq_left hle]
  cases d with
  | none =>
    rw [Option.toList_none, List.append_nil]
    exact hinv
  | some tid => exact hinv

/-- A step after which the flags and the lists of contexts still agree. -/
def Registry.Safe (cfg : Config) (r : Registry) (op : Op) : Prop :=
  ∀ tid, op = .finishThread tid → ¬r.Reuses cfg tid

/-- A legal and safe operation passes every `CHECK` and keeps the invariant, unless it is `CreateThread`
at the limit of threads. -/
theorem Inv.step (hinv : Inv cfg r h) {op : Op} (hlegal : r.Legal op) (hsafe : r.Safe cfg op) :
    (∃ r' res, r.step cfg op = .ok (r', res) ∧ Inv cfg r' (h.record r r' op res)) ∨
    r.step cfg op = .error .die ∧ (∃ u d p k, op = .createThread u d p k) ∧
      r.invalidThreads = [] ∧ cfg.maxThreads ≤ r.threads.length := by
  cases op with
  | createThread userId detached parentTid stackId =>
    rcases hinv.createThread hlegal detached parentTid stackId with
      ⟨r', tid, hcreate, hinv', -⟩ | ⟨hdie, hrest⟩
    · refine Or.inl ⟨r', .tid tid, by rw [Registry.step, hcreate]; rfl, ?_⟩
      unfold History.record Registry.dies
      rw [Option.toList_none, List.append_nil]
      exact hinv'
    · exact Or.inr ⟨by rw [Registry.step, hdie]; rfl, ⟨_, _, _, _, rfl⟩, hrest⟩
  | startThread tid osId threadType =>
    obtain ⟨c, hc, hstatus⟩ := hlegal
    obtain ⟨r', hstart, hinv'⟩ := hinv.startThread hc hstatus osId threadType
    exact Or.inl ⟨r', .unit, by rw [Registry.step, hstart]; rfl, Inv.settle (d := none) hinv'⟩
  | finishThread tid =>
    obtain ⟨c, hc, hstatus⟩ := hlegal
    obtain ⟨r', hfinish, hinv'⟩ := hinv.finishThread hc hstatus (hsafe tid rfl)
    refine Or.inl ⟨r', .status c.status, by rw [Registry.step, hfinish]; rfl, Inv.settle ?_⟩
    rw [Registry.dies, hc, Option.bind_some, apply_ite (fun d => Option.elim d h h.die)]
    exact hinv'
  | joinThread tid =>
    obtain ⟨c, hc, hstatus⟩ := hlegal
    obtain ⟨r', last, hjoin, hinv', -⟩ := hinv.joinThread hc hstatus
    refine Or.inl ⟨r', .joined last, by rw [Registry.step, hjoin]; rfl, Inv.settle ?_⟩
    rw [Registry.dies, hc, Option.bind_some, apply_ite (fun d => Option.elim d h h.die)]
    exact hinv'
  | detachThread tid =>
    obtain ⟨c, hc, hstatus⟩ := hlegal
    obtain ⟨r', hdetach, hinv'⟩ := hinv.detachThread hc hstatus
    refine Or.inl ⟨r', .unit, by rw [Registry.step, hdetach]; rfl, Inv.settle ?_⟩
    rw [Registry.dies, hc, Option.bind_some, apply_ite (fun d => Option.elim d h h.die)]
    exact hinv'
  | setThreadUserId tid userId =>
    obtain ⟨hne, hfresh, c, hc, hinvalid, hdead, hzero⟩ := hlegal
    obtain ⟨r', hset, hinv'⟩ := hinv.setThreadUserId hc hfresh hinvalid hdead hzero hne
    exact Or.inl ⟨r', .unit, by rw [Registry.step, hset]; rfl, Inv.settle (d := none) hinv'⟩
  | consumeThreadUserId userId =>
    obtain ⟨tid, hlive⟩ := Option.ne_none_iff_exists'.mp hlegal
    obtain ⟨r', hconsume, hinv'⟩ := hinv.consumeThreadUserId hlive
    exact Or.inl ⟨r', .tid tid, by rw [Registry.step, hconsume]; rfl, Inv.settle (d := none) hinv'⟩
  | onFork tid =>
    obtain ⟨r', n, hfork, hinv'⟩ := hinv.onFork tid
    exact Or.inl ⟨r', .alive n, by rw [Registry.step, hfork]; rfl, Inv.settle (d := none) hinv'⟩

theorem Run.inv {legal : Registry → Op → Prop} (hrun : Run cfg legal r h)
    (hlegal : ∀ r h op, Inv cfg r h → legal r op → r.Legal op ∧ r.Safe cfg op) : Inv cfg r h := by
  induction hrun with
  | init => exact Inv.init
  | step _ hop hstep ih =>
    obtain ⟨hl, hs⟩ := hlegal _ _ _ ih hop
    rcases ih.step hl hs with ⟨r', res, hstep', hinv'⟩ | ⟨hdie, -⟩
    · rw [hstep] at hstep'
      obtain ⟨rfl, rfl⟩ := Prod.mk.inj (Except.ok.inj hstep')
      exact hinv'
    · rw [hstep] at hdie
      exact absurd hdie (by simp)

theorem Inv.safe (hinv : Inv cfg r h)
    (hcfg : 1 ≤ cfg.threadQuarantineSize ∨ cfg.maxReuse = 1 ∨ cfg.maxThreads ≤ 1) (op : Op) :
    r.Safe cfg op := by
  rintro tid - ⟨hnone, hzero, c, hc, -, hretires⟩
  obtain ⟨hbound, -⟩ := List.getElem?_eq_some_iff.mp hc
  have hlength := hinv.queues.length_le
  rcases hcfg with hq | hreuse | hthreads
  · omega
  · exact hretires ⟨by omega, by omega⟩
  · omega

/-- The flag of a thread that is created or running is not set, `CreateThread` returns such a context,
and `JoinThread` passes its `CHECK`s: on a thread that is created or running it waits. -/
structure Registry.FlagsAgree (cfg : Config) (r : Registry) : Prop where
  flags : ∀ (t : ℕ) (c : Context), r.threads[t]? = some c → c.isAlive = true →
    c.threadDestroyed = false
  create : ∀ u d p k r' t, r.Legal (.createThread u d p k) →
    r.step cfg (.createThread u d p k) = .ok (r', .tid t) →
    ∃ c, r'.threads[t]? = some c ∧ c.status = .created ∧ c.threadDestroyed = false
  join : ∀ t, r.Legal (.joinThread t) → ∃ r' last,
    r.step cfg (.joinThread t) = .ok (r', .joined last) ∧
    ((∃ c, r.threads[t]? = some c ∧ c.isAlive = true) → last = false ∧ r' = r)

theorem Inv.flagsAgree (hinv : Inv cfg r h) : r.FlagsAgree cfg where
  flags := hinv.queues.destroyed
  create := by
    intro u d p k r' t hlegal hstep
    rcases hinv.createThread hlegal d p k with ⟨r₁, t₁, hcreate, hinv', -, c, hc, hs⟩ | ⟨hdie, -⟩
    · rw [Registry.step, hcreate] at hstep
      obtain ⟨rfl, heq⟩ := Prod.mk.inj (Except.ok.inj hstep)
      obtain rfl := Res.tid.inj heq
      exact ⟨c, hc, hs, hinv'.queues.destroyed _ c hc (by simp [Context.isAlive, hs])⟩
    · rw [Registry.step, hdie] at hstep
      exact absurd hstep (by simp [Except.map])
  join := by
    rintro t ⟨c, hc, hlegal⟩
    obtain ⟨r', last, hjoin, -, hwait⟩ := hinv.joinThread hc hlegal
    refine ⟨r', last, by rw [Registry.step, hjoin]; rfl, ?_⟩
    rintro ⟨c₁, hc₁, halive⟩
    rw [hc] at hc₁
    exact hwait (Option.some.inj hc₁ ▸ halive)

theorem Run.next {legal : Registry → Op → Prop} (hrun : Run cfg legal r h) (op : Op) (r' : Registry)
    (res : Res) (hlegal : legal r op) (hstep : r.step cfg op = .ok (r', res)) :
    Run cfg legal r' (h.record r r' op res) :=
  hrun.step hlegal hstep

/-- Without a quarantine a context whose thread never started is handed out again with its flag set, and
`JoinThread` of the new thread fails a `CHECK`. -/
theorem run_reuses (hnone : cfg.threadQuarantineSize = 0) (hreuse : cfg.maxReuse ≠ 1)
    (hthreads : 1 < cfg.maxThreads) : ∃ r h c, Run cfg Registry.Legal r h ∧ r.threads[1]? = some c ∧
      c.status = .created ∧ c.threadDestroyed = true ∧ r.Legal (.joinThread 1) ∧
      r.step cfg (.joinThread 1) = .error .check := by
  have hpos : 0 < cfg.maxThreads := by omega
  have hkeep : ¬(0 < cfg.maxReuse ∧ cfg.maxReuse ≤ 1) := by omega
  obtain ⟨c₀, hc₀⟩ : ∃ c₀, c₀ = Context.new.setCreated 0 0 0 false 0 0 := ⟨_, rfl⟩
  obtain ⟨c₁, hc₁⟩ : ∃ c₁, c₁ = Context.new.setCreated 1 0 1 false 0 0 := ⟨_, rfl⟩
  have h₀ : Run cfg Registry.Legal Registry.init History.init := Run.init
  have h₁ := h₀.next (.createThread 0 false 0 0) ⟨1, 1, 1, 0, [c₀], [], [], fun _ => none⟩ (.tid 0)
    (Or.inl rfl) (by
      simp [Registry.step, Registry.createThread, Registry.allocate, Registry.init, Registry.get, check,
        Registry.addAlive, Registry.addLive, kInvalidTid, hpos, Except.map, bind, Except.bind, pure,
        Except.pure, Context.new, Registry.set, hc₀])
  have h₂ := h₁.next (.createThread 0 false 0 0) ⟨2, 2, 2, 0, [c₀, c₁], [], [], fun _ => none⟩ (.tid 1)
    (Or.inl rfl) (by
      simp [Registry.step, Registry.createThread, Registry.allocate, Registry.get, check,
        Registry.addAlive, Registry.addLive, kInvalidTid, hthreads, Except.map, bind, Except.bind, pure,
        Except.pure, Context.new, Registry.set, hc₁])
  -- the context is reset and queued for reuse, and then its flag is set
  have h₃ := h₂.next (.finishThread 1) ⟨2, 1, 2, 0,
      [c₀, { c₁ with status := .invalid, reuseCount := 1, threadDestroyed := true }], [], [1],
      fun _ => none⟩ (.status .created)
    ⟨c₁, rfl, Or.inl (by simp [hc₁, Context.setCreated])⟩ (by
      simp [Registry.step, Registry.finishThread, Registry.leave, Registry.kill, Context.setFinished,
        Registry.eraseLive, Context.setDead, Registry.quarantinePush, hnone, hkeep, Context.reset,
        Context.setDestroyed, Context.setCreated, Registry.get, check, Except.map, bind, Except.bind, pure,
        Except.pure, Context.new, Registry.set, hc₁])
  have h₄ := h₃.next (.createThread 0 false 0 0) ⟨3, 2, 2, 0,
      [c₀, { c₁ with uniqueId := 2, reuseCount := 1, threadDestroyed := true }], [], [],
      fun _ => none⟩ (.tid 1) (Or.inl rfl) (by
      simp [Registry.step, Registry.createThread, Registry.allocate, Registry.get, check,
        Registry.addAlive, Registry.addLive, kInvalidTid, hthreads, Except.map, bind, Except.bind, pure,
        Except.pure, Context.setCreated, Context.new, Registry.set, hc₁])
  refine ⟨_, _, _, h₄, rfl, by simp [hc₁, Context.setCreated], rfl,
    ⟨_, rfl, Or.inr (by simp [hc₁, Context.setCreated])⟩, ?_⟩
  simp [Registry.step, Registry.joinThread, Registry.get, Context.setJoined, check,
    Except.map, bind, Except.bind, Context.setCreated, hc₁]

/-- The flag is right in every run whose steps are safe. It is so in every legal run if and only if there
is a quarantine, or each context is used only once, or there is only the main thread. -/
theorem threadDestroyed_runs (cfg : Config) :
    (∀ r h, Run cfg (fun r op => r.Legal op ∧ r.Safe cfg op) r h → r.FlagsAgree cfg) ∧
    ((∀ r h, Run cfg Registry.Legal r h → r.FlagsAgree cfg) ↔
      1 ≤ cfg.threadQuarantineSize ∨ cfg.maxReuse = 1 ∨ cfg.maxThreads ≤ 1) := by
  refine ⟨fun r h hrun => (hrun.inv fun _ _ _ _ hop => hop).flagsAgree, ?_, ?_⟩
  · intro hall
    by_contra hcfg
    simp only [not_or, not_le] at hcfg
    obtain ⟨hnone, hreuse, hthreads⟩ := hcfg
    obtain ⟨r, h, c, hrun, hc, hs, hdestroyed, -⟩ := run_reuses (by omega) hreuse hthreads
    have hflag := (hall r h hrun).flags 1 c hc (by simp [Context.isAlive, hs])
    rw [hdestroyed] at hflag
    exact absurd hflag (by simp)
  · intro hcfg r h hrun
    exact (hrun.inv fun _ _ op hinv hlegal => ⟨hlegal, hinv.safe hcfg op⟩).flagsAgree

end Operations

/-- The same with four threads at most, no quarantine and no limit of reuse. -/
theorem threadDestroyed_no_quarantine : ∃ r h c,
    Run ⟨4, 0, 0, by decide⟩ Registry.Legal r h ∧ r.threads[1]? = some c ∧ c.status = .created ∧
      c.threadDestroyed = true ∧ r.Legal (.joinThread 1) ∧
      r.step ⟨4, 0, 0, by decide⟩ (.joinThread 1) = .error .check :=
  run_reuses rfl (by decide) (by decide)

end Tasan.ThreadRegistry
