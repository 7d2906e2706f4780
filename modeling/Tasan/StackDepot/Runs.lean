import Tasan.StackDepot.Depot

/-!
# Runs of the stack depot

`State.depot` forgets the two-level map and the bits of the bucket words, and each access of a thread is
a step of `Depot` or is not seen there (`State.step_depot`). `TableInv` is what the map keeps: a pointer,
once stored, stays, and two indices have different arrays, because arrays are mapped under `mu_` only. The
main theorem is `stackDepot_runs`; that ids do not tell apart what is no stack is `put_invalid_same`.
-/

namespace Tasan.StackDepot

variable {T Args : Type}

/-! ## Bucket words -/

section Words

variable (P : Params Args)

theorem Params.kIdSizeLog_lt : P.kIdSizeLog < 32 := by
  unfold Params.kIdSizeLog
  omega

theorem Params.two_pow_dvd : 2^P.kIdSizeLog ∣ 2^32 := pow_dvd_pow 2 P.kIdSizeLog_lt.le

theorem Params.kLockMask_eq : P.kLockMask = 2^32 - 2^P.kIdSizeLog := by
  have h := Nat.one_le_two_pow (n := P.kIdSizeLog)
  unfold Params.kLockMask Word.compl Params.kUnlockMask
  omega

theorem Params.and_kUnlockMask (v : ℕ) : v &&& P.kUnlockMask = v % 2^P.kIdSizeLog :=
  Nat.and_two_pow_sub_one_eq_mod v P.kIdSizeLog

theorem Params.or_kLockMask {v : ℕ} (h : v < 2^P.kIdSizeLog) : v ||| P.kLockMask = v + P.kLockMask := by
  obtain ⟨m, hm⟩ : 2^P.kIdSizeLog ∣ P.kLockMask := by
    rw [P.kLockMask_eq]
    exact Nat.dvd_sub P.two_pow_dvd dvd_rfl
  rw [hm, Nat.or_comm, ← Nat.two_pow_add_eq_or_of_lt h, Nat.add_comm]

theorem Params.add_kLockMask_mod (v : ℕ) : (v + P.kLockMask) % 2^P.kIdSizeLog = v % 2^P.kIdSizeLog := by
  obtain ⟨m, hm⟩ : 2^P.kIdSizeLog ∣ P.kLockMask := by
    rw [P.kLockMask_eq]
    exact Nat.dvd_sub P.two_pow_dvd dvd_rfl
  rw [hm, Nat.add_mul_mod_self_left]

theorem Params.le_kLockMask : 2^P.kIdSizeLog ≤ P.kLockMask := by
  have hle := Nat.pow_le_pow_right (n := 2) (by norm_num) (Nat.succ_le_of_lt P.kIdSizeLog_lt)
  rw [Nat.pow_succ] at hle
  rw [P.kLockMask_eq]
  omega

/-- A bucket word: an id, with or without the lock. -/
def Params.WordOk (v : ℕ) : Prop :=
  v < 2^P.kIdSizeLog ∨ ∃ id < 2^P.kIdSizeLog, v = id + P.kLockMask

theorem Params.WordOk.lt {v : ℕ} (h : P.WordOk v) (hv : v &&& P.kLockMask = 0) :
    v < 2^P.kIdSizeLog := by
  rcases h with h | ⟨id, hid, rfl⟩
  · exact h
  · have hlt : id + P.kLockMask < 2^32 := by
      rw [P.kLockMask_eq]
      have := Nat.pow_le_pow_right (n := 2) (by norm_num) P.kIdSizeLog_lt.le
      omega
    rw [P.kLockMask_eq, Word.and_compl_mask P.kIdSizeLog_lt.le (P.kLockMask_eq ▸ hlt),
      ← P.kLockMask_eq] at hv
    have hpos := Nat.one_le_two_pow (n := P.kIdSizeLog)
    have hdiv : 0 < (id + P.kLockMask) / 2^P.kIdSizeLog :=
      Nat.div_pos (P.le_kLockMask.trans (Nat.le_add_left _ _)) hpos
    exact absurd hv (Nat.mul_pos hdiv hpos).ne'

end Words

/-! ## The depot of a state -/

/-- The phase of an access to a node. -/
def Access.phase : Access Args → Phase Args
  | .find args locked s cur => .find args locked s cur
  | .store args s2 s => .store args s2 s
  | .get _ => .idle

/-- The phase of a thread. -/
def Pc.phase : Pc Args → Phase Args
  | .idle => .idle
  | .load args => .load args
  | .lockLoad args s => .locking args s
  | .lockCas args s _ => .locking args s
  | .fetchAdd args s2 => .fetchAdd args s2
  | .contains _ => .idle
  | .mapLoad acc => acc.phase
  | .mapLock acc => acc.phase
  | .mapGet acc => acc.phase
  | .mapStore acc => acc.phase
  | .mapUnlock acc _ => acc.phase
  | .use acc _ => acc.phase
  | .readLink args locked s cur _ => .link args locked s cur
  | .writeLink args s2 s _ => .writeLink args s2 s
  | .unlock args word id inserted => .unlock args word id inserted

@[simp] theorem phase_findLoop (args : Args) (locked : Bool) (s cur : ℕ) :
    (findLoop args locked s cur).phase = findPhase args locked s cur := by
  unfold findLoop findPhase
  split_ifs <;> rfl

/-- A node, through the two levels of the map. -/
def State.node (P : Params Args) (st : State T Args) (i : ℕ) : Node Args :=
  match st.map1 (i / P.kNodesSize2) with
  | none => {}
  | some p => st.arrays p (i % P.kNodesSize2)

/-- The depot without the map and the bits. -/
def State.depot (P : Params Args) (st : State T Args) : Depot T Args where
  head b := st.tab b % 2^P.kIdSizeLog
  locked b := decide (2^P.kIdSizeLog ≤ st.tab b)
  n := st.nUniqIds
  nodes := st.node P
  phases := Pc.phase ∘ st.pcs
  history := st.history

/-- The thread holds `mu_`. -/
def Pc.InMu : Pc Args → Prop
  | .mapGet _ => True
  | .mapStore _ => True
  | .mapUnlock _ _ => True
  | _ => False

/-- What a thread knows of the map. -/
def PcInv (P : Params Args) (map1 : ℕ → Option ℕ) : Pc Args → Prop
  | .lockCas _ _ cmp => cmp < 2^P.kIdSizeLog
  | .mapStore acc => map1 (acc.index / P.kNodesSize2) = none
  | .mapUnlock acc p => map1 (acc.index / P.kNodesSize2) = some p
  | .use acc p => map1 (acc.index / P.kNodesSize2) = some p
  | .readLink _ _ _ cur p => map1 (cur / P.kNodesSize2) = some p
  | .writeLink _ _ s p => map1 (s / P.kNodesSize2) = some p
  | _ => True

/-- The two-level map and the bucket words. -/
structure TableInv (P : Params Args) (st : State T Args) : Prop where
  /-- The ids fit into a bucket word. -/
  bound : st.nUniqIds < 2^P.kIdSizeLog
  /-- The bucket words. -/
  words : ∀ b, P.WordOk (st.tab b)
  /-- The pointers are of arrays that have been mapped. -/
  mapped : ∀ i p, st.map1 i = some p → p < st.mapped
  /-- Two indices have different arrays. -/
  inj : ∀ i j p, st.map1 i = some p → st.map1 j = some p → i = j
  /-- The holder of `mu_`. -/
  mu : ∀ t, (st.pcs t).InMu → st.mu = some t
  /-- The threads. -/
  pcs : ∀ t, PcInv P st.map1 (st.pcs t)

theorem PcInv.mono {P : Params Args} {map1 map1' : ℕ → Option ℕ}
    (h : ∀ i p, map1 i = some p → map1' i = some p) :
    ∀ {pc : Pc Args}, ¬ pc.InMu → PcInv P map1 pc → PcInv P map1' pc
  | .idle, _, _ => trivial
  | .load _, _, _ => trivial
  | .lockLoad _ _, _, _ => trivial
  | .lockCas _ _ _, _, hpc => hpc
  | .fetchAdd _ _, _, _ => trivial
  | .contains _, _, _ => trivial
  | .mapLoad _, _, _ => trivial
  | .mapLock _, _, _ => trivial
  | .mapGet _, hmu, _ => absurd trivial hmu
  | .mapStore _, hmu, _ => absurd trivial hmu
  | .mapUnlock _ _, hmu, _ => absurd trivial hmu
  | .use _ _, _, hpc => h _ _ hpc
  | .readLink _ _ _ _ _, _, hpc => h _ _ hpc
  | .writeLink _ _ _ _, _, hpc => h _ _ hpc
  | .unlock _ _ _ _, _, _ => trivial

theorem findLoop_not_inMu (args : Args) (locked : Bool) (s cur : ℕ) :
    ¬ (findLoop args locked s cur).InMu := by
  unfold findLoop
  split_ifs <;> exact fun h => h

theorem pcInv_findLoop (P : Params Args) (map1 : ℕ → Option ℕ) (args : Args) (locked : Bool)
    (s cur : ℕ) : PcInv P map1 (findLoop args locked s cur) := by
  unfold findLoop
  split_ifs <;> trivial

/-! ## Writes -/

section Writes

variable {P : Params Args} {st : State T Args} {t : T}

theorem TableInv.setTab (h : TableInv P st) {word : ℕ} (hw : P.WordOk word) (b : ℕ) :
    TableInv P (st.setTab b word) :=
  { h with
    words := fun b' => by
      change P.WordOk (Function.update st.tab b word b')
      by_cases hb : b' = b
      · rw [hb, Function.update_self]
        exact hw
      · rw [Function.update_of_ne hb]
        exact h.words b' }

theorem depot_setTab (b word : ℕ) : (st.setTab b word).depot P = { st.depot P with
    head := Function.update (st.depot P).head b (word % 2^P.kIdSizeLog)
    locked := Function.update (st.depot P).locked b (decide (2^P.kIdSizeLog ≤ word)) } := by
  unfold State.depot State.setTab
  congr 1 <;> funext b' <;> by_cases hb : b' = b <;> simp [hb]

theorem TableInv.setNode (h : TableInv P st) (p i : ℕ) (node : Node Args) :
    TableInv P (st.setNode p i node) :=
  { h with }

/-- The depot after a node has been stored. -/
theorem depot_setNode (h : TableInv P st) {s p : ℕ} (hp : st.map1 (s / P.kNodesSize2) = some p)
    (node : Node Args) :
    (st.setNode p (s % P.kNodesSize2) node).depot P = (st.depot P).setNode s node := by
  unfold State.depot Depot.setNode
  congr 1
  funext i
  unfold State.node State.setNode
  by_cases his : i = s
  · subst his
    simp [hp]
  · rw [Function.update_of_ne his]
    dsimp only
    cases hi : st.map1 (i / P.kNodesSize2) with
    | none => rfl
    | some q =>
      dsimp only
      by_cases hqp : q = p
      · subst hqp
        -- The same array, so that the index in it is another one.
        have hdiv := h.inj _ _ _ hi hp
        have hmod : i % P.kNodesSize2 ≠ s % P.kNodesSize2 := fun hmod => his (by
          rw [← Nat.div_add_mod i P.kNodesSize2, ← Nat.div_add_mod s P.kNodesSize2, hdiv, hmod])
        rw [Function.update_self, Function.update_of_ne hmod]
      · rw [Function.update_of_ne hqp]

theorem node_eq {s p : ℕ} (hp : st.map1 (s / P.kNodesSize2) = some p) :
    (st.depot P).nodes s = st.arrays p (s % P.kNodesSize2) := by
  change st.node P s = _
  rw [State.node, hp]

theorem TableInv.not_inMu (h : TableInv P st) (ht : (st.pcs t).InMu) {t' : T} (hne : t' ≠ t) :
    ¬ (st.pcs t').InMu := fun ht' =>
  hne (Option.some.inj ((h.mu t' ht').symm.trans (h.mu t ht)))

end Writes

/-! ## Steps -/

section Steps

variable [DecidableEq T] {P : Params Args} {st : State T Args} {t : T}

theorem forall_goto {p : T → Pc Args → Prop} {pcs : T → Pc Args} {pc : Pc Args} (ht : p t pc)
    (hother : ∀ t', t' ≠ t → p t' (pcs t')) : ∀ t', p t' (Function.update pcs t pc t') := by
  intro t'
  by_cases h : t' = t
  · rw [h, Function.update_self]
    exact ht
  · rw [Function.update_of_ne h]
    exact hother t' h

theorem depot_goto (pc : Pc Args) : (st.goto t pc).depot P = (st.depot P).goto t pc.phase := by
  unfold State.depot State.goto Depot.goto
  congr 1
  exact Function.comp_update ..

theorem depot_draw (pc : Pc Args) (n : ℕ) : State.depot P { st.goto t pc with nUniqIds := n } =
    { (st.depot P).goto t pc.phase with n := n } := by
  rw [← depot_goto]
  rfl

theorem step_stutter {pc : Pc Args} (h : pc.phase = (st.pcs t).phase) :
    Depot.Step P t (st.depot P) ((st.goto t pc).depot P) := by
  rw [depot_goto]
  have hself : (st.depot P).goto t pc.phase = st.depot P := by
    unfold Depot.goto
    rw [h]
    congr 1
    exact Function.update_eq_self t (Pc.phase ∘ st.pcs)
  rw [hself]
  exact .stutter

theorem TableInv.goto (h : TableInv P st) {pc : Pc Args} (hmu : pc.InMu → st.mu = some t)
    (hpc : PcInv P st.map1 pc) : TableInv P (st.goto t pc) :=
  { h with
    mu := forall_goto (p := fun t' pc' => pc'.InMu → st.mu = some t') hmu fun t' _ => h.mu t'
    pcs := forall_goto (p := fun _ => PcInv P st.map1) hpc fun t' _ => h.pcs t' }

/-- A new array is mapped. -/
theorem TableInv.store (h : TableInv P st) {acc : Access Args} (hpc : st.pcs t = .mapStore acc) :
    TableInv P { st.goto t (.mapUnlock acc st.mapped) with
      map1 := Function.update st.map1 (acc.index / P.kNodesSize2) (some st.mapped)
      arrays := Function.update st.arrays st.mapped fun _ => {}
      mapped := st.mapped + 1 } := by
  have hmu : (st.pcs t).InMu := by
    rw [hpc]
    trivial
  have hnone : st.map1 (acc.index / P.kNodesSize2) = none := by
    have := h.pcs t
    rwa [hpc] at this
  have hkeep : ∀ i p, st.map1 i = some p →
      Function.update st.map1 (acc.index / P.kNodesSize2) (some st.mapped) i = some p := by
    intro i p hi
    have hne : i ≠ acc.index / P.kNodesSize2 := by
      rintro rfl
      rw [hnone] at hi
      cases hi
    rw [Function.update_of_ne hne, hi]
  have hcases : ∀ i p, Function.update st.map1 (acc.index / P.kNodesSize2) (some st.mapped) i = some p →
      i = acc.index / P.kNodesSize2 ∧ p = st.mapped ∨ p < st.mapped ∧ st.map1 i = some p := by
    intro i p hi
    by_cases hne : i = acc.index / P.kNodesSize2
    · rw [hne, Function.update_self] at hi
      exact Or.inl ⟨hne, (Option.some.inj hi).symm⟩
    · rw [Function.update_of_ne hne] at hi
      exact Or.inr ⟨h.mapped i p hi, hi⟩
  exact
    { h with
      mapped := fun i p hi => by
        change p < st.mapped + 1
        rcases hcases i p hi with ⟨-, rfl⟩ | ⟨hlt, -⟩ <;> omega
      inj := fun i j p hi hj => by
        rcases hcases i p hi with ⟨rfl, hp⟩ | ⟨hlt, hi'⟩ <;> rcases hcases j p hj with ⟨rfl, hp'⟩ | ⟨hlt', hj'⟩
        · rfl
        · omega
        · omega
        · exact h.inj i j p hi' hj'
      mu := forall_goto (p := fun t' pc' => pc'.InMu → st.mu = some t') (fun _ => h.mu t hmu)
        fun t' _ => h.mu t'
      pcs := forall_goto (p := fun _ => PcInv P _) (Function.update_self ..)
        fun t' hne => (h.pcs t').mono hkeep (h.not_inMu hmu hne) }

/-- A new array has no nodes yet. -/
theorem depot_store (h : TableInv P st) {acc : Access Args} (hpc : st.pcs t = .mapStore acc) :
    Depot.Step P t (st.depot P) (State.depot P { st.goto t (.mapUnlock acc st.mapped) with
      map1 := Function.update st.map1 (acc.index / P.kNodesSize2) (some st.mapped)
      arrays := Function.update st.arrays st.mapped fun _ => {}
      mapped := st.mapped + 1 }) := by
  have hnone : st.map1 (acc.index / P.kNodesSize2) = none := by
    have := h.pcs t
    rwa [hpc] at this
  have hphase : (Pc.mapUnlock acc st.mapped).phase = (st.pcs t).phase := by
    rw [hpc]
    rfl
  convert step_stutter hphase using 1
  unfold State.depot
  congr 1
  funext i
  unfold State.node State.goto
  dsimp only
  by_cases hi : i / P.kNodesSize2 = acc.index / P.kNodesSize2
  · rw [hi, Function.update_self, hnone]
    simp
  · rw [Function.update_of_ne hi]
    cases hmap : st.map1 (i / P.kNodesSize2) with
    | none => rfl
    | some q =>
      have hq := h.mapped _ q hmap
      simp [hq.ne]

theorem depot_complete (args : Args) (id : ℕ) (inserted : Bool) :
    (st.complete t args id inserted).depot P = (st.depot P).complete t args id inserted := by
  calc (st.complete t args id inserted).depot P
      = { (st.goto t .idle).depot P with
          history := { args := args, id := id, inserted := inserted } :: st.history } := rfl
    _ = (st.depot P).complete t args id inserted := by
      rw [depot_goto]
      rfl

theorem TableInv.complete (h : TableInv P st) (args : Args) (id : ℕ) (inserted : Bool) :
    TableInv P (st.complete t args id inserted) :=
  have hgoto : TableInv P (st.goto t .idle) := h.goto nofun trivial
  { hgoto with }

theorem depot_lock {args : Args} {s cmp : ℕ} (hpc : st.pcs t = .lockCas args s cmp)
    (hcmp : cmp < 2^P.kIdSizeLog) (htab : st.tab (P.bucket args) = cmp) :
    Depot.Step P t (st.depot P) (((st.setTab (P.bucket args) (cmp ||| P.kLockMask)).goto t
      (if cmp ≠ s then findLoop args true cmp cmp else .fetchAdd args cmp)).depot P) := by
  have hhead : (st.depot P).head (P.bucket args) = cmp := by
    change st.tab (P.bucket args) % 2^P.kIdSizeLog = cmp
    rw [htab, Nat.mod_eq_of_lt hcmp]
  have hu : (st.depot P).locked (P.bucket args) = false := by
    change decide (2^P.kIdSizeLog ≤ st.tab (P.bucket args)) = false
    rw [htab]
    exact decide_eq_false hcmp.not_ge
  have hphase : (st.depot P).phases t = .locking args s := congrArg Pc.phase hpc
  convert Depot.Step.lock hphase hu using 1
  rw [depot_goto, depot_setTab, P.or_kLockMask hcmp, P.add_kLockMask_mod, Nat.mod_eq_of_lt hcmp,
    decide_eq_true (P.le_kLockMask.trans (Nat.le_add_left _ _)), hhead]
  congr 1
  · rw [Function.update_eq_self_iff.mpr hhead.symm]
  · split_ifs
    · exact phase_findLoop ..
    · rfl

/-- An access of a thread keeps the table, and is a step of the depot. -/
theorem State.step_depot (h : TableInv P st) {chains : ℕ → List ℕ} (hd : (st.depot P).Inv P chains)
    {miss : Bool} {st' : State T Args} (hstep : step P st t miss = .ok st') :
    TableInv P st' ∧ Depot.Step P t (st.depot P) (st'.depot P) := by
  have hpcinv := h.pcs t
  have hph : (st.depot P).phases t = (st.pcs t).phase := rfl
  cases hpc : st.pcs t with
  | idle =>
    rw [step, hpc] at hstep
    obtain rfl := Except.ok.inj hstep
    exact ⟨h, .stutter⟩
  | load args =>
    rw [hpc] at hph
    rw [step, hpc] at hstep
    obtain rfl := Except.ok.inj hstep
    refine ⟨h.goto (fun hmu => absurd hmu (findLoop_not_inMu _ _ _ _)) (pcInv_findLoop ..), ?_⟩
    rw [depot_goto, phase_findLoop, P.and_kUnlockMask]
    exact .load hph
  | lockLoad args s =>
    rw [step, hpc] at hstep
    dsimp only at hstep
    split_ifs at hstep with hfree
    · obtain rfl := Except.ok.inj hstep
      exact ⟨h.goto nofun ((h.words _).lt P hfree), step_stutter (by rw [hpc]; rfl)⟩
    · obtain rfl := Except.ok.inj hstep
      exact ⟨h, .stutter⟩
  | lockCas args s cmp =>
    rw [hpc] at hpcinv
    rw [step, hpc] at hstep
    dsimp only at hstep
    by_cases hcas : st.tab (P.bucket args) = cmp ∧ (!miss) = true
    · rw [if_pos hcas] at hstep
      obtain rfl := Except.ok.inj hstep
      refine ⟨(h.setTab ?_ _).goto ?_ ?_, depot_lock hpc hpcinv hcas.1⟩
      · exact Or.inr ⟨cmp, hpcinv, P.or_kLockMask hpcinv⟩
      · split_ifs
        · exact fun hmu => absurd hmu (findLoop_not_inMu _ _ _ _)
        · nofun
      · split_ifs
        · exact pcInv_findLoop ..
        · trivial
    · rw [if_neg hcas] at hstep
      obtain rfl := Except.ok.inj hstep
      exact ⟨h.goto nofun trivial, step_stutter (by rw [hpc]; rfl)⟩
  | fetchAdd args s2 =>
    rw [hpc] at hph
    have hK := Nat.pow_lt_pow_right (a := 2) (by norm_num) P.kIdSizeLog_lt
    have hbound := h.bound
    rw [step, hpc] at hstep
    dsimp only at hstep
    rw [P.and_kUnlockMask, Nat.mod_eq_of_lt (show st.nUniqIds + 1 < 2^32 by omega)] at hstep
    split_ifs at hstep with hs
    have hlt : st.nUniqIds + 1 < 2^P.kIdSizeLog := hs ▸ Nat.mod_lt _ (Nat.one_le_two_pow)
    cases hcheck : checkId P (st.nUniqIds + 1) with
    | error e =>
      rw [hcheck] at hstep
      cases hstep
    | ok _ =>
      rw [hcheck] at hstep
      obtain rfl := Except.ok.inj hstep
      have hgoto : TableInv P (st.goto t (.mapLoad (.store args s2 (st.nUniqIds + 1)))) :=
        h.goto nofun trivial
      refine ⟨{ hgoto with bound := hlt }, ?_⟩
      rw [depot_draw]
      exact .fetchAdd hph
  | contains id =>
    rw [step, hpc] at hstep
    dsimp only at hstep
    split at hstep <;> obtain rfl := Except.ok.inj hstep
    · exact ⟨h.goto nofun trivial, step_stutter (by rw [hpc]; rfl)⟩
    · exact ⟨h.goto nofun trivial, step_stutter (by rw [hpc]; rfl)⟩
  | mapLoad acc =>
    rw [step, hpc] at hstep
    dsimp only at hstep
    split at hstep
    · next p hp =>
      obtain rfl := Except.ok.inj hstep
      cases miss with
      | true => exact ⟨h.goto nofun trivial, step_stutter (by rw [hpc]; rfl)⟩
      | false => exact ⟨h.goto nofun hp, step_stutter (by rw [hpc]; rfl)⟩
    · obtain rfl := Except.ok.inj hstep
      exact ⟨h.goto nofun trivial, step_stutter (by rw [hpc]; rfl)⟩
  | mapLock acc =>
    rw [step, hpc] at hstep
    dsimp only at hstep
    split_ifs at hstep with hfree
    · obtain rfl := Except.ok.inj hstep
      have hstutter : Depot.Step P t (st.depot P) ((st.goto t (.mapGet acc)).depot P) :=
        step_stutter (by rw [hpc]; rfl)
      refine ⟨{ h with mu := ?_, pcs := ?_ }, hstutter⟩
      · refine forall_goto (p := fun t' pc' => pc'.InMu → some t = some t') (fun _ => rfl)
          fun t' _ hmu => ?_
        have := h.mu t' hmu
        rw [hfree] at this
        cases this
      · exact forall_goto (p := fun _ => PcInv P st.map1) trivial fun t' _ => h.pcs t'
    · obtain rfl := Except.ok.inj hstep
      exact ⟨h, .stutter⟩
  | mapGet acc =>
    have hmu := h.mu t (by rw [hpc]; trivial)
    rw [step, hpc] at hstep
    dsimp only at hstep
    split at hstep
    · next p hp =>
      obtain rfl := Except.ok.inj hstep
      exact ⟨h.goto (fun _ => hmu) hp, step_stutter (by rw [hpc]; rfl)⟩
    · next hp =>
      obtain rfl := Except.ok.inj hstep
      exact ⟨h.goto (fun _ => hmu) hp, step_stutter (by rw [hpc]; rfl)⟩
  | mapStore acc =>
    rw [step, hpc] at hstep
    obtain rfl := Except.ok.inj hstep
    exact ⟨h.store hpc, depot_store h hpc⟩
  | mapUnlock acc p =>
    rw [hpc] at hpcinv
    have hmu : (st.pcs t).InMu := by
      rw [hpc]
      trivial
    rw [step, hpc] at hstep
    obtain rfl := Except.ok.inj hstep
    have hstutter : Depot.Step P t (st.depot P) ((st.goto t (.use acc p)).depot P) :=
      step_stutter (by rw [hpc]; rfl)
    refine ⟨{ h with mu := ?_, pcs := ?_ }, hstutter⟩
    · exact forall_goto (p := fun t' pc' => pc'.InMu → (none : Option T) = some t') nofun
        fun t' hne hmu' => absurd hmu' (h.not_inMu hmu hne)
    · exact forall_goto (p := fun _ => PcInv P st.map1) hpcinv fun t' _ => h.pcs t'
  | use acc p =>
    rw [hpc] at hph hpcinv
    cases acc with
    | find args locked s cur =>
      have hnode : (st.depot P).nodes cur = st.arrays p (cur % P.kNodesSize2) := node_eq hpcinv
      rw [step, hpc] at hstep
      dsimp only at hstep
      rw [← hnode] at hstep
      split_ifs at hstep with heq hlocked <;> obtain rfl := Except.ok.inj hstep
      · subst hlocked
        refine ⟨h.goto nofun trivial, ?_⟩
        rw [depot_goto]
        exact .hitLocked hph heq
      · obtain rfl := Bool.not_eq_true _ ▸ hlocked
        refine ⟨h.complete .., ?_⟩
        rw [depot_complete]
        exact .hit hph heq
      · refine ⟨h.goto nofun hpcinv, ?_⟩
        rw [depot_goto]
        exact .miss hph heq
    | store args s2 s =>
      have hp : st.map1 (s / P.kNodesSize2) = some p := hpcinv
      rw [step, hpc] at hstep
      obtain rfl := Except.ok.inj hstep
      refine ⟨(h.setNode ..).goto nofun hpcinv, ?_⟩
      rw [depot_goto, depot_setNode h hp, ← node_eq hp]
      exact .store hph
    | get id =>
      rw [step, hpc] at hstep
      obtain rfl := Except.ok.inj hstep
      exact ⟨h.goto nofun trivial, step_stutter (by rw [hpc]; rfl)⟩
  | readLink args locked s cur p =>
    rw [hpc] at hph hpcinv
    rw [step, hpc] at hstep
    obtain rfl := Except.ok.inj hstep
    refine ⟨h.goto (fun hmu => absurd hmu (findLoop_not_inMu _ _ _ _)) (pcInv_findLoop ..), ?_⟩
    rw [depot_goto, phase_findLoop, ← node_eq hpcinv]
    exact .next hph
  | writeLink args s2 s p =>
    rw [hpc] at hph hpcinv
    rw [step, hpc] at hstep
    obtain rfl := Except.ok.inj hstep
    refine ⟨(h.setNode ..).goto nofun trivial, ?_⟩
    rw [depot_goto, depot_setNode h hpcinv, ← node_eq hpcinv]
    exact .writeLink hph
  | unlock args word id inserted =>
    rw [hpc] at hph
    have hword : word < 2^P.kIdSizeLog := by
      have hinv := hd.phase t
      rw [hph] at hinv
      cases inserted with
      | true =>
        obtain ⟨-, rfl, -, hfresh, -⟩ := hinv
        exact hfresh.1.2.trans_lt h.bound
      | false =>
        obtain ⟨-, rfl, -⟩ := hinv
        rw [← hd.head]
        exact Nat.mod_lt _ Nat.one_le_two_pow
    rw [step, hpc] at hstep
    obtain rfl := Except.ok.inj hstep
    refine ⟨(h.setTab (Or.inl hword) _).complete .., ?_⟩
    rw [depot_complete, depot_setTab, Nat.mod_eq_of_lt hword, decide_eq_false hword.not_ge]
    exact .unlock hph

end Steps

/-! ## Runs -/

section Runs

variable [DecidableEq T] (P : Params Args)

/-- The states that are reached when threads that are in no call start `Put` and `Get`, and the accesses of
all threads interleave in any order. -/
inductive Run : State T Args → Prop
  /-- The start. -/
  | start : Run {}
  /-- A thread calls `Put`. -/
  | put {st : State T Args} {t : T} (h : Run st) (hidle : st.pcs t = .idle) (args : Args) :
    Run (put P st t args)
  /-- A thread calls `Get`. -/
  | get {st st' : State T Args} {t : T} {id : ℕ} (h : Run st) (hidle : st.pcs t = .idle)
    (hrun : get P st t id = .ok st') : Run st'
  /-- The next access of a thread. -/
  | step {st st' : State T Args} {t : T} {miss : Bool} (h : Run st)
    (hrun : step P st t miss = .ok st') : Run st'

variable {P} {st : State T Args}

/-- The invariant of the table and of the depot over it. -/
structure Good (P : Params Args) (st : State T Args) : Prop where
  /-- The table. -/
  table : TableInv P st
  /-- The depot. -/
  depot : ∃ chains, (st.depot P).Inv P chains

omit [DecidableEq T] in
/-- The invariant at the start. -/
theorem Good.start : Good P ({} : State T Args) where
  table :=
    { bound := Nat.one_le_two_pow
      words := fun _ => Or.inl Nat.one_le_two_pow
      mapped := nofun
      inj := nofun
      mu := nofun
      pcs := fun _ => trivial }
  depot := ⟨fun _ => [],
    { head := fun _ => Nat.zero_mod _
      ids := nofun
      sorted := fun _ => List.Pairwise.nil
      links := fun b l₁ i l₂ h => absurd h.symm (by simp)
      node := nofun
      inj := nofun
      phase := fun _ => trivial
      locked := fun b => iff_of_false
        (by simp [State.depot]) (by simp [State.depot, Pc.phase, Phase.holds])
      exclusive := nofun
      owner := nofun
      cover := fun i h₁ h₂ => absurd (h₁.trans h₂) (by simp [State.depot])
      returned := nofun
      invalid := nofun
      inserted := nofun }⟩

theorem Good.of_step (h : Good P st) {st' : State T Args} {t : T}
    (hstep : TableInv P st' ∧ Depot.Step P t (st.depot P) (st'.depot P)) : Good P st' :=
  ⟨hstep.1, h.depot.elim fun _ hd => hd.step hstep.2⟩

/-- The invariant in every run. -/
theorem Run.good (h : Run P st) : Good P st := by
  induction h with
  | start => exact .start
  | @put st t _ hidle args ih =>
    have hph : (st.depot P).phases t = .idle := congrArg Pc.phase hidle
    unfold StackDepot.put
    split_ifs with hv
    · refine ih.of_step (t := t) ⟨ih.table.complete .., ?_⟩
      rw [depot_complete]
      exact .invalid hph (Bool.not_eq_true' _ ▸ hv)
    · refine ih.of_step (t := t) ⟨ih.table.goto nofun trivial, ?_⟩
      rw [depot_goto]
      exact .start hph (by simpa using hv)
  | @get st st' t id _ hidle hrun ih =>
    have hcontains : Good P (st.goto t (.contains id)) :=
      ih.of_step (t := t) ⟨ih.table.goto nofun trivial, step_stutter (by rw [hidle]; rfl)⟩
    unfold StackDepot.get at hrun
    by_cases hzero : id = 0
    · rw [if_pos hzero] at hrun
      obtain rfl := Except.ok.inj hrun
      exact ih
    · rw [if_neg hzero] at hrun
      cases hcheck : checkId P id with
      | error e =>
        rw [hcheck] at hrun
        cases hrun
      | ok _ =>
        rw [hcheck] at hrun
        by_cases hid : id < 2^P.kIdSizeLog
        · rw [if_pos hid] at hrun
          obtain rfl := Except.ok.inj hrun
          exact hcontains
        · rw [if_neg hid] at hrun
          cases hrun
  | step _ hrun ih =>
    obtain ⟨chains, hd⟩ := ih.depot
    exact ih.of_step (State.step_depot ih.table hd hrun)

omit [DecidableEq T] in
/-- An id that fits into a bucket word passes its check. -/
theorem checkId_ok {id : ℕ} (hid : id < 2^P.kIdSizeLog) (hpos : 0 < id) : checkId P id = .ok () := by
  have hr : P.kReservedBits ≤ 32 := by
    by_contra hr
    have hzero : P.kIdSizeLog = 0 := by
      unfold Params.kIdSizeLog
      omega
    rw [hzero] at hid
    omega
  have hmask : (2^32 - 1) >>> P.kReservedBits = 2^(32 - P.kReservedBits) - 1 := by
    have hpow : 2^32 = 2^(32 - P.kReservedBits) * 2^P.kReservedBits := by
      rw [← pow_add, Nat.sub_add_cancel hr]
    have h1 := Nat.one_le_two_pow (n := 32 - P.kReservedBits)
    have h2 := Nat.one_le_two_pow (n := P.kReservedBits)
    rw [Nat.shiftRight_eq_div_pow]
    refine Nat.div_eq_of_lt_le ?_ ?_
    · rw [Nat.sub_mul, one_mul, ← hpow]
      omega
    · rw [Nat.sub_add_cancel h1, ← hpow]
      norm_num
  have hle : 2^P.kIdSizeLog ≤ 2^(32 - P.kReservedBits) :=
    Nat.pow_le_pow_right (by norm_num) (by unfold Params.kIdSizeLog; omega)
  rw [checkId, hmask, Nat.and_two_pow_sub_one_eq_mod, if_pos (Nat.mod_eq_of_lt (hid.trans_le hle))]

theorem step_ne_error (t : T) (miss : Bool) (h : st.nUniqIds + 1 < 2^P.kIdSizeLog) :
    step P st t miss ≠ .error .check := by
  have hK := Nat.pow_lt_pow_right (a := 2) (by norm_num) P.kIdSizeLog_lt
  intro herr
  unfold step at herr
  split at herr
  case h_5 args s2 hpc =>
    dsimp only at herr
    rw [P.and_kUnlockMask, Nat.mod_eq_of_lt (show st.nUniqIds + 1 < 2^32 by omega), Nat.mod_eq_of_lt h,
      if_pos rfl, checkId_ok h (Nat.succ_pos _)] at herr
    cases herr
  -- The other accesses have no `CHECK`.
  all_goals
    try dsimp only at herr
    repeat' split at herr
    all_goals cases herr

/-- The list of nodes from a head, along the links. -/
def Linked (link : ℕ → ℕ) : ℕ → List ℕ → Prop
  | head, [] => head = 0
  | head, i :: l => head = i ∧ i ≠ 0 ∧ Linked link (link i) l

omit [DecidableEq T] in
theorem linked_chain {d : Depot T Args} {chains : ℕ → List ℕ} (h : d.Inv P chains) (b : ℕ) :
    Linked (fun i => (d.nodes i).link) (d.head b) (chains b) := by
  have hsuffix : ∀ l l₁, chains b = l₁ ++ l →
      Linked (fun i => (d.nodes i).link) (l.headD 0) l := by
    intro l
    induction l with
    | nil => exact fun _ _ => rfl
    | cons i l ih =>
      intro l₁ hsplit
      have hi : i ∈ chains b := hsplit ▸ List.mem_append_right _ List.mem_cons_self
      refine ⟨rfl, (Nat.one_le_iff_ne_zero.mp (h.ids b i hi).1), ?_⟩
      rw [show (fun i => (d.nodes i).link) i = l.headD 0 from h.links b l₁ i l hsplit]
      exact ih (l₁ ++ [i]) (by rw [hsplit, List.append_assoc, List.singleton_append])
  rw [h.head b]
  exact hsuffix (chains b) [] rfl

omit [DecidableEq T] in
theorem inserted_valid {d : Depot T Args} {chains : ℕ → List ℕ} (h : d.Inv P chains)
    {c : Completed Args} (hc : c ∈ d.history) (hins : c.inserted = true) : P.isValid c.args = true := by
  cases hv : P.isValid c.args with
  | true => rfl
  | false =>
    rw [(h.invalid c hc hv).2] at hins
    cases hins

omit [DecidableEq T] in
theorem exists_inserted {d : Depot T Args} {chains : ℕ → List ℕ} (h : d.Inv P chains) {b i : ℕ}
    (hi : i ∈ chains b) :
    ∃ c ∈ d.history, c.inserted = true ∧ c.id = i ∧ P.bucket c.args = b := by
  have hcount := h.inserted b i hi
  obtain ⟨c, hc, hins⟩ := List.countP_pos_iff.mp (by rw [hcount]; exact Nat.one_pos)
  rw [Bool.and_eq_true, beq_iff_eq] at hins
  obtain ⟨hins, rfl⟩ := hins
  obtain ⟨hid, hhash⟩ := h.returned c hc (inserted_valid h hc hins)
  obtain ⟨args, hargs, -, hb, -⟩ := h.node b c.id hi
  refine ⟨c, hc, hins, rfl, ?_⟩
  rw [← hb, Params.bucket, Params.bucket, ← hhash, hargs]

omit [DecidableEq T] in
theorem id_eq_iff {d : Depot T Args} {chains : ℕ → List ℕ} (h : d.Inv P chains) {c c' : Completed Args}
    (hc : c ∈ d.history) (hc' : c' ∈ d.history) (hv : P.isValid c.args = true)
    (hv' : P.isValid c'.args = true) : c.id = c'.id ↔ P.hash c.args = P.hash c'.args := by
  obtain ⟨hid, hhash⟩ := h.returned c hc hv
  obtain ⟨hid', hhash'⟩ := h.returned c' hc' hv'
  constructor
  · intro heq
    rw [← hhash, ← hhash', heq]
  · intro heq
    have hb : P.bucket c.args = P.bucket c'.args := by rw [Params.bucket, Params.bucket, heq]
    refine h.inj _ _ hid _ (hb ▸ hid') ?_
    rw [hhash, hhash', heq]

/-- In every run, for valid calls of `Put`. No `CHECK` fails while there are fewer than `2^kIdSizeLog`
nodes. Two calls have returned the same id exactly when their hashes are the same, and for each hash
exactly one of them has set `*inserted`. Ids are from 1 to `n_uniq_ids`, and each of these has been
returned by the call that inserted it or belongs to exactly one call that has drawn it and not yet
published it. A search is only ever at a node that a call that has returned inserted, which holds a stack
and its hash. Each bucket leads to a chain of decreasing ids, which are those of the inserted nodes of
the bucket. -/
theorem stackDepot_runs (h : Run P st) :
    (∀ t miss, st.nUniqIds + 1 < 2^P.kIdSizeLog → step P st t miss ≠ .error .check) ∧
    (∀ c ∈ st.history, ∀ c' ∈ st.history, P.isValid c.args = true → P.isValid c'.args = true →
      (c.id = c'.id ↔ P.hash c.args = P.hash c'.args)) ∧
    (∀ c ∈ st.history, P.isValid c.args = true →
      st.history.countP (fun c' => c'.inserted && P.hash c'.args == P.hash c.args) = 1) ∧
    (∀ c ∈ st.history, P.isValid c.args = true → 1 ≤ c.id ∧ c.id ≤ st.nUniqIds) ∧
    (∀ i, 1 ≤ i → i ≤ st.nUniqIds → (∃ c ∈ st.history, c.inserted = true ∧ c.id = i) ∨
      ∃! t, (st.pcs t).phase.owned = some i) ∧
    (∀ t args locked s cur p,
      st.pcs t = .use (.find args locked s cur) p ∨ st.pcs t = .readLink args locked s cur p →
      st.arrays p (cur % P.kNodesSize2) = st.node P cur ∧
      (∃ args', (st.node P cur).hash = P.hash args' ∧ (st.node P cur).args = some args') ∧
      ∃ c ∈ st.history, c.inserted = true ∧ c.id = cur) ∧
    ∀ b, ∃ l, Linked (fun i => (st.node P i).link) (st.tab b % 2^P.kIdSizeLog) l ∧
      l.Pairwise (· > ·) ∧
      ∀ i, i ∈ l ↔ ∃ c ∈ st.history, c.inserted = true ∧ c.id = i ∧ P.bucket c.args = b := by
  have hgood := h.good
  obtain ⟨chains, hd⟩ := hgood.depot
  have hmem : ∀ b i, i ∈ chains b ↔
      ∃ c ∈ st.history, c.inserted = true ∧ c.id = i ∧ P.bucket c.args = b := by
    intro b i
    constructor
    · exact fun hi => exists_inserted hd hi
    · rintro ⟨c, hc, hins, rfl, rfl⟩
      exact (hd.returned c hc (inserted_valid hd hc hins)).1
  refine ⟨fun t miss => step_ne_error t miss, fun c hc c' hc' => id_eq_iff hd hc hc',
    fun c hc hv => ?_, fun c hc hv => ?_, fun i h₁ h₂ => ?_, fun t args locked s cur p hpc => ?_,
    fun b => ?_⟩
  · obtain ⟨hid, -⟩ := hd.returned c hc hv
    rw [← hd.inserted _ _ hid]
    refine List.countP_congr fun c' hc' => ?_
    rw [Bool.and_eq_true, Bool.and_eq_true, beq_iff_eq, beq_iff_eq]
    exact and_congr_right fun hins =>
      (id_eq_iff hd hc' hc (inserted_valid hd hc' hins) hv).symm
  · exact hd.ids _ _ (hd.returned c hc hv).1
  · rcases hd.cover i h₁ h₂ with ⟨b, hi⟩ | ⟨t, ht⟩
    · obtain ⟨c, hc, hins, hid, -⟩ := (hmem b i).mp hi
      exact Or.inl ⟨c, hc, hins, hid⟩
    · exact Or.inr ⟨t, ht, fun t' ht' => hd.owner t' t i ht' ht⟩
  · have hpcinv := hgood.table.pcs t
    have hphase := hd.phase t
    change Depot.PhaseInv P _ _ _ (st.pcs t).phase at hphase
    have hmap : st.map1 (cur / P.kNodesSize2) = some p ∧ cur ∈ chains (P.bucket args) := by
      rcases hpc with hpc | hpc <;> rw [hpc] at hpcinv hphase <;> exact ⟨hpcinv, hphase.2.1⟩
    obtain ⟨args', hhash, hargs, -⟩ := hd.node _ _ hmap.2
    obtain ⟨c, hc, hins, hid, -⟩ := (hmem _ _).mp hmap.2
    exact ⟨(node_eq hmap.1).symm, ⟨args', hhash, hargs⟩, c, hc, hins, hid⟩
  · exact ⟨chains b, linked_chain hd b, hd.sorted b, hmem b⟩

/-- The accesses of one thread in a row. -/
def steps (P : Params Args) (t : T) : ℕ → State T Args → Except Stop (State T Args)
  | 0, st => .ok st
  | n + 1, st => do
    let st ← step P st t false
    steps P t n st

theorem Run.steps {t : T} {st' : State T Args} (h : Run P st) {n : ℕ}
    (hrun : StackDepot.steps P t n st = .ok st') : Run P st' := by
  induction n generalizing st with
  | zero => exact Except.ok.inj hrun ▸ h
  | succ n ih =>
    rw [StackDepot.steps] at hrun
    cases hstep : StackDepot.step P st t false with
    | error e =>
      rw [hstep] at hrun
      cases hrun
    | ok st₁ =>
      rw [hstep] at hrun
      exact ih (h.step hstep) hrun

end Runs

/-- The depot of the stack traces, as in the tools. -/
def stackDepot : Params StackStore.StackTrace where
  toNodeType := stackDepotNode
  kReservedBits := 1
  kTabSizeLog := 20

/-- One thread puts one frame into the empty depot, and gets the first id. -/
theorem stackDepot_runs_one_put :
    ∃ st : State Unit StackStore.StackTrace,
      steps stackDepot () 12 (put stackDepot {} () { frames := [1] }) = .ok st ∧
        ∀ c ∈ st.history, stackDepot.isValid c.args = true → 1 ≤ c.id ∧ c.id ≤ st.nUniqIds := by
  have hrun : steps stackDepot () 12 (put stackDepot ({} : State Unit _) () { frames := [1] }) =
      .ok _ := rfl
  exact ⟨_, hrun, (stackDepot_runs ((Run.start.put rfl _).steps hrun)).2.2.2.1⟩

/-- Calls of `Put` that are not valid all return 0, whatever their hashes: two empty stacks with different
tags. -/
theorem put_invalid_same :
    ¬ ∀ st : State Unit StackStore.StackTrace, Run stackDepot st → ∀ c ∈ st.history, ∀ c' ∈ st.history,
      stackDepot.hash c.args ≠ stackDepot.hash c'.args → c.id ≠ c'.id := by
  intro hclaim
  have h := (Run.start (P := stackDepot) (T := Unit)).put (t := ()) rfl { frames := [], tag := 1 }
  have h' := h.put (t := ()) rfl { frames := [], tag := 2 }
  exact hclaim _ h' _ (List.mem_cons_of_mem _ List.mem_cons_self) _ List.mem_cons_self (by decide +kernel)
    rfl

end Tasan.StackDepot
