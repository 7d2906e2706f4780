import Tasan.Asan.Globals

/-!
# The one definition rule, by indicators

The globals of one symbol share an indicator byte. The byte and the lists of `GlobalsByIndicator`
together are a summary of the registrations and unregistrations so far: the byte says whether the
latest one with its indicator was a registration (`latest`), and the list holds every global that was
ever registered with it (`everRegistered`), since an unregistration clears the byte and leaves the list
alone. `OdrRun.summary` is that invariant, and `odr_contract` says what a registration reports.
-/

namespace Tasan.Asan

open Globals

variable {C : GlobalsConfig}

/-- A registration or an unregistration of one global. -/
inductive Event
  | registerGlobal (g : Global)
  | unregisterGlobal (g : Global)
  deriving DecidableEq

/-! ## Histories -/

/-- Whether a global is registered after a history, latest event first. -/
def Registered : List Event → Global → Prop
  | [], _ => False
  | .registerGlobal g :: h, g' => g' = g ∨ Registered h g'
  | .unregisterGlobal g :: h, g' => g' ≠ g ∧ Registered h g'

/-- The globals that have been registered with an indicator, latest first. -/
def everRegistered (i : ℕ) : List Event → List Global
  | [] => []
  | .registerGlobal g :: h =>
    if g.odrIndicator = i then g :: everRegistered i h else everRegistered i h
  | .unregisterGlobal _ :: h => everRegistered i h

/-- Whether the latest event on a global with an indicator was a registration. -/
def latest (i : ℕ) : List Event → Bool
  | [] => false
  | .registerGlobal g :: h => if g.odrIndicator = i then true else latest i h
  | .unregisterGlobal g :: h => if g.odrIndicator = i then false else latest i h

/-- No global with an indicator has been unregistered. -/
def NoneUnregistered (i : ℕ) (h : List Event) : Prop :=
  ∀ g, .unregisterGlobal g ∈ h → g.odrIndicator ≠ i

/-- A global with an indicator has been unregistered only when it was the only one registered with
it. -/
def OnlyLastUnregistered (i : ℕ) : List Event → Prop
  | [] => True
  | .registerGlobal _ :: h => OnlyLastUnregistered i h
  | .unregisterGlobal g :: h =>
    (g.odrIndicator = i → ∀ g', Registered h g' → g'.odrIndicator = i → g' = g) ∧
      OnlyLastUnregistered i h

theorem mem_everRegistered_of_live {i : ℕ} {h : List Event} {g : Global} (hl : Registered h g)
    (hi : g.odrIndicator = i) : g ∈ everRegistered i h := by
  induction h with
  | nil => exact hl.elim
  | cons e h ih =>
    cases e with
    | registerGlobal g' =>
      unfold everRegistered
      rcases hl with rfl | hl
      · rw [if_pos hi]
        exact List.mem_cons_self
      · split_ifs
        · exact List.mem_cons_of_mem _ (ih hl)
        · exact ih hl
    | unregisterGlobal g' => exact ih hl.2

theorem mem_everRegistered_iff {i : ℕ} {h : List Event} (hnone : NoneUnregistered i h)
    (g : Global) : g ∈ everRegistered i h ↔ Registered h g ∧ g.odrIndicator = i := by
  refine ⟨fun hg => ?_, fun hg => mem_everRegistered_of_live hg.1 hg.2⟩
  induction h with
  | nil => cases hg
  | cons e h ih =>
    have hnone' : NoneUnregistered i h := fun g' hg' => hnone g' (List.mem_cons_of_mem _ hg')
    cases e with
    | registerGlobal g' =>
      unfold everRegistered at hg
      split_ifs at hg with hi
      · rcases List.mem_cons.mp hg with rfl | hg
        · exact ⟨Or.inl rfl, hi⟩
        · exact ⟨Or.inr (ih hnone' hg).1, (ih hnone' hg).2⟩
      · exact ⟨Or.inr (ih hnone' hg).1, (ih hnone' hg).2⟩
    | unregisterGlobal g' =>
      obtain ⟨h1, h2⟩ := ih hnone' hg
      refine ⟨⟨?_, h1⟩, h2⟩
      rintro rfl
      exact hnone g List.mem_cons_self h2

theorem exists_live_of_latest {i : ℕ} {h : List Event} (hl : latest i h = true) :
    ∃ g, Registered h g ∧ g.odrIndicator = i := by
  induction h with
  | nil => cases hl
  | cons e h ih =>
    cases e with
    | registerGlobal g =>
      unfold latest at hl
      split_ifs at hl with hi
      · exact ⟨g, Or.inl rfl, hi⟩
      · obtain ⟨g', h1, h2⟩ := ih hl
        exact ⟨g', Or.inr h1, h2⟩
    | unregisterGlobal g =>
      unfold latest at hl
      split_ifs at hl with hi
      obtain ⟨g', h1, h2⟩ := ih hl
      refine ⟨g', ⟨?_, h1⟩, h2⟩
      rintro rfl
      exact hi h2

theorem latest_of_live {i : ℕ} {h : List Event} (honly : OnlyLastUnregistered i h) {g : Global}
    (hl : Registered h g) (hi : g.odrIndicator = i) : latest i h = true := by
  induction h with
  | nil => exact hl.elim
  | cons e h ih =>
    cases e with
    | registerGlobal g' =>
      unfold latest
      rcases hl with rfl | hl
      · rw [if_pos hi]
      · split_ifs
        · rfl
        · exact ih honly hl
    | unregisterGlobal g' =>
      unfold latest
      rw [if_neg fun hi' => hl.1 (honly.1 hi' g hl.2 hi)]
      exact ih honly.2 hl.2

/-! ## One event -/

section Steps

variable {s s' : Globals} {g : Global}

/-- What `RegisterGlobal` does to the indicators, with their check on. -/
theorem registerGlobal_indicator (hodr : C.detectOdrViolation ≠ 0) (hi : 0 < g.odrIndicator)
    (hmax : g.odrIndicator ≠ UINTPTR_MAX) (h : registerGlobal C s g = some s') :
    s'.odrIndicators = Function.update s.odrIndicators g.odrIndicator REGISTERED ∧
    s'.globalsByIndicator = Function.update s.globalsByIndicator g.odrIndicator
      (g :: s.globalsByIndicator g.odrIndicator) ∧
    s'.reports =
      (if s.odrIndicators g.odrIndicator = REGISTERED then
        (((s.globalsByIndicator g.odrIndicator).filter (reportable C g)).map (g, ·)).reverse
      else []) ++ s.reports := by
  obtain ⟨s₁, hcheck, rfl⟩ := registerGlobal_eq_some h
  have hfields : ∀ s₁ : Globals, (addGlobal C s₁ g).odrIndicators = s₁.odrIndicators ∧
      (addGlobal C s₁ g).globalsByIndicator = s₁.globalsByIndicator ∧
      (addGlobal C s₁ g).reports = s₁.reports := by
    intro s₁
    unfold addGlobal pushDynInitGlobal touchModule
    dsimp only
    split_ifs <;> exact ⟨rfl, rfl, rfl⟩
  obtain ⟨h1, h2, h3⟩ := hfields s₁
  have huse : useODRIndicator g = true := by
    unfold useODRIndicator
    exact decide_eq_true hi
  unfold checkODRViolation at hcheck
  rw [if_pos hodr, if_pos huse] at hcheck
  obtain rfl := Option.some.inj hcheck
  rw [h1, h2, h3]
  unfold checkODRViolationViaIndicator
  rw [if_neg hmax]
  split_ifs with hreg
  · refine ⟨?_, rfl, rfl⟩
    rw [← hreg, Function.update_eq_self]
  · exact ⟨rfl, rfl, rfl⟩

theorem unregisterGlobal_indicator (hi : 0 < g.odrIndicator) (hmax : g.odrIndicator ≠ UINTPTR_MAX)
    (h : unregisterGlobal C s g = some s') :
    s'.odrIndicators = Function.update s.odrIndicators g.odrIndicator UNREGISTERED ∧
    s'.globalsByIndicator = s.globalsByIndicator := by
  unfold unregisterGlobal at h
  obtain ⟨-, -, h⟩ := check_bind_eq_some h
  obtain ⟨-, -, h⟩ := check_bind_eq_some h
  obtain ⟨-, -, h⟩ := check_bind_eq_some h
  obtain ⟨-, -, h⟩ := check_bind_eq_some h
  obtain ⟨-, -, h⟩ := check_bind_eq_some h
  obtain rfl := Option.some.inj h
  have huse : (useODRIndicator g && decide (g.odrIndicator ≠ UINTPTR_MAX)) = true := by
    unfold useODRIndicator
    rw [Bool.and_eq_true, decide_eq_true_eq, decide_eq_true_eq]
    exact ⟨hi, hmax⟩
  unfold releaseGlobal
  dsimp only
  rw [if_pos huse]
  split_ifs <;> exact ⟨rfl, rfl⟩

end Steps

/-! ## Runs -/

/-- A global that carries an indicator. -/
def HasIndicator (g : Global) : Prop := 0 < g.odrIndicator ∧ g.odrIndicator ≠ UINTPTR_MAX

/-- The states that are reached by registrations and unregistrations of globals that carry indicators,
with their histories. No global is registered twice at a time. -/
inductive OdrRun (C : GlobalsConfig) : Globals → List Event → Prop
  /-- No global has been registered, and the indicator bytes are zero. -/
  | start {σ : Mem} {flag : Bool} :
      OdrRun C { shadow := σ, checkInitializationOrder := flag } []
  /-- One global of the array of `__asan_register_globals`. -/
  | registerGlobal {s s' : Globals} {h : List Event} {g : Global} (hrun : OdrRun C s h)
      (hg : HasIndicator g) (hlive : ¬ Registered h g) (hstep : registerGlobal C s g = some s') :
      OdrRun C s' (.registerGlobal g :: h)
  /-- One global of the array of `__asan_unregister_globals`. -/
  | unregisterGlobal {s s' : Globals} {h : List Event} {g : Global} (hrun : OdrRun C s h)
      (hg : HasIndicator g) (hlive : Registered h g) (hstep : unregisterGlobal C s g = some s') :
      OdrRun C s' (.unregisterGlobal g :: h)
  /-- The metadata of an array. -/
  | poisonMetadata {s s' : Globals} {h : List Event} {globals n : ℕ} {value : Byte}
      (hrun : OdrRun C s h) (hstep : poisonMetadata C s globals n value = some s') : OdrRun C s' h

/-- The byte and the list of each indicator summarize the history. -/
structure Summary (s : Globals) (h : List Event) : Prop where
  /-- The bytes. -/
  indicator : ∀ i, s.odrIndicators i = if latest i h then REGISTERED else UNREGISTERED
  /-- The lists. -/
  list : ∀ i, s.globalsByIndicator i = everRegistered i h

/-- The summary holds in every run. -/
theorem OdrRun.summary (hodr : C.detectOdrViolation ≠ 0) {s : Globals} {h : List Event}
    (hrun : OdrRun C s h) : Summary s h := by
  induction hrun with
  | start => exact ⟨fun _ => rfl, fun _ => rfl⟩
  | @registerGlobal s s' h g _ hg _ hstep ih =>
    obtain ⟨h1, h2, -⟩ := registerGlobal_indicator hodr hg.1 hg.2 hstep
    refine ⟨fun i => ?_, fun i => ?_⟩
    · rw [h1, latest, Function.update_apply, ih.indicator]
      by_cases hi : i = g.odrIndicator
      · simp [hi]
      · simp [hi, Ne.symm hi]
    · rw [h2, everRegistered, Function.update_apply, ih.list, ih.list]
      by_cases hi : i = g.odrIndicator
      · simp [hi]
      · simp [hi, Ne.symm hi]
  | @unregisterGlobal s s' h g _ hg _ hstep ih =>
    obtain ⟨h1, h2⟩ := unregisterGlobal_indicator hg.1 hg.2 hstep
    refine ⟨fun i => ?_, fun i => ?_⟩
    · rw [h1, latest, Function.update_apply, ih.indicator]
      by_cases hi : i = g.odrIndicator
      · simp [hi]
      · simp [hi, Ne.symm hi]
    · rw [h2, everRegistered, ih.list]
  | poisonMetadata _ hstep ih =>
    obtain ⟨σ, -, rfl⟩ := Option.map_eq_some_iff.mp hstep
    exact ⟨ih.indicator, ih.list⟩

/-- `__asan_register_globals` registers the globals of its array one after another. -/
theorem OdrRun.asanRegisterGlobals {s s' : Globals} {h : List Event} (hrun : OdrRun C s h)
    (hreport : C.reportGlobals ≠ 0) {globals : ℕ} {gs : List Global} (hnodup : gs.Nodup)
    (hgs : ∀ g ∈ gs, HasIndicator g ∧ ¬ Registered h g)
    (hstep : s.asanRegisterGlobals C globals gs = some s') :
    OdrRun C s' ((gs.map .registerGlobal).reverse ++ h) := by
  unfold Globals.asanRegisterGlobals at hstep
  rw [if_neg hreport] at hstep
  obtain ⟨s₁, hall, hmeta⟩ := Option.bind_eq_some_iff.mp hstep
  refine .poisonMetadata ?_ hmeta
  clear hmeta hstep
  induction gs generalizing s h with
  | nil =>
    obtain rfl := Option.some.inj hall
    exact hrun
  | cons g gs ih =>
    obtain ⟨hg, hnodup⟩ := List.nodup_cons.mp hnodup
    obtain ⟨⟨hind, hlive⟩, hgs⟩ := List.forall_mem_cons.mp hgs
    rw [List.foldlM_cons] at hall
    obtain ⟨s₂, hone, hall⟩ := Option.bind_eq_some_iff.mp hall
    rw [List.map_cons, List.reverse_cons, List.append_assoc, List.singleton_append]
    refine ih (hrun.registerGlobal hind hlive hone) hnodup (fun g' hg' => ?_) hall
    refine ⟨(hgs g' hg').1, ?_⟩
    rintro (rfl | hl)
    · exact hg hg'
    · exact (hgs g' hg').2 hl

/-- `__asan_unregister_globals` unregisters the globals of its array one after another. -/
theorem OdrRun.asanUnregisterGlobals {s s' : Globals} {h : List Event} (hrun : OdrRun C s h)
    (hreport : C.reportGlobals ≠ 0) {globals : ℕ} {gs : List Global} (hnodup : gs.Nodup)
    (hgs : ∀ g ∈ gs, HasIndicator g ∧ Registered h g)
    (hstep : s.asanUnregisterGlobals C globals gs = some s') :
    OdrRun C s' ((gs.map .unregisterGlobal).reverse ++ h) := by
  unfold Globals.asanUnregisterGlobals at hstep
  rw [if_neg hreport] at hstep
  obtain ⟨s₁, hall, hmeta⟩ := Option.bind_eq_some_iff.mp hstep
  refine .poisonMetadata ?_ hmeta
  clear hmeta hstep
  induction gs generalizing s h with
  | nil =>
    obtain rfl := Option.some.inj hall
    exact hrun
  | cons g gs ih =>
    obtain ⟨hg, hnodup⟩ := List.nodup_cons.mp hnodup
    obtain ⟨⟨hind, hlive⟩, hgs⟩ := List.forall_mem_cons.mp hgs
    rw [List.foldlM_cons] at hall
    obtain ⟨s₂, hone, hall⟩ := Option.bind_eq_some_iff.mp hall
    rw [List.map_cons, List.reverse_cons, List.append_assoc, List.singleton_append]
    refine ih (hrun.unregisterGlobal hind hlive hone) hnodup (fun g' hg' => ?_) hall
    exact ⟨(hgs g' hg').1, fun heq => hg (heq ▸ hg'), (hgs g' hg').2⟩

/-- In every run of registrations and unregistrations of globals that carry indicators, with the check
on. Registering `g` reports it against exactly the globals that have been registered with its indicator
before, those that have been unregistered since included, which have another size (unless
`detect_odr_violation >= 2`), when the latest event on the indicator was a registration and the name of
`g` is not suppressed; and an indicator byte is `REGISTERED` exactly when the latest event on it was a
registration. As long as no global with an indicator has been unregistered, the globals ever registered
with it are the registered ones; and as long as one has been unregistered only when it was the only one
registered, its byte is `REGISTERED` exactly when some global with it is registered. -/
theorem odr_contract (C : GlobalsConfig) (hodr : 1 ≤ C.detectOdrViolation) {s : Globals}
    {h : List Event} (hrun : OdrRun C s h) :
    (∀ g s', HasIndicator g → registerGlobal C s g = some s' →
      ∃ reported : List Global, s'.reports = reported.map (g, ·) ++ s.reports ∧
        ∀ l, l ∈ reported ↔ latest g.odrIndicator h = true ∧ l ∈ everRegistered g.odrIndicator h ∧
          (2 ≤ C.detectOdrViolation ∨ g.size ≠ l.size) ∧
          C.isODRViolationSuppressed g.name = false) ∧
    (∀ i, s.odrIndicators i = REGISTERED ↔ latest i h = true) ∧
    (∀ i, NoneUnregistered i h → ∀ l, l ∈ everRegistered i h ↔ Registered h l ∧ l.odrIndicator = i) ∧
    (∀ i, OnlyLastUnregistered i h →
      (s.odrIndicators i = REGISTERED ↔ ∃ l, Registered h l ∧ l.odrIndicator = i)) := by
  have hsum := hrun.summary (by omega)
  have hbyte : ∀ i, s.odrIndicators i = REGISTERED ↔ latest i h = true := by
    intro i
    rw [hsum.indicator i]
    cases latest i h <;> decide
  refine ⟨fun g s' hg hstep => ?_, hbyte, fun i hnone l => mem_everRegistered_iff hnone l,
    fun i honly => ?_⟩
  · obtain ⟨-, -, hreports⟩ := registerGlobal_indicator (by omega) hg.1 hg.2 hstep
    rw [hsum.list, if_congr (hbyte _) rfl rfl] at hreports
    refine ⟨if latest g.odrIndicator h then
      ((everRegistered g.odrIndicator h).filter (reportable C g)).reverse else [], ?_, fun l => ?_⟩
    · rw [hreports]
      split_ifs
      · rw [List.map_reverse]
      · rfl
    · split_ifs with hl
      · rw [List.mem_reverse, List.mem_filter]
        simp [hl, reportable]
      · simp [hl]
  · rw [hbyte]
    constructor
    · exact exists_live_of_latest
    · rintro ⟨l, hl, hi⟩
      exact latest_of_live honly hl hi

/-- A global at the `k`-th granule of a page, with the indicator at `0x3000`. -/
def indicatedGlobal (k : ℕ) : Global where
  ptr := 0x2000 + 64 * k
  beg := 0x1000 + 64 * k
  size := 4 + k
  sizeWithRedzone := 64
  name := "g"
  moduleName := k + 1
  hasDynamicInit := false
  odrIndicator := 0x3000

/-- The first registration with an indicator sets its byte. -/
theorem odr_contract_one_global :
    ∃ s, registerGlobal .linuxX64 { shadow := fun _ => 0 } (indicatedGlobal 0) = some s ∧
      s.odrIndicators 0x3000 = REGISTERED := by
  have hstep := (Option.some_get (x := registerGlobal .linuxX64 { shadow := fun _ => 0 }
    (indicatedGlobal 0)) (by decide +kernel)).symm
  have hrun := OdrRun.start.registerGlobal (g := indicatedGlobal 0) ⟨by decide, by decide⟩ id hstep
  obtain ⟨-, hbyte, -⟩ := odr_contract .linuxX64 (by decide) hrun
  exact ⟨_, hstep, (hbyte 0x3000).mpr (by decide)⟩

/-- With two globals registered, the unregistration of the first clears the indicator byte, although the
second is still registered; and a global is reported against one that is not registered any more. -/
theorem odr_contract_stale :
    (¬ ∀ (s : Globals) (h : List Event), OdrRun .linuxX64 s h →
      (s.odrIndicators 0x3000 = REGISTERED ↔ ∃ l, Registered h l ∧ l.odrIndicator = 0x3000)) ∧
    ¬ ∀ (s s' : Globals) (h : List Event) (g l : Global), OdrRun .linuxX64 s h → HasIndicator g →
      s.reports = [] → registerGlobal .linuxX64 s g = some s' → (g, l) ∈ s'.reports → Registered h l := by
  have h0 : OdrRun .linuxX64 { shadow := fun _ => 0 } [] := .start
  have h1 := h0.registerGlobal (g := indicatedGlobal 0) ⟨by decide, by decide⟩ id
    (Option.some_get (by decide +kernel)).symm
  constructor
  · intro hall
    have h2 := h1.registerGlobal (g := indicatedGlobal 1) ⟨by decide, by decide⟩
      (by simp [Registered, indicatedGlobal]) (Option.some_get (by decide +kernel)).symm
    have h3 := h2.unregisterGlobal (g := indicatedGlobal 0) ⟨by decide, by decide⟩
      (Or.inr (Or.inl rfl)) (Option.some_get (by decide +kernel)).symm
    have hbyte := (hall _ _ h3).mpr
      ⟨indicatedGlobal 1, ⟨by decide, Or.inl rfl⟩, rfl⟩
    revert hbyte
    decide +kernel
  · intro hall
    have h2 := h1.unregisterGlobal (g := indicatedGlobal 0) ⟨by decide, by decide⟩ (Or.inl rfl)
      (Option.some_get (by decide +kernel)).symm
    have h3 := h2.registerGlobal (g := indicatedGlobal 1) ⟨by decide, by decide⟩
      (by simp [Registered, indicatedGlobal]) (Option.some_get (by decide +kernel)).symm
    have hlive := hall _ _ _ (indicatedGlobal 2) (indicatedGlobal 0) h3 ⟨by decide, by decide⟩
      (by decide +kernel) (Option.some_get (by decide +kernel)).symm (by decide +kernel)
    simp [Registered, indicatedGlobal] at hlive

end Tasan.Asan
