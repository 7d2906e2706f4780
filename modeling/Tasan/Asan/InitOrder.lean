import Tasan.Asan.Globals

/-!
# Initialization order checking

What the runtime knows of a global, as far as the checking of initialization orders goes, is how many
of its leading bytes are addressable: all bytes of its area before it is registered, none while it is
hidden from the initializers of another module, and its visible size otherwise. `visible` gives that
number from the lists and flags of the runtime and from the globals that were registered `late`,
which are those that the incremental passes of `__asan_before_dynamic_init` do not reach, and
`InitOrder` says that the shadow memory agrees with it. Each call keeps it, so that it holds in every
run (`InitRun.initOrder`), and both contracts are read off it: `initOrder_exact`, what stays
addressable and what comes back, and `beforeDynamicInit_hides_iff`, what is hidden.
-/

namespace Tasan.Asan

open Globals

variable {C : GlobalsConfig}

/-- The globals of a program: objects of their own, with their redzones. -/
structure Program (C : GlobalsConfig) where
  /-- The records of the globals. -/
  globals : Set Global
  /-- Each global is laid out as the compiler does it. -/
  wellFormed : ∀ g ∈ globals, g.WellFormed C.toConfig
  /-- No two globals share a byte. -/
  disjoint : globals.Pairwise fun g g' => Disjoint g.area g'.area

/-! ## One global at a time -/

namespace Program

variable (P : Program C)

/-- The number of leading addressable bytes of each global. -/
def Shows (σ : Mem) (visible : Global → ℕ) : Prop :=
  ∀ g ∈ P.globals, g.Shows C.toConfig σ (visible g)

variable {P} {σ : Mem} {visible : Global → ℕ} {g : Global}

theorem Shows.hide (h : P.Shows σ visible) (hg : g ∈ P.globals) :
    P.Shows (poisonShadowForGlobal C.toConfig σ g kAsanInitializationOrderMagic)
      (Function.update visible g 0) := by
  intro g' hg'
  by_cases heq : g' = g
  · subst heq
    rw [Function.update_self]
    exact (P.wellFormed g' hg').shows_poisonShadowForGlobal
  · rw [Function.update_of_ne heq]
    exact (h g' hg').poisonShadowForGlobal_of_disjoint (P.wellFormed g hg)
      (P.disjoint hg' hg heq) _

theorem Shows.poisonRedZones (h : P.Shows σ visible) (hg : g ∈ P.globals)
    (hall : visible g = g.sizeWithRedzone) :
    P.Shows (Asan.poisonRedZones C.toConfig σ g)
      (Function.update visible g (g.visibleSize C.toConfig)) := by
  intro g' hg'
  by_cases heq : g' = g
  · subst heq
    rw [Function.update_self]
    exact Global.Shows.poisonRedZones (P.wellFormed g' hg') (hall ▸ h g' hg')
  · rw [Function.update_of_ne heq]
    exact (h g' hg').poisonRedZones_of_disjoint (P.wellFormed g hg) (P.disjoint hg' hg heq)

theorem Shows.restore (h : P.Shows σ visible) (hg : g ∈ P.globals) :
    P.Shows (Asan.poisonRedZones C.toConfig (poisonShadowForGlobal C.toConfig σ g 0) g)
      (Function.update visible g (g.visibleSize C.toConfig)) := by
  have hall : P.Shows (poisonShadowForGlobal C.toConfig σ g 0)
      (Function.update visible g g.sizeWithRedzone) := by
    intro g' hg'
    by_cases heq : g' = g
    · subst heq
      rw [Function.update_self]
      exact (P.wellFormed g' hg').shows_unpoisonShadowForGlobal
    · rw [Function.update_of_ne heq]
      exact (h g' hg').poisonShadowForGlobal_of_disjoint (P.wellFormed g hg)
        (P.disjoint hg' hg heq) _
  have := hall.poisonRedZones hg (Function.update_self ..)
  rwa [Function.update_idem] at this

end Program

/-! ## The lists of a module -/

/-- A global on the list of a module whose initializer has not run. -/
def Pending (dynGlobals : List DynInitGlobal) (g : Global) : Prop :=
  ∃ d ∈ dynGlobals, d.g = g ∧ d.initialized = false

instance (dynGlobals : List DynInitGlobal) (g : Global) : Decidable (Pending dynGlobals g) :=
  inferInstanceAs (Decidable (∃ d ∈ dynGlobals, _))

/-- The list that `UnpoisonDynamicGlobals` leaves. -/
def markAll (mark : Bool) (dynGlobals : List DynInitGlobal) : List DynInitGlobal :=
  dynGlobals.map fun d => { d with initialized := d.initialized || mark }

@[simp]
theorem markAll_false (dynGlobals : List DynInitGlobal) : markAll false dynGlobals = dynGlobals := by
  simp [markAll]

theorem mem_markAll {mark : Bool} {dynGlobals : List DynInitGlobal} {d : DynInitGlobal} :
    d ∈ markAll mark dynGlobals ↔
      ∃ d' ∈ dynGlobals, d.g = d'.g ∧ d.initialized = (d'.initialized || mark) := by
  unfold markAll
  rw [List.mem_map]
  constructor
  · rintro ⟨d', hd', rfl⟩
    exact ⟨d', hd', rfl, rfl⟩
  · rintro ⟨d', hd', h1, h2⟩
    refine ⟨d', hd', ?_⟩
    cases d
    simp_all

section Lists

variable {P : Program C} {σ : Mem} {visible : Global → ℕ} {dynGlobals : List DynInitGlobal}

theorem pending_cons_ite (d : DynInitGlobal) (hd : d.initialized = false) (f : Global → ℕ)
    (visible : Global → ℕ) :
    (fun g => if Pending dynGlobals g then f g else Function.update visible d.g (f d.g) g) =
      fun g => if Pending (d :: dynGlobals) g then f g else visible g := by
  funext g
  simp only [Pending, List.exists_mem_cons_iff, hd, and_true]
  by_cases hg : d.g = g
  · subst hg
    simp
  · simp [hg, Function.update_of_ne (Ne.symm hg)]

theorem pending_cons_of_initialized (d : DynInitGlobal) (hd : d.initialized = true) (g : Global) :
    Pending (d :: dynGlobals) g ↔ Pending dynGlobals g := by
  simp [Pending, hd]

theorem Program.Shows.poisonDynamicGlobals (h : P.Shows σ visible)
    (hmem : ∀ d ∈ dynGlobals, d.g ∈ P.globals) :
    P.Shows (Asan.poisonDynamicGlobals C.toConfig σ dynGlobals)
      (fun g => if Pending dynGlobals g then 0 else visible g) := by
  induction dynGlobals generalizing σ visible with
  | nil => simpa [Pending, Asan.poisonDynamicGlobals] using h
  | cons d dynGlobals ih =>
    obtain ⟨hd, hmem⟩ := List.forall_mem_cons.mp hmem
    unfold Asan.poisonDynamicGlobals at ih ⊢
    rw [List.foldl_cons]
    cases hinit : d.initialized with
    | true =>
      simp only [if_true, pending_cons_of_initialized d hinit]
      exact ih h hmem
    | false =>
      rw [if_neg Bool.false_ne_true, ← pending_cons_ite d hinit (fun _ => 0)]
      exact ih (h.hide hd) hmem

theorem Program.Shows.unpoisonDynamicGlobals (h : P.Shows σ visible)
    (hmem : ∀ d ∈ dynGlobals, d.g ∈ P.globals) (mark : Bool) :
    P.Shows (Asan.unpoisonDynamicGlobals C.toConfig σ dynGlobals mark).1
      (fun g => if Pending dynGlobals g then g.visibleSize C.toConfig else visible g) := by
  unfold Asan.unpoisonDynamicGlobals
  dsimp only
  induction dynGlobals generalizing σ visible with
  | nil => simpa [Pending] using h
  | cons d dynGlobals ih =>
    obtain ⟨hd, hmem⟩ := List.forall_mem_cons.mp hmem
    rw [List.foldl_cons]
    cases hinit : d.initialized with
    | true =>
      simp only [if_true, pending_cons_of_initialized d hinit]
      exact ih h hmem
    | false =>
      rw [if_neg Bool.false_ne_true,
        ← pending_cons_ite d hinit (fun g => g.visibleSize C.toConfig)]
      exact ih (h.restore hd) hmem

end Lists

/-! ## All modules -/

/-- One step of a pass over the modules: the modules of `hide` are hidden and the others shown. -/
def sweepModule (C : GlobalsConfig) (hide : ℕ → Bool) (mark : Bool) (s : Globals) (k : ℕ) : Globals :=
  if hide k then poisonModule C s k else unpoisonModule C s mark k

/-- The entries of each module are globals of the program that are declared in it. -/
def ListedByModule (P : Program C) (dynInitGlobals : ℕ → List DynInitGlobal) : Prop :=
  ∀ k, ∀ d ∈ dynInitGlobals k, d.g ∈ P.globals ∧ d.g.moduleName = k

/-- A pass over some of the modules. -/
theorem foldl_sweepModule {P : Program C} (hide : ℕ → Bool) (mark : Bool) {keys : List ℕ}
    (hkeys : keys.Nodup) {s : Globals} {visible : Global → ℕ} (h : P.Shows s.shadow visible)
    (hlist : ListedByModule P s.dynInitGlobals) :
    P.Shows (keys.foldl (sweepModule C hide mark) s).shadow
      (fun g =>
        if g.moduleName ∈ keys ∧ Pending (s.dynInitGlobals g.moduleName) g then
          if hide g.moduleName then 0 else g.visibleSize C.toConfig
        else visible g) ∧
    keys.foldl (sweepModule C hide mark) s =
      { s with
        shadow := (keys.foldl (sweepModule C hide mark) s).shadow
        dynInitGlobals := fun k =>
          if k ∈ keys ∧ hide k = false then markAll mark (s.dynInitGlobals k)
          else s.dynInitGlobals k } := by
  induction keys generalizing s visible with
  | nil => simpa using h
  | cons k keys ih =>
    obtain ⟨hk, hkeys⟩ := List.nodup_cons.mp hkeys
    have hmem : ∀ d ∈ s.dynInitGlobals k, d.g ∈ P.globals := fun d hd => (hlist k d hd).1
    have hpending : ∀ g, Pending (s.dynInitGlobals k) g ↔
        g.moduleName = k ∧ Pending (s.dynInitGlobals g.moduleName) g := by
      intro g
      constructor
      · rintro ⟨d, hd, rfl, hinit⟩
        obtain rfl := (hlist k d hd).2
        exact ⟨rfl, d, hd, rfl, hinit⟩
      · rintro ⟨rfl, hp⟩
        exact hp
    rw [List.foldl_cons]
    cases hhide : hide k with
    | true =>
      have hstep : sweepModule C hide mark s k = poisonModule C s k := if_pos hhide
      obtain ⟨hshows, heq⟩ := ih hkeys (s := poisonModule C s k) (h.poisonDynamicGlobals hmem) hlist
      rw [hstep]
      constructor
      · convert hshows using 2 with g
        have hp := hpending g
        by_cases hm : g.moduleName = k
        · simp [hm, hhide, hk, poisonModule]
        · simp [hm, hp, poisonModule]
      · rw [heq]
        congr 1
        funext j
        by_cases hj : j = k
        · simp [hj, hhide, hk, poisonModule]
        · simp [hj, poisonModule]
    | false =>
      have hstep : sweepModule C hide mark s k = unpoisonModule C s mark k := if_neg (by simp [hhide])
      have hdyn : ∀ j, (unpoisonModule C s mark k).dynInitGlobals j =
          if j = k then markAll mark (s.dynInitGlobals k) else s.dynInitGlobals j := by
        intro j
        exact Function.update_apply ..
      have hlist' : ListedByModule P (unpoisonModule C s mark k).dynInitGlobals := by
        intro j d hd
        rw [hdyn] at hd
        split_ifs at hd with hj
        · obtain ⟨d', hd', hg, -⟩ := mem_markAll.mp hd
          rw [hg, hj]
          exact hlist k d' hd'
        · exact hlist j d hd
      obtain ⟨hshows, heq⟩ := ih hkeys (s := unpoisonModule C s mark k)
        (h.unpoisonDynamicGlobals hmem mark) hlist'
      rw [hstep]
      constructor
      · convert hshows using 2 with g
        have hp := hpending g
        by_cases hm : g.moduleName = k
        · simp [hm, hhide, hk]
        · simp [hm, hp, hdyn]
      · rw [heq]
        congr 1
        funext j
        by_cases hj : j = k
        · simp [hj, hhide, hk, hdyn]
        · simp [hj, hdyn]

/-! ## The invariant -/

/-- The lists of globals: the globals of the program that are registered, and for each module those
of them that have a dynamic initializer, once each. -/
structure Listed (P : Program C) (registered : List Global) (modules : List ℕ)
    (dynInitGlobals : ℕ → List DynInitGlobal) : Prop where
  /-- Globals of the program are registered. -/
  mem : ∀ g ∈ registered, g ∈ P.globals
  /-- The entries of a module. -/
  listed : ∀ k, ∀ d ∈ dynInitGlobals k,
    d.g ∈ registered ∧ d.g.moduleName = k ∧ d.g.hasDynamicInit = true
  /-- Each registered global with a dynamic initializer has an entry. -/
  complete : ∀ g ∈ registered, g.hasDynamicInit = true →
    ∃ d ∈ dynInitGlobals g.moduleName, d.g = g
  /-- No global has two entries. -/
  unique : ∀ k, ∀ d ∈ dynInitGlobals k, ∀ d' ∈ dynInitGlobals k, d.g = d'.g → d = d'
  /-- The keys are distinct. -/
  nodup : modules.Nodup
  /-- A module with entries has a key. -/
  key : ∀ k, dynInitGlobals k ≠ [] → k ∈ modules

namespace Listed

variable {P : Program C} {registered : List Global} {modules : List ℕ}
  {dynInitGlobals : ℕ → List DynInitGlobal}

/-- Marking globals as initialized keeps the lists. -/
theorem mark (h : Listed P registered modules dynInitGlobals) (p : ℕ → Prop) [DecidablePred p]
    (b : Bool) :
    Listed P registered modules
      (fun k => if p k then markAll b (dynInitGlobals k) else dynInitGlobals k) := by
  have hmem : ∀ k, ∀ d ∈ (if p k then markAll b (dynInitGlobals k) else dynInitGlobals k),
      ∃ d' ∈ dynInitGlobals k, d.g = d'.g ∧
        d.initialized = (if p k then (d'.initialized || b) else d'.initialized) := by
    intro k d hd
    split_ifs at hd ⊢
    · exact mem_markAll.mp hd
    · exact ⟨d, hd, rfl, rfl⟩
  refine ⟨h.mem, fun k d hd => ?_, fun g hg hdyn => ?_, fun k d hd d' hd' heq => ?_, h.nodup,
    fun k hk => ?_⟩
  · obtain ⟨e, he, hg, -⟩ := hmem k d hd
    rw [hg]
    exact h.listed k e he
  · obtain ⟨d, hd, rfl⟩ := h.complete g hg hdyn
    split_ifs
    · exact ⟨{ d with initialized := d.initialized || b }, mem_markAll.mpr ⟨d, hd, rfl, rfl⟩, rfl⟩
    · exact ⟨d, hd, rfl⟩
  · obtain ⟨e, he, hg, hinit⟩ := hmem k d hd
    obtain ⟨e', he', hg', hinit'⟩ := hmem k d' hd'
    obtain rfl := h.unique k e he e' he' (by rw [← hg, ← hg', heq])
    cases d
    cases d'
    simp_all
  · refine h.key k fun hnil => hk ?_
    rw [hnil]
    split_ifs <;> rfl

theorem touch {s : Globals} (h : Listed P registered s.modules dynInitGlobals) (k : ℕ) :
    Listed P registered (s.touchModule k).modules dynInitGlobals := by
  unfold touchModule
  split_ifs with hk
  · exact h
  · refine ⟨h.mem, h.listed, h.complete, h.unique, ?_, fun j hj => ?_⟩
    · exact List.nodup_append.mpr ⟨h.nodup, List.nodup_singleton _, by
        rintro a ha b hb rfl
        exact hk (List.mem_singleton.mp hb ▸ ha)⟩
    · exact List.mem_append_left _ (h.key j hj)

theorem listedByModule (h : Listed P registered modules dynInitGlobals) :
    ListedByModule P dynInitGlobals :=
  fun k d hd => ⟨h.mem _ (h.listed k d hd).1, (h.listed k d hd).2.1⟩

theorem of_pending (h : Listed P registered modules dynInitGlobals) {k : ℕ} {g : Global}
    (hp : Pending (dynInitGlobals k) g) : g ∈ registered ∧ g.moduleName = k := by
  obtain ⟨d, hd, rfl, -⟩ := hp
  exact ⟨(h.listed k d hd).1, (h.listed k d hd).2.1⟩

end Listed

/-- A global that the runtime hides: another module is current, the global waits for its own
initializer, and the passes since its registration have reached it. -/
def Hidden (s : Globals) (late : List Global) (g : Global) : Prop :=
  s.checkInitializationOrder = true ∧ s.currentDynamicInitModuleName ≠ 0 ∧
    g.moduleName ≠ s.currentDynamicInitModuleName ∧
    Pending (s.dynInitGlobals g.moduleName) g ∧ g ∉ late

instance (s : Globals) (late : List Global) (g : Global) : Decidable (Hidden s late g) :=
  inferInstanceAs (Decidable (_ ∧ _))

/-- The number of leading addressable bytes of a global. -/
def visible (C : GlobalsConfig) (s : Globals) (late : List Global) (g : Global) : ℕ :=
  if g ∈ s.listOfAllGlobals then if Hidden s late g then 0 else g.visibleSize C.toConfig
  else g.sizeWithRedzone

/-- The shadow memory shows each global as the lists and flags of the runtime say. -/
structure InitOrder (P : Program C) (s : Globals) (late : List Global) : Prop where
  /-- The lists. -/
  listed : Listed P s.listOfAllGlobals s.modules s.dynInitGlobals
  /-- The shadow memory. -/
  shows : P.Shows s.shadow (visible C s late)
  /-- A late global waits for its initializer, and is not of the current module. -/
  late_pending : ∀ g ∈ late, Pending (s.dynInitGlobals g.moduleName) g ∧
    g.moduleName ≠ s.currentDynamicInitModuleName
  /-- Without a current module no global is late. -/
  late_nil : s.currentDynamicInitModuleName = 0 → late = []

/-- A pass over all modules. -/
theorem Listed.sweep {P : Program C} {s : Globals} {len : Global → ℕ}
    (h : Listed P s.listOfAllGlobals s.modules s.dynInitGlobals) (hshows : P.Shows s.shadow len)
    (hide : ℕ → Bool) (mark : Bool) :
    P.Shows (forEachModule C s (sweepModule C hide mark)).shadow
      (fun g =>
        if Pending (s.dynInitGlobals g.moduleName) g then
          if hide g.moduleName then 0 else g.visibleSize C.toConfig
        else len g) ∧
    forEachModule C s (sweepModule C hide mark) =
      { s with
        shadow := (forEachModule C s (sweepModule C hide mark)).shadow
        dynInitGlobals := fun k =>
          if hide k = false then markAll mark (s.dynInitGlobals k) else s.dynInitGlobals k } := by
  have hperm := C.forEachOrder_perm s.modules
  obtain ⟨h1, h2⟩ := foldl_sweepModule hide mark (hperm.nodup_iff.mpr h.nodup)
    hshows h.listedByModule
  have hkey : ∀ k, s.dynInitGlobals k ≠ [] → k ∈ C.forEachOrder s.modules :=
    fun k hk => hperm.mem_iff.mpr (h.key k hk)
  unfold forEachModule
  constructor
  · convert h1 using 2 with g
    refine if_congr (and_iff_right_of_imp fun hp => hkey _ ?_).symm rfl rfl
    obtain ⟨d, hd, -⟩ := hp
    exact List.ne_nil_of_mem hd
  · refine h2.trans ?_
    congr 1
    funext k
    by_cases hnil : s.dynInitGlobals k = []
    · simp [hnil, markAll]
    · simp [hkey k hnil]

/-! ## Registration -/

/-- The entry that the registration of a global adds to the list of a module. -/
def newEntry (g : Global) (k : ℕ) : List DynInitGlobal :=
  if g.hasDynamicInit = true ∧ k = g.moduleName then [{ g := g }] else []

/-- What `RegisterGlobal` changes, besides the shadow and what belongs to the check of the one
definition rule. -/
theorem addGlobal_eq (hc : C.canPoisonMemory = true) (s : Globals) (g : Global) :
    addGlobal C s g =
      { s with
        shadow := poisonRedZones C.toConfig s.shadow g
        listOfAllGlobals := g :: s.listOfAllGlobals
        modules := if g.hasDynamicInit then (s.touchModule g.moduleName).modules else s.modules
        dynInitGlobals := fun k => s.dynInitGlobals k ++ newEntry g k } := by
  unfold addGlobal newEntry
  rw [if_pos hc]
  cases hdyn : g.hasDynamicInit with
  | false => simp
  | true =>
    simp only [if_true, true_and, pushDynInitGlobal, touchModule]
    have hdyn : Function.update s.dynInitGlobals g.moduleName
        (s.dynInitGlobals g.moduleName ++ [{ g := g }]) =
        fun k => s.dynInitGlobals k ++ if k = g.moduleName then [{ g := g }] else [] := by
      funext k
      by_cases hk : k = g.moduleName
      · subst hk
        simp
      · simp [hk, Function.update_of_ne]
    rw [hdyn]
    split_ifs <;> rfl

/-- Whether a registration is late: the global has an initializer, and another module is current. -/
def isLate (s : Globals) (g : Global) : Bool :=
  g.hasDynamicInit && s.currentDynamicInitModuleName ≠ 0 &&
    g.moduleName ≠ s.currentDynamicInitModuleName

section Register

variable {P : Program C} {s s' : Globals} {late : List Global} {g : Global}

theorem mem_append_newEntry {dynGlobals : List DynInitGlobal} {k : ℕ} {d : DynInitGlobal} :
    d ∈ dynGlobals ++ newEntry g k ↔
      d ∈ dynGlobals ∨ (g.hasDynamicInit = true ∧ k = g.moduleName) ∧ d = { g := g } := by
  unfold newEntry
  split_ifs with h <;> simp [h]

theorem pending_append_newEntry {dynGlobals : List DynInitGlobal} {k : ℕ} {g' : Global} :
    Pending (dynGlobals ++ newEntry g k) g' ↔
      Pending dynGlobals g' ∨ (g.hasDynamicInit = true ∧ k = g.moduleName) ∧ g' = g := by
  unfold Pending
  simp only [mem_append_newEntry, or_and_right, exists_or]
  refine or_congr Iff.rfl ⟨?_, ?_⟩
  · rintro ⟨d, ⟨h, rfl⟩, rfl, -⟩
    exact ⟨h, rfl⟩
  · rintro ⟨h, rfl⟩
    exact ⟨_, ⟨h, rfl⟩, rfl, rfl⟩

/-- A new global is added to the lists. -/
theorem Listed.addGlobal {registered : List Global}
    (h : Listed P registered s.modules s.dynInitGlobals) (hg : g ∈ P.globals)
    (hnew : g ∉ registered) :
    Listed P (g :: registered)
      (if g.hasDynamicInit then (s.touchModule g.moduleName).modules else s.modules)
      (fun k => s.dynInitGlobals k ++ newEntry g k) := by
  have hne : ∀ k, ∀ d ∈ s.dynInitGlobals k, d.g ≠ g := by
    rintro k d hd rfl
    exact hnew (h.listed k d hd).1
  constructor
  case mem => exact List.forall_mem_cons.mpr ⟨hg, h.mem⟩
  case listed =>
    intro k d hd
    rcases mem_append_newEntry.mp hd with hd | ⟨⟨hdyn, rfl⟩, rfl⟩
    · obtain ⟨h1, h2⟩ := h.listed k d hd
      exact ⟨List.mem_cons_of_mem _ h1, h2⟩
    · exact ⟨List.mem_cons_self, rfl, hdyn⟩
  case complete =>
    intro g' hg' hdyn
    rcases List.mem_cons.mp hg' with rfl | hg'
    · exact ⟨{ g := g' }, mem_append_newEntry.mpr (Or.inr ⟨⟨hdyn, rfl⟩, rfl⟩), rfl⟩
    · obtain ⟨d, hd, heq⟩ := h.complete g' hg' hdyn
      exact ⟨d, List.mem_append_left _ hd, heq⟩
  case unique =>
    intro k d hd d' hd' heq
    rcases mem_append_newEntry.mp hd with hd | ⟨-, rfl⟩ <;>
      rcases mem_append_newEntry.mp hd' with hd' | ⟨-, rfl⟩
    · exact h.unique k d hd d' hd' heq
    · exact absurd heq (hne k d hd)
    · exact absurd heq.symm (hne k d' hd')
    · rfl
  case nodup =>
    split_ifs
    · exact (h.touch _).nodup
    · exact h.nodup
  case key =>
    intro k hk
    by_cases hnil : s.dynInitGlobals k = []
    · rw [hnil, List.nil_append] at hk
      unfold newEntry at hk
      split_ifs at hk with hdyn
      · rw [if_pos hdyn.1, hdyn.2]
        unfold touchModule
        split_ifs with hin
        · exact hin
        · exact List.mem_append_right _ List.mem_cons_self
      · exact absurd rfl hk
    · split_ifs
      · exact (h.touch _).key k hnil
      · exact h.key k hnil

/-- A registration shows the new global, which is late if another module is current. -/
theorem InitOrder.addGlobal (hc : C.canPoisonMemory = true) (h : InitOrder P s late)
    (hg : g ∈ P.globals) (hnew : g ∉ s.listOfAllGlobals) :
    InitOrder P (Globals.addGlobal C s g) (late ++ [g].filter (isLate s)) := by
  have hlate : ∀ g', g' ∈ late ++ [g].filter (isLate s) ↔ g' ∈ late ∨ isLate s g = true ∧ g' = g := by
    intro g'
    rw [List.mem_append, List.mem_filter, List.mem_singleton]
    constructor
    · rintro (h | ⟨rfl, h⟩)
      exacts [Or.inl h, Or.inr ⟨h, rfl⟩]
    · rintro (h | ⟨h, rfl⟩)
      exacts [Or.inl h, Or.inr ⟨rfl, h⟩]
  have hnotpending : ¬ Pending (s.dynInitGlobals g.moduleName) g :=
    fun hp => hnew (h.listed.of_pending hp).1
  rw [addGlobal_eq hc]
  constructor
  case listed => exact h.listed.addGlobal hg hnew
  case shows =>
    have hshows := h.shows.poisonRedZones hg (if_neg hnew)
    convert hshows using 1
    funext g'
    unfold visible Hidden
    simp only [pending_append_newEntry, hlate, List.mem_cons]
    by_cases heq : g' = g
    · -- The new global waits for its initializer only if it has one, and then it is late.
      subst heq
      rw [Function.update_self, if_pos (Or.inl rfl), if_neg]
      rintro ⟨-, h1, h2, hp, hnot⟩
      rcases hp with hp | ⟨⟨hdyn, -⟩, -⟩
      · exact hnotpending hp
      · refine hnot (Or.inr ⟨?_, rfl⟩)
        simp [isLate, hdyn, h1, h2]
    · simp only [Function.update_of_ne heq, heq, false_or, and_false, or_false]
      congr
  case late_pending =>
    intro g' hg'
    rw [pending_append_newEntry]
    rcases (hlate g').mp hg' with hg' | ⟨hl, rfl⟩
    · obtain ⟨h1, h2⟩ := h.late_pending g' hg'
      exact ⟨Or.inl h1, h2⟩
    · simp only [isLate, Bool.and_eq_true, decide_eq_true_eq] at hl
      exact ⟨Or.inr ⟨⟨hl.1.1, rfl⟩, rfl⟩, hl.2⟩
  case late_nil =>
    intro h0
    refine List.append_eq_nil_iff.mpr ⟨h.late_nil h0, ?_⟩
    have h0' : s.currentDynamicInitModuleName = 0 := h0
    simp [isLate, h0']

theorem InitOrder.checkODRViolation (h : InitOrder P s late)
    (hrun : Globals.checkODRViolation C s g = some s') : InitOrder P s' late := by
  rw [checkODRViolation_eq hrun]
  exact ⟨h.listed, h.shows, h.late_pending, h.late_nil⟩

/-- The globals of an array are registered one after another. -/
theorem InitOrder.registerAll (hc : C.canPoisonMemory = true) {gs : List Global}
    (h : InitOrder P s late) (hnodup : gs.Nodup)
    (hgs : ∀ g ∈ gs, g ∈ P.globals ∧ g ∉ s.listOfAllGlobals)
    (hrun : gs.foldlM (registerGlobal C) s = some s') :
    InitOrder P s' (late ++ gs.filter (isLate s)) := by
  induction gs generalizing s late with
  | nil =>
    obtain rfl := Option.some.inj hrun
    rwa [List.filter_nil, List.append_nil]
  | cons g gs ih =>
    obtain ⟨hg, hnodup⟩ := List.nodup_cons.mp hnodup
    obtain ⟨⟨hmem, hnew⟩, hgs⟩ := List.forall_mem_cons.mp hgs
    rw [List.foldlM_cons] at hrun
    obtain ⟨s₂, hone, hrun⟩ := Option.bind_eq_some_iff.mp hrun
    obtain ⟨s₁, hcheck, rfl⟩ := registerGlobal_eq_some hone
    have heq := checkODRViolation_eq hcheck
    have hlist : s₁.listOfAllGlobals = s.listOfAllGlobals := by rw [heq]
    have hcur : s₁.currentDynamicInitModuleName = s.currentDynamicInitModuleName := by rw [heq]
    have hlate₁ : isLate s₁ = isLate s := by
      funext g'
      unfold isLate
      rw [hcur]
    have hlate₂ : isLate (Globals.addGlobal C s₁ g) = isLate s := by
      rw [← hlate₁, addGlobal_eq hc]
      rfl
    have hone := (h.checkODRViolation hcheck).addGlobal hc hmem (hlist ▸ hnew)
    have hrest : ∀ g' ∈ gs, g' ∈ P.globals ∧
        g' ∉ (Globals.addGlobal C s₁ g).listOfAllGlobals := by
      intro g' hg'
      obtain ⟨h1, h2⟩ := hgs g' hg'
      rw [addGlobal_eq hc]
      dsimp only
      rw [hlist, List.mem_cons, not_or]
      exact ⟨h1, fun heq => hg (heq ▸ hg'), h2⟩
    have := ih hone hnodup hrest hrun
    rwa [hlate₁, hlate₂, List.append_assoc, ← List.filter_append, List.singleton_append] at this

/-- The metadata of the globals of an array, away from the globals of the program. -/
def Metadata (P : Program C) (globals n : ℕ) : Prop :=
  0 < globals ∧ ∀ a, globals ≤ a → a < globals + n * sizeofGlobal →
    C.mapping.addrIsInMem a = true ∧ ∀ g ∈ P.globals, a ∉ g.area

theorem InitOrder.poisonMetadata (h : InitOrder P s late) {globals n : ℕ} {v : Byte}
    (hmeta : Metadata P globals n) (hrun : Globals.poisonMetadata C s globals n v = some s') :
    InitOrder P s' late := by
  obtain ⟨σ, hσ, rfl⟩ := Option.map_eq_some_iff.mp hrun
  refine ⟨h.listed, fun g hg => ?_, h.late_pending, h.late_nil⟩
  exact (h.shows g hg).poisonMetadata hmeta.1
    (fun a h1 h2 => ⟨(hmeta.2 a h1 h2).1, (hmeta.2 a h1 h2).2 g hg⟩) hσ

end Register

/-! ## Entering and leaving a module -/

section Modules

variable {P : Program C} {s s' : Globals} {late : List Global}

/-- The first call of `__asan_before_dynamic_init` hides all other modules. -/
theorem InitOrder.enterFirst (h : InitOrder P s late) (hflag : s.checkInitializationOrder = true)
    (hcur : s.currentDynamicInitModuleName = 0) {moduleName : ℕ} (hm : moduleName ≠ 0) :
    InitOrder P { Globals.enterFirst C s moduleName with currentDynamicInitModuleName := moduleName }
      [] := by
  obtain ⟨hshows, heq⟩ := h.listed.sweep h.shows (fun k => decide (k ≠ moduleName))
    (!C.strictInitOrder)
  have hpass : Globals.enterFirst C s moduleName = forEachModule C s
      (sweepModule C (fun k => decide (k ≠ moduleName)) (!C.strictInitOrder)) := by
    unfold Globals.enterFirst sweepModule
    simp only [decide_eq_true_eq]
  rw [hpass]
  generalize forEachModule C s _ = s' at hshows heq ⊢
  rw [heq]
  constructor
  case listed =>
    simpa only [decide_eq_false_iff_not, not_not] using h.listed.mark (· = moduleName) _
  case shows =>
    convert hshows using 1
    funext g
    unfold visible Hidden
    simp only [hflag, hcur, hm, ne_eq, not_false_eq_true, not_true_eq_false, true_and, false_and,
      and_false, if_false, List.not_mem_nil, and_true, decide_eq_true_eq, decide_eq_false_iff_not,
      not_not]
    by_cases hreg : g ∈ s.listOfAllGlobals
    · by_cases hmod : g.moduleName = moduleName
      · simp [hreg, hmod]
      · simp [hreg, hmod]
    · have hnot : ¬ Pending (s.dynInitGlobals g.moduleName) g :=
        fun hp => hreg (h.listed.of_pending hp).1
      simp [hreg, hnot]
  case late_pending =>
    intro g hg
    cases hg
  case late_nil => exact fun _ => rfl

theorem unpoisonModule_dynInitGlobals (s : Globals) (mark : Bool) (k : ℕ) :
    (unpoisonModule C s mark k).dynInitGlobals =
      fun j => if j = k then markAll mark (s.dynInitGlobals j) else s.dynInitGlobals j := by
  funext j
  by_cases hj : j = k
  · subst hj
    simp [unpoisonModule, unpoisonDynamicGlobals, markAll]
  · simp [unpoisonModule, hj, Function.update_of_ne]

theorem enterNext_eq (s : Globals) (moduleName : ℕ) :
    Globals.enterNext C s moduleName =
      { s with
        shadow := (unpoisonDynamicGlobals C.toConfig
          (poisonDynamicGlobals C.toConfig s.shadow
            (s.dynInitGlobals s.currentDynamicInitModuleName))
          (s.dynInitGlobals moduleName) (!C.strictInitOrder)).1
        modules := ((s.touchModule s.currentDynamicInitModuleName).touchModule moduleName).modules
        dynInitGlobals := (unpoisonModule C s (!C.strictInitOrder) moduleName).dynInitGlobals } := by
  unfold Globals.enterNext touchModule poisonModule unpoisonModule unpoisonDynamicGlobals
  split_ifs <;> simp_all

/-- A later call of `__asan_before_dynamic_init` hides the module that was current and shows the one
that is entered, whose late globals are shown already. -/
theorem InitOrder.enterNext (h : InitOrder P s late) (hflag : s.checkInitializationOrder = true)
    (hcur : s.currentDynamicInitModuleName ≠ 0) {moduleName : ℕ} (hm : moduleName ≠ 0)
    (hne : s.currentDynamicInitModuleName ≠ moduleName) :
    InitOrder P { Globals.enterNext C s moduleName with currentDynamicInitModuleName := moduleName }
      (late.filter fun g => g.moduleName ≠ moduleName) := by
  have hmem : ∀ k, ∀ d ∈ s.dynInitGlobals k, d.g ∈ P.globals :=
    fun k d hd => (h.listed.listedByModule k d hd).1
  have hshows := (h.shows.poisonDynamicGlobals (hmem s.currentDynamicInitModuleName)
    ).unpoisonDynamicGlobals (hmem moduleName) (!C.strictInitOrder)
  have hpending : ∀ k g, Pending (s.dynInitGlobals k) g ↔
      g ∈ s.listOfAllGlobals ∧ g.moduleName = k ∧ Pending (s.dynInitGlobals g.moduleName) g := by
    intro k g
    constructor
    · intro hp
      obtain ⟨h1, rfl⟩ := h.listed.of_pending hp
      exact ⟨h1, rfl, hp⟩
    · rintro ⟨-, rfl, hp⟩
      exact hp
  rw [enterNext_eq]
  constructor
  case listed =>
    dsimp only
    rw [unpoisonModule_dynInitGlobals]
    exact ((h.listed.touch _).touch _).mark _ _
  case shows =>
    convert hshows using 1
    funext g
    have hlate := h.late_pending g
    unfold visible Hidden
    dsimp only
    rw [unpoisonModule_dynInitGlobals, if_congr (hpending moduleName g) rfl rfl,
      if_congr (hpending s.currentDynamicInitModuleName g) rfl rfl]
    by_cases hreg : g ∈ s.listOfAllGlobals
    · by_cases hp : Pending (s.dynInitGlobals g.moduleName) g
      · by_cases hmod : g.moduleName = moduleName
        · simp [hreg, hmod ▸ hp, hmod]
        · by_cases hc : g.moduleName = s.currentDynamicInitModuleName
          · have hnot : g ∉ late := fun hl => (hlate hl).2 hc
            simp [hreg, hc ▸ hp, hm, hc, hne, hflag, hnot]
          · simp [hreg, hp, hm, hmod, hc, hcur, hflag]
      · -- A global that does not wait for its initializer is visible before and after.
        by_cases hmod : g.moduleName = moduleName
        · subst hmod
          simp [hreg, hp]
        · simp [hreg, hp, hmod]
    · simp [hreg]
  case late_pending =>
    intro g hg
    obtain ⟨hg, hmod⟩ := List.mem_filter.mp hg
    rw [decide_eq_true_eq] at hmod
    dsimp only
    rw [unpoisonModule_dynInitGlobals]
    dsimp only
    rw [if_neg hmod]
    exact ⟨(h.late_pending g hg).1, hmod⟩
  case late_nil => exact fun h0 => absurd h0 hm

theorem Listed.unpoisonAll {len : Global → ℕ}
    (h : Listed P s.listOfAllGlobals s.modules s.dynInitGlobals) (hshows : P.Shows s.shadow len)
    (hlen : ∀ g, ¬ Pending (s.dynInitGlobals g.moduleName) g →
      len g = if g ∈ s.listOfAllGlobals then g.visibleSize C.toConfig else g.sizeWithRedzone) :
    P.Shows (Globals.unpoisonAll C s).shadow (fun g =>
      if g ∈ s.listOfAllGlobals then g.visibleSize C.toConfig else g.sizeWithRedzone) ∧
    Globals.unpoisonAll C s = { s with shadow := (Globals.unpoisonAll C s).shadow } := by
  obtain ⟨hall, heq⟩ := h.sweep hshows (fun _ => false) false
  have hpass : Globals.unpoisonAll C s = forEachModule C s (sweepModule C (fun _ => false) false) :=
    rfl
  rw [hpass]
  constructor
  · convert hall using 1
    funext g
    by_cases hp : Pending (s.dynInitGlobals g.moduleName) g
    · simp [hp, (h.of_pending hp).1]
    · simp [hp, hlen]
  · rw [heq]
    simp

theorem visible_of_not_pending {g : Global} (h : ¬ Pending (s.dynInitGlobals g.moduleName) g) :
    visible C s late g =
      if g ∈ s.listOfAllGlobals then g.visibleSize C.toConfig else g.sizeWithRedzone := by
  simp [visible, Hidden, h]

end Modules

/-! ## Runs -/

/-- The runtime before any global is registered: the globals of the program are addressable with their
redzones. -/
def Start (P : Program C) (s : Globals) : Prop :=
  ∃ σ odrIndicators flag,
    s = { shadow := σ, odrIndicators := odrIndicators, checkInitializationOrder := flag } ∧
    ∀ g ∈ P.globals, ∀ a ∈ g.area, addressIsPoisoned C.mapping.toLayout σ a = false

/-- The calls that a run may make: globals of the program are registered once, and not
unregistered. -/
def Admits (P : Program C) (s : Globals) : Call → Prop
  | .registerGlobals globals gs => gs.Nodup ∧
      (∀ g ∈ gs, g ∈ P.globals ∧ g ∉ s.listOfAllGlobals) ∧ Metadata P globals gs.length
  | .unregisterGlobals _ _ => False
  | _ => True

/-- The globals that are late after a call: those with a dynamic initializer that were registered while
another module was current, until their own module is entered or all modules are passed over. -/
def lateAfter (C : GlobalsConfig) (s : Globals) (late : List Global) : Call → List Global
  | .registerGlobals _ gs => if C.reportGlobals = 0 then late else late ++ gs.filter (isLate s)
  | .unregisterGlobals _ _ => late
  | .beforeDynamicInit moduleName =>
    if s.checkInitializationOrder = false ∨ s.currentDynamicInitModuleName = moduleName then late
    else if s.currentDynamicInitModuleName = 0 then []
    else late.filter fun g => g.moduleName ≠ moduleName
  | .afterDynamicInit allowAfterDynamicInit =>
    if s.checkInitializationOrder = true ∧ allowAfterDynamicInit = true then [] else late
  | .stopInitOrderChecking => late

/-- The states that are reached by sequences of calls, with the globals that are late there. -/
inductive InitRun (P : Program C) : Globals → List Global → Prop
  /-- The start. -/
  | start {s : Globals} (h : Start P s) : InitRun P s []
  /-- One more call. -/
  | step {s s' : Globals} {late : List Global} {call : Call} (h : InitRun P s late)
      (hadmits : Admits P s call) (hrun : call.run C s = some s') :
      InitRun P s' (lateAfter C s late call)

section Runs

variable {P : Program C} {s s' : Globals} {late : List Global}

theorem Global.Shows.of_addressable {g : Global} {σ : Mem} (hg : g.WellFormed C.toConfig)
    (h : ∀ a ∈ g.area, addressIsPoisoned C.mapping.toLayout σ a = false) :
    g.Shows C.toConfig σ g.sizeWithRedzone := by
  intro q hq
  have hg0 := C.mapping.granularity_pos
  obtain ⟨p, hp⟩ := Nat.dvd_of_mod_eq_zero hg.beg_aligned
  obtain ⟨n, hn⟩ := Nat.dvd_of_mod_eq_zero hg.size_aligned
  -- The last byte of the granule.
  have hlt := Nat.mul_le_mul_left C.mapping.granularity
    (Nat.succ_le_of_lt ((Global.mem_area_iff hp hn).mp hq).2)
  rw [Nat.mul_succ, Nat.mul_add] at hlt
  have hmem : C.mapping.granularity * q + (C.mapping.granularity - 1) ∈ g.area := by
    have := hq.1
    exact ⟨by omega, by omega⟩
  have hlast := h _ hmem
  rw [C.mapping.addressIsPoisoned_eq_false_iff σ (C.mapping.le_of_addrIsInMem (hg.mem _ hmem)),
    Nat.mul_add_div hg0, Nat.mul_add_mod, Nat.div_eq_of_lt (by omega),
    Nat.mod_eq_of_lt (by omega), Nat.add_zero] at hlast
  have := C.mapping.acc_le σ q
  omega

theorem Start.initOrder (h : Start P s) : InitOrder P s [] := by
  obtain ⟨σ, odrIndicators, flag, rfl, hclean⟩ := h
  refine ⟨⟨?_, ?_, ?_, ?_, List.nodup_nil, ?_⟩, fun g hg => ?_, ?_, fun _ => rfl⟩
  case refine_6 => exact Global.Shows.of_addressable (P.wellFormed g hg) (hclean g hg)
  all_goals simp

theorem InitOrder.asanRegisterGlobals (hc : C.canPoisonMemory = true) (h : InitOrder P s late)
    {globals : ℕ} {gs : List Global} (hadmits : Admits P s (.registerGlobals globals gs))
    (hrun : s.asanRegisterGlobals C globals gs = some s') :
    InitOrder P s' (lateAfter C s late (.registerGlobals globals gs)) := by
  obtain ⟨hnodup, hgs, hmeta⟩ := hadmits
  unfold Globals.asanRegisterGlobals at hrun
  rw [lateAfter]
  split_ifs at hrun ⊢ with hreport
  · obtain rfl := Option.some.inj hrun
    exact h
  · obtain ⟨s₁, hall, hrun⟩ := Option.bind_eq_some_iff.mp hrun
    exact (h.registerAll hc hnodup hgs hall).poisonMetadata hmeta hrun

/-- The cases of `__asan_before_dynamic_init`. -/
theorem asanBeforeDynamicInit_cases (hc : C.canPoisonMemory = true) {moduleName : ℕ}
    (hrun : s.asanBeforeDynamicInit C moduleName = some s') :
    s.checkInitializationOrder = false ∧ s' = s ∨
    s.checkInitializationOrder = true ∧ moduleName ≠ 0 ∧
      (s.currentDynamicInitModuleName = moduleName ∧ s' = s ∨
        s.currentDynamicInitModuleName = 0 ∧
          s' = { Globals.enterFirst C s moduleName with
            currentDynamicInitModuleName := moduleName } ∨
        s.currentDynamicInitModuleName ≠ 0 ∧ s.currentDynamicInitModuleName ≠ moduleName ∧
          s' = { Globals.enterNext C s moduleName with
            currentDynamicInitModuleName := moduleName }) := by
  unfold asanBeforeDynamicInit at hrun
  cases hflag : s.checkInitializationOrder with
  | false =>
    rw [hflag] at hrun
    exact Or.inl ⟨rfl, (Option.some.inj hrun).symm⟩
  | true =>
    rw [if_neg (by simp [hflag, hc])] at hrun
    obtain ⟨-, hm, hrun⟩ := check_bind_eq_some hrun
    obtain ⟨-, -, hrun⟩ := check_bind_eq_some hrun
    rw [decide_eq_true_eq] at hm
    refine Or.inr ⟨rfl, hm, ?_⟩
    split_ifs at hrun with hcur hzero
    · exact Or.inl ⟨hcur, (Option.some.inj hrun).symm⟩
    · exact Or.inr (Or.inl ⟨hzero, (Option.some.inj hrun).symm⟩)
    · exact Or.inr (Or.inr ⟨hzero, hcur, (Option.some.inj hrun).symm⟩)

theorem InitOrder.asanBeforeDynamicInit (hc : C.canPoisonMemory = true) (h : InitOrder P s late)
    {moduleName : ℕ} (hrun : s.asanBeforeDynamicInit C moduleName = some s') :
    InitOrder P s' (lateAfter C s late (.beforeDynamicInit moduleName)) := by
  rw [lateAfter]
  rcases asanBeforeDynamicInit_cases hc hrun with
    ⟨hflag, rfl⟩ | ⟨hflag, hm, ⟨hcur, rfl⟩ | ⟨hzero, rfl⟩ | ⟨hcur, hne, rfl⟩⟩
  · rwa [if_pos (Or.inl hflag)]
  · rwa [if_pos (Or.inr hcur)]
  · rw [if_neg (by simp [hflag, hzero, hm.symm]), if_pos hzero]
    exact h.enterFirst hflag hzero hm
  · rw [if_neg (by simp [hflag, hne]), if_neg hcur]
    exact h.enterNext hflag hcur hm hne

/-- `__asan_after_dynamic_init` keeps the invariant, and when it is effective it shows all globals. -/
theorem InitOrder.asanAfterDynamicInit (hc : C.canPoisonMemory = true) (h : InitOrder P s late)
    {allow : Bool} (hrun : s.asanAfterDynamicInit C allow = some s') :
    InitOrder P s' (lateAfter C s late (.afterDynamicInit allow)) := by
  unfold Globals.asanAfterDynamicInit at hrun
  rw [lateAfter]
  cases hflag : s.checkInitializationOrder with
  | false =>
    rw [hflag] at hrun
    obtain rfl := Option.some.inj hrun
    rwa [if_neg (by simp)]
  | true =>
    rw [if_neg (by simp [hflag, hc])] at hrun
    obtain ⟨-, -, hrun⟩ := check_bind_eq_some hrun
    cases allow with
    | false =>
      obtain rfl := Option.some.inj hrun
      rwa [if_neg (by simp)]
    | true =>
      rw [if_neg (by simp)] at hrun
      rw [if_pos ⟨rfl, rfl⟩]
      split_ifs at hrun with hcur
      · obtain rfl := Option.some.inj hrun
        rwa [← h.late_nil hcur]
      · obtain rfl := Option.some.inj hrun
        obtain ⟨hshows, heq⟩ := h.listed.unpoisonAll h.shows fun g => visible_of_not_pending
        generalize Globals.unpoisonAll C s = s₁ at hshows heq ⊢
        rw [heq]
        refine ⟨h.listed, ?_, ?_, fun _ => rfl⟩
        · convert hshows using 1
          funext g
          simp [visible, Hidden]
        · intro g hg
          cases hg

theorem InitOrder.stopInitOrderChecking (h : InitOrder P s late) :
    InitOrder P (s.stopInitOrderChecking C) late := by
  unfold Globals.stopInitOrderChecking
  cases hflag : s.checkInitializationOrder with
  | false => exact h
  | true =>
    rw [if_neg (by simp)]
    obtain ⟨hshows, heq⟩ := Listed.unpoisonAll (s := { s with checkInitializationOrder := false })
      h.listed h.shows fun g hp => visible_of_not_pending (s := s) hp
    generalize Globals.unpoisonAll C _ = s₁ at hshows heq ⊢
    rw [heq]
    refine ⟨h.listed, ?_, h.late_pending, h.late_nil⟩
    convert hshows using 1
    funext g
    simp [visible, Hidden]

theorem InitOrder.step (hc : C.canPoisonMemory = true) (h : InitOrder P s late) {call : Call}
    (hadmits : Admits P s call) (hrun : call.run C s = some s') :
    InitOrder P s' (lateAfter C s late call) := by
  cases call with
  | registerGlobals globals gs => exact h.asanRegisterGlobals hc hadmits hrun
  | unregisterGlobals globals gs => exact hadmits.elim
  | beforeDynamicInit moduleName => exact h.asanBeforeDynamicInit hc hrun
  | afterDynamicInit allow => exact h.asanAfterDynamicInit hc hrun
  | stopInitOrderChecking =>
    obtain rfl := Option.some.inj hrun
    exact h.stopInitOrderChecking

theorem InitRun.initOrder (hc : C.canPoisonMemory = true) (h : InitRun P s late) :
    InitOrder P s late := by
  induction h with
  | start h => exact h.initOrder
  | step _ hadmits hrun ih => exact ih.step hc hadmits hrun

/-! ## What stays addressable -/

theorem InitOrder.addressIsPoisoned_iff (h : InitOrder P s late) {g : Global}
    (hg : g ∈ s.listOfAllGlobals) {a : ℕ} (ha : a ∈ g.area) :
    addressIsPoisoned C.mapping.toLayout s.shadow a = true ↔
      Hidden s late g ∨ g.beg + g.visibleSize C.toConfig ≤ a := by
  have hmem := h.listed.mem g hg
  rw [(h.shows g hmem).addressIsPoisoned_iff (P.wellFormed g hmem) ha, visible, if_pos hg]
  have := ha.1
  split_ifs with hhid
  · simpa [hhid] using this
  · simp [hhid]

theorem InitOrder.addressIsPoisoned_iff_of_not_hidden (h : InitOrder P s late) {g : Global}
    (hg : g ∈ s.listOfAllGlobals) (hhid : ¬ Hidden s late g) {a : ℕ} (ha : a ∈ g.area) :
    addressIsPoisoned C.mapping.toLayout s.shadow a = true ↔
      g.beg + g.visibleSize C.toConfig ≤ a := by
  rw [h.addressIsPoisoned_iff hg ha, or_iff_right hhid]

theorem Listed.not_pending (h : Listed P s.listOfAllGlobals s.modules s.dynInitGlobals) {g : Global}
    (hg : g.hasDynamicInit = false ∨
      ∃ d ∈ s.dynInitGlobals g.moduleName, d.g = g ∧ d.initialized = true) :
    ¬ Pending (s.dynInitGlobals g.moduleName) g := by
  rintro ⟨d, hd, rfl, hinit⟩
  rcases hg with hdyn | ⟨d', hd', heq, hinit'⟩
  · rw [(h.listed _ d hd).2.2] at hdyn
    cases hdyn
  · obtain rfl := h.unique _ d hd d' hd' heq.symm
    rw [hinit] at hinit'
    cases hinit'

theorem asanAfterDynamicInit_current (hc : C.canPoisonMemory = true)
    (hflag : s.checkInitializationOrder = true)
    (hrun : s.asanAfterDynamicInit C true = some s') : s'.currentDynamicInitModuleName = 0 := by
  unfold Globals.asanAfterDynamicInit at hrun
  rw [if_neg (by simp [hflag, hc])] at hrun
  obtain ⟨-, -, hrun⟩ := check_bind_eq_some hrun
  rw [if_neg (by simp)] at hrun
  split_ifs at hrun with hcur
  all_goals obtain rfl := Option.some.inj hrun
  · exact hcur
  · rfl

theorem InitOrder.stopInitOrderChecking_flag (h : InitOrder P s late) :
    (s.stopInitOrderChecking C).checkInitializationOrder = false := by
  unfold Globals.stopInitOrderChecking
  cases hflag : s.checkInitializationOrder with
  | false => exact hflag
  | true =>
    rw [if_neg (by simp)]
    obtain ⟨-, heq⟩ := Listed.unpoisonAll (s := { s with checkInitializationOrder := false })
      h.listed h.shows fun g hp => visible_of_not_pending (s := s) hp
    rw [heq]

/-- At every moment of every run, with memory poisoning enabled: the bytes of each registered global
from its visible size to the end of its redzone are poisoned; each byte of a global that has no
dynamic initializer, is marked initialized or belongs to the current module is addressable; and after
an effective `__asan_after_dynamic_init` or a `StopInitOrderChecking` each registered global is
addressable exactly up to its visible size. The visible size is the size of the global, unless
`flags()->poison_partial` is off and the global does not fill its last granule. -/
theorem initOrder_exact (C : GlobalsConfig) (hc : C.canPoisonMemory = true) (P : Program C)
    {s : Globals} {late : List Global} (h : InitRun P s late) :
    (∀ g ∈ s.listOfAllGlobals, ∀ a, g.beg + g.visibleSize C.toConfig ≤ a →
      a < g.beg + g.sizeWithRedzone →
      addressIsPoisoned C.mapping.toLayout s.shadow a = true) ∧
    (∀ g ∈ s.listOfAllGlobals,
      (g.hasDynamicInit = false ∨
        (∃ d ∈ s.dynInitGlobals g.moduleName, d.g = g ∧ d.initialized = true) ∨
        g.moduleName = s.currentDynamicInitModuleName) →
      ∀ a, g.beg ≤ a → a < g.beg + g.size →
        addressIsPoisoned C.mapping.toLayout s.shadow a = false) ∧
    (∀ s', (s.checkInitializationOrder = true ∧ s.currentDynamicInitModuleName ≠ 0 ∧
          (Call.afterDynamicInit true).run C s = some s') ∨
        Call.stopInitOrderChecking.run C s = some s' →
      ∀ g ∈ s'.listOfAllGlobals, ∀ a ∈ g.area,
        (addressIsPoisoned C.mapping.toLayout s'.shadow a = false ↔
          a < g.beg + g.visibleSize C.toConfig)) ∧
    (∀ g ∈ s.listOfAllGlobals, g.visibleSize C.toConfig = g.size ↔
      C.poisonPartial = true ∨ g.size % C.mapping.granularity = 0) := by
  have hinv := h.initOrder hc
  refine ⟨fun g hg a h1 h2 => ?_, fun g hg hshow a h1 h2 => ?_, fun s' hs' g hg a ha => ?_,
    fun g _ => Global.visibleSize_eq_size_iff _ _⟩
  · exact (hinv.addressIsPoisoned_iff hg ⟨by omega, h2⟩).mpr (Or.inr h1)
  · have hsize := (P.wellFormed g (hinv.listed.mem g hg)).size_le
    have hvis := Global.size_le_visibleSize C.toConfig g
    have hhid : ¬ Hidden s late g := by
      rintro ⟨-, -, hmod, hp, -⟩
      rcases hshow with hdyn | hinit | hcur
      · exact hinv.listed.not_pending (Or.inl hdyn) hp
      · exact hinv.listed.not_pending (Or.inr hinit) hp
      · exact hmod hcur
    rw [← Bool.not_eq_true, hinv.addressIsPoisoned_iff_of_not_hidden hg hhid ⟨h1, by omega⟩]
    omega
  · obtain ⟨late', hinv', hoff⟩ : ∃ late', InitOrder P s' late' ∧
        (s'.currentDynamicInitModuleName = 0 ∨ s'.checkInitializationOrder = false) := by
      rcases hs' with ⟨hflag, -, hrun⟩ | hrun
      · exact ⟨_, hinv.asanAfterDynamicInit hc hrun,
          Or.inl (asanAfterDynamicInit_current hc hflag hrun)⟩
      · obtain rfl := Option.some.inj hrun
        exact ⟨_, hinv.stopInitOrderChecking, Or.inr hinv.stopInitOrderChecking_flag⟩
    have hhid : ¬ Hidden s' late' g := by
      rintro ⟨hflag, hcur, -⟩
      rcases hoff with h0 | h0
      · exact hcur h0
      · rw [h0] at hflag
        cases hflag
    rw [← Bool.not_eq_true, hinv'.addressIsPoisoned_iff_of_not_hidden hg hhid ha, not_le]

/-- A global of four bytes with a dynamic initializer, in a module of its own. -/
def dynGlobal (i : ℕ) : Global where
  ptr := 0x2000 + 64 * i
  beg := 0x1000 + 32 * i
  size := 4
  sizeWithRedzone := 32
  name := "g"
  moduleName := i + 1
  hasDynamicInit := true
  odrIndicator := UINTPTR_MAX

/-- A program of three such globals. -/
def threeModules (C : GlobalsConfig) (hC : C.mapping = Mapping.linuxX64) : Program C where
  globals := {g | ∃ i < 3, g = dynGlobal i}
  wellFormed := by
    rintro _ ⟨i, hi, rfl⟩
    constructor
    · exact Nat.add_pos_left (by decide) _
    · rw [hC]
      exact linuxX64_lowMem (show 0x1000 + 32 * i ≤ 0x7fff7fff by omega)
    · rintro a ⟨-, ha⟩
      have ha : a < 0x1000 + 32 * i + 32 := ha
      rw [hC]
      exact linuxX64_lowMem (by omega)
    · rw [hC]
      change (0x1000 + 32 * i) % 8 = 0
      omega
    · rw [hC]
      exact (by decide : 32 % Mapping.linuxX64.granularity = 0)
    · exact (by decide : 4 ≤ 32)
  disjoint := by
    rintro _ ⟨i, -, rfl⟩ _ ⟨j, -, rfl⟩ hne
    rw [Set.disjoint_left]
    rintro a ⟨h1, h2⟩ ⟨h3, h4⟩
    have h1 : 0x1000 + 32 * i ≤ a := h1
    have h2 : a < 0x1000 + 32 * i + 32 := h2
    have h3 : 0x1000 + 32 * j ≤ a := h3
    have h4 : a < 0x1000 + 32 * j + 32 := h4
    exact hne (by rw [show i = j by omega])

/-- The runtime before the globals are registered. -/
def cleanStart : Globals where
  shadow := fun _ => 0

theorem start_cleanStart (C : GlobalsConfig) (hC : C.mapping = Mapping.linuxX64) :
    Start (threeModules C hC) cleanStart := by
  refine ⟨fun _ => 0, fun _ => 0, true, rfl, fun g _ a _ => ?_⟩
  simp [addressIsPoisoned]

theorem metadata_threeModules (C : GlobalsConfig) (hC : C.mapping = Mapping.linuxX64) {i n : ℕ}
    (h : i + n ≤ 3) : Metadata (threeModules C hC) (0x2000 + 64 * i) n := by
  refine ⟨by omega, fun a h1 h2 => ?_⟩
  have h2 : a < 0x2000 + 64 * i + n * 64 := h2
  constructor
  · rw [hC]
    exact linuxX64_lowMem (by omega)
  · rintro _ ⟨j, hj, rfl⟩ ⟨-, h3⟩
    have h3 : a < 0x1000 + 32 * j + 32 := h3
    omega

theorem admits_cleanStart (C : GlobalsConfig) (hC : C.mapping = Mapping.linuxX64) :
    Admits (threeModules C hC) cleanStart (.registerGlobals 0x2000 [dynGlobal 0]) := by
  refine ⟨List.nodup_singleton _, ?_, metadata_threeModules C hC (i := 0) (by decide)⟩
  simpa [cleanStart] using ⟨0, by decide, rfl⟩

/-- After one registration the last byte of the redzone is poisoned and the first byte of the global is
not. -/
theorem initOrder_exact_one_global :
    ∃ s, (Call.registerGlobals 0x2000 [dynGlobal 0]).run .linuxX64 cleanStart = some s ∧
      addressIsPoisoned Mapping.linuxX64.toLayout s.shadow 0x101f = true ∧
      (∀ a, 0x1000 ≤ a → a < 0x1004 →
        addressIsPoisoned Mapping.linuxX64.toLayout s.shadow a = false ∨
          s.currentDynamicInitModuleName ≠ 1) := by
  have hrun := (Option.some_get (x := (Call.registerGlobals 0x2000 [dynGlobal 0]).run .linuxX64
    cleanStart) (by decide +kernel)).symm
  have h := InitRun.step (.start (start_cleanStart .linuxX64 rfl)) (admits_cleanStart .linuxX64 rfl)
    hrun
  obtain ⟨h1, h2, -⟩ := initOrder_exact .linuxX64 rfl _ h
  refine ⟨_, hrun, h1 (dynGlobal 0) (by decide +kernel) 0x101f (by decide) (by decide),
    fun a ha hlt => or_iff_not_imp_right.mpr fun hcur => ?_⟩
  exact h2 (dynGlobal 0) (by decide +kernel) (Or.inr (Or.inr (not_not.mp hcur).symm)) a ha hlt

/-- Without `flags()->poison_partial` the rest of the last granule of a global is addressable. -/
theorem partial_redzone_addressable :
    ¬ ∀ (C : GlobalsConfig), C.canPoisonMemory = true → ∀ (P : Program C) (s : Globals)
      (late : List Global), InitRun P s late → ∀ g ∈ s.listOfAllGlobals, ∀ a,
      g.beg + g.size ≤ a → a < g.beg + g.sizeWithRedzone →
      addressIsPoisoned C.mapping.toLayout s.shadow a = true := by
  intro hall
  have h := InitRun.step (.start (start_cleanStart { GlobalsConfig.linuxX64 with
      poisonPartial := false } rfl)) (admits_cleanStart _ rfl)
    (Option.some_get (by decide +kernel)).symm
  have := hall _ rfl _ _ _ h (dynGlobal 0) (by decide +kernel) 0x1004 (by decide) (by decide)
  revert this
  decide +kernel

/-! ## What is hidden -/

/-- What `__asan_before_dynamic_init` promises: every byte of a registered global with a dynamic
initializer that belongs to another module and is not marked initialized is poisoned, and every global
of the module is addressable exactly on its own bytes. -/
def HidesOthers (C : GlobalsConfig) (s : Globals) (moduleName : ℕ) : Prop :=
  (∀ g ∈ s.listOfAllGlobals, g.hasDynamicInit = true → g.moduleName ≠ moduleName →
    (∀ d ∈ s.dynInitGlobals g.moduleName, d.g = g → d.initialized = false) →
    ∀ a ∈ g.area, addressIsPoisoned C.mapping.toLayout s.shadow a = true) ∧
  (∀ g ∈ s.listOfAllGlobals, g.moduleName = moduleName → ∀ a ∈ g.area,
    (addressIsPoisoned C.mapping.toLayout s.shadow a = false ↔ a < g.beg + g.size))

theorem Global.WellFormed.visibleSize_le {g : Global} (hg : g.WellFormed C.toConfig) :
    g.visibleSize C.toConfig ≤ g.sizeWithRedzone := by
  obtain ⟨n, hn⟩ := Nat.dvd_of_mod_eq_zero hg.size_aligned
  have hg0 := C.mapping.granularity_pos
  have hle := hg.size_le
  unfold Global.visibleSize
  split_ifs
  · exact hle
  · rw [hn] at hle ⊢
    rw [Nat.mul_comm _ C.mapping.granularity]
    refine Nat.mul_le_mul_left _ ?_
    rw [← Nat.lt_succ_iff, Nat.div_lt_iff_lt_mul hg0, Nat.succ_mul, Nat.mul_comm n]
    omega

theorem InitOrder.asanBeforeDynamicInit_fields (hc : C.canPoisonMemory = true)
    (h : InitOrder P s late) (hflag : s.checkInitializationOrder = true) {moduleName : ℕ}
    (hrun : s.asanBeforeDynamicInit C moduleName = some s') :
    moduleName ≠ 0 ∧ s'.checkInitializationOrder = true ∧
      s'.currentDynamicInitModuleName = moduleName ∧ s'.listOfAllGlobals = s.listOfAllGlobals := by
  rcases asanBeforeDynamicInit_cases hc hrun with
    ⟨hoff, -⟩ | ⟨-, hm, ⟨hcur, rfl⟩ | ⟨hzero, rfl⟩ | ⟨hcur, hne, rfl⟩⟩
  · rw [hoff] at hflag
    cases hflag
  · exact ⟨hm, hflag, hcur, rfl⟩
  · obtain ⟨-, heq⟩ := h.listed.sweep h.shows (fun k => decide (k ≠ moduleName))
      (!C.strictInitOrder)
    have hpass : Globals.enterFirst C s moduleName = forEachModule C s
        (sweepModule C (fun k => decide (k ≠ moduleName)) (!C.strictInitOrder)) := by
      unfold Globals.enterFirst sweepModule
      simp only [decide_eq_true_eq]
    rw [hpass, heq]
    exact ⟨hm, hflag, rfl, rfl⟩
  · rw [enterNext_eq]
    exact ⟨hm, hflag, rfl, rfl⟩

/-- With the checking of initialization orders on, `__asan_before_dynamic_init` keeps its promise exactly
when no byte of a global is late, that is, no global with a dynamic initializer and a size was
registered while some other module was current and neither its own module nor, from no current module,
any module has been entered since; and when either `flags()->poison_partial` is on or the globals of
the module fill their granules. -/
theorem beforeDynamicInit_hides_iff (C : GlobalsConfig) (hc : C.canPoisonMemory = true)
    (P : Program C) {s s' : Globals} {late : List Global} (h : InitRun P s late)
    (hflag : s.checkInitializationOrder = true) (moduleName : ℕ)
    (hrun : (Call.beforeDynamicInit moduleName).run C s = some s') :
    HidesOthers C s' moduleName ↔
      (∀ g ∈ lateAfter C s late (.beforeDynamicInit moduleName), g.size = 0) ∧
      (C.poisonPartial = true ∨ ∀ g ∈ s.listOfAllGlobals, g.moduleName = moduleName →
        g.size % C.mapping.granularity = 0) := by
  have hold := h.initOrder hc
  have hinv := hold.asanBeforeDynamicInit hc hrun
  obtain ⟨hm, hflag', hcur, hlist⟩ := hold.asanBeforeDynamicInit_fields hc hflag hrun
  generalize lateAfter C s late (.beforeDynamicInit moduleName) = late' at hinv ⊢
  rw [← hlist]
  have hwf : ∀ g ∈ s'.listOfAllGlobals, g.WellFormed C.toConfig :=
    fun g hg => P.wellFormed g (hinv.listed.mem g hg)
  refine and_congr ⟨fun hother g hg => ?_, fun hlate g hg hdyn hmod hinit a ha => ?_⟩
    ⟨fun hown => ?_, fun hpart g hg hmod a ha => ?_⟩
  · -- A late global is shown, so that all its bytes are poisoned only if it has none.
    obtain ⟨hp, hmod⟩ := hinv.late_pending g hg
    rw [hcur] at hmod
    obtain ⟨d, hd, hdg, hdinit⟩ := hp
    obtain ⟨hreg, -, hdyn⟩ := hinv.listed.listed _ d hd
    rw [hdg] at hreg hdyn
    have hhid : ¬ Hidden s' late' g := fun hhid => hhid.2.2.2.2 hg
    have hinit : ∀ d' ∈ s'.dynInitGlobals g.moduleName, d'.g = g → d'.initialized = false := by
      intro d' hd' heq
      rw [hinv.listed.unique _ d' hd' d hd (heq.trans hdg.symm)]
      exact hdinit
    have hvis := Global.size_le_visibleSize C.toConfig g
    have hle := (hwf g hreg).size_le
    by_contra hsize
    have hbeg : g.beg ∈ g.area := ⟨le_rfl, by omega⟩
    have := (hinv.addressIsPoisoned_iff_of_not_hidden hreg hhid hbeg).mp
      (hother g hreg hdyn hmod hinit g.beg hbeg)
    omega
  · rw [hinv.addressIsPoisoned_iff hg ha]
    obtain ⟨d, hd, hdg⟩ := hinv.listed.complete g hg hdyn
    by_cases hl : g ∈ late'
    · have hzero : g.visibleSize C.toConfig = 0 := by
        have h0 := hlate g hl
        unfold Global.visibleSize
        rw [h0, Nat.zero_add, Nat.div_eq_of_lt (Nat.sub_lt C.mapping.granularity_pos one_pos),
          Nat.zero_mul, ite_self]
      exact Or.inr (by rw [hzero]; exact ha.1)
    · refine Or.inl ⟨hflag', by rwa [hcur], by rwa [hcur], ⟨d, hd, hdg, hinit d hd hdg⟩, hl⟩
  · -- The byte after a global is poisoned only if it is not visible.
    by_contra hpart
    push Not at hpart
    obtain ⟨hpp, g, hg, hmod, hsize⟩ := hpart
    have hne : g.visibleSize C.toConfig ≠ g.size := by
      rw [Ne, Global.visibleSize_eq_size_iff, not_or]
      exact ⟨hpp, hsize⟩
    have hvis := Global.size_le_visibleSize C.toConfig g
    have hle := (hwf g hg).visibleSize_le
    have hhid : ¬ Hidden s' late' g := fun hhid => hhid.2.2.1 (hmod.trans hcur.symm)
    have ha : g.beg + g.size ∈ g.area := ⟨by omega, by omega⟩
    have hpois := (hown g hg hmod _ ha).not.mpr (lt_irrefl _)
    rw [Bool.not_eq_false, hinv.addressIsPoisoned_iff_of_not_hidden hg hhid ha] at hpois
    omega
  · have hvis : g.visibleSize C.toConfig = g.size :=
      (Global.visibleSize_eq_size_iff _ _).mpr (hpart.imp id fun hpart => hpart g hg hmod)
    have hhid : ¬ Hidden s' late' g := fun hhid => hhid.2.2.1 (hmod.trans hcur.symm)
    rw [← Bool.not_eq_true, hinv.addressIsPoisoned_iff_of_not_hidden hg hhid ha, hvis, not_le]

/-- Before the initializers of its own module, a global is addressable exactly on its own bytes. -/
theorem beforeDynamicInit_hides_one_global :
    ∃ s s', (Call.registerGlobals 0x2000 [dynGlobal 0]).run .linuxX64 cleanStart = some s ∧
      (Call.beforeDynamicInit 1).run .linuxX64 s = some s' ∧ HidesOthers .linuxX64 s' 1 := by
  have hreg := (Option.some_get (x := (Call.registerGlobals 0x2000 [dynGlobal 0]).run .linuxX64
    cleanStart) (by decide +kernel)).symm
  have h := InitRun.step (.start (start_cleanStart .linuxX64 rfl)) (admits_cleanStart .linuxX64 rfl)
    hreg
  refine ⟨_, _, hreg, (Option.some_get (by decide +kernel)).symm,
    (beforeDynamicInit_hides_iff .linuxX64 rfl _ h (by decide +kernel) 1
      (Option.some_get (by decide +kernel)).symm).mpr ⟨by decide +kernel, Or.inl rfl⟩⟩

/-- A global that is registered while the first module is current is not hidden from the second. -/
theorem beforeDynamicInit_misses_late :
    ¬ ∀ (P : Program .linuxX64) (s s' : Globals) (late : List Global) (moduleName : ℕ),
      InitRun P s late → s.checkInitializationOrder = true →
      (Call.beforeDynamicInit moduleName).run .linuxX64 s = some s' →
      HidesOthers .linuxX64 s' moduleName := by
  intro hall
  have h1 := InitRun.step (.start (start_cleanStart .linuxX64 rfl)) (admits_cleanStart .linuxX64 rfl)
    (Option.some_get (by decide +kernel)).symm
  have h2 := h1.step (show Admits _ _ (.beforeDynamicInit 1) from trivial)
    (Option.some_get (by decide +kernel)).symm
  have hadmits : ∀ s : Globals, s.listOfAllGlobals = [dynGlobal 0] →
      Admits (threeModules .linuxX64 rfl) s
        (.registerGlobals 0x2040 [dynGlobal 1, dynGlobal 2]) := by
    intro s hlist
    refine ⟨by decide, fun g hg => ?_, metadata_threeModules _ rfl (i := 1) (by decide)⟩
    rw [hlist]
    rcases List.mem_pair.mp hg with rfl | rfl
    · exact ⟨⟨1, by decide, rfl⟩, by decide⟩
    · exact ⟨⟨2, by decide, rfl⟩, by decide⟩
  have h3 := h2.step (hadmits _ (by decide +kernel)) (Option.some_get (by decide +kernel)).symm
  have hides := hall _ _ _ _ 2 h3 (by decide +kernel) (Option.some_get (by decide +kernel)).symm
  have := hides.1 (dynGlobal 2) (by decide +kernel) rfl (by decide) (by decide +kernel) 0x1040
    (by constructor <;> decide)
  revert this
  decide +kernel

end Runs

end Tasan.Asan
