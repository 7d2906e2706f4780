import Tasan.Asan.Region

/-!
# Instrumented globals

`asan_globals.cpp`: the registration of globals, which poisons their redzones, and initialization
order checking, which poisons whole globals of other modules while the dynamic initializers of one
module run. A module name is a `const char *` that the code only compares, so that it is a number
here, with zero for `nullptr`.

The first part is the code. The second part is what each of its writers does to the access map of
one global: a global with its redzones is a run of granules (`WellFormed`), `PoisonShadowForGlobal`
gives them all one shadow value, and `PoisonRedZones` the values of an object of `g.size` bytes that
starts the run, where `flags()->poison_partial` says whether the granule that the object ends in is
poisoned from its end on (`visibleSize`).
-/

namespace Tasan.Asan

/-- `kAsanGlobalRedzoneMagic`. -/
def kAsanGlobalRedzoneMagic : Byte := 0xf9

/-- `kAsanInitializationOrderMagic`. -/
def kAsanInitializationOrderMagic : Byte := 0xf6

/-- `sizeof(__asan_global)`. -/
def sizeofGlobal : ℕ := 64

/-- `__asan_global`, without the source location, which only reports print. -/
structure Global where
  /-- The address of the record itself. -/
  ptr : ℕ
  /-- The address of the global. -/
  beg : ℕ
  /-- The size of the global. -/
  size : ℕ
  /-- The size of the global with its redzone. -/
  sizeWithRedzone : ℕ
  /-- The name of the global. -/
  name : String
  /-- The name of the module that the global is declared in, by its address. -/
  moduleName : ℕ
  /-- Whether the global has a dynamic initializer. -/
  hasDynamicInit : Bool
  /-- The address of the indicator symbol, zero when there is none. -/
  odrIndicator : ℕ
  deriving DecidableEq

/-- `DynInitGlobal`. -/
structure DynInitGlobal where
  /-- The global. -/
  g : Global
  /-- Whether its initializer has run. -/
  initialized : Bool := false
  deriving DecidableEq

/-- The flags that the code for globals reads, and the order in which `DenseMap::forEach` visits the
modules, which depends on their addresses. -/
structure GlobalsConfig extends Config where
  asanInited : Bool := true
  reportGlobals : ℕ := 1
  detectOdrViolation : ℕ := 2
  strictInitOrder : Bool := false
  isODRViolationSuppressed : String → Bool := fun _ => false
  /-- The order in which `forEach` visits the keys of `DynInitGlobals()`. -/
  forEachOrder : List ℕ → List ℕ := id
  /-- `forEach` visits each key once. -/
  forEachOrder_perm : ∀ keys, (forEachOrder keys).Perm keys := by exact fun _ => .rfl

/-- The default flags on x86-64 Linux. -/
def GlobalsConfig.linuxX64 : GlobalsConfig where
  mapping := Mapping.linuxX64
  pageLog_lt := Config.linuxX64.pageLog_lt

/-- What the code for globals reads and writes. -/
structure Globals where
  /-- The shadow memory. -/
  shadow : Mem
  /-- The bytes at the addresses of the indicator symbols. -/
  odrIndicators : ℕ → Byte := fun _ => 0
  listOfAllGlobals : List Global := []
  globalsByIndicator : ℕ → List Global := fun _ => []
  /-- The keys of `DynInitGlobals()`. -/
  modules : List ℕ := []
  /-- The values of `DynInitGlobals()`. -/
  dynInitGlobals : ℕ → List DynInitGlobal := fun _ => []
  currentDynamicInitModuleName : ℕ := 0
  checkInitializationOrder : Bool := true
  /-- The calls of `ReportODRViolation`, latest first. -/
  reports : List (Global × Global) := []

/-- The shadow byte that `FastPoisonShadowPartialRightRedzone` writes for the granule at offset `i`. -/
def partialShadowByte (C : Config) (size : ℕ) (value : Byte) (i : ℕ) : Byte :=
  if i + C.mapping.granularity ≤ size then 0
  else if size ≤ i then if C.mapping.granularity = 128 then 0xff else value
  else if C.poisonPartial then BitVec.ofNat 8 (size - i) else 0

/-- `FastPoisonShadowPartialRightRedzone`. -/
def fastPoisonShadowPartialRightRedzone (C : Config) (σ : Mem) (alignedAddr size redzoneSize : ℕ)
    (value : Byte) : Mem :=
  let g := C.mapping.granularity
  let shadow := C.mapping.MEM_TO_SHADOW alignedAddr
  (List.range ((redzoneSize + g - 1) / g)).foldl
    (fun σ j => σ.set (shadow + j) (partialShadowByte C size value (j * g))) σ

/-- `PoisonShadowForGlobal`. -/
def poisonShadowForGlobal (C : Config) (σ : Mem) (g : Global) (value : Byte) : Mem :=
  fastPoisonShadow C σ g.beg g.sizeWithRedzone value

/-- `PoisonRedZones`. -/
def poisonRedZones (C : Config) (σ : Mem) (g : Global) : Mem :=
  let gran := C.mapping.granularity
  let alignedSize := Word.roundUpTo 64 g.size gran
  let σ := fastPoisonShadow C σ (Word.add 64 g.beg alignedSize)
    (Word.sub 64 g.sizeWithRedzone alignedSize) kAsanGlobalRedzoneMagic
  if g.size ≠ alignedSize then
    fastPoisonShadowPartialRightRedzone C σ (Word.add 64 g.beg (Word.roundDownTo 64 g.size gran))
      (g.size % gran) gran kAsanGlobalRedzoneMagic
  else σ

/-- `UnpoisonDynamicGlobals`: the shadow and the list that it leaves. -/
def unpoisonDynamicGlobals (C : Config) (σ : Mem) (dynGlobals : List DynInitGlobal)
    (markInitialized : Bool) : Mem × List DynInitGlobal :=
  (dynGlobals.foldl (fun σ d =>
      if d.initialized then σ
      -- Unpoison the whole global, and poison redzones back.
      else poisonRedZones C (poisonShadowForGlobal C σ d.g 0) d.g) σ,
    dynGlobals.map fun d => { d with initialized := d.initialized || markInitialized })

/-- `PoisonDynamicGlobals`. -/
def poisonDynamicGlobals (C : Config) (σ : Mem) (dynGlobals : List DynInitGlobal) : Mem :=
  dynGlobals.foldl (fun σ d =>
    if d.initialized then σ else poisonShadowForGlobal C σ d.g kAsanInitializationOrderMagic) σ

/-- `UNREGISTERED`. -/
def UNREGISTERED : Byte := 0

/-- `REGISTERED`. -/
def REGISTERED : Byte := 1

/-- The indicator that says that a global is not checked. -/
def UINTPTR_MAX : ℕ := 2^64 - 1

namespace Globals

variable (C : GlobalsConfig) (s : Globals)

/-- The test that both checks make before they report a registered global `l` with `g`. -/
def reportable (g l : Global) : Bool :=
  (2 ≤ C.detectOdrViolation || g.size ≠ l.size) && !C.isODRViolationSuppressed g.name

/-- `CheckODRViolationViaIndicator`. -/
def checkODRViolationViaIndicator (g : Global) : Globals :=
  if g.odrIndicator = UINTPTR_MAX then s
  else
    let relevantGlobals := s.globalsByIndicator g.odrIndicator
    let s :=
      if s.odrIndicators g.odrIndicator = REGISTERED then
        { s with
          reports :=
            ((relevantGlobals.filter (reportable C g)).map (g, ·)).reverse ++ s.reports }
      else
        { s with odrIndicators := Function.update s.odrIndicators g.odrIndicator REGISTERED }
    { s with
      globalsByIndicator :=
        Function.update s.globalsByIndicator g.odrIndicator (g :: relevantGlobals) }

/-- `CheckODRViolationViaPoisoning`. -/
def checkODRViolationViaPoisoning (g : Global) : Option Globals :=
  match asanRegionIsPoisoned C.mapping.toLayout s.shadow g.beg g.sizeWithRedzone with
  | .error _ => none
  | .ok bad =>
    if bad ≠ 0 then
      let relevantGlobals := s.listOfAllGlobals.filter fun l => g.beg = l.beg && reportable C g l
      some { s with reports := (relevantGlobals.map (g, ·)).reverse ++ s.reports }
    else some s

/-- `UseODRIndicator`. -/
def useODRIndicator (g : Global) : Bool := 0 < g.odrIndicator

/-- The part of `RegisterGlobal` under `flags()->detect_odr_violation`. -/
def checkODRViolation (g : Global) : Option Globals :=
  if C.detectOdrViolation ≠ 0 then
    if useODRIndicator g then some (checkODRViolationViaIndicator C s g)
    else checkODRViolationViaPoisoning C s g
  else some s

/-- `DynInitGlobals()[moduleName]`, which inserts an empty list for a new key. -/
def touchModule (moduleName : ℕ) : Globals :=
  if moduleName ∈ s.modules then s else { s with modules := s.modules ++ [moduleName] }

/-- `DynInitGlobals()[g->module_name].push_back`. -/
def pushDynInitGlobal (g : Global) : Globals :=
  { touchModule s g.moduleName with
    dynInitGlobals := Function.update s.dynInitGlobals g.moduleName
      (s.dynInitGlobals g.moduleName ++ [{ g := g }]) }

/-- What `RegisterGlobal` does after its checks. -/
def addGlobal (g : Global) : Globals :=
  let s := if C.canPoisonMemory then { s with shadow := poisonRedZones C.toConfig s.shadow g } else s
  let s := { s with listOfAllGlobals := g :: s.listOfAllGlobals }
  if g.hasDynamicInit then pushDynInitGlobal s g else s

/-- `RegisterGlobal`. A misaligned global is reported before the `CHECK` on it fails. -/
def registerGlobal (g : Global) : Option Globals := do
  check C.asanInited
  check (C.reportGlobals ≠ 0)
  check (C.mapping.addrIsInMem g.beg)
  check (C.mapping.addrIsAlignedByGranularity g.beg)
  check (C.mapping.addrIsAlignedByGranularity g.sizeWithRedzone)
  let s ← checkODRViolation C s g
  return addGlobal C s g

/-- What `UnregisterGlobal` does after its checks. The global stays in the lists. -/
def releaseGlobal (g : Global) : Globals :=
  let s :=
    if C.canPoisonMemory then { s with shadow := poisonShadowForGlobal C.toConfig s.shadow g 0 }
    else s
  if useODRIndicator g && g.odrIndicator ≠ UINTPTR_MAX then
    { s with odrIndicators := Function.update s.odrIndicators g.odrIndicator UNREGISTERED }
  else s

/-- `UnregisterGlobal`. -/
def unregisterGlobal (g : Global) : Option Globals := do
  check C.asanInited
  check (C.reportGlobals ≠ 0)
  check (C.mapping.addrIsInMem g.beg)
  check (C.mapping.addrIsAlignedByGranularity g.beg)
  check (C.mapping.addrIsAlignedByGranularity g.sizeWithRedzone)
  return releaseGlobal C s g

/-- `PoisonShadow` on the metadata of `n` globals. -/
def poisonMetadata (globals n : ℕ) (value : Byte) : Option Globals :=
  (poisonShadow C.toConfig s.shadow globals (n * sizeofGlobal) value).map fun σ =>
    { s with shadow := σ }

/-- `__asan_register_globals`, on the array `gs` at the address `globals`. -/
def asanRegisterGlobals (globals : ℕ) (gs : List Global) : Option Globals :=
  if C.reportGlobals = 0 then some s
  else do
    let s ← gs.foldlM (registerGlobal C) s
    poisonMetadata C s globals gs.length kAsanGlobalRedzoneMagic

/-- `__asan_unregister_globals`. -/
def asanUnregisterGlobals (globals : ℕ) (gs : List Global) : Option Globals :=
  if C.reportGlobals = 0 then some s
  else do
    let s ← gs.foldlM (unregisterGlobal C) s
    poisonMetadata C s globals gs.length 0

/-- `PoisonDynamicGlobals` on the list of a module. -/
def poisonModule (moduleName : ℕ) : Globals :=
  { s with shadow := poisonDynamicGlobals C.toConfig s.shadow (s.dynInitGlobals moduleName) }

/-- `UnpoisonDynamicGlobals` on the list of a module. -/
def unpoisonModule (markInitialized : Bool) (moduleName : ℕ) : Globals :=
  let r := unpoisonDynamicGlobals C.toConfig s.shadow (s.dynInitGlobals moduleName) markInitialized
  { s with
    shadow := r.1
    dynInitGlobals := Function.update s.dynInitGlobals moduleName r.2 }

/-- `DynInitGlobals().forEach`. -/
def forEachModule (body : Globals → ℕ → Globals) : Globals :=
  (C.forEachOrder s.modules).foldl body s

/-- `UnpoisonDynamicGlobals` on all modules, with `mark_initialized` false. -/
def unpoisonAll : Globals := forEachModule C s fun s k => unpoisonModule C s false k

/-- `StopInitOrderChecking`. -/
def stopInitOrderChecking : Globals :=
  if !s.checkInitializationOrder then s
  else unpoisonAll C { s with checkInitializationOrder := false }

/-- The first call of `__asan_before_dynamic_init`: poison all globals from other modules. -/
def enterFirst (moduleName : ℕ) : Globals :=
  forEachModule C s fun s k =>
    if k ≠ moduleName then poisonModule C s k else unpoisonModule C s (!C.strictInitOrder) k

/-- The later calls of `__asan_before_dynamic_init`: module changed. -/
def enterNext (moduleName : ℕ) : Globals :=
  let s := poisonModule C (touchModule s s.currentDynamicInitModuleName)
    s.currentDynamicInitModuleName
  unpoisonModule C (touchModule s moduleName) (!C.strictInitOrder) moduleName

/-- `__asan_before_dynamic_init`. -/
def asanBeforeDynamicInit (moduleName : ℕ) : Option Globals :=
  if !s.checkInitializationOrder || !C.canPoisonMemory then some s
  else do
    check (moduleName ≠ 0)
    check C.asanInited
    if s.currentDynamicInitModuleName = moduleName then return s
    let s :=
      if s.currentDynamicInitModuleName = 0 then enterFirst C s moduleName
      else enterNext C s moduleName
    return { s with currentDynamicInitModuleName := moduleName }

/-- `__asan_after_dynamic_init`, with the value of `allow_after_dynamic_init`. -/
def asanAfterDynamicInit (allowAfterDynamicInit : Bool) : Option Globals :=
  if !s.checkInitializationOrder || !C.canPoisonMemory then some s
  else do
    check C.asanInited
    if !allowAfterDynamicInit then return s
    if s.currentDynamicInitModuleName = 0 then return s
    return { unpoisonAll C s with currentDynamicInitModuleName := 0 }

end Globals

/-- A call into the runtime. -/
inductive Call
  /-- `__asan_register_globals`. -/
  | registerGlobals (globals : ℕ) (gs : List Global)
  /-- `__asan_unregister_globals`. -/
  | unregisterGlobals (globals : ℕ) (gs : List Global)
  /-- `__asan_before_dynamic_init`. -/
  | beforeDynamicInit (moduleName : ℕ)
  /-- `__asan_after_dynamic_init`. -/
  | afterDynamicInit (allowAfterDynamicInit : Bool)
  | stopInitOrderChecking

/-- The state that a call leaves; `none` is a failed `CHECK`. -/
def Call.run (C : GlobalsConfig) (s : Globals) : Call → Option Globals
  | .registerGlobals globals gs => s.asanRegisterGlobals C globals gs
  | .unregisterGlobals globals gs => s.asanUnregisterGlobals C globals gs
  | .beforeDynamicInit moduleName => s.asanBeforeDynamicInit C moduleName
  | .afterDynamicInit allowAfterDynamicInit => s.asanAfterDynamicInit C allowAfterDynamicInit
  | .stopInitOrderChecking => some (s.stopInitOrderChecking C)

/-! ## The access map of a global -/

theorem check_bind_eq_some {α : Type} {b : Bool} {f : Unit → Option α} {x : α}
    (h : (check b >>= f) = some x) : ∃ u : Unit, b = true ∧ f u = some x := by
  cases b with
  | false => cases h
  | true => exact ⟨(), rfl, h⟩

section Register

variable {C : GlobalsConfig}

open Globals

theorem checkODRViolation_eq {s s' : Globals} {g : Global} (h : checkODRViolation C s g = some s') :
    s' = { s with
      odrIndicators := s'.odrIndicators
      globalsByIndicator := s'.globalsByIndicator
      reports := s'.reports } := by
  unfold checkODRViolation at h
  split_ifs at h with hflag huse
  · obtain rfl := Option.some.inj h
    unfold checkODRViolationViaIndicator
    split_ifs <;> rfl
  · unfold checkODRViolationViaPoisoning at h
    split at h
    · cases h
    · split_ifs at h
      all_goals
        obtain rfl := Option.some.inj h
        rfl
  · obtain rfl := Option.some.inj h
    rfl

theorem registerGlobal_eq_some {s s' : Globals} {g : Global} (h : registerGlobal C s g = some s') :
    ∃ s₁, checkODRViolation C s g = some s₁ ∧ s' = addGlobal C s₁ g := by
  unfold registerGlobal at h
  obtain ⟨-, -, h⟩ := check_bind_eq_some h
  obtain ⟨-, -, h⟩ := check_bind_eq_some h
  obtain ⟨-, -, h⟩ := check_bind_eq_some h
  obtain ⟨-, -, h⟩ := check_bind_eq_some h
  obtain ⟨-, -, h⟩ := check_bind_eq_some h
  obtain ⟨s₁, h1, h⟩ := Option.bind_eq_some_iff.mp h
  exact ⟨s₁, h1, (Option.some.inj h).symm⟩

end Register

/-- `FastPoisonShadow` on a run of granules of application memory, which may be empty at the end of
the memory. -/
theorem fastPoisonShadow_run (C : Config) (σ : Mem) {p n : ℕ} (value : Byte) (hp : 0 < p)
    (hprev : C.mapping.granularity * (p - 1) ≤ C.mapping.kHighMemEnd)
    (hrun : ∀ q, p ≤ q → q < p + n → C.mapping.granularity * q ≤ C.mapping.kHighMemEnd) :
    fastPoisonShadow C σ (C.mapping.granularity * p) (C.mapping.granularity * n) value =
      σ.fill (p + C.mapping.offset) n value := by
  rcases Nat.eq_zero_or_pos n with rfl | hn
  · have hg0 := C.mapping.granularity_pos
    have hlt := C.mapping.kHighMemEnd_lt
    have hle := C.mapping.granularity_le
    have hprevShadow := C.mapping.MEM_TO_SHADOW_of_le hprev
    have hprevLt := (C.mapping.MEM_TO_SHADOW_mem hprev).2
    rw [hprevShadow, Nat.mul_div_cancel_left _ hg0] at hprevLt
    have hmul : C.mapping.granularity * p = C.mapping.granularity * (p - 1) + C.mapping.granularity := by
      rw [← Nat.mul_succ, Nat.succ_eq_add_one, Nat.sub_add_cancel hp]
    have hend : Word.sub 64
        (Word.add 64 (C.mapping.granularity * p) (C.mapping.granularity * 0))
        C.mapping.granularity = C.mapping.granularity * (p - 1) := by
      rw [Nat.mul_zero, Word.add_of_lt (by omega), Word.sub_of_le (by omega) (by omega)]
      omega
    have hbeg : C.mapping.MEM_TO_SHADOW (C.mapping.granularity * p) = p + C.mapping.offset := by
      have hdiv : (C.mapping.granularity * p) >>> C.mapping.scale = p := by
        rw [Nat.shiftRight_eq_div_pow]
        exact Nat.mul_div_cancel_left _ hg0
      unfold Layout.MEM_TO_SHADOW
      rw [hdiv, C.mapping.wordsize_eq]
      exact Word.add_of_lt (by omega)
    unfold fastPoisonShadow
    dsimp only
    rw [hend, hbeg, hprevShadow, Nat.mul_div_cancel_left _ hg0, Word.add_of_lt (by omega),
      fillShadow_eq C σ value (by omega) (by omega)]
    congr 1
    omega
  · exact fastPoisonShadow_eq C σ p n value (by omega) (hrun p le_rfl (by omega))
      (hrun (p + n - 1) (by omega) (by omega))

theorem fastPoisonShadowPartialRightRedzone_granule (C : Config) (σ : Mem) {q size : ℕ}
    (value : Byte) (h : C.mapping.granularity * q ≤ C.mapping.kHighMemEnd) :
    fastPoisonShadowPartialRightRedzone C σ (C.mapping.granularity * q) size C.mapping.granularity
      value = σ.set (q + C.mapping.offset) (partialShadowByte C size value 0) := by
  have hg0 := C.mapping.granularity_pos
  have hone : (C.mapping.granularity + C.mapping.granularity - 1) / C.mapping.granularity = 1 := by
    rw [Nat.add_sub_assoc hg0, Nat.add_comm, Nat.add_div_right _ hg0, Nat.div_eq_of_lt (by omega)]
  unfold fastPoisonShadowPartialRightRedzone
  dsimp only
  rw [hone, C.mapping.MEM_TO_SHADOW_of_le h, Nat.mul_div_cancel_left _ hg0, List.range_one]
  simp only [List.foldl_cons, List.foldl_nil, Nat.add_zero, Nat.zero_mul]

namespace Global

variable (C : Config) (g : Global)

/-- The addresses of a global and its redzone. -/
def area : Set ℕ := {a | g.beg ≤ a ∧ a < g.beg + g.sizeWithRedzone}

/-- What a compiler emits: a global is an object in application memory, followed by its redzone, and
the two together are a run of granules. -/
structure WellFormed : Prop where
  /-- No global is at address zero. -/
  beg_pos : 0 < g.beg
  /-- The global is in application memory. -/
  beg_mem : C.mapping.addrIsInMem g.beg = true
  /-- The global and its redzone are in application memory. -/
  mem : ∀ a ∈ g.area, C.mapping.addrIsInMem a = true
  /-- The global starts a granule. -/
  beg_aligned : g.beg % C.mapping.granularity = 0
  /-- The redzone ends a granule. -/
  size_aligned : g.sizeWithRedzone % C.mapping.granularity = 0
  /-- The redzone follows the global. -/
  size_le : g.size ≤ g.sizeWithRedzone

/-- The number of bytes of a global that stay addressable: all of them, and the rest of the last
granule unless `flags()->poison_partial` is set. -/
def visibleSize : ℕ :=
  if C.poisonPartial then g.size
  else (g.size + C.mapping.granularity - 1) / C.mapping.granularity * C.mapping.granularity

/-- The addressable bytes of a global with its redzone are the first `k`. -/
def Shows (σ : Mem) (k : ℕ) : Prop :=
  ∀ q, C.mapping.granularity * q ∈ g.area →
    C.mapping.acc σ q = min C.mapping.granularity (g.beg + k - C.mapping.granularity * q)

variable {C} {g}

theorem mem_area_iff {p n q : ℕ} (hp : g.beg = C.mapping.granularity * p)
    (hn : g.sizeWithRedzone = C.mapping.granularity * n) :
    C.mapping.granularity * q ∈ g.area ↔ p ≤ q ∧ q < p + n := by
  have hg0 := C.mapping.granularity_pos
  unfold area
  rw [Set.mem_ofPred_eq, hp, hn, ← Nat.mul_add, Nat.mul_le_mul_left_iff hg0,
    Nat.mul_lt_mul_left hg0]

theorem WellFormed.granule_mem (h : g.WellFormed C) {a : ℕ} (ha : a ∈ g.area) :
    C.mapping.granularity * (a / C.mapping.granularity) ∈ g.area := by
  obtain ⟨p, hp⟩ := Nat.dvd_of_mod_eq_zero h.beg_aligned
  obtain ⟨n, hn⟩ := Nat.dvd_of_mod_eq_zero h.size_aligned
  have hg0 := C.mapping.granularity_pos
  obtain ⟨h1, h2⟩ := ha
  rw [mem_area_iff hp hn, Nat.le_div_iff_mul_le hg0, Nat.div_lt_iff_lt_mul hg0]
  rw [hp] at h1 h2
  rw [hn, ← Nat.mul_add] at h2
  rw [Nat.mul_comm p, Nat.mul_comm (p + n)]
  exact ⟨h1, h2⟩

theorem Shows.addressIsPoisoned_iff {σ : Mem} {k a : ℕ} (h : g.Shows C σ k) (hg : g.WellFormed C)
    (ha : a ∈ g.area) :
    addressIsPoisoned C.mapping.toLayout σ a = true ↔ g.beg + k ≤ a := by
  have hdiv := Nat.div_add_mod a C.mapping.granularity
  have hmod := Nat.mod_lt a C.mapping.granularity_pos
  rw [C.mapping.addressIsPoisoned_iff σ (C.mapping.le_of_addrIsInMem (hg.mem a ha)),
    h _ (hg.granule_mem ha)]
  omega

theorem Shows.congr {σ σ' : Mem} {k : ℕ} (h : g.Shows C σ k)
    (heq : ∀ q, C.mapping.granularity * q ∈ g.area → C.mapping.acc σ' q = C.mapping.acc σ q) :
    g.Shows C σ' k := by
  intro q hq
  rw [heq q hq]
  exact h q hq

theorem WellFormed.le_kHighMemEnd (h : g.WellFormed C) {p n : ℕ}
    (hp : g.beg = C.mapping.granularity * p) (hn : g.sizeWithRedzone = C.mapping.granularity * n)
    (q : ℕ) (h1 : p ≤ q) (h2 : q < p + n) :
    C.mapping.granularity * q ≤ C.mapping.kHighMemEnd :=
  C.mapping.le_of_addrIsInMem (h.mem _ ((mem_area_iff hp hn).mpr ⟨h1, h2⟩))

theorem acc_poisonShadowForGlobal (h : g.WellFormed C) (σ : Mem) (v : Byte) (q : ℕ) :
    (C.mapping.granularity * q ∈ g.area →
      C.mapping.acc (poisonShadowForGlobal C σ g v) q = prefixLen C.mapping.granularity v) ∧
    (C.mapping.granularity * q ∉ g.area →
      C.mapping.acc (poisonShadowForGlobal C σ g v) q = C.mapping.acc σ q) := by
  obtain ⟨p, hp⟩ := Nat.dvd_of_mod_eq_zero h.beg_aligned
  obtain ⟨n, hn⟩ := Nat.dvd_of_mod_eq_zero h.size_aligned
  have hp0 : 0 < p := Nat.pos_of_mul_pos_left (hp ▸ h.beg_pos)
  have hprev : C.mapping.granularity * (p - 1) ≤ C.mapping.kHighMemEnd := by
    have := C.mapping.le_of_addrIsInMem h.beg_mem
    have := Nat.mul_le_mul_left C.mapping.granularity (Nat.sub_le p 1)
    omega
  unfold poisonShadowForGlobal
  rw [mem_area_iff hp hn, hp, hn,
    fastPoisonShadow_run C σ v hp0 hprev (h.le_kHighMemEnd hp hn), C.mapping.acc_fill]
  exact ⟨fun hq => if_pos hq, fun hq => if_neg hq⟩

/-- `PoisonRedZones` in granules, for a global that fills `f` granules and `r` bytes more: the granules
after it are filled, and when `r` is not zero the granule that it ends in gets a partial byte. -/
theorem WellFormed.poisonRedZones_eq (h : g.WellFormed C) (σ : Mem) {p n f r : ℕ}
    (hp : g.beg = C.mapping.granularity * p) (hn : g.sizeWithRedzone = C.mapping.granularity * n)
    (hsize : g.size = C.mapping.granularity * f + r) (hr : r < C.mapping.granularity) :
    poisonRedZones C σ g =
      if r = 0 then σ.fill (p + f + C.mapping.offset) (n - f) kAsanGlobalRedzoneMagic
      else
        (σ.fill (p + (f + 1) + C.mapping.offset) (n - (f + 1)) kAsanGlobalRedzoneMagic).set
          (p + f + C.mapping.offset) (partialShadowByte C r kAsanGlobalRedzoneMagic 0) := by
  have hg0 := C.mapping.granularity_pos
  have hg := C.mapping.granularity_le
  have hs := C.mapping.scale_mem
  have hlt := C.mapping.kHighMemEnd_lt
  have hp0 : 0 < p := Nat.pos_of_mul_pos_left (hp ▸ h.beg_pos)
  have hbeg := C.mapping.le_of_addrIsInMem h.beg_mem
  have hle := h.size_le
  have hmem := h.le_kHighMemEnd hp hn
  -- The area ends at most one byte after the last one of memory.
  have hend : C.mapping.granularity * p + C.mapping.granularity * n ≤ C.mapping.kHighMemEnd + 1 := by
    rcases Nat.eq_zero_or_pos n with rfl | hn0
    · omega
    · have hpos := Nat.mul_pos hg0 hn0
      have hlast := C.mapping.le_of_addrIsInMem
        (h.mem (g.beg + g.sizeWithRedzone - 1) ⟨by omega, by omega⟩)
      omega
  have hgp : C.mapping.granularity ≤ C.mapping.granularity * p := Nat.le_mul_of_pos_right _ hp0
  have hfill : ∀ k, k ≤ n → fastPoisonShadow C σ (C.mapping.granularity * (p + k))
      (C.mapping.granularity * (n - k)) kAsanGlobalRedzoneMagic =
      σ.fill (p + k + C.mapping.offset) (n - k) kAsanGlobalRedzoneMagic := by
    intro k hk
    refine fastPoisonShadow_run C σ _ (by omega) ?_ fun q h1 h2 => hmem q (by omega) (by omega)
    rcases Nat.eq_zero_or_pos k with rfl | hk0
    · have := Nat.mul_le_mul_left C.mapping.granularity (Nat.sub_le p 1)
      rw [Nat.add_zero]
      omega
    · exact hmem _ (by omega) (by omega)
  have haddr : ∀ k, k ≤ n →
      Word.add 64 g.beg (C.mapping.granularity * k) = C.mapping.granularity * (p + k) ∧
      Word.sub 64 g.sizeWithRedzone (C.mapping.granularity * k) =
        C.mapping.granularity * (n - k) := by
    intro k hk
    have hkn := Nat.mul_le_mul_left C.mapping.granularity hk
    rw [hp, hn, Word.add_of_lt (by omega), Word.sub_of_le hkn (by omega), Nat.mul_add,
      Nat.mul_sub]
    exact ⟨rfl, rfl⟩
  have hfn : C.mapping.granularity * f ≤ C.mapping.granularity * n := by omega
  have hdown : Word.roundDownTo 64 g.size C.mapping.granularity = C.mapping.granularity * f := by
    rw [C.mapping.roundDownTo_eq (by omega), hsize, Nat.mul_add_div hg0, Nat.div_eq_of_lt hr,
      Nat.add_zero, Nat.mul_comm]
  have hmod : g.size % C.mapping.granularity = r := by
    rw [hsize, Nat.mul_add_mod, Nat.mod_eq_of_lt hr]
  unfold poisonRedZones
  dsimp only
  rw [C.mapping.roundUpTo_eq (by omega), hdown, hmod]
  rcases Nat.eq_zero_or_pos r with rfl | hr0
  · have hup : (g.size + C.mapping.granularity - 1) / C.mapping.granularity *
        C.mapping.granularity = C.mapping.granularity * f := by
      rw [hsize, Nat.add_zero, Nat.add_sub_assoc hg0, Nat.mul_add_div hg0,
        Nat.div_eq_of_lt (by omega), Nat.add_zero, Nat.mul_comm]
    have hf : f ≤ n := Nat.le_of_mul_le_mul_left hfn hg0
    rw [hup, if_neg (not_not.mpr (by omega)), if_pos rfl, (haddr f hf).1, (haddr f hf).2, hfill f hf]
  · have hup : (g.size + C.mapping.granularity - 1) / C.mapping.granularity *
        C.mapping.granularity = C.mapping.granularity * (f + 1) := by
      rw [hsize, show C.mapping.granularity * f + r + C.mapping.granularity - 1 =
          C.mapping.granularity * (f + 1) + (r - 1) by rw [Nat.mul_succ]; omega,
        Nat.mul_add_div hg0, Nat.div_eq_of_lt (by omega), Nat.add_zero, Nat.mul_comm]
    have hf : f + 1 ≤ n := by
      have hlt' : C.mapping.granularity * f < C.mapping.granularity * n := by omega
      exact Nat.lt_of_mul_lt_mul_left hlt'
    have hne : g.size ≠ C.mapping.granularity * (f + 1) := by
      rw [Nat.mul_succ]
      omega
    rw [hup, if_pos hne, if_neg hr0.ne', (haddr _ hf).1, (haddr _ hf).2, (haddr f (by omega)).1,
      hfill _ hf, fastPoisonShadowPartialRightRedzone_granule C _ _ (hmem _ (by omega) (by omega))]

theorem prefixLen_partialShadowByte (C : Config) {r : ℕ} (hr0 : 0 < r)
    (hr : r < C.mapping.granularity) (v : Byte) :
    prefixLen C.mapping.granularity (partialShadowByte C r v 0) =
      if C.poisonPartial then r else C.mapping.granularity := by
  have hg := C.mapping.granularity_le
  unfold partialShadowByte
  rw [if_neg (by omega), if_neg (by omega), Nat.sub_zero]
  split_ifs
  · exact prefixLen_ofNat hr0 hr.le (by omega)
  · exact prefixLen_zero _

theorem visibleSize_eq {f r : ℕ} (hsize : g.size = C.mapping.granularity * f + r)
    (hr : r < C.mapping.granularity) :
    g.visibleSize C = C.mapping.granularity * f +
      if r = 0 then 0 else if C.poisonPartial then r else C.mapping.granularity := by
  have hg0 := C.mapping.granularity_pos
  unfold visibleSize
  rcases Nat.eq_zero_or_pos r with rfl | hr0
  · have hup : (g.size + C.mapping.granularity - 1) / C.mapping.granularity *
        C.mapping.granularity = C.mapping.granularity * f := by
      rw [hsize, Nat.add_zero, Nat.add_sub_assoc hg0, Nat.mul_add_div hg0,
        Nat.div_eq_of_lt (by omega), Nat.add_zero, Nat.mul_comm]
    rw [hup, hsize, if_pos rfl, Nat.add_zero, ite_self]
  · have hup : (g.size + C.mapping.granularity - 1) / C.mapping.granularity *
        C.mapping.granularity = C.mapping.granularity * (f + 1) := by
      rw [hsize, show C.mapping.granularity * f + r + C.mapping.granularity - 1 =
          C.mapping.granularity * (f + 1) + (r - 1) by rw [Nat.mul_succ]; omega,
        Nat.mul_add_div hg0, Nat.div_eq_of_lt (by omega), Nat.add_zero, Nat.mul_comm]
    rw [hup, hsize, if_neg hr0.ne', Nat.mul_succ]
    split_ifs <;> rfl

theorem size_le_visibleSize (C : Config) (g : Global) : g.size ≤ g.visibleSize C := by
  have hr := Nat.mod_lt g.size C.mapping.granularity_pos
  have hsize := (Nat.div_add_mod g.size C.mapping.granularity).symm
  rw [visibleSize_eq hsize hr]
  split_ifs <;> omega

theorem visibleSize_eq_size_iff (C : Config) (g : Global) :
    g.visibleSize C = g.size ↔ C.poisonPartial = true ∨ g.size % C.mapping.granularity = 0 := by
  have hr := Nat.mod_lt g.size C.mapping.granularity_pos
  have hsize := (Nat.div_add_mod g.size C.mapping.granularity).symm
  rw [visibleSize_eq hsize hr]
  split_ifs with h1 h2
  · simp only [h1, or_true, iff_true]
    omega
  · simp only [h2, true_or, iff_true]
    omega
  · exact iff_of_false (by omega) (by rintro (h | h) <;> contradiction)

/-- `PoisonRedZones` leaves the granules that the global fills as they are, and the other granules of
the global as its visible size says. -/
theorem WellFormed.acc_poisonRedZones (h : g.WellFormed C) (σ : Mem) (q : ℕ) :
    (C.mapping.granularity * q ∈ g.area →
      g.beg + g.size < C.mapping.granularity * q + C.mapping.granularity →
      C.mapping.acc (poisonRedZones C σ g) q =
        min C.mapping.granularity (g.beg + g.visibleSize C - C.mapping.granularity * q)) ∧
    (C.mapping.granularity * q ∉ g.area ∨
        C.mapping.granularity * q + C.mapping.granularity ≤ g.beg + g.size →
      C.mapping.acc (poisonRedZones C σ g) q = C.mapping.acc σ q) := by
  obtain ⟨p, hp⟩ := Nat.dvd_of_mod_eq_zero h.beg_aligned
  obtain ⟨n, hn⟩ := Nat.dvd_of_mod_eq_zero h.size_aligned
  have hg0 := C.mapping.granularity_pos
  have hr := Nat.mod_lt g.size hg0
  have hsize := (Nat.div_add_mod g.size C.mapping.granularity).symm
  have hle := h.size_le
  have hneg : prefixLen C.mapping.granularity kAsanGlobalRedzoneMagic = 0 :=
    prefixLen_of_neg (by decide)
  generalize g.size / C.mapping.granularity = f at hsize
  generalize g.size % C.mapping.granularity = r at hsize hr
  rw [mem_area_iff hp hn, h.poisonRedZones_eq σ hp hn hsize hr, visibleSize_eq hsize hr, hp, hsize]
  have hfn : f ≤ n := Nat.le_of_mul_le_mul_left (by omega : C.mapping.granularity * f ≤
    C.mapping.granularity * n) hg0
  -- Whether granule `q` is before, at or after the one that the global ends in.
  rcases lt_trichotomy q (p + f) with hq | rfl | hq
  · have hmul := Nat.mul_le_mul_left C.mapping.granularity (Nat.succ_le_of_lt hq)
    rw [Nat.mul_succ, Nat.mul_add] at hmul
    refine ⟨fun _ hlt => absurd hlt (by omega), fun _ => ?_⟩
    split_ifs with hr0
    · rw [C.mapping.acc_fill, if_neg (by omega)]
    · rw [C.mapping.acc_set, if_neg (by omega), C.mapping.acc_fill, if_neg (by omega)]
  · rw [Nat.mul_add]
    constructor
    · rintro ⟨-, hq⟩ -
      split_ifs with hr0 hpp
      · rw [C.mapping.acc_fill, if_pos (by omega), hneg]
        omega
      · rw [C.mapping.acc_set, if_pos rfl, prefixLen_partialShadowByte C (by omega) hr, if_pos hpp]
        omega
      · rw [C.mapping.acc_set, if_pos rfl, prefixLen_partialShadowByte C (by omega) hr, if_neg hpp]
        omega
    · intro hor
      split_ifs with hr0
      · rw [C.mapping.acc_fill, if_neg (by omega)]
      · have : C.mapping.granularity * f < C.mapping.granularity * n := by omega
        have := Nat.lt_of_mul_lt_mul_left this
        omega
  · have hmul := Nat.mul_le_mul_left C.mapping.granularity (Nat.succ_le_of_lt hq)
    rw [Nat.mul_succ, Nat.mul_add] at hmul
    constructor
    · rintro ⟨-, hqn⟩ -
      split_ifs with hr0 hpp
      · rw [C.mapping.acc_fill, if_pos (by omega), hneg]
        omega
      all_goals
        rw [C.mapping.acc_set, if_neg (by omega), C.mapping.acc_fill, if_pos (by omega), hneg]
        omega
    · intro hor
      split_ifs with hr0
      · rw [C.mapping.acc_fill, if_neg (by omega)]
      · rw [C.mapping.acc_set, if_neg (by omega), C.mapping.acc_fill, if_neg (by omega)]

section Shows

variable {σ : Mem} {k : ℕ}

theorem not_mem_area {g' : Global} (h : Disjoint g.area g'.area) {a : ℕ} (ha : a ∈ g.area) :
    a ∉ g'.area := fun ha' => Set.disjoint_left.mp h ha ha'

theorem WellFormed.shows_poisonShadowForGlobal (h : g.WellFormed C) :
    g.Shows C (poisonShadowForGlobal C σ g kAsanInitializationOrderMagic) 0 := by
  intro q hq
  rw [(acc_poisonShadowForGlobal h σ _ q).1 hq, prefixLen_of_neg (by decide)]
  have := hq.1
  omega

theorem WellFormed.shows_unpoisonShadowForGlobal (h : g.WellFormed C) :
    g.Shows C (poisonShadowForGlobal C σ g 0) g.sizeWithRedzone := by
  intro q hq
  obtain ⟨p, hp⟩ := Nat.dvd_of_mod_eq_zero h.beg_aligned
  obtain ⟨n, hn⟩ := Nat.dvd_of_mod_eq_zero h.size_aligned
  have hlast := Nat.mul_le_mul_left C.mapping.granularity
    (Nat.succ_le_of_lt ((mem_area_iff hp hn).mp hq).2)
  rw [Nat.mul_succ, Nat.mul_add] at hlast
  rw [(acc_poisonShadowForGlobal h σ _ q).1 hq, prefixLen_zero]
  omega

theorem Shows.poisonRedZones (h : g.WellFormed C) (hs : g.Shows C σ g.sizeWithRedzone) :
    g.Shows C (poisonRedZones C σ g) (g.visibleSize C) := by
  intro q hq
  have hle := size_le_visibleSize C g
  have hsize := h.size_le
  rcases lt_or_ge (g.beg + g.size) (C.mapping.granularity * q + C.mapping.granularity) with hlt | hge
  · exact (h.acc_poisonRedZones σ q).1 hq hlt
  · rw [(h.acc_poisonRedZones σ q).2 (Or.inr hge), hs q hq]
    omega

theorem Shows.poisonShadowForGlobal_of_disjoint {g' : Global} (h : g.Shows C σ k)
    (hg' : g'.WellFormed C) (hd : Disjoint g.area g'.area) (v : Byte) :
    g.Shows C (poisonShadowForGlobal C σ g' v) k :=
  h.congr fun q hq => (acc_poisonShadowForGlobal hg' σ v q).2 (not_mem_area hd hq)

theorem Shows.poisonRedZones_of_disjoint {g' : Global} (h : g.Shows C σ k)
    (hg' : g'.WellFormed C) (hd : Disjoint g.area g'.area) :
    g.Shows C (Asan.poisonRedZones C σ g') k :=
  h.congr fun q hq => (hg'.acc_poisonRedZones σ q).2 (Or.inl (not_mem_area hd hq))

/-- The metadata of globals lies outside the global. -/
theorem Shows.poisonMetadata (h : g.Shows C σ k) {globals n : ℕ} {v : Byte} {σ' : Mem}
    (hpos : 0 < globals)
    (hmem : ∀ a, globals ≤ a → a < globals + n * sizeofGlobal →
      C.mapping.addrIsInMem a = true ∧ a ∉ g.area)
    (hrun : poisonShadow C σ globals (n * sizeofGlobal) v = some σ') : g.Shows C σ' k := by
  have hg0 := C.mapping.granularity_pos
  have hlt := C.mapping.kHighMemEnd_lt
  unfold poisonShadow at hrun
  dsimp only at hrun
  split_ifs at hrun with h0
  · obtain rfl := Option.some.inj hrun
    exact h
  obtain ⟨-, hal, hrun⟩ := check_bind_eq_some hrun
  obtain ⟨-, hin, hrun⟩ := check_bind_eq_some hrun
  obtain ⟨-, hal', hrun⟩ := check_bind_eq_some hrun
  obtain ⟨-, -, hrun⟩ := check_bind_eq_some hrun
  obtain rfl := Option.some.inj hrun
  rw [C.mapping.addrIsAlignedByGranularity_iff] at hal hal'
  have hle := C.mapping.le_of_addrIsInMem hin
  have hend : globals + n * sizeofGlobal ≤ C.mapping.kHighMemEnd + 1 := by
    rcases Nat.eq_zero_or_pos n with rfl | hn
    · omega
    · have hpos := Nat.mul_pos hn (show 0 < sizeofGlobal by decide)
      have := C.mapping.le_of_addrIsInMem
        (hmem (globals + n * sizeofGlobal - 1) (by omega) (by omega)).1
      omega
  rw [Word.add_of_lt (by omega)] at hal'
  obtain ⟨p, rfl⟩ := Nat.dvd_of_mod_eq_zero hal
  obtain ⟨m, hm⟩ := (Nat.dvd_add_right (Nat.dvd_mul_right _ p)).mp (Nat.dvd_of_mod_eq_zero hal')
  rw [hm] at hmem ⊢
  have hin : ∀ q, p ≤ q → q < p + m → C.mapping.addrIsInMem (C.mapping.granularity * q) = true ∧
      C.mapping.granularity * q ∉ g.area := by
    intro q h1 h2
    have h1' := Nat.mul_le_mul_left C.mapping.granularity h1
    have h2' := Nat.mul_lt_mul_of_pos_left h2 hg0
    rw [Nat.mul_add] at h2'
    exact hmem _ h1' h2'
  have hprev : C.mapping.granularity * (p - 1) ≤ C.mapping.kHighMemEnd :=
    (Nat.mul_le_mul_left _ (Nat.sub_le p 1)).trans hle
  refine h.congr fun q hq => ?_
  rw [fastPoisonShadow_run C σ v (Nat.pos_of_mul_pos_left hpos) hprev
    fun q h1 h2 => C.mapping.le_of_addrIsInMem (hin q h1 h2).1, C.mapping.acc_fill,
    if_neg fun hq' => (hin q hq'.1 hq'.2).2 hq]

end Shows

end Global

end Tasan.Asan
