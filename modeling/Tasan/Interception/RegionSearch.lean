import Tasan.Fuel
import Tasan.Word
import Tasan.Interception.Override

/-!
# The search for a new trampoline region

`AllocateTrampolineRegion` looks for free memory within the limits of `AllocateMemoryForTrampoline`, with
two probes that go outwards from the function. Two things can go wrong. Below a free region that is too
small the lower probe goes on from the `AllocationBase` of that region, which `VirtualQuery` does not
specify for free memory. And the limits are not always within 2 GiB of the end of a jump in the function.
`run_sound` says that all is well in the runs that avoid this: the search ends, its probes are within the
limits, the blocks are disjoint and in regions of the system, and the jumps reach them.
-/

namespace Tasan.Interception

/-! ## The model -/

/-- The parts of `MEMORY_BASIC_INFORMATION` that are read. -/
structure MemoryBasicInformation where
  baseAddress : ℕ
  allocationBase : ℕ
  regionSize : ℕ
  /-- `State == MEM_FREE`. -/
  free : Bool
  deriving DecidableEq

/-- `SYSTEM_INFO`. -/
structure SystemInfo where
  /-- `lpMinimumApplicationAddress`. -/
  minimumApplicationAddress : ℕ
  /-- `lpMaximumApplicationAddress`. -/
  maximumApplicationAddress : ℕ
  /-- `dwAllocationGranularity`. -/
  granularity : ℕ

/-- What the system answers during a call. -/
structure Answers where
  /-- The base and the size of the module of the function, when it has one. -/
  moduleInformation : Option (Word × Word)
  /-- `VirtualQuery`, when it succeeds. -/
  virtualQuery : ℕ → Option MemoryBasicInformation
  /-- Whether `VirtualAlloc` succeeds at an address. -/
  virtualAlloc : ℕ → Bool

variable (I : SystemInfo) (A : Answers)

/-- `min_addr`, clamped to the accessible address space. -/
def clampMin (minAddr : ℕ) : ℕ :=
  max minAddr (Word.roundUpTo 64 I.minimumApplicationAddress I.granularity)

/-- `max_addr`, clamped to the accessible address space. -/
def clampMax (maxAddr : ℕ) : ℕ :=
  min maxAddr (Word.roundDownTo 64 I.maximumApplicationAddress I.granularity)

/-- The in-range address closest to `func_addr`. -/
def probe (minAddr maxAddr funcAddr loAddr hiAddr : ℕ) : ℕ :=
  if loAddr < minAddr then hiAddr
  else if maxAddr < hiAddr then loAddr
  else if Word.sub 64 hiAddr funcAddr < Word.sub 64 funcAddr loAddr then hiAddr else loAddr

/-- The loop of `AllocateTrampolineRegion`: the region, or zero, and the addresses that were probed, the
last one first. -/
def probeLoop (minAddr maxAddr funcAddr : ℕ) :
    (fuel loAddr hiAddr : ℕ) → (probes : List ℕ) → Outcome Empty (ℕ × List ℕ)
  | 0, _, _, _ => .unfinished
  | fuel + 1, loAddr, hiAddr, probes =>
    if minAddr ≤ loAddr ∨ hiAddr ≤ maxAddr then
      let addr := probe minAddr maxAddr funcAddr loAddr hiAddr
      match A.virtualQuery addr with
      | none => .returned (0, addr :: probes)
      | some info =>
        -- Check whether a region can be allocated at `addr`.
        if info.free ∧ I.granularity ≤ info.regionSize then
          .returned (if A.virtualAlloc addr then addr else 0, addr :: probes)
        else
          probeLoop minAddr maxAddr funcAddr fuel
            (if addr = loAddr then
              Word.roundDownTo 64 (Word.sub 64 info.allocationBase I.granularity) I.granularity
            else loAddr)
            (if addr = hiAddr then
              Word.roundUpTo 64 (Word.add 64 info.baseAddress info.regionSize) I.granularity
            else hiAddr)
            (addr :: probes)
    else .returned (0, probes)

/-- `AllocateTrampolineRegion`. -/
def allocateTrampolineRegion (fuel minAddr maxAddr funcAddr : ℕ) : Outcome Empty (ℕ × List ℕ) :=
  probeLoop I A (clampMin I minAddr) (clampMax I maxAddr) funcAddr fuel
    (Word.roundDownTo 64 funcAddr I.granularity) (Word.roundUpTo 64 funcAddr I.granularity) []

/-- The system, with the region that is found. -/
def Answers.env (E : Env) (content : Word) : Env :=
  { E with
    moduleInformation := fun _ => A.moduleInformation
    getMmapGranularity := BitVec.ofNat 64 I.granularity
    allocateTrampolineRegion := fun _ _ _ _ => content }

/-- What a call of `AllocateMemoryForTrampoline` does. -/
structure Result where
  /-- The block, or zero. -/
  address : Word
  /-- The state after it. -/
  state : State
  /-- The region that the system gave, or zero. -/
  region : ℕ
  /-- The addresses that were probed. -/
  probes : List ℕ

/-- `AllocateMemoryForTrampoline` with its search. -/
def allocateMemory (E : Env) (fuel : ℕ) (s : State) (funcAddress : Word) (size : ℕ) :
    Outcome Empty Result :=
  let (minAddr, maxAddr) := trampolineLimits (A.env I E 0) funcAddress (BitVec.ofNat 64 size)
  if (takeRoom minAddr maxAddr (BitVec.ofNat 64 size) s.regions).isSome ∨
      kMaxTrampolineRegion ≤ s.regions.length then
    let (a, s) := allocateMemoryForTrampoline (A.env I E 0) s funcAddress size
    .returned ⟨a, s, 0, []⟩
  else do
    -- No valid region found, allocate a new region.
    let (content, probes) ← allocateTrampolineRegion I A fuel minAddr.toNat maxAddr.toNat funcAddress.toNat
    let (a, s) := allocateMemoryForTrampoline (A.env I E (BitVec.ofNat 64 content)) s funcAddress size
    return ⟨a, s, content, probes⟩

/-- The call returns. -/
def Returns (E : Env) (s : State) (funcAddress : Word) (size : ℕ) (R : Result) : Prop :=
  ∃ n, ∀ fuel, allocateMemory I A E (fuel + n) s funcAddress size = .returned R

/-! ## What the system guarantees -/

/-- The address space: the granularity is a power of two, and the addresses are in its lower half. -/
structure IsSystem : Prop where
  /-- The granularity has room for a block. -/
  granularity : ∃ k, 7 ≤ k ∧ k ≤ 31 ∧ I.granularity = 2^k
  /-- The first granule is not accessible. -/
  min_le : I.granularity ≤ I.minimumApplicationAddress
  /-- There are addresses. -/
  min_le_max : I.minimumApplicationAddress ≤ I.maximumApplicationAddress
  /-- The end of the address space. -/
  max_lt : I.maximumApplicationAddress < 2^63

/-- An address of the application. -/
def IsApplicationAddress (a : ℕ) : Prop := I.minimumApplicationAddress ≤ a ∧ a ≤ I.maximumApplicationAddress

/-- The system answers what is documented. `AllocationBase` is not, for free memory. -/
structure Documented (regions : List TrampolineMemoryRegion) (funcAddress : Word) : Prop where
  /-- The function is in the address space. -/
  func : IsApplicationAddress I funcAddress.toNat
  /-- The module contains the function, and spans less than 2 GiB. -/
  module : ∀ base size, A.moduleInformation = some (base, size) → base.toNat ≤ funcAddress.toNat ∧
    funcAddress.toNat < base.toNat + size.toNat ∧ size.toNat < 2^31 ∧ base.toNat + size.toNat ≤ 2^63
  /-- `VirtualQuery` describes the region around the address. -/
  query : ∀ a info, IsApplicationAddress I a → A.virtualQuery a = some info →
    info.baseAddress ≤ a ∧ a < info.baseAddress + info.regionSize ∧
      info.baseAddress + info.regionSize ≤ 2^63 ∧
      (info.free = false → I.minimumApplicationAddress ≤ info.allocationBase ∧ info.allocationBase ≤ a)
  /-- `VirtualAlloc` gives free memory. -/
  alloc : ∀ a, A.virtualAlloc a = true → ∀ r ∈ regions, ∀ x,
    InRange (BitVec.ofNat 64 a) I.granularity x → ¬ InRange r.content r.maxSize.toNat x

/-! ## What is asked for -/

/-- The limits of a call. -/
def limits (E : Env) (funcAddress : Word) (size : ℕ) : Word × Word :=
  trampolineLimits (A.env I E 0) funcAddress (BitVec.ofNat 64 size)

/-- The address is between the limits. -/
def Between (E : Env) (funcAddress : Word) (size p : ℕ) : Prop :=
  clampMin I (limits I A E funcAddress size).1.toNat ≤ p ∧
    p ≤ clampMax I (limits I A E funcAddress size).2.toNat

/-- The jumps to a block from the instructions that the techniques write have a displacement of 32 bits. -/
def Reaches (funcAddress a : Word) : Prop :=
  ∀ j ≤ 6, distanceIsWithin2Gig (funcAddress + BitVec.ofNat 64 j) a = true

/-- The result of a call: the probes are within the limits, and the jumps reach the block. -/
structure Admissible (E : Env) (funcAddress : Word) (size : ℕ) (R : Result) : Prop where
  /-- The probes are within the limits. -/
  probes : ∀ p ∈ R.probes, Between I A E funcAddress size p
  /-- The system gave the region. -/
  region : R.region ≠ 0 → A.virtualAlloc R.region = true
  /-- The block is in reach. -/
  reaches : R.address ≠ 0 → Reaches funcAddress R.address

/-! ## What has to be avoided -/

/-- The addresses from which the end of a jump in the function can be more than 2 GiB away, although the
function is not. -/
def Window (funcAddress a : ℕ) : Prop := funcAddress ≤ a + 2^31 ∧ a + 2^31 < funcAddress + 6

/-- A boundary between the limits. -/
structure Probed (minAddr maxAddr a : ℕ) : Prop where
  /-- It is not below the lower limit. -/
  min_le : clampMin I minAddr ≤ a
  /-- It is not above the upper limit. -/
  le_max : a ≤ clampMax I maxAddr
  /-- It is a boundary. -/
  dvd : I.granularity ∣ a

/-- The conditions of a call. -/
structure Avoids (E : Env) (regions : List TrampolineMemoryRegion) (funcAddress : Word) (size : ℕ) :
    Prop where
  /-- At a boundary below the function, a free region that is too small has an `AllocationBase` as if it
  were not free. -/
  gap : ∀ a info,
    Probed I (limits I A E funcAddress size).1.toNat (limits I A E funcAddress size).2.toNat a →
    a ≤ funcAddress.toNat → A.virtualQuery a = some info → info.free = true →
    info.regionSize < I.granularity →
      I.granularity ≤ info.allocationBase ∧ info.allocationBase < a + I.granularity
  /-- The upper limit is not below the function. -/
  module : ∀ base image, A.moduleInformation = some (base, image) →
    funcAddress.toNat + size ≤ base.toNat + 2^31
  /-- No boundary that the system gives is in the window. -/
  boundary : ∀ a, I.granularity ∣ a → A.virtualAlloc a = true → ¬ Window funcAddress.toNat a
  /-- No space that is left in a region is in the window. -/
  space : ∀ r ∈ regions, r.hasRoom (limits I A E funcAddress size).1 (limits I A E funcAddress size).2
    (BitVec.ofNat 64 size) = true → ¬ Window funcAddress.toNat (r.content + r.allocatedSize).toNat

/-! ## The search -/

variable {I A}

theorem IsSystem.roundDownTo (h : IsSystem I) {x : ℕ} (hx : x < 2^64) :
    I.granularity ∣ Word.roundDownTo 64 x I.granularity ∧ Word.roundDownTo 64 x I.granularity ≤ x ∧
      x < Word.roundDownTo 64 x I.granularity + I.granularity := by
  obtain ⟨k, -, hk, hg⟩ := h.granularity
  rw [hg, Word.roundDownTo_two_pow (by omega) hx]
  have hmod := Nat.mod_lt x (Nat.two_pow_pos k)
  have hdiv := Nat.div_add_mod' x (2^k)
  exact ⟨Nat.dvd_mul_left _ _, by omega, by omega⟩

theorem IsSystem.roundUpTo (h : IsSystem I) {x : ℕ} (hx : x ≤ 2^63) :
    I.granularity ∣ Word.roundUpTo 64 x I.granularity ∧ x ≤ Word.roundUpTo 64 x I.granularity ∧
      Word.roundUpTo 64 x I.granularity < x + I.granularity := by
  obtain ⟨k, -, hk, hg⟩ := h.granularity
  have hpow : 2^k ≤ 2^31 := Nat.pow_le_pow_right (by norm_num) hk
  have hpos := Nat.two_pow_pos k
  rw [hg, Word.roundUpTo_of_lt (by omega) (by omega)]
  have hmod := Nat.mod_lt (x + 2^k - 1) hpos
  have hdiv := Nat.div_add_mod' (x + 2^k - 1) (2^k)
  exact ⟨Nat.dvd_mul_left _ _, by omega, by omega⟩

theorem IsSystem.granularity_le (h : IsSystem I) : 128 ≤ I.granularity ∧ I.granularity ≤ 2^31 := by
  obtain ⟨k, hk7, hk, hg⟩ := h.granularity
  rw [hg]
  exact ⟨Nat.pow_le_pow_right (n := 2) (by norm_num) hk7, Nat.pow_le_pow_right (by norm_num) hk⟩

/-- The probes are at boundaries on both sides of the function. -/
structure Probes (I : SystemInfo) (funcAddr loAddr hiAddr : ℕ) : Prop where
  /-- The lower probe. -/
  lo_dvd : I.granularity ∣ loAddr
  /-- It is below the function. -/
  lo_le : loAddr ≤ funcAddr
  /-- The upper probe. -/
  hi_dvd : I.granularity ∣ hiAddr
  /-- It is above the function. -/
  le_hi : funcAddr ≤ hiAddr
  /-- It is not at the end of the address space. -/
  hi_lt : hiAddr < 2^64

theorem Probed.isApplicationAddress (h : IsSystem I) {minAddr maxAddr a : ℕ}
    (ha : Probed I minAddr maxAddr a) : IsApplicationAddress I a := by
  have hmin := ha.min_le
  have hmax := ha.le_max
  rw [clampMin, max_le_iff] at hmin
  rw [clampMax, le_min_iff] at hmax
  have hlast := h.max_lt
  have hdown := (h.roundDownTo (x := I.maximumApplicationAddress) (by omega)).2.1
  have hle : a ≤ I.maximumApplicationAddress := hmax.2.trans hdown
  have hfirst := h.min_le_max
  exact ⟨(h.roundUpTo (by omega)).2.1.trans hmin.2, hle⟩

theorem probes_start (h : IsSystem I) {func : ℕ} (hfunc : IsApplicationAddress I func) :
    Probes I func (Word.roundDownTo 64 func I.granularity) (Word.roundUpTo 64 func I.granularity) := by
  have hlast := h.max_lt
  have hle := hfunc.2
  have hgran := h.granularity_le
  obtain ⟨hlo, hlo_le, -⟩ := h.roundDownTo (x := func) (by omega)
  obtain ⟨hhi, hle_hi, hhi_lt⟩ := h.roundUpTo (x := func) (by omega)
  exact ⟨hlo, hlo_le, hhi, hle_hi, by omega⟩

theorem Probes.clamp (h : IsSystem I) {minAddr maxAddr func lo hi : ℕ} (hfunc : IsApplicationAddress I func)
    (hmin : minAddr ≤ func) (hmax : func ≤ maxAddr) (hp : Probes I func lo hi) :
    lo ≤ clampMax I maxAddr ∧ clampMin I minAddr ≤ hi := by
  have hlast := h.max_lt
  have hfirst := h.min_le_max
  obtain ⟨hdown, -, hlt⟩ := h.roundDownTo (x := I.maximumApplicationAddress) (by omega)
  obtain ⟨hup, -, hlt'⟩ := h.roundUpTo (x := I.minimumApplicationAddress) (by omega)
  -- Boundaries on the right side of an address are on the right side of the next boundary.
  have hlo : lo ≤ Word.roundDownTo 64 I.maximumApplicationAddress I.granularity := by
    refine Nat.le_of_lt_add_of_dvd (lt_of_le_of_lt (hp.lo_le.trans hfunc.2) hlt) hp.lo_dvd hdown
  have hhi : Word.roundUpTo 64 I.minimumApplicationAddress I.granularity ≤ hi := by
    refine Nat.le_of_lt_add_of_dvd (lt_of_lt_of_le hlt' ?_) hup hp.hi_dvd
    exact Nat.add_le_add_right (hfunc.1.trans hp.le_hi) _
  exact ⟨le_min (hp.lo_le.trans hmax) hlo, max_le (hmin.trans hp.le_hi) hhi⟩

theorem Probes.probe (h : IsSystem I) {minAddr maxAddr func lo hi : ℕ} (hfunc : IsApplicationAddress I func)
    (hmin : minAddr ≤ func) (hmax : func ≤ maxAddr) (hp : Probes I func lo hi)
    (hloop : clampMin I minAddr ≤ lo ∨ hi ≤ clampMax I maxAddr) {a : ℕ}
    (ha : probe (clampMin I minAddr) (clampMax I maxAddr) func lo hi = a) :
    Probed I minAddr maxAddr a ∧ (a = lo ∨ a = hi) := by
  obtain ⟨hlo, hhi⟩ := hp.clamp h hfunc hmin hmax
  unfold Interception.probe at ha
  split_ifs at ha with hlow hhigh hnear
  · exact ⟨⟨by omega, by omega, ha ▸ hp.hi_dvd⟩, .inr ha.symm⟩
  · exact ⟨⟨by omega, by omega, ha ▸ hp.lo_dvd⟩, .inl ha.symm⟩
  · exact ⟨⟨by omega, by omega, ha ▸ hp.hi_dvd⟩, .inr ha.symm⟩
  · exact ⟨⟨by omega, by omega, ha ▸ hp.lo_dvd⟩, .inl ha.symm⟩

/-- The search goes on from a region without room. -/
theorem Probes.next (h : IsSystem I) {func lo hi a : ℕ} {info : MemoryBasicInformation}
    (hp : Probes I func lo hi) (ha : a = lo ∨ a = hi)
    (hbase : a = lo → I.granularity ≤ info.allocationBase ∧ info.allocationBase < a + I.granularity)
    (hend : a < info.baseAddress + info.regionSize)
    (hend' : info.baseAddress + info.regionSize ≤ 2^63) (ha' : a < 2^63) {lo' hi' : ℕ}
    (hlo' : lo' = if a = lo then
      Word.roundDownTo 64 (Word.sub 64 info.allocationBase I.granularity) I.granularity else lo)
    (hhi' : hi' = if a = hi then
      Word.roundUpTo 64 (Word.add 64 info.baseAddress info.regionSize) I.granularity else hi) :
    Probes I func lo' hi' ∧ lo' + (2^64 - hi') < lo + (2^64 - hi) := by
  have hgran := h.granularity_le
  rw [Word.add_of_lt (by omega)] at hhi'
  obtain ⟨hup, hle_up, hup_lt⟩ := h.roundUpTo hend'
  have hlo := hp.lo_le
  have hhi := hp.le_hi
  have hlt := hp.hi_lt
  have hlower : I.granularity ∣ lo' ∧ lo' ≤ lo ∧ (a = lo → lo' < lo) := by
    rw [hlo']
    split_ifs with heq
    · obtain ⟨hle, hlt⟩ := hbase heq
      rw [Word.sub_of_le hle (by omega)]
      obtain ⟨hdown, hdown_le, -⟩ := h.roundDownTo (x := info.allocationBase - I.granularity) (by omega)
      exact ⟨hdown, by omega, fun _ => by omega⟩
    · exact ⟨hp.lo_dvd, le_rfl, fun heq' => absurd heq' heq⟩
  have hupper : I.granularity ∣ hi' ∧ hi ≤ hi' ∧ hi' < 2^64 ∧ (a = hi → hi < hi') := by
    rw [hhi']
    split_ifs with heq
    · exact ⟨hup, by omega, by omega, fun _ => by omega⟩
    · exact ⟨hp.hi_dvd, le_rfl, hlt, fun heq' => absurd heq' heq⟩
  refine ⟨⟨hlower.1, by omega, hupper.1, by omega, hupper.2.2.1⟩, ?_⟩
  rcases ha with ha | ha
  · have := hlower.2.2 ha
    omega
  · have := hupper.2.2.2 ha
    omega

variable {E : Env} {regions : List TrampolineMemoryRegion} {funcAddress : Word} {size : ℕ}

theorem allocationBase_le (h : IsSystem I) (hdoc : Documented I A regions funcAddress)
    (havoid : Avoids I A E regions funcAddress size) {a : ℕ} {info : MemoryBasicInformation}
    (ha : Probed I (limits I A E funcAddress size).1.toNat (limits I A E funcAddress size).2.toNat a)
    (hle : a ≤ funcAddress.toNat) (hquery : A.virtualQuery a = some info)
    (hnot : ¬ (info.free = true ∧ I.granularity ≤ info.regionSize)) :
    I.granularity ≤ info.allocationBase ∧ info.allocationBase < a + I.granularity := by
  have hgran := h.granularity_le
  cases hfree : info.free with
  | true => exact havoid.gap a info ha hle hquery hfree (not_le.mp fun hroom => hnot ⟨hfree, hroom⟩)
  | false =>
    obtain ⟨-, -, -, hbase⟩ := hdoc.query a info (ha.isApplicationAddress h) hquery
    obtain ⟨hmin, hmax⟩ := hbase hfree
    exact ⟨h.min_le.trans hmin, by omega⟩

theorem probeLoop_none {minAddr maxAddr func fuel lo hi a : ℕ} {probes : List ℕ}
    (hloop : minAddr ≤ lo ∨ hi ≤ maxAddr) (ha : probe minAddr maxAddr func lo hi = a)
    (hquery : A.virtualQuery a = none) :
    probeLoop I A minAddr maxAddr func (fuel + 1) lo hi probes = .returned (0, a :: probes) := by
  rw [probeLoop, if_pos hloop]
  dsimp only
  rw [ha, hquery]

theorem probeLoop_room {minAddr maxAddr func fuel lo hi a : ℕ} {probes : List ℕ}
    {info : MemoryBasicInformation} (hloop : minAddr ≤ lo ∨ hi ≤ maxAddr)
    (ha : probe minAddr maxAddr func lo hi = a)
    (hquery : A.virtualQuery a = some info) (hroom : info.free = true ∧ I.granularity ≤ info.regionSize) :
    probeLoop I A minAddr maxAddr func (fuel + 1) lo hi probes =
      .returned (if A.virtualAlloc a then a else 0, a :: probes) := by
  rw [probeLoop, if_pos hloop]
  dsimp only
  rw [ha, hquery]
  dsimp only
  rw [if_pos hroom]

theorem probeLoop_next {minAddr maxAddr func fuel lo hi a : ℕ} {probes : List ℕ}
    {info : MemoryBasicInformation} (hloop : minAddr ≤ lo ∨ hi ≤ maxAddr)
    (ha : probe minAddr maxAddr func lo hi = a)
    (hquery : A.virtualQuery a = some info)
    (hroom : ¬ (info.free = true ∧ I.granularity ≤ info.regionSize)) :
    probeLoop I A minAddr maxAddr func (fuel + 1) lo hi probes =
      probeLoop I A minAddr maxAddr func fuel
        (if a = lo then Word.roundDownTo 64 (Word.sub 64 info.allocationBase I.granularity) I.granularity
          else lo)
        (if a = hi then Word.roundUpTo 64 (Word.add 64 info.baseAddress info.regionSize) I.granularity
          else hi)
        (a :: probes) := by
  rw [probeLoop, if_pos hloop]
  dsimp only
  rw [ha, hquery]
  dsimp only
  rw [if_neg hroom]

/-- The search ends, its probes are between the limits, and so is what it finds. -/
theorem probeLoop_spec (h : IsSystem I) (hdoc : Documented I A regions funcAddress)
    (havoid : Avoids I A E regions funcAddress size) {minAddr maxAddr : ℕ}
    (hminAddr : minAddr = (limits I A E funcAddress size).1.toNat)
    (hmaxAddr : maxAddr = (limits I A E funcAddress size).2.toNat)
    (hmin : minAddr ≤ funcAddress.toNat) (hmax : funcAddress.toNat ≤ maxAddr) {lo hi : ℕ}
    {probes : List ℕ} (hp : Probes I funcAddress.toNat lo hi)
    (hprobes : ∀ p ∈ probes, Probed I minAddr maxAddr p) :
    ∃ n a probes', (∀ fuel, probeLoop I A (clampMin I minAddr) (clampMax I maxAddr) funcAddress.toNat
        (fuel + n) lo hi probes = .returned (a, probes')) ∧
      (∀ p ∈ probes', Probed I minAddr maxAddr p) ∧
      (a ≠ 0 → Probed I minAddr maxAddr a ∧ A.virtualAlloc a = true) := by
  -- The probes go apart, so the distance that is left gets smaller.
  induction hm : lo + (2^64 - hi) using Nat.strong_induction_on generalizing lo hi probes with
  | _ m ih =>
  by_cases hloop : clampMin I minAddr ≤ lo ∨ hi ≤ clampMax I maxAddr
  swap
  · exact ⟨1, 0, probes, fun fuel => by rw [probeLoop, if_neg hloop], hprobes, fun h => absurd rfl h⟩
  obtain ⟨a, ha⟩ : ∃ a, probe (clampMin I minAddr) (clampMax I maxAddr) funcAddress.toNat lo hi = a :=
    ⟨_, rfl⟩
  obtain ⟨hprobed, hside⟩ := hp.probe h hdoc.func hmin hmax hloop ha
  have happ := hprobed.isApplicationAddress h
  have hprobes' : ∀ p ∈ a :: probes, Probed I minAddr maxAddr p := by
    intro p hp
    rcases List.mem_cons.mp hp with rfl | hp
    · exact hprobed
    · exact hprobes p hp
  cases hquery : A.virtualQuery a with
  | none =>
    exact ⟨1, 0, a :: probes, fun fuel => probeLoop_none hloop ha hquery, hprobes', fun h => absurd rfl h⟩
  | some info =>
    by_cases hroom : info.free = true ∧ I.granularity ≤ info.regionSize
    · refine ⟨1, if A.virtualAlloc a then a else 0, a :: probes,
        fun fuel => probeLoop_room hloop ha hquery hroom, hprobes', fun hne => ?_⟩
      split_ifs at hne ⊢ with halloc
      · exact ⟨hprobed, halloc⟩
      · exact absurd rfl hne
    · have hbase := fun heq : a = lo => allocationBase_le h hdoc havoid (hminAddr ▸ hmaxAddr ▸ hprobed)
        (heq ▸ hp.lo_le) hquery hroom
      obtain ⟨-, hend, hend', -⟩ := hdoc.query a info happ hquery
      have hlast := h.max_lt
      obtain ⟨hnext, hless⟩ := hp.next h hside hbase hend hend' (happ.2.trans_lt hlast) rfl rfl
      obtain ⟨n, b, probes', hrun, hall, hb⟩ := ih _ (hm ▸ hless) hnext hprobes' rfl
      refine ⟨n + 1, b, probes', fun fuel => ?_, hall, hb⟩
      rw [← Nat.add_assoc, probeLoop_next hloop ha hquery hroom]
      exact hrun fuel

/-! ## The reach -/

theorem trampolineLimits_func (E : Env) (funcAddress size : Word) :
    (trampolineLimits E funcAddress size).1.toNat ≤ funcAddress.toNat ∧
      funcAddress.toNat ≤ (trampolineLimits E funcAddress size).2.toNat := by
  have hfunc := funcAddress.isLt
  have hmax : (-1 : Word).toNat = 2^64 - 1 := rfl
  unfold trampolineLimits
  dsimp only
  constructor
  · split_ifs with hlt
    · exact Nat.zero_le _
    · exact BitVec.not_lt.mp hlt
  · split_ifs with hlt
    · rw [hmax]
      omega
    · exact BitVec.not_lt.mp hlt

theorem distanceIsWithin2Gig_of_le {source target : Word} (hdown : source.toNat ≤ target.toNat + 2^31)
    (hup : target.toNat < source.toNat + 2^31) : distanceIsWithin2Gig source target = true := by
  have h1 : (0x7FFFFFFF : Word).toNat = 0x7FFFFFFF := rfl
  have h2 : (0x80000000 : Word).toNat = 0x80000000 := rfl
  have hsource := source.isLt
  have htarget := target.isLt
  unfold distanceIsWithin2Gig
  split_ifs with hlt
  · rw [decide_eq_true_eq, BitVec.le_def, BitVec.toNat_sub, h1]
    rw [BitVec.lt_def] at hlt
    omega
  · rw [decide_eq_true_eq, BitVec.le_def, BitVec.toNat_sub, h2]
    rw [BitVec.lt_def] at hlt
    omega

theorem reaches_of_le {a : Word} (hfunc : funcAddress.toNat < 2^63)
    (hdown : funcAddress.toNat + 6 ≤ a.toNat + 2^31) (hup : a.toNat < funcAddress.toNat + 2^31) :
    Reaches funcAddress a := by
  intro j hj
  have hadd : (funcAddress + BitVec.ofNat 64 j).toNat = funcAddress.toNat + j := by
    rw [BitVec.toNat_add, BitVec.toNat_ofNat]
    omega
  exact distanceIsWithin2Gig_of_le (by omega) (by omega)

/-- What is between the limits, but not in the window, is in reach. -/
theorem reaches_of_limits (h : IsSystem I) (hdoc : Documented I A regions funcAddress)
    (havoid : Avoids I A E regions funcAddress size) (hsize : 8 ≤ size ∧ size ≤ 64) {a : Word}
    (happ : I.granularity ≤ a.toNat)
    (hmin : (limits I A E funcAddress size).1.toNat ≤ a.toNat)
    (hmax : a.toNat ≤ (limits I A E funcAddress size).2.toNat)
    (hwindow : ¬ Window funcAddress.toNat a.toNat) :
    Reaches funcAddress a := by
  have hlast := h.max_lt
  have hgran := h.granularity_le
  have hfunc := hdoc.func.2
  have hlimit : kTrampolineRangeLimit.toNat = 2^31 := rfl
  have hnat : (BitVec.ofNat 64 size).toNat = size := by
    rw [BitVec.toNat_ofNat, Nat.mod_eq_of_lt (by omega)]
  rw [Window] at hwindow
  unfold limits trampolineLimits at hmin hmax
  cases hmodule : A.moduleInformation with
  | none =>
    simp only [Answers.env, hmodule, BitVec.lt_def] at hmin hmax
    have hup : (funcAddress + kTrampolineRangeLimit - BitVec.ofNat 64 size).toNat =
        funcAddress.toNat + 2^31 - size := by
      rw [BitVec.toNat_sub, BitVec.toNat_add, hlimit, hnat]
      omega
    rw [hup, if_neg (by omega), hup] at hmax
    refine reaches_of_le (by omega) ?_ (by omega)
    rcases Nat.lt_or_ge funcAddress.toNat (2^31) with hlow | hhigh
    · omega
    · have hdown : (funcAddress - kTrampolineRangeLimit).toNat = funcAddress.toNat - 2^31 := by
        rw [BitVec.toNat_sub, hlimit]
        omega
      rw [hdown, if_neg (by omega), hdown] at hmin
      omega
  | some m =>
    obtain ⟨base, image⟩ := m
    obtain ⟨hbase, hin, himage, hend⟩ := hdoc.module base image hmodule
    have hroom := havoid.module base image hmodule
    simp only [Answers.env, hmodule, BitVec.lt_def] at hmin hmax
    have hup : (base + kTrampolineRangeLimit - BitVec.ofNat 64 size).toNat = base.toNat + 2^31 - size := by
      rw [BitVec.toNat_sub, BitVec.toNat_add, hlimit, hnat]
      omega
    rw [hup, if_neg (by omega), hup] at hmax
    refine reaches_of_le (by omega) ?_ (by omega)
    rcases Nat.lt_or_ge (base.toNat + image.toNat) (2^31) with hlow | hhigh
    · omega
    · have hdown : (base + image - kTrampolineRangeLimit).toNat = base.toNat + image.toNat - 2^31 := by
        rw [BitVec.toNat_sub, BitVec.toNat_add, hlimit]
        omega
      rw [hdown, if_neg (by omega), hdown] at hmin
      omega

/-! ## One call -/

/-- The system, if it gives no region. -/
def noRegion (I : SystemInfo) (E : Env) : Env :=
  { E with
    getMmapGranularity := BitVec.ofNat 64 I.granularity
    allocateTrampolineRegion := fun _ _ _ _ => 0 }

/-- The regions that there are: apart from each other, and in the address space. -/
structure Regions (I : SystemInfo) (E : Env) (regions : List TrampolineMemoryRegion) : Prop where
  /-- They are apart, and hold what has been taken from them. -/
  trampolines : Trampolines (noRegion I E) (fun _ => False) regions
  /-- They are in the address space. -/
  bounds : ∀ r ∈ regions, I.granularity ≤ r.content.toNat ∧
    r.content.toNat + r.maxSize.toNat ≤ 2^63 + 2^31

/-- What a call leaves. -/
structure CallSpec (I : SystemInfo) (A : Answers) (E : Env) (s : State) (funcAddress : Word) (size : ℕ)
    (R : Result) : Prop where
  /-- The result is as it should be. -/
  admissible : Admissible I A E funcAddress size R
  /-- The regions are still apart. -/
  regions : Regions I E R.state.regions
  /-- What was taken still is. -/
  allocated : ∀ x, Allocated s.regions x → Allocated R.state.regions x
  /-- A block is new. -/
  new : R.address ≠ 0 → ∀ x, InRange R.address size x →
    Allocated R.state.regions x ∧ ¬ Allocated s.regions x
  /-- A block is in a region. -/
  inside : R.address ≠ 0 → ∃ r ∈ R.state.regions, ∀ x, InRange R.address size x →
    InRange r.content r.maxSize.toNat x
  /-- The regions are those from before, and the one that the system gave. -/
  mapped : ∀ r ∈ R.state.regions, (∃ q ∈ s.regions, r.content = q.content ∧ r.maxSize = q.maxSize) ∨
    R.region ≠ 0 ∧ r.content = BitVec.ofNat 64 R.region ∧ r.maxSize = BitVec.ofNat 64 I.granularity

theorem regions_nil (h : IsSystem I) (E : Env) : Regions I E [] where
  trampolines :=
    { granularity := by
        have hgran := h.granularity_le
        change 64 ≤ (BitVec.ofNat 64 I.granularity).toNat
        rw [BitVec.toNat_ofNat]
        omega
      allocated_le := nofun
      not_code := nofun
      pairwise := .nil
      fresh := fun _ _ _ _ _ hcontent hne => absurd hcontent.symm hne }
  bounds := nofun

theorem CallSpec.of_fail {s : State} {probes : List ℕ} (hreg : Regions I E s.regions)
    (hprobes : ∀ p ∈ probes, Between I A E funcAddress size p) :
    CallSpec I A E s funcAddress size ⟨0, s, 0, probes⟩ where
  admissible := ⟨hprobes, fun h => absurd rfl h, fun h => absurd rfl h⟩
  regions := hreg
  allocated _ hx := hx
  new h := absurd rfl h
  inside h := absurd rfl h
  mapped r hr := .inl ⟨r, hr, rfl, rfl⟩

/-- A call that finds room in a region. -/
theorem callSpec_of_takeRoom {s : State} (h : IsSystem I) (hdoc : Documented I A s.regions funcAddress)
    (havoid : Avoids I A E s.regions funcAddress size) (hsize : 8 ≤ size ∧ size ≤ 64)
    (hreg : Regions I E s.regions) {a : Word} {rs : List TrampolineMemoryRegion}
    (htake : takeRoom (limits I A E funcAddress size).1 (limits I A E funcAddress size).2
      (BitVec.ofNat 64 size) s.regions = some (a, rs)) :
    CallSpec I A E s funcAddress size
      ⟨a, { s with regions := rs, mem := writePadding s.mem a size }, 0, []⟩ := by
  obtain ⟨before, r, after, hs, hroom, rfl, rfl⟩ := takeRoom_spec htake
  have hmem : r ∈ s.regions := by rw [hs]; exact List.mem_append_right _ List.mem_cons_self
  have hnat : (BitVec.ofNat 64 size).toNat = size := by
    rw [BitVec.toNat_ofNat, Nat.mod_eq_of_lt (by omega)]
  have hle := hreg.trampolines.allocated_le r hmem
  have hfit := TrampolineMemoryRegion.room hle hroom
  rw [hnat] at hfit
  obtain ⟨hlow, hhigh⟩ := hreg.bounds r hmem
  have hgran := h.granularity_le
  have haddr : (r.content + r.allocatedSize).toNat = r.content.toNat + r.allocatedSize.toNat := by
    rw [BitVec.toNat_add]
    omega
  have hwindow := havoid.space r hmem hroom
  simp only [TrampolineMemoryRegion.hasRoom, Bool.and_eq_true, Bool.not_eq_true', Bool.or_eq_false_iff,
    decide_eq_false_iff_not, BitVec.not_lt, BitVec.le_def] at hroom
  have hreaches : Reaches funcAddress (r.content + r.allocatedSize) :=
    reaches_of_limits h hdoc havoid hsize (by omega) hroom.2.1 hroom.2.2 hwindow
  have htaken := taken_of_room hreg.trampolines hs hfit
  -- The regions have the bounds that they had.
  have hsame : ∀ q ∈ before ++ { r with allocatedSize := r.allocatedSize + BitVec.ofNat 64 size } :: after,
      ∃ p ∈ s.regions, q.content = p.content ∧ q.maxSize = p.maxSize := by
    intro q hq
    rw [List.mem_append, List.mem_cons] at hq
    rcases hq with hq | rfl | hq
    · exact ⟨q, by rw [hs]; exact List.mem_append_left _ hq, rfl, rfl⟩
    · exact ⟨r, hmem, rfl, rfl⟩
    · exact ⟨q, by rw [hs]; exact List.mem_append_right _ (List.mem_cons_of_mem r hq), rfl, rfl⟩
  refine ⟨⟨nofun, fun hne => absurd rfl hne, fun _ => hreaches⟩, ⟨htaken.trampolines, fun q hq => ?_⟩,
    fun x hx => (htaken.allocated x).mpr (.inl hx),
    fun _ x hx => ⟨(htaken.allocated x).mpr (.inr hx), htaken.new x hx⟩,
    fun _ => ⟨_, List.mem_append_right _ List.mem_cons_self, fun x hx => ?_⟩, fun q hq => .inl (hsame q hq)⟩
  · obtain ⟨p, hp, hcontent, hmax⟩ := hsame q hq
    rw [hcontent, hmax]
    exact hreg.bounds p hp
  · have hofNat : r.allocatedSize = BitVec.ofNat 64 r.allocatedSize.toNat := by
      rw [BitVec.ofNat_toNat, BitVec.setWidth_eq]
    dsimp only at hx ⊢
    rw [hofNat] at hx
    exact hx.sub hfit.le r.maxSize.isLt.le

/-- A call that makes a new region. -/
theorem callSpec_of_new {s : State} (h : IsSystem I) (hdoc : Documented I A s.regions funcAddress)
    (havoid : Avoids I A E s.regions funcAddress size) (hsize : 8 ≤ size ∧ size ≤ 64)
    (hreg : Regions I E s.regions) {a : ℕ} {probes : List ℕ}
    (ha : Probed I (limits I A E funcAddress size).1.toNat (limits I A E funcAddress size).2.toNat a)
    (halloc : A.virtualAlloc a = true) (hprobes : ∀ p ∈ probes, Between I A E funcAddress size p) :
    CallSpec I A E s funcAddress size
      ⟨BitVec.ofNat 64 a,
        { s with
          regions := s.regions ++ [⟨BitVec.ofNat 64 a, BitVec.ofNat 64 size, BitVec.ofNat 64 I.granularity⟩]
          mem := writePadding s.mem (BitVec.ofNat 64 a) size },
        a, probes⟩ := by
  have happ := ha.isApplicationAddress h
  have hlast := h.max_lt
  have hgran := h.granularity_le
  have hfirst := h.min_le
  have hnat : (BitVec.ofNat 64 a).toNat = a := by
    rw [BitVec.toNat_ofNat, Nat.mod_eq_of_lt (by have := happ.2; omega)]
  have hg : (BitVec.ofNat 64 I.granularity).toNat = I.granularity := by
    rw [BitVec.toNat_ofNat, Nat.mod_eq_of_lt (by omega)]
  have hlow := happ.1
  have hhigh := happ.2
  have hne : a ≠ 0 := by omega
  have hmin := (le_max_left _ _).trans ha.min_le
  have hmax := ha.le_max.trans (min_le_left _ _)
  have hreaches : Reaches funcAddress (BitVec.ofNat 64 a) := by
    apply reaches_of_limits h hdoc havoid hsize <;> rw [hnat]
    · omega
    · exact hmin
    · exact hmax
    · exact havoid.boundary a ha.dvd halloc
  have hfresh : ∀ x, InRange (BitVec.ofNat 64 a) (noRegion I E).getMmapGranularity.toNat x →
      ¬ False ∧ ∀ r ∈ s.regions, ¬ InRange r.content r.maxSize.toNat x := by
    intro x hx
    change InRange _ (BitVec.ofNat 64 I.granularity).toNat x at hx
    rw [hg] at hx
    exact ⟨id, fun r hr => hdoc.alloc a halloc r hr x hx⟩
  have htaken := taken_of_new hreg.trampolines hsize.2 hfresh
  refine ⟨⟨hprobes, fun _ => halloc, fun _ => hreaches⟩, ⟨htaken.trampolines, fun q hq => ?_⟩,
    fun x hx => (htaken.allocated x).mpr (.inl hx),
    fun _ x hx => ⟨(htaken.allocated x).mpr (.inr hx), htaken.new x hx⟩,
    fun _ => ⟨_, List.mem_append_right _ (List.mem_singleton_self _), fun x hx => ?_⟩, fun q hq => ?_⟩
  · rcases List.mem_append.mp hq with hq | hq
    · exact hreg.bounds q hq
    · obtain rfl := List.mem_singleton.mp hq
      dsimp only
      rw [hnat, hg]
      omega
  · change InRange _ (BitVec.ofNat 64 I.granularity).toNat x
    exact hx.mono (by omega)
  · rcases List.mem_append.mp hq with hq | hq
    · exact .inl ⟨q, hq, rfl, rfl⟩
    · obtain rfl := List.mem_singleton.mp hq
      exact .inr ⟨hne, rfl, rfl⟩

theorem allocateMemory_of_noSearch {s : State} (fuel : ℕ)
    (h : (takeRoom (limits I A E funcAddress size).1 (limits I A E funcAddress size).2
      (BitVec.ofNat 64 size) s.regions).isSome ∨ kMaxTrampolineRegion ≤ s.regions.length) :
    allocateMemory I A E fuel s funcAddress size =
      .returned ⟨(allocateMemoryForTrampoline (A.env I E 0) s funcAddress size).1,
        (allocateMemoryForTrampoline (A.env I E 0) s funcAddress size).2, 0, []⟩ := if_pos h

theorem allocateMemory_of_search {s : State} (fuel : ℕ) {content : ℕ} {probes : List ℕ}
    (h : ¬ ((takeRoom (limits I A E funcAddress size).1 (limits I A E funcAddress size).2
      (BitVec.ofNat 64 size) s.regions).isSome ∨ kMaxTrampolineRegion ≤ s.regions.length))
    (hsearch : allocateTrampolineRegion I A fuel (limits I A E funcAddress size).1.toNat
      (limits I A E funcAddress size).2.toNat funcAddress.toNat = .returned (content, probes)) :
    allocateMemory I A E fuel s funcAddress size =
      .returned ⟨(allocateMemoryForTrampoline (A.env I E (BitVec.ofNat 64 content)) s funcAddress size).1,
        (allocateMemoryForTrampoline (A.env I E (BitVec.ofNat 64 content)) s funcAddress size).2,
        content, probes⟩ := by
  refine (if_neg h).trans ?_
  change (allocateTrampolineRegion I A fuel (limits I A E funcAddress size).1.toNat
    (limits I A E funcAddress size).2.toNat funcAddress.toNat >>= _) = _
  rw [hsearch]
  rfl

theorem trampolineLimits_env (content : Word) :
    trampolineLimits (A.env I E content) funcAddress (BitVec.ofNat 64 size) =
      limits I A E funcAddress size := rfl

/-- Every call returns, and does what it should. -/
theorem returns_spec {s : State} (h : IsSystem I) (hdoc : Documented I A s.regions funcAddress)
    (havoid : Avoids I A E s.regions funcAddress size) (hsize : 8 ≤ size ∧ size ≤ 64)
    (hreg : Regions I E s.regions) :
    ∃ R, Returns I A E s funcAddress size R ∧ CallSpec I A E s funcAddress size R := by
  cases htake : takeRoom (limits I A E funcAddress size).1 (limits I A E funcAddress size).2
      (BitVec.ofNat 64 size) s.regions with
  | some p =>
    obtain ⟨a, rs⟩ := p
    have hcall : ∀ content, allocateMemoryForTrampoline (A.env I E content) s funcAddress size =
        (a, { s with regions := rs, mem := writePadding s.mem a size }) := by
      intro content
      unfold allocateMemoryForTrampoline
      rw [trampolineLimits_env]
      dsimp only
      rw [htake]
    refine ⟨_, ⟨0, fun fuel => ?_⟩, callSpec_of_takeRoom h hdoc havoid hsize hreg htake⟩
    rw [allocateMemory_of_noSearch _ (.inl (by rw [htake]; rfl)), hcall]
  | none =>
    have hcall : ∀ content, allocateMemoryForTrampoline (A.env I E content) s funcAddress size =
        if s.regions.length < kMaxTrampolineRegion then
          if content = 0 then (0, s)
          else (content, { s with
            regions := s.regions ++ [⟨content, BitVec.ofNat 64 size, BitVec.ofNat 64 I.granularity⟩]
            mem := writePadding s.mem content size })
        else (0, s) := by
      intro content
      unfold allocateMemoryForTrampoline
      rw [trampolineLimits_env]
      dsimp only
      rw [htake]
      rfl
    rcases Nat.lt_or_ge s.regions.length kMaxTrampolineRegion with hlen | hlen
    · obtain ⟨hmin, hmax⟩ := trampolineLimits_func (A.env I E 0) funcAddress (BitVec.ofNat 64 size)
      obtain ⟨n, a, probes, hsearch, hprobes, ha⟩ := probeLoop_spec h hdoc havoid rfl rfl hmin hmax
        (probes_start h hdoc.func) (fun p hp => absurd hp List.not_mem_nil)
      have hbetween : ∀ p ∈ probes, Between I A E funcAddress size p := fun p hp =>
        ⟨(hprobes p hp).min_le, (hprobes p hp).le_max⟩
      have hno : ¬ ((takeRoom (limits I A E funcAddress size).1 (limits I A E funcAddress size).2
          (BitVec.ofNat 64 size) s.regions).isSome ∨ kMaxTrampolineRegion ≤ s.regions.length) := by
        rw [htake, not_or]
        exact ⟨Bool.false_ne_true, not_le.mpr hlen⟩
      rcases eq_or_ne a 0 with rfl | hne
      · refine ⟨_, ⟨n, fun fuel => ?_⟩, .of_fail hreg hbetween⟩
        have hzero : BitVec.ofNat 64 0 = 0 := rfl
        rw [allocateMemory_of_search _ hno (hsearch fuel), hcall, if_pos hlen, if_pos hzero]
      · obtain ⟨hprobed, halloc⟩ := ha hne
        refine ⟨_, ⟨n, fun fuel => ?_⟩, callSpec_of_new h hdoc havoid hsize hreg hprobed halloc hbetween⟩
        have hcontent : BitVec.ofNat 64 a ≠ 0 := by
          have happ := (hprobed.isApplicationAddress h).2
          have hlast := h.max_lt
          rw [ne_eq, ← BitVec.toNat_inj, BitVec.toNat_ofNat, Nat.mod_eq_of_lt (by omega)]
          exact hne
        rw [allocateMemory_of_search _ hno (hsearch fuel), hcall, if_pos hlen, if_neg hcontent]
    · refine ⟨_, ⟨0, fun fuel => ?_⟩, .of_fail hreg fun p hp => absurd hp List.not_mem_nil⟩
      rw [allocateMemory_of_noSearch _ (.inr hlen), hcall, if_neg (not_lt.mpr hlen)]

theorem Returns.unique {s : State} {R R' : Result} (h : Returns I A E s funcAddress size R)
    (h' : Returns I A E s funcAddress size R') : R = R' := by
  obtain ⟨n, hn⟩ := h
  obtain ⟨n', hn'⟩ := h'
  have heq := (hn n').symm.trans ((congrArg (allocateMemory I A E · s funcAddress size)
    (Nat.add_comm n' n)).trans (hn' n))
  exact Outcome.returned.inj heq

/-! ## Sequences of calls -/

/-- A sequence of calls from the start, with the blocks that it returned and the addresses of the regions
that the system gave. Between the calls the rest of the state may change. -/
inductive Run (I : SystemInfo) (E : Env) : (blocks : List (Word × ℕ)) → (mapped : List ℕ) → State → Prop
  /-- There are no regions. -/
  | start {s : State} (h : s.regions = []) : Run I E [] [] s
  /-- Something else happens. -/
  | other {blocks mapped} {s s' : State} (h : Run I E blocks mapped s) (hs : s'.regions = s.regions) :
    Run I E blocks mapped s'
  /-- A call. -/
  | call {blocks mapped} {s : State} {A : Answers} {funcAddress : Word} {size : ℕ} {R : Result}
    (h : Run I E blocks mapped s) (hdoc : Documented I A s.regions funcAddress)
    (havoid : Avoids I A E s.regions funcAddress size) (hsize : 8 ≤ size ∧ size ≤ 64)
    (hR : Returns I A E s funcAddress size R) :
    Run I E (if R.address = 0 then blocks else (R.address, size) :: blocks)
      (if R.region = 0 then mapped else R.region :: mapped) R.state

/-- Two blocks have no byte in common. -/
def DisjointBlocks (p q : Word × ℕ) : Prop := ∀ x, InRange p.1 p.2 x → ¬ InRange q.1 q.2 x

/-- What holds after every call. -/
structure Run.Invariant (I : SystemInfo) (E : Env) (blocks : List (Word × ℕ)) (mapped : List ℕ)
    (s : State) : Prop where
  /-- The regions are apart. -/
  regions : Regions I E s.regions
  /-- The system gave them. -/
  given : ∀ r ∈ s.regions, ∃ c ∈ mapped, r.content = BitVec.ofNat 64 c ∧
    r.maxSize = BitVec.ofNat 64 I.granularity
  /-- The blocks have been taken from them. -/
  allocated : ∀ p ∈ blocks, ∀ x, InRange p.1 p.2 x → Allocated s.regions x
  /-- Each block is in a region. -/
  inside : ∀ p ∈ blocks, ∃ c ∈ mapped, ∀ x, InRange p.1 p.2 x → InRange (BitVec.ofNat 64 c) I.granularity x
  /-- The blocks are disjoint. -/
  disjoint : blocks.Pairwise DisjointBlocks

/-- A call keeps the invariant. -/
theorem Run.Invariant.call {blocks : List (Word × ℕ)} {mapped : List ℕ} {s : State} (hI : IsSystem I)
    (h : Run.Invariant I E blocks mapped s) {R : Result} (hR : CallSpec I A E s funcAddress size R) :
    Run.Invariant I E (if R.address = 0 then blocks else (R.address, size) :: blocks)
      (if R.region = 0 then mapped else R.region :: mapped) R.state := by
  have hg : (BitVec.ofNat 64 I.granularity).toNat = I.granularity := by
    have := hI.granularity_le
    rw [BitVec.toNat_ofNat, Nat.mod_eq_of_lt (by omega)]
  have hmapped : ∀ r ∈ R.state.regions, ∃ c ∈ (if R.region = 0 then mapped else R.region :: mapped),
      r.content = BitVec.ofNat 64 c ∧ r.maxSize = BitVec.ofNat 64 I.granularity := by
    intro r hr
    rcases hR.mapped r hr with ⟨q, hq, hcontent, hmax⟩ | ⟨hne, hcontent, hmax⟩
    · obtain ⟨c, hc, hcontent', hmax'⟩ := h.given q hq
      refine ⟨c, ?_, hcontent.trans hcontent', hmax.trans hmax'⟩
      split_ifs
      · exact hc
      · exact List.mem_cons_of_mem _ hc
    · rw [if_neg hne]
      exact ⟨R.region, List.mem_cons_self, hcontent, hmax⟩
  have hinside : ∀ p ∈ blocks, ∃ c ∈ (if R.region = 0 then mapped else R.region :: mapped),
      ∀ x, InRange p.1 p.2 x → InRange (BitVec.ofNat 64 c) I.granularity x := by
    intro p hp
    obtain ⟨c, hc, hin⟩ := h.inside p hp
    refine ⟨c, ?_, hin⟩
    split_ifs
    · exact hc
    · exact List.mem_cons_of_mem _ hc
  have hallocated := fun p hp x hx => hR.allocated x (h.allocated p hp x hx)
  rcases eq_or_ne R.address 0 with hzero | hne
  · rw [if_pos hzero]
    exact ⟨hR.regions, hmapped, hallocated, hinside, h.disjoint⟩
  · rw [if_neg hne]
    refine ⟨hR.regions, hmapped, fun p hp => ?_, fun p hp => ?_, List.pairwise_cons.mpr ⟨?_, h.disjoint⟩⟩
    · rcases List.mem_cons.mp hp with rfl | hp
      · exact fun x hx => (hR.new hne x hx).1
      · exact hallocated p hp
    · rcases List.mem_cons.mp hp with rfl | hp
      · obtain ⟨r, hr, hin⟩ := hR.inside hne
        obtain ⟨c, hc, hcontent, hmax⟩ := hmapped r hr
        rw [hcontent, hmax, hg] at hin
        exact ⟨c, hc, hin⟩
      · exact hinside p hp
    · exact fun p hp x hx hx' => (hR.new hne x hx).2 (h.allocated p hp x hx')

theorem Run.invariant (hI : IsSystem I) {blocks : List (Word × ℕ)} {mapped : List ℕ} {s : State}
    (h : Run I E blocks mapped s) : Run.Invariant I E blocks mapped s := by
  induction h with
  | start h => exact ⟨h ▸ regions_nil hI E, by rw [h]; exact nofun, nofun, nofun, .nil⟩
  | other _ hs ih =>
    exact ⟨hs ▸ ih.regions, hs ▸ ih.given, hs ▸ ih.allocated, ih.inside, ih.disjoint⟩
  | call _ hdoc havoid hsize hR ih =>
    obtain ⟨R, hR', hspec⟩ := returns_spec hI hdoc havoid hsize ih.regions
    exact ih.call hI (hR.unique hR' ▸ hspec)

/-- In every sequence of calls that avoid what has to be avoided, the blocks are disjoint, and each is in a
region that the system gave; and the next call returns, with probes between the limits and a block in
reach. -/
theorem run_sound (hI : IsSystem I) {blocks : List (Word × ℕ)} {mapped : List ℕ} {s : State}
    (h : Run I E blocks mapped s) :
    blocks.Pairwise DisjointBlocks ∧
      (∀ p ∈ blocks, ∃ c ∈ mapped, ∀ x, InRange p.1 p.2 x → InRange (BitVec.ofNat 64 c) I.granularity x) ∧
      ∀ (A : Answers) (funcAddress : Word) (size : ℕ), Documented I A s.regions funcAddress →
        Avoids I A E s.regions funcAddress size → 8 ≤ size ∧ size ≤ 64 →
        (∃ R, Returns I A E s funcAddress size R) ∧
          ∀ R, Returns I A E s funcAddress size R → Admissible I A E funcAddress size R := by
  have hinv := h.invariant hI
  refine ⟨hinv.disjoint, hinv.inside, fun A funcAddress size hdoc havoid hsize => ?_⟩
  obtain ⟨R, hR, hspec⟩ := returns_spec hI hdoc havoid hsize hinv.regions
  exact ⟨⟨R, hR⟩, fun R' hR' => hR.unique hR' ▸ hspec.admissible⟩

/-- The address space of a process. -/
def someSystem : SystemInfo := ⟨0x10000, 0x7FFFFFFEFFFF, 0x10000⟩

theorem isSystem_someSystem : IsSystem someSystem where
  granularity := ⟨16, by norm_num, by norm_num, rfl⟩
  min_le := le_rfl
  min_le_max := by decide
  max_lt := by decide

/-- A system whose memory is free. -/
def freeMemory : Answers where
  moduleInformation := none
  virtualQuery _ := some ⟨0, 0, 2^63, true⟩
  virtualAlloc _ := true

/-- `run_sound` at the first call. -/
theorem run_sound_freeMemory :
    (∃ R, Returns someSystem freeMemory oneRegion ⟨fun _ => 0, [], 0⟩ 0x140001000 16 R) ∧
      ∀ R, Returns someSystem freeMemory oneRegion ⟨fun _ => 0, [], 0⟩ 0x140001000 16 R →
        Admissible someSystem freeMemory oneRegion 0x140001000 16 R := by
  refine (run_sound isSystem_someSystem (.start rfl)).2.2 freeMemory _ _ ?_ ?_ ⟨by norm_num, by norm_num⟩
  · refine ⟨⟨by decide, by decide⟩, nofun, fun a info ha hquery => ?_, nofun⟩
    obtain rfl := Option.some.inj hquery
    have hle := ha.2.trans_lt isSystem_someSystem.max_lt
    exact ⟨Nat.zero_le a, by omega, by norm_num, nofun⟩
  · refine ⟨fun a info _ _ hquery _ hless => ?_, nofun, fun a ha _ hwindow => ?_, nofun⟩
    · obtain rfl := Option.some.inj hquery
      exact absurd hless (by decide)
    · -- The function is not at the start of a granule.
      have hgranule : (0x10000 : ℕ) ∣ a := ha
      have hfunc : (0x140001000 : Word).toNat = 0x140001000 := rfl
      rw [Window, hfunc] at hwindow
      omega

/-- A system with 32 KiB of free memory below the function, and an `AllocationBase` of zero there. -/
def smallGap : Answers where
  moduleInformation := none
  virtualQuery a :=
    if a < 0x13FFF0000 then some ⟨0x10000, 0x10000, 0x13FFE0000, false⟩
    else if a < 0x13FFF8000 then some ⟨0x13FFF0000, 0, 0x8000, true⟩
    else if a < 0x140000000 then some ⟨0x13FFF8000, 0x13FFF8000, 0x8000, false⟩
    else if a < 0x7FFFFFFF0000 then some ⟨0x140000000, 0x140000000, 0x7FFEBFFF0000, false⟩
    else none
  virtualAlloc _ := false

/-- The probes in `smallGap`. -/
theorem search_smallGap (fuel : ℕ) :
    allocateTrampolineRegion someSystem smallGap (fuel + 3)
        (limits someSystem smallGap oneRegion 0x140000000 8).1.toNat
        (limits someSystem smallGap oneRegion 0x140000000 8).2.toNat (0x140000000 : Word).toNat =
      .returned (0, [0xFFFFFFFFFFFF0000, 0x13FFF0000, 0x140000000]) := by
  have hmin : clampMin someSystem (limits someSystem smallGap oneRegion 0x140000000 8).1.toNat =
      0xC0000000 := by decide
  have hmax : clampMax someSystem (limits someSystem smallGap oneRegion 0x140000000 8).2.toNat =
      0x1BFFFFFF8 := by decide
  have hfunc : (0x140000000 : Word).toNat = 0x140000000 := rfl
  have hdown : Word.roundDownTo 64 0x140000000 someSystem.granularity = 0x140000000 := by decide
  have hup : Word.roundUpTo 64 0x140000000 someSystem.granularity = 0x140000000 := by decide
  have h1 : smallGap.virtualQuery 0x140000000 = some ⟨0x140000000, 0x140000000, 0x7FFEBFFF0000, false⟩ := by
    decide
  have h2 : smallGap.virtualQuery 0x13FFF0000 = some ⟨0x13FFF0000, 0, 0x8000, true⟩ := by decide
  have h3 : smallGap.virtualQuery 0xFFFFFFFFFFFF0000 = none := by decide
  have hlo : Word.roundDownTo 64 (Word.sub 64 0x140000000 someSystem.granularity) someSystem.granularity =
      0x13FFF0000 := by decide
  have hhi : Word.roundUpTo 64 (Word.add 64 0x140000000 0x7FFEBFFF0000) someSystem.granularity =
      0x7FFFFFFF0000 := by decide
  have hwrap : Word.roundDownTo 64 (Word.sub 64 0 someSystem.granularity) someSystem.granularity =
      0xFFFFFFFFFFFF0000 := by decide
  rw [allocateTrampolineRegion, hmin, hmax, hfunc, hdown, hup,
    probeLoop_next (.inl (by decide)) (by decide) h1 (by decide), if_pos rfl, if_pos rfl, hlo, hhi,
    probeLoop_next (.inl (by decide)) (by decide) h2 (by decide), if_pos rfl, if_neg (by decide), hwrap,
    probeLoop_none (.inl (by decide)) (by decide) h3]

/-- The lower probe goes on from zero, and then to the end of the 64 bits. -/
theorem returns_smallGap :
    Documented someSystem smallGap [] 0x140000000 ∧
      ∃ R, Returns someSystem smallGap oneRegion ⟨fun _ => 0, [], 0⟩ 0x140000000 8 R ∧
        ¬ Admissible someSystem smallGap oneRegion 0x140000000 8 R := by
  refine ⟨⟨⟨by decide, by decide⟩, nofun, fun a info ha hquery => ?_, nofun⟩,
    ⟨0, ⟨fun _ => 0, [], 0⟩, 0, [0xFFFFFFFFFFFF0000, 0x13FFF0000, 0x140000000]⟩,
    ⟨3, fun fuel => ?_⟩, fun h => ?_⟩
  · have hmin : 0x10000 ≤ a := ha.1
    have hmin' : someSystem.minimumApplicationAddress = 0x10000 := rfl
    unfold smallGap at hquery
    dsimp only at hquery
    rw [hmin']
    split_ifs at hquery with h1 h2 h3 h4
    · obtain rfl := Option.some.inj hquery
      exact ⟨hmin, by dsimp only; omega, by norm_num, fun _ => ⟨le_rfl, hmin⟩⟩
    · obtain rfl := Option.some.inj hquery
      exact ⟨not_lt.mp h1, by dsimp only; omega, by norm_num, nofun⟩
    · obtain rfl := Option.some.inj hquery
      exact ⟨not_lt.mp h2, by dsimp only; omega, by norm_num, fun _ => ⟨by norm_num, not_lt.mp h2⟩⟩
    · obtain rfl := Option.some.inj hquery
      exact ⟨not_lt.mp h3, by dsimp only; omega, by norm_num, fun _ => ⟨by norm_num, not_lt.mp h3⟩⟩
  · have hno : ¬ ((takeRoom (limits someSystem smallGap oneRegion 0x140000000 8).1
        (limits someSystem smallGap oneRegion 0x140000000 8).2 (BitVec.ofNat 64 8) []).isSome ∨
        kMaxTrampolineRegion ≤ ([] : List TrampolineMemoryRegion).length) := by decide
    exact allocateMemory_of_search (s := ⟨fun _ => 0, [], 0⟩) (fuel + 3) hno (search_smallGap fuel)
  · have hbetween := (h.probes 0xFFFFFFFFFFFF0000 List.mem_cons_self).2
    exact absurd hbetween (by decide)

end Tasan.Interception
