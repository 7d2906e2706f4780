import Tasan.Memory
import Tasan.Asan.Mapping

/-!
# Shadow memory and its bulk writers

A shadow byte is read as a signed number: zero for a granule that is addressable as a whole, `k`
for one whose first `k` bytes are addressable, and a negative magic number for one with no
addressable byte. `prefixLen` is that number of leading addressable bytes, and `Mapping.acc` the
access map of a shadow memory, from granules to their prefixes. `addressIsPoisoned_iff` says that
the byte test of the runtime is a comparison with the access map, for any byte values, and
`acc_fill` and `acc_set` give the access map after a write. `poisonShadow_eq_some` says that
`PoisonShadow` fills exactly the shadow bytes of its range, on the `memset` path and on the path that
remaps whole pages.
-/

namespace Tasan.Asan

/-- `kAsanHeapLeftRedzoneMagic`. -/
def kAsanHeapLeftRedzoneMagic : Byte := 0xfa

/-- `kAsanHeapFreeMagic`. -/
def kAsanHeapFreeMagic : Byte := 0xfd

/-- `kAsanUserPoisonedMemoryMagic`. -/
def kAsanUserPoisonedMemoryMagic : Byte := 0xf7

/-- `kAsanContiguousContainerOOBMagic`. -/
def kAsanContiguousContainerOOBMagic : Byte := 0xfc

/-- `kAsanStackUseAfterScopeMagic`. -/
def kAsanStackUseAfterScopeMagic : Byte := 0xf8

/-- What the poisoning functions read besides the shadow: the mapping, the flags and the page
size. -/
structure Config where
  /-- The shadow mapping. -/
  mapping : Mapping
  allowUserPoisoning : Bool := true
  detectContainerOverflow : Bool := true
  poisonPartial : Bool := true
  canPoisonMemory : Bool := true
  clearShadowMmapThreshold : ℕ := 64 * 1024
  /-- The logarithm of `GetPageSizeCached()`, which is also the mmap granularity. -/
  pageLog : ℕ := 12
  /-- The page size is a word. -/
  pageLog_lt : pageLog < 64 := by decide

/-- The default flags on x86-64 Linux. -/
def Config.linuxX64 : Config where
  mapping := Mapping.linuxX64

/-- A failed `CHECK` ends the process. -/
def check (b : Bool) : Option Unit := if b then some () else none

@[simp]
theorem check_true : check true = some () := rfl

/-- `AddressIsPoisoned`. -/
def addressIsPoisoned (L : Layout) (σ : Mem) (a : ℕ) : Bool :=
  let shadowValue := (σ (L.MEM_TO_SHADOW a)).toInt
  if shadowValue ≠ 0 then
    let lastAccessedByte := (BitVec.ofNat 8 ((a &&& (L.granularity - 1)) + 1 - 1)).toNat
    shadowValue ≤ lastAccessedByte
  else false

/-- `ReserveShadowMemoryRange`, which maps fresh zero pages over `[beg, end]`. -/
def reserveShadowMemoryRange (σ : Mem) (beg «end» : ℕ) : Mem := σ.fill beg («end» - beg + 1) 0

/-- The body of `FastPoisonShadow`, on the shadow bytes `[shadowBeg, shadowEnd)`: a `memset`, or
whole pages remapped and the partial pages at either end cleared. -/
def fillShadow (C : Config) (σ : Mem) (shadowBeg shadowEnd : ℕ) (value : Byte) : Mem :=
  let shadowSize := Word.sub 64 shadowEnd shadowBeg
  if value ≠ 0 ∨ shadowSize < C.clearShadowMmapThreshold then
    σ.fill shadowBeg shadowSize value
  else
    let pageBeg := Word.roundUpTo 64 shadowBeg (2^C.pageLog)
    let pageEnd := Word.roundDownTo 64 shadowEnd (2^C.pageLog)
    if pageEnd ≤ pageBeg then
      σ.fill shadowBeg shadowSize 0
    else
      let σ := if pageBeg ≠ shadowBeg then σ.fill shadowBeg (pageBeg - shadowBeg) 0 else σ
      let σ := if pageEnd ≠ shadowEnd then σ.fill pageEnd (shadowEnd - pageEnd) 0 else σ
      reserveShadowMemoryRange σ pageBeg (pageEnd - 1)

/-- `FastPoisonShadow`, on other systems than Fuchsia and Windows. -/
def fastPoisonShadow (C : Config) (σ : Mem) (alignedBeg alignedSize : ℕ) (value : Byte) : Mem :=
  let L := C.mapping.toLayout
  let shadowBeg := L.MEM_TO_SHADOW alignedBeg
  let shadowEnd :=
    Word.add 64 (L.MEM_TO_SHADOW (Word.sub 64 (Word.add 64 alignedBeg alignedSize) L.granularity)) 1
  fillShadow C σ shadowBeg shadowEnd value

/-- `PoisonShadow`. -/
def poisonShadow (C : Config) (σ : Mem) (addr size : ℕ) (value : Byte) : Option Mem :=
  let L := C.mapping.toLayout
  if value ≠ 0 ∧ !C.canPoisonMemory then some σ
  else do
    check (L.addrIsAlignedByGranularity addr)
    check (L.addrIsInMem addr)
    check (L.addrIsAlignedByGranularity (Word.add 64 addr size))
    check (L.addrIsInMem (Word.sub 64 (Word.add 64 addr size) L.granularity))
    return fastPoisonShadow C σ addr size value

/-! ## The access map -/

/-- The number of leading addressable bytes of a granule of `g` bytes with shadow value `v`. -/
def prefixLen (g : ℕ) (v : Byte) : ℕ :=
  if v.toInt = 0 then g else if v.toInt < 0 then 0 else min v.toInt.toNat g

@[simp]
theorem prefixLen_zero (g : ℕ) : prefixLen g 0 = g := rfl

theorem prefixLen_of_neg {g : ℕ} {v : Byte} (h : v.toInt < 0) : prefixLen g v = 0 := by
  unfold prefixLen
  rw [if_neg (by omega), if_pos h]

theorem toInt_ofNat_of_lt {n : ℕ} (h : n < 128) : (BitVec.ofNat 8 n).toInt = n := by
  rw [BitVec.toInt_ofNat']
  exact Int.bmod_eq_of_le (by omega) (by omega)

theorem prefixLen_ofNat {g k : ℕ} (h0 : 0 < k) (hk : k ≤ g) (h : k < 128) :
    prefixLen g (BitVec.ofNat 8 k) = k := by
  unfold prefixLen
  rw [toInt_ofNat_of_lt h, if_neg (by omega), if_neg (by omega)]
  simp [hk]

theorem prefixLen_le (g : ℕ) (v : Byte) : prefixLen g v ≤ g := by
  unfold prefixLen
  split_ifs <;> omega

/-- A shadow byte is well formed when it is zero, a proper prefix length or negative. -/
def WellFormedByte (g : ℕ) (v : Byte) : Prop :=
  v.toInt = 0 ∨ 1 ≤ v.toInt ∧ v.toInt < g ∨ v.toInt < 0

/-- A shadow memory is well formed when its bytes are. -/
def WellFormed (L : Layout) (σ : Mem) : Prop := ∀ s, WellFormedByte L.granularity (σ s)

theorem WellFormed.fill {L : Layout} {σ : Mem} (h : WellFormed L σ) (a n : ℕ) {v : Byte}
    (hv : WellFormedByte L.granularity v) : WellFormed L (σ.fill a n v) := by
  intro s
  unfold Mem.fill
  split_ifs
  · exact hv
  · exact h s

theorem WellFormed.set {L : Layout} {σ : Mem} (h : WellFormed L σ) (a : ℕ) {v : Byte}
    (hv : WellFormedByte L.granularity v) : WellFormed L (σ.set a v) := by
  intro s
  unfold Mem.set
  split_ifs
  · exact hv
  · exact h s

theorem wellFormedByte_ofNat {g k : ℕ} (hk : k < g) (h : k < 128) :
    WellFormedByte g (BitVec.ofNat 8 k) := by
  unfold WellFormedByte
  rw [toInt_ofNat_of_lt h]
  omega

theorem WellFormedByte.prefixLen_lt {g : ℕ} {v : Byte} (h : WellFormedByte g v) (hg : 0 < g)
    (hv : v ≠ 0) : prefixLen g v < g := by
  have hv' : v.toInt ≠ 0 := fun h0 => hv (BitVec.toInt_inj.mp h0)
  unfold prefixLen
  rcases h with h | h | h
  · exact absurd h hv'
  · rw [if_neg hv', if_neg (by omega)]
    omega
  · rw [if_neg hv', if_pos h]
    exact hg

theorem toInt_ofInt_of_mem {z : ℤ} (h1 : -128 ≤ z) (h2 : z < 128) :
    (BitVec.ofInt 8 z).toInt = z := by
  rw [BitVec.toInt_ofInt]
  exact Int.bmod_eq_of_le (by omega) (by omega)

theorem toInt_mem (v : Byte) : -128 ≤ v.toInt ∧ v.toInt < 128 := by
  have h1 := BitVec.le_toInt v
  have h2 := BitVec.toInt_lt (x := v)
  norm_num at h1 h2
  exact ⟨h1, h2⟩

theorem WellFormedByte.prefixLen_cases {g : ℕ} {v : Byte} (h : WellFormedByte g v) :
    v.toInt = 0 ∧ prefixLen g v = g ∨
      1 ≤ v.toInt ∧ v.toInt < g ∧ (prefixLen g v : ℤ) = v.toInt ∨
      v.toInt < 0 ∧ prefixLen g v = 0 := by
  unfold prefixLen
  rcases h with h | h | h
  · exact Or.inl ⟨h, if_pos h⟩
  · refine Or.inr (Or.inl ⟨h.1, h.2, ?_⟩)
    rw [if_neg (by omega), if_neg (by omega)]
    omega
  · exact Or.inr (Or.inr ⟨h, by rw [if_neg (by omega), if_pos h]⟩)

theorem prefixLen_ofInt {g : ℕ} {z : ℤ} (h1 : -128 ≤ z) (h2 : z < 128) (h0 : z ≠ 0) (hz : z ≤ g) :
    prefixLen g (BitVec.ofInt 8 z) = z.toNat := by
  unfold prefixLen
  rw [toInt_ofInt_of_mem h1 h2, if_neg h0]
  split_ifs <;> omega

theorem prefixLen_min {g k : ℕ} {v : Byte} (hg : g ≤ 128) (h : WellFormedByte g v)
    (hv : v.toInt ≠ 0) (hk0 : 0 < k) (hk : k < g) :
    prefixLen g (BitVec.ofInt 8 (min v.toInt k)) = min (prefixLen g v) k := by
  have hb := toInt_mem v
  rw [prefixLen_ofInt (by omega) (by omega) (by omega) (by omega)]
  rcases h.prefixLen_cases with h | h | h <;> omega

theorem prefixLen_tail {g k : ℕ} {v : Byte} (hg : g ≤ 128) (h : WellFormedByte g v) (hk0 : 0 < k)
    (hk : k < g) :
    prefixLen g (BitVec.ofInt 8 (if v.toInt = 0 then (k : ℤ) else min v.toInt k)) =
      min (prefixLen g v) k := by
  split_ifs with hv
  · rw [prefixLen_ofInt (by omega) (by omega) (by omega) (by omega)]
    rcases h.prefixLen_cases with h | h | h <;> omega
  · exact prefixLen_min hg h hv hk0 hk

theorem prefixLen_max {g k : ℕ} {v : Byte} (hg : g ≤ 128) (h : WellFormedByte g v)
    (hv : v.toInt ≠ 0) (hk0 : 0 < k) (hk : k < g) :
    prefixLen g (BitVec.ofInt 8 (max v.toInt k)) = max (prefixLen g v) k := by
  have hb := toInt_mem v
  rw [prefixLen_ofInt (by omega) (by omega) (by omega) (by rcases h with h | h | h <;> omega)]
  rcases h.prefixLen_cases with h | h | h <;> omega

theorem wellFormedByte_ofInt {g : ℕ} {z : ℤ} (hg : g ≤ 128) (h1 : -128 ≤ z) (h2 : z < g) :
    WellFormedByte g (BitVec.ofInt 8 z) := by
  unfold WellFormedByte
  rw [toInt_ofInt_of_mem h1 (by omega)]
  omega

theorem wellFormedByte_of_neg {g : ℕ} {v : Byte} (h : v.toInt < 0) : WellFormedByte g v :=
  Or.inr (Or.inr h)

theorem toNat_eq_zero_iff (v : Byte) : v.toNat = 0 ↔ v.toInt = 0 := by
  revert v
  decide

theorem wellFormed_zero (L : Layout) : WellFormed L (fun _ => 0) := fun _ => Or.inl rfl

namespace Mapping

variable (M : Mapping)

/-- The access map of a shadow memory: the number of leading addressable bytes of each granule. -/
def acc (σ : Mem) (q : ℕ) : ℕ := prefixLen M.granularity (σ (q + M.offset))

theorem acc_set (σ : Mem) (q₀ : ℕ) (v : Byte) (q : ℕ) :
    M.acc (σ.set (q₀ + M.offset) v) q = if q = q₀ then prefixLen M.granularity v else M.acc σ q := by
  unfold acc Mem.set
  split_ifs <;> first | rfl | omega

theorem acc_fill (σ : Mem) (q₀ n : ℕ) (v : Byte) (q : ℕ) :
    M.acc (σ.fill (q₀ + M.offset) n v) q =
      if q₀ ≤ q ∧ q < q₀ + n then prefixLen M.granularity v else M.acc σ q := by
  unfold acc Mem.fill
  split_ifs <;> first | rfl | omega

theorem acc_le (σ : Mem) (q : ℕ) : M.acc σ q ≤ M.granularity := prefixLen_le _ _

theorem addressIsPoisoned_iff (σ : Mem) {a : ℕ} (h : a ≤ M.kHighMemEnd) :
    addressIsPoisoned M.toLayout σ a = true ↔
      M.acc σ (a / M.granularity) ≤ a % M.granularity := by
  have hg := M.granularity_le
  have hr := Nat.mod_lt a M.granularity_pos
  unfold addressIsPoisoned acc prefixLen
  rw [M.MEM_TO_SHADOW_of_le h, and_granularity, Nat.add_sub_cancel, BitVec.toNat_ofNat,
    Nat.mod_eq_of_lt (by omega)]
  dsimp only
  generalize (σ (a / M.granularity + M.offset)).toInt = v
  split_ifs <;> simp <;> omega

theorem addressIsPoisoned_eq_false_iff (σ : Mem) {a : ℕ} (h : a ≤ M.kHighMemEnd) :
    addressIsPoisoned M.toLayout σ a = false ↔
      a % M.granularity < M.acc σ (a / M.granularity) := by
  rw [← Bool.not_eq_true, M.addressIsPoisoned_iff σ h, not_le]

end Mapping

/-! ## `PoisonShadow` -/

theorem fill_by_pages (σ : Mem) {beg pageBeg pageEnd «end» : ℕ} (h1 : beg ≤ pageBeg)
    (h2 : pageBeg < pageEnd) (h3 : pageEnd ≤ «end») :
    reserveShadowMemoryRange
      (if pageEnd ≠ «end» then
        (if pageBeg ≠ beg then σ.fill beg (pageBeg - beg) 0 else σ).fill pageEnd («end» - pageEnd) 0
      else if pageBeg ≠ beg then σ.fill beg (pageBeg - beg) 0 else σ)
      pageBeg (pageEnd - 1) = σ.fill beg («end» - beg) 0 := by
  funext x
  unfold reserveShadowMemoryRange
  by_cases hb : pageBeg = beg <;> by_cases he : pageEnd = «end» <;>
    simp only [hb, he, ne_eq, not_true_eq_false, not_false_eq_true, if_true, if_false, Mem.fill] <;>
    split_ifs <;> first | rfl | omega

/-- The body of `FastPoisonShadow` fills its shadow bytes, whichever path it takes. -/
theorem fillShadow_eq (C : Config) (σ : Mem) {shadowBeg shadowEnd : ℕ} (value : Byte)
    (h : shadowBeg ≤ shadowEnd) (hlt : shadowEnd < 2^63) :
    fillShadow C σ shadowBeg shadowEnd value =
      σ.fill shadowBeg (shadowEnd - shadowBeg) value := by
  have hlog : C.pageLog < 64 := C.pageLog_lt
  have hp : 2^C.pageLog ≤ 2^63 := Nat.pow_le_pow_right (by norm_num) (Nat.le_of_lt_succ hlog)
  have hp0 := Nat.two_pow_pos C.pageLog
  have hup : shadowBeg ≤ (shadowBeg + 2^C.pageLog - 1) / 2^C.pageLog * 2^C.pageLog := by
    have := Nat.div_add_mod (shadowBeg + 2^C.pageLog - 1) (2^C.pageLog)
    have := Nat.mod_lt (shadowBeg + 2^C.pageLog - 1) hp0
    rw [Nat.mul_comm]
    omega
  unfold fillShadow
  dsimp only
  rw [Word.sub_of_le h (by omega), Word.roundUpTo_of_lt hlog (by omega),
    Word.roundDownTo_two_pow hlog (by omega)]
  by_cases hv : value ≠ 0 ∨ shadowEnd - shadowBeg < C.clearShadowMmapThreshold
  · rw [if_pos hv]
  · rw [if_neg hv]
    have h0 : value = 0 := by tauto
    rw [h0]
    split_ifs with hpage
    · rfl
    all_goals
      rw [← fill_by_pages σ hup (not_le.mp hpage) (Nat.div_mul_le_self _ _)]
      simp only [*, ne_eq, not_false_eq_true, if_true, if_false]

/-- `FastPoisonShadow` fills the shadow bytes of its range. -/
theorem fastPoisonShadow_eq (C : Config) (σ : Mem) (p n : ℕ) (value : Byte) (h0 : 0 < p + n)
    (h1 : C.mapping.granularity * p ≤ C.mapping.kHighMemEnd)
    (h2 : C.mapping.granularity * (p + n - 1) ≤ C.mapping.kHighMemEnd) :
    fastPoisonShadow C σ (C.mapping.granularity * p) (C.mapping.granularity * n) value =
      σ.fill (p + C.mapping.offset) n value := by
  have hg := C.mapping.granularity_le
  have hg0 := C.mapping.granularity_pos
  have hlt := C.mapping.kHighMemEnd_lt
  have hlast : C.mapping.granularity * p + C.mapping.granularity * n =
      C.mapping.granularity * (p + n - 1) + C.mapping.granularity := by
    rw [← Nat.mul_add, ← Nat.mul_succ, Nat.succ_eq_add_one, Nat.sub_add_cancel h0]
  have hend : Word.sub 64
      (Word.add 64 (C.mapping.granularity * p) (C.mapping.granularity * n)) C.mapping.granularity =
      C.mapping.granularity * (p + n - 1) := by
    rw [Word.add_of_lt (by omega), Word.sub_of_le (by omega) (by omega)]
    omega
  have hb := C.mapping.MEM_TO_SHADOW_mem h1
  have he := C.mapping.MEM_TO_SHADOW_mem h2
  rw [C.mapping.MEM_TO_SHADOW_of_le h1, Nat.mul_div_cancel_left _ hg0] at hb
  rw [C.mapping.MEM_TO_SHADOW_of_le h2, Nat.mul_div_cancel_left _ hg0] at he
  unfold fastPoisonShadow
  dsimp only
  rw [hend, C.mapping.MEM_TO_SHADOW_of_le h1, C.mapping.MEM_TO_SHADOW_of_le h2,
    Nat.mul_div_cancel_left _ hg0, Nat.mul_div_cancel_left _ hg0, Word.add_of_lt (by omega),
    fillShadow_eq C σ value (by omega) (by omega)]
  congr 1
  omega

/-- `PoisonShadow` fills the shadow of `n` granules from granule `p`, when the first granule and the
last one (the granule before the first when `n` is zero) are application memory. -/
theorem poisonShadow_eq_some (C : Config) (hc : C.canPoisonMemory = true) (σ : Mem) (p n : ℕ)
    (value : Byte) (h0 : 0 < p + n)
    (h1 : C.mapping.addrIsInMem (C.mapping.granularity * p) = true)
    (h2 : C.mapping.addrIsInMem (C.mapping.granularity * (p + n - 1)) = true) :
    poisonShadow C σ (C.mapping.granularity * p) (C.mapping.granularity * n) value =
      some (σ.fill (p + C.mapping.offset) n value) := by
  have hg := C.mapping.granularity_le
  have hlt := C.mapping.kHighMemEnd_lt
  have hle1 := C.mapping.le_of_addrIsInMem h1
  have hle2 := C.mapping.le_of_addrIsInMem h2
  have hlast : C.mapping.granularity * p + C.mapping.granularity * n =
      C.mapping.granularity * (p + n - 1) + C.mapping.granularity := by
    rw [← Nat.mul_add, ← Nat.mul_succ, Nat.succ_eq_add_one, Nat.sub_add_cancel h0]
  have hsum : Word.add 64 (C.mapping.granularity * p) (C.mapping.granularity * n) =
      C.mapping.granularity * (p + n) := by
    rw [Word.add_of_lt (by omega), Nat.mul_add]
  have hend : Word.sub 64 (C.mapping.granularity * (p + n)) C.mapping.granularity =
      C.mapping.granularity * (p + n - 1) := by
    rw [Nat.mul_add, Word.sub_of_le (by omega) (by omega)]
    omega
  have hal : ∀ k, C.mapping.addrIsAlignedByGranularity (C.mapping.granularity * k) = true :=
    fun k => (C.mapping.addrIsAlignedByGranularity_iff _).mpr (Nat.mul_mod_right _ _)
  unfold poisonShadow
  dsimp only
  rw [if_neg (by simp [hc]), hsum, hend, h1, h2, hal, hal, fastPoisonShadow_eq C σ p n value h0
    hle1 hle2]
  rfl

theorem poisonShadow_eq_none (C : Config) (hc : C.canPoisonMemory = true) (σ : Mem)
    {addr size : ℕ} (value : Byte)
    (h : C.mapping.addrIsInMem addr = false ∨
      C.mapping.addrIsInMem (Word.sub 64 (Word.add 64 addr size) C.mapping.granularity) = false) :
    poisonShadow C σ addr size value = none := by
  unfold poisonShadow
  dsimp only
  rw [if_neg (by simp [hc])]
  rcases h with h | h <;> simp only [h, check, Bool.false_eq_true, if_false] <;>
    simp

end Tasan.Asan
