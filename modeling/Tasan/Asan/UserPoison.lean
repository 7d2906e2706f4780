import Tasan.Asan.Shadow

/-!
# Poisoning by the user

`__asan_poison_memory_region` and `__asan_unpoison_memory_region` of `asan_poisoning.cpp`, and the
simplified `PoisonAlignedStackMemory`. Each works on two edge granules, read as signed shadow values,
and a run of whole granules between them. `asanPoisonMemoryRegion_acc` and
`asanUnpoisonMemoryRegion_acc` give their effect on the access map in one formula each, with the
same-granule branch and the branch over several granules folded together, and `refPoison` and
`refUnpoison` are the reference machine on the set of poisoned bytes that the two refine.
-/

namespace Tasan.Asan

/-- `ShadowSegmentEndpoint`: the shadow byte of an address, the address's offset in its granule and
the signed value of the byte. -/
structure ShadowSegmentEndpoint where
  /-- The address of the shadow byte. -/
  chunk : ℕ
  /-- The offset in the granule, an `s8`. -/
  offset : ℤ
  /-- The value of the shadow byte, an `s8`. -/
  value : ℤ

/-- The constructor of `ShadowSegmentEndpoint`. -/
def ShadowSegmentEndpoint.of (L : Layout) (σ : Mem) (address : ℕ) : Option ShadowSegmentEndpoint := do
  let chunk ← L.memToShadow address
  return {
    chunk := chunk
    offset := (BitVec.ofNat 8 (address &&& (L.granularity - 1))).toInt
    value := (σ chunk).toInt }

/-- `__asan_poison_memory_region`, without the record for the poison history. -/
def asanPoisonMemoryRegion (C : Config) (σ : Mem) (addr size : ℕ) : Option Mem :=
  if !C.allowUserPoisoning || size == 0 then some σ
  else do
    let beg ← ShadowSegmentEndpoint.of C.mapping.toLayout σ addr
    let «end» ← ShadowSegmentEndpoint.of C.mapping.toLayout σ (Word.add 64 addr size)
    if beg.chunk = «end».chunk then do
      check (beg.offset < «end».offset)
      let value := beg.value
      check (value == «end».value)
      -- We can only poison memory if the byte in end.offset is unaddressable.
      if 0 < value ∧ value ≤ «end».offset then
        if 0 < beg.offset then
          return σ.set beg.chunk (BitVec.ofInt 8 (min value beg.offset))
        else
          return σ.set beg.chunk kAsanUserPoisonedMemoryMagic
      else return σ
    else do
      check (beg.chunk < «end».chunk)
      let (σ, chunk) :=
        if 0 < beg.offset then
          -- Mark bytes from beg.offset as unaddressable.
          (σ.set beg.chunk
            (BitVec.ofInt 8 (if beg.value = 0 then beg.offset else min beg.value beg.offset)),
            beg.chunk + 1)
        else (σ, beg.chunk)
      let σ := σ.fill chunk («end».chunk - chunk) kAsanUserPoisonedMemoryMagic
      -- Poison if byte in end.offset is unaddressable.
      if 0 < «end».value ∧ «end».value ≤ «end».offset then
        return σ.set «end».chunk kAsanUserPoisonedMemoryMagic
      else return σ

/-- `__asan_unpoison_memory_region`. -/
def asanUnpoisonMemoryRegion (C : Config) (σ : Mem) (addr size : ℕ) : Option Mem :=
  if !C.allowUserPoisoning || size == 0 then some σ
  else do
    let beg ← ShadowSegmentEndpoint.of C.mapping.toLayout σ addr
    let «end» ← ShadowSegmentEndpoint.of C.mapping.toLayout σ (Word.add 64 addr size)
    if beg.chunk = «end».chunk then do
      check (beg.offset < «end».offset)
      let value := beg.value
      check (value == «end».value)
      -- We unpoison memory bytes up to end.offset if it is not unpoisoned already.
      if value ≠ 0 then
        return σ.set beg.chunk (BitVec.ofInt 8 (max value «end».offset))
      else return σ
    else do
      check (beg.chunk < «end».chunk)
      let σ := σ.fill beg.chunk («end».chunk - beg.chunk) 0
      if 0 < «end».offset ∧ «end».value ≠ 0 then
        return σ.set «end».chunk (BitVec.ofInt 8 (max «end».value «end».offset))
      else return σ

/-- `PoisonAlignedStackMemory`. -/
def poisonAlignedStackMemory (C : Config) (σ : Mem) (addr size : ℕ) (doPoison : Bool) :
    Option Mem :=
  if size = 0 then some σ
  else do
    let alignedSize := size &&& Word.compl 64 (C.mapping.granularity - 1)
    let σ ← poisonShadow C σ addr alignedSize (if doPoison then kAsanStackUseAfterScopeMagic else 0)
    if size = alignedSize then return σ
    else do
      let endOffset := (BitVec.ofNat 8 (size - alignedSize)).toInt
      let shadowEnd ← C.mapping.memToShadow (Word.add 64 addr alignedSize)
      let endValue := (σ shadowEnd).toInt
      if doPoison then
        -- If possible, mark all the bytes mapping to last shadow byte as unaddressable.
        if 0 < endValue ∧ endValue ≤ endOffset then
          return σ.set shadowEnd kAsanStackUseAfterScopeMagic
        else return σ
      else
        -- If necessary, mark few first bytes mapping to last shadow byte as addressable.
        if endValue ≠ 0 then
          return σ.set shadowEnd (BitVec.ofInt 8 (max endValue endOffset))
        else return σ

theorem ShadowSegmentEndpoint.of_eq_some (M : Mapping) (σ : Mem) {a : ℕ}
    (h : M.addrIsInMem a = true) :
    ShadowSegmentEndpoint.of M.toLayout σ a = some {
      chunk := a / M.granularity + M.offset
      offset := (a % M.granularity : ℕ)
      value := (σ (a / M.granularity + M.offset)).toInt } := by
  have hg := M.granularity_le
  have hr := Nat.mod_lt a M.granularity_pos
  unfold ShadowSegmentEndpoint.of
  rw [M.memToShadow_eq_some h, M.and_granularity, toInt_ofNat_of_lt (by omega)]
  rfl

/-! ## The effect of a call on the access map -/

/-- The access map after `[beg, end)` is poisoned, `end` being in the last granule touched. That
granule is poisoned only if byte `end` is. -/
def accPoison (g : ℕ) (A : ℕ → ℕ) (beg «end» : ℕ) (q : ℕ) : ℕ :=
  if beg / g ≤ q ∧ (q < «end» / g ∨ q = «end» / g ∧ A q ≤ «end» % g) then
    if q = beg / g then min (A q) (beg % g) else 0
  else A q

/-- The access map after `[beg, end)` is unpoisoned, from the start of the first granule on. -/
def accUnpoison (g : ℕ) (A : ℕ → ℕ) (beg «end» : ℕ) (q : ℕ) : ℕ :=
  if beg / g ≤ q ∧ q < «end» / g then g
  else if q = «end» / g then max (A q) («end» % g)
  else A q

/-- A call to poison `[beg, beg + size)` with all of `[beg, beg + size]` in application memory
returns, keeps the shadow well formed, and changes the access map to `accPoison`. -/
theorem asanPoisonMemoryRegion_acc (C : Config) (hu : C.allowUserPoisoning = true) {σ : Mem}
    (hwf : WellFormed C.mapping.toLayout σ) {beg size : ℕ} (hs : 0 < size)
    (h1 : C.mapping.addrIsInMem beg = true) (h2 : C.mapping.addrIsInMem (beg + size) = true) :
    ∃ σ', asanPoisonMemoryRegion C σ beg size = some σ' ∧ WellFormed C.mapping.toLayout σ' ∧
      ∀ q, C.mapping.acc σ' q =
        accPoison C.mapping.granularity (C.mapping.acc σ) beg (beg + size) q := by
  have hlt := C.mapping.kHighMemEnd_lt
  have hle := C.mapping.le_of_addrIsInMem h2
  have hg := C.mapping.granularity_le
  have hg0 := C.mapping.granularity_pos
  have hrb := Nat.mod_lt beg hg0
  have hre := Nat.mod_lt (beg + size) hg0
  have hlex := (Word.lt_iff_div_mod hg0 beg (beg + size)).mp (by omega)
  have hneg : kAsanUserPoisonedMemoryMagic.toInt < 0 := by decide
  unfold asanPoisonMemoryRegion accPoison
  rw [if_neg (by simp [hu]; omega), Word.add_of_lt (by omega),
    ShadowSegmentEndpoint.of_eq_some _ _ h1, ShadowSegmentEndpoint.of_eq_some _ _ h2]
  generalize beg / C.mapping.granularity = qb at *
  generalize beg % C.mapping.granularity = rb at *
  generalize (beg + size) / C.mapping.granularity = qe at *
  generalize (beg + size) % C.mapping.granularity = re at *
  have hb := (hwf (qb + C.mapping.offset)).prefixLen_cases
  have he := (hwf (qe + C.mapping.offset)).prefixLen_cases
  simp only [Option.bind_eq_bind, Option.bind_some]
  rcases hlex with hq | ⟨rfl, hr⟩
  · -- Two edge granules, and the granules between them.
    rw [if_neg (by omega)]
    simp only [check, show qb + C.mapping.offset < qe + C.mapping.offset by omega, decide_true,
      if_true, Option.bind_some]
    -- The first granule, when only its tail is poisoned, and then the run of whole granules.
    generalize hσ₁ : (if (0 : ℤ) < (rb : ℤ) then _ else _ : Mem × ℕ) = p
    obtain ⟨σ₁, chunk⟩ := p
    have hmid : WellFormed C.mapping.toLayout
          (σ₁.fill chunk (qe + C.mapping.offset - chunk) kAsanUserPoisonedMemoryMagic) ∧
        ∀ q, C.mapping.acc
          (σ₁.fill chunk (qe + C.mapping.offset - chunk) kAsanUserPoisonedMemoryMagic) q =
            if qb ≤ q ∧ q < qe then if q = qb then min (C.mapping.acc σ q) rb else 0
            else C.mapping.acc σ q := by
      by_cases hrb0 : (0 : ℤ) < rb
      · rw [if_pos hrb0] at hσ₁
        obtain ⟨rfl, rfl⟩ := Prod.mk.inj hσ₁
        rw [show qb + C.mapping.offset + 1 = qb + 1 + C.mapping.offset by omega,
          show qe + C.mapping.offset - (qb + 1 + C.mapping.offset) = qe - (qb + 1) by omega]
        have hwf₁ : WellFormedByte C.mapping.granularity (BitVec.ofInt 8
            (if (σ (qb + C.mapping.offset)).toInt = 0 then (rb : ℤ)
              else min (σ (qb + C.mapping.offset)).toInt rb)) := by
          have := toInt_mem (σ (qb + C.mapping.offset))
          apply wellFormedByte_ofInt hg <;> split_ifs <;> omega
        refine ⟨(hwf.set _ hwf₁).fill _ _ (wellFormedByte_of_neg hneg), fun q => ?_⟩
        rw [C.mapping.acc_fill, C.mapping.acc_set, prefixLen_of_neg hneg,
          prefixLen_tail hg (hwf _) (by omega) hrb]
        split_ifs <;> first | rfl | omega | (subst_vars; rfl)
      · rw [if_neg hrb0] at hσ₁
        obtain ⟨rfl, rfl⟩ := Prod.mk.inj hσ₁
        rw [show qe + C.mapping.offset - (qb + C.mapping.offset) = qe - qb by omega]
        refine ⟨hwf.fill _ _ (wellFormedByte_of_neg hneg), fun q => ?_⟩
        rw [C.mapping.acc_fill, prefixLen_of_neg hneg]
        split_ifs <;> first | rfl | omega
    obtain ⟨hwf₂, hacc₂⟩ := hmid
    have hacc : C.mapping.acc σ qe = prefixLen C.mapping.granularity (σ (qe + C.mapping.offset)) :=
      rfl
    split_ifs with hv
    · refine ⟨_, rfl, hwf₂.set _ (wellFormedByte_of_neg hneg), fun q => ?_⟩
      rw [C.mapping.acc_set, hacc₂, prefixLen_of_neg hneg]
      split_ifs <;> first | rfl | omega | (subst_vars; omega)
    · refine ⟨_, rfl, hwf₂, fun q => ?_⟩
      rw [hacc₂]
      rcases eq_or_ne q qe with rfl | hne
      · rw [if_neg (by omega)]
        split_ifs <;> omega
      · split_ifs <;> first | rfl | omega
  · -- One granule.
    simp only [check, if_true, decide_true, beq_self_eq_true, Option.bind_some,
      show ((rb : ℤ) < (re : ℤ)) by omega]
    have hacc : C.mapping.acc σ qb = prefixLen C.mapping.granularity (σ (qb + C.mapping.offset)) :=
      rfl
    split_ifs with hv hrb0
    · refine ⟨_, rfl, hwf.set _ (wellFormedByte_ofInt hg (by omega) (by omega)), fun q => ?_⟩
      rw [C.mapping.acc_set, prefixLen_min hg (hwf _) (by omega) (by omega) hrb]
      split_ifs <;> first | rfl | omega | (subst_vars; omega)
    · refine ⟨_, rfl, hwf.set _ (wellFormedByte_of_neg hneg), fun q => ?_⟩
      rw [C.mapping.acc_set, prefixLen_of_neg hneg]
      split_ifs <;> first | rfl | omega | (subst_vars; omega)
    · refine ⟨_, rfl, hwf, fun q => ?_⟩
      split_ifs with h3 h4
      · subst h4
        omega
      · omega
      · rfl

/-- A call to unpoison `[beg, beg + size)` with `beg` and `beg + size` in application memory returns,
keeps the shadow well formed, and changes the access map to `accUnpoison`. -/
theorem asanUnpoisonMemoryRegion_acc (C : Config) (hu : C.allowUserPoisoning = true) {σ : Mem}
    (hwf : WellFormed C.mapping.toLayout σ) {beg size : ℕ} (hs : 0 < size)
    (h1 : C.mapping.addrIsInMem beg = true) (h2 : C.mapping.addrIsInMem (beg + size) = true) :
    ∃ σ', asanUnpoisonMemoryRegion C σ beg size = some σ' ∧ WellFormed C.mapping.toLayout σ' ∧
      ∀ q, C.mapping.acc σ' q =
        accUnpoison C.mapping.granularity (C.mapping.acc σ) beg (beg + size) q := by
  have hlt := C.mapping.kHighMemEnd_lt
  have hle := C.mapping.le_of_addrIsInMem h2
  have hg := C.mapping.granularity_le
  have hg0 := C.mapping.granularity_pos
  have hre := Nat.mod_lt (beg + size) hg0
  have hlex := (Word.lt_iff_div_mod hg0 beg (beg + size)).mp (by omega)
  unfold asanUnpoisonMemoryRegion accUnpoison
  rw [if_neg (by simp [hu]; omega), Word.add_of_lt (by omega),
    ShadowSegmentEndpoint.of_eq_some _ _ h1, ShadowSegmentEndpoint.of_eq_some _ _ h2]
  generalize beg / C.mapping.granularity = qb at *
  generalize beg % C.mapping.granularity = rb at *
  generalize (beg + size) / C.mapping.granularity = qe at *
  generalize (beg + size) % C.mapping.granularity = re at *
  have hacc : C.mapping.acc σ qe = prefixLen C.mapping.granularity (σ (qe + C.mapping.offset)) :=
    rfl
  have he := (hwf (qe + C.mapping.offset)).prefixLen_cases
  have hmem := toInt_mem (σ (qe + C.mapping.offset))
  have hwfe : WellFormedByte C.mapping.granularity
      (BitVec.ofInt 8 (max (σ (qe + C.mapping.offset)).toInt re)) :=
    wellFormedByte_ofInt hg (by omega) (by rcases he with h | h | h <;> omega)
  simp only [Option.bind_eq_bind, Option.bind_some]
  rcases hlex with hq | ⟨rfl, hr⟩
  · -- The granules before the last are zeroed, and the last one extended.
    rw [if_neg (by omega), show qe + C.mapping.offset - (qb + C.mapping.offset) = qe - qb by omega]
    simp only [check, show qb + C.mapping.offset < qe + C.mapping.offset by omega, decide_true,
      if_true, Option.bind_some]
    have hzero : WellFormedByte C.mapping.granularity 0 := Or.inl rfl
    have hwf₁ := hwf.fill (qb + C.mapping.offset) (qe - qb) hzero
    split_ifs with hv
    · refine ⟨_, rfl, hwf₁.set _ hwfe, fun q => ?_⟩
      rw [C.mapping.acc_set, C.mapping.acc_fill, prefixLen_zero,
        prefixLen_max hg (hwf _) hv.2 (by omega) hre]
      rcases eq_or_ne q qe with rfl | hne
      · rw [if_pos rfl, if_neg (by omega), if_pos rfl, hacc]
      · split_ifs <;> first | rfl | omega
    · refine ⟨_, rfl, hwf₁, fun q => ?_⟩
      rw [C.mapping.acc_fill, prefixLen_zero]
      rcases eq_or_ne q qe with rfl | hne
      · rw [if_neg (by omega), if_neg (by omega), if_pos rfl]
        omega
      · split_ifs <;> first | rfl | omega
  · -- One granule.
    simp only [check, if_true, decide_true, beq_self_eq_true, Option.bind_some,
      show ((rb : ℤ) < (re : ℤ)) by omega]
    split_ifs with hv
    · refine ⟨_, rfl, hwf.set _ hwfe, fun q => ?_⟩
      rw [C.mapping.acc_set, prefixLen_max hg (hwf _) hv (by omega) hre]
      rcases eq_or_ne q qb with rfl | hne
      · rw [if_pos rfl, if_neg (by omega), if_pos rfl, hacc]
      · split_ifs <;> first | rfl | omega
    · refine ⟨_, rfl, hwf, fun q => ?_⟩
      rw [if_neg (by omega)]
      split_ifs with h
      · subst h
        omega
      · rfl

/-- `PoisonAlignedStackMemory` from an aligned address changes the access map as the general
functions do. -/
theorem poisonAlignedStackMemory_acc (C : Config) (hc : C.canPoisonMemory = true) {σ : Mem}
    (hwf : WellFormed C.mapping.toLayout σ) {addr size : ℕ} (doPoison : Bool) (hs : 0 < size)
    (hal : addr % C.mapping.granularity = 0)
    (hmem : ∀ a, addr ≤ a → a ≤ addr + size → C.mapping.addrIsInMem a = true)
    (hpre : C.mapping.granularity ≤ size ∨ C.mapping.granularity ≤ addr ∧
      C.mapping.addrIsInMem (addr - C.mapping.granularity) = true) :
    ∃ σ', poisonAlignedStackMemory C σ addr size doPoison = some σ' ∧
      WellFormed C.mapping.toLayout σ' ∧ ∀ q, C.mapping.acc σ' q =
        if doPoison then accPoison C.mapping.granularity (C.mapping.acc σ) addr (addr + size) q
        else accUnpoison C.mapping.granularity (C.mapping.acc σ) addr (addr + size) q := by
  have hlt := C.mapping.kHighMemEnd_lt
  have hle := C.mapping.le_of_addrIsInMem (hmem (addr + size) (by omega) le_rfl)
  have hg := C.mapping.granularity_le
  have hg0 := C.mapping.granularity_pos
  -- The address is granule `p`, the size `n` granules and `r` bytes.
  obtain ⟨p, rfl⟩ := Nat.dvd_of_mod_eq_zero hal
  obtain ⟨n, r, hr, rfl⟩ : ∃ n r, r < C.mapping.granularity ∧ size = C.mapping.granularity * n + r :=
    ⟨size / C.mapping.granularity, size % C.mapping.granularity, Nat.mod_lt _ hg0,
      (Nat.div_add_mod _ _).symm⟩
  have hsize : (C.mapping.granularity * n + r) &&& Word.compl 64 (C.mapping.granularity - 1) =
      C.mapping.granularity * n := by
    unfold Word.compl
    rw [show 2^64 - 1 - (C.mapping.granularity - 1) = 2^64 - 2^C.mapping.scale by
        unfold Layout.granularity at hg0 ⊢; omega,
      Word.and_compl_mask (by have := C.mapping.scale_mem; omega) (by omega)]
    change (C.mapping.granularity * n + r) / C.mapping.granularity * C.mapping.granularity = _
    rw [Nat.mul_add_div hg0, Nat.div_eq_of_lt hr, Nat.add_zero, Nat.mul_comm]
  have hend : C.mapping.granularity * p + (C.mapping.granularity * n + r) =
      C.mapping.granularity * (p + n) + r := by rw [Nat.mul_add]; omega
  have hlast : 0 < p + n ∧
      C.mapping.addrIsInMem (C.mapping.granularity * (p + n - 1)) = true := by
    rcases Nat.eq_zero_or_pos n with rfl | hn
    · rcases hpre with h | ⟨h, hm⟩
      · omega
      · rw [← Nat.mul_sub_one] at hm
        have hp : 0 < p := Nat.pos_of_mul_pos_left (a := C.mapping.granularity) (by omega)
        exact ⟨by omega, hm⟩
    · refine ⟨by omega, hmem _ (Nat.mul_le_mul_left _ (by omega)) ?_⟩
      rw [hend]
      exact (Nat.mul_le_mul_left _ (by omega)).trans (Nat.le_add_right _ _)
  have hb := poisonShadow_eq_some C hc σ p n
    (if doPoison then kAsanStackUseAfterScopeMagic else 0) hlast.1 (hmem _ le_rfl (by omega)) hlast.2
  have hneg : kAsanStackUseAfterScopeMagic.toInt < 0 := by decide
  have hwfv : WellFormedByte C.mapping.granularity
      (if doPoison then kAsanStackUseAfterScopeMagic else 0) := by
    split_ifs
    · exact wellFormedByte_of_neg hneg
    · exact Or.inl rfl
  have hwf₁ := hwf.fill (p + C.mapping.offset) n hwfv
  have hlastGranule : (σ.fill (p + C.mapping.offset) n
      (if doPoison then kAsanStackUseAfterScopeMagic else 0)) (p + n + C.mapping.offset) =
      σ (p + n + C.mapping.offset) := Mem.fill_of_not_mem _ _ (by omega)
  have hacc : C.mapping.acc σ (p + n) =
      prefixLen C.mapping.granularity (σ (p + n + C.mapping.offset)) := rfl
  have he := (hwf (p + n + C.mapping.offset)).prefixLen_cases
  have hbyte := toInt_mem (σ (p + n + C.mapping.offset))
  unfold poisonAlignedStackMemory accPoison accUnpoison
  simp only [if_neg hs.ne', hsize, hb, Option.bind_eq_bind, Option.bind_some, hend,
    Nat.mul_div_cancel_left _ hg0, Nat.mul_mod_right, Nat.mul_add_div hg0, Nat.div_eq_of_lt hr,
    Nat.add_zero, Nat.mul_add_mod, Nat.mod_eq_of_lt hr]
  by_cases hr0 : r = 0
  · -- Whole granules only.
    subst hr0
    rw [if_pos (Nat.add_zero _)]
    refine ⟨_, rfl, hwf₁, fun q => ?_⟩
    rw [C.mapping.acc_fill]
    cases doPoison with
    | true =>
      simp only [if_true, prefixLen_of_neg hneg]
      split_ifs <;> omega
    | false =>
      simp only [Bool.false_eq_true, if_false, prefixLen_zero]
      split_ifs <;> omega
  · have hsum : Word.add 64 (C.mapping.granularity * p) (C.mapping.granularity * n) =
        C.mapping.granularity * (p + n) := by
      rw [Word.add_of_lt (by omega), Nat.mul_add]
    have hshadow := C.mapping.memToShadow_eq_some (a := C.mapping.granularity * (p + n))
      (hmem _ (Nat.mul_le_mul_left _ (by omega)) (by omega))
    rw [Nat.mul_div_cancel_left _ hg0] at hshadow
    rw [if_neg (by omega), hsum, hshadow, show C.mapping.granularity * n + r -
      C.mapping.granularity * n = r by omega, toInt_ofNat_of_lt (by omega)]
    simp only [Option.bind_some, hlastGranule]
    cases doPoison with
    | true =>
      simp only [if_true]
      split_ifs with hv
      · refine ⟨_, rfl, hwf₁.set _ (wellFormedByte_of_neg hneg), fun q => ?_⟩
        rw [C.mapping.acc_set, C.mapping.acc_fill, prefixLen_of_neg hneg]
        rcases eq_or_ne q (p + n) with rfl | hne
        · split_ifs <;> omega
        · split_ifs <;> first | rfl | omega
      · refine ⟨_, rfl, hwf₁, fun q => ?_⟩
        rw [C.mapping.acc_fill, prefixLen_of_neg hneg]
        rcases eq_or_ne q (p + n) with rfl | hne
        · split_ifs <;> omega
        · split_ifs <;> first | rfl | omega
    | false =>
      simp only [Bool.false_eq_true, if_false]
      split_ifs with hv
      · refine ⟨_, rfl, hwf₁.set _ (wellFormedByte_ofInt hg (by omega)
          (by rcases he with h | h | h <;> omega)), fun q => ?_⟩
        rw [C.mapping.acc_set, C.mapping.acc_fill, prefixLen_zero,
          prefixLen_max hg (hwf _) hv (by omega) hr]
        rcases eq_or_ne q (p + n) with rfl | hne
        · rw [if_pos rfl, if_neg (by omega), if_pos rfl, hacc]
        · split_ifs <;> first | rfl | omega
      · refine ⟨_, rfl, hwf₁, fun q => ?_⟩
        rw [C.mapping.acc_fill, prefixLen_zero]
        rcases eq_or_ne q (p + n) with rfl | hne
        · rw [if_neg (by omega), if_neg (by omega), if_pos rfl]
          omega
        · split_ifs <;> rfl

/-! ## The reference machine -/

/-- The poisoned bytes after `[beg, end)` is poisoned: the bytes before the last granule boundary,
and those after it only if byte `end` was poisoned. -/
def refPoison (g : ℕ) (P : Set ℕ) (beg «end» : ℕ) : Set ℕ :=
  {x | x ∈ P ∨ beg ≤ x ∧ x < «end» ∧ (x < «end» / g * g ∨ «end» ∈ P)}

/-- The poisoned bytes after `[beg, end)` is unpoisoned, from the granule boundary below `beg`. -/
def refUnpoison (g : ℕ) (P : Set ℕ) (beg «end» : ℕ) : Set ℕ :=
  {x | x ∈ P ∧ ¬ (beg / g * g ≤ x ∧ x < «end»)}

/-- A call on the bytes `[beg, end)`. -/
inductive UserCall where
  /-- `__asan_poison_memory_region(beg, end - beg)`. -/
  | poison (beg «end» : ℕ)
  /-- `__asan_unpoison_memory_region(beg, end - beg)`. -/
  | unpoison (beg «end» : ℕ)

namespace UserCall

/-- The first byte of the call's range. -/
def beg : UserCall → ℕ
  | poison beg _ => beg
  | unpoison beg _ => beg

/-- The byte after the call's range. -/
def «end» : UserCall → ℕ
  | poison _ «end» => «end»
  | unpoison _ «end» => «end»

/-- The range is not empty, and it and the byte after it are application memory. -/
def InMem (L : Layout) (c : UserCall) : Prop :=
  c.beg < c.end ∧ ∀ a, c.beg ≤ a → a ≤ c.end → L.addrIsInMem a = true

/-- The call on the shadow. -/
def exec (C : Config) (σ : Mem) : UserCall → Option Mem
  | poison beg «end» => asanPoisonMemoryRegion C σ beg («end» - beg)
  | unpoison beg «end» => asanUnpoisonMemoryRegion C σ beg («end» - beg)

/-- The call on the reference machine. -/
def ref (g : ℕ) (P : Set ℕ) : UserCall → Set ℕ
  | poison beg «end» => refPoison g P beg «end»
  | unpoison beg «end» => refUnpoison g P beg «end»

/-- The bytes that a call may change. -/
def range (g : ℕ) : UserCall → Set ℕ
  | poison beg «end» => Set.Ico beg «end»
  | unpoison beg «end» => Set.Ico (beg / g * g) «end»

end UserCall

/-- A sequence of calls on the shadow. -/
def runCalls (C : Config) (σ : Mem) (calls : List UserCall) : Option Mem :=
  calls.foldlM (UserCall.exec C) σ

/-- A sequence of calls on the reference machine. -/
def refRun (g : ℕ) (P : Set ℕ) (calls : List UserCall) : Set ℕ := calls.foldl (UserCall.ref g) P

/-- A shadow memory represents a set of poisoned bytes when the byte test is membership in it. -/
def Represents (M : Mapping) (σ : Mem) (P : Set ℕ) : Prop :=
  ∀ x ≤ M.kHighMemEnd, addressIsPoisoned M.toLayout σ x = true ↔ x ∈ P

theorem Represents.self (M : Mapping) (σ : Mem) :
    Represents M σ {x | addressIsPoisoned M.toLayout σ x = true} := fun _ _ => Iff.rfl

theorem accPoison_le_iff {g : ℕ} (hg : 0 < g) (A : ℕ → ℕ) {beg «end» : ℕ} (x : ℕ) :
    accPoison g A beg «end» (x / g) ≤ x % g ↔
      A (x / g) ≤ x % g ∨
        beg ≤ x ∧ x < «end» ∧ (x < «end» / g * g ∨ A («end» / g) ≤ «end» % g) := by
  have hx := Nat.mod_lt x hg
  have hbeg : beg ≤ x ↔ ¬ (x / g < beg / g ∨ x / g = beg / g ∧ x % g < beg % g) := by
    rw [← Word.lt_iff_div_mod hg, not_lt]
  have hround : x < «end» / g * g ↔ x / g < «end» / g := (Nat.div_lt_iff_lt_mul hg).symm
  rw [hround, hbeg, Word.lt_iff_div_mod hg x «end»]
  unfold accPoison
  generalize x / g = q at *
  generalize x % g = r at *
  generalize beg / g = qb at *
  generalize beg % g = rb at *
  generalize «end» / g = qe at *
  generalize «end» % g = re at *
  rcases eq_or_ne q qe with rfl | hne
  · split_ifs <;> omega
  · split_ifs <;> omega

theorem accUnpoison_le_iff {g : ℕ} (hg : 0 < g) (A : ℕ → ℕ) {beg «end» : ℕ} (h : beg < «end») (x : ℕ) :
    accUnpoison g A beg «end» (x / g) ≤ x % g ↔
      A (x / g) ≤ x % g ∧ ¬ (beg / g * g ≤ x ∧ x < «end») := by
  have hx := Nat.mod_lt x hg
  have hround : beg / g * g ≤ x ↔ beg / g ≤ x / g := (Nat.le_div_iff_mul_le hg).symm
  have hle : beg / g ≤ «end» / g := Nat.div_le_div_right h.le
  rw [hround, Word.lt_iff_div_mod hg x «end»]
  unfold accUnpoison
  generalize x / g = q at *
  generalize x % g = r at *
  generalize beg / g = qb at *
  generalize «end» / g = qe at *
  generalize «end» % g = re at *
  split_ifs <;> omega

theorem Represents.poison {M : Mapping} {σ σ' : Mem} {P : Set ℕ} (h : Represents M σ P)
    {beg «end» : ℕ} (he : «end» ≤ M.kHighMemEnd)
    (hacc : ∀ q, M.acc σ' q = accPoison M.granularity (M.acc σ) beg «end» q) :
    Represents M σ' (refPoison M.granularity P beg «end») := by
  intro x hx
  rw [M.addressIsPoisoned_iff σ' hx, hacc, accPoison_le_iff M.granularity_pos,
    ← M.addressIsPoisoned_iff σ hx, ← M.addressIsPoisoned_iff σ he, h x hx, h _ he]
  rfl

theorem Represents.unpoison {M : Mapping} {σ σ' : Mem} {P : Set ℕ} (h : Represents M σ P)
    {beg «end» : ℕ} (hlt : beg < «end»)
    (hacc : ∀ q, M.acc σ' q = accUnpoison M.granularity (M.acc σ) beg «end» q) :
    Represents M σ' (refUnpoison M.granularity P beg «end») := by
  intro x hx
  rw [M.addressIsPoisoned_iff σ' hx, hacc, accUnpoison_le_iff M.granularity_pos _ hlt,
    ← M.addressIsPoisoned_iff σ hx, h x hx]
  rfl

theorem UserCall.mem_ref_iff {g : ℕ} {P : Set ℕ} {c : UserCall} {x : ℕ} (hx : x ∉ c.range g) :
    x ∈ c.ref g P ↔ x ∈ P := by
  cases c with
  | poison beg «end» =>
    simp only [range, Set.mem_Ico] at hx
    simp only [ref, refPoison, Set.mem_ofPred_eq]
    tauto
  | unpoison beg «end» =>
    simp only [range, Set.mem_Ico] at hx
    simp only [ref, refUnpoison, Set.mem_ofPred_eq]
    tauto

theorem UserCall.exec_refines (C : Config) (hu : C.allowUserPoisoning = true) {σ : Mem}
    (hwf : WellFormed C.mapping.toLayout σ) {P : Set ℕ} (hP : Represents C.mapping σ P)
    {c : UserCall} (hc : c.InMem C.mapping.toLayout) :
    ∃ σ', c.exec C σ = some σ' ∧ WellFormed C.mapping.toLayout σ' ∧
      Represents C.mapping σ' (c.ref C.mapping.granularity P) := by
  obtain ⟨hlt, hmem⟩ := hc
  have h1 := hmem c.beg le_rfl hlt.le
  have h2 := hmem c.end hlt.le le_rfl
  have hsum : c.beg + (c.end - c.beg) = c.end := by omega
  have hle := C.mapping.le_of_addrIsInMem h2
  rw [← hsum] at h2
  cases c with
  | poison beg «end» =>
    obtain ⟨σ', hrun, hwf', hacc⟩ := asanPoisonMemoryRegion_acc C hu hwf (by omega) h1 h2
    rw [hsum] at hacc
    exact ⟨σ', hrun, hwf', hP.poison hle hacc⟩
  | unpoison beg «end» =>
    obtain ⟨σ', hrun, hwf', hacc⟩ := asanUnpoisonMemoryRegion_acc C hu hwf (by omega) h1 h2
    rw [hsum] at hacc
    exact ⟨σ', hrun, hwf', hP.unpoison hlt hacc⟩

theorem runCalls_refines (C : Config) (hu : C.allowUserPoisoning = true) (calls : List UserCall)
    (hcalls : ∀ c ∈ calls, c.InMem C.mapping.toLayout) {σ : Mem}
    (hwf : WellFormed C.mapping.toLayout σ) {P : Set ℕ} (hP : Represents C.mapping σ P) :
    ∃ σ', runCalls C σ calls = some σ' ∧ WellFormed C.mapping.toLayout σ' ∧
      Represents C.mapping σ' (refRun C.mapping.granularity P calls) := by
  induction calls generalizing σ P with
  | nil => exact ⟨σ, rfl, hwf, hP⟩
  | cons c cs ih =>
    obtain ⟨σ₁, hrun, hwf₁, hP₁⟩ := UserCall.exec_refines C hu hwf hP (hcalls c (by simp))
    obtain ⟨σ', hrun', h'⟩ := ih (fun c hc => hcalls c (by simp [hc])) hwf₁ hP₁
    refine ⟨σ', ?_, h'⟩
    unfold runCalls
    rw [List.foldlM_cons, hrun]
    exact hrun'

/-- From a well-formed shadow, with user poisoning and memory poisoning enabled: every sequence of
calls on ranges that lie in application memory with the byte after them returns, keeps the shadow
well formed and changes the poisoned bytes as the reference machine does; a call changes no byte
outside its range; and `PoisonAlignedStackMemory` from an aligned address represents the same bytes
as the general functions, if it covers a granule or the granule before it is application memory. -/
theorem user_poisoning_refines_reference (C : Config) (hu : C.allowUserPoisoning = true)
    (hcan : C.canPoisonMemory = true) (σ : Mem) (hwf : WellFormed C.mapping.toLayout σ) :
    (∀ calls : List UserCall, (∀ c ∈ calls, c.InMem C.mapping.toLayout) →
      ∃ σ', runCalls C σ calls = some σ' ∧ WellFormed C.mapping.toLayout σ' ∧
        ∀ x ≤ C.mapping.kHighMemEnd, addressIsPoisoned C.mapping.toLayout σ' x = true ↔
          x ∈ refRun C.mapping.granularity
            {x | addressIsPoisoned C.mapping.toLayout σ x = true} calls) ∧
    (∀ c : UserCall, c.InMem C.mapping.toLayout →
      ∃ σ', c.exec C σ = some σ' ∧ ∀ x ≤ C.mapping.kHighMemEnd, x ∉ c.range C.mapping.granularity →
        addressIsPoisoned C.mapping.toLayout σ' x = addressIsPoisoned C.mapping.toLayout σ x) ∧
    (∀ addr size : ℕ, ∀ doPoison : Bool, 0 < size → addr % C.mapping.granularity = 0 →
      (∀ a, addr ≤ a → a ≤ addr + size → C.mapping.addrIsInMem a = true) →
      (C.mapping.granularity ≤ size ∨ C.mapping.granularity ≤ addr ∧
        C.mapping.addrIsInMem (addr - C.mapping.granularity) = true) →
      ∃ σ₁ σ₂, poisonAlignedStackMemory C σ addr size doPoison = some σ₁ ∧
        (if doPoison then asanPoisonMemoryRegion C σ addr size
          else asanUnpoisonMemoryRegion C σ addr size) = some σ₂ ∧
        WellFormed C.mapping.toLayout σ₁ ∧ ∀ x ≤ C.mapping.kHighMemEnd,
          addressIsPoisoned C.mapping.toLayout σ₁ x =
            addressIsPoisoned C.mapping.toLayout σ₂ x) := by
  refine ⟨fun calls hcalls => runCalls_refines C hu calls hcalls hwf (Represents.self _ _),
    fun c hc => ?_, fun addr size doPoison hs hal hmem hpre => ?_⟩
  · obtain ⟨σ', hrun, -, hP⟩ := UserCall.exec_refines C hu hwf (Represents.self _ _) hc
    refine ⟨σ', hrun, fun x hx hout => Bool.eq_iff_iff.mpr ?_⟩
    rw [hP x hx, UserCall.mem_ref_iff hout]
    rfl
  · have h1 := hmem addr le_rfl (by omega)
    have h2 := hmem (addr + size) (by omega) le_rfl
    obtain ⟨σ₁, hrun₁, hwf₁, hacc₁⟩ :=
      poisonAlignedStackMemory_acc C hcan hwf doPoison hs hal hmem hpre
    obtain ⟨σ₂, hrun₂, hacc₂⟩ : ∃ σ₂, (if doPoison then asanPoisonMemoryRegion C σ addr size
        else asanUnpoisonMemoryRegion C σ addr size) = some σ₂ ∧
        ∀ q, C.mapping.acc σ₁ q = C.mapping.acc σ₂ q := by
      cases doPoison with
      | true =>
        obtain ⟨σ₂, hrun₂, -, hacc₂⟩ := asanPoisonMemoryRegion_acc C hu hwf hs h1 h2
        exact ⟨σ₂, hrun₂, fun q => by rw [hacc₁, hacc₂, if_pos rfl]⟩
      | false =>
        obtain ⟨σ₂, hrun₂, -, hacc₂⟩ := asanUnpoisonMemoryRegion_acc C hu hwf hs h1 h2
        exact ⟨σ₂, hrun₂, fun q => by rw [hacc₁, hacc₂, if_neg (by decide)]⟩
    refine ⟨σ₁, σ₂, hrun₁, hrun₂, hwf₁, fun x hx => Bool.eq_iff_iff.mpr ?_⟩
    rw [C.mapping.addressIsPoisoned_iff σ₁ hx, C.mapping.addressIsPoisoned_iff σ₂ hx, hacc₂]

/-- Bytes `0x1003` to `0x1014` poisoned and then `0x1008` to `0x100b` unpoisoned, and the same bytes
of a stack frame poisoned by either function. -/
theorem user_poisoning_refines_reference_linuxX64 :
    (∃ σ', runCalls Config.linuxX64 (fun _ => 0) [.poison 0x1003 0x1015, .unpoison 0x1008 0x100c] =
        some σ' ∧
      ∀ x ≤ 0x7fffffffffff, addressIsPoisoned Mapping.linuxX64.toLayout σ' x = true ↔
        x ∈ refRun 8 {x | addressIsPoisoned Mapping.linuxX64.toLayout (fun _ => 0) x = true}
          [.poison 0x1003 0x1015, .unpoison 0x1008 0x100c]) ∧
    (∃ σ', asanPoisonMemoryRegion Config.linuxX64 (fun _ => 0) 0x1003 18 = some σ' ∧
      addressIsPoisoned Mapping.linuxX64.toLayout σ' 0x1002 =
        addressIsPoisoned Mapping.linuxX64.toLayout (fun _ => 0) 0x1002) ∧
    (∃ σ₁ σ₂, poisonAlignedStackMemory Config.linuxX64 (fun _ => 0) 0x1000 13 true = some σ₁ ∧
      asanPoisonMemoryRegion Config.linuxX64 (fun _ => 0) 0x1000 13 = some σ₂ ∧
      ∀ x ≤ 0x7fffffffffff, addressIsPoisoned Mapping.linuxX64.toLayout σ₁ x =
        addressIsPoisoned Mapping.linuxX64.toLayout σ₂ x) := by
  obtain ⟨hrun, hframe, hstack⟩ := user_poisoning_refines_reference Config.linuxX64 rfl rfl
    (fun _ => 0) (wellFormed_zero _)
  have hmem : ∀ a, a ≤ 0x2000 → Mapping.linuxX64.addrIsInMem a = true :=
    fun a ha => (Mapping.linuxX64_addrIsInMem a).mpr (by omega)
  have hp : (UserCall.poison 0x1003 0x1015).InMem Mapping.linuxX64.toLayout :=
    ⟨by decide, fun a _ h => hmem a (le_trans h (by decide))⟩
  have hu : (UserCall.unpoison 0x1008 0x100c).InMem Mapping.linuxX64.toLayout :=
    ⟨by decide, fun a _ h => hmem a (le_trans h (by decide))⟩
  refine ⟨?_, ?_, ?_⟩
  · obtain ⟨σ', h, -, hP⟩ := hrun [.poison 0x1003 0x1015, .unpoison 0x1008 0x100c] (by
      simp only [List.mem_cons, List.not_mem_nil, or_false, forall_eq_or_imp, forall_eq]
      exact ⟨hp, hu⟩)
    exact ⟨σ', h, hP⟩
  · obtain ⟨σ', h, hP⟩ := hframe (.poison 0x1003 0x1015) hp
    exact ⟨σ', h, hP 0x1002 (by decide) (by simp [UserCall.range])⟩
  · obtain ⟨σ₁, σ₂, h₁, h₂, -, hP⟩ := hstack 0x1000 13 true (by decide) (by decide)
      (fun a _ h => hmem a (by omega)) (Or.inl (by decide))
    exact ⟨σ₁, σ₂, h₁, h₂, hP⟩

/-- The last granule of low memory cannot be poisoned, as the byte after it has no shadow, and the
first bytes of high memory cannot be poisoned as stack memory, as `PoisonShadow` of no granules
checks the granule before them. -/
theorem user_poisoning_fails_at_region_ends :
    (∀ a, 0x7fff7ff8 ≤ a → a < 0x7fff8000 → Mapping.linuxX64.addrIsInMem a = true) ∧
    asanPoisonMemoryRegion Config.linuxX64 (fun _ => 0) 0x7fff7ff8 8 = none ∧
    (∀ a, 0x10007fff8000 ≤ a → a ≤ 0x10007fff8001 → Mapping.linuxX64.addrIsInMem a = true) ∧
    poisonAlignedStackMemory Config.linuxX64 (fun _ => 0) 0x10007fff8000 1 true = none := by
  refine ⟨fun a _ h => (Mapping.linuxX64_addrIsInMem a).mpr (by omega), by decide,
    fun a h1 h2 => (Mapping.linuxX64_addrIsInMem a).mpr (by omega), by decide⟩

end Tasan.Asan
