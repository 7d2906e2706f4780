import Tasan.Word

/-!
# The shadow mapping

`asan_mapping.h`: an application address `a` has its shadow byte at `(a >> scale) + offset`, so that
one shadow byte describes a granule of `2^scale` bytes. `Layout` holds the parameters of a mapping
and the region bounds that the header derives from them, as words. `Mapping` is a 64-bit mapping with
what the runtime establishes at start-up: the scale is between 3 and 7, the shadow of the highest
address lies below it without wrapping, the regions are in order, and a granule is application memory
as a whole or not at all, since `InitializeHighMemEnd` aligns the region bounds.
-/

namespace Tasan.Asan

/-- The parameters of a shadow mapping. -/
structure Layout where
  /-- `ASAN_SHADOW_SCALE`. -/
  scale : ℕ
  /-- `ASAN_SHADOW_OFFSET`. -/
  offset : ℕ
  /-- The last application address. -/
  kHighMemEnd : ℕ
  /-- The first address of the middle region, or zero when there is none. -/
  kMidMemBeg : ℕ
  /-- The last address of the middle region. -/
  kMidMemEnd : ℕ
  protectShadowGap : Bool
  /-- The number of bits of a `uptr`. -/
  wordsize : ℕ := 64

namespace Layout

variable (L : Layout)

/-- `ASAN_SHADOW_GRANULARITY`. -/
def granularity : ℕ := 2^L.scale

/-- `MEM_TO_SHADOW`, without the check that `memToShadow` makes. -/
def MEM_TO_SHADOW (mem : ℕ) : ℕ := Word.add L.wordsize (mem >>> L.scale) L.offset

/-- `kLowMemEnd`. -/
def kLowMemEnd : ℕ := if L.offset ≠ 0 then L.offset - 1 else 0

/-- `kLowShadowEnd`. -/
def kLowShadowEnd : ℕ := L.MEM_TO_SHADOW L.kLowMemEnd

/-- `kHighMemBeg`. -/
def kHighMemBeg : ℕ := Word.add L.wordsize (L.MEM_TO_SHADOW L.kHighMemEnd) 1

/-- `kHighShadowBeg`. -/
def kHighShadowBeg : ℕ := L.MEM_TO_SHADOW L.kHighMemBeg

/-- `kMidShadowBeg`. -/
def kMidShadowBeg : ℕ := L.MEM_TO_SHADOW L.kMidMemBeg

/-- `kMidShadowEnd`. -/
def kMidShadowEnd : ℕ := L.MEM_TO_SHADOW L.kMidMemEnd

/-- `kShadowGapBeg`, with `kZeroBaseShadowStart` zero. -/
def kShadowGapBeg : ℕ := if L.kLowShadowEnd ≠ 0 then Word.add L.wordsize L.kLowShadowEnd 1 else 0

/-- `kShadowGapEnd`. -/
def kShadowGapEnd : ℕ :=
  Word.sub L.wordsize (if L.kMidMemBeg ≠ 0 then L.kMidShadowBeg else L.kHighShadowBeg) 1

/-- `AddrIsInLowMem`. -/
def addrIsInLowMem (a : ℕ) : Bool := a ≤ L.kLowMemEnd

/-- `AddrIsInMidMem`. -/
def addrIsInMidMem (a : ℕ) : Bool := L.kMidMemBeg ≠ 0 && L.kMidMemBeg ≤ a && a ≤ L.kMidMemEnd

/-- `AddrIsInHighMem`. -/
def addrIsInHighMem (a : ℕ) : Bool := L.kHighMemBeg ≠ 0 && L.kHighMemBeg ≤ a && a ≤ L.kHighMemEnd

/-- `AddrIsInShadowGap`. -/
def addrIsInShadowGap (a : ℕ) : Bool :=
  if L.kMidMemBeg ≠ 0 then
    if a ≤ L.kShadowGapEnd then L.offset == 0 || L.kShadowGapBeg ≤ a
    else
      -- `[kShadowGap2Beg, kShadowGap2End]` and `[kShadowGap3Beg, kShadowGap3End]`
      (Word.add L.wordsize L.kMidShadowEnd 1 ≤ a && a ≤ Word.sub L.wordsize L.kMidMemBeg 1) ||
        (Word.add L.wordsize L.kMidMemEnd 1 ≤ a && a ≤ Word.sub L.wordsize L.kHighShadowBeg 1)
  else if L.offset = 0 then a ≤ L.kShadowGapEnd
  else L.kShadowGapBeg ≤ a && a ≤ L.kShadowGapEnd

/-- `AddrIsInMem`. -/
def addrIsInMem (a : ℕ) : Bool :=
  L.addrIsInLowMem a || L.addrIsInMidMem a || L.addrIsInHighMem a ||
    (!L.protectShadowGap && L.addrIsInShadowGap a)

/-- `AddrIsAlignedByGranularity`. -/
def addrIsAlignedByGranularity (a : ℕ) : Bool := a &&& (L.granularity - 1) == 0

/-- `MemToShadow`; `none` is a failed `CHECK`. -/
def memToShadow (p : ℕ) : Option ℕ :=
  if L.addrIsInMem p then some (L.MEM_TO_SHADOW p) else none

end Layout

/-- A mapping that the runtime can have set up. -/
structure Mapping extends Layout where
  /-- The mapping is that of a 64-bit system. -/
  wordsize_eq : wordsize = 64 := by rfl
  /-- `CHECK(ASAN_SHADOW_SCALE >= 3 && ASAN_SHADOW_SCALE <= 7)`. -/
  scale_mem : 3 ≤ scale ∧ scale ≤ 7
  /-- The shadow does not start at address zero. -/
  offset_pos : 0 < offset
  /-- Application memory is in the lower half of the address space. -/
  kHighMemEnd_lt : kHighMemEnd < 2^63
  /-- The shadow of the last address lies below it, without wrapping. -/
  shadow_lt : kHighMemEnd / 2^scale + offset < kHighMemEnd
  /-- The middle region is not empty. -/
  mid_le : kMidMemBeg ≠ 0 → kMidMemBeg ≤ kMidMemEnd
  /-- The `CHECK` on the middle region in `PrintAddressSpaceLayout`. -/
  mid_lt : kMidMemBeg ≠ 0 → toLayout.kMidShadowBeg > toLayout.kLowShadowEnd ∧
    kMidMemBeg > toLayout.kMidShadowEnd ∧ toLayout.kHighShadowBeg > kMidMemEnd
  /-- A granule is application memory as a whole or not at all. -/
  granule : ∀ a b, a / 2^scale = b / 2^scale → toLayout.addrIsInMem a = toLayout.addrIsInMem b

namespace Mapping

variable (M : Mapping)

theorem granularity_ge : 8 ≤ M.granularity := by
  have := Nat.pow_le_pow_right (n := 2) (by norm_num) M.scale_mem.1
  exact this

theorem granularity_le : M.granularity ≤ 128 := by
  have := Nat.pow_le_pow_right (n := 2) (by norm_num) M.scale_mem.2
  exact this

theorem granularity_pos : 0 < M.granularity := Nat.two_pow_pos _

theorem granularity_eq_eight (h : M.scale = 3) : M.granularity = 8 := by
  unfold Layout.granularity
  rw [h]
  rfl

theorem and_granularity (a : ℕ) : a &&& (M.granularity - 1) = a % M.granularity :=
  Nat.and_two_pow_sub_one_eq_mod a M.scale

theorem addrIsAlignedByGranularity_iff (a : ℕ) :
    M.addrIsAlignedByGranularity a = true ↔ a % M.granularity = 0 := by
  unfold Layout.addrIsAlignedByGranularity
  rw [and_granularity, beq_iff_eq]

theorem MEM_TO_SHADOW_of_le {a : ℕ} (h : a ≤ M.kHighMemEnd) :
    M.MEM_TO_SHADOW a = a / M.granularity + M.offset := by
  have h1 := M.shadow_lt
  have h2 := M.kHighMemEnd_lt
  have h3 : a / 2^M.scale ≤ M.kHighMemEnd / 2^M.scale := Nat.div_le_div_right h
  unfold Layout.MEM_TO_SHADOW Layout.granularity
  rw [M.wordsize_eq, Nat.shiftRight_eq_div_pow]
  exact Word.add_of_lt (by omega)

theorem kLowMemEnd_eq : M.kLowMemEnd = M.offset - 1 := if_pos M.offset_pos.ne'

theorem kHighMemBeg_eq : M.kHighMemBeg = M.kHighMemEnd / M.granularity + M.offset + 1 := by
  have h1 := M.shadow_lt
  have h2 := M.kHighMemEnd_lt
  unfold Layout.kHighMemBeg
  rw [M.wordsize_eq, M.MEM_TO_SHADOW_of_le le_rfl]
  exact Word.add_of_lt (by unfold Layout.granularity; omega)

theorem MEM_TO_SHADOW_mem {a : ℕ} (h : a ≤ M.kHighMemEnd) :
    0 < M.MEM_TO_SHADOW a ∧ M.MEM_TO_SHADOW a < M.kHighMemEnd := by
  have h1 := M.shadow_lt
  have h3 : a / M.granularity ≤ M.kHighMemEnd / M.granularity := Nat.div_le_div_right h
  rw [M.MEM_TO_SHADOW_of_le h]
  refine ⟨Nat.add_pos_right _ M.offset_pos, ?_⟩
  exact lt_of_le_of_lt (Nat.add_le_add_right h3 _) h1

theorem kHighShadowBeg_mem : 0 < M.kHighShadowBeg ∧ M.kHighShadowBeg < M.kHighMemEnd := by
  apply M.MEM_TO_SHADOW_mem
  rw [kHighMemBeg_eq]
  exact M.shadow_lt

/-- Every application address is at most `kHighMemEnd`. -/
theorem le_of_addrIsInMem {a : ℕ} (h : M.addrIsInMem a = true) : a ≤ M.kHighMemEnd := by
  obtain ⟨hb0, hb⟩ := M.kHighShadowBeg_mem
  have hlt := M.kHighMemEnd_lt
  have hoff : M.offset ≤ M.kHighMemEnd := (Nat.le_add_left _ _).trans M.shadow_lt.le
  have hw := M.wordsize_eq
  have hhigh : Word.sub M.wordsize M.kHighShadowBeg 1 = M.kHighShadowBeg - 1 :=
    Word.sub_of_le hb0 (by rw [hw]; omega)
  simp only [Layout.addrIsInMem, Bool.or_eq_true, Bool.and_eq_true] at h
  rcases h with ((h | h) | h) | ⟨-, h⟩
  · simp only [Layout.addrIsInLowMem, kLowMemEnd_eq, decide_eq_true_eq] at h
    omega
  · simp only [Layout.addrIsInMidMem, Bool.and_eq_true, decide_eq_true_eq] at h
    obtain ⟨-, -, hm⟩ := M.mid_lt h.1.1
    omega
  · simp only [Layout.addrIsInHighMem, Bool.and_eq_true, decide_eq_true_eq] at h
    exact h.2
  · unfold Layout.addrIsInShadowGap Layout.kShadowGapEnd at h
    by_cases hmid : M.kMidMemBeg = 0
    · -- One gap, which ends below the high shadow.
      rw [if_neg (not_not.mpr hmid), if_neg M.offset_pos.ne', if_neg (not_not.mpr hmid),
        hhigh] at h
      simp only [Bool.and_eq_true, decide_eq_true_eq] at h
      omega
    · -- Three gaps, which end below the middle shadow, the middle region and the high shadow.
      obtain ⟨-, -, hm3⟩ := M.mid_lt hmid
      have hm := M.mid_le hmid
      obtain ⟨hs0, hs⟩ := M.MEM_TO_SHADOW_mem (a := M.kMidMemBeg) (by omega)
      have hmidShadow : Word.sub M.wordsize M.kMidShadowBeg 1 = M.kMidShadowBeg - 1 :=
        Word.sub_of_le hs0 (lt_trans hs (by rw [hw]; omega))
      have hmidMem : Word.sub M.wordsize M.kMidMemBeg 1 = M.kMidMemBeg - 1 :=
        Word.sub_of_le (Nat.pos_of_ne_zero hmid) (by rw [hw]; omega)
      rw [if_pos hmid, if_pos hmid, hmidShadow, hmidMem, hhigh] at h
      unfold Layout.kMidShadowBeg at h
      split_ifs at h with ha
      · omega
      · simp only [Bool.or_eq_true, Bool.and_eq_true, decide_eq_true_eq] at h
        omega

theorem addrIsInMem_congr {a b : ℕ} (h : a / M.granularity = b / M.granularity) :
    M.addrIsInMem a = M.addrIsInMem b := M.granule a b h

theorem memToShadow_eq_some {a : ℕ} (h : M.addrIsInMem a = true) :
    M.memToShadow a = some (a / M.granularity + M.offset) := by
  unfold Layout.memToShadow
  rw [if_pos h, M.MEM_TO_SHADOW_of_le (M.le_of_addrIsInMem h)]

theorem memToShadow_eq_none {a : ℕ} (h : M.addrIsInMem a = false) : M.memToShadow a = none := by
  unfold Layout.memToShadow
  rw [if_neg (by rw [h]; decide)]

/-- The default mapping of x86-64 Linux. -/
def linuxX64 : Mapping where
  scale := 3
  offset := 0x7fff8000
  kHighMemEnd := 0x7fffffffffff
  kMidMemBeg := 0
  kMidMemEnd := 0
  protectShadowGap := true
  scale_mem := by decide
  offset_pos := by decide
  kHighMemEnd_lt := by decide
  shadow_lt := by decide
  mid_le := by decide
  mid_lt := by decide
  granule := by
    intro a b h
    simp only [Layout.addrIsInMem, Layout.addrIsInLowMem, Layout.kLowMemEnd, Layout.addrIsInMidMem,
      Layout.addrIsInHighMem, Layout.kHighMemBeg, Layout.MEM_TO_SHADOW, Word.add,
      Nat.shiftRight_eq_div_pow]
    norm_num at h ⊢
    have h1 : a ≤ 2147450879 ↔ b ≤ 2147450879 := by omega
    have h2 : 17594333495296 ≤ a ↔ 17594333495296 ≤ b := by omega
    have h3 : a ≤ 140737488355327 ↔ b ≤ 140737488355327 := by omega
    simp only [h1, h2, h3]

theorem linuxX64_addrIsInMem (a : ℕ) :
    linuxX64.addrIsInMem a = true ↔
      a ≤ 0x7fff7fff ∨ 0x10007fff8000 ≤ a ∧ a ≤ 0x7fffffffffff := by
  have hlow : linuxX64.kLowMemEnd = 0x7fff7fff := by decide
  have hbeg : linuxX64.kHighMemBeg = 0x10007fff8000 := by decide
  have hend : linuxX64.kHighMemEnd = 0x7fffffffffff := rfl
  have hmid : linuxX64.kMidMemBeg = 0 := rfl
  have hgap : linuxX64.protectShadowGap = true := rfl
  simp only [Layout.addrIsInMem, Layout.addrIsInLowMem, Layout.addrIsInMidMem,
    Layout.addrIsInHighMem, Bool.or_eq_true, Bool.and_eq_true, decide_eq_true_eq, hlow, hbeg, hend,
    hmid, hgap]
  simp

end Mapping

end Tasan.Asan
