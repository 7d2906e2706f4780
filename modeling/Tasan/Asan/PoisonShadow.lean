import Tasan.Asan.Globals

/-!
# What the poisoning functions do to the shadow

`FastPoisonShadow` and `FastPoisonShadowPartialRightRedzone`, by the shadow bytes that they change and by
the bytes that are addressable afterwards. The second one looks at the size of the object alone: when the
redzone ends inside a granule, the bytes of the object behind it in this granule stay addressable too.
-/

namespace Tasan.Asan

/-- The addresses from one on are application memory. -/
def Mapping.MemFrom (M : Mapping) (a n : ℕ) : Prop := ∀ x, a ≤ x → x < a + n → M.addrIsInMem x = true

/-- The shadow of a range of whole granules. -/
theorem mem_shadow_iff (M : Mapping) {p n : ℕ} (hmem : M.MemFrom (M.granularity * p) (M.granularity * n))
    (s : ℕ) :
    (∃ a, M.granularity * p ≤ a ∧ a < M.granularity * p + M.granularity * n ∧ s = M.MEM_TO_SHADOW a) ↔
      p + M.offset ≤ s ∧ s < p + M.offset + n := by
  have hg := M.granularity_pos
  constructor
  · rintro ⟨a, ha, ha', rfl⟩
    rw [M.MEM_TO_SHADOW_of_le (M.le_of_addrIsInMem (hmem a ha ha'))]
    have hlow : p ≤ a / M.granularity := (Nat.le_div_iff_mul_le hg).mpr (by rwa [Nat.mul_comm])
    have hhigh : a / M.granularity < p + n := by
      rw [Nat.div_lt_iff_lt_mul hg, Nat.mul_comm, Nat.mul_add]
      exact ha'
    omega
  · rintro ⟨hlow, hhigh⟩
    obtain ⟨k, rfl⟩ := Nat.exists_eq_add_of_le hlow
    have hk : M.granularity * (p + k) < M.granularity * p + M.granularity * n := by
      rw [← Nat.mul_add]
      exact Nat.mul_lt_mul_of_pos_left (by omega) hg
    have hle : M.granularity * p ≤ M.granularity * (p + k) := Nat.mul_le_mul_left _ (Nat.le_add_right p k)
    refine ⟨M.granularity * (p + k), hle, hk, ?_⟩
    rw [M.MEM_TO_SHADOW_of_le (M.le_of_addrIsInMem (hmem _ hle hk)), Nat.mul_div_cancel_left _ hg]
    omega

/-- A shadow byte of a range. -/
def Mapping.IsShadowOf (M : Mapping) (beg size s : ℕ) : Prop :=
  ∃ a, beg ≤ a ∧ a < beg + size ∧ s = M.MEM_TO_SHADOW a

theorem fastPoisonShadow_apply (C : Config) (σ : Mem) {beg size : ℕ} (value : Byte)
    (hbeg : beg % C.mapping.granularity = 0) (hsize : size % C.mapping.granularity = 0) (hpos : 0 < size)
    (hmem : C.mapping.MemFrom beg size) (s : ℕ) :
    (C.mapping.IsShadowOf beg size s → fastPoisonShadow C σ beg size value s = value) ∧
      (¬ C.mapping.IsShadowOf beg size s → fastPoisonShadow C σ beg size value s = σ s) := by
  have hg := C.mapping.granularity_pos
  obtain ⟨p, rfl⟩ := Nat.dvd_of_mod_eq_zero hbeg
  obtain ⟨n, rfl⟩ := Nat.dvd_of_mod_eq_zero hsize
  have hn : 0 < n := Nat.pos_of_mul_pos_left hpos
  have hle : ∀ k < n, C.mapping.granularity * (p + k) ≤ C.mapping.kHighMemEnd := fun k hk =>
    C.mapping.le_of_addrIsInMem (hmem _ (Nat.mul_le_mul_left _ (Nat.le_add_right p k))
      (by rw [← Nat.mul_add]; exact Nat.mul_lt_mul_of_pos_left (by omega) hg))
  have hlast : C.mapping.granularity * (p + n - 1) ≤ C.mapping.kHighMemEnd := by
    rw [Nat.add_sub_assoc hn]
    exact hle (n - 1) (by omega)
  rw [fastPoisonShadow_eq C σ p n value (by omega) (hle 0 hn) hlast, Mapping.IsShadowOf,
    mem_shadow_iff C.mapping hmem s]
  exact ⟨Mem.fill_of_mem _ _, Mem.fill_of_not_mem _ _⟩

/-! ## The partial redzone -/

theorem foldl_set (σ : Mem) (a n : ℕ) (f : ℕ → Byte) (x : ℕ) :
    (List.range n).foldl (fun σ j => σ.set (a + j) (f j)) σ x =
      if a ≤ x ∧ x < a + n then f (x - a) else σ x := by
  induction n with
  | zero => exact (if_neg (by omega)).symm
  | succ n ih =>
    rw [List.range_succ, List.foldl_append, List.foldl_cons, List.foldl_nil]
    rcases eq_or_ne x (a + n) with rfl | hne
    · rw [Mem.set_self, if_pos ⟨Nat.le_add_right a n, by omega⟩, Nat.add_sub_cancel_left]
    · rw [Mem.set_of_ne _ _ hne, ih]
      exact if_congr (by omega) rfl rfl

theorem lt_prefixLen_partialShadowByte (C : Config) {value : Byte} (hvalue : value.toInt < 0)
    (hpart : C.poisonPartial = true) (hg : C.mapping.granularity < 128) (size i : ℕ) {r : ℕ}
    (hr : r < C.mapping.granularity) :
    r < prefixLen C.mapping.granularity (partialShadowByte C size value i) ↔ i + r < size := by
  unfold partialShadowByte
  split_ifs with hfull hnone h128
  · rw [prefixLen_zero]
    omega
  · omega
  · rw [prefixLen_of_neg hvalue]
    omega
  · rw [prefixLen_ofNat (by omega) (by omega) (by omega)]
    omega

/-- The size of a redzone in whole granules. -/
def redzoneGranules (g redzoneSize : ℕ) : ℕ := (redzoneSize + g - 1) / g

/-- `FastPoisonShadowPartialRightRedzone` makes the bytes of the object addressable and the others of its
granules not, and changes no other shadow byte. -/
theorem partialRightRedzone_apply (C : Config) (σ : Mem) {addr size redzoneSize : ℕ} {value : Byte}
    (haddr : addr % C.mapping.granularity = 0) (hvalue : value.toInt < 0) (hpart : C.poisonPartial = true)
    (hg : C.mapping.granularity < 128)
    (hmem : C.mapping.MemFrom addr
      (C.mapping.granularity * redzoneGranules C.mapping.granularity redzoneSize)) :
    (∀ a, addr ≤ a → a < addr + C.mapping.granularity * redzoneGranules C.mapping.granularity redzoneSize →
      (addressIsPoisoned C.mapping.toLayout
        (fastPoisonShadowPartialRightRedzone C σ addr size redzoneSize value) a = false ↔ a < addr + size)) ∧
    ∀ s, ¬ C.mapping.IsShadowOf addr
        (C.mapping.granularity * redzoneGranules C.mapping.granularity redzoneSize) s →
      fastPoisonShadowPartialRightRedzone C σ addr size redzoneSize value s = σ s := by
  have hgpos := C.mapping.granularity_pos
  obtain ⟨p, rfl⟩ := Nat.dvd_of_mod_eq_zero haddr
  have hrun : fastPoisonShadowPartialRightRedzone C σ (C.mapping.granularity * p) size redzoneSize value =
      (List.range (redzoneGranules C.mapping.granularity redzoneSize)).foldl
        (fun σ j => σ.set (C.mapping.MEM_TO_SHADOW (C.mapping.granularity * p) + j)
          (partialShadowByte C size value (j * C.mapping.granularity))) σ := rfl
  rw [hrun]
  generalize redzoneGranules C.mapping.granularity redzoneSize = n at hmem ⊢
  rcases Nat.eq_zero_or_pos n with rfl | hn
  · exact ⟨fun a ha ha' => absurd ha' (by omega), fun s _ => rfl⟩
  have hle : ∀ a, C.mapping.granularity * p ≤ a → a < C.mapping.granularity * p + C.mapping.granularity * n →
      a ≤ C.mapping.kHighMemEnd := fun a ha ha' => C.mapping.le_of_addrIsInMem (hmem a ha ha')
  have hfirst := hle _ le_rfl (Nat.lt_add_of_pos_right (Nat.mul_pos hgpos hn))
  rw [C.mapping.MEM_TO_SHADOW_of_le hfirst, Nat.mul_div_cancel_left _ hgpos]
  constructor
  · intro a ha ha'
    -- The granule of the address and the offset in it.
    have hq1 : p ≤ a / C.mapping.granularity := (Nat.le_div_iff_mul_le hgpos).mpr (by rwa [Nat.mul_comm])
    have hq2 : a / C.mapping.granularity < p + n := by
      rw [Nat.div_lt_iff_lt_mul hgpos, Nat.mul_comm, Nat.mul_add]
      exact ha'
    have hr := Nat.mod_lt a hgpos
    rw [C.mapping.addressIsPoisoned_eq_false_iff _ (hle a ha ha'), Mapping.acc, foldl_set, if_pos (by omega),
      lt_prefixLen_partialShadowByte C hvalue hpart hg size _ hr]
    have hdiv := Nat.div_add_mod a C.mapping.granularity
    obtain ⟨k, hk⟩ := Nat.exists_eq_add_of_le hq1
    rw [hk, Nat.mul_add] at hdiv
    rw [hk, show p + k + C.mapping.offset - (p + C.mapping.offset) = k by omega, Nat.mul_comm k]
    omega
  · intro s hs
    rw [foldl_set, if_neg ((mem_shadow_iff C.mapping hmem s).not.mp hs)]

/-! ## The results -/

/-- Both functions do to the shadow what they say, for every threshold and page size: the one sets the
bytes of its range, and the other makes those bytes of its granules addressable that are part of the
object. -/
theorem poisonShadow_exact (C : Config) (σ : Mem) (value : Byte) :
    (∀ beg size, beg % C.mapping.granularity = 0 → size % C.mapping.granularity = 0 → 0 < size →
      C.mapping.MemFrom beg size → ∀ s,
        (C.mapping.IsShadowOf beg size s → fastPoisonShadow C σ beg size value s = value) ∧
          (¬ C.mapping.IsShadowOf beg size s → fastPoisonShadow C σ beg size value s = σ s)) ∧
    ∀ addr size redzoneSize, addr % C.mapping.granularity = 0 → 0x80 ≤ value.toNat →
      C.poisonPartial = true → C.mapping.granularity < 128 →
      C.mapping.MemFrom addr
        (C.mapping.granularity * redzoneGranules C.mapping.granularity redzoneSize) →
      (∀ a, addr ≤ a → a < addr + C.mapping.granularity * redzoneGranules C.mapping.granularity redzoneSize →
        (addressIsPoisoned C.mapping.toLayout
          (fastPoisonShadowPartialRightRedzone C σ addr size redzoneSize value) a = false ↔
            a < addr + size)) ∧
      ∀ s, ¬ C.mapping.IsShadowOf addr
          (C.mapping.granularity * redzoneGranules C.mapping.granularity redzoneSize) s →
        fastPoisonShadowPartialRightRedzone C σ addr size redzoneSize value s = σ s := by
  refine ⟨fun beg size hbeg hsize hpos hmem s => fastPoisonShadow_apply C σ value hbeg hsize hpos hmem s,
    fun addr size redzoneSize haddr hvalue hpart hg hmem =>
      partialRightRedzone_apply C σ haddr ?_ hpart hg hmem⟩
  rw [BitVec.toInt_eq_toNat_cond]
  have hlt := value.isLt
  split_ifs <;> omega

theorem linuxX64_memFrom {a n : ℕ} (h : a + n ≤ 0x7fff8000) : Mapping.linuxX64.MemFrom a n := by
  intro x _ hx
  refine (Mapping.linuxX64_addrIsInMem x).mpr ?_
  omega

/-- An object of five bytes and its redzone, in two granules. -/
theorem poisonShadow_exact_five : addressIsPoisoned Mapping.linuxX64.toLayout
    (fastPoisonShadowPartialRightRedzone Config.linuxX64 (fun _ => 0) 0x10000 5 16 0xfa) 0x10004 = false ∧
    addressIsPoisoned Mapping.linuxX64.toLayout
      (fastPoisonShadowPartialRightRedzone Config.linuxX64 (fun _ => 0) 0x10000 5 16 0xfa) 0x10005 ≠
        false := by
  obtain ⟨-, h⟩ := poisonShadow_exact Config.linuxX64 (fun _ => 0) 0xfa
  obtain ⟨h, -⟩ := h 0x10000 5 16 (by decide) (by decide) rfl (by decide) (linuxX64_memFrom (by decide))
  exact ⟨(h 0x10004 (by decide) (by decide)).mpr (by decide),
    fun hacc => absurd ((h 0x10005 (by decide) (by decide)).mp hacc) (by decide)⟩

/-- A redzone of four bytes behind an object of eight: the last four bytes of the granule are addressable.
-/
theorem partialRightRedzone_short : ¬ ∀ (size redzoneSize : ℕ) (a : ℕ), 0x10000 ≤ a →
    a < 0x10000 + 8 * redzoneGranules 8 redzoneSize →
    (addressIsPoisoned Mapping.linuxX64.toLayout
      (fastPoisonShadowPartialRightRedzone Config.linuxX64 (fun _ => 0) 0x10000 size redzoneSize 0xfa) a =
        false ↔
        a < 0x10000 + min size redzoneSize) := by
  intro h
  have h4 := h 8 4 0x10004 (by decide) (by decide)
  exact absurd (h4.mp (by decide)) (by decide)

end Tasan.Asan
