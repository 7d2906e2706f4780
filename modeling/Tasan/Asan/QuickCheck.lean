import Tasan.Asan.Region

/-!
# The quick check of the memory interceptors

`QuickCheckForUnpoisonedRegion` of `asan_interceptors_memintrinsics.h`. A region of at most
`sizeof(uptr) * ASAN_SHADOW_GRANULARITY` bytes, in any position, has its shadow in the two words of
shadow that hold the shadow of its ends, so that two zero words mean that nothing is poisoned. If they
are not zero, the loop decides: a region is clean exactly when the shadow of all its granules but the
last is zero and its last byte is not poisoned, `clean_iff`.
-/

namespace Tasan.Asan

/-- `QuickCheckForUnpoisonedRegion`. -/
def quickCheckForUnpoisonedRegion (L : Layout) (σ : Mem) (beg size : ℕ) : Bool :=
  let sizeofUptr := L.wordsize / 8
  if size = 0 ∨ sizeofUptr * L.granularity < size then size == 0
  else
    let last := Word.sub L.wordsize (Word.add L.wordsize beg size) 1
    let shadowFirst := L.MEM_TO_SHADOW beg
    let shadowLast := L.MEM_TO_SHADOW last
    let uptrFirst := Word.roundDownTo L.wordsize shadowFirst sizeofUptr
    let uptrLast := Word.roundDownTo L.wordsize shadowLast sizeofUptr
    if σ.readLE uptrFirst sizeofUptr ||| σ.readLE uptrLast sizeofUptr = 0 then true
    else
      let shadow : Byte := if addressIsPoisoned L σ last then 1 else 0
      (List.range' shadowFirst (shadowLast - shadowFirst)).foldl (fun shadow s => shadow ||| σ s)
        shadow == 0

section Clean

variable {M : Mapping} {σ : Mem} {beg last : ℕ}

/-- No byte of `[beg, last]` is poisoned exactly when the shadow of the granules before that of `last`
is zero and `last` is not poisoned. -/
theorem clean_iff (hwf : WellFormed M.toLayout σ) (hle : beg ≤ last) (hlast : last ≤ M.kHighMemEnd) :
    (∀ x, beg ≤ x → x ≤ last → addressIsPoisoned M.toLayout σ x = false) ↔
      (∀ q, beg / M.granularity ≤ q → q < last / M.granularity → σ (q + M.offset) = 0) ∧
        addressIsPoisoned M.toLayout σ last = false := by
  have hg := M.granularity_pos
  constructor
  · intro h
    refine ⟨fun q hq hlt => ?_, h last hle le_rfl⟩
    -- The last byte of the granule is in the region, whatever part of the granule is.
    have hbound : q * M.granularity + M.granularity ≤ last := by
      have h1 := Nat.mul_le_mul_right M.granularity (Nat.succ_le_of_lt hlt)
      have h2 := Nat.div_mul_le_self last M.granularity
      rw [Nat.succ_mul] at h1
      omega
    have hbeg : beg < q * M.granularity + M.granularity := by
      have h1 := Nat.lt_div_mul_add (a := beg) hg
      have h2 := Nat.mul_le_mul_right M.granularity hq
      omega
    have hx := h (q * M.granularity + (M.granularity - 1)) (by omega) (by omega)
    rw [M.addressIsPoisoned_eq_false_iff σ (by omega), Nat.mul_add_mod', Nat.mod_eq_of_lt (by omega),
      Nat.mul_comm, Nat.mul_add_div hg, Nat.div_eq_of_lt (by omega), Nat.add_zero] at hx
    have hacc := M.acc_le σ q
    exact (hwf.eq_zero_iff q).mpr (by omega)
  · rintro ⟨hzero, hend⟩ x hbx hxl
    rw [M.addressIsPoisoned_eq_false_iff σ (hxl.trans hlast)]
    rcases Nat.eq_or_lt_of_le (Nat.div_le_div_right (c := M.granularity) hxl) with heq | hlt
    · -- In the last granule the addressable bytes are the first ones.
      rw [M.addressIsPoisoned_eq_false_iff σ hlast] at hend
      rw [heq]
      have h1 := Nat.div_add_mod x M.granularity
      have h2 := Nat.div_add_mod last M.granularity
      rw [heq] at h1
      omega
    · rw [(hwf.eq_zero_iff _).mp (hzero _ (Nat.div_le_div_right hbx) hlt)]
      exact Nat.mod_lt x hg

theorem zero_of_words_zero {first final : ℕ} (hle : first ≤ final) (hspan : final ≤ first + 8)
    (hfirst : σ.readLE (first / 8 * 8) 8 = 0) (hfinal : σ.readLE (final / 8 * 8) 8 = 0) {s : ℕ}
    (h1 : first ≤ s) (h2 : s ≤ final) : σ s = 0 := by
  rcases Nat.lt_or_ge s (first / 8 * 8 + 8) with h | h
  · exact (σ.readLE_eq_zero_iff _ 8).mp hfirst s (by omega) h
  · exact (σ.readLE_eq_zero_iff _ 8).mp hfinal s (by omega) (by omega)

theorem foldl_or_byte_eq_zero_iff (σ : Mem) (l : List ℕ) (shadow : Byte) :
    l.foldl (fun shadow s => shadow ||| σ s) shadow = 0 ↔ shadow = 0 ∧ ∀ s ∈ l, σ s = 0 := by
  induction l generalizing shadow with
  | nil => simp
  | cons s l ih =>
    rw [List.foldl_cons, ih, List.forall_mem_cons, ← and_assoc]
    exact and_congr_left fun _ => BitVec.or_eq_zero_iff

end Clean

/-- For every well-formed shadow and every region of application memory: if it has at least one byte
and at most `8 * ASAN_SHADOW_GRANULARITY`, the quick check succeeds exactly when no byte of it is
poisoned, and if it is longer the quick check does not succeed. -/
theorem quickCheck_exact (M : Mapping) (σ : Mem) (hwf : WellFormed M.toLayout σ) (beg size : ℕ)
    (hmem : ∀ x, beg ≤ x → x < beg + size → M.addrIsInMem x = true) :
    (1 ≤ size → size ≤ 8 * M.granularity →
      (quickCheckForUnpoisonedRegion M.toLayout σ beg size = true ↔
        ∀ x, beg ≤ x → x < beg + size → addressIsPoisoned M.toLayout σ x = false)) ∧
    (8 * M.granularity < size → quickCheckForUnpoisonedRegion M.toLayout σ beg size = false) := by
  unfold quickCheckForUnpoisonedRegion
  rw [M.wordsize_eq]
  dsimp only
  refine ⟨fun hpos hsize => ?_, fun hsize => ?_⟩
  · have hg := M.granularity_pos
    have hlastle : beg + size - 1 ≤ M.kHighMemEnd :=
      M.le_of_addrIsInMem (hmem _ (by omega) (by omega))
    have hlt := M.kHighMemEnd_lt
    have hshadow := M.shadow_lt
    have hlast : Word.sub 64 (Word.add 64 beg size) 1 = beg + size - 1 := by
      rw [Word.add_of_lt (by omega), Word.sub_of_le (by omega) (by omega)]
    -- The region ends at `last`, and its shadow spans at most nine bytes.
    have hregion : (∀ x, beg ≤ x → x < beg + size → addressIsPoisoned M.toLayout σ x = false) ↔
        ∀ x, beg ≤ x → x ≤ beg + size - 1 → addressIsPoisoned M.toLayout σ x = false :=
      forall₂_congr fun x _ => imp_congr_left (by omega)
    rw [if_neg (by omega), hlast, M.MEM_TO_SHADOW_of_le (by omega), M.MEM_TO_SHADOW_of_le hlastle,
      hregion, clean_iff hwf (by omega) hlastle]
    have hle : beg / M.granularity ≤ (beg + size - 1) / M.granularity :=
      Nat.div_le_div_right (by omega)
    have hspan : (beg + size - 1) / M.granularity ≤ beg / M.granularity + 8 := by
      rw [← Nat.add_mul_div_left beg 8 hg]
      exact Nat.div_le_div_right (by rw [Nat.mul_comm M.granularity]; omega)
    have hbound : (beg + size - 1) / M.granularity ≤ M.kHighMemEnd / 2^M.scale :=
      Nat.div_le_div_right hlastle
    generalize hlq : (beg + size - 1) / M.granularity = ql at *
    generalize beg / M.granularity = qf at *
    rw [show 64 / 8 = 2^3 from rfl, Word.roundDownTo_two_pow (by norm_num) (by omega),
      Word.roundDownTo_two_pow (by norm_num) (by omega)]
    by_cases hwords : σ.readLE ((qf + M.offset) / 2^3 * 2^3) (2^3) |||
        σ.readLE ((ql + M.offset) / 2^3 * 2^3) (2^3) = 0
    · rw [if_pos hwords]
      rw [Nat.or_eq_zero_iff] at hwords
      have hzero : ∀ q, qf ≤ q → q ≤ ql → σ (q + M.offset) = 0 := fun q h1 h2 =>
        zero_of_words_zero (by omega) (by omega) hwords.1 hwords.2 (by omega) (by omega)
      refine iff_of_true rfl ⟨fun q h1 h2 => hzero q h1 h2.le, ?_⟩
      rw [M.addressIsPoisoned_eq_false_iff σ hlastle, hlq,
        (hwf.eq_zero_iff ql).mp (hzero ql hle le_rfl)]
      exact Nat.mod_lt _ hg
    · rw [if_neg hwords, beq_iff_eq, foldl_or_byte_eq_zero_iff, and_comm]
      refine and_congr ⟨fun h q h1 h2 => ?_, fun h s hs => ?_⟩ ?_
      · exact h (q + M.offset) (List.mem_range'_1.mpr ⟨by omega, by omega⟩)
      · obtain ⟨h1, h2⟩ := List.mem_range'_1.mp hs
        have := h (s - M.offset) (by omega) (by omega)
        rwa [Nat.sub_add_cancel (by omega)] at this
      · cases addressIsPoisoned M.toLayout σ (beg + size - 1) <;> simp
  · rw [if_pos (Or.inr hsize)]
    exact beq_false_of_ne (by omega)

/-- A region of 64 bytes whose shadow spans nine bytes, the last of them partial. -/
theorem quickCheck_exact_partialGranule :
    quickCheckForUnpoisonedRegion Mapping.linuxX64.toLayout partialGranule 0xfc5 64 = true ∧
      quickCheckForUnpoisonedRegion Mapping.linuxX64.toLayout partialGranule 0xfc6 64 = false ∧
      (quickCheckForUnpoisonedRegion Mapping.linuxX64.toLayout partialGranule 0xfc5 64 = true ↔
        ∀ x, 0xfc5 ≤ x → x < 0xfc5 + 64 →
          addressIsPoisoned Mapping.linuxX64.toLayout partialGranule x = false) := by
  refine ⟨by decide, by decide, ?_⟩
  exact (quickCheck_exact Mapping.linuxX64 partialGranule partialGranule_wellFormed 0xfc5 64
    fun x _ h => linuxX64_lowMem (by omega)).1 (by norm_num) (by decide)

end Tasan.Asan
