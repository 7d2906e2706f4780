import Tasan.Primary.Allocator64

/-!
# Pointers into a region

A region is a power of two, and starts at a multiple of it from the beginning of the space. So the region of
a pointer, the class and the offset are what the masks and divisions of the code compute. `GetChunkIdx`
divides an offset that fits into 32 bits by the lower half of the size: `getChunkIdx_eq` is for the sizes
that are their lower half, and `getChunkIdx_wide` shows what goes wrong with the other ones.
-/

namespace Tasan.Primary

namespace SizeClassMap

variable (m : SizeClassMap)

theorem kNumClassesRounded_eq : ∃ i, m.kNumClassesRounded = 2^i := by
  unfold kNumClassesRounded
  split_ifs
  exacts [⟨5, rfl⟩, ⟨6, rfl⟩, ⟨7, rfl⟩, ⟨8, rfl⟩]

end SizeClassMap

namespace Config

variable (C : Config)

/-! ## Addresses -/

theorem kRegionSize_eq : ∃ g ≤ 36, C.kRegionSize = 2^g ∧
    C.kSpaceSize = 2^g * C.map.kNumClassesRounded := by
  obtain ⟨i, hi⟩ := C.map.kNumClassesRounded_eq
  have hle := C.kRegionSize_le
  have hpos : 1 ≤ 2^C.kSpaceSizeLog / C.map.kNumClassesRounded := by
    refine le_trans ?_ C.kMaxSize_le
    rw [SizeClassMap.kMaxSize_eq]
    exact Nat.one_le_two_pow
  unfold kRegionSize kSpaceSize
  rw [hi] at hle hpos ⊢
  have hilog : i ≤ C.kSpaceSizeLog := by
    by_contra hlt
    have := Nat.div_eq_of_lt (Nat.pow_lt_pow_right (a := 2) (by norm_num) (not_le.mp hlt))
    omega
  rw [Nat.pow_div hilog (by norm_num)] at hle ⊢
  refine ⟨_, (Nat.pow_le_pow_iff_right (by norm_num)).mp hle, rfl, ?_⟩
  rw [← pow_add, Nat.sub_add_cancel hilog]

theorem kRegionSize_bounds : 0 < C.kRegionSize ∧ C.kRegionSize ≤ 2^36 := by
  obtain ⟨g, hg, heq, -⟩ := C.kRegionSize_eq
  rw [heq]
  exact ⟨Nat.two_pow_pos g, Nat.pow_le_pow_right (by norm_num) hg⟩

theorem kLargestClassID_lt : C.map.kLargestClassID < C.map.kNumClassesRounded ∧
    C.map.kLargestClassID < C.map.kNumClasses := by
  have hle := C.kNumClasses_le
  have hnum : C.map.kLargestClassID + 2 = C.map.kNumClasses := by
    rw [SizeClassMap.kLargestClassID, SizeClassMap.kNumClasses]
    rfl
  unfold SizeClassMap.kNumClassesRounded
  split_ifs <;> omega

/-- The region of a class, without wrapping. -/
def regionBeg (classId : ℕ) : ℕ := C.spaceBeg + C.kRegionSize * classId

/-- The end of the metadata in the region of a class, without wrapping. -/
def metadataEnd (classId : ℕ) : ℕ := C.regionBeg classId + (C.kRegionSize - C.kFreeArraySize)

variable {C} {c : ℕ}

theorem regionBeg_add_le (hc : c ≤ C.map.kLargestClassID) :
    C.regionBeg c + C.kRegionSize ≤ C.spaceBeg + C.kSpaceSize := by
  obtain ⟨g, -, hg, hspace⟩ := C.kRegionSize_eq
  have hlt := C.kLargestClassID_lt.1
  rw [regionBeg, hspace, ← hg, Nat.add_assoc, ← Nat.mul_succ]
  exact Nat.add_le_add_left (Nat.mul_le_mul_left _ (by omega)) _

theorem regionBeg_add_lt (hc : c ≤ C.map.kLargestClassID) :
    C.regionBeg c + C.kRegionSize < 2^64 :=
  (regionBeg_add_le hc).trans_lt C.spaceEnd_lt

theorem getRegionBeginBySizeClass_eq (hc : c ≤ C.map.kLargestClassID) :
    C.getRegionBeginBySizeClass c = C.regionBeg c := by
  have hlt := regionBeg_add_lt hc
  have hle : C.kRegionSize * c < 2^64 := by
    unfold regionBeg at hlt
    omega
  unfold regionBeg at hlt ⊢
  rw [getRegionBeginBySizeClass, Nat.mod_eq_of_lt hle, Word.add_of_lt (by omega)]

theorem getMetadataEnd_eq (hc : c ≤ C.map.kLargestClassID) :
    C.getMetadataEnd (C.regionBeg c) = C.metadataEnd c := by
  have hlt := regionBeg_add_lt hc
  have hfree : C.kFreeArraySize ≤ C.kRegionSize := Nat.div_le_self _ _
  rw [getMetadataEnd, Word.add_of_lt hlt, Word.sub_of_le (by omega) hlt, metadataEnd]
  omega

section Pointer

variable (hc : c ≤ C.map.kLargestClassID) {o : ℕ} (ho : o < C.kRegionSize)
include hc ho

theorem sub_spaceBeg : Word.sub 64 (C.regionBeg c + o) C.spaceBeg = C.kRegionSize * c + o := by
  have hlt := regionBeg_add_lt hc
  unfold regionBeg at hlt ⊢
  rw [Word.sub_of_le (by omega) (by omega)]
  omega

theorem getRegionBegin_eq : C.getRegionBegin (C.regionBeg c + o) = C.regionBeg c := by
  obtain ⟨g, hg, hregion, -⟩ := C.kRegionSize_eq
  have hlt := regionBeg_add_lt hc
  have hpos := C.kRegionSize_bounds.1
  -- Rounding down a pointer whose distance from a multiple of the region size is less than a region.
  have hround : ∀ q, C.kRegionSize * q + o < 2^64 →
      Word.roundDownTo 64 (C.kRegionSize * q + o) C.kRegionSize = C.kRegionSize * q := fun q hq => by
    rw [hregion] at hq ho hpos ⊢
    rw [Word.roundDownTo_two_pow (by omega) hq, Nat.mul_add_div hpos, Nat.div_eq_of_lt ho, Nat.add_zero,
      Nat.mul_comm]
  unfold getRegionBegin
  split_ifs with hconst
  · obtain ⟨q, hq⟩ := C.spaceBeg_dvd hconst
    have hbeg : C.regionBeg c = C.kRegionSize * (q + c) := by
      rw [regionBeg, Nat.mul_add, hq]
      rfl
    rw [hbeg, hround (q + c) (by rw [← hbeg]; omega)]
  · rw [sub_spaceBeg hc ho, hround c (by unfold regionBeg at hlt; omega),
      Word.add_of_lt (by unfold regionBeg at hlt; omega), regionBeg, Nat.add_comm]

theorem getSizeClass_eq : C.getSizeClass (C.regionBeg c + o) = c := by
  obtain ⟨g, -, hregion, hspace⟩ := C.kRegionSize_eq
  have hpos := C.kRegionSize_bounds.1
  have hclass := C.kLargestClassID_lt.1
  have hquot : ∀ q, (C.kRegionSize * q + o) / C.kRegionSize = q := fun q => by
    rw [Nat.mul_add_div hpos, Nat.div_eq_of_lt ho, Nat.add_zero]
  unfold getSizeClass
  split_ifs with hconst
  · -- The space begins at a multiple of the number of regions.
    have hzero : C.spaceBeg % C.kSpaceSize = 0 := by
      simp only [Bool.and_eq_true, beq_iff_eq] at hconst
      exact hconst.2
    obtain ⟨q, hq⟩ := Nat.dvd_of_mod_eq_zero hzero
    have hbeg : C.regionBeg c = C.kRegionSize * (C.map.kNumClassesRounded * q + c) := by
      rw [regionBeg, Nat.mul_add, hq, hspace, hregion, Nat.mul_assoc]
    rw [hbeg, hquot, Nat.mul_add_mod, Nat.mod_eq_of_lt (by omega)]
  · rw [sub_spaceBeg hc ho, hquot, Nat.mod_eq_of_lt (by omega)]

theorem offset_eq : (if C.kUsingConstantSpaceBeg then C.regionBeg c + o
    else Word.sub 64 (C.regionBeg c + o) C.spaceBeg) % C.kRegionSize = o := by
  split_ifs with hconst
  · obtain ⟨q, hq⟩ := C.spaceBeg_dvd hconst
    have hbeg : C.regionBeg c = C.kRegionSize * (q + c) := by
      rw [regionBeg, Nat.mul_add, hq]
      rfl
    rw [hbeg, Nat.mul_add_mod, Nat.mod_eq_of_lt ho]
  · rw [sub_spaceBeg hc ho, Nat.mul_add_mod, Nat.mod_eq_of_lt ho]

theorem getChunkIdx_eq {size : ℕ} (hpos : 0 < size) (hsize : size < 2^32) :
    C.getChunkIdx (C.regionBeg c + o) size = .ok (o / size) := by
  unfold getChunkIdx
  dsimp only
  rw [offset_eq hc ho, Nat.mod_eq_of_lt hsize, if_neg (by omega : ¬ size = 0)]
  split_ifs with hwide
  · rfl
  · -- The offset fits into 32 bits too.
    have hshift : o >>> 32 = o / 2^32 := Nat.shiftRight_eq_div_pow o 32
    have hnarrow : o < 2^32 := by
      rw [hshift] at hwide
      omega
    rw [Nat.mod_eq_of_lt hnarrow]

theorem getChunkIdx_wide {size : ℕ} (ho' : o = size % 2^32) :
    C.getChunkIdx (C.regionBeg c + o) size = if o = 0 then .error .division else .ok 1 := by
  have hnarrow : o < 2^32 := by omega
  have hshift : o >>> 32 = 0 := Nat.shiftRight_eq_zero o 32 hnarrow
  unfold getChunkIdx
  dsimp only
  rw [offset_eq hc ho, hshift, if_neg (not_not.mpr rfl), ← ho', Nat.mod_eq_of_lt hnarrow]
  split_ifs with hzero
  · rfl
  · rw [Nat.div_self (Nat.pos_of_ne_zero hzero)]

end Pointer

end Config

end Tasan.Primary
