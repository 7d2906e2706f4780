import Tasan.Primary.SizeClassMap

/-!
# The alignment of chunks

`CombinedAllocator::Allocate` asks the primary allocator for an aligned chunk by its size alone: the size is
rounded up to the alignment, and a power of two that divides a size divides the size of its class
(`SizeClassMap.two_pow_dvd_size`). A chunk lies at a multiple of the size of its class from the beginning of
its region, so it is aligned when the region is.

The cache over the primary allocator and the secondary allocator are parameters.
-/

namespace Tasan.Primary

/-- What `CombinedAllocator::Allocate` calls. -/
structure Combined where
  /-- The bits of a word. -/
  w : ℕ
  /-- The size classes of the primary allocator. -/
  map : SizeClassMap
  /-- `cache->Allocate` for a class, zero when there is no memory. -/
  cacheAllocate : ℕ → ℕ
  /-- `secondary_.Allocate` for a size and an alignment, zero when there is no memory. -/
  secondaryAllocate : ℕ → ℕ → ℕ

/-- How `CombinedAllocator::Allocate` dies. -/
inductive Combined.Fault
  /-- The boundary in `RoundUpTo` is not a power of two. -/
  | roundUpTo
  /-- The result is not aligned. -/
  | alignment
  deriving DecidableEq

/-- What it returns. -/
inductive Combined.Result
  /-- Null, after the warning about this size and this alignment. -/
  | overflow (size alignment : ℕ)
  /-- What one of the two allocators returned. -/
  | returned (res : ℕ)
  deriving DecidableEq

namespace Combined

variable (A : Combined)

/-- `CanAllocate` of the primary allocator. -/
def canAllocate (size alignment : ℕ) : Bool :=
  size ≤ A.map.kMaxSize && alignment ≤ A.map.kMaxSize

/-- The size, which is not zero. -/
def atLeastOne (size : ℕ) : ℕ := if size = 0 then 1 else size

/-- The size that the primary allocator is asked for. -/
def roundedSize (size alignment : ℕ) : ℕ :=
  if 8 < alignment then Word.roundUpTo A.w (atLeastOne size) alignment else atLeastOne size

/-- What is returned before it is checked. -/
def unchecked (size alignment : ℕ) : ℕ :=
  if A.canAllocate (A.roundedSize size alignment) alignment then
    A.cacheAllocate (A.map.classID (A.roundedSize size alignment))
  else A.secondaryAllocate (atLeastOne size) alignment

/-- `CombinedAllocator::Allocate`. -/
def allocate (size alignment : ℕ) : Except Fault Result :=
  if Word.add A.w (atLeastOne size) alignment < atLeastOne size then
    .ok (.overflow (atLeastOne size) alignment)
  else if 8 < alignment ∧ Word.isPowerOfTwo A.w alignment = false then .error .roundUpTo
  else if 8 < alignment ∧ A.unchecked size alignment &&& Word.sub A.w alignment 1 ≠ 0 then
    .error .alignment
  else .ok (.returned (A.unchecked size alignment))

/-- The cache hands out the chunks of regions that are aligned to `kMaxSize`. -/
def ServesAligned : Prop :=
  ∀ c, A.cacheAllocate c = 0 ∨
    ∃ region i, A.map.kMaxSize ∣ region ∧ A.cacheAllocate c = region + i * A.map.size c

variable {A} {size k : ℕ}

theorem two_pow_dvd_roundedSize (hk : k < A.w) (hsize : size < 2^A.w)
    (hsum : ¬ Word.add A.w (atLeastOne size) (2^k) < atLeastOne size) (h8 : 8 < 2^k) :
    2^k ∣ A.roundedSize size (2^k) ∧ 0 < A.roundedSize size (2^k) := by
  have hw := Nat.two_pow_pos A.w
  have hpow : 2^k < 2^A.w := Nat.pow_lt_pow_right (by norm_num) hk
  have hone : 0 < atLeastOne size := by
    unfold atLeastOne
    split_ifs <;> omega
  have hword : atLeastOne size < 2^A.w := by
    unfold atLeastOne
    split_ifs <;> omega
  have hlt : atLeastOne size + 2^k < 2^A.w := by
    by_contra hge
    refine hsum ?_
    rw [Word.add, Nat.mod_eq_sub_mod (not_lt.mp hge), Nat.mod_eq_of_lt (by omega)]
    omega
  rw [roundedSize, if_pos h8, Word.roundUpTo_of_lt hk (by omega)]
  refine ⟨Dvd.intro_left _ rfl, Nat.mul_pos (Nat.div_pos (by omega) (by omega)) (by omega)⟩

/-- The last `CHECK` of `Allocate` does not fail on a chunk of the primary allocator. -/
theorem allocate_primary (h32 : A.map.kMaxSizeLog < 32) (hA : A.ServesAligned) (hk : k < A.w) (hsize : size < 2^A.w)
    (hprimary : A.canAllocate (A.roundedSize size (2^k)) (2^k) = true) :
    A.allocate size (2^k) = .ok (.overflow (atLeastOne size) (2^k)) ∨
      A.allocate size (2^k) =
        .ok (.returned (A.cacheAllocate (A.map.classID (A.roundedSize size (2^k))))) := by
  unfold allocate
  by_cases hsum : Word.add A.w (atLeastOne size) (2^k) < atLeastOne size
  · exact Or.inl (if_pos hsum)
  have hpow : Word.isPowerOfTwo A.w (2^k) = true :=
    (Word.isPowerOfTwo_iff (Nat.pow_lt_pow_right (by norm_num) hk)).mpr (Or.inr ⟨k, hk, rfl⟩)
  have hchunk : A.unchecked size (2^k) =
      A.cacheAllocate (A.map.classID (A.roundedSize size (2^k))) := if_pos hprimary
  rw [if_neg hsum, hpow, if_neg (fun h => Bool.noConfusion h.2), hchunk]
  refine Or.inr (if_neg fun hcheck => hcheck.2 ?_)
  obtain ⟨hdvd, hpos⟩ := two_pow_dvd_roundedSize hk hsize hsum hcheck.1
  obtain ⟨hmax, halign⟩ : A.roundedSize size (2^k) ≤ A.map.kMaxSize ∧ 2^k ≤ A.map.kMaxSize := by
    simpa [canAllocate] using hprimary
  rw [Word.and_mask hk]
  refine Nat.mod_eq_zero_of_dvd ?_
  rcases hA (A.map.classID (A.roundedSize size (2^k))) with hnull | ⟨region, i, hregion, hres⟩
  · rw [hnull]
    exact dvd_zero _
  · rw [SizeClassMap.kMaxSize_eq] at halign hregion
    have hk' : k ≤ A.map.kMaxSizeLog := (Nat.pow_le_pow_iff_right (by norm_num)).mp halign
    rw [hres]
    exact dvd_add ((pow_dvd_pow 2 hk').trans hregion)
      (Dvd.dvd.mul_left (SizeClassMap.two_pow_dvd_size h32 hpos hmax hdvd) i)

end Combined

/-- The size classes: `ClassID` finds the least class that is large enough, it is the inverse of `Size` on
classes, `Size` is strictly increasing, and a power of two that divides a size divides the size of its class.
Therefore the last `CHECK` of `CombinedAllocator::Allocate` does not fail on a chunk of the primary allocator
when the regions are aligned to `kMaxSize`. -/
theorem sizeClassMap_spec (m : SizeClassMap) (h32 : m.kMaxSizeLog < 32) :
    (∀ s, 1 ≤ s → s ≤ m.kMaxSize → 1 ≤ m.classID s ∧ m.classID s ≤ m.kLargestClassID ∧
      s ≤ m.size (m.classID s) ∧ ∀ c, c ≤ m.kLargestClassID → s ≤ m.size c → m.classID s ≤ c) ∧
    (∀ c, 1 ≤ c → c ≤ m.kLargestClassID → m.classID (m.size c) = c) ∧
    StrictMonoOn m.size (Set.Iic m.kLargestClassID) ∧
    (∀ s k, 1 ≤ s → s ≤ m.kMaxSize → 2^k ≤ m.kMaxSize → 2^k ∣ s → 2^k ∣ m.size (m.classID s)) ∧
    ∀ A : Combined, A.map = m → A.ServesAligned → ∀ size k, size < 2^A.w → k < A.w →
      A.canAllocate (A.roundedSize size (2^k)) (2^k) = true →
      A.allocate size (2^k) = .ok (.overflow (Combined.atLeastOne size) (2^k)) ∨
        A.allocate size (2^k) =
          .ok (.returned (A.cacheAllocate (m.classID (A.roundedSize size (2^k))))) := by
  refine ⟨fun s hpos hmax => ?_, fun c hpos hc => SizeClassMap.classID_size h32 hpos hc,
    SizeClassMap.size_strictMonoOn, fun s k hpos hmax _ hdvd =>
      SizeClassMap.two_pow_dvd_size h32 hpos hmax hdvd, fun A hm hA size k hsize hk hprimary => ?_⟩
  · obtain ⟨hcpos, hle, hs, hbefore⟩ := SizeClassMap.classID_spec h32 hpos hmax
    exact ⟨hcpos, hle, hs, fun c hc => (SizeClassMap.le_size_iff hle hs hbefore hc).mp⟩
  · subst hm
    exact Combined.allocate_primary h32 hA hk hsize hprimary

/-- A cache that hands out the second chunk of a region at `2^40`. -/
def secondChunk : Combined where
  w := 64
  map := DefaultSizeClassMap
  cacheAllocate c := 2^40 + 1 * DefaultSizeClassMap.size c
  secondaryAllocate _ _ := 0

/-- The theorem for 100 bytes at a multiple of 64. -/
theorem sizeClassMap_spec_second :
    secondChunk.allocate 100 (2^6) = .ok (.overflow (Combined.atLeastOne 100) (2^6)) ∨
      secondChunk.allocate 100 (2^6) = .ok (.returned (secondChunk.cacheAllocate
        (DefaultSizeClassMap.classID (secondChunk.roundedSize 100 (2^6))))) :=
  (sizeClassMap_spec DefaultSizeClassMap (by decide)).2.2.2.2 secondChunk rfl
    (fun _ => Or.inr ⟨2^40, 1, by decide, rfl⟩) 100 6 (by decide) (by decide) (by decide)

end Tasan.Primary
