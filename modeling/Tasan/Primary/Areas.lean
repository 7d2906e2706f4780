import Tasan.Allocator.Layout
import Tasan.Primary.Addresses

/-!
# The areas of a region

`RegionOk` is what a refill or a return keeps of a region: the chunks and their metadata lie in mapped
memory, the two mapped areas fit below the free array together, and the free array has room for the chunks
that are free. Since the chunks are at least 32 bytes, and the free array has an eighth of the region, there
is room for all chunks also after rounding up, if a region has `2^24` bytes (`freeArray_fits`).

Each part of `PopulateFreeArray` has a lemma that says what it may change. A part that fails leaves what has
been mapped before it in place, and `RegionOk` does not mind.
-/

namespace Tasan.Primary

open Allocator (ceil ceil_bounds)

theorem roundUpTo_eq_ceil {x a : ℕ} (ha : a < 60) (hx : x < 2^63 + 2^62) :
    Word.roundUpTo 64 x (2^a) = ceil x (2^a) := by
  have hpow : 2^a < 2^60 := Nat.pow_lt_pow_right (by norm_num) ha
  exact Word.roundUpTo_of_lt (by omega) (by omega)

namespace Config

variable {C : Config} {c held n : ℕ} {r : RegionInfo}

/-- The bookkeeping of the region of class `c`, of whose chunks `held` are not in the free array. -/
structure RegionOk (C : Config) (c held : ℕ) (r : RegionInfo) : Prop where
  /-- The chunks lie one after the other. -/
  allocatedUser_eq : r.allocatedUser = (r.numFreedChunks + held) * C.classIdToSize c
  /-- So do their metadata. -/
  allocatedMeta_eq : r.allocatedMeta = (r.numFreedChunks + held) * C.kMetadataSize
  /-- The chunks are mapped. -/
  user_le : r.allocatedUser ≤ r.mappedUser
  /-- The metadata is mapped. -/
  meta_le : r.allocatedMeta ≤ r.mappedMeta
  /-- Both areas fit below the free array. -/
  areas_le : r.mappedUser + r.mappedMeta ≤ C.kRegionSize - C.kFreeArraySize
  /-- The free array fits. -/
  freeArray_le : r.mappedFreeArray ≤ C.kFreeArraySize
  /-- The free chunks fit into what is mapped of the free array. -/
  freed_le : r.numFreedChunks * sizeofCompactPtr ≤ r.mappedFreeArray

/-- A class that chunks are allocated of. -/
structure ChunkClass (C : Config) (c : ℕ) : Prop where
  /-- Class 0 has no chunks. -/
  pos : 0 < c
  /-- The last class is that of transfer batches. -/
  le : c ≤ C.map.kLargestClassID

theorem ChunkClass.size_bounds (hc : C.ChunkClass c) :
    0 < C.classIdToSize c ∧ C.classIdToSize c ≤ C.kRegionSize :=
  ⟨SizeClassMap.size_pos hc.pos hc.le, (SizeClassMap.size_le hc.le).trans C.kMaxSize_le⟩

theorem RegionOk.init (C : Config) (c : ℕ) : C.RegionOk c 0 .init where
  allocatedUser_eq := (Nat.zero_mul _).symm
  allocatedMeta_eq := (Nat.zero_mul _).symm
  user_le := le_rfl
  meta_le := le_rfl
  areas_le := Nat.zero_le _
  freeArray_le := Nat.zero_le _
  freed_le := le_rfl

theorem areas_lt (C : Config) : C.kRegionSize - C.kFreeArraySize ≤ 2^36 := by
  have := C.kRegionSize_bounds
  omega

/-! ## The parts of `PopulateFreeArray` -/

/-- The user memory: it grows, within the area, and holds what was requested if that succeeds. -/
theorem mapUser_spec (sys : ℕ → ℕ → Bool) (h : C.RegionOk c held r) (regionBeg : ℕ)
    (hn : n * C.classIdToSize c ≤ 2^63) :
    ∃ b u s e, C.mapUser sys r regionBeg (C.classIdToSize c) n =
        (b, { r with mappedUser := u, randState := s, exhausted := e }) ∧
      r.mappedUser ≤ u ∧ u + r.mappedMeta ≤ C.kRegionSize - C.kFreeArraySize ∧
      (b = true → r.allocatedUser + n * C.classIdToSize c ≤ u) := by
  have hareas := h.areas_le
  have hlt := C.areas_lt
  have huser := h.user_le
  -- The random state may be seeded first.
  obtain ⟨s, hs⟩ : ∃ s, (if r.mappedUser = 0 ∧ C.kUsingConstantSpaceBeg = false ∧
      C.kRandomShuffleChunks = true then { r with randState := (regionBeg >>> 12) % 2^32 } else r) =
      { r with randState := s } := by
    split_ifs
    exacts [⟨_, rfl⟩, ⟨r.randState, rfl⟩]
  unfold mapUser
  dsimp only
  rw [hs, Nat.mod_eq_of_lt (by omega), Word.add_of_lt (by omega)]
  by_cases hneed : r.mappedUser < r.allocatedUser + n * C.classIdToSize c
  · obtain ⟨hlow, hup⟩ := ceil_bounds (m := r.allocatedUser + n * C.classIdToSize c - r.mappedUser)
      (show 0 < 2^18 by norm_num)
    rw [if_pos hneed, Word.sub_of_le hneed.le (by omega), kUserMapSize,
      roundUpTo_eq_ceil (by norm_num) (by omega)]
    generalize ceil (r.allocatedUser + n * C.classIdToSize c - r.mappedUser) (2^18) = u at hlow hup ⊢
    by_cases hfull : C.isRegionExhausted { r with randState := s } u = true
    · rw [if_pos hfull]
      exact ⟨false, r.mappedUser, s, true, rfl, le_rfl, hareas, fun h => Bool.noConfusion h⟩
    · rw [if_neg hfull]
      have hroom : r.mappedUser + r.mappedMeta + u ≤ C.kRegionSize - C.kFreeArraySize := by
        simp only [isRegionExhausted, decide_eq_true_eq, not_lt] at hfull
        rwa [Word.add_of_lt (by omega : r.mappedUser + r.mappedMeta < 2^64),
          Word.add_of_lt (by omega)] at hfull
      rw [Word.add_of_lt (by omega : r.mappedUser + u < 2^64)]
      split_ifs
      · exact ⟨true, r.mappedUser + u, s, r.exhausted, rfl, by omega, by omega, fun _ => by omega⟩
      · exact ⟨false, r.mappedUser, s, r.exhausted, rfl, le_rfl, hareas, fun h => Bool.noConfusion h⟩
  · rw [if_neg hneed]
    exact ⟨true, r.mappedUser, r.randState, r.exhausted, rfl, le_rfl, hareas, fun _ => not_lt.mp hneed⟩

/-- The metadata: it grows, within the area, and holds what was requested if that succeeds. -/
theorem mapMeta_spec (sys : ℕ → ℕ → Bool) (h : C.RegionOk c held r) (regionBeg : ℕ) (hn : n ≤ 2^36) :
    ∃ b u e, C.mapMeta sys r regionBeg n = (b, { r with mappedMeta := u, exhausted := e }) ∧
      r.mappedMeta ≤ u ∧ r.mappedUser + u ≤ C.kRegionSize - C.kFreeArraySize ∧
      (b = true → r.allocatedMeta + n * C.kMetadataSize ≤ u) := by
  have hareas := h.areas_le
  have hlt := C.areas_lt
  have hmeta := h.meta_le
  have hbytes : n * C.kMetadataSize ≤ 2^63 := by
    calc n * C.kMetadataSize ≤ 2^36 * 2^27 := Nat.mul_le_mul hn C.kMetadataSize_lt.le
      _ = 2^63 := by norm_num
  unfold mapMeta
  by_cases hzero : C.kMetadataSize = 0
  · rw [if_neg (not_not.mpr hzero), hzero, Nat.mul_zero, Nat.add_zero]
    exact ⟨true, r.mappedMeta, r.exhausted, rfl, le_rfl, hareas, fun _ => hmeta⟩
  rw [if_pos hzero]
  dsimp only
  rw [Nat.mod_eq_of_lt (by omega), Word.add_of_lt (by omega)]
  by_cases hneed : r.mappedMeta < r.allocatedMeta + n * C.kMetadataSize
  · obtain ⟨hlow, hup⟩ := ceil_bounds (m := r.allocatedMeta + n * C.kMetadataSize - r.mappedMeta)
      (show 0 < 2^16 by norm_num)
    rw [if_pos hneed, Word.sub_of_le hneed.le (by omega), kMetaMapSize,
      roundUpTo_eq_ceil (by norm_num) (by omega)]
    generalize ceil (r.allocatedMeta + n * C.kMetadataSize - r.mappedMeta) (2^16) = u at hlow hup ⊢
    rw [if_pos (by omega)]
    by_cases hfull : C.isRegionExhausted r u = true
    · rw [if_pos hfull]
      exact ⟨false, r.mappedMeta, true, rfl, le_rfl, hareas, fun h => Bool.noConfusion h⟩
    · rw [if_neg hfull]
      have hroom : r.mappedUser + r.mappedMeta + u ≤ C.kRegionSize - C.kFreeArraySize := by
        simp only [isRegionExhausted, decide_eq_true_eq, not_lt] at hfull
        rwa [Word.add_of_lt (by omega : r.mappedUser + r.mappedMeta < 2^64),
          Word.add_of_lt (by omega)] at hfull
      rw [Word.add_of_lt (by omega : r.mappedMeta + u < 2^64)]
      split_ifs
      · exact ⟨true, r.mappedMeta + u, r.exhausted, rfl, by omega, by omega, fun _ => by omega⟩
      · exact ⟨false, r.mappedMeta, r.exhausted, rfl, le_rfl, hareas, fun h => Bool.noConfusion h⟩
  · rw [if_neg hneed, if_neg (not_not.mpr rfl)]
    exact ⟨true, r.mappedMeta, r.exhausted, rfl, le_rfl, hareas, fun _ => not_lt.mp hneed⟩

/-- The free array has room for as many chunks as fit below it, if they have at least 32 bytes each and the
region is not too small. -/
theorem freeArray_fits (hsize : 32 ≤ C.classIdToSize c) (hregion : 2^24 ≤ C.kRegionSize)
    (hn : n * C.classIdToSize c ≤ C.kRegionSize - C.kFreeArraySize) :
    ceil (n * sizeofCompactPtr) (2^18) ≤ C.kFreeArraySize := by
  obtain ⟨-, hup⟩ := ceil_bounds (m := n * sizeofCompactPtr) (show 0 < 2^18 by norm_num)
  have hn' : n * 32 ≤ C.kRegionSize - C.kFreeArraySize := (Nat.mul_le_mul_left n hsize).trans hn
  have heighth : C.kFreeArraySize = C.kRegionSize / 8 := rfl
  unfold sizeofCompactPtr at hup ⊢
  omega

/-- The free array: it grows up to its size, and has room for the chunks if that succeeds. The `CHECK` fails
only where it has no room for all chunks. -/
theorem ensureFreeArraySpace_spec (sys : ℕ → ℕ → Bool) (hc : C.ChunkClass c) (h : C.RegionOk c held r) (regionBeg : ℕ)
    (hn : n * C.classIdToSize c ≤ C.kRegionSize - C.kFreeArraySize) :
    (∃ b u, C.ensureFreeArraySpace sys r regionBeg n = .ok (b, { r with mappedFreeArray := u }) ∧
      r.mappedFreeArray ≤ u ∧ u ≤ C.kFreeArraySize ∧ (b = true → n * sizeofCompactPtr ≤ u)) ∨
    C.ensureFreeArraySpace sys r regionBeg n = .error .freeArray ∧
      ¬ (32 ≤ C.classIdToSize c ∧ 2^24 ≤ C.kRegionSize) := by
  have hfree := h.freeArray_le
  have hlt := C.areas_lt
  have hcount : n ≤ 2^36 := by
    calc n ≤ n * C.classIdToSize c := Nat.le_mul_of_pos_right n hc.size_bounds.1
      _ ≤ 2^36 := hn.trans hlt
  have hwords : n * sizeofCompactPtr < 2^64 := by
    unfold sizeofCompactPtr
    omega
  unfold ensureFreeArraySpace
  dsimp only
  rw [Nat.mod_eq_of_lt hwords]
  by_cases hneed : r.mappedFreeArray < n * sizeofCompactPtr
  · rw [if_pos hneed, kFreeArrayMapSize, roundUpTo_eq_ceil (by norm_num) (by unfold sizeofCompactPtr; omega)]
    have hfits := fun h1 h2 => freeArray_fits (C := C) (c := c) (n := n) h1 h2 hn
    obtain ⟨hlow, -⟩ := ceil_bounds (m := n * sizeofCompactPtr) (show 0 < 2^18 by norm_num)
    generalize ceil (n * sizeofCompactPtr) (2^18) = u at hlow hfits ⊢
    by_cases hcheck : u ≤ C.kFreeArraySize
    · rw [require_of (decide_eq_true hcheck), ok_bind]
      refine Or.inl ?_
      split_ifs
      · exact ⟨true, u, rfl, by omega, hcheck, fun _ => hlow⟩
      · exact ⟨false, r.mappedFreeArray, rfl, le_rfl, hfree, fun h => Bool.noConfusion h⟩
    · rw [require_of_not (decide_eq_false hcheck)]
      exact Or.inr ⟨rfl, fun hbig => hcheck (hfits hbig.1 hbig.2)⟩
  · rw [if_neg hneed]
    exact Or.inl ⟨true, r.mappedFreeArray, rfl, le_rfl, hfree, fun _ => not_lt.mp hneed⟩

/-- The compact pointers of `n` chunks from the offset `beg` on. -/
def newChunks (beg size n : ℕ) : List ℕ :=
  (List.range n).map fun i => pointerToCompactPtr (beg + i * size)

theorem fillFreeArray_apply (freeArray : ℕ → ℕ) (total beg size : ℕ) {i : ℕ} (hi : i ≤ total) (k : ℕ) :
    fillFreeArray freeArray total beg size i k =
      if total - i ≤ k ∧ k < total then pointerToCompactPtr (beg + (total - 1 - k) * size)
      else freeArray k := by
  induction i with
  | zero => rw [fillFreeArray, if_neg (by omega)]
  | succ i ih =>
    rw [fillFreeArray]
    rcases eq_or_ne k (total - 1 - i) with rfl | hk
    · rw [Function.update_self, if_pos (by omega), show total - 1 - (total - 1 - i) = i by omega]
    · rw [Function.update_of_ne hk, ih (by omega)]
      exact if_congr (by omega) rfl rfl

theorem slots_fillFreeArray (freeArray : ℕ → ℕ) (num beg size n : ℕ) :
    slots (fillFreeArray freeArray (num + n) beg size n) (num + n) =
      slots freeArray num ++ (newChunks beg size n).reverse := by
  rw [slots_add]
  congr 1
  · refine slots_congr fun k hk => ?_
    rw [fillFreeArray_apply _ _ _ _ (by omega), if_neg (by omega)]
  · refine List.ext_getElem (by simp [slots, newChunks]) fun k hk _ => ?_
    have hk : k < n := by simpa [slots] using hk
    simp only [slots, newChunks, List.getElem_map, List.getElem_range, List.getElem_reverse,
      List.length_map, List.length_range]
    rw [fillFreeArray_apply _ _ _ _ (by omega), if_pos (by omega),
      show num + n - 1 - (num + k) = n - 1 - k by omega]

/-- The free list and the number of chunks are as before. -/
structure Unchanged (r r' : RegionInfo) : Prop where
  /-- As many chunks exist. -/
  allocatedUser_eq : r'.allocatedUser = r.allocatedUser
  /-- As many of them are free. -/
  numFreedChunks_eq : r'.numFreedChunks = r.numFreedChunks
  /-- They are the same ones. -/
  freeArray_eq : r'.freeArray = r.freeArray

/-- There are `k` more chunks, which are free but for those that have been taken. -/
structure Grown (C : Config) (c k : ℕ) (taken : List ℕ) (r r' : RegionInfo) : Prop where
  /-- The chunks lie behind the old ones. -/
  allocatedUser_eq : r'.allocatedUser = r.allocatedUser + k * C.classIdToSize c
  /-- The old and the new ones are free or taken. -/
  free : (taken ++ slots r'.freeArray r'.numFreedChunks).Perm
    (slots r.freeArray r.numFreedChunks ++ newChunks r.allocatedUser (C.classIdToSize c) k)

/-- The new chunks: both `CHECK`s pass where their memory is mapped. -/
theorem pushChunks_spec (h : C.RegionOk c held r)
    (huser : r.allocatedUser + n * C.classIdToSize c ≤ r.mappedUser)
    (hmeta : r.allocatedMeta + n * C.kMetadataSize ≤ r.mappedMeta)
    (hfree : (r.numFreedChunks + n) * sizeofCompactPtr ≤ r.mappedFreeArray) :
    ∃ r', C.pushChunks r (C.classIdToSize c) n = .ok r' ∧ C.RegionOk c held r' ∧
      r'.numFreedChunks = r.numFreedChunks + n ∧ C.Grown c n [] r r' := by
  have hareas := h.areas_le
  have hlt := C.areas_lt
  unfold pushChunks
  dsimp only
  rw [Nat.mod_eq_of_lt (by omega), Nat.mod_eq_of_lt (by omega), Word.add_of_lt (by omega),
    Word.add_of_lt (by omega), require_of (decide_eq_true huser), ok_bind,
    require_of (decide_eq_true hmeta), ok_bind]
  refine ⟨_, rfl, { allocatedUser_eq := ?_, allocatedMeta_eq := ?_, user_le := huser, meta_le := hmeta,
                    areas_le := hareas, freeArray_le := h.freeArray_le, freed_le := hfree }, rfl,
    { allocatedUser_eq := rfl, free := ?_ }⟩
  · change r.allocatedUser + n * C.classIdToSize c = (r.numFreedChunks + n + held) * C.classIdToSize c
    rw [h.allocatedUser_eq, ← Nat.add_mul]
    congr 1
    omega
  · change r.allocatedMeta + n * C.kMetadataSize = (r.numFreedChunks + n + held) * C.kMetadataSize
    rw [h.allocatedMeta_eq, ← Nat.add_mul]
    congr 1
    omega
  · have hfilled : (slots (fillFreeArray r.freeArray (r.numFreedChunks + n) r.allocatedUser
        (C.classIdToSize c) n) (r.numFreedChunks + n)).Perm
        (slots r.freeArray r.numFreedChunks ++ newChunks r.allocatedUser (C.classIdToSize c) n) := by
      rw [slots_fillFreeArray]
      exact (List.reverse_perm _).append_left _
    rw [List.nil_append]
    dsimp only
    split_ifs
    · exact (slots_randomShuffle_perm _ _ _ _).2.trans hfilled
    · exact hfilled

/-- `PopulateFreeArray`: the bookkeeping stays right whatever fails, there are as many new chunks as were
requested if nothing does, and the only `CHECK` that may fail is that of the free array, for small chunks or
in a small region. -/
theorem populateFreeArray_spec (sys : ℕ → ℕ → Bool) (hc : C.ChunkClass c) (h : C.RegionOk c held r)
    (hn : n * C.classIdToSize c ≤ 2^63) :
    (∃ b r', C.populateFreeArray sys r c n = .ok (b, r') ∧ C.RegionOk c held r' ∧
      (b = false → Unchanged r r') ∧
      (b = true → r.numFreedChunks + n ≤ r'.numFreedChunks ∧ ∃ k, C.Grown c k [] r r')) ∨
    C.populateFreeArray sys r c n = .error .freeArray ∧
      ¬ (32 ≤ C.classIdToSize c ∧ 2^24 ≤ C.kRegionSize) := by
  have hsize := hc.size_bounds.1
  have hlt := C.areas_lt
  obtain ⟨b₁, u₁, s₁, e₁, hmap₁, hgrow₁, hareas₁, hroom₁⟩ :=
    mapUser_spec sys h (C.getRegionBeginBySizeClass c) hn
  -- The region after each part.
  have hok₁ : C.RegionOk c held { r with mappedUser := u₁, randState := s₁, exhausted := e₁ } :=
    { h with user_le := h.user_le.trans hgrow₁, areas_le := hareas₁ }
  unfold populateFreeArray
  dsimp only
  rw [hmap₁]
  dsimp only
  by_cases hb₁ : b₁ = false
  · rw [if_pos hb₁]
    exact Or.inl ⟨false, _, rfl, hok₁, fun _ => ⟨rfl, rfl, rfl⟩, fun h => Bool.noConfusion h⟩
  rw [if_neg hb₁]
  have huser₁ : r.allocatedUser ≤ u₁ := hok₁.user_le
  rw [Word.sub_of_le huser₁ (by omega)]
  -- The chunks that fit into what is mapped.
  have hnew : (u₁ - r.allocatedUser) / C.classIdToSize c * C.classIdToSize c ≤ u₁ - r.allocatedUser :=
    Nat.div_mul_le_self _ _
  have hcount : n ≤ (u₁ - r.allocatedUser) / C.classIdToSize c := by
    have := hroom₁ (Bool.eq_true_of_not_eq_false hb₁)
    rw [Nat.le_div_iff_mul_le hsize]
    omega
  have hbound : (u₁ - r.allocatedUser) / C.classIdToSize c ≤ 2^36 :=
    (Nat.div_le_self _ _).trans (by omega)
  generalize (u₁ - r.allocatedUser) / C.classIdToSize c = k at hnew hcount hbound ⊢
  obtain ⟨b₂, u₂, e₂, hmap₂, hgrow₂, hareas₂, hroom₂⟩ :=
    mapMeta_spec sys hok₁ (C.getRegionBeginBySizeClass c) hbound
  have hok₂ : C.RegionOk c held
      { r with mappedUser := u₁, randState := s₁, mappedMeta := u₂, exhausted := e₂ } :=
    { hok₁ with meta_le := hok₁.meta_le.trans hgrow₂, areas_le := hareas₂ }
  rw [hmap₂]
  dsimp only
  by_cases hb₂ : b₂ = false
  · rw [if_pos hb₂]
    exact Or.inl ⟨false, _, rfl, hok₂, fun _ => ⟨rfl, rfl, rfl⟩, fun h => Bool.noConfusion h⟩
  rw [if_neg hb₂]
  have hall : (r.numFreedChunks + k) * C.classIdToSize c ≤ C.kRegionSize - C.kFreeArraySize := by
    have heq := h.allocatedUser_eq
    rw [Nat.add_mul] at heq ⊢
    omega
  obtain ⟨b₃, u₃, hmap₃, hgrow₃, hle₃, hroom₃⟩ | ⟨herror, hsmall⟩ :=
    ensureFreeArraySpace_spec sys hc hok₂ (C.getRegionBeginBySizeClass c) hall
  · have hok₃ : C.RegionOk c held { r with
        mappedUser := u₁, randState := s₁, mappedMeta := u₂, exhausted := e₂, mappedFreeArray := u₃ } :=
      { hok₂ with freeArray_le := hle₃, freed_le := hok₂.freed_le.trans hgrow₃ }
    rw [hmap₃, ok_bind]
    dsimp only
    by_cases hb₃ : b₃ = false
    · rw [if_pos hb₃]
      exact Or.inl ⟨false, _, rfl, hok₃, fun _ => ⟨rfl, rfl, rfl⟩, fun h => Bool.noConfusion h⟩
    rw [if_neg hb₃]
    obtain ⟨r', hpush, hok, hnum, hgrown⟩ := pushChunks_spec (n := k) hok₃
      (show r.allocatedUser + k * C.classIdToSize c ≤ u₁ by omega) (hroom₂ (Bool.eq_true_of_not_eq_false hb₂))
      (hroom₃ (Bool.eq_true_of_not_eq_false hb₃))
    rw [hpush, ok_bind]
    exact Or.inl ⟨true, r', rfl, hok, fun h => Bool.noConfusion h,
      fun _ => ⟨hnum ▸ Nat.add_le_add_left hcount _, k, hgrown.allocatedUser_eq, hgrown.free⟩⟩
  · rw [herror]
    exact Or.inr ⟨rfl, hsmall⟩

/-! ## Refills and returns -/

/-- `GetFromAllocator`: the chunks it returns are held afterwards, and it dies only for lack of room in the
free array of small chunks or of a small region. -/
theorem getFromAllocator_spec (sys : ℕ → ℕ → Bool) (hc : C.ChunkClass c) (h : C.RegionOk c held r)
    (hn : n * C.classIdToSize c ≤ 2^63) :
    (∃ chunks r', C.getFromAllocator sys r c n = .ok (chunks, r') ∧
      C.RegionOk c (if chunks.isSome then held + n else held) r' ∧ (chunks = none → Unchanged r r') ∧
      ∀ l, chunks = some l → l.length = n ∧ ∃ k, C.Grown c k l r r') ∨
    C.getFromAllocator sys r c n = .error .freeArray ∧
      ¬ (32 ≤ C.classIdToSize c ∧ 2^24 ≤ C.kRegionSize) := by
  -- Chunks are taken from a region that has enough of them.
  have htake : ∀ r', C.RegionOk c held r' → n ≤ r'.numFreedChunks →
      C.RegionOk c (held + n) { r' with
        numFreedChunks := r'.numFreedChunks - n, nAllocated := Word.add 64 r'.nAllocated n } := by
    intro r' h' hle
    have hsum : r'.numFreedChunks - n + (held + n) = r'.numFreedChunks + held := by omega
    exact { h' with
      allocatedUser_eq := hsum ▸ h'.allocatedUser_eq
      allocatedMeta_eq := hsum ▸ h'.allocatedMeta_eq
      freed_le := (Nat.mul_le_mul_right _ (Nat.sub_le _ _)).trans h'.freed_le }
  -- They are the last ones of the free array.
  have hlast : ∀ r' k, C.Grown c k [] r r' → n ≤ r'.numFreedChunks →
      (slots (fun i => r'.freeArray (r'.numFreedChunks - n + i)) n).length = n ∧
      ∃ k, C.Grown c k (slots (fun i => r'.freeArray (r'.numFreedChunks - n + i)) n) r { r' with
        numFreedChunks := r'.numFreedChunks - n, nAllocated := Word.add 64 r'.nAllocated n } := by
    intro r' k hgrown hle
    refine ⟨by simp [slots], k, hgrown.allocatedUser_eq, List.perm_append_comm.trans ?_⟩
    have hfree := hgrown.free
    rw [List.nil_append, show r'.numFreedChunks = r'.numFreedChunks - n + n by omega, slots_add] at hfree
    exact hfree
  have hself : C.Grown c 0 [] r r :=
    ⟨by rw [Nat.zero_mul, Nat.add_zero], by rw [newChunks, List.range_zero, List.map_nil,
      List.append_nil, List.nil_append]⟩
  unfold getFromAllocator
  by_cases hfew : r.numFreedChunks < n
  · have hn' : (n - r.numFreedChunks) * C.classIdToSize c ≤ 2^63 :=
      (Nat.mul_le_mul_right _ (Nat.sub_le _ _)).trans hn
    rw [if_pos hfew]
    obtain ⟨b, r', hpop, hok, hsame, henough⟩ | ⟨herror, hsmall⟩ :=
      populateFreeArray_spec sys hc h hn'
    · rw [hpop, ok_bind]
      dsimp only
      by_cases hb : b = false
      · rw [if_pos hb]
        exact Or.inl ⟨none, r', rfl, hok, fun _ => hsame hb, fun l h => by cases h⟩
      · obtain ⟨hnum, k, hgrown⟩ := henough (Bool.eq_true_of_not_eq_false hb)
        have hle : n ≤ r'.numFreedChunks := by omega
        rw [if_neg hb, require_of (decide_eq_true hle)]
        refine Or.inl ⟨_, _, rfl, htake r' hok hle, fun h => absurd h (Option.some_ne_none _), fun l h => ?_⟩
        cases h
        exact hlast r' k hgrown hle
    · rw [herror]
      exact Or.inr ⟨rfl, hsmall⟩
  · have hle : n ≤ r.numFreedChunks := not_lt.mp hfew
    have hpure : (pure (true, r) : Except Fault (Bool × RegionInfo)) = .ok (true, r) := rfl
    rw [if_neg hfew, hpure, ok_bind]
    dsimp only
    rw [if_neg (fun h => Bool.noConfusion h), require_of (decide_eq_true hle)]
    refine Or.inl ⟨_, _, rfl, htake r h hle, fun h => absurd h (Option.some_ne_none _), fun l h => ?_⟩
    cases h
    exact hlast r 0 hself hle

/-- `ReturnToAllocator` of chunks that are held: it dies only when the system has no memory for the free
array, or for lack of room in the free array of small chunks or of a small region. -/
theorem returnToAllocator_spec (sys : ℕ → ℕ → Bool) (hc : C.ChunkClass c) (h : C.RegionOk c held r) {chunks : List ℕ}
    (hheld : chunks.length ≤ held) :
    (∃ r', C.returnToAllocator sys r c chunks = .ok r' ∧ C.RegionOk c (held - chunks.length) r' ∧
      r'.allocatedUser = r.allocatedUser ∧
      slots r'.freeArray r'.numFreedChunks = slots r.freeArray r.numFreedChunks ++ chunks) ∨
    C.returnToAllocator sys r c chunks = .error .freeListExhausted ∨
    C.returnToAllocator sys r c chunks = .error .freeArray ∧
      ¬ (32 ≤ C.classIdToSize c ∧ 2^24 ≤ C.kRegionSize) := by
  have hsum : r.numFreedChunks + chunks.length + (held - chunks.length) = r.numFreedChunks + held := by
    omega
  have hall : (r.numFreedChunks + chunks.length) * C.classIdToSize c ≤
      C.kRegionSize - C.kFreeArraySize := by
    calc (r.numFreedChunks + chunks.length) * C.classIdToSize c
      _ ≤ (r.numFreedChunks + held) * C.classIdToSize c := Nat.mul_le_mul_right _ (by omega)
      _ = r.allocatedUser := h.allocatedUser_eq.symm
      _ ≤ r.mappedUser := h.user_le
      _ ≤ C.kRegionSize - C.kFreeArraySize := (Nat.le_add_right _ _).trans h.areas_le
  unfold returnToAllocator
  dsimp only
  obtain ⟨b, u, hmap, hgrow, hle, hroom⟩ | ⟨herror, hsmall⟩ :=
    ensureFreeArraySpace_spec sys hc h (C.getRegionBeginBySizeClass c) hall
  · rw [hmap, ok_bind]
    dsimp only
    by_cases hb : b = false
    · rw [hb]
      exact Or.inr (Or.inl rfl)
    · have hb : b = true := Bool.eq_true_of_not_eq_false hb
      rw [require_of hb, ok_bind]
      refine Or.inl ⟨_, rfl, ?_, rfl, ?_⟩
      · exact { h with
          allocatedUser_eq := hsum ▸ h.allocatedUser_eq
          allocatedMeta_eq := hsum ▸ h.allocatedMeta_eq
          freeArray_le := hle
          freed_le := hroom hb }
      · dsimp only
        rw [slots_copyBlock, slots_getD]
  · rw [herror]
    exact Or.inr (Or.inr ⟨rfl, hsmall⟩)

end Config

end Tasan.Primary
