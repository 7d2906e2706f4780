import Tasan.Primary.Areas

/-!
# The chunk of a pointer

The areas of a region, the slots of the metadata and the `CHECK`s are right after any sequence of refills and
returns. The chunk that `GetBlockBegin` and `GetMetaData` find is right too, but for one assumption in
`GetChunkIdx`: where the offset in the region fits into 32 bits, it divides by the lower half of the size.
`right_iff` says that the sizes of more than 32 bits are all that goes wrong, as soon as one of their chunks
exists. The size classes themselves are made for such sizes: `MaxCachedHint` divides by 64 bits if the
template parameters ask for it.
-/

namespace Tasan.Primary

namespace Config

variable {C : Config} {c held n : ℕ} {regions : ℕ → RegionInfo}

/-! ## Runs -/

/-- The regions after any sequence of refills and returns, with the numbers of the chunks that are not in the
free arrays. A cache refills by `MaxCachedHint` chunks, which is in the bound on `n` (`maxCachedHint_le`). -/
inductive Reachable (C : Config) : (ℕ → RegionInfo) → (ℕ → ℕ) → Prop
  /-- Before the first refill. -/
  | init : Reachable C (fun _ => .init) (fun _ => 0)
  /-- `GetFromAllocator`, which may find no memory. -/
  | refill {regions : ℕ → RegionInfo} {held : ℕ → ℕ} {c n : ℕ} {sys : ℕ → ℕ → Bool}
      {chunks : Option (List ℕ)} {r : RegionInfo} (h : Reachable C regions held) (hc : C.ChunkClass c)
      (hn : n * C.classIdToSize c ≤ 2^63)
      (hstep : C.getFromAllocator sys (regions c) c n = .ok (chunks, r)) :
      Reachable C (Function.update regions c r)
        (Function.update held c (if chunks.isSome then held c + n else held c))
  /-- `ReturnToAllocator`. -/
  | giveBack {regions : ℕ → RegionInfo} {held : ℕ → ℕ} {c : ℕ} {sys : ℕ → ℕ → Bool} {chunks : List ℕ}
      {r : RegionInfo} (h : Reachable C regions held) (hc : C.ChunkClass c)
      (hheld : chunks.length ≤ held c)
      (hstep : C.returnToAllocator sys (regions c) c chunks = .ok r) :
      Reachable C (Function.update regions c r) (Function.update held c (held c - chunks.length))

theorem maxCachedHint_le (hc : C.ChunkClass c) (hlog : C.map.kMaxBytesCachedLog ≤ 63) :
    C.map.maxCachedHint (C.classIdToSize c) * C.classIdToSize c ≤ 2^63 := by
  obtain ⟨hpos, hle⟩ := hc.size_bounds
  have hregion := C.kRegionSize_bounds.2
  have hpow : 2^C.map.kMaxBytesCachedLog ≤ 2^63 := Nat.pow_le_pow_right (by norm_num) hlog
  rw [SizeClassMap.maxCachedHint, if_neg hpos.ne', Nat.one_shiftLeft,
    max_mul_of_nonneg _ _ (Nat.zero_le (C.classIdToSize c))]
  refine max_le (by omega) ?_
  calc min C.map.kMaxNumCachedHint (2^C.map.kMaxBytesCachedLog / C.classIdToSize c) * C.classIdToSize c
    _ ≤ 2^C.map.kMaxBytesCachedLog / C.classIdToSize c * C.classIdToSize c :=
        Nat.mul_le_mul_right _ (min_le_right _ _)
    _ ≤ 2^C.map.kMaxBytesCachedLog := Nat.div_mul_le_self _ _
    _ ≤ 2^63 := hpow

/-- The bookkeeping of every region is right in every reachable state. -/
theorem Reachable.ok {held : ℕ → ℕ} (h : C.Reachable regions held) :
    ∀ c, C.RegionOk c (held c) (regions c) := by
  induction h with
  | init => exact fun c => .init C c
  | @refill regions held c n sys chunks r h hc hn hstep ih =>
    have hr : C.RegionOk c (if chunks.isSome then held c + n else held c) r := by
      obtain ⟨chunks', r', heq, hok, -⟩ | ⟨herror, -⟩ := getFromAllocator_spec sys hc (ih c) hn
      · rw [heq] at hstep
        cases hstep
        exact hok
      · rw [herror] at hstep
        cases hstep
    intro d
    rcases eq_or_ne d c with rfl | hne
    · rwa [Function.update_self, Function.update_self]
    · rw [Function.update_of_ne hne, Function.update_of_ne hne]
      exact ih d
  | @giveBack regions held c sys chunks r h hc hheld hstep ih =>
    have hr : C.RegionOk c (held c - chunks.length) r := by
      obtain ⟨r', heq, hok, -⟩ | herror | ⟨herror, -⟩ :=
        returnToAllocator_spec sys hc (ih c) hheld
      · rw [heq] at hstep
        cases hstep
        exact hok
      · rw [herror] at hstep
        cases hstep
      · rw [herror] at hstep
        cases hstep
    intro d
    rcases eq_or_ne d c with rfl | hne
    · rwa [Function.update_self, Function.update_self]
    · rw [Function.update_of_ne hne, Function.update_of_ne hne]
      exact ih d

/-! ## What is right -/

/-- The number of chunks of a class that exist. -/
def chunkCount (C : Config) (regions : ℕ → RegionInfo) (c : ℕ) : ℕ :=
  (regions c).allocatedUser / C.classIdToSize c

/-- The beginning of a chunk. -/
def chunkBeg (C : Config) (c i : ℕ) : ℕ := C.regionBeg c + i * C.classIdToSize c

/-- The slot of the metadata of a chunk. -/
def metadataSlot (C : Config) (c i : ℕ) : ℕ := C.metadataEnd c - (1 + i) * C.kMetadataSize

/-- The areas of the region of a class: user memory, metadata and free array follow one another. -/
structure AreasRight (C : Config) (c : ℕ) (r : RegionInfo) : Prop where
  /-- The metadata lies behind the user memory. -/
  user_meta : C.regionBeg c + r.mappedUser + r.mappedMeta ≤ C.metadataEnd c
  /-- The free array lies behind the metadata, and ends in the region. -/
  freeArray_le : C.metadataEnd c + r.mappedFreeArray ≤ C.regionBeg c + C.kRegionSize

/-- The `CHECK`s of refills and returns of the chunks of a class. -/
structure ChecksRight (C : Config) (c held : ℕ) (r : RegionInfo) : Prop where
  /-- A refill does not die of the counters. -/
  refill : ∀ sys n, n * C.classIdToSize c ≤ 2^63 → ∀ f, C.getFromAllocator sys r c n = .error f →
    f = .freeArray
  /-- It does not die of the free array where the chunks are not small and the region is not either. -/
  refill_freeArray : ∀ sys n, n * C.classIdToSize c ≤ 2^63 → 32 ≤ C.classIdToSize c →
    2^24 ≤ C.kRegionSize → C.getFromAllocator sys r c n ≠ .error .freeArray
  /-- Neither does a return. -/
  giveBack_freeArray : ∀ sys chunks, chunks.length ≤ held → 32 ≤ C.classIdToSize c →
    2^24 ≤ C.kRegionSize → C.returnToAllocator sys r c chunks ≠ .error .freeArray

/-- The slots of the metadata of the chunks of a class. -/
structure SlotsRight (C : Config) (c count : ℕ) (r : RegionInfo) : Prop where
  /-- A slot is in the mapped metadata. -/
  mem : ∀ i < count, C.metadataEnd c - r.mappedMeta ≤ C.metadataSlot c i ∧
    C.metadataSlot c i + C.kMetadataSize ≤ C.metadataEnd c
  /-- Slots of different chunks do not overlap. -/
  disjoint : ∀ i j, i < j → j < count → C.metadataSlot c j + C.kMetadataSize ≤ C.metadataSlot c i

/-- The lookups of pointers into the chunks of a class. -/
structure LookupsRight (C : Config) (regions : ℕ → RegionInfo) (c : ℕ) : Prop where
  /-- `GetBlockBegin` finds the beginning of the chunk. -/
  block : ∀ i < C.chunkCount regions c, ∀ p, C.chunkBeg c i ≤ p → p < C.chunkBeg c i + C.classIdToSize c →
    C.getBlockBegin regions p = .ok (some (C.chunkBeg c i))
  /-- `GetMetaData` finds its slot. -/
  slot : C.kMetadataSize ≠ 0 → ∀ i < C.chunkCount regions c, ∀ p, C.chunkBeg c i ≤ p →
    p < C.chunkBeg c i + C.classIdToSize c → C.getMetaData p = .ok (some (C.metadataSlot c i))

/-- All of it, for every class. -/
structure Right (C : Config) (regions : ℕ → RegionInfo) (held : ℕ → ℕ) : Prop where
  /-- The areas. -/
  areas : ∀ c, C.ChunkClass c → C.AreasRight c (regions c)
  /-- The `CHECK`s. -/
  checks : ∀ c, C.ChunkClass c → C.ChecksRight c (held c) (regions c)
  /-- The metadata. -/
  slots : ∀ c, C.ChunkClass c → C.SlotsRight c (C.chunkCount regions c) (regions c)
  /-- The lookups. -/
  lookups : ∀ c, C.ChunkClass c → C.LookupsRight regions c

section Parts

variable (hc : C.ChunkClass c) {r : RegionInfo} (h : C.RegionOk c held r)
include h

theorem RegionOk.areas : C.AreasRight c r := by
  have hareas := h.areas_le
  have hfree := h.freeArray_le
  have hle : C.kFreeArraySize ≤ C.kRegionSize := Nat.div_le_self _ _
  constructor
  · unfold metadataEnd
    omega
  · unfold metadataEnd
    omega

include hc

theorem RegionOk.count_eq : r.allocatedUser / C.classIdToSize c = r.numFreedChunks + held := by
  rw [h.allocatedUser_eq, Nat.mul_div_cancel _ hc.size_bounds.1]

theorem RegionOk.checks : C.ChecksRight c held r where
  refill sys n hn f hf := by
    obtain ⟨chunks, r', heq, -⟩ | ⟨herror, -⟩ := getFromAllocator_spec sys hc h hn
    · rw [heq] at hf
      cases hf
    · rw [herror] at hf
      cases hf
      rfl
  refill_freeArray sys n hn hsize hregion herror := by
    obtain ⟨chunks, r', heq, -⟩ | ⟨-, hsmall⟩ := getFromAllocator_spec sys hc h hn
    · rw [heq] at herror
      cases herror
    · exact hsmall ⟨hsize, hregion⟩
  giveBack_freeArray sys chunks hheld hsize hregion herror := by
    obtain ⟨r', heq, -⟩ | heq | ⟨-, hsmall⟩ := returnToAllocator_spec sys hc h hheld
    · rw [heq] at herror
      cases herror
    · rw [heq] at herror
      cases herror
    · exact hsmall ⟨hsize, hregion⟩

theorem RegionOk.metadata_le {i : ℕ} (hi : i < r.allocatedUser / C.classIdToSize c) :
    (1 + i) * C.kMetadataSize ≤ r.mappedMeta := by
  rw [h.count_eq hc] at hi
  calc (1 + i) * C.kMetadataSize
    _ ≤ (r.numFreedChunks + held) * C.kMetadataSize := Nat.mul_le_mul_right _ (by omega)
    _ = r.allocatedMeta := h.allocatedMeta_eq.symm
    _ ≤ r.mappedMeta := h.meta_le

theorem RegionOk.slots : C.SlotsRight c (r.allocatedUser / C.classIdToSize c) r := by
  have hareas := h.areas.user_meta
  constructor
  · intro i hi
    unfold metadataSlot
    have := h.metadata_le hc hi
    have : C.kMetadataSize ≤ (1 + i) * C.kMetadataSize := Nat.le_mul_of_pos_left _ (by omega)
    omega
  · intro i j hij hj
    unfold metadataSlot
    have := h.metadata_le hc hj
    have : (1 + i) * C.kMetadataSize + C.kMetadataSize ≤ (1 + j) * C.kMetadataSize := by
      rw [← Nat.succ_mul]
      exact Nat.mul_le_mul_right _ (by omega)
    omega

end Parts

/-! ## The lookups -/

section Lookups

variable (hc : C.ChunkClass c) {o : ℕ} (ho : o < C.kRegionSize)
include hc ho

theorem getBlockBegin_eq : C.getBlockBegin regions (C.regionBeg c + o) =
    C.getChunkIdx (C.regionBeg c + o) (C.classIdToSize c) >>= fun chunkIdx =>
      if Word.add 64 (chunkIdx * C.classIdToSize c % 2^64) (C.classIdToSize c) ≤ (regions c).mappedUser then
        .ok (some (Word.add 64 (C.regionBeg c) (chunkIdx * C.classIdToSize c % 2^64)))
      else .ok none := by
  have hclass := C.kLargestClassID_lt.2
  have hle := hc.le
  unfold getBlockBegin
  dsimp only
  rw [getSizeClass_eq hc.le ho, getRegionBegin_eq hc.le ho, if_neg (by omega),
    if_neg hc.size_bounds.1.ne']
  rfl

theorem getMetaData_eq (hmeta : C.kMetadataSize ≠ 0) : C.getMetaData (C.regionBeg c + o) =
    C.getChunkIdx (C.regionBeg c + o) (C.classIdToSize c) >>= fun chunkIdx =>
      .ok (some (Word.sub 64 (C.metadataEnd c) ((1 + chunkIdx) * C.kMetadataSize % 2^64))) := by
  unfold getMetaData
  rw [require_of (decide_eq_true hmeta), ok_bind]
  dsimp only
  rw [getSizeClass_eq hc.le ho, getRegionBeginBySizeClass_eq hc.le, getMetadataEnd_eq hc.le,
    if_neg hc.size_bounds.1.ne']
  rfl

end Lookups

theorem exists_offset (hc : C.ChunkClass c) (h : C.RegionOk c held (regions c)) {i p : ℕ}
    (hi : i < C.chunkCount regions c) (hlow : C.chunkBeg c i ≤ p)
    (hup : p < C.chunkBeg c i + C.classIdToSize c) :
    ∃ o, p = C.regionBeg c + o ∧ o < C.kRegionSize ∧ o / C.classIdToSize c = i ∧
      (i + 1) * C.classIdToSize c ≤ (regions c).mappedUser := by
  have hsize := hc.size_bounds.1
  have hmapped : (i + 1) * C.classIdToSize c ≤ (regions c).mappedUser := by
    calc (i + 1) * C.classIdToSize c
      _ ≤ C.chunkCount regions c * C.classIdToSize c := Nat.mul_le_mul_right _ hi
      _ ≤ (regions c).allocatedUser := Nat.div_mul_le_self _ _
      _ ≤ (regions c).mappedUser := h.user_le
  have hareas := h.areas_le
  unfold chunkBeg at hlow hup
  rw [Nat.succ_mul] at hmapped
  refine ⟨p - C.regionBeg c, by omega, by omega, ?_, by rw [Nat.succ_mul]; exact hmapped⟩
  rw [Nat.div_eq_iff hsize, Nat.mul_comm]
  rw [Nat.mul_comm] at hlow hup
  omega

/-- The lookups are right where the size of a chunk fits into 32 bits. -/
theorem RegionOk.lookups (hc : C.ChunkClass c) (h : C.RegionOk c held (regions c))
    (hsize : C.classIdToSize c < 2^32) : C.LookupsRight regions c := by
  have hlt := C.areas_lt
  have hareas := h.areas_le
  have hregion := regionBeg_add_lt hc.le
  constructor
  · intro i hi p hlow hup
    obtain ⟨o, rfl, ho, hidx, hmapped⟩ := exists_offset hc h hi hlow hup
    have hbytes : i * C.classIdToSize c + C.classIdToSize c ≤ (regions c).mappedUser := by
      rwa [← Nat.succ_mul]
    rw [getBlockBegin_eq hc ho, getChunkIdx_eq hc.le ho hc.size_bounds.1 hsize, hidx, ok_bind,
      Nat.mod_eq_of_lt (by omega), Word.add_of_lt (by omega : i * C.classIdToSize c + _ < 2^64),
      if_pos hbytes, Word.add_of_lt (by omega), chunkBeg]
  · intro hmeta i hi p hlow hup
    obtain ⟨o, rfl, ho, hidx, -⟩ := exists_offset hc h hi hlow hup
    have hslot := h.metadata_le hc hi
    have hend : C.metadataEnd c < 2^64 := by
      unfold metadataEnd
      omega
    have hbytes : (1 + i) * C.kMetadataSize ≤ C.metadataEnd c := by
      have := h.areas.user_meta
      omega
    rw [getMetaData_eq hc ho hmeta, getChunkIdx_eq hc.le ho hc.size_bounds.1 hsize, hidx, ok_bind,
      Nat.mod_eq_of_lt (by omega), Word.sub_of_le hbytes hend, metadataSlot]

/-- They are wrong where it does not: at the offset that is the lower half of the size, in the first chunk,
`GetBlockBegin` divides by zero or goes for the second chunk. -/
theorem lookups_wide (hc : C.ChunkClass c) (h : C.RegionOk c held (regions c))
    (hexists : 0 < (regions c).allocatedUser) (hsize : 2^32 ≤ C.classIdToSize c) :
    ¬ C.LookupsRight regions c := by
  intro hright
  obtain ⟨hpos, hle⟩ := hc.size_bounds
  have hregion := regionBeg_add_lt hc.le
  have hcount : 0 < C.chunkCount regions c := by
    have hbytes := h.allocatedUser_eq
    rw [chunkCount, h.count_eq hc]
    refine Nat.pos_of_ne_zero fun hzero => ?_
    rw [hzero, Nat.zero_mul] at hbytes
    omega
  have hlower : C.classIdToSize c % 2^32 < C.classIdToSize c :=
    (Nat.mod_lt _ (by norm_num)).trans_le hsize
  have ho : C.classIdToSize c % 2^32 < C.kRegionSize := by omega
  have hblock := hright.block 0 hcount (C.regionBeg c + C.classIdToSize c % 2^32)
    (by unfold chunkBeg; omega) (by unfold chunkBeg; omega)
  rw [getBlockBegin_eq hc ho, getChunkIdx_wide hc.le ho rfl] at hblock
  by_cases hzero : C.classIdToSize c % 2^32 = 0
  · rw [if_pos hzero] at hblock
    cases hblock
  · have hregion' := C.kRegionSize_bounds.2
    rw [if_neg hzero, ok_bind, Nat.one_mul, Nat.mod_eq_of_lt (by omega)] at hblock
    split_ifs at hblock
    · simp only [Except.ok.injEq, Option.some.injEq, chunkBeg] at hblock
      rw [Word.add_of_lt (by omega)] at hblock
      omega
    · cases hblock

/-- The size of every class of which chunks exist fits into 32 bits. -/
def SizesFit (C : Config) (regions : ℕ → RegionInfo) : Prop :=
  ∀ c, C.ChunkClass c → 0 < (regions c).allocatedUser → C.classIdToSize c < 2^32

/-- In every reachable state the areas, the metadata, the `CHECK`s and the lookups are right if and only if
the size of every class of which chunks exist fits into 32 bits. -/
theorem right_iff (C : Config) {regions : ℕ → RegionInfo} {held : ℕ → ℕ} (h : C.Reachable regions held) :
    C.Right regions held ↔ C.SizesFit regions := by
  constructor
  · intro hright c hc hexists
    by_contra hsize
    exact lookups_wide hc (h.ok c) hexists (not_lt.mp hsize) (hright.lookups c hc)
  · intro hfit
    refine { areas := fun c _ => (h.ok c).areas, checks := fun c hc => (h.ok c).checks hc,
             slots := fun c hc => (h.ok c).slots hc, lookups := fun c hc => ?_ }
    rcases Nat.eq_zero_or_pos (regions c).allocatedUser with hzero | hexists
    · -- There are no chunks.
      have hnone : C.chunkCount regions c = 0 := by rw [chunkCount, hzero, Nat.zero_div]
      exact { block := fun i hi => absurd hi (by omega), slot := fun _ i hi => absurd hi (by omega) }
    · exact (h.ok c).lookups hc (hfit c hc hexists)

/-- An allocator with large regions and classes from 4 MiB to 16 GiB. -/
def special : Config where
  map :=
    { kNumBits := 2
      kMinSizeLog := 22
      kMidSizeLog := 22
      kMaxSizeLog := 34
      kMaxNumCachedHint := 128
      kMaxBytesCachedLog := 16
      sizeofUptr := 8 }
  kUsingConstantSpaceBeg := true
  spaceBeg := 0x500000000000
  premappedHeap := false
  kSpaceSizeLog := 40
  kMetadataSize := 0
  kRandomShuffleChunks := false

theorem exists_ok {α : Type} {f : α → ℕ} {k : ℕ} {x : Except Fault α}
    (h : x.toOption.map f = some k) : ∃ y, x = .ok y ∧ f y = k := by
  cases x with
  | error e => cases h
  | ok y => exact ⟨y, rfl, Option.some.inj h⟩

/-- The theorem after a refill by one chunk of 8 MiB. -/
theorem right_iff_special :
    ∃ regions held, special.chunkCount regions 3 = 1 ∧
      (special.Right regions held ↔ special.SizesFit regions) := by
  obtain ⟨⟨chunks, r⟩, hstep, huser⟩ := exists_ok (f := fun y => y.2.allocatedUser) (k := 2^23)
    (x := special.getFromAllocator (fun _ _ => true) .init 3 1) (by decide +kernel)
  refine ⟨Function.update (fun _ => .init) 3 r, _, ?_,
    right_iff special (.refill .init ⟨by decide, by decide⟩ (by decide) hstep)⟩
  rw [chunkCount, Function.update_self, huser]
  decide

/-- After a refill by one chunk of 12 GiB, `GetBlockBegin` of its beginning divides by zero. -/
theorem getBlockBegin_special :
    ∃ regions held, special.Reachable regions held ∧ special.chunkCount regions 24 = 1 ∧
      special.getBlockBegin regions (special.chunkBeg 24 0) = .error .division := by
  obtain ⟨⟨chunks, r⟩, hstep, huser⟩ := exists_ok (f := fun y => y.2.allocatedUser) (k := 3 * 2^32)
    (x := special.getFromAllocator (fun _ _ => true) .init 24 1) (by decide +kernel)
  refine ⟨Function.update (fun _ => .init) 24 r, _,
    .refill .init ⟨by decide, by decide⟩ (by decide) hstep, ?_, rfl⟩
  rw [chunkCount, Function.update_self, huser]
  decide

end Config

end Tasan.Primary
