import Tasan.Asan.Container
import Tasan.Allocator.Layout
import Tasan.Allocator.Heap

/-!
# The shadow tracks the heap

`Allocate` writes the shadow of a block in up to four pieces, `PreQuarantine` and `Recycle` in one, and
`Allocate` skips the redzones of a block that it finds poisoned. The first half of this module gives
the access map after each of these writes. The second half has the invariant `Inv`: the blocks are
apart, each has a chunk header in order, the access map of each block is what the header says, and the
primary allocator's memory is poisoned where no block is. Each operation on the heap inserts a block,
removes one, or moves a chunk's state, and `heap_shadow_sound` follows by induction over the steps.

`Deallocate` takes any byte 2 in the right place for the state of an allocated chunk, and
`heap_shadow_unsound_free` is a run in which this byte belongs to another field of a header.
-/

namespace Tasan.Allocator

open Asan (check poisonShadow kAsanHeapLeftRedzoneMagic kAsanHeapFreeMagic)

/-! ## Chunk headers -/

theorem chunkUsedSize_congr {mem mem' : Mem} {m : ℕ}
    (h : ∀ x, m + 2 ≤ x → x < m + 8 → mem x = mem' x) :
    chunkUsedSize mem m = chunkUsedSize mem' m := by
  unfold chunkUsedSize
  rw [Mem.readLE_congr 2 fun x h1 h2 => h x (by omega) (by omega),
    Mem.readLE_congr 4 fun x h1 h2 => h x (by omega) (by omega)]

theorem chunkUsedSize_lt (mem : Mem) (m : ℕ) : chunkUsedSize mem m < 2^48 := by
  have h1 := mem.readLE_lt (m + 2) 2
  have h2 := mem.readLE_lt (m + 4) 4
  unfold chunkUsedSize
  rw [Nat.shiftLeft_eq]
  omega

theorem chunkUsedSize_setUsedSize (mem : Mem) (m : ℕ) {size : ℕ} (h : size < 2^48) :
    chunkUsedSize (setUsedSize mem m size) m = size := by
  have hhi : (setUsedSize mem m size).readLE (m + 2) 2 = size / 2^32 := by
    rw [setUsedSize, Nat.shiftRight_eq_div_pow, Mem.readLE_writeLE]
    exact Nat.mod_eq_of_lt (by omega)
  have hlo : (setUsedSize mem m size).readLE (m + 4) 4 = size % 2^32 := by
    rw [setUsedSize, Mem.readLE_congr 4 fun x h1 h2 => Mem.writeLE_of_not_mem _ _ (by omega),
      Mem.readLE_writeLE]
    norm_num
  unfold chunkUsedSize
  rw [hhi, hlo, Nat.shiftLeft_eq]
  omega

theorem setUsedSize_of_not_mem (mem : Mem) {m size x : ℕ} (h : ¬ (m + 2 ≤ x ∧ x < m + 8)) :
    setUsedSize mem m size x = mem x := by
  rw [setUsedSize, Mem.writeLE_of_not_mem _ _ (by omega), Mem.writeLE_of_not_mem _ _ (by omega)]

theorem fillChunk_of_not_mem (H : HeapConfig) (mem : Mem) {m x : ℕ}
    (h : ¬ (beg m ≤ x ∧ x < beg m + chunkUsedSize mem m)) : fillChunk H mem m x = mem x := by
  unfold fillChunk
  split_ifs with hc
  · refine Mem.fill_of_not_mem _ _ ?_
    unfold beg kChunkHeaderSize at *
    unfold kChunkHeader2Size at *
    omega
  · rfl

theorem copy_of_not_mem (mem : Mem) {dst src n x : ℕ} (h : ¬ (dst ≤ x ∧ x < dst + n)) :
    copy mem dst src n x = mem x := if_neg h

theorem initHeader_of_not_mem (mem : Mem) (a : AllocArgs) (r : Request) {m x : ℕ}
    (h : ¬ (m < x ∧ x < m + 16)) : initHeader mem m a r x = mem x := by
  unfold initHeader setAllocContext atomicContextStore setFlags
  rw [Mem.writeLE_of_not_mem _ _ (by omega), Mem.set_of_ne _ _ (by omega),
    setUsedSize_of_not_mem _ (by omega)]

theorem chunkUsedSize_initHeader (mem : Mem) (a : AllocArgs) {r : Request} (m : ℕ)
    (h : r.size < 2^48) : chunkUsedSize (initHeader mem m a r) m = r.size := by
  rw [← chunkUsedSize_setUsedSize mem m h]
  apply chunkUsedSize_congr
  intro x h1 h2
  unfold initHeader setAllocContext atomicContextStore setFlags
  rw [Mem.writeLE_of_not_mem _ _ (by omega), Mem.set_of_ne _ _ (by omega)]

theorem mallocFill_of_not_mem (H : HeapConfig) (mem : Mem) (canFill : Bool) {userBeg size x : ℕ}
    (h : ¬ (userBeg ≤ x ∧ x < userBeg + size)) : mallocFill H mem canFill userBeg size x = mem x := by
  unfold mallocFill
  split_ifs
  · exact Mem.fill_of_not_mem _ _ (by omega)
  · rfl

theorem setLargeChunkHeader_of_not_mem (mem : Mem) {allocBeg m x : ℕ}
    (h : ¬ (allocBeg ≤ x ∧ x < allocBeg + 16)) : setLargeChunkHeader mem allocBeg m x = mem x := by
  unfold setLargeChunkHeader
  rw [Mem.writeLE_of_not_mem _ _ (by omega), Mem.writeLE_of_not_mem _ _ (by omega)]

section InitChunk

variable (H : HeapConfig) (mem : Mem) (a : AllocArgs) {r : Request} {allocBeg : ℕ} {l : Layout}
  (huser : l.chunkBeg + 16 = l.userBeg)
  (hlarge : allocBeg = l.chunkBeg ∨ allocBeg + 16 ≤ l.chunkBeg)

include huser hlarge

theorem initChunk_of_not_mem {x : ℕ} (h : ¬ (allocBeg ≤ x ∧ x < l.userBeg + r.size)) :
    initChunk H mem a r allocBeg l x = mem x := by
  have hfill : (mallocFill H (initHeader mem l.chunkBeg a r) a.canFill l.userBeg r.size).set
      l.chunkBeg CHUNK_ALLOCATED x = mem x := by
    rw [Mem.set_of_ne _ _ (by omega), mallocFill_of_not_mem _ _ _ (by omega),
      initHeader_of_not_mem _ _ _ (by omega)]
  unfold initChunk
  split_ifs with hne
  · rw [setLargeChunkHeader_of_not_mem _ (by omega), hfill]
  · exact hfill

theorem initChunk_header {x : ℕ} (h1 : l.chunkBeg ≤ x) (h2 : x < l.userBeg) :
    initChunk H mem a r allocBeg l x =
      (initHeader mem l.chunkBeg a r).set l.chunkBeg CHUNK_ALLOCATED x := by
  have hfill : (mallocFill H (initHeader mem l.chunkBeg a r) a.canFill l.userBeg r.size).set
      l.chunkBeg CHUNK_ALLOCATED x =
        (initHeader mem l.chunkBeg a r).set l.chunkBeg CHUNK_ALLOCATED x := by
    unfold Mem.set
    rw [mallocFill_of_not_mem _ _ _ (by omega)]
  unfold initChunk
  split_ifs with hne
  · rw [setLargeChunkHeader_of_not_mem _ (by omega), hfill]
  · exact hfill

theorem initChunk_state : initChunk H mem a r allocBeg l l.chunkBeg = CHUNK_ALLOCATED := by
  rw [initChunk_header H mem a huser hlarge le_rfl (by omega), Mem.set_self]

theorem chunkUsedSize_initChunk (h : r.size < 2^48) :
    chunkUsedSize (initChunk H mem a r allocBeg l) l.chunkBeg = r.size := by
  rw [← chunkUsedSize_initHeader mem a l.chunkBeg h]
  apply chunkUsedSize_congr
  intro x h1 h2
  rw [initChunk_header H mem a huser hlarge (by omega) (by omega), Mem.set_of_ne _ _ (by omega)]

end InitChunk

/-! ## The layout of a block -/

theorem bind_eq_ok {α β : Type} {x : Except Check α} {f : α → Except Check β} {b : β}
    (h : x >>= f = .ok b) : ∃ a, x = .ok a ∧ f a = .ok b := by
  cases x with
  | error e => exact absurd h (by simp [bind, Except.bind])
  | ok a => exact ⟨a, rfl, h⟩

theorem eq_true_of_require {c : Check} {b : Bool} {u : Unit} (h : require c b = .ok u) : b = true := by
  unfold require at h
  split_ifs at h with hb
  exact hb

theorem exists_two_pow {w x : ℕ} (hw : 3 < w) (h : x < 2^w)
    (hpow : Word.isPowerOfTwo w (if x < minAlignment then minAlignment else x) = true) :
    ∃ k, 3 ≤ k ∧ k < w ∧ (if x < minAlignment then minAlignment else x) = 2^k := by
  unfold minAlignment at *
  split_ifs at hpow ⊢ with hx
  · exact ⟨3, le_rfl, hw, rfl⟩
  · obtain ⟨k, hk, rfl⟩ := ((Word.isPowerOfTwo_iff h).mp hpow).resolve_left (by omega)
    refine ⟨k, ?_, hk, rfl⟩
    exact (Nat.pow_le_pow_iff_right (a := 2) (by norm_num)).mp (by simpa using hx)

/-- What a request that passes its checks has computed. -/
theorem Config.request_spec (c : Config) {size alignment : ℕ} {r : Request}
    (ha : alignment < 2^c.w) (h : c.request size alignment = .ok r) :
    r.size = max size 1 ∧ (∃ k, 3 ≤ k ∧ k < c.w ∧ r.alignment = 2^k) ∧ 16 ≤ r.rzSize ∧ r.rzSize ≤ 2048 ∧
      (r.fromPrimary = true → c.canAllocate r.neededSize 8 = true) := by
  have hw : 3 < c.w := by
    rcases c.w_cases with h | h <;> omega
  unfold Config.request at h
  obtain ⟨log, -, h⟩ := bind_eq_ok h
  obtain ⟨u, hpow, h⟩ := bind_eq_ok h
  obtain ⟨rzLog, -, h⟩ := bind_eq_ok h
  obtain ⟨rzSize, hrz, h⟩ := bind_eq_ok h
  obtain ⟨u', -, h⟩ := bind_eq_ok h
  obtain ⟨k, h3, hk, hal⟩ := exists_two_pow hw ha (eq_true_of_require hpow)
  obtain ⟨u'', hlog, hsize⟩ := bind_eq_ok hrz
  have hlog8 : rzLog < 8 := of_decide_eq_true (eq_true_of_require hlog)
  have hrzSize : 16 * 2^rzLog = rzSize := by
    rw [← Nat.shiftLeft_eq]
    exact Except.ok.inj hsize
  have hrz16 : 16 ≤ rzSize ∧ rzSize ≤ 2048 := by
    have h1 := Nat.one_le_two_pow (n := rzLog)
    have h2 : 2^rzLog ≤ 2^7 := Nat.pow_le_pow_right (by norm_num) (by omega)
    omega
  obtain rfl := Except.ok.inj h
  refine ⟨?_, ⟨k, h3, hk, hal⟩, hrz16.1, hrz16.2, fun hprim => ?_⟩
  · dsimp only
    split_ifs <;> omega
  · -- The alignment is at least 8.
    have h8 : 8 ≤ 2^k := Nat.pow_le_pow_right (n := 2) (i := 3) (by norm_num) h3
    dsimp only at hprim ⊢
    rw [if_pos hprim]
    rw [hal] at hprim ⊢
    unfold Config.canAllocate at *
    rw [Bool.and_eq_true, decide_eq_true_eq, decide_eq_true_eq] at *
    omega

/-- A layout that passes its checks is right, in a block below `2^62`. -/
theorem Config.layout_spec (c : Config) (hc : c.wordsize = .w64) {r : Request} {allocBeg k : ℕ}
    {l : Layout} (hk : k < 64) (hal : r.alignment = 2^k) (hrz : 16 ≤ r.rzSize)
    (hrz' : r.rzSize ≤ 2048) (h8 : 8 ∣ allocBeg) (hend : allocBeg + r.neededSize ≤ 2^62)
    (h : c.layout r allocBeg = .ok l) : LayoutOk c r allocBeg l ∧ r.size < 2^48 := by
  have hw : c.w = 64 := by rw [Config.w, hc]; rfl
  have hpow : 2^k ≤ 2^63 := Nat.pow_le_pow_right (by norm_num) (by omega)
  have huser := userBeg_eq hk (x := allocBeg + r.rzSize) (Or.inl (by omega))
  have hceil := ceil_bounds (m := allocBeg + r.rzSize) (a := 2^k) (by positivity)
  have hdvd := dvd_ceil (allocBeg + r.rzSize) (2^k)
  unfold Config.layout at h
  rw [hw, hal, hc, Word.add_of_lt (show allocBeg + r.neededSize < 2^64 by omega),
    Word.add_of_lt (show allocBeg + r.rzSize < 2^64 by omega)] at h
  dsimp only at h
  rw [huser] at h
  generalize ceil (allocBeg + r.rzSize) (2^k) = U at h hceil hdvd
  obtain ⟨u1, hinside, h⟩ := bind_eq_ok h
  obtain ⟨u2, -, h⟩ := bind_eq_ok h
  obtain ⟨u3, hsize, h⟩ := bind_eq_ok h
  obtain ⟨u4, hlarge, h⟩ := bind_eq_ok h
  have hsize := eq_of_beq (eq_true_of_require hsize)
  have hsize48 : r.size < 2^48 := by
    simp only [usedSize, Wordsize.first32Second64] at hsize
    omega
  have hin := of_decide_eq_true (eq_true_of_require hinside)
  rw [Word.add_of_lt (show U + r.size < 2^64 by omega)] at hin
  have hchunk : Word.sub 64 U kChunkHeaderSize = U - 16 :=
    Word.sub_of_le (by unfold kChunkHeaderSize; omega) (by omega)
  have hlarge := eq_true_of_require hlarge
  rw [hchunk, Bool.or_eq_true, beq_iff_eq, decide_eq_true_eq] at hlarge
  obtain rfl := Except.ok.inj h
  refine ⟨⟨hal ▸ hdvd, hceil.1, ?_, hin, ⟨?_, ?_⟩, ?_⟩, hsize48⟩
  · dsimp only
    omega
  · dsimp only
    rw [hchunk]
    omega
  · dsimp only
    rw [hchunk]
    unfold kChunkHeaderSize
    omega
  · dsimp only
    rw [hchunk, hc]
    intro hne
    have h16 : sizeofLargeChunkHeader .w64 = 16 := rfl
    rw [h16] at hlarge ⊢
    rw [Word.add_of_lt (by omega)] at hlarge
    exact hlarge.resolve_left (Ne.symm hne)

/-! ## The access map after each write to the shadow -/

section AccessMap

variable {H : HeapConfig} (hs : H.Settings)

include hs

theorem granularity_eight : H.asan.mapping.granularity = 8 :=
  H.asan.mapping.granularity_eq_eight hs.scale

/-- `PoisonShadow` of an aligned range that returns has set the granules of the range. -/
theorem acc_poisonShadow {σ σ' : Mem} {a n : ℕ} {v : Byte} (ha : 8 ∣ a) (hn : 8 ∣ n) (hpos : 0 < a)
    (hlt : a + n < 2^64) (h : poisonShadow H.asan σ a n v = some σ') (q : ℕ) :
    H.asan.mapping.acc σ' q =
      if a ≤ 8 * q ∧ 8 * q < a + n then Asan.prefixLen 8 v else H.asan.mapping.acc σ q := by
  have h8 := granularity_eight hs
  obtain ⟨p, rfl⟩ := ha
  obtain ⟨k, rfl⟩ := hn
  have hlast : Word.sub 64 (Word.add 64 (8 * p) (8 * k)) 8 = 8 * (p + k - 1) := by
    rw [Word.add_of_lt hlt, Word.sub_of_le (by omega) hlt]
    omega
  -- Both ends have passed their checks.
  have hmem : H.asan.mapping.addrIsInMem (8 * p) = true ∧
      H.asan.mapping.addrIsInMem (8 * (p + k - 1)) = true := by
    rw [← hlast]
    by_contra hnot
    have hor := not_and_or.mp hnot
    rw [Bool.not_eq_true, Bool.not_eq_true, ← h8] at hor
    rw [Asan.poisonShadow_eq_none H.asan hs.canPoisonMemory σ v (by rw [h8] at hor ⊢; exact hor)] at h
    exact absurd h (by simp)
  have hfill := Asan.poisonShadow_eq_some H.asan hs.canPoisonMemory σ p k v (by omega)
    (by rw [h8]; exact hmem.1) (by rw [h8]; exact hmem.2)
  rw [h8, h] at hfill
  rw [Option.some.inj hfill, H.asan.mapping.acc_fill, h8]
  exact if_congr (by omega) rfl rfl

/-- The redzones of a block after `Allocate` has poisoned them, or found them poisoned. -/
theorem acc_poisonRedzones {σ σ' : Mem} {r : Request} {allocBeg size userBeg : ℕ}
    (hal : 8 ∣ allocBeg ∧ 8 ∣ size ∧ 8 ∣ userBeg) (hpos : 0 < allocBeg) (hbeg : allocBeg ≤ userBeg)
    (hend : userBeg + r.size ≤ allocBeg + size) (hlt : allocBeg + size ≤ 2^62)
    (hfree : r.fromPrimary = true → ∀ q, allocBeg ≤ 8 * q → 8 * q < allocBeg + size →
      H.asan.mapping.acc σ q = 0)
    (h : poisonRedzones H σ r allocBeg size userBeg = some σ') (q : ℕ) :
    H.asan.mapping.acc σ' q =
      if allocBeg ≤ 8 * q ∧ 8 * q < allocBeg + size ∧ (8 * q < userBeg ∨ userBeg + r.size ≤ 8 * q)
      then 0 else H.asan.mapping.acc σ q := by
  have h8 := granularity_eight hs
  have hneg : Asan.prefixLen 8 kAsanHeapLeftRedzoneMagic = 0 := by decide
  unfold poisonRedzones at h
  split_ifs at h with hc
  · dsimp only at h
    rw [h8, Word.add_of_lt (show userBeg + r.size < 2^64 by omega),
      Word.add_of_lt (show allocBeg + size < 2^64 by omega), Asan.roundUpTo_eight (by omega),
      Word.sub_of_le hbeg (by omega), Word.sub_of_le (by omega) (by omega)] at h
    obtain ⟨σ₁, hleft, hright⟩ := Option.bind_eq_some_iff.mp h
    rw [acc_poisonShadow hs (by omega) (by omega) (by omega) (by omega) hright,
      acc_poisonShadow hs (by omega) (by omega) (by omega) (by omega) hleft, hneg]
    split_ifs <;> first | rfl | omega
  · -- The block comes from the primary allocator, which has poisoned it.
    obtain rfl := Option.some.inj h
    split_ifs with hq
    · refine hfree ?_ q hq.1 hq.2.1
      simp only [Bool.or_eq_true, not_or, Bool.not_eq_true, Bool.not_eq_false'] at hc
      exact hc.1
    · rfl

/-- The user's memory after `Allocate` has unpoisoned it. -/
theorem acc_unpoisonUser {σ σ' : Mem} {size userBeg : ℕ} (hal : 8 ∣ userBeg) (hpos : 0 < userBeg)
    (hlt : userBeg + size ≤ 2^62) (h : unpoisonUser H σ size userBeg = some σ') (q : ℕ) :
    H.asan.mapping.acc σ' q =
      if userBeg ≤ 8 * q ∧ 8 * q < userBeg + size then min 8 (userBeg + size - 8 * q)
      else H.asan.mapping.acc σ q := by
  have h8 := granularity_eight hs
  unfold unpoisonUser at h
  rw [h8, Asan.roundDownTo_eight (by omega)] at h
  obtain ⟨σ₁, hbulk, h⟩ := Option.bind_eq_some_iff.mp h
  unfold unpoisonBulk at hbulk
  unfold unpoisonEnd at h
  rw [hs.poisonPartial, if_pos rfl, h8] at h
  have hacc : H.asan.mapping.acc σ₁ q =
      if userBeg ≤ 8 * q ∧ 8 * q < userBeg + size / 8 * 8 then 8 else H.asan.mapping.acc σ q := by
    split_ifs at hbulk with hdown
    · rw [acc_poisonShadow hs hal (by omega) hpos (by omega) hbulk, Asan.prefixLen_zero]
    · obtain rfl := Option.some.inj hbulk
      rw [if_neg (by omega)]
  split_ifs at h with hpart
  · -- The last granule holds the rest of the size.
    obtain ⟨u, rfl⟩ := hal
    rw [Word.add_of_lt (by omega), show 8 * u + size / 8 * 8 = 8 * (u + size / 8) by omega] at h
    obtain ⟨shadow, hshadow, h⟩ := Option.bind_eq_some_iff.mp h
    have hmem : H.asan.mapping.addrIsInMem (8 * (u + size / 8)) = true := by
      by_contra hnot
      rw [H.asan.mapping.memToShadow_eq_none (by simpa using hnot)] at hshadow
      exact absurd hshadow (by simp)
    rw [Nat.mul_comm 8, Asan.memToShadow_eight h8 hmem] at hshadow
    obtain rfl := Option.some.inj hshadow
    obtain rfl := Option.some.inj h
    rw [show size &&& (8 - 1) = size % 8 from Nat.and_two_pow_sub_one_eq_mod size 3,
      Asan.acc_set_eight h8 _ _ _ (by omega) (by omega), hacc]
    split_ifs <;> omega
  · obtain rfl := Option.some.inj h
    have hmod : size % 8 = 0 := by
      have := hs.canPoisonMemory
      by_contra hne
      exact hpart ⟨by omega, this⟩
    rw [hacc]
    split_ifs <;> omega

theorem acc_onMapSecondary {σ σ' : Mem} {p size userBegin userSize : ℕ}
    (hal : 8 ∣ p ∧ 8 ∣ size ∧ 8 ∣ userBegin) (hpos : 0 < p) (hbeg : p ≤ userBegin)
    (hend : userBegin + userSize ≤ p + size) (hlt : p + size ≤ 2^62)
    (h : onMapSecondary H σ p size userBegin userSize = some σ') {q : ℕ}
    (hq : ¬ (p ≤ 8 * q ∧ 8 * q < p + size)) :
    H.asan.mapping.acc σ' q = H.asan.mapping.acc σ q := by
  have h8 := granularity_eight hs
  unfold onMapSecondary at h
  dsimp only at h
  rw [h8, Word.add_of_lt (show userBegin + userSize < 2^64 by omega),
    Asan.roundDownTo_eight (by omega), Asan.roundUpTo_eight (by omega),
    Word.sub_of_le (a := (userBegin + 7) / 8 * 8) (by omega) (by omega),
    Word.sub_of_le (a := (userBegin + userSize) / 8 * 8) (by omega) (by omega),
    Word.sub_of_le (by omega) (by omega)] at h
  obtain ⟨σ₁, hleft, hright⟩ := Option.bind_eq_some_iff.mp h
  rw [acc_poisonShadow hs (by omega) (by omega) (by omega) (by omega) hright, if_neg (by omega),
    acc_poisonShadow hs (by omega) (by omega) (by omega) (by omega) hleft, if_neg (by omega)]

theorem acc_poisonChunk {σ σ' mem : Mem} {m : ℕ} {v : Byte} (hv : Asan.prefixLen 8 v = 0)
    (hal : 8 ∣ m) (hlt : m ≤ 2^62) (h : poisonChunk H σ mem m v = some σ') (q : ℕ) :
    H.asan.mapping.acc σ' q =
      if beg m ≤ 8 * q ∧ 8 * q < beg m + chunkUsedSize mem m then 0
      else H.asan.mapping.acc σ q := by
  have h8 := granularity_eight hs
  have hused := chunkUsedSize_lt mem m
  unfold poisonChunk at h
  rw [h8, Asan.roundUpTo_eight (by omega)] at h
  unfold beg kChunkHeaderSize at *
  rw [acc_poisonShadow hs (by omega) (by omega) (by omega) (by omega) h, hv]
  exact if_congr (by omega) rfl rfl

end AccessMap

/-! ## The invariant -/

/-- A block has its place in memory, and its chunk in the block. -/
structure Placed (H : HeapConfig) (b : Block) : Prop where
  /-- A mapping does not start at zero. -/
  pos : 0 < b.mapBeg
  /-- The mapping is aligned. -/
  map_aligned : 8 ∣ b.mapBeg ∧ 8 ∣ b.mapSize
  /-- The block and the chunk are aligned. -/
  aligned : 8 ∣ b.allocBeg ∧ 8 ∣ b.size ∧ 8 ∣ b.chunkBeg
  /-- The block lies in its mapping. -/
  inside : b.mapBeg ≤ b.allocBeg ∧ b.allocBeg + b.size ≤ b.mapBeg + b.mapSize
  /-- The mapping ends in user space. -/
  map_le : b.mapBeg + b.mapSize ≤ H.asan.mapping.kHighMemEnd + 1
  /-- A block of the primary allocator has no mapping of its own. -/
  primary : b.primary = true → b.mapBeg = b.allocBeg ∧ b.mapSize = b.size
  /-- The chunk header and eight bytes after it lie in the block. -/
  chunk : b.allocBeg ≤ b.chunkBeg ∧ b.chunkBeg + 24 ≤ b.allocBeg + b.size

theorem Placed.sub_beg {H : HeapConfig} (hs : H.Settings) {b : Block} (h : Placed H b) :
    Word.sub 64 (beg b.chunkBeg) kChunkHeaderSize = b.chunkBeg := by
  have hhigh := hs.kHighMemEnd_lt
  have h1 := h.chunk
  have h2 := h.inside
  have h3 := h.map_le
  unfold beg
  rw [Word.sub_of_le (by omega) (by unfold kChunkHeaderSize; omega)]
  omega

/-- The blocks and the memory of the primary allocator are apart. -/
structure Placement (H : HeapConfig) (regions : List (ℕ × ℕ)) (blocks : List Block) : Prop where
  /-- Each block has its place. -/
  placed : ∀ b ∈ blocks, Placed H b
  /-- Two blocks are apart. -/
  apart : ∀ b ∈ blocks, ∀ c ∈ blocks, b ≠ c → Apart b.mapBeg b.mapSize c.mapBeg c.mapSize
  /-- What the primary allocator has mapped is aligned and ends in user space. -/
  region : ∀ g ∈ regions, 8 ∣ g.1 ∧ 8 ∣ g.2 ∧ g.1 + g.2 ≤ H.asan.mapping.kHighMemEnd + 1
  /-- The mappings of the secondary allocator are apart from it. -/
  secondary : ∀ b ∈ blocks, b.primary = false → ∀ g ∈ regions, Apart b.mapBeg b.mapSize g.1 g.2

/-- A chunk header says that the chunk is allocated or in quarantine, and a size that fits. -/
structure HeaderOk (mem : Mem) (b : Block) : Prop where
  /-- The state. -/
  state : mem b.chunkBeg = CHUNK_ALLOCATED ∨ mem b.chunkBeg = CHUNK_QUARANTINE
  /-- The size is positive. -/
  pos : 0 < chunkUsedSize mem b.chunkBeg
  /-- The user's memory ends in the block. -/
  used : beg b.chunkBeg + chunkUsedSize mem b.chunkBeg ≤ b.allocBeg + b.size

/-- The addressable bytes of a granule of the user's memory, which ends at `userEnd`. -/
def userAcc (state : Byte) (userEnd q : ℕ) : ℕ :=
  if state = CHUNK_ALLOCATED then min 8 (userEnd - 8 * q) else 0

/-- The access map of the blocks and of the primary allocator's memory. The chunk `busy` is on its way
into the quarantine: its state has changed and its memory is not yet poisoned. -/
structure Shadowed (H : HeapConfig) (s : Heap) (busy : Option ℕ) : Prop where
  /-- The redzones are poisoned. -/
  redzone : ∀ b ∈ s.blocks, ∀ q, b.Contains (8 * q) →
    (8 * q < beg b.chunkBeg ∨ beg b.chunkBeg + chunkUsedSize s.mem b.chunkBeg ≤ 8 * q) →
    H.asan.mapping.acc s.shadow q = 0
  /-- The user's memory is addressable iff the chunk is allocated. -/
  body : ∀ b ∈ s.blocks, some b.chunkBeg ≠ busy → ∀ q, beg b.chunkBeg ≤ 8 * q →
    8 * q < beg b.chunkBeg + chunkUsedSize s.mem b.chunkBeg →
    H.asan.mapping.acc s.shadow q = userAcc (s.mem b.chunkBeg)
      (beg b.chunkBeg + chunkUsedSize s.mem b.chunkBeg) q
  /-- What is in no block is poisoned. -/
  free : ∀ g ∈ s.regions, ∀ q, g.1 ≤ 8 * q → 8 * q < g.1 + g.2 →
    (∀ b ∈ s.blocks, ¬ b.Contains (8 * q)) → H.asan.mapping.acc s.shadow q = 0

/-- The invariant of a heap. -/
structure Inv (H : HeapConfig) (s : Heap) (busy : Option ℕ) : Prop where
  /-- The blocks are where they should be. -/
  placement : Placement H s.regions s.blocks
  /-- The chunk headers are in order. -/
  header : ∀ b ∈ s.blocks, HeaderOk s.mem b
  /-- The shadow tracks the blocks. -/
  shadowed : Shadowed H s busy
  /-- No chunk is in the quarantine twice. -/
  nodup : s.quarantine.Nodup
  /-- The quarantine holds chunks in quarantine. -/
  quarantined : ∀ m ∈ s.quarantine, some m ≠ busy ∧
    ∃ b ∈ s.blocks, b.chunkBeg = m ∧ s.mem m = CHUNK_QUARANTINE
  /-- The log is legal. -/
  legal : Legal s.moves
  /-- The log ends in the states of the chunks. -/
  last : ∀ m, s.chunkState m = lastState s.moves m

/-! ### Consequences -/

section Placement

variable {H : HeapConfig} {regions : List (ℕ × ℕ)} {blocks : List Block}
  (h : Placement H regions blocks)

include h

theorem Placement.eq_of_contains {b c : Block} (hb : b ∈ blocks) (hc : c ∈ blocks) {a : ℕ}
    (h1 : b.Contains a) (h2 : c.Contains a) : b = c := by
  by_contra hne
  have hapart := h.apart b hb c hc hne
  have hib := (h.placed b hb).inside
  have hic := (h.placed c hc).inside
  unfold Block.Contains at h1 h2
  unfold Apart at hapart
  omega

theorem Placement.contains_chunk {b : Block} (hb : b ∈ blocks) : b.Contains b.chunkBeg := by
  have := (h.placed b hb).chunk
  unfold Block.Contains
  omega

theorem Placement.eq_of_chunkBeg {b c : Block} (hb : b ∈ blocks) (hc : c ∈ blocks)
    (heq : b.chunkBeg = c.chunkBeg) : b = c :=
  h.eq_of_contains hb hc (h.contains_chunk hb) (heq ▸ h.contains_chunk hc)

theorem Placement.mono {blocks' : List Block} (hsub : ∀ b ∈ blocks', b ∈ blocks) :
    Placement H regions blocks' where
  placed b hb := h.placed b (hsub b hb)
  apart b hb c hc := h.apart b (hsub b hb) c (hsub c hc)
  region := h.region
  secondary b hb := h.secondary b (hsub b hb)

end Placement

theorem HeaderOk.congr {mem mem' : Mem} {b : Block} (h : HeaderOk mem b)
    (heq : ∀ x, b.chunkBeg ≤ x → x < b.chunkBeg + 8 → mem' x = mem x) : HeaderOk mem' b := by
  have hused : chunkUsedSize mem' b.chunkBeg = chunkUsedSize mem b.chunkBeg :=
    chunkUsedSize_congr fun x h1 h2 => heq x (by omega) (by omega)
  have hstate := heq b.chunkBeg le_rfl (by omega)
  refine ⟨?_, ?_, ?_⟩
  · rw [hstate]
    exact h.state
  · rw [hused]
    exact h.pos
  · rw [hused]
    exact h.used

theorem Heap.chunkState_of_mem {s : Heap} {b : Block} (hb : b ∈ s.blocks) :
    s.chunkState b.chunkBeg = s.mem b.chunkBeg := by
  unfold Heap.chunkState
  rw [if_pos (List.any_eq_true.mpr ⟨b, hb, by simp⟩)]

theorem Heap.chunkState_of_not_mem {s : Heap} {m : ℕ} (h : ∀ b ∈ s.blocks, b.chunkBeg ≠ m) :
    s.chunkState m = CHUNK_INVALID := by
  unfold Heap.chunkState
  rw [if_neg]
  simpa using h

theorem Heap.chunkState_congr {s s' : Heap} {m : ℕ}
    (hblocks : ∀ b : Block, b.chunkBeg = m → (b ∈ s'.blocks ↔ b ∈ s.blocks))
    (hmem : (∃ b ∈ s.blocks, b.chunkBeg = m) → s'.mem m = s.mem m) :
    s'.chunkState m = s.chunkState m := by
  by_cases hex : ∃ b ∈ s.blocks, b.chunkBeg = m
  · obtain ⟨b, hb, rfl⟩ := hex
    rw [chunkState_of_mem hb, chunkState_of_mem ((hblocks b rfl).mpr hb), hmem ⟨b, hb, rfl⟩]
  · have hnot : ∀ b ∈ s.blocks, b.chunkBeg ≠ m := fun b hb heq => hex ⟨b, hb, heq⟩
    rw [chunkState_of_not_mem hnot, chunkState_of_not_mem fun b hb heq =>
      hnot b ((hblocks b heq).mp hb) heq]

/-! ### Changes of memory outside the headers -/

/-- The invariant survives a change of memory that leaves the chunk headers alone. -/
theorem Inv.of_mem {H : HeapConfig} {s : Heap} {busy : Option ℕ} (h : Inv H s busy) {mem : Mem}
    (heq : ∀ b ∈ s.blocks, ∀ x, b.chunkBeg ≤ x → x < b.chunkBeg + 8 → mem x = s.mem x) :
    Inv H { s with mem := mem } busy := by
  have hused : ∀ b ∈ s.blocks, chunkUsedSize mem b.chunkBeg = chunkUsedSize s.mem b.chunkBeg :=
    fun b hb => chunkUsedSize_congr fun x h1 h2 => heq b hb x (by omega) (by omega)
  have hstate : ∀ b ∈ s.blocks, mem b.chunkBeg = s.mem b.chunkBeg :=
    fun b hb => heq b hb _ le_rfl (by omega)
  refine ⟨h.placement, fun b hb => (h.header b hb).congr (heq b hb), ⟨?_, ?_, h.shadowed.free⟩,
    h.nodup, ?_, h.legal, ?_⟩
  · intro b hb
    dsimp only
    rw [hused b hb]
    exact h.shadowed.redzone b hb
  · intro b hb
    dsimp only
    rw [hused b hb, hstate b hb]
    exact h.shadowed.body b hb
  · intro m hm
    obtain ⟨hbusy, b, hb, rfl, hq⟩ := h.quarantined m hm
    exact ⟨hbusy, b, hb, rfl, (hstate b hb).trans hq⟩
  · intro m
    rw [← h.last m]
    refine Heap.chunkState_congr (fun b _ => Iff.rfl) ?_
    rintro ⟨b, hb, rfl⟩
    exact hstate b hb

theorem Placement.header_eq {H : HeapConfig} {regions : List (ℕ × ℕ)} {blocks : List Block}
    (h : Placement H regions blocks) {b c : Block} (hb : b ∈ blocks) (hc : c ∈ blocks)
    {mem mem' : Mem} (lo hi : ℕ) (heq : ∀ x, ¬ (lo ≤ x ∧ x < hi) → mem' x = mem x)
    (hlo : b.allocBeg ≤ lo) (hhi : hi ≤ b.allocBeg + b.size)
    (hself : c = b → b.chunkBeg + 8 ≤ lo ∨ hi ≤ b.chunkBeg) :
    ∀ x, c.chunkBeg ≤ x → x < c.chunkBeg + 8 → mem' x = mem x := by
  intro x h1 h2
  apply heq
  by_cases hcb : c = b
  · subst hcb
    have := hself rfl
    omega
  · have hapart := h.apart c hc b hb hcb
    have hib := (h.placed b hb).inside
    have hic := (h.placed c hc).inside
    have hchunk := (h.placed c hc).chunk
    unfold Apart at hapart
    omega

section Steps

variable {H : HeapConfig} {s : Heap} {b : Block}

theorem Inv.setFreeContext {busy : Option ℕ} (h : Inv H s busy) (hb : b ∈ s.blocks)
    (tid stack : ℕ) :
    Inv H { s with mem := Allocator.setFreeContext s.mem b.chunkBeg tid stack } busy := by
  have hchunk := (h.placement.placed b hb).chunk
  refine h.of_mem fun c hc => h.placement.header_eq hb hc (b.chunkBeg + 16)
    (b.chunkBeg + 24) ?_ (by omega) hchunk.2 fun _ => Or.inl (by omega)
  intro x hx
  exact Mem.writeLE_of_not_mem _ _ (by omega)

theorem Inv.fillChunk {busy : Option ℕ} (h : Inv H s busy) (hb : b ∈ s.blocks) :
    Inv H { s with mem := Allocator.fillChunk H s.mem b.chunkBeg } busy := by
  have hchunk := (h.placement.placed b hb).chunk
  have hused := (h.header b hb).used
  refine h.of_mem fun c hc => h.placement.header_eq hb hc (beg b.chunkBeg)
    (beg b.chunkBeg + chunkUsedSize s.mem b.chunkBeg)
    (fun x hx => fillChunk_of_not_mem H s.mem hx) ?_ hused fun _ => Or.inl ?_
  · unfold beg kChunkHeaderSize
    omega
  · unfold beg kChunkHeaderSize
    omega

/-- A chunk that is allocated is flagged for the quarantine. -/
theorem Inv.flag (h : Inv H s none) (hb : b ∈ s.blocks)
    (hstate : s.mem b.chunkBeg = CHUNK_ALLOCATED) :
    Inv H { s with
      mem := s.mem.set b.chunkBeg CHUNK_QUARANTINE
      moves := s.log b.chunkBeg CHUNK_QUARANTINE } (some b.chunkBeg) := by
  have hne : ∀ c ∈ s.blocks, c ≠ b → c.chunkBeg ≠ b.chunkBeg :=
    fun c hc hcb heq => hcb (h.placement.eq_of_chunkBeg hc hb heq)
  have hmem : ∀ m, m ≠ b.chunkBeg → s.mem.set b.chunkBeg CHUNK_QUARANTINE m = s.mem m :=
    fun m hm => Mem.set_of_ne _ _ hm
  -- The byte is in no header but its own, where it is the state.
  have hused : ∀ c ∈ s.blocks, chunkUsedSize (s.mem.set b.chunkBeg CHUNK_QUARANTINE) c.chunkBeg =
      chunkUsedSize s.mem c.chunkBeg := by
    intro c hc
    apply chunkUsedSize_congr
    intro x h1 h2
    by_cases hcb : c = b
    · subst hcb
      exact hmem x (by omega)
    · exact h.placement.header_eq hb hc b.chunkBeg (b.chunkBeg + 1)
        (fun x hx => hmem x (by omega)) (h.placement.placed b hb).chunk.1
        (by have := (h.placement.placed b hb).chunk; omega) (fun heq => absurd heq hcb) x (by omega)
        (by omega)
  have hold : s.chunkState b.chunkBeg = CHUNK_ALLOCATED := by
    rw [Heap.chunkState_of_mem hb, hstate]
  refine ⟨h.placement, ?_, ⟨?_, ?_, h.shadowed.free⟩, h.nodup, ?_, ⟨?_, ?_, h.legal⟩, ?_⟩
  · intro c hc
    refine ⟨?_, by rw [hused c hc]; exact (h.header c hc).pos,
      by rw [hused c hc]; exact (h.header c hc).used⟩
    by_cases hcb : c = b
    · subst hcb
      exact Or.inr (Mem.set_self _ _ _)
    · dsimp only
      rw [hmem _ (hne c hc hcb)]
      exact (h.header c hc).state
  · intro c hc
    dsimp only
    rw [hused c hc]
    exact h.shadowed.redzone c hc
  · intro c hc hbusy
    have hcb : c.chunkBeg ≠ b.chunkBeg := fun heq => hbusy (congrArg some heq)
    dsimp only
    rw [hused c hc, hmem _ hcb]
    exact h.shadowed.body c hc (by simp)
  · intro m hm
    obtain ⟨-, c, hc, rfl, hq⟩ := h.quarantined m hm
    have hcb : c.chunkBeg ≠ b.chunkBeg := by
      intro heq
      rw [heq, hstate] at hq
      exact absurd hq (by decide)
    exact ⟨fun heq => hcb (Option.some.inj heq), c, hc, rfl, (hmem _ hcb).trans hq⟩
  · exact Or.inr (Or.inl ⟨hold, rfl⟩)
  · exact h.last b.chunkBeg
  · intro m
    rw [Heap.log, lastState]
    split_ifs with heq
    · subst heq
      refine Eq.trans (Heap.chunkState_of_mem ?_) (Mem.set_self _ _ _)
      exact hb
    · rw [← h.last m]
      exact Heap.chunkState_congr (fun c _ => Iff.rfl) fun _ => hmem m (Ne.symm heq)

/-- The chunk is poisoned and enters the quarantine. -/
theorem Inv.preQuarantine (hs : H.Settings) {s' : Heap} (h : Inv H s (some b.chunkBeg))
    (hb : b ∈ s.blocks) (hstate : s.mem b.chunkBeg = CHUNK_QUARANTINE)
    (hrun : Allocator.preQuarantine H s b.chunkBeg = some s') :
    Inv H { s' with quarantine := b.chunkBeg :: s'.quarantine } none := by
  have hf := h.fillChunk hb
  have hplaced := h.placement.placed b hb
  have hhigh := hs.kHighMemEnd_lt
  have hinside := hplaced.inside
  have hle := hplaced.map_le
  have hchunk := hplaced.chunk
  unfold Allocator.preQuarantine at hrun
  obtain ⟨σ, hσ, hrun⟩ := Option.bind_eq_some_iff.mp hrun
  obtain rfl := Option.some.inj hrun
  have hacc := acc_poisonChunk hs (by decide) hplaced.aligned.2.2 (by omega) hσ
  have hstate' : Allocator.fillChunk H s.mem b.chunkBeg b.chunkBeg = CHUNK_QUARANTINE := by
    rw [fillChunk_of_not_mem H s.mem (by unfold beg kChunkHeaderSize; omega), hstate]
  generalize Allocator.fillChunk H s.mem b.chunkBeg = mem at *
  have hused := (hf.header b hb).used
  dsimp only at hused
  refine ⟨hf.placement, hf.header, ⟨?_, ?_, ?_⟩, ?_, ?_, hf.legal, hf.last⟩
  · intro c hc q hq hor
    dsimp only
    rw [hacc]
    split_ifs
    · rfl
    · exact hf.shadowed.redzone c hc q hq hor
  · intro c hc _ q h1 h2
    dsimp only
    rw [hacc]
    by_cases hcb : c = b
    · subst hcb
      rw [if_pos ⟨h1, h2⟩]
      unfold userAcc
      rw [if_neg (by rw [hstate']; decide)]
    · -- The granule is in another block.
      have hapart := hf.placement.apart c hc b hb hcb
      have hic := (hf.placement.placed c hc).inside
      have hcc := (hf.placement.placed c hc).chunk
      have hcused := (hf.header c hc).used
      dsimp only at hcused h1 h2
      unfold Apart at hapart
      unfold beg kChunkHeaderSize at *
      rw [if_neg (by omega)]
      exact hf.shadowed.body c hc (fun heq => hcb
        (hf.placement.eq_of_chunkBeg hc hb (Option.some.inj heq))) q h1 h2
  · intro g hg q h1 h2 hnot
    dsimp only
    rw [hacc]
    split_ifs
    · rfl
    · exact hf.shadowed.free g hg q h1 h2 hnot
  · refine List.nodup_cons.mpr ⟨fun hm => ?_, hf.nodup⟩
    exact (hf.quarantined _ hm).1 rfl
  · intro m hm
    rcases List.mem_cons.mp hm with rfl | hm
    · exact ⟨by simp, b, hb, rfl, hstate'⟩
    · exact ⟨by simp, (hf.quarantined m hm).2⟩

/-- A chunk in quarantine goes, and its block with it. The shadow changes in the block's mapping only,
and a block of the primary allocator is poisoned. -/
theorem Inv.remove (h : Inv H s (some b.chunkBeg)) (hb : b ∈ s.blocks)
    (hstate : s.mem b.chunkBeg = CHUNK_QUARANTINE) {σ mem : Mem}
    (hmem : ∀ x, ¬ b.Contains x → mem x = s.mem x)
    (hacc : ∀ q, ¬ (b.mapBeg ≤ 8 * q ∧ 8 * q < b.mapBeg + b.mapSize) →
      H.asan.mapping.acc σ q = H.asan.mapping.acc s.shadow q)
    (hprim : b.primary = true → ∀ q, b.Contains (8 * q) → H.asan.mapping.acc σ q = 0) :
    Inv H { s with
      shadow := σ
      mem := mem
      blocks := s.deallocateBlock b
      moves := s.log b.chunkBeg CHUNK_INVALID } none := by
  have hplaced := h.placement.placed b hb
  have hinside := hplaced.inside
  have hchunk := hplaced.chunk
  -- The blocks that stay are the others.
  have hsub : ∀ c, c ∈ s.deallocateBlock b ↔ c ∈ s.blocks ∧ c ≠ b := by
    intro c
    unfold Heap.deallocateBlock
    rw [List.mem_filter, decide_eq_true_eq]
    refine and_congr_right fun hc => not_congr ⟨fun heq => ?_, fun heq => heq ▸ rfl⟩
    have hcc := (h.placement.placed c hc).chunk
    refine h.placement.eq_of_contains hc hb (a := c.allocBeg) ?_ ?_
    · unfold Block.Contains
      omega
    · unfold Block.Contains
      omega
  have hheader : ∀ c ∈ s.blocks, c ≠ b → ∀ x, c.chunkBeg ≤ x → x < c.chunkBeg + 8 →
      mem x = s.mem x := by
    intro c hc hcb
    exact h.placement.header_eq hb hc b.allocBeg (b.allocBeg + b.size) hmem le_rfl
      le_rfl fun heq => absurd heq hcb
  have hused : ∀ c ∈ s.blocks, c ≠ b →
      chunkUsedSize mem c.chunkBeg = chunkUsedSize s.mem c.chunkBeg :=
    fun c hc hcb => chunkUsedSize_congr fun x h1 h2 => hheader c hc hcb x (by omega) (by omega)
  have hchunkState : ∀ c ∈ s.blocks, c ≠ b → mem c.chunkBeg = s.mem c.chunkBeg :=
    fun c hc hcb => hheader c hc hcb _ le_rfl (by omega)
  have hother : ∀ c ∈ s.blocks, c ≠ b → ∀ q, c.Contains (8 * q) →
      H.asan.mapping.acc σ q = H.asan.mapping.acc s.shadow q := by
    intro c hc hcb q hq
    apply hacc
    have hapart := h.placement.apart c hc b hb hcb
    have hic := (h.placement.placed c hc).inside
    unfold Apart at hapart
    unfold Block.Contains at hq
    omega
  have hold : s.chunkState b.chunkBeg = CHUNK_QUARANTINE := by
    rw [Heap.chunkState_of_mem hb, hstate]
  refine ⟨h.placement.mono fun c hc => ((hsub c).mp hc).1, ?_, ⟨?_, ?_, ?_⟩, h.nodup, ?_,
    ⟨?_, ?_, h.legal⟩, ?_⟩
  · intro c hc
    obtain ⟨hc, hcb⟩ := (hsub c).mp hc
    exact (h.header c hc).congr (hheader c hc hcb)
  · intro c hc q hq hor
    obtain ⟨hc, hcb⟩ := (hsub c).mp hc
    dsimp only at hor ⊢
    rw [hused c hc hcb] at hor
    rw [hother c hc hcb q hq]
    exact h.shadowed.redzone c hc q hq hor
  · intro c hc _ q h1 h2
    obtain ⟨hc, hcb⟩ := (hsub c).mp hc
    dsimp only at h2 ⊢
    rw [hused c hc hcb] at h2 ⊢
    have hcused := (h.header c hc).used
    have hcc := (h.placement.placed c hc).chunk
    have hq : c.Contains (8 * q) := by
      unfold Block.Contains
      unfold beg kChunkHeaderSize at *
      omega
    rw [hchunkState c hc hcb, hother c hc hcb q hq]
    refine h.shadowed.body c hc (fun heq => hcb ?_) q h1 h2
    exact h.placement.eq_of_chunkBeg hc hb (Option.some.inj heq)
  · intro g hg q h1 h2 hnot
    dsimp only at hnot ⊢
    by_cases hq : b.Contains (8 * q)
    · -- Only a block of the primary allocator lies in its memory.
      refine hprim ?_ q hq
      by_contra hp
      have hapart := h.placement.secondary b hb (by simpa using hp) g hg
      unfold Apart at hapart
      unfold Block.Contains at hq
      omega
    · rw [hacc]
      · refine h.shadowed.free g hg q h1 h2 fun c hc hcq => ?_
        by_cases hcb : c = b
        · exact hq (hcb ▸ hcq)
        · exact hnot c ((hsub c).mpr ⟨hc, hcb⟩) hcq
      · by_cases hp : b.primary = true
        · obtain ⟨hm1, hm2⟩ := hplaced.primary hp
          rw [hm1, hm2]
          exact hq
        · have hapart := h.placement.secondary b hb (by simpa using hp) g hg
          unfold Apart at hapart
          omega
  · intro m hm
    obtain ⟨hbusy, c, hc, rfl, hq⟩ := h.quarantined m hm
    have hcb : c ≠ b := fun heq => hbusy (heq ▸ rfl)
    exact ⟨by simp, c, (hsub c).mpr ⟨hc, hcb⟩, rfl, (hchunkState c hc hcb).trans hq⟩
  · exact Or.inr (Or.inr ⟨hold, rfl⟩)
  · exact h.last b.chunkBeg
  · intro m
    rw [Heap.log, lastState]
    split_ifs with heq
    · subst heq
      refine Heap.chunkState_of_not_mem fun c hc heq => ?_
      obtain ⟨hc, hcb⟩ := (hsub c).mp hc
      exact hcb (h.placement.eq_of_chunkBeg hc hb heq)
    · rw [← h.last m]
      refine Heap.chunkState_congr (fun c hcm => ?_) ?_
      · refine (hsub c).trans ⟨And.left, fun hc => ⟨hc, fun hcb => heq ?_⟩⟩
        rw [← hcm, hcb]
      · rintro ⟨c, hc, rfl⟩
        exact hchunkState c hc fun hcb => heq (hcb ▸ rfl)

/-- A new block of an allocated chunk. The shadow changes in its mapping only, and describes the
block. -/
theorem Inv.insert (h : Inv H s none) (hplaced : Placed H b)
    (hapart : ∀ c ∈ s.blocks, Apart b.mapBeg b.mapSize c.mapBeg c.mapSize)
    (hsec : b.primary = false → ∀ g ∈ s.regions, Apart b.mapBeg b.mapSize g.1 g.2) {σ mem : Mem}
    (hmem : ∀ x, ¬ b.Contains x → mem x = s.mem x)
    (hstate : mem b.chunkBeg = CHUNK_ALLOCATED) (hheader : HeaderOk mem b)
    (hacc : ∀ q, ¬ (b.mapBeg ≤ 8 * q ∧ 8 * q < b.mapBeg + b.mapSize) →
      H.asan.mapping.acc σ q = H.asan.mapping.acc s.shadow q)
    (hblock : ∀ q, b.Contains (8 * q) → H.asan.mapping.acc σ q =
      if beg b.chunkBeg ≤ 8 * q ∧ 8 * q < beg b.chunkBeg + chunkUsedSize mem b.chunkBeg then
        min 8 (beg b.chunkBeg + chunkUsedSize mem b.chunkBeg - 8 * q) else 0) :
    Inv H { s with
      shadow := σ
      mem := mem
      blocks := b :: s.blocks
      moves := s.log b.chunkBeg CHUNK_ALLOCATED } none := by
  have hinside := hplaced.inside
  have hchunk := hplaced.chunk
  have hold : ∀ c ∈ s.blocks, ∀ x, c.Contains x → ¬ b.Contains x := by
    intro c hc x hx hbx
    have hap := hapart c hc
    have hic := (h.placement.placed c hc).inside
    unfold Apart at hap
    unfold Block.Contains at hx hbx
    omega
  have hheader' : ∀ c ∈ s.blocks, ∀ x, c.chunkBeg ≤ x → x < c.chunkBeg + 8 → mem x = s.mem x := by
    intro c hc x h1 h2
    refine hmem x (hold c hc x ?_)
    have hcc := (h.placement.placed c hc).chunk
    unfold Block.Contains
    omega
  have hused : ∀ c ∈ s.blocks, chunkUsedSize mem c.chunkBeg = chunkUsedSize s.mem c.chunkBeg :=
    fun c hc => chunkUsedSize_congr fun x h1 h2 => hheader' c hc x (by omega) (by omega)
  have hchunkState : ∀ c ∈ s.blocks, mem c.chunkBeg = s.mem c.chunkBeg :=
    fun c hc => hheader' c hc _ le_rfl (by omega)
  have hother : ∀ c ∈ s.blocks, ∀ q, c.Contains (8 * q) →
      H.asan.mapping.acc σ q = H.asan.mapping.acc s.shadow q := by
    intro c hc q hq
    apply hacc
    have hap := hapart c hc
    have hic := (h.placement.placed c hc).inside
    unfold Apart at hap
    unfold Block.Contains at hq
    omega
  have hnew : ∀ c ∈ s.blocks, c.chunkBeg ≠ b.chunkBeg := by
    intro c hc heq
    refine hold c hc c.chunkBeg (h.placement.contains_chunk hc) ?_
    rw [heq]
    unfold Block.Contains
    omega
  refine ⟨⟨?_, ?_, h.placement.region, ?_⟩, ?_, ⟨?_, ?_, ?_⟩, h.nodup, ?_, ⟨?_, ?_, h.legal⟩, ?_⟩
  · intro c hc
    rcases List.mem_cons.mp hc with rfl | hc
    · exact hplaced
    · exact h.placement.placed c hc
  · intro c hc d hd hcd
    rcases List.mem_cons.mp hc with rfl | hc' <;> rcases List.mem_cons.mp hd with rfl | hd'
    · exact absurd rfl hcd
    · exact hapart d hd'
    · exact (hapart c hc').symm
    · exact h.placement.apart c hc' d hd' hcd
  · intro c hc
    rcases List.mem_cons.mp hc with rfl | hc
    · exact hsec
    · exact h.placement.secondary c hc
  · intro c hc
    rcases List.mem_cons.mp hc with rfl | hc
    · exact hheader
    · exact (h.header c hc).congr (hheader' c hc)
  · intro c hc q hq hor
    dsimp only at hor ⊢
    rcases List.mem_cons.mp hc with rfl | hc
    · rw [hblock q hq, if_neg (by omega)]
    · rw [hused c hc] at hor
      rw [hother c hc q hq]
      exact h.shadowed.redzone c hc q hq hor
  · intro c hc _ q h1 h2
    dsimp only at h2 ⊢
    have hcontains : c.Contains (8 * q) := by
      have hcused : HeaderOk mem c ∧ Placed H c := by
        rcases List.mem_cons.mp hc with rfl | hc
        · exact ⟨hheader, hplaced⟩
        · exact ⟨(h.header c hc).congr (hheader' c hc), h.placement.placed c hc⟩
      have h3 := hcused.1.used
      have h4 := hcused.2.chunk
      unfold Block.Contains
      unfold beg kChunkHeaderSize at *
      omega
    rcases List.mem_cons.mp hc with rfl | hc
    · rw [hblock q hcontains, if_pos ⟨h1, h2⟩, userAcc, if_pos hstate]
    · rw [hused c hc] at h2 ⊢
      rw [hchunkState c hc, hother c hc q hcontains]
      exact h.shadowed.body c hc (by simp) q h1 h2
  · intro g hg q h1 h2 hnot
    dsimp only at hnot ⊢
    have hb : ¬ b.Contains (8 * q) := hnot b (by simp)
    rw [hacc]
    · exact h.shadowed.free g hg q h1 h2 fun c hc => hnot c (by simp [hc])
    · by_cases hp : b.primary = true
      · obtain ⟨hm1, hm2⟩ := hplaced.primary hp
        rw [hm1, hm2]
        exact hb
      · have hap := hsec (by simpa using hp) g hg
        unfold Apart at hap
        omega
  · intro m hm
    obtain ⟨-, c, hc, rfl, hq⟩ := h.quarantined m hm
    exact ⟨by simp, c, by simp [hc], rfl, (hchunkState c hc).trans hq⟩
  · exact Or.inl ⟨Heap.chunkState_of_not_mem hnew, rfl⟩
  · exact h.last b.chunkBeg
  · intro m
    rw [Heap.log, lastState]
    split_ifs with heq
    · subst heq
      refine Eq.trans (Heap.chunkState_of_mem ?_) hstate
      simp
    · rw [← h.last m]
      refine Heap.chunkState_congr (fun c hcm => ?_) ?_
      · have hcb : c ≠ b := fun hcb => heq (hcb ▸ hcm)
        simp [hcb]
      · rintro ⟨c, hc, rfl⟩
        exact hchunkState c hc

/-- The primary allocator maps more memory, which `OnMap` poisons. -/
theorem Inv.onMap (hs : H.Settings) (h : Inv H s none) {p size : ℕ} {σ : Mem} (hpos : 0 < p)
    (hal : 8 ∣ p ∧ 8 ∣ size) (hle : p + size ≤ H.asan.mapping.kHighMemEnd + 1)
    (hapart : ∀ b ∈ s.blocks, Apart p size b.mapBeg b.mapSize)
    (hσ : poisonShadow H.asan s.shadow p size kAsanHeapLeftRedzoneMagic = some σ) :
    Inv H { s with shadow := σ, regions := (p, size) :: s.regions } none := by
  have hhigh := hs.kHighMemEnd_lt
  have hneg : Asan.prefixLen 8 kAsanHeapLeftRedzoneMagic = 0 := by decide
  have hacc := acc_poisonShadow hs hal.1 hal.2 hpos (by omega) hσ
  rw [hneg] at hacc
  have hother : ∀ c ∈ s.blocks, ∀ q, c.Contains (8 * q) →
      H.asan.mapping.acc σ q = H.asan.mapping.acc s.shadow q := by
    intro c hc q hq
    have hap := hapart c hc
    have hic := (h.placement.placed c hc).inside
    unfold Apart at hap
    unfold Block.Contains at hq
    rw [hacc, if_neg (by omega)]
  refine ⟨⟨h.placement.placed, h.placement.apart, ?_, ?_⟩, h.header, ⟨?_, ?_, ?_⟩, h.nodup,
    h.quarantined, h.legal, h.last⟩
  · intro g hg
    rcases List.mem_cons.mp hg with rfl | hg
    · exact ⟨hal.1, hal.2, hle⟩
    · exact h.placement.region g hg
  · intro c hc hp g hg
    rcases List.mem_cons.mp hg with rfl | hg
    · exact (hapart c hc).symm
    · exact h.placement.secondary c hc hp g hg
  · intro c hc q hq
    dsimp only
    rw [hother c hc q hq]
    exact h.shadowed.redzone c hc q hq
  · intro c hc hbusy q h1 h2
    have hcused := (h.header c hc).used
    have hcc := (h.placement.placed c hc).chunk
    have hq : c.Contains (8 * q) := by
      unfold Block.Contains
      dsimp only at h2
      unfold beg kChunkHeaderSize at *
      omega
    dsimp only
    rw [hother c hc q hq]
    exact h.shadowed.body c hc hbusy q h1 h2
  · intro g hg q h1 h2 hnot
    dsimp only
    rw [hacc]
    split_ifs with hq
    · rfl
    · rcases List.mem_cons.mp hg with rfl | hg
      · exact absurd ⟨h1, h2⟩ hq
      · exact h.shadowed.free g hg q h1 h2 hnot

/-! ### `Deallocate` -/

theorem Placement.getBlock_eq (h : Placement H s.regions s.blocks) (hb : b ∈ s.blocks) {c : Block}
    (hc : s.getBlock b.chunkBeg = some c) : c = b := by
  have hmem := List.mem_of_find?_eq_some hc
  have hcontains : c.Contains b.chunkBeg := by simpa using List.find?_some hc
  exact h.eq_of_contains hmem hb hcontains (h.contains_chunk hb)

theorem clearLargeChunkHeader_of_not_mem {mem mem' : Mem} {allocBeg m x : ℕ}
    (h : clearLargeChunkHeader mem allocBeg m = some mem')
    (hx : ¬ (allocBeg ≤ x ∧ x < allocBeg + 8) ∨ allocBeg = m) : mem' x = mem x := by
  unfold clearLargeChunkHeader at h
  split_ifs at h with hne
  · obtain ⟨u, -, h⟩ := Option.bind_eq_some_iff.mp h
    obtain rfl := Option.some.inj h
    exact Mem.writeLE_of_not_mem _ _ (hx.resolve_right hne)
  · obtain rfl := Option.some.inj h
    rfl

/-- `Recycle` keeps the invariant. -/
theorem Inv.recycle (hs : H.Settings) {s' : Heap} (h : Inv H s (some b.chunkBeg))
    (hb : b ∈ s.blocks) (hstate : s.mem b.chunkBeg = CHUNK_QUARANTINE)
    (hrun : Allocator.recycle H s b.chunkBeg = some s') : Inv H s' none := by
  have hplaced := h.placement.placed b hb
  have hhigh := hs.kHighMemEnd_lt
  have hinside := hplaced.inside
  have hle := hplaced.map_le
  have hchunk := hplaced.chunk
  have hal := hplaced.aligned
  have hpos := hplaced.pos
  unfold Allocator.recycle at hrun
  obtain ⟨c, hc, hrun⟩ := Option.bind_eq_some_iff.mp hrun
  obtain rfl := h.placement.getBlock_eq hb hc
  split_ifs at hrun with hp
  · obtain ⟨hm1, hm2⟩ := hplaced.primary hp
    obtain ⟨mem, hclear, hrun⟩ := Option.bind_eq_some_iff.mp hrun
    obtain ⟨u, -, hrun⟩ := Option.bind_eq_some_iff.mp hrun
    obtain ⟨σ, hσ, hrun⟩ := Option.bind_eq_some_iff.mp hrun
    obtain rfl := Option.some.inj hrun
    -- The writes are to the first 8 bytes of the block and to the state.
    have hmem : ∀ x, (x < c.allocBeg ∨ c.chunkBeg < x) →
        mem.set c.chunkBeg CHUNK_INVALID x = s.mem x := by
      intro x hx
      rw [Mem.set_of_ne _ _ (by omega)]
      exact clearLargeChunkHeader_of_not_mem hclear (by omega)
    have hused : chunkUsedSize (mem.set c.chunkBeg CHUNK_INVALID) c.chunkBeg =
        chunkUsedSize s.mem c.chunkBeg :=
      chunkUsedSize_congr fun x h1 h2 => hmem x (Or.inr (by omega))
    have hacc := acc_poisonChunk hs (by decide) hal.2.2 (by omega) hσ
    rw [hused] at hacc
    have hfit := (h.header c hb).used
    refine h.remove hb hstate ?_ ?_ ?_
    · intro x hx
      refine hmem x ?_
      unfold Block.Contains at hx
      omega
    · intro q hq
      rw [hacc, if_neg]
      unfold beg kChunkHeaderSize at *
      omega
    · intro _ q hq
      rw [hacc]
      split_ifs with hin
      · rfl
      · exact h.shadowed.redzone c hb q hq (by omega)
  · obtain ⟨σ, hσ, hrun⟩ := Option.bind_eq_some_iff.mp hrun
    obtain rfl := Option.some.inj hrun
    have hacc := acc_poisonShadow hs hplaced.map_aligned.1 hplaced.map_aligned.2 hpos (by omega) hσ
    refine h.remove hb hstate (fun _ _ => rfl) ?_ fun hp' => absurd hp' hp
    intro q hq
    rw [hacc, if_neg hq]

/-- `QuarantineChunk` keeps the invariant: the chunk is flagged, and enters the quarantine or is
recycled. -/
theorem Inv.quarantineChunk (hs : H.Settings) {s' : Heap} {tid stack : ℕ}
    (h : Inv H s (some b.chunkBeg)) (hb : b ∈ s.blocks)
    (hrun : Allocator.quarantineChunk H s b.chunkBeg tid stack = some s') : Inv H s' none := by
  unfold Allocator.quarantineChunk at hrun
  obtain ⟨u, hcheck, hrun⟩ := Option.bind_eq_some_iff.mp hrun
  have hstate : s.mem b.chunkBeg = CHUNK_QUARANTINE := by
    unfold check at hcheck
    split_ifs at hcheck with hq
    exact eq_of_beq hq
  have hctx := h.setFreeContext hb tid stack
  have hstate' : Allocator.setFreeContext s.mem b.chunkBeg tid stack b.chunkBeg =
      CHUNK_QUARANTINE := by
    rw [← hstate]
    exact Mem.writeLE_of_not_mem _ _ (by omega)
  dsimp only at hrun
  split_ifs at hrun with hput
  · obtain ⟨s₁, hpre, hrun⟩ := Option.bind_eq_some_iff.mp hrun
    obtain rfl := Option.some.inj hrun
    exact hctx.preQuarantine hs hb hstate' hpre
  · unfold recyclePassThrough at hrun
    obtain ⟨c, hc, hrun⟩ := Option.bind_eq_some_iff.mp hrun
    obtain rfl := hctx.placement.getBlock_eq hb hc
    split_ifs at hrun with hp
    · refine (hctx.fillChunk hb).recycle hs hb ?_ hrun
      rw [← hstate']
      refine fillChunk_of_not_mem H _ ?_
      unfold beg kChunkHeaderSize
      omega
    · exact hctx.recycle hs hb hstate' hrun

theorem Inv.deallocate (hs : H.Settings) {s' : Heap} {p tid stack : ℕ} (h : Inv H s none)
    (hp : PointerOk s p) (hrun : Allocator.deallocate H s p tid stack = some s') :
    Inv H s' none := by
  unfold Allocator.deallocate at hrun
  split_ifs at hrun with h0
  · obtain rfl := Option.some.inj hrun
    exact h
  dsimp only at hrun
  split_ifs at hrun with hstate
  · obtain rfl := Option.some.inj hrun
    exact h
  · obtain ⟨b, hb, rfl⟩ := (hp.resolve_left h0).resolve_right fun hne => hne (not_not.mp hstate)
    rw [(h.placement.placed b hb).sub_beg hs] at hrun hstate
    have hflag := (h.flag hb (not_not.mp hstate)).setFreeContext hb kInvalidTid 0
    exact hflag.quarantineChunk hs hb hrun

/-! ### `Allocate` and `Reallocate` -/

theorem eq_ok_of_toOption {α : Type} {x : Except Check α} {v : α} (h : x.toOption = some v) :
    x = .ok v := by
  cases x with
  | error e => exact absurd h (by simp [Except.toOption])
  | ok v' => exact congrArg _ (Option.some.inj h)

theorem GrantOk.map_le {r : Request} (hg : GrantOk H s r b) :
    b.mapBeg + b.mapSize ≤ H.asan.mapping.kHighMemEnd + 1 := by
  have hneed := hg.needed
  have hin := hg.inside
  have hlast := H.asan.mapping.le_of_addrIsInMem
    (hg.inMem (b.mapBeg + b.mapSize - 1) (by omega) (by omega))
  omega

section Grant

variable {r : Request} {g : Grant} {l : Layout} (hg : GrantOk H s r (H.alloc.block r g 0))
  (hl : LayoutOk H.alloc r g.allocBeg l) (hal : 8 ∣ r.alignment) (hsize : 0 < r.size)

include hg hl hal hsize

/-- The block of a grant has its place. -/
theorem GrantOk.placed : Placed H (H.alloc.block r g l.chunkBeg) where
  pos := hg.pos
  map_aligned := hg.map_aligned
  aligned := by
    have huser : 8 ∣ l.userBeg := hal.trans hl.aligned
    have hchunk := hl.chunk.2
    unfold kChunkHeaderSize at hchunk
    exact ⟨hg.aligned.1, hg.aligned.2, show 8 ∣ l.chunkBeg by omega⟩
  inside := hg.inside
  map_le := hg.map_le
  primary hp := by
    unfold Config.block at hp ⊢
    dsimp only at hp ⊢
    rw [if_pos hp, if_pos hp]
    exact ⟨rfl, rfl⟩
  chunk := by
    have huser : 8 ∣ l.userBeg := hal.trans hl.aligned
    have hchunk := hl.chunk
    have hin := hl.inside
    have hneed : max r.neededSize 1 ≤ g.size := hg.needed
    have h8 : 8 ∣ g.allocBeg ∧ 8 ∣ g.size := hg.aligned
    unfold kChunkHeaderSize at hchunk
    exact ⟨hchunk.1, show l.chunkBeg + 24 ≤ g.allocBeg + g.size by omega⟩

/-- The access map after `Allocate` has poisoned its block. -/
theorem Inv.acc_grant (hs : H.Settings) (h : Inv H s none)
    (hprim : r.fromPrimary = true → H.alloc.canAllocate r.neededSize 8 = true) {σ₁ σ₂ σ₃ : Mem}
    (h₁ : onGrant H s.shadow r g = some σ₁)
    (h₂ : poisonRedzones H σ₁ r g.allocBeg g.size l.userBeg = some σ₂)
    (h₃ : unpoisonUser H σ₂ r.size l.userBeg = some σ₃) (q : ℕ) :
    (¬ ((H.alloc.block r g 0).mapBeg ≤ 8 * q ∧
        8 * q < (H.alloc.block r g 0).mapBeg + (H.alloc.block r g 0).mapSize) →
      H.asan.mapping.acc σ₃ q = H.asan.mapping.acc s.shadow q) ∧
    (g.allocBeg ≤ 8 * q ∧ 8 * q < g.allocBeg + g.size → H.asan.mapping.acc σ₃ q =
      if l.userBeg ≤ 8 * q ∧ 8 * q < l.userBeg + r.size then min 8 (l.userBeg + r.size - 8 * q)
      else 0) := by
  have hhigh := hs.kHighMemEnd_lt
  have hle := hg.map_le
  have hin : (H.alloc.block r g 0).mapBeg ≤ g.allocBeg ∧ g.allocBeg + g.size ≤
      (H.alloc.block r g 0).mapBeg + (H.alloc.block r g 0).mapSize := hg.inside
  have huser : 8 ∣ l.userBeg := hal.trans hl.aligned
  have h8 : 8 ∣ g.allocBeg ∧ 8 ∣ g.size := hg.aligned
  have hpos := hg.pos
  have hhead := hl.header
  have hneed : max r.neededSize 1 ≤ g.size := hg.needed
  have hend := hl.inside
  -- The callback touches the mapping only, and nothing in the primary allocator.
  have hmap : (H.alloc.canAllocate r.neededSize 8 = true → σ₁ = s.shadow) ∧
      (¬ ((H.alloc.block r g 0).mapBeg ≤ 8 * q ∧
        8 * q < (H.alloc.block r g 0).mapBeg + (H.alloc.block r g 0).mapSize) →
      H.asan.mapping.acc σ₁ q = H.asan.mapping.acc s.shadow q) := by
    unfold onGrant at h₁
    split_ifs at h₁ with hp
    · obtain rfl := Option.some.inj h₁
      exact ⟨fun _ => rfl, fun _ => rfl⟩
    · have hblock : (H.alloc.block r g 0).mapBeg = g.mapBeg ∧
          (H.alloc.block r g 0).mapSize = g.mapSize := by
        unfold Config.block
        dsimp only
        rw [if_neg hp, if_neg hp]
        exact ⟨rfl, rfl⟩
      have hmal := hg.map_aligned
      rw [hblock.1, hblock.2] at hmal hin hle ⊢
      rw [hblock.1] at hpos
      refine ⟨fun hp' => absurd hp' hp, fun hq => ?_⟩
      exact acc_onMapSecondary hs ⟨hmal.1, hmal.2, h8.1⟩ hpos hin.1 (by omega) (by omega) h₁ hq
  -- A block of the primary allocator is poisoned, as it is in no other block.
  have hfree : r.fromPrimary = true → ∀ q, g.allocBeg ≤ 8 * q → 8 * q < g.allocBeg + g.size →
      H.asan.mapping.acc σ₁ q = 0 := by
    intro hfrom q h1 h2
    have hp := hprim hfrom
    rw [hmap.1 hp]
    obtain ⟨x, hx, hx1, hx2⟩ := hg.primary hp
    have hx1 : x.1 ≤ g.allocBeg := hx1
    have hx2 : g.allocBeg + g.size ≤ x.1 + x.2 := hx2
    refine h.shadowed.free x hx q (by omega) (by omega) fun c hc hq => ?_
    have hap := hg.apart c hc
    have hic := (h.placement.placed c hc).inside
    unfold Apart at hap
    unfold Block.Contains at hq
    omega
  rw [acc_unpoisonUser hs huser (by omega) (by omega) h₃,
    acc_poisonRedzones hs ⟨h8.1, h8.2, huser⟩ (by omega) (by omega) (by omega) (by omega) hfree h₂]
  refine ⟨fun hq => ?_, fun hq => ?_⟩
  · rw [if_neg (by omega), if_neg (by omega), hmap.2 hq]
  · split_ifs <;> first | rfl | omega

end Grant

/-- What `Allocate` has done when it returns: nothing, or a new block with the pointer to its user's
memory. -/
theorem Inv.allocate (hs : H.Settings) {s' : Heap} {a : AllocArgs} {p : ℕ} (h : Inv H s none)
    (ha : AllocOk H s a) (hrun : Allocator.allocate H s a = some (p, s')) :
    Inv H s' none ∧ (p = 0 ∨ ∃ b ∈ s'.blocks, p = beg b.chunkBeg ∧
      chunkUsedSize s'.mem b.chunkBeg = max a.size 1) := by
  have hhigh := hs.kHighMemEnd_lt
  have hw : H.alloc.w = 64 := by rw [Config.w, hs.wordsize]; rfl
  unfold Allocator.allocate at hrun
  obtain ⟨r, hreq, hrun⟩ := Option.bind_eq_some_iff.mp hrun
  have hreq := eq_ok_of_toOption hreq
  obtain ⟨hsize, ⟨k, h3, hk, hal⟩, hrz, hrz', hfromPrimary⟩ :=
    H.alloc.request_spec (by rw [hw]; exact ha.1) hreq
  rw [hw] at hk
  split_ifs at hrun with hbig
  · obtain ⟨rfl, rfl⟩ := Prod.mk.inj (Option.some.inj hrun)
    exact ⟨h, Or.inl rfl⟩
  cases hgrant : a.grant with
  | none =>
    rw [hgrant] at hrun
    obtain ⟨rfl, rfl⟩ := Prod.mk.inj (Option.some.inj hrun)
    exact ⟨h, Or.inl rfl⟩
  | some g =>
    rw [hgrant] at hrun
    have hg := ha.2 r g hreq hgrant
    obtain ⟨σ₁, hσ₁, hrun⟩ := Option.bind_eq_some_iff.mp hrun
    obtain ⟨l, hl, hrun⟩ := Option.bind_eq_some_iff.mp hrun
    obtain ⟨σ₂, hσ₂, hrun⟩ := Option.bind_eq_some_iff.mp hrun
    obtain ⟨σ₃, hσ₃, hrun⟩ := Option.bind_eq_some_iff.mp hrun
    obtain ⟨rfl, rfl⟩ := Prod.mk.inj (Option.some.inj hrun)
    have hle := hg.map_le
    have hin : (H.alloc.block r g 0).mapBeg ≤ g.allocBeg ∧ g.allocBeg + g.size ≤
        (H.alloc.block r g 0).mapBeg + (H.alloc.block r g 0).mapSize := hg.inside
    have hneed : max r.neededSize 1 ≤ g.size := hg.needed
    obtain ⟨hl, hsize48⟩ := H.alloc.layout_spec hs.wordsize hk hal hrz hrz'
      (show 8 ∣ g.allocBeg from hg.aligned.1) (by omega) (eq_ok_of_toOption hl)
    have h8 : 8 ∣ r.alignment := hal ▸ Nat.pow_dvd_pow 2 h3
    have huser : l.chunkBeg + 16 = l.userBeg := hl.chunk.2
    have hend := hl.inside
    have hchunk := hl.chunk.1
    have hlarge : g.allocBeg = l.chunkBeg ∨ g.allocBeg + 16 ≤ l.chunkBeg := by
      have h16 : sizeofLargeChunkHeader H.alloc.wordsize = 16 := by rw [hs.wordsize]; rfl
      have := hl.large
      rw [h16] at this
      omega
    have hstate := initChunk_state H s.mem a (r := r) huser hlarge
    have hused := chunkUsedSize_initChunk H s.mem a huser hlarge hsize48
    have hbeg : beg l.chunkBeg = l.userBeg := huser
    have hacc := h.acc_grant hg hl h8 (by omega) hs hfromPrimary hσ₁ hσ₂ hσ₃
    refine ⟨?_, Or.inr ⟨_, List.mem_cons_self, hbeg.symm, hused.trans hsize⟩⟩
    refine h.insert (hg.placed hl h8 (by omega)) hg.apart hg.secondary ?_ hstate ?_
      (fun q hq => (hacc q).1 hq) ?_
    · intro x hx
      refine initChunk_of_not_mem H s.mem a huser hlarge fun hx' => hx ?_
      exact ⟨hx'.1, show x < g.allocBeg + g.size by omega⟩
    · refine ⟨Or.inl hstate, hused ▸ by omega, ?_⟩
      show beg l.chunkBeg + chunkUsedSize _ l.chunkBeg ≤ g.allocBeg + g.size
      rw [hused, hbeg]
      omega
    · intro q hq
      rw [(hacc q).2 hq]
      show _ = if beg l.chunkBeg ≤ 8 * q ∧ 8 * q < beg l.chunkBeg + chunkUsedSize _ l.chunkBeg then
        min 8 (beg l.chunkBeg + chunkUsedSize _ l.chunkBeg - 8 * q) else 0
      rw [hused, hbeg]

/-- `Reallocate` up to its `Deallocate` keeps the invariant. -/
theorem Inv.reallocateCopy (hs : H.Settings) {s' : Heap} {a : AllocArgs} {p new : ℕ}
    (h : Inv H s none) (ha : AllocOk H s a)
    (hrun : Allocator.reallocateCopy H s p a = some (new, s')) : Inv H s' none := by
  unfold Allocator.reallocateCopy at hrun
  obtain ⟨u, hcheck, hrun⟩ := Option.bind_eq_some_iff.mp hrun
  obtain ⟨⟨p', s₁⟩, halloc, hrun⟩ := Option.bind_eq_some_iff.mp hrun
  obtain ⟨h₁, hnew⟩ := h.allocate hs ha halloc
  dsimp only at hrun
  split_ifs at hrun with h0
  · obtain ⟨rfl, rfl⟩ := Prod.mk.inj (Option.some.inj hrun)
    exact h₁
  · obtain ⟨rfl, rfl⟩ := Prod.mk.inj (Option.some.inj hrun)
    obtain ⟨b, hb, hp', hused⟩ := hnew.resolve_left h0
    have hfit := (h₁.header b hb).used
    have hchunk := (h₁.placement.placed b hb).chunk
    refine h₁.of_mem fun c hc => h₁.placement.header_eq hb hc p'
      (beg b.chunkBeg + chunkUsedSize s₁.mem b.chunkBeg) ?_ ?_ hfit fun _ => Or.inl ?_
    · intro x hx
      exact copy_of_not_mem _ (by omega)
    · rw [hp']
      unfold beg kChunkHeaderSize
      omega
    · rw [hp']
      unfold beg kChunkHeaderSize
      omega

/-! ### Every step -/

/-- A store to memory that is addressable or in no block leaves the headers alone. -/
theorem Inv.store (hs : H.Settings) (h : Inv H s none) {a : ℕ} {v : Byte}
    (ha : (∀ b ∈ s.blocks, ¬ b.Contains a) ∨
      Asan.addressIsPoisoned H.asan.mapping.toLayout s.shadow a = false) :
    Inv H { s with mem := s.mem.set a v } none := by
  have h8 := granularity_eight hs
  refine h.of_mem fun b hb x h1 h2 => Mem.set_of_ne _ _ ?_
  rintro rfl
  have hplaced := h.placement.placed b hb
  have hchunk := hplaced.chunk
  have hal := hplaced.aligned
  have hcontains : b.Contains x := by
    unfold Block.Contains
    omega
  rcases ha with hno | hacc
  · exact hno b hb hcontains
  · -- The header is in the left redzone.
    have hin := hplaced.inside
    have hle := hplaced.map_le
    unfold Block.Contains at hcontains
    rw [H.asan.mapping.addressIsPoisoned_eq_false_iff _ (by omega), h8,
      h.shadowed.redzone b hb (x / 8) ?_ (Or.inl ?_)] at hacc
    · omega
    · unfold Block.Contains
      omega
    · unfold beg kChunkHeaderSize
      omega

/-- Every step keeps the invariant. -/
theorem Inv.step (hs : H.Settings) {s' : Heap} (h : Inv H s none) (hstep : Step H s s') :
    Inv H s' none := by
  obtain ⟨e, henv, hptr, hrun⟩ := hstep
  cases e with
  | onMap p size =>
    obtain ⟨hpos, hsize, h1, h2, hmem, hapart⟩ := henv
    have hlast := H.asan.mapping.le_of_addrIsInMem (hmem (p + size - 1) (by omega) (by omega))
    obtain ⟨σ, hσ, hrun⟩ := Option.bind_eq_some_iff.mp hrun
    obtain rfl := Option.some.inj hrun
    exact h.onMap hs hpos ⟨h1, h2⟩ (by omega) hapart hσ
  | allocate a =>
    obtain ⟨⟨p, s₁⟩, halloc, hrun⟩ := Option.bind_eq_some_iff.mp hrun
    obtain rfl := Option.some.inj hrun
    exact (h.allocate hs henv halloc).1
  | deallocate p tid stack => exact h.deallocate hs hptr hrun
  | reallocate p newSize tid stack lsanTag grant =>
    obtain ⟨⟨new, s₁⟩, hcopy, hrun⟩ := Option.bind_eq_some_iff.mp hrun
    have h₁ := h.reallocateCopy hs henv hcopy
    dsimp only at hrun
    split_ifs at hrun with h0
    · obtain rfl := Option.some.inj hrun
      exact h₁
    · exact h₁.deallocate hs (hptr new s₁ hcopy h0) hrun
  | recycle m =>
    obtain ⟨-, b, hb, rfl, hstate⟩ := h.quarantined m henv
    -- The chunk leaves the quarantine before it is recycled.
    have hout : Inv H { s with quarantine := s.quarantine.erase b.chunkBeg } (some b.chunkBeg) := by
      refine ⟨h.placement, h.header, ⟨h.shadowed.redzone, fun c hc _ => h.shadowed.body c hc (by simp),
        h.shadowed.free⟩, h.nodup.erase _, fun m hm => ?_, h.legal, h.last⟩
      obtain ⟨hne, hm⟩ := h.nodup.mem_erase_iff.mp hm
      exact ⟨fun heq => hne (Option.some.inj heq), (h.quarantined m hm).2⟩
    exact hout.recycle hs hb hstate hrun
  | store a v =>
    obtain rfl := Option.some.inj hrun
    exact h.store hs henv

end Steps

theorem Inv.init (H : HeapConfig) (shadow mem : Mem) : Inv H (Heap.init shadow mem) none := by
  refine ⟨⟨?_, ?_, ?_, ?_⟩, ?_, ⟨?_, ?_, ?_⟩, List.nodup_nil, ?_, trivial, fun m => rfl⟩
  all_goals simp [Heap.init]

/-- The invariant says what the shadow is to say. -/
theorem Inv.sound {H : HeapConfig} (hs : H.Settings) {s : Heap} (h : Inv H s none) : Sound H s := by
  have h8 := granularity_eight hs
  have hhigh := hs.kHighMemEnd_lt
  -- A block is made of granules.
  have hgranule : ∀ b ∈ s.blocks, ∀ a, b.Contains a →
      b.Contains (8 * (a / 8)) ∧ a ≤ H.asan.mapping.kHighMemEnd := by
    intro b hb a ha
    have hal := (h.placement.placed b hb).aligned
    have hin := (h.placement.placed b hb).inside
    have hle := (h.placement.placed b hb).map_le
    unfold Block.Contains at ha ⊢
    omega
  have hpoisoned : ∀ a, a ≤ H.asan.mapping.kHighMemEnd → H.asan.mapping.acc s.shadow (a / 8) = 0 →
      Asan.addressIsPoisoned H.asan.mapping.toLayout s.shadow a = true := by
    intro a ha h0
    rw [H.asan.mapping.addressIsPoisoned_iff _ ha, h8, h0]
    exact Nat.zero_le _
  refine ⟨?_, ?_, ?_, ?_, ⟨h.legal, h.last⟩, ⟨h.nodup, ?_⟩, ?_⟩
  · exact fun b hb => ⟨h.placement.contains_chunk hb, (h.header b hb).state⟩
  · intro b hb hstate a ha
    obtain ⟨hq, hle⟩ := hgranule b hb a ha
    have hal := (h.placement.placed b hb).aligned
    rw [H.asan.mapping.addressIsPoisoned_eq_false_iff _ hle, h8]
    by_cases hbody : beg b.chunkBeg ≤ 8 * (a / 8) ∧
        8 * (a / 8) < beg b.chunkBeg + chunkUsedSize s.mem b.chunkBeg
    · rw [h.shadowed.body b hb (by simp) _ hbody.1 hbody.2, userAcc, if_pos hstate]
      omega
    · rw [h.shadowed.redzone b hb _ hq (by omega)]
      unfold beg kChunkHeaderSize at *
      omega
  · intro b hb hstate a ha
    obtain ⟨hq, hle⟩ := hgranule b hb a ha
    refine hpoisoned a hle ?_
    by_cases hbody : beg b.chunkBeg ≤ 8 * (a / 8) ∧
        8 * (a / 8) < beg b.chunkBeg + chunkUsedSize s.mem b.chunkBeg
    · rw [h.shadowed.body b hb (by simp) _ hbody.1 hbody.2, userAcc, if_neg (by rw [hstate]; decide)]
    · exact h.shadowed.redzone b hb _ hq (by omega)
  · intro g hg a h1 h2 hnot
    obtain ⟨hg1, hg2, hle⟩ := h.placement.region g hg
    refine hpoisoned a (by omega) (h.shadowed.free g hg _ (by omega) (by omega) fun b hb hq => ?_)
    have hal := (h.placement.placed b hb).aligned
    refine hnot b hb ?_
    unfold Block.Contains at hq ⊢
    omega
  · intro m hm
    obtain ⟨-, b, hb, rfl, hq⟩ := h.quarantined m hm
    rw [Heap.chunkState_of_mem hb, hq]
  · intro m hm tid stack
    obtain ⟨-, b, hb, rfl, hq⟩ := h.quarantined m hm
    unfold Allocator.deallocate
    rw [if_neg (by unfold beg kChunkHeaderSize; omega), (h.placement.placed b hb).sub_beg hs,
      if_pos (by rw [hq]; decide)]

/-- In every state that a heap reaches, by any steps in which the underlying allocator hands out
proper blocks and each pointer that is passed to `Deallocate` is null, the beginning of a chunk or
without `CHUNK_ALLOCATED` where its chunk header would be, the shadow tracks the heap. -/
theorem heap_shadow_sound (H : HeapConfig) (hs : H.Settings) (shadow mem : Mem) (s : Heap)
    (h : Relation.ReflTransGen (Step H) (Heap.init shadow mem) s) : Sound H s := by
  have hinv : Inv H s none := by
    induction h with
    | refl => exact Inv.init H shadow mem
    | tail _ hstep ih => exact ih.step hs hstep
  exact hinv.sound hs

/-! ## A run on x86-64 Linux -/

/-- The default settings on x86-64 Linux. -/
def linuxHeap : HeapConfig where
  asan := Asan.Config.linuxX64
  alloc := {}

theorem linuxHeap_settings : linuxHeap.Settings := ⟨rfl, rfl, by decide, rfl, rfl⟩

/-- A page of the primary allocator. -/
def linuxPage : ℕ := 0x602000000000

/-- `malloc(64)` on thread 16, with the second stack of the depot, in the first block of the page. -/
def malloc64 : AllocArgs where
  size := 64
  alignment := 8
  tid := 16
  stack := 2
  grant := some ⟨linuxPage, 96, 0, 0⟩

theorem malloc64_ok {s : Heap} (hregions : s.regions = [(linuxPage, 4096)]) (hblocks : s.blocks = []) :
    AllocOk linuxHeap s malloc64 := by
  refine ⟨by decide, fun r g hr hg => ?_⟩
  obtain rfl := Option.some.inj hg
  have hreq : linuxHeap.alloc.request malloc64.size malloc64.alignment =
      .ok { size := 64, alignment := 8, alignmentLog := 1, rzSize := 32, neededSize := 96,
            fromPrimary := true, tooBig := false } := by rfl
  rw [hreq] at hr
  obtain rfl := Except.ok.inj hr
  refine ⟨by decide, by decide, by decide, by decide, by decide, ?_, ?_, fun _ => ?_, ?_⟩
  · intro x h1 h2
    refine (Asan.Mapping.linuxX64_addrIsInMem x).mpr (Or.inr ?_)
    have h1 : 0x602000000000 ≤ x := h1
    have h2 : x < 0x602000000000 + 96 := h2
    omega
  · rw [hblocks]
    simp
  · exact ⟨(linuxPage, 4096), by simp [hregions], by decide, by decide⟩
  · intro hp
    exact absurd hp (by decide)

theorem exists_of_any {α : Type} {o : Option α} {P : α → Bool} (h : o.any P = true) :
    ∃ v, o = some v ∧ P v = true := by
  cases o with
  | none => exact absurd h (by simp)
  | some v => exact ⟨v, rfl, h⟩

/-- A heap with the page and one chunk, and what two calls of `Deallocate` do in it: on the pointer
that `malloc` has returned, and on the pointer 8 bytes after it. -/
theorem exists_malloc64 : ∃ s, Relation.ReflTransGen (Step linuxHeap)
      (Heap.init (fun _ => 0) (fun _ => 0)) s ∧
    s.blocks = [⟨linuxPage, 96, true, linuxPage, 96, linuxPage + 16⟩] ∧
    (step linuxHeap s (.deallocate (linuxPage + 32) 16 2)).any (fun s' =>
      s'.quarantine == [linuxPage + 16]) = true ∧
    (step linuxHeap s (.deallocate (linuxPage + 40) 16 2)).any (fun s' =>
      s'.blocks == [⟨linuxPage, 96, true, linuxPage, 96, linuxPage + 16⟩] &&
      s'.mem (linuxPage + 16) == CHUNK_ALLOCATED && chunkUsedSize s'.mem (linuxPage + 16) == 64 &&
      Asan.addressIsPoisoned linuxHeap.asan.mapping.toLayout s'.shadow (linuxPage + 40)) = true := by
  have hrun : (step linuxHeap (Heap.init (fun _ => 0) (fun _ => 0)) (.onMap linuxPage 4096)).any
      (fun s₁ => s₁.regions == [(linuxPage, 4096)] && s₁.blocks == [] &&
        (step linuxHeap s₁ (.allocate malloc64)).any (fun s =>
          s.blocks == [⟨linuxPage, 96, true, linuxPage, 96, linuxPage + 16⟩] &&
          (step linuxHeap s (.deallocate (linuxPage + 32) 16 2)).any (fun s' =>
            s'.quarantine == [linuxPage + 16]) &&
          (step linuxHeap s (.deallocate (linuxPage + 40) 16 2)).any (fun s' =>
            s'.blocks == [⟨linuxPage, 96, true, linuxPage, 96, linuxPage + 16⟩] &&
            s'.mem (linuxPage + 16) == CHUNK_ALLOCATED &&
            chunkUsedSize s'.mem (linuxPage + 16) == 64 &&
            Asan.addressIsPoisoned linuxHeap.asan.mapping.toLayout s'.shadow
              (linuxPage + 40)))) = true := by
    decide +kernel
  obtain ⟨s₁, h₁, hrun⟩ := exists_of_any hrun
  rw [Bool.and_eq_true, Bool.and_eq_true, beq_iff_eq, beq_iff_eq] at hrun
  obtain ⟨⟨hregions, hblocks⟩, hrun⟩ := hrun
  obtain ⟨s, h₂, hrun⟩ := exists_of_any hrun
  rw [Bool.and_eq_true, Bool.and_eq_true, beq_iff_eq] at hrun
  have hmap : Step linuxHeap (Heap.init (fun _ => 0) (fun _ => 0)) s₁ := by
    refine ⟨.onMap linuxPage 4096, ⟨by decide, by decide, by decide, by decide, ?_, ?_⟩, trivial, h₁⟩
    · intro x h1 h2
      refine (Asan.Mapping.linuxX64_addrIsInMem x).mpr (Or.inr ?_)
      unfold linuxPage at h1 h2
      omega
    · simp [Heap.init]
  have hmalloc : Step linuxHeap s₁ s :=
    ⟨.allocate malloc64, malloc64_ok hregions hblocks, trivial, h₂⟩
  exact ⟨s, (Relation.ReflTransGen.single hmap).tail hmalloc, hrun.1.1, hrun.1.2, hrun.2⟩

/-- `malloc(64)` and `free`: the chunk is in quarantine, and the shadow tracks the heap. -/
theorem heap_shadow_sound_free : ∃ s, linuxHeap.Settings ∧ Relation.ReflTransGen (Step linuxHeap)
      (Heap.init (fun _ => 0) (fun _ => 0)) s ∧ s.quarantine = [linuxPage + 16] ∧
    Sound linuxHeap s := by
  obtain ⟨s, hreach, hblocks, hfree, -⟩ := exists_malloc64
  obtain ⟨s', hstep, hq⟩ := exists_of_any hfree
  have hreach' : Relation.ReflTransGen (Step linuxHeap) (Heap.init (fun _ => 0) (fun _ => 0)) s' := by
    refine hreach.tail ⟨.deallocate (linuxPage + 32) 16 2, trivial, ?_, hstep⟩
    exact Or.inr (Or.inl ⟨_, by rw [hblocks]; exact List.mem_cons_self, rfl⟩)
  exact ⟨s', linuxHeap_settings, hreach', by simpa using hq,
    heap_shadow_sound linuxHeap linuxHeap_settings _ _ s' hreach'⟩

/-- `free` of the pointer 8 bytes after the one that `malloc` has returned: the allocation context,
stack 2 of thread 16, is taken for the header of an allocated chunk of 16 bytes, which are poisoned in
the middle of the chunk that is still allocated. -/
theorem heap_shadow_unsound_free : ∃ s, Relation.ReflTransGen (EnvStep linuxHeap)
      (Heap.init (fun _ => 0) (fun _ => 0)) s ∧ ¬ Sound linuxHeap s := by
  obtain ⟨s, hreach, hblocks, -, hfree⟩ := exists_malloc64
  obtain ⟨s', hstep, hs'⟩ := exists_of_any hfree
  have hreach' : Relation.ReflTransGen (EnvStep linuxHeap)
      (Heap.init (fun _ => 0) (fun _ => 0)) s' := by
    have henv : ∀ s₁ s₂, Step linuxHeap s₁ s₂ → EnvStep linuxHeap s₁ s₂ := by
      rintro s₁ s₂ ⟨e, henv, -, he⟩
      exact ⟨e, henv, he⟩
    exact (Relation.ReflTransGen.mono henv _ _ hreach).tail
      ⟨.deallocate (linuxPage + 40) 16 2, trivial, hstep⟩
  refine ⟨s', hreach', fun hsound => ?_⟩
  simp only [Bool.and_eq_true, beq_iff_eq] at hs'
  obtain ⟨⟨⟨hblocks', hstate⟩, hused⟩, hpoisoned⟩ := hs'
  have hmem : (⟨linuxPage, 96, true, linuxPage, 96, linuxPage + 16⟩ : Block) ∈ s'.blocks := by
    rw [hblocks']
    exact List.mem_cons_self
  have hiff := hsound.allocated _ hmem hstate (linuxPage + 40) (by decide)
  have huser : beg (linuxPage + 16) ≤ linuxPage + 40 ∧
      linuxPage + 40 < beg (linuxPage + 16) + chunkUsedSize s'.mem (linuxPage + 16) := by
    rw [hused]
    decide
  rw [hiff.mpr huser] at hpoisoned
  exact absurd hpoisoned (by decide)

end Tasan.Allocator
