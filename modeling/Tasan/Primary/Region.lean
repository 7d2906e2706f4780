import Mathlib

/-!
# The regions of the primary allocator

`SizeClassAllocator64` gives each size class a region of the address space:

  UserChunk1 ... UserChunkN <gap> MetaChunkN ... MetaChunk1 FreeArray

The free array is a stack of the chunks that are neither in use nor in a cache, as 4-byte offsets in
units of 16 bytes. It is refilled by `PopulateFreeArray`, which maps more memory and pushes the new
chunks so that the lowest one comes out first. A call of `mmap` is a parameter here: whether it
succeeds is up to the system.
-/

namespace Tasan.Primary

/-! ## Blocks of an array -/

/-- The first `n` elements of an array. -/
def slots (a : ℕ → ℕ) (n : ℕ) : List ℕ := (List.range n).map a

/-- `for (uptr i = 0; i < n; i++) dst[beg + i] = src[i]`. -/
def copyBlock (dst : ℕ → ℕ) (beg : ℕ) (src : ℕ → ℕ) : ℕ → ℕ → ℕ
  | 0 => dst
  | n + 1 => Function.update (copyBlock dst beg src n) (beg + n) (src n)

theorem slots_add (a : ℕ → ℕ) (m n : ℕ) :
    slots a (m + n) = slots a m ++ slots (fun i => a (m + i)) n := by
  rw [slots, List.range_add, List.map_append, List.map_map]
  rfl

theorem slots_congr {a b : ℕ → ℕ} {n : ℕ} (h : ∀ i, i < n → a i = b i) : slots a n = slots b n :=
  List.map_congr_left fun i hi => h i (List.mem_range.mp hi)

theorem copyBlock_apply (dst : ℕ → ℕ) (beg : ℕ) (src : ℕ → ℕ) (n i : ℕ) :
    copyBlock dst beg src n i = if beg ≤ i ∧ i < beg + n then src (i - beg) else dst i := by
  induction n with
  | zero => rw [copyBlock, if_neg (by omega)]
  | succ n ih =>
    rw [copyBlock]
    rcases eq_or_ne i (beg + n) with rfl | hi
    · rw [Function.update_self, if_pos (by omega), Nat.add_sub_cancel_left]
    · rw [Function.update_of_ne hi, ih]
      exact if_congr (by omega) rfl rfl

theorem slots_copyBlock (dst : ℕ → ℕ) (beg : ℕ) (src : ℕ → ℕ) (n : ℕ) :
    slots (copyBlock dst beg src n) (beg + n) = slots dst beg ++ slots src n := by
  rw [slots_add]
  congr 1
  · refine slots_congr fun i hi => ?_
    rw [copyBlock_apply, if_neg (by omega)]
  · refine slots_congr fun i hi => ?_
    rw [copyBlock_apply, if_pos (by omega), Nat.add_sub_cancel_left]

theorem slots_getD (l : List ℕ) : slots (fun i => l.getD i 0) l.length = l := by
  refine List.ext_getElem (by simp [slots]) fun i _ hi => ?_
  simp only [slots, List.getElem_map, List.getElem_range, List.getD_eq_getElem?_getD,
    List.getElem?_eq_getElem hi, Option.getD_some]

/-! ## `RandomShuffle` -/

/-- `Rand`: the state after it. -/
def randState (state : ℕ) : ℕ := (state * 1103515245 + 12345) % 2^32

/-- The loop of `RandomShuffle`, from `i` down to 1, for any generator. -/
def randomShuffleLoop (next : ℕ → ℕ) (beg : ℕ) : ℕ → (ℕ → ℕ) → ℕ → (ℕ → ℕ) × ℕ
  | 0, a, state => (a, state)
  | i + 1, a, state =>
    let state := next state
    let j := (state >>> 16) % (i + 2)
    randomShuffleLoop next beg i (a ∘ Equiv.swap (beg + (i + 1)) (beg + j)) state

/-- `RandomShuffle`, on `n` elements from `beg` on. Its parameter `n` is a `u32`. -/
def randomShuffle (a : ℕ → ℕ) (beg n state : ℕ) : (ℕ → ℕ) × ℕ :=
  if n % 2^32 ≤ 1 then (a, state) else randomShuffleLoop randState beg (n % 2^32 - 1) a state

theorem slots_swap_perm (a : ℕ → ℕ) {n i j : ℕ} (hi : i < n) (hj : j < n) :
    (slots (a ∘ Equiv.swap i j) n).Perm (slots a n) := by
  have hrange : ((List.range n).map (Equiv.swap i j)).Perm (List.range n) := by
    rw [List.perm_ext_iff_of_nodup (List.nodup_range.map (Equiv.swap i j).injective)
      List.nodup_range]
    intro k
    simp only [List.mem_map, List.mem_range]
    constructor
    · rintro ⟨l, hl, rfl⟩
      rw [Equiv.swap_apply_def]
      split_ifs <;> assumption
    · intro hk
      refine ⟨Equiv.swap i j k, ?_, Equiv.swap_apply_self i j k⟩
      rw [Equiv.swap_apply_def]
      split_ifs <;> assumption
  unfold slots
  rw [← List.map_map]
  exact hrange.map a

/-- The shuffle keeps the elements of the block, and does not touch what is before it. -/
theorem randomShuffleLoop_perm (next : ℕ → ℕ) (beg : ℕ) {n i : ℕ} (h : i < n) (a : ℕ → ℕ) (state : ℕ) :
    (∀ k, k < beg → (randomShuffleLoop next beg i a state).1 k = a k) ∧
      (slots (fun k => (randomShuffleLoop next beg i a state).1 (beg + k)) n).Perm
        (slots (fun k => a (beg + k)) n) := by
  induction i generalizing a state with
  | zero => exact ⟨fun _ _ => rfl, List.Perm.refl _⟩
  | succ i ih =>
    rw [randomShuffleLoop]
    have hj : (next state >>> 16) % (i + 2) < n :=
      (Nat.mod_lt _ (Nat.succ_pos _)).trans_le h
    generalize (next state >>> 16) % (i + 2) = j at hj
    generalize next state = state'
    obtain ⟨hframe, hperm⟩ := ih (by omega) (a ∘ Equiv.swap (beg + (i + 1)) (beg + j)) state'
    refine ⟨fun k hk => (hframe k hk).trans ?_, hperm.trans ?_⟩
    · rw [Function.comp_apply, Equiv.swap_apply_of_ne_of_ne (by omega) (by omega)]
    · -- the swap, seen from the beginning of the block
      have hswap : (fun k => (a ∘ Equiv.swap (beg + (i + 1)) (beg + j)) (beg + k)) =
          (fun k => a (beg + k)) ∘ Equiv.swap (i + 1) j := by
        funext k
        simp only [Function.comp_apply, Equiv.swap_apply_def, Nat.add_left_cancel_iff]
        split_ifs <;> rfl
      rw [hswap]
      exact slots_swap_perm _ h hj

theorem slots_randomShuffle_perm (a : ℕ → ℕ) (beg n state : ℕ) :
    (∀ k, k < beg → (randomShuffle a beg n state).1 k = a k) ∧
      (slots (randomShuffle a beg n state).1 (beg + n)).Perm (slots a (beg + n)) := by
  unfold randomShuffle
  split_ifs with h
  · exact ⟨fun _ _ => rfl, List.Perm.refl _⟩
  · have hlt : n % 2^32 - 1 < n := by
      have := Nat.mod_le n (2^32)
      omega
    obtain ⟨hframe, hperm⟩ := randomShuffleLoop_perm _ beg hlt a state
    refine ⟨hframe, ?_⟩
    rw [slots_add, slots_add, slots_congr hframe]
    exact hperm.append_left _

end Tasan.Primary
