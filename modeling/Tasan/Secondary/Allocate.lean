import Tasan.Allocator.Layout
import Tasan.Secondary.Model

/-!
# The size of a mapping

`Allocate` adds up to three terms and looks once, at the end, whether the sum wrapped. The sum that the
code computes is the true one modulo `2^w` (`mapSize_eq`), whichever of the additions wraps. The true sum
is less than two times `2^w`, and exceeds the size by less than `2^w`, so that the sum has wrapped exactly
when it is less than the size (`mapSize_lt_iff`).

The slack of one alignment is enough for every address of the mapping: the first page is aligned to pages,
so that where the alignment is greater than a page less than the alignment is skipped, and where it is not
nothing is.
-/

namespace Tasan.Secondary

open Allocator (ceil ceil_bounds dvd_ceil ceil_le)

variable {P : Params}

/-- The map size, without wrapping: the size in pages, a page for the header, and the alignment if it is
greater than a page. -/
def Params.trueMapSize (P : Params) (size alignment : ℕ) : ℕ :=
  ceil size P.page + P.page + if P.page < alignment then alignment else 0

/-- What the system promises of a mapping: it starts at a page, and does not wrap. -/
def Params.Maps (P : Params) (mmap : ℕ → ℕ) : Prop :=
  ∀ mapSize, mmap mapSize ≠ 0 → P.page ∣ mmap mapSize ∧ mmap mapSize + mapSize < 2^P.w

/-- The user's memory at `res` is in its place in the mapping. -/
structure Params.Placed (P : Params) (mapBeg mapSize size alignment res : ℕ) : Prop where
  /-- The alignment is what the user asked for. -/
  aligned : alignment ∣ res
  /-- The user's memory starts at a page. -/
  paged : P.page ∣ res
  /-- The page of the header is in the mapping. -/
  header : mapBeg + P.page ≤ res
  /-- So is the user's memory. -/
  fits : res + size ≤ mapBeg + mapSize

/-! ## Words -/

theorem Params.page_pos (P : Params) : 0 < P.page := Nat.two_pow_pos _

theorem Params.two_page_le (P : Params) : 2 * P.page ≤ 2^P.w := by
  calc 2 * P.page = 2^(P.pageLog + 1) := by rw [pow_succ, Params.page, Nat.mul_comm]
    _ ≤ 2^P.w := Nat.pow_le_pow_right (by norm_num) P.pageLog_lt

/-- Rounding up to a power of two gives the least multiple modulo `2^w`. -/
theorem roundUpTo_eq_ceil_mod {w g size : ℕ} (hg : g < w) (hsize : size < 2^w) :
    Word.roundUpTo w size (2^g) = ceil size (2^g) % 2^w := by
  have hpos : 0 < 2^g := Nat.two_pow_pos g
  have hpow : 2^g < 2^w := Nat.pow_lt_pow_right (by norm_num) hg
  have hdvd : 2^g ∣ 2^w := pow_dvd_pow 2 hg.le
  have hle : ceil size (2^g) ≤ 2^w := ceil_le hpos hdvd hsize.le
  obtain ⟨hlow, hup⟩ := ceil_bounds (m := size) hpos
  rw [Word.roundUpTo_two_pow hg]
  rcases Nat.lt_or_ge (size + 2^g - 1) (2^w) with hlt | hge
  · -- The sum does not wrap, and the least multiple is not above it.
    have hdiv := Nat.div_mul_le_self (size + 2^g - 1) (2^g)
    rw [Nat.mod_eq_of_lt hlt, ceil, Nat.mod_eq_of_lt (by omega)]
  · -- The sum wraps: the least multiple is `2^w`, and less than a boundary is left.
    have hceil : ceil size (2^g) = 2^w := by
      refine le_antisymm hle ?_
      rw [ceil]
      calc 2^w = 2^w / 2^g * 2^g := (Nat.div_mul_cancel hdvd).symm
        _ ≤ (size + 2^g - 1) / 2^g * 2^g := Nat.mul_le_mul_right _ (Nat.div_le_div_right hge)
    have hrest : (size + 2^g - 1) % 2^w = size + 2^g - 1 - 2^w := by
      rw [Nat.mod_eq_sub_mod hge, Nat.mod_eq_of_lt (by omega)]
    rw [hceil, Nat.mod_self, hrest, Nat.div_eq_of_lt (by omega), Nat.zero_mul]

theorem mapSize_eq {size : ℕ} (hsize : size < 2^P.w) (alignment : ℕ) :
    P.mapSize size alignment = P.trueMapSize size alignment % 2^P.w := by
  have hround : P.roundUpMapSize size = (ceil size P.page + P.page) % 2^P.w := by
    rw [Params.roundUpMapSize, Params.page, roundUpTo_eq_ceil_mod P.pageLog_lt hsize, Word.add,
      Nat.mod_add_mod]
  unfold Params.mapSize Params.trueMapSize
  dsimp only
  split_ifs with h
  · rw [hround, Word.add, Nat.mod_add_mod]
  · exact hround

theorem Params.two_page_le_alignment {k : ℕ} (h : P.page < 2^k) : 2 * P.page ≤ 2^k := by
  have hlt : P.pageLog < k := (Nat.pow_lt_pow_iff_right (by norm_num)).mp h
  calc 2 * P.page = 2^(P.pageLog + 1) := by rw [pow_succ, Params.page, Nat.mul_comm]
    _ ≤ 2^k := Nat.pow_le_pow_right (by norm_num) hlt

theorem two_mul_two_pow_le {k w : ℕ} (h : k < w) : 2 * 2^k ≤ 2^w := by
  calc 2 * 2^k = 2^(k + 1) := by rw [pow_succ, Nat.mul_comm]
    _ ≤ 2^w := Nat.pow_le_pow_right (by norm_num) h

theorem trueMapSize_lt (size : ℕ) {k : ℕ} (hk : k < P.w) :
    P.trueMapSize size (2^k) < size + 2^P.w := by
  have hbounds := ceil_bounds (m := size) P.page_pos
  have hpage := P.two_page_le
  have halign := two_mul_two_pow_le hk
  unfold Params.trueMapSize
  split_ifs with h
  · have := Params.two_page_le_alignment h
    omega
  · omega

theorem size_lt_trueMapSize (size alignment : ℕ) : size < P.trueMapSize size alignment := by
  have hbounds := ceil_bounds (m := size) P.page_pos
  have hpage := P.page_pos
  unfold Params.trueMapSize
  omega

theorem mapSize_lt_iff {size k : ℕ} (hsize : size < 2^P.w) (hk : k < P.w) :
    P.mapSize size (2^k) < size ↔ 2^P.w ≤ P.trueMapSize size (2^k) := by
  have hlt := trueMapSize_lt size hk
  have hgt := size_lt_trueMapSize (P := P) size (2^k)
  rw [mapSize_eq hsize]
  constructor
  · intro h
    by_contra hword
    rw [Nat.mod_eq_of_lt (by omega)] at h
    omega
  · intro h
    rw [Nat.mod_eq_sub_mod h, Nat.mod_eq_of_lt (by omega)]
    omega

/-! ## The place in the mapping -/

/-- The user's memory starts at the first multiple of the alignment from the second page on. -/
theorem userBeg_eq {mapBeg k : ℕ} (hk : k < P.w) (hlt : mapBeg + P.page + 2^k ≤ 2^P.w ∨
    mapBeg + P.page < 2^P.w ∧ 2^k ∣ mapBeg + P.page) :
    P.userBeg mapBeg (2^k) = ceil (mapBeg + P.page) (2^k) := by
  have hpos : 0 < 2^k := Nat.two_pow_pos k
  have hword : mapBeg + P.page < 2^P.w := by omega
  have hmod := Nat.mod_lt (mapBeg + P.page) hpos
  have hdiv := Nat.div_add_mod' (mapBeg + P.page) (2^k)
  unfold Params.userBeg
  dsimp only
  rw [Word.add_of_lt hword, Word.and_mask hk]
  by_cases hrest : (mapBeg + P.page) % 2^k = 0
  · rw [if_neg (not_not.mpr hrest)]
    have hdvd : 2^k ∣ mapBeg + P.page := Nat.dvd_of_mod_eq_zero hrest
    exact le_antisymm (ceil_bounds hpos).1 (ceil_le hpos hdvd le_rfl)
  · have hroom : mapBeg + P.page + 2^k ≤ 2^P.w :=
      hlt.resolve_right fun h => hrest (Nat.mod_eq_zero_of_dvd h.2)
    have hpow : 2^k < 2^P.w := Nat.pow_lt_pow_right (by norm_num) hk
    rw [if_pos hrest, Word.sub_of_le hmod.le hpow, Word.add_of_lt (by omega)]
    -- Both are multiples of the alignment in the same interval of its length.
    have hnext : 2^k ∣ mapBeg + P.page + (2^k - (mapBeg + P.page) % 2^k) := by
      refine ⟨(mapBeg + P.page) / 2^k + 1, ?_⟩
      rw [Nat.mul_add, Nat.mul_comm]
      omega
    have hle := ceil_le hpos hnext (by omega : mapBeg + P.page ≤ _)
    have hlow := (ceil_bounds (m := mapBeg + P.page) hpos).1
    refine le_antisymm ?_ hle
    by_contra hgap
    obtain ⟨q, hq⟩ := dvd_ceil (mapBeg + P.page) (2^k)
    obtain ⟨r, hr⟩ := hnext
    rw [hq, hr, not_le] at hgap
    have hqr : q + 1 ≤ r := Nat.lt_of_mul_lt_mul_left hgap
    have := Nat.mul_le_mul_left (2^k) hqr
    rw [Nat.mul_add, Nat.mul_one, ← hq, ← hr] at this
    omega

/-- The user's memory finds its place in every mapping of the true map size. -/
theorem placed_userBeg {mapBeg size k : ℕ} (hk : k < P.w) (hpage : P.page ∣ mapBeg)
    (hmap : mapBeg + P.trueMapSize size (2^k) < 2^P.w) :
    P.Placed mapBeg (P.trueMapSize size (2^k)) size (2^k) (P.userBeg mapBeg (2^k)) := by
  have hpos : 0 < 2^k := Nat.two_pow_pos k
  have hsize := ceil_bounds (m := size) P.page_pos
  have hfirst : P.page ∣ mapBeg + P.page := Dvd.dvd.add hpage dvd_rfl
  obtain ⟨hlow, hup⟩ := ceil_bounds (m := mapBeg + P.page) hpos
  unfold Params.trueMapSize at hmap ⊢
  split_ifs at hmap ⊢ with hlt
  · -- The alignment is greater than a page, and the slack is in the map size.
    have hk' : P.pageLog ≤ k := ((Nat.pow_lt_pow_iff_right (by norm_num)).mp hlt).le
    rw [userBeg_eq hk (Or.inl (by omega))]
    exact { aligned := dvd_ceil _ _
            paged := (pow_dvd_pow 2 hk').trans (dvd_ceil _ _)
            header := hlow
            fits := by omega }
  · -- Every page is aligned.
    have hk' : k ≤ P.pageLog := (Nat.pow_le_pow_iff_right (by norm_num)).mp (not_lt.mp hlt)
    have hdvd : 2^k ∣ mapBeg + P.page := (pow_dvd_pow 2 hk').trans hfirst
    have heq : ceil (mapBeg + P.page) (2^k) = mapBeg + P.page :=
      le_antisymm (ceil_le hpos hdvd le_rfl) hlow
    rw [userBeg_eq hk (Or.inr ⟨by omega, hdvd⟩), heq]
    exact { aligned := hdvd
            paged := hfirst
            header := le_rfl
            fits := by omega }

theorem getHeader_of_dvd {p : ℕ} (hdvd : P.page ∣ p) (hle : P.page ≤ p) (hword : p < 2^P.w) :
    P.getHeader p = .ok (p - P.page) := by
  have haligned : Word.isAligned P.w p P.page = true :=
    (Word.isAligned_two_pow P.pageLog_lt).mpr (Nat.mod_eq_zero_of_dvd hdvd)
  rw [Params.getHeader, check_of haligned, ok_bind, Word.sub_of_le hle hword]
  rfl

/-- No `CHECK` fails where the user's memory is in its place. -/
theorem place_of_placed (a : LargeMmapAllocator) {mapBeg mapSize size k : ℕ} (hk : k < P.w)
    (hpage : P.page ∣ mapBeg) (hsize : size < mapSize) (hmap : mapBeg + mapSize < 2^P.w)
    (hplaced : P.Placed mapBeg mapSize size (2^k) (P.userBeg mapBeg (2^k))) :
    a.place P mapBeg mapSize size (2^k) =
      if P.ensureSpace a.nChunks then
        .ok (.chunk (P.userBeg mapBeg (2^k)), a.record P (P.userBeg mapBeg (2^k) - P.page)
          { mapBeg, mapSize, size, chunkIdx := a.nChunks } mapSize.log2)
      else .error .space := by
  obtain ⟨haligned, hpaged, hheader, hfits⟩ := hplaced
  unfold LargeMmapAllocator.place
  dsimp only
  generalize P.userBeg mapBeg (2^k) = res at *
  have hbeg : Word.isAligned P.w mapBeg P.page = true :=
    (Word.isAligned_two_pow P.pageLog_lt).mpr (Nat.mod_eq_zero_of_dvd hpage)
  have hres : Word.isAligned P.w res (2^k) = true :=
    (Word.isAligned_two_pow hk).mpr (Nat.mod_eq_zero_of_dvd haligned)
  have hres' : Word.isAligned P.w res P.page = true :=
    (Word.isAligned_two_pow P.pageLog_lt).mpr (Nat.mod_eq_zero_of_dvd hpaged)
  have hlog : mapSize.log2 < 64 := by
    refine (Nat.log2_lt (by omega)).mpr ?_
    calc mapSize < 2^P.w := by omega
      _ ≤ 2^64 := Nat.pow_le_pow_right (by norm_num) P.w_le
  rw [Word.add_of_lt hmap, Word.add_of_lt (by omega : res + size < 2^P.w), check_of hbeg,
    check_of hres, check_of hres', check_of (decide_eq_true (by omega)),
    check_of (decide_eq_true hfits), getHeader_of_dvd hpaged (by omega) (by omega),
    check_of (decide_eq_true (by omega)), check_of (decide_eq_true hlog)]
  rfl

/-! ## The allocation -/

/-- A 32-bit address space with pages of 4096 bytes, and an array that never fills up. -/
def page32 : Params where
  w := 32
  w_le := by norm_num
  pageLog := 12
  pageLog_lt := by norm_num
  ensureSpace _ := true

/-- The allocator before its first chunk. -/
def LargeMmapAllocator.init : LargeMmapAllocator where
  chunks _ := 0
  nChunks := 0
  chunksSorted := false
  stats := ⟨0, 0, 0, 0, fun _ => 0⟩
  headers _ := default

theorem allocate_two_pow (a : LargeMmapAllocator) (mmap : ℕ → ℕ) (size : ℕ) {k : ℕ} (hk : k < P.w) :
    a.allocate P mmap size (2^k) =
      if P.mapSize size (2^k) < size then .ok (.overflow (P.mapSize size (2^k)) (2^k), a)
      else if mmap (P.mapSize size (2^k)) = 0 then .ok (.unmapped, a)
      else a.place P (mmap (P.mapSize size (2^k))) (P.mapSize size (2^k)) size (2^k) := by
  have hpow : Word.isPowerOfTwo P.w (2^k) = true :=
    (Word.isPowerOfTwo_iff (Nat.pow_lt_pow_right (by norm_num) hk)).mpr (Or.inr ⟨k, hk, rfl⟩)
  rw [LargeMmapAllocator.allocate, check_of hpow]
  rfl

theorem allocate_of_lt (a : LargeMmapAllocator) (mmap : ℕ → ℕ) {size k : ℕ} (hsize : size < 2^P.w)
    (hk : k < P.w) (hword : P.trueMapSize size (2^k) < 2^P.w) :
    a.allocate P mmap size (2^k) =
      if mmap (P.trueMapSize size (2^k)) = 0 then .ok (.unmapped, a)
      else a.place P (mmap (P.trueMapSize size (2^k))) (P.trueMapSize size (2^k)) size (2^k) := by
  have hguard : ¬ P.mapSize size (2^k) < size :=
    fun h => absurd ((mapSize_lt_iff hsize hk).mp h) (not_le.mpr hword)
  have heq : P.mapSize size (2^k) = P.trueMapSize size (2^k) := by
    rw [mapSize_eq hsize, Nat.mod_eq_of_lt hword]
  rw [allocate_two_pow a mmap size hk, if_neg hguard, heq]

/-- A system that has memory for one map size, at one address. -/
def mapOnce (mapSize mapBeg m : ℕ) : ℕ := if m = mapSize then mapBeg else 0

theorem maps_mapOnce {mapSize mapBeg : ℕ} (hpage : P.page ∣ mapBeg) (hlt : mapBeg + mapSize < 2^P.w) :
    P.Maps (mapOnce mapSize mapBeg) := by
  intro m hm
  have heq : m = mapSize := by_contra fun h => hm (if_neg h)
  rw [mapOnce, if_pos heq, heq]
  exact ⟨hpage, hlt⟩

/-- When the true map size is a word and the system has memory, the user's memory is in its place in the
mapping, and only `EnsureSpace` can fail. -/
theorem allocate_chunk (a : LargeMmapAllocator) (mmap : ℕ → ℕ) {size k : ℕ} (hsize : size < 2^P.w)
    (hk : k < P.w) (hmmap : P.Maps mmap) (hword : P.trueMapSize size (2^k) < 2^P.w)
    (hbeg : mmap (P.trueMapSize size (2^k)) ≠ 0) :
    let mapBeg := mmap (P.trueMapSize size (2^k))
    let res := P.userBeg mapBeg (2^k)
    P.Placed mapBeg (P.trueMapSize size (2^k)) size (2^k) res ∧
      a.allocate P mmap size (2^k) =
        if P.ensureSpace a.nChunks then
          .ok (.chunk res, a.record P (res - P.page)
            { mapBeg, mapSize := P.trueMapSize size (2^k), size, chunkIdx := a.nChunks }
            (P.trueMapSize size (2^k)).log2)
        else .error .space := by
  obtain ⟨hpage, hmap⟩ := hmmap _ hbeg
  have hplaced := placed_userBeg hk hpage hmap
  refine ⟨hplaced, ?_⟩
  calc a.allocate P mmap size (2^k)
    _ = a.place P (mmap (P.trueMapSize size (2^k))) (P.trueMapSize size (2^k)) size (2^k) := by
        rw [allocate_of_lt a mmap hsize hk hword, if_neg hbeg]
    _ = _ := place_of_placed a hk hpage (size_lt_trueMapSize size (2^k)) hmap hplaced

/-- `Allocate` warns of an overflow and returns null exactly when the true map size is not a word. When it
is one, `Allocate` returns null without a warning if the system has no memory; otherwise the user's memory
is in its place in the mapping, and no `CHECK` of `Allocate` fails: what is left is whether the array has
room for the chunk. -/
theorem allocate_spec (P : Params) (a : LargeMmapAllocator) (mmap : ℕ → ℕ) (size k : ℕ)
    (hsize : size < 2^P.w) (hk : k < P.w) (hmmap : P.Maps mmap) :
    ((∃ mapSize a', a.allocate P mmap size (2^k) = .ok (.overflow mapSize (2^k), a')) ↔
      2^P.w ≤ P.trueMapSize size (2^k)) ∧
    (P.trueMapSize size (2^k) < 2^P.w → mmap (P.trueMapSize size (2^k)) = 0 →
      a.allocate P mmap size (2^k) = .ok (.unmapped, a)) ∧
    (P.trueMapSize size (2^k) < 2^P.w → mmap (P.trueMapSize size (2^k)) ≠ 0 →
      ∃ res, P.Placed (mmap (P.trueMapSize size (2^k))) (P.trueMapSize size (2^k)) size (2^k) res ∧
        a.allocate P mmap size (2^k) =
          if P.ensureSpace a.nChunks then
            .ok (.chunk res, a.record P (res - P.page)
              { mapBeg := mmap (P.trueMapSize size (2^k)), mapSize := P.trueMapSize size (2^k), size,
                chunkIdx := a.nChunks } (P.trueMapSize size (2^k)).log2)
          else .error .space) := by
  have hunmapped : P.trueMapSize size (2^k) < 2^P.w → mmap (P.trueMapSize size (2^k)) = 0 →
      a.allocate P mmap size (2^k) = .ok (.unmapped, a) := fun hword hbeg => by
    rw [allocate_of_lt a mmap hsize hk hword, if_pos hbeg]
  have hchunk := allocate_chunk a mmap hsize hk hmmap
  refine ⟨⟨fun ⟨mapSize, a', h⟩ => ?_, fun h => ?_⟩, hunmapped,
    fun hword hbeg => ⟨_, hchunk hword hbeg⟩⟩
  · -- A word as the map size leads to one of the other two results.
    by_contra hword
    rcases eq_or_ne (mmap (P.trueMapSize size (2^k))) 0 with hbeg | hbeg
    · rw [hunmapped (not_le.mp hword) hbeg] at h
      cases h
    · rw [(hchunk (not_le.mp hword) hbeg).2] at h
      split_ifs at h
      cases h
  · exact ⟨_, a, by rw [allocate_two_pow a mmap size hk, if_pos ((mapSize_lt_iff hsize hk).mpr h)]⟩

/-- The theorem for 5000 bytes at a multiple of 8192, in a mapping at `2^28`. -/
theorem allocate_spec_page :
    ∃ res, page32.Placed (2^28) (page32.trueMapSize 5000 (2^13)) 5000 (2^13) res ∧
      LargeMmapAllocator.init.allocate page32 (mapOnce 20480 (2^28)) 5000 (2^13) =
        .ok (.chunk res, LargeMmapAllocator.init.record page32 (res - page32.page)
          { mapBeg := 2^28, mapSize := page32.trueMapSize 5000 (2^13), size := 5000, chunkIdx := 0 }
          (page32.trueMapSize 5000 (2^13)).log2) :=
  (allocate_spec page32 .init (mapOnce 20480 (2^28)) 5000 13 (by decide) (by decide)
    (maps_mapOnce (by decide) (by decide))).2.2 (by decide) (by decide)

end Tasan.Secondary
