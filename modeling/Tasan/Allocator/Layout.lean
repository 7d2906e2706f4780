import Tasan.Allocator.Model

/-!
# When the layout is right

`Allocate` sums the rounded size, the redzones and the alignment before it compares the sum with the
limits, and the sum wraps. `Config.space` is the same sum without the wrap. Where it stays below
`2^w` the layout is right in every block that is aligned to 8, except that on 64 bits a redzone of 16
bytes has no room for the `LargeChunkHeader` when the user's memory is moved up by 8 to reach its
alignment. Where it does not, the block that is asked for is too short: `allocate_layout_iff` says
that this is all that goes wrong.
-/

namespace Tasan.Allocator

@[simp]
theorem ok_bind {α β : Type} (a : α) (f : α → Except Check β) : (Except.ok a >>= f) = f a := rfl

theorem require_of {c : Check} {b : Bool} (h : b = true) : require c b = .ok () := by
  rw [require, if_pos h]

theorem require_of_not {c : Check} {b : Bool} (h : b = false) : require c b = .error c := by
  rw [require, h]
  rfl

/-! ## Rounding -/

/-- The least multiple of `a` that is not below `m`. -/
def ceil (m a : ℕ) : ℕ := (m + a - 1) / a * a

theorem ceil_bounds {m a : ℕ} (ha : 0 < a) : m ≤ ceil m a ∧ ceil m a < m + a := by
  have h1 := Nat.div_add_mod' (m + a - 1) a
  have h2 := Nat.mod_lt (m + a - 1) ha
  unfold ceil
  omega

theorem dvd_ceil (m a : ℕ) : a ∣ ceil m a := Dvd.intro_left _ rfl

theorem ceil_le {m a x : ℕ} (ha : 0 < a) (hx : a ∣ x) (h : m ≤ x) : ceil m a ≤ x := by
  obtain ⟨q, rfl⟩ := hx
  have h1 : (m + a - 1) / a ≤ q := by
    rw [Nat.div_le_iff_le_mul_add_pred ha]
    omega
  unfold ceil
  rw [Nat.mul_comm a q]
  exact Nat.mul_le_mul_right a h1

/-! ## Redzones -/

variable (c : Config)

/-- The redzone of a size: what the size asks for, between the least and the greatest one. -/
def Config.redzone (size : ℕ) : ℕ := min (max (16 * 2^sizeRZLog size) c.minRedzone) c.maxRedzone

theorem Config.w_cases : c.w = 32 ∨ c.w = 64 := by
  unfold Config.w Wordsize.bits
  cases c.wordsize <;> simp

theorem log2_two_pow {w i : ℕ} (h : i < w) : log2 w (2^i) = .ok i := by
  have hpow : Word.isPowerOfTwo w (2^i) = true :=
    (Word.isPowerOfTwo_iff (Nat.pow_lt_pow_right (by norm_num) h)).mpr (Or.inr ⟨i, h, rfl⟩)
  simp only [log2, require_of hpow, ok_bind, Nat.log2_two_pow]
  rfl

theorem rzSize2Log_two_pow {w i : ℕ} (hw : 11 < w) (h4 : 4 ≤ i) (h11 : i ≤ 11) :
    rzSize2Log w (2^i) = .ok (i - 4) := by
  have hmin : 16 ≤ 2^i := Nat.pow_le_pow_right (n := 2) (i := 4) (by norm_num) h4
  have hmax : 2^i ≤ 2048 := Nat.pow_le_pow_right (n := 2) (j := 11) (by norm_num) h11
  have hsize : 16 <<< (i - 4) = 2^i := by
    rw [Nat.shiftLeft_eq, show (16 : ℕ) = 2^4 by norm_num, ← Nat.pow_add, Nat.add_sub_of_le h4]
  simp only [rzSize2Log, rzLog2Size, log2_two_pow (show i < w by omega), ok_bind,
    require_of (decide_eq_true hmin), require_of (decide_eq_true hmax),
    require_of (decide_eq_true (show i - 4 < 8 by omega))]
  show (do
    require .rzRoundTrip (2^i == 16 <<< (i - 4))
    return i - 4) = _
  rw [hsize, require_of (beq_self_eq_true _)]
  rfl

theorem Config.redzones : ∃ i j, c.minRedzone = 2^i ∧ c.maxRedzone = 2^j ∧ 4 ≤ i ∧ i ≤ j ∧ j ≤ 11 := by
  have hopt := c.options
  simp only [checkOptions, Bool.and_eq_true, decide_eq_true_eq] at hopt
  obtain ⟨⟨⟨⟨h16, hle⟩, h2048⟩, hmin⟩, hmax⟩ := hopt
  have hw : (2048 : ℕ) < 2^c.wordsize.bits := by
    cases c.wordsize <;> norm_num [Wordsize.bits]
  obtain ⟨i, -, hi⟩ := ((Word.isPowerOfTwo_iff (by omega)).mp hmin).resolve_left (by omega)
  obtain ⟨j, -, hj⟩ := ((Word.isPowerOfTwo_iff (by omega)).mp hmax).resolve_left (by omega)
  rw [hi] at h16 hle
  rw [hj] at hle h2048
  refine ⟨i, j, hi, hj, ?_, ?_, ?_⟩
  · exact (Nat.pow_le_pow_iff_right (a := 2) (by norm_num)).mp (by simpa using h16)
  · exact (Nat.pow_le_pow_iff_right (a := 2) (by norm_num)).mp hle
  · exact (Nat.pow_le_pow_iff_right (a := 2) (by norm_num)).mp (by simpa using h2048)

theorem sizeRZLog_le (size : ℕ) : sizeRZLog size ≤ 7 := by
  unfold sizeRZLog
  split_ifs <;> norm_num

theorem Config.redzone_two_pow (size : ℕ) : ∃ i, 4 ≤ i ∧ i ≤ 11 ∧ c.redzone size = 2^i ∧
    c.computeRZLog size = .ok (i - 4) := by
  obtain ⟨i, j, hi, hj, h4, hij, h11⟩ := c.redzones
  have hw : 11 < c.w := by
    rcases c.w_cases with h | h <;> omega
  have h7 := sizeRZLog_le size
  have hmono : Monotone fun x => 2^x := fun x y h => Nat.pow_le_pow_right (n := 2) (by norm_num) h
  refine ⟨min (max (sizeRZLog size + 4) i) j, by omega, by omega, ?_, ?_⟩
  · unfold Config.redzone
    rw [hi, hj, hmono.map_min, hmono.map_max, Nat.pow_add, Nat.mul_comm (2^sizeRZLog size)]
  · have hhdr : rzSize2Log c.w kChunkHeaderSize = .ok 0 :=
      rzSize2Log_two_pow (i := 4) hw le_rfl (by norm_num)
    simp only [Config.computeRZLog, hhdr, hi, hj, ok_bind, rzSize2Log_two_pow hw h4 (by omega),
      rzSize2Log_two_pow hw (by omega : 4 ≤ j) h11]
    exact congrArg Except.ok (by omega)

/-! ## The request -/

/-- `needed_size` of a request. -/
def Config.neededSize (size alignment : ℕ) : ℕ :=
  let needed := neededSizeBase c.w size alignment (c.redzone size)
  if c.canAllocate needed alignment then needed else Word.add c.w needed (c.redzone size)

/-- What the request for `size` bytes, not zero, and an alignment of 8 or more computes. -/
def Config.requestOf (size alignment alignmentLog : ℕ) : Request where
  size := size
  alignment := alignment
  alignmentLog := alignmentLog
  rzSize := c.redzone size
  neededSize := c.neededSize size alignment
  fromPrimary := c.canAllocate (neededSizeBase c.w size alignment (c.redzone size)) alignment
  tooBig := kMaxAllowedMallocSize c.wordsize < size ||
    kMaxAllowedMallocSize c.wordsize < c.neededSize size alignment || c.maxUserDefinedMallocSize < size

theorem letThrough_iff {w size alignment : ℕ} (h : alignment < 2^w) :
    LetThrough w size alignment ↔ alignment = 0 ∨ ∃ k < w, alignment = 2^k := by
  rw [← Word.isPowerOfTwo_iff h]
  simp only [LetThrough, checkMemalign, checkPosixMemalignAlignment,
    checkAlignedAllocAlignmentAndSize, Bool.and_eq_true]
  constructor
  · rintro (h | h | h)
    · exact h
    · exact h.1.2
    · exact h.1.2
  · exact Or.inl

theorem alignment_two_pow {w alignment : ℕ} (hw : 3 < w) (h : alignment = 0 ∨ ∃ k < w, alignment = 2^k) :
    ∃ k log, 3 ≤ k ∧ k < w ∧ max alignment 8 = 2^k ∧
      computeUserRequestedAlignmentLog w alignment = .ok log := by
  by_cases hlt : alignment < 8
  · refine ⟨3, 0, le_rfl, hw, by omega, ?_⟩
    rw [computeUserRequestedAlignmentLog, if_pos hlt]
  · obtain ⟨k, hk, rfl⟩ := h.resolve_left (by omega)
    have h3 : 3 ≤ k := (Nat.pow_le_pow_iff_right (a := 2) (by norm_num)).mp (by simpa using hlt)
    refine ⟨k, (if 9 < k then 9 else k) - 2, h3, hk, by omega, ?_⟩
    have hlog : (if 512 < 2^k then 512 else 2^k) = 2^(if 9 < k then 9 else k) := by
      have hiff : 512 < 2^k ↔ 9 < k := by
        rw [show 512 = 2^9 by norm_num]
        exact Nat.pow_lt_pow_iff_right (by norm_num)
      simp only [hiff]
      split_ifs <;> rfl
    have hlt' : (if 9 < k then 9 else k) < w := by
      split_ifs <;> omega
    rw [computeUserRequestedAlignmentLog, if_neg hlt, hlog, log2_two_pow hlt']
    rfl

theorem add_mod_eight {w a b : ℕ} (hw : 3 ≤ w) (ha : 8 ∣ a) (hb : 8 ∣ b) : 8 ∣ Word.add w a b := by
  have h8 : 8 ∣ 2^w := Nat.pow_dvd_pow 2 hw
  unfold Word.add
  exact (Nat.dvd_mod_iff h8).mpr (Nat.dvd_add ha hb)

theorem Config.dvd_neededSize {size k : ℕ} (h3 : 3 ≤ k) (hk : k < c.w) :
    8 ∣ c.neededSize size (2^k) := by
  obtain ⟨i, h4, -, hrz, -⟩ := c.redzone_two_pow size
  have hw : 3 ≤ c.w := by omega
  have hrz8 : 8 ∣ c.redzone size := hrz ▸ Nat.pow_dvd_pow 2 (show 3 ≤ i by omega)
  have ha8 : 8 ∣ 2^k := Nat.pow_dvd_pow 2 h3
  have hround : 8 ∣ Word.roundUpTo c.w (max size kChunkHeader2Size) (2^k) := by
    rw [Word.roundUpTo_two_pow hk]
    exact Dvd.dvd.mul_left ha8 _
  have hbase : 8 ∣ neededSizeBase c.w size (2^k) (c.redzone size) := by
    unfold neededSizeBase
    dsimp only
    split_ifs
    · exact add_mod_eight hw (add_mod_eight hw hround hrz8) ha8
    · exact add_mod_eight hw hround hrz8
  unfold Config.neededSize
  dsimp only
  split_ifs
  · exact hbase
  · exact add_mod_eight hw hbase hrz8

/-- No check fails before there is a block. -/
theorem Config.request_eq (size : ℕ) {alignment : ℕ} (h : alignment = 0 ∨ ∃ k < c.w, alignment = 2^k) :
    ∃ k log, 3 ≤ k ∧ k < c.w ∧ max alignment 8 = 2^k ∧
      c.request size alignment = .ok (c.requestOf (max size 1) (2^k) log) := by
  have hw : 11 < c.w := by
    rcases c.w_cases with h | h <;> omega
  obtain ⟨k, log, h3, hk, hmax, hlog⟩ := alignment_two_pow (by omega : 3 < c.w) h
  obtain ⟨i, h4, h11, hrz, hcomp⟩ := c.redzone_two_pow (max size 1)
  refine ⟨k, log, h3, hk, hmax, ?_⟩
  have halign : (if alignment < minAlignment then minAlignment else alignment) = 2^k := by
    rw [← hmax]
    unfold minAlignment
    split_ifs <;> omega
  have hsize : (if size = 0 then 1 else size) = max size 1 := by
    split_ifs <;> omega
  have hpow : Word.isPowerOfTwo c.w (2^k) = true :=
    (Word.isPowerOfTwo_iff (Nat.pow_lt_pow_right (by norm_num) hk)).mpr (Or.inr ⟨k, hk, rfl⟩)
  have hrzsize : rzLog2Size (i - 4) = .ok (c.redzone (max size 1)) := by
    simp only [rzLog2Size, require_of (decide_eq_true (show i - 4 < 8 by omega)), ok_bind]
    rw [hrz, Nat.shiftLeft_eq, show (16 : ℕ) = 2^4 by norm_num, ← Nat.pow_add,
      Nat.add_sub_of_le h4]
    rfl
  have haligned : Word.isAligned c.w (c.neededSize (max size 1) (2^k)) minAlignment = true := by
    unfold minAlignment
    rw [show (8 : ℕ) = 2^3 by norm_num, Word.isAligned_two_pow (by omega)]
    exact Nat.mod_eq_zero_of_dvd (c.dvd_neededSize h3 hk)
  simp only [Config.request, hlog, ok_bind, halign, hsize, require_of hpow, hcomp, hrzsize]
  unfold Config.neededSize at haligned
  rw [require_of haligned]
  rfl

/-! ## The sum without the wrap -/

/-- The least size of a block, as a sum that does not wrap. -/
def Config.space (size alignment : ℕ) : ℕ :=
  ceil (max size 8) alignment + c.redzone size + if 8 < alignment then alignment else 0

theorem Config.redzone_bounds (size : ℕ) : 16 ≤ c.redzone size ∧ c.redzone size ≤ 2048 := by
  obtain ⟨i, h4, h11, hrz, -⟩ := c.redzone_two_pow size
  rw [hrz]
  exact ⟨Nat.pow_le_pow_right (n := 2) (i := 4) (by norm_num) h4,
    Nat.pow_le_pow_right (n := 2) (j := 11) (by norm_num) h11⟩

theorem Config.neededSizeBase_eq {size k : ℕ} (h3 : 3 ≤ k) (hk : k < c.w)
    (h : c.space size (2^k) < 2^c.w) :
    neededSizeBase c.w size (2^k) (c.redzone size) = c.space size (2^k) := by
  have h8 : 8 ≤ 2^k := Nat.pow_le_pow_right (n := 2) (i := 3) (by norm_num) h3
  have hrz := c.redzone_bounds size
  have hceil := ceil_bounds (m := max size 8) (a := 2^k) (by omega)
  unfold Config.space at h ⊢
  have hround : Word.roundUpTo c.w (max size kChunkHeader2Size) (2^k) = ceil (max size 8) (2^k) := by
    apply Word.roundUpTo_of_lt hk
    unfold kChunkHeader2Size
    split_ifs at h <;> omega
  unfold neededSizeBase minAlignment
  dsimp only
  rw [hround]
  split_ifs at h ⊢
  · rw [Word.add_of_lt (show ceil (max size 8) (2^k) + c.redzone size < 2^c.w by omega),
      Word.add_of_lt h]
  · rw [Word.add_of_lt (by omega), Nat.add_zero]

theorem Config.two_pow_kMaxSizeLog_le : 2^c.kMaxSizeLog ≤ 2^18 :=
  Nat.pow_le_pow_right (by norm_num) c.kMaxSizeLog_le

theorem Config.canAllocate_eq_false {needed alignment : ℕ} (h : 2^18 < needed ∨ 2^18 < alignment) :
    c.canAllocate needed alignment = false := by
  have := c.two_pow_kMaxSizeLog_le
  unfold Config.canAllocate
  simp only [Bool.and_eq_false_iff, decide_eq_false_iff_not]
  omega

theorem Config.wordsize_cases :
    c.wordsize = .w32 ∧ c.w = 32 ∧ kMaxAllowedMallocSize c.wordsize = 3 * 2^30 ∨
      c.wordsize = .w64 ∧ c.w = 64 ∧ kMaxAllowedMallocSize c.wordsize = 2^40 := by
  unfold Config.w
  cases c.wordsize
  · exact Or.inl ⟨rfl, rfl, rfl⟩
  · exact Or.inr ⟨rfl, rfl, rfl⟩

theorem space_lt_64 {size k rz : ℕ} (hk : k ≤ 62) (hsize : size ≤ 2^40) (hrz : rz ≤ 2048) :
    ceil (max size 8) (2^k) + rz + 2^k + rz < 2^64 := by
  have hpow : 2^k ≤ 2^62 := Nat.pow_le_pow_right (by norm_num) hk
  have hceil := ceil_bounds (m := max size 8) (a := 2^k) (by positivity)
  omega

theorem space_lt_32 {size k rz : ℕ} (hk : k ≤ 29) (hsize : size ≤ 3 * 2^30) (hrz : rz ≤ 2048) :
    ceil (max size 8) (2^k) + rz + 2^k + rz < 2^32 := by
  have hpow : 2^k ≤ 2^29 := Nat.pow_le_pow_right (by norm_num) hk
  have hdvd : 2^k ∣ 3 * 2^30 := Dvd.dvd.mul_left (Nat.pow_dvd_pow 2 (by omega)) 3
  have hceil := ceil_le (m := max size 8) (by positivity) hdvd (by omega)
  omega

/-- Where the sum does not wrap, it does not wrap with a second redzone either. -/
theorem Config.space_add_lt {size k : ℕ} (h3 : 3 ≤ k) (hk : k < c.w)
    (hsize : size ≤ kMaxAllowedMallocSize c.wordsize) (h : c.space size (2^k) < 2^c.w) :
    c.space size (2^k) + c.redzone size < 2^c.w := by
  have hrz := c.redzone_bounds size
  have h8 : 8 ≤ 2^k := Nat.pow_le_pow_right (n := 2) (i := 3) (by norm_num) h3
  unfold Config.space at h ⊢
  rcases c.wordsize_cases with ⟨-, hw, hmax⟩ | ⟨-, hw, hmax⟩
  · rw [hw] at h hk ⊢
    rw [hmax] at hsize
    rcases (show k ≤ 29 ∨ k = 30 ∨ k = 31 by omega) with hk | rfl | rfl
    · have := space_lt_32 hk hsize hrz.2
      split_ifs <;> omega
    · obtain ⟨q, hq⟩ := dvd_ceil (max size 8) (2^30)
      rw [if_pos (by norm_num), hq] at h ⊢
      omega
    · obtain ⟨q, hq⟩ := dvd_ceil (max size 8) (2^31)
      rw [if_pos (by norm_num), hq] at h ⊢
      omega
  · rw [hw] at h hk ⊢
    rw [hmax] at hsize
    rcases (show k ≤ 62 ∨ k = 63 by omega) with hk | rfl
    · have := space_lt_64 hk hsize hrz.2
      split_ifs <;> omega
    · rw [if_pos (by norm_num)] at h
      unfold ceil at h
      omega

/-- Where the sum wraps, a block is asked for that is too short. -/
theorem Config.neededSize_wrap {size k : ℕ} (h3 : 3 ≤ k) (hk : k < c.w) (hpos : 0 < size)
    (hsize : size ≤ kMaxAllowedMallocSize c.wordsize) (h : 2^c.w ≤ c.space size (2^k)) :
    c.neededSize size (2^k) ≤ kMaxAllowedMallocSize c.wordsize ∧
      8 + c.neededSize size (2^k) < 2^k + size := by
  have hrz := c.redzone_bounds size
  have h8 : 8 ≤ 2^k := Nat.pow_le_pow_right (n := 2) (i := 3) (by norm_num) h3
  have hround := Word.roundUpTo_two_pow (x := max size 8) hk
  unfold Config.space at h
  unfold Config.neededSize neededSizeBase minAlignment kChunkHeader2Size
  dsimp only
  rw [hround]
  rcases c.wordsize_cases with ⟨-, hw, hmax⟩ | ⟨-, hw, hmax⟩
  · rw [hw] at h hk ⊢
    rw [hmax] at hsize ⊢
    rcases (show k ≤ 29 ∨ k = 30 ∨ k = 31 by omega) with hk | rfl | rfl
    · have := space_lt_32 hk hsize hrz.2
      split_ifs at h <;> omega
    · rw [c.canAllocate_eq_false (Or.inr (by norm_num))]
      unfold ceil at h
      unfold Word.add
      simp only [Bool.false_eq_true, if_false, if_pos (show 8 < 2^30 by norm_num)] at h ⊢
      omega
    · rw [c.canAllocate_eq_false (Or.inr (by norm_num))]
      unfold ceil at h
      unfold Word.add
      simp only [Bool.false_eq_true, if_false, if_pos (show 8 < 2^31 by norm_num)] at h ⊢
      omega
  · rw [hw] at h hk ⊢
    rw [hmax] at hsize ⊢
    rcases (show k ≤ 62 ∨ k = 63 by omega) with hk | rfl
    · have := space_lt_64 hk hsize hrz.2
      split_ifs at h <;> omega
    · rw [c.canAllocate_eq_false (Or.inr (by norm_num))]
      unfold ceil at h
      unfold Word.add
      simp only [Bool.false_eq_true, if_false, if_pos (show 8 < 2^63 by norm_num)] at h ⊢
      omega

theorem Config.neededSize_eq {size k : ℕ} (h3 : 3 ≤ k) (hk : k < c.w)
    (hsize : size ≤ kMaxAllowedMallocSize c.wordsize) (h : c.space size (2^k) < 2^c.w) :
    c.space size (2^k) ≤ c.neededSize size (2^k) ∧
      c.neededSize size (2^k) ≤ c.space size (2^k) + c.redzone size ∧
      (kMaxAllowedMallocSize c.wordsize < c.neededSize size (2^k) ↔
        kMaxAllowedMallocSize c.wordsize < c.space size (2^k) + c.redzone size) := by
  have hrz := c.redzone_bounds size
  have hmax : 2^18 + 2048 < kMaxAllowedMallocSize c.wordsize := by
    rcases c.wordsize_cases with ⟨-, -, hmax⟩ | ⟨-, -, hmax⟩ <;> rw [hmax] <;> norm_num
  unfold Config.neededSize
  dsimp only
  rw [c.neededSizeBase_eq h3 hk h, Word.add_of_lt (c.space_add_lt h3 hk hsize h)]
  split_ifs with hprim
  · have hle : c.space size (2^k) ≤ 2^18 := by
      by_contra hlt
      rw [c.canAllocate_eq_false (Or.inl (by omega))] at hprim
      exact absurd hprim (by simp)
    omega
  · omega

/-! ## The layout -/

/-- The layout is right: the user's memory is aligned, the left redzone has its size and holds the
chunk header, the user's memory ends in the block, and a chunk header that is not at the beginning of
the block leaves room for a `LargeChunkHeader`. -/
structure LayoutOk (r : Request) (allocBeg : ℕ) (l : Layout) : Prop where
  /-- `user_beg` is a multiple of the alignment. -/
  aligned : r.alignment ∣ l.userBeg
  /-- The left redzone is at least `rz_size`. -/
  redzone : allocBeg + r.rzSize ≤ l.userBeg
  /-- The left redzone is at least 16. -/
  header : allocBeg + 16 ≤ l.userBeg
  /-- The user's memory ends in the block. -/
  inside : l.userBeg + r.size ≤ allocBeg + r.neededSize
  /-- The chunk header lies in the block, before the user's memory. -/
  chunk : allocBeg ≤ l.chunkBeg ∧ l.chunkBeg + kChunkHeaderSize = l.userBeg
  /-- There is room for a `LargeChunkHeader`. -/
  large : l.chunkBeg ≠ allocBeg → allocBeg + sizeofLargeChunkHeader c.wordsize ≤ l.chunkBeg

theorem userBeg_eq {w k x : ℕ} (hk : k < w) (hx : x + 2^k - 1 < 2^w ∨ 2^k ∣ x) :
    (if Word.isAligned w x (2^k) then x else Word.roundUpTo w x (2^k)) = ceil x (2^k) := by
  have hpos : 0 < 2^k := by positivity
  split_ifs with h
  · have hdvd := Nat.dvd_of_mod_eq_zero ((Word.isAligned_two_pow hk).mp h)
    exact le_antisymm (ceil_bounds hpos).1 (ceil_le hpos hdvd le_rfl)
  · refine Word.roundUpTo_of_lt hk (hx.resolve_right fun hdvd => h ?_)
    exact (Word.isAligned_two_pow hk).mpr (Nat.mod_eq_zero_of_dvd hdvd)

theorem Config.usedSize_eq {size : ℕ} (h : size ≤ kMaxAllowedMallocSize c.wordsize) :
    usedSize c.wordsize size = size := by
  cases hc : c.wordsize with
  | w32 =>
    rw [hc] at h
    simp only [usedSize, Wordsize.first32Second64, kMaxAllowedMallocSize] at h ⊢
    omega
  | w64 =>
    rw [hc] at h
    simp only [usedSize, Wordsize.first32Second64, kMaxAllowedMallocSize] at h ⊢
    omega

/-- Where the sum does not wrap, the user's memory has its place in every block. -/
theorem Config.ceil_add_le {size k allocBeg : ℕ} (h3 : 3 ≤ k) (hk : k < c.w)
    (hsize : size ≤ kMaxAllowedMallocSize c.wordsize) (h : c.space size (2^k) < 2^c.w)
    (h8 : 8 ∣ allocBeg) :
    ceil (allocBeg + c.redzone size) (2^k) + size ≤ allocBeg + c.neededSize size (2^k) ∧
      (allocBeg + c.redzone size + 2^k - 1 < allocBeg + c.neededSize size (2^k) ∨
        2^k ∣ allocBeg + c.redzone size) := by
  obtain ⟨hneed, -, -⟩ := c.neededSize_eq h3 hk hsize h
  obtain ⟨i, h4, -, hrz, -⟩ := c.redzone_two_pow size
  have hpow : 0 < 2^k := by positivity
  have hceil := ceil_bounds (m := max size 8) hpow
  have hrz8 : 8 ∣ c.redzone size := hrz ▸ Nat.pow_dvd_pow 2 (show 3 ≤ i by omega)
  have hx8 : 8 ∣ allocBeg + c.redzone size := Nat.dvd_add h8 hrz8
  unfold Config.space at hneed
  rcases Nat.lt_or_ge 3 k with hlt | hge
  · rw [if_pos (Nat.pow_lt_pow_right (a := 2) (m := 3) (by norm_num) hlt)] at hneed
    have hu := ceil_bounds (m := allocBeg + c.redzone size) hpow
    exact ⟨by omega, Or.inl (by omega)⟩
  · obtain rfl : k = 3 := by omega
    have hu := ceil_le (a := 2^3) (by norm_num) hx8 le_rfl
    rw [if_neg (by norm_num)] at hneed
    exact ⟨by omega, Or.inr hx8⟩

/-- Where the sum does not wrap, the layout is right in every block, unless the redzone has no room
for a `LargeChunkHeader`. -/
theorem Config.layout_ok {size k log allocBeg : ℕ} (h3 : 3 ≤ k) (hk : k < c.w) (hpos : 0 < size)
    (hsize : size ≤ kMaxAllowedMallocSize c.wordsize) (h : c.space size (2^k) < 2^c.w)
    (hroom : k = 3 ∨ c.wordsize = .w32 ∨ 32 ≤ c.redzone size) (h8 : 8 ∣ allocBeg)
    (hend : allocBeg + c.neededSize size (2^k) < 2^c.w) :
    ∃ l, c.layout (c.requestOf size (2^k) log) allocBeg = .ok l ∧
      LayoutOk c (c.requestOf size (2^k) log) allocBeg l := by
  obtain ⟨i, h4, -, hrz, -⟩ := c.redzone_two_pow size
  have hrz16 := c.redzone_bounds size
  have hpow : 0 < 2^k := by positivity
  obtain ⟨hin, hwrap⟩ := c.ceil_add_le h3 hk hsize h h8
  have hu := ceil_bounds (m := allocBeg + c.redzone size) hpow
  have hrz8 : 8 ∣ c.redzone size := hrz ▸ Nat.pow_dvd_pow 2 (show 3 ≤ i by omega)
  have hu8 : 8 ∣ ceil (allocBeg + c.redzone size) (2^k) :=
    (Nat.pow_dvd_pow 2 h3).trans (dvd_ceil _ _)
  have huser := userBeg_eq hk (x := allocBeg + c.redzone size) (hwrap.imp_left (by omega))
  have hadd : Word.add c.w allocBeg (c.redzone size) = allocBeg + c.redzone size :=
    Word.add_of_lt (by omega)
  generalize hU : ceil (allocBeg + c.redzone size) (2^k) = U at *
  have hchunk : Word.sub c.w U kChunkHeaderSize = U - 16 :=
    Word.sub_of_le (by unfold kChunkHeaderSize; omega) (by omega)
  have hle16 : sizeofLargeChunkHeader c.wordsize ≤ 16 := by
    cases c.wordsize <;> norm_num [sizeofLargeChunkHeader, Wordsize.first32Second64]
  -- The chunk header is at the beginning of the block, or at least 8 bytes after it.
  have hlarge : allocBeg = U - 16 ∨ allocBeg + sizeofLargeChunkHeader c.wordsize ≤ U - 16 := by
    have h16 : 16 ∣ c.redzone size := hrz ▸ Nat.pow_dvd_pow 2 h4
    rcases hroom with rfl | hw32 | h32
    · have : U ≤ allocBeg + c.redzone size := hU ▸
        ceil_le (a := 2^3) (by norm_num) (Nat.dvd_add h8 hrz8) le_rfl
      omega
    · rw [hw32]
      simp only [sizeofLargeChunkHeader, Wordsize.first32Second64]
      omega
    · omega
  have hhead : allocBeg + 16 ≤ U ∧ allocBeg ≤ U - 16 := by omega
  refine ⟨⟨U, U - 16⟩, ?_, ⟨hU ▸ dvd_ceil _ _, hu.1, hhead.1, hin, ⟨hhead.2, ?_⟩, ?_⟩⟩
  · have hlarge' : (allocBeg == U - 16 ||
        decide (allocBeg + sizeofLargeChunkHeader c.wordsize ≤ U - 16)) = true := by
      rw [Bool.or_eq_true, beq_iff_eq, decide_eq_true_eq]
      exact hlarge
    simp only [Config.layout, Config.requestOf, hadd, huser, Word.add_of_lt hend, hchunk,
      Word.add_of_lt (show U + size < 2^c.w by omega), require_of (decide_eq_true hin), ok_bind,
      c.usedSize_eq hsize, require_of (beq_self_eq_true size),
      require_of (bne_iff_ne.mpr hpos.ne'),
      Word.add_of_lt (show allocBeg + sizeofLargeChunkHeader c.wordsize < 2^c.w by omega),
      require_of hlarge']
    rfl
  · unfold kChunkHeaderSize
    dsimp only
    omega
  · intro hne
    exact hlarge.resolve_left (Ne.symm hne)

/-! ## The condition -/

/-- The request is refused, or its layout is right in every block of the size that is asked for. -/
def Config.Served (size alignment : ℕ) : Prop :=
  ∃ r, c.request size alignment = .ok r ∧ (r.tooBig = true ∨
    ∀ allocBeg, allocBeg ≠ 0 → 8 ∣ allocBeg → allocBeg + r.neededSize < 2^c.w →
      ∃ l, c.layout r allocBeg = .ok l ∧ LayoutOk c r allocBeg l)

/-- The size is refused, or the sum does not wrap and there is room for a `LargeChunkHeader`, or the
sum is refused. -/
def Config.Fits (size alignment : ℕ) : Prop :=
  let n := max size 1
  let a := max alignment 8
  kMaxAllowedMallocSize c.wordsize < n ∨ c.maxUserDefinedMallocSize < n ∨
    c.space n a < 2^c.w ∧ (a = 8 ∨ c.wordsize = .w32 ∨ 32 ≤ c.redzone n ∨
      kMaxAllowedMallocSize c.wordsize < c.space n a + c.redzone n)

/-- The block in which the user's memory is moved up by 8: there is no room for a
`LargeChunkHeader`. -/
theorem Config.layout_no_room {size k : ℕ} (log : ℕ) (h4 : 4 ≤ k) (hk : k < c.w) (hpos : 0 < size)
    (hw : c.wordsize = .w64) (hsize : size ≤ kMaxAllowedMallocSize c.wordsize)
    (h : c.space size (2^k) < 2^c.w) (hrz : c.redzone size = 16)
    (hmax : c.space size (2^k) + c.redzone size ≤ kMaxAllowedMallocSize c.wordsize) :
    ∃ allocBeg, allocBeg ≠ 0 ∧ 8 ∣ allocBeg ∧ allocBeg + c.neededSize size (2^k) < 2^c.w ∧
      c.layout (c.requestOf size (2^k) log) allocBeg = .error .largeChunkHeader := by
  obtain ⟨-, hneed, -⟩ := c.neededSize_eq (by omega) hk hsize h
  have hmax64 : kMaxAllowedMallocSize c.wordsize = 2^40 := by rw [hw]; rfl
  have hw64 : c.w = 64 := by rw [Config.w, hw]; rfl
  have hsizeof : sizeofLargeChunkHeader c.wordsize = 16 := by rw [hw]; rfl
  have h16 : 16 ≤ 2^k := Nat.pow_le_pow_right (n := 2) (i := 4) (by norm_num) h4
  have hspace : 2^k ≤ c.space size (2^k) := by
    unfold Config.space
    rw [if_pos (by omega)]
    omega
  -- The first multiple of the alignment from 32 on, and the block 24 bytes before it.
  obtain ⟨A, hA, hdvd, h32⟩ : ∃ A, A ≤ 2^k + 16 ∧ 2^k ∣ A ∧ 32 ≤ A := by
    rcases Nat.lt_or_ge 4 k with hlt | hge
    · have h32 : 32 ≤ 2^k := Nat.pow_le_pow_right (n := 2) (i := 5) (by norm_num) hlt
      exact ⟨2^k, by omega, dvd_rfl, h32⟩
    · obtain rfl : k = 4 := by omega
      exact ⟨32, by norm_num, by norm_num, le_rfl⟩
  have h8A : 8 ∣ A := (Nat.pow_dvd_pow 2 (show 3 ≤ k by omega)).trans hdvd
  have h8 : 8 ∣ A - 24 := by omega
  have hceil : ceil (A - 8) (2^k) = A := by
    have hle := ceil_le (m := A - 8) (by positivity) hdvd (by omega)
    have hge := (ceil_bounds (m := A - 8) (a := 2^k) (by positivity)).1
    have hsub := Nat.eq_zero_of_dvd_of_lt (Nat.dvd_sub hdvd (dvd_ceil (A - 8) (2^k)))
      (by omega)
    omega
  obtain ⟨hin, -⟩ := c.ceil_add_le (by omega) hk hsize h h8
  rw [hmax64] at hmax
  rw [hrz, show A - 24 + 16 = A - 8 by omega, hceil] at hin
  have hend : A - 24 + c.neededSize size (2^k) < 2^c.w := by
    rw [hw64]
    omega
  refine ⟨A - 24, by omega, h8, hend, ?_⟩
  have hadd : Word.add c.w (A - 24) 16 = A - 8 := by
    rw [Word.add_of_lt (by omega)]
    omega
  have huser := userBeg_eq hk (x := A - 8) (Or.inl (by rw [hw64]; omega))
  have hchunk : Word.sub c.w A kChunkHeaderSize = A - 16 :=
    Word.sub_of_le (by unfold kChunkHeaderSize; omega) (by omega)
  have hlarge : (A - 24 == A - 16 || decide (A - 8 ≤ A - 16)) = false := by
    rw [Bool.or_eq_false_iff, beq_eq_false_iff_ne, decide_eq_false_iff_not]
    omega
  simp only [Config.layout, Config.requestOf, hrz, hadd, huser, hceil, Word.add_of_lt hend, hchunk,
    Word.add_of_lt (show A + size < 2^c.w by omega), require_of (decide_eq_true hin), ok_bind,
    c.usedSize_eq hsize, require_of (beq_self_eq_true size), require_of (bne_iff_ne.mpr hpos.ne'),
    hsizeof, require_of_not hlarge]
  rfl

theorem Config.tooBig_requestOf {size alignment log : ℕ}
    (hsize : size ≤ kMaxAllowedMallocSize c.wordsize) (huser : size ≤ c.maxUserDefinedMallocSize) :
    (c.requestOf size alignment log).tooBig = true ↔
      kMaxAllowedMallocSize c.wordsize < c.neededSize size alignment := by
  simp only [Config.requestOf, Bool.or_eq_true, decide_eq_true_eq]
  omega

/-- The claim of `Allocate` on a request, exactly: every request that the entry points let through is
refused, or has a right layout in every block that is aligned to 8, if and only if its size is
refused, or the sum of the rounded size, the redzone and the alignment stays below `2^w` and either
the sum is refused or the redzone leaves room for a `LargeChunkHeader`. -/
theorem allocate_layout_iff (c : Config) (size alignment : ℕ) (halignment : alignment < 2^c.w)
    (h : LetThrough c.w size alignment) : c.Served size alignment ↔ c.Fits size alignment := by
  obtain ⟨k, log, h3, hk, hmax, hreq⟩ :=
    c.request_eq size ((letThrough_iff halignment).mp h)
  unfold Config.Served Config.Fits
  rw [hreq, hmax]
  dsimp only
  generalize hn : max size 1 = n
  have hpos : 0 < n := by omega
  have hrz := c.redzone_bounds n
  have hkMax : kMaxAllowedMallocSize c.wordsize + 16 < 2^c.w := by
    rcases c.wordsize_cases with ⟨-, hw, hmax⟩ | ⟨-, hw, hmax⟩ <;> rw [hw, hmax] <;> norm_num
  by_cases hsize : n ≤ kMaxAllowedMallocSize c.wordsize
  swap
  · refine iff_of_true ⟨_, rfl, Or.inl ?_⟩ (Or.inl (by omega))
    simp only [Config.requestOf, decide_eq_true (not_le.mp hsize), Bool.true_or]
  by_cases huser : n ≤ c.maxUserDefinedMallocSize
  swap
  · refine iff_of_true ⟨_, rfl, Or.inl ?_⟩ (Or.inr (Or.inl (by omega)))
    simp only [Config.requestOf, decide_eq_true (not_le.mp huser), Bool.or_true]
  have hbig : (c.requestOf n (2^k) log).tooBig = true ↔ _ := c.tooBig_requestOf hsize huser
  by_cases hspace : c.space n (2^k) < 2^c.w
  · obtain ⟨-, -, hneed⟩ := c.neededSize_eq h3 hk hsize hspace
    by_cases hroom : k = 3 ∨ c.wordsize = .w32 ∨ 32 ≤ c.redzone n
    · refine iff_of_true ⟨_, rfl, Or.inr fun allocBeg _ h8 hend => ?_⟩
        (Or.inr (Or.inr ⟨hspace, ?_⟩))
      · exact c.layout_ok h3 hk hpos hsize hspace hroom h8 hend
      · rcases hroom with rfl | hw | h32
        · exact Or.inl rfl
        · exact Or.inr (Or.inl hw)
        · exact Or.inr (Or.inr (Or.inl h32))
    · -- The redzone is 16, so that only the limit on the sum can help.
      obtain ⟨hk3, hw, h32⟩ : k ≠ 3 ∧ c.wordsize = .w64 ∧ c.redzone n < 32 := by
        refine ⟨fun h => hroom (Or.inl h), ?_, not_le.mp fun h => hroom (Or.inr (Or.inr h))⟩
        rcases c.wordsize_cases with ⟨h, -⟩ | ⟨h, -⟩
        · exact absurd (Or.inr (Or.inl h)) hroom
        · exact h
      have hrz16 : c.redzone n = 16 := by
        obtain ⟨i, h4, -, hi, -⟩ := c.redzone_two_pow n
        have hi4 : i < 5 := by
          rw [hi, show 32 = 2^5 by norm_num] at h32
          exact (Nat.pow_lt_pow_iff_right (by norm_num)).mp h32
        rw [hi, show i = 4 by omega]
        norm_num
      have ha : (2 : ℕ)^k ≠ 8 := fun h => hk3 ((Nat.pow_right_inj (a := 2) (by norm_num)).mp h)
      by_cases hsum : kMaxAllowedMallocSize c.wordsize < c.space n (2^k) + c.redzone n
      · exact iff_of_true ⟨_, rfl, Or.inl (hbig.mpr (hneed.mpr hsum))⟩
          (Or.inr (Or.inr ⟨hspace, Or.inr (Or.inr (Or.inr hsum))⟩))
      · refine iff_of_false ?_ ?_
        · rintro ⟨r, hr, hcase⟩
          obtain rfl : c.requestOf n (2^k) log = r := Except.ok.inj hr
          obtain ⟨allocBeg, h0, h8, hend, hfail⟩ := c.layout_no_room log (by omega) hk
            hpos hw hsize hspace hrz16 (not_lt.mp hsum)
          obtain ⟨l, hl, -⟩ :=
            (hcase.resolve_left fun h => hsum (hneed.mp (hbig.mp h))) allocBeg h0 h8 hend
          rw [hfail] at hl
          exact absurd hl (by simp)
        · rintro (h | h | ⟨-, h | h | h | h⟩)
          · omega
          · omega
          · exact ha h
          · exact absurd (hw.symm.trans h) (by decide)
          · omega
          · exact hsum h
  · -- The sum wraps: no multiple of the alignment leaves room for the size.
    obtain ⟨hle, hshort⟩ := c.neededSize_wrap h3 hk hpos hsize (not_lt.mp hspace)
    refine iff_of_false ?_ ?_
    · rintro ⟨r, hr, hcase⟩
      obtain rfl : c.requestOf n (2^k) log = r := Except.ok.inj hr
      obtain ⟨l, -, hok⟩ := (hcase.resolve_left fun h => absurd (hbig.mp h) (by omega)) 8
        (by norm_num) dvd_rfl (show 8 + c.neededSize n (2^k) < 2^c.w by omega)
      have hredzone : 8 + c.redzone n ≤ l.userBeg := hok.redzone
      have hinside : l.userBeg + n ≤ 8 + c.neededSize n (2^k) := hok.inside
      have hmul : 2^k ≤ l.userBeg := Nat.le_of_dvd (by omega) hok.aligned
      omega
    · rintro (h | h | ⟨h, -⟩)
      · omega
      · omega
      · exact hspace h

/-- Ten bytes at a page boundary, with the default options. -/
theorem allocate_layout_iff_page :
    (4096 < 2^({} : Config).w ∧ LetThrough ({} : Config).w 10 4096) ∧
      (({} : Config).Served 10 4096 ↔ ({} : Config).Fits 10 4096) := by
  have h1 : 4096 < 2^({} : Config).w := by decide
  have h2 : LetThrough ({} : Config).w 10 4096 := Or.inl (by decide)
  exact ⟨⟨h1, h2⟩, allocate_layout_iff _ _ _ h1 h2⟩

/-- One byte at the greatest alignment, with the default options: the sum wraps to 16, and a block of
32 bytes is asked for. -/
theorem allocate_layout_wraps :
    LetThrough ({} : Config).w 1 (2^63) ∧ ¬ ({} : Config).Served 1 (2^63) := by
  refine ⟨Or.inl (by decide), ?_⟩
  rintro ⟨r, hr, hcase⟩
  have hreq : ({} : Config).request 1 (2^63) =
      .ok { size := 1, alignment := 2^63, alignmentLog := 7, rzSize := 16, neededSize := 32,
            fromPrimary := false, tooBig := false } := by rfl
  rw [hreq] at hr
  obtain rfl := Except.ok.inj hr
  obtain ⟨l, hl, -⟩ := (hcase.resolve_left (by decide)) 4096 (by decide) (by decide) (by decide)
  have hlayout : ({} : Config).layout
      { size := 1, alignment := 2^63, alignmentLog := 7, rzSize := 16, neededSize := 32,
        fromPrimary := false, tooBig := false } 4096 = .error .userEnd := by rfl
  rw [hlayout] at hl
  exact absurd hl (by simp)

end Tasan.Allocator
