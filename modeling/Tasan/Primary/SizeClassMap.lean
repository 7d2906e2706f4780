import Tasan.Word

/-!
# Size classes

`SizeClassMap` divides the sizes up to `kMaxSize` into classes. Up to `kMidSize` the classes are the
multiples of `kMinSize`; above it each power of two starts `2^S` classes that divide the way to the next
one evenly, so that the sizes of these classes have their `S + 1` leading bits free and zeros below.

The formula behind the second half is `size_block`: the class `q - 2^S` steps into the block of `2^e` has
the size `q * 2^(e - S)`, also for `q = 2^(S + 1)`, which is the first class of the next block. `ClassID`
finds `e` and `q` for a size: the highest bit, and the size divided by `2^(e - S)`, rounded up.
-/

namespace Tasan.Primary

/-- The template parameters of `SizeClassMap`, and the size of a word. The powers `1 << kMinSizeLog`,
`1 << kMidSizeLog` and `1 << S` are of type `int` in the code, and with the bound on `kNumClasses` that
it checks they are in range. -/
structure SizeClassMap where
  /-- The number of bits, from the highest one on, that are not zero in the sizes above `kMidSize`. -/
  kNumBits : ℕ
  /-- Class 1 is `2^kMinSizeLog`. -/
  kMinSizeLog : ℕ
  /-- The classes increase by `2^kMinSizeLog` up to `2^kMidSizeLog`. -/
  kMidSizeLog : ℕ
  /-- The last class is `2^kMaxSizeLog`. -/
  kMaxSizeLog : ℕ
  /-- The most chunks of a class that are requested for a cache. -/
  kMaxNumCachedHint : ℕ
  /-- The logarithm of the most bytes of a class that are requested for a cache. -/
  kMaxBytesCachedLog : ℕ
  sizeofUptr : ℕ
  /-- `kNumBits - 1` does not wrap. -/
  kNumBits_pos : 0 < kNumBits := by decide
  /-- The leading bits of `kMidSize` fit. -/
  kNumBits_le : kNumBits - 1 ≤ kMidSizeLog := by decide
  /-- The sizes are in order. -/
  kMinSizeLog_le : kMinSizeLog ≤ kMidSizeLog := by decide
  /-- The sizes are in order. -/
  kMidSizeLog_le : kMidSizeLog ≤ kMaxSizeLog := by decide

/-- `DefaultSizeClassMap`. -/
def DefaultSizeClassMap : SizeClassMap where
  kNumBits := 3
  kMinSizeLog := 4
  kMidSizeLog := 8
  kMaxSizeLog := 17
  kMaxNumCachedHint := 128
  kMaxBytesCachedLog := 16
  sizeofUptr := 8

namespace SizeClassMap

variable (m : SizeClassMap)

/-- `kMinSize`. -/
def kMinSize : ℕ := 1 <<< m.kMinSizeLog

/-- `kMidSize`. -/
def kMidSize : ℕ := 1 <<< m.kMidSizeLog

/-- `kMidClass`. -/
def kMidClass : ℕ := m.kMidSize / m.kMinSize

/-- `S`. -/
def S : ℕ := m.kNumBits - 1

/-- `M`. -/
def M : ℕ := 1 <<< m.S - 1

/-- `kMaxSize`. -/
def kMaxSize : ℕ := 1 <<< m.kMaxSizeLog

/-- `kNumClasses`. -/
def kNumClasses : ℕ := m.kMidClass + (m.kMaxSizeLog - m.kMidSizeLog) <<< m.S + 1 + 1

/-- `kLargestClassID`. -/
def kLargestClassID : ℕ := m.kNumClasses - 2

/-- `kBatchClassID`. -/
def kBatchClassID : ℕ := m.kNumClasses - 1

/-- `kNumClassesRounded`. -/
def kNumClassesRounded : ℕ :=
  if m.kNumClasses ≤ 32 then 32
  else if m.kNumClasses ≤ 64 then 64
  else if m.kNumClasses ≤ 128 then 128
  else 256

/-- `Size`. -/
def size (classId : ℕ) : ℕ :=
  if classId = m.kBatchClassID then m.kMaxNumCachedHint * m.sizeofUptr
  else if classId ≤ m.kMidClass then m.kMinSize * classId
  else
    let classId := classId - m.kMidClass
    let t := m.kMidSize <<< (classId >>> m.S)
    t + (t >>> m.S) * (classId &&& m.M)

/-- `ClassID`. The mask of `lbits` is made by a shift of a 32-bit one, which is in range for sizes of
32 bits. -/
def classID (size : ℕ) : ℕ :=
  if m.kMaxSize < size then 0
  else if size ≤ m.kMidSize then (size + m.kMinSize - 1) >>> m.kMinSizeLog
  else
    let l := size.log2
    let hbits := (size >>> (l - m.S)) &&& m.M
    let lbits := size &&& (1 <<< (l - m.S) % 2^32 - 1)
    let l1 := l - m.kMidSizeLog
    m.kMidClass + l1 <<< m.S + hbits + if 0 < lbits then 1 else 0

/-- `MaxCachedHint`. -/
def maxCachedHint (size : ℕ) : ℕ :=
  if size = 0 then 0
  else max 1 (min m.kMaxNumCachedHint (1 <<< m.kMaxBytesCachedLog / size))

/-! ## The constants -/

theorem S_le : m.S ≤ m.kMidSizeLog := m.kNumBits_le

theorem kMinSize_eq : m.kMinSize = 2^m.kMinSizeLog := Nat.one_shiftLeft _

theorem kMidSize_eq : m.kMidSize = 2^m.kMidSizeLog := Nat.one_shiftLeft _

theorem kMaxSize_eq : m.kMaxSize = 2^m.kMaxSizeLog := Nat.one_shiftLeft _

theorem kMinSize_mul_kMidClass : m.kMinSize * m.kMidClass = m.kMidSize := by
  have hdvd : m.kMinSize ∣ m.kMidSize := by
    rw [kMinSize_eq, kMidSize_eq]
    exact pow_dvd_pow 2 m.kMinSizeLog_le
  exact Nat.mul_div_cancel' hdvd

theorem kMidClass_pos : 0 < m.kMidClass := by
  have h := m.kMinSize_mul_kMidClass
  rw [kMidSize_eq] at h
  exact Nat.pos_of_mul_pos_left (h ▸ Nat.two_pow_pos m.kMidSizeLog)

theorem kLargestClassID_eq :
    m.kLargestClassID = m.kMidClass + (m.kMaxSizeLog - m.kMidSizeLog) * 2^m.S := by
  rw [kLargestClassID, kNumClasses, Nat.shiftLeft_eq, Nat.add_assoc, Nat.add_sub_cancel]

theorem kBatchClassID_eq : m.kBatchClassID = m.kLargestClassID + 1 := by
  rw [kBatchClassID, kLargestClassID, kNumClasses]
  rfl

/-! ## The size of a class -/

variable {m} {c s : ℕ}

theorem size_low (h : c ≤ m.kMidClass) : m.size c = m.kMinSize * c := by
  have hlargest := m.kLargestClassID_eq
  rw [size, if_neg (by rw [kBatchClassID_eq]; omega), if_pos h]

/-- The classes from `kMidSize` on: the blocks of `2^S` classes, each with the first one of the next. -/
theorem size_block {e q : ℕ} (he : m.kMidSizeLog ≤ e) (hlow : 2^m.S ≤ q) (hup : q ≤ 2 * 2^m.S)
    (hc : m.kMidClass + ((e - m.kMidSizeLog) * 2^m.S + (q - 2^m.S)) ≤ m.kLargestClassID) :
    m.size (m.kMidClass + ((e - m.kMidSizeLog) * 2^m.S + (q - 2^m.S))) = q * 2^(e - m.S) := by
  have hS := m.S_le
  have hpos : 0 < 2^m.S := Nat.two_pow_pos m.S
  have hpow : ∀ f, m.S ≤ f → 2^m.S * 2^(f - m.S) = 2^f := fun f hf => by
    rw [← pow_add, Nat.add_sub_cancel' hf]
  -- The size of the class `r` steps into the block of `2^f`.
  have hblock : ∀ f r, m.kMidSizeLog ≤ f → r < 2^m.S → 0 < (f - m.kMidSizeLog) * 2^m.S + r →
      m.kMidClass + ((f - m.kMidSizeLog) * 2^m.S + r) ≤ m.kLargestClassID →
      m.size (m.kMidClass + ((f - m.kMidSizeLog) * 2^m.S + r)) = (2^m.S + r) * 2^(f - m.S) := by
    intro f r hf hr hpos' hle
    have hquot : ((f - m.kMidSizeLog) * 2^m.S + r) / 2^m.S = f - m.kMidSizeLog := by
      rw [Nat.mul_comm, Nat.mul_add_div hpos, Nat.div_eq_of_lt hr, Nat.add_zero]
    have hrem : ((f - m.kMidSizeLog) * 2^m.S + r) % 2^m.S = r := by
      rw [Nat.mul_comm, Nat.mul_add_mod, Nat.mod_eq_of_lt hr]
    rw [size, if_neg (by rw [kBatchClassID_eq]; omega), if_neg (by omega), Nat.add_sub_cancel_left]
    simp only [kMidSize, M, Nat.shiftLeft_eq, one_mul, Nat.shiftRight_eq_div_pow,
      Nat.and_two_pow_sub_one_eq_mod]
    rw [hquot, hrem, ← pow_add, Nat.add_sub_cancel' hf, Nat.pow_div (hS.trans hf) (by norm_num),
      Nat.add_mul, hpow f (hS.trans hf), Nat.mul_comm r]
  rcases hup.eq_or_lt with rfl | hlt
  · -- The first class of the next block.
    have hnext : (e - m.kMidSizeLog) * 2^m.S + (2 * 2^m.S - 2^m.S) =
        (e + 1 - m.kMidSizeLog) * 2^m.S + 0 := by
      calc (e - m.kMidSizeLog) * 2^m.S + (2 * 2^m.S - 2^m.S)
        _ = (e - m.kMidSizeLog) * 2^m.S + 2^m.S := by rw [Nat.two_mul, Nat.add_sub_cancel]
        _ = (e + 1 - m.kMidSizeLog) * 2^m.S + 0 := by rw [Nat.succ_sub he, Nat.succ_mul, Nat.add_zero]
    rw [hnext] at hc ⊢
    rw [hblock (e + 1) 0 (by omega) hpos (Nat.add_pos_left (Nat.mul_pos (by omega) hpos) 0) hc,
      Nat.add_zero, Nat.sub_add_comm (hS.trans he), pow_succ]
    ring
  · rcases Nat.eq_zero_or_pos ((e - m.kMidSizeLog) * 2^m.S + (q - 2^m.S)) with hzero | hpos'
    · -- The class of `kMidSize`.
      obtain ⟨hzero', hq⟩ := Nat.add_eq_zero_iff.mp hzero
      have he' : e = m.kMidSizeLog := by
        have := (Nat.mul_eq_zero.mp hzero').resolve_right hpos.ne'
        omega
      rw [hzero, Nat.add_zero, size_low le_rfl, kMinSize_mul_kMidClass, kMidSize_eq,
        show q = 2^m.S by omega, he', hpow _ hS]
    · rw [hblock e (q - 2^m.S) he (by omega) hpos' hc, Nat.add_sub_cancel' hlow]

theorem exists_block (hlow : m.kMidClass ≤ c) :
    ∃ e q, m.kMidSizeLog ≤ e ∧ 2^m.S ≤ q ∧ q < 2 * 2^m.S ∧
      c = m.kMidClass + ((e - m.kMidSizeLog) * 2^m.S + (q - 2^m.S)) := by
  have hpos : 0 < 2^m.S := Nat.two_pow_pos m.S
  have hdiv := Nat.div_add_mod' (c - m.kMidClass) (2^m.S)
  have hmod := Nat.mod_lt (c - m.kMidClass) hpos
  refine ⟨m.kMidSizeLog + (c - m.kMidClass) / 2^m.S, 2^m.S + (c - m.kMidClass) % 2^m.S,
    Nat.le_add_right _ _, Nat.le_add_right _ _, by omega, ?_⟩
  rw [Nat.add_sub_cancel_left, Nat.add_sub_cancel_left, hdiv]
  omega

theorem size_lt_succ (h : c + 1 ≤ m.kLargestClassID) : m.size c < m.size (c + 1) := by
  rcases Nat.lt_or_ge c m.kMidClass with hlow | hhigh
  · rw [size_low hlow.le, size_low hlow, kMinSize_eq]
    exact Nat.mul_lt_mul_of_pos_left (Nat.lt_succ_self c) (Nat.two_pow_pos _)
  · obtain ⟨e, q, he, hq, hq', rfl⟩ := exists_block hhigh
    have hsucc : m.kMidClass + ((e - m.kMidSizeLog) * 2^m.S + (q - 2^m.S)) + 1 =
        m.kMidClass + ((e - m.kMidSizeLog) * 2^m.S + (q + 1 - 2^m.S)) := by omega
    rw [hsucc] at h ⊢
    rw [size_block he hq hq'.le (by omega), size_block he (by omega) hq' h]
    exact Nat.mul_lt_mul_of_pos_right (Nat.lt_succ_self q) (Nat.two_pow_pos _)

theorem size_strictMonoOn : StrictMonoOn m.size (Set.Iic m.kLargestClassID) := by
  intro c _ d hd hcd
  induction d, hcd using Nat.le_induction with
  | base => exact size_lt_succ hd
  | succ d hcd ih =>
    have hd : d + 1 ≤ m.kLargestClassID := hd
    exact (ih (show d ≤ m.kLargestClassID by omega)).trans (size_lt_succ hd)

theorem size_kLargestClassID : m.size m.kLargestClassID = m.kMaxSize := by
  have heq := m.kLargestClassID_eq
  have hblock := size_block (m := m) (e := m.kMaxSizeLog) (q := 2^m.S) m.kMidSizeLog_le le_rfl
    (by omega) (by rw [heq]; omega)
  rw [Nat.sub_self, Nat.add_zero, ← heq] at hblock
  rw [hblock, kMaxSize_eq, ← pow_add, Nat.add_sub_cancel' (m.S_le.trans m.kMidSizeLog_le)]

theorem size_pos (hpos : 0 < c) (hc : c ≤ m.kLargestClassID) : 0 < m.size c :=
  (Nat.zero_le _).trans_lt (size_strictMonoOn (m := m) (show 0 ≤ m.kLargestClassID from Nat.zero_le _)
    hc hpos)

theorem size_le (hc : c ≤ m.kLargestClassID) : m.size c ≤ m.kMaxSize :=
  size_kLargestClassID (m := m) ▸
    (size_strictMonoOn (m := m)).monotoneOn hc (le_refl m.kLargestClassID) hc

/-! ## The class of a size -/

theorem classID_low (h : s ≤ m.kMidSize) :
    m.classID s = (s + m.kMinSize - 1) / m.kMinSize := by
  have hmax : ¬ m.kMaxSize < s := by
    have := Nat.pow_le_pow_right (n := 2) (by norm_num) m.kMidSizeLog_le
    rw [kMidSize_eq] at h
    rw [kMaxSize_eq]
    omega
  rw [classID, if_neg hmax, if_pos h, Nat.shiftRight_eq_div_pow, kMinSize_eq]

section Sizes

variable (h32 : m.kMaxSizeLog < 32)
include h32

/-- The class of a size above `kMidSize` lies in the block of its highest bit: with `d = 2^(e - S)` it is
as far from the first class as the size, in units of `d` and rounded up, is from `2^S`. -/
theorem classID_high (hlow : m.kMidSize < s) (hup : s ≤ m.kMaxSize) :
    ∃ e q, m.kMidSizeLog ≤ e ∧ q ≤ 2 * 2^m.S ∧
      m.classID s = m.kMidClass + ((e - m.kMidSizeLog) * 2^m.S + (q - 2^m.S)) ∧
      m.classID s ≤ m.kLargestClassID ∧
      q = s / 2^(e - m.S) + (if 0 < s % 2^(e - m.S) then 1 else 0) ∧ 2^m.S ≤ s / 2^(e - m.S) := by
  have hS := m.S_le
  have hs : s ≠ 0 := by omega
  rw [kMidSize_eq] at hlow
  rw [kMaxSize_eq] at hup
  have he : m.kMidSizeLog ≤ s.log2 := (Nat.le_log2 hs).mpr hlow.le
  have hpos : 0 < 2^(s.log2 - m.S) := Nat.two_pow_pos _
  have hsplit : 2^s.log2 = 2^m.S * 2^(s.log2 - m.S) := by
    rw [← pow_add, Nat.add_sub_cancel' (hS.trans he)]
  have hlog : 2^s.log2 ≤ s := Nat.log2_self_le hs
  have hlog' : s < 2 * 2^s.log2 := by
    have := Nat.lt_log2_self (n := s)
    rwa [pow_succ, Nat.mul_comm] at this
  have hquot : 2^m.S ≤ s / 2^(s.log2 - m.S) := by
    rw [Nat.le_div_iff_mul_le hpos, ← hsplit]
    exact hlog
  have hquot' : s / 2^(s.log2 - m.S) < 2 * 2^m.S := by
    rw [Nat.div_lt_iff_lt_mul hpos, Nat.mul_assoc, ← hsplit]
    exact hlog'
  have hround : (if 0 < s % 2^(s.log2 - m.S) then 1 else 0) ≤ 1 := by split_ifs <;> omega
  have hmax : s.log2 ≤ m.kMaxSizeLog := by
    by_contra hlt
    have := Nat.pow_lt_pow_right (a := 2) (by norm_num) (not_le.mp hlt)
    omega
  have hmask : 2^(s.log2 - m.S) % 2^32 = 2^(s.log2 - m.S) :=
    Nat.mod_eq_of_lt (Nat.pow_lt_pow_right (by norm_num) (by omega))
  -- The leading bit of the quotient is not part of `hbits`.
  have hbits : s / 2^(s.log2 - m.S) % 2^m.S = s / 2^(s.log2 - m.S) - 2^m.S := by
    rw [Nat.mod_eq_sub_mod hquot, Nat.mod_eq_of_lt (by omega)]
  have hclass : m.classID s = m.kMidClass + ((s.log2 - m.kMidSizeLog) * 2^m.S +
      (s / 2^(s.log2 - m.S) + (if 0 < s % 2^(s.log2 - m.S) then 1 else 0) - 2^m.S)) := by
    rw [classID, if_neg (by rw [kMaxSize_eq]; omega), if_neg (by rw [kMidSize_eq]; omega)]
    dsimp only
    rw [Nat.one_shiftLeft, hmask, M, Nat.one_shiftLeft, Nat.and_two_pow_sub_one_eq_mod,
      Nat.and_two_pow_sub_one_eq_mod, Nat.shiftRight_eq_div_pow, Nat.shiftLeft_eq, hbits,
      Nat.sub_add_comm hquot]
    ring
  refine ⟨s.log2, _, he, by omega, hclass, ?_, rfl, hquot⟩
  rw [hclass, kLargestClassID_eq]
  refine Nat.add_le_add_left ?_ _
  rcases hmax.eq_or_lt with heq | hlt
  · -- Only `kMaxSize` has the highest bit of the last class.
    have hs' : s = 2^m.S * 2^(s.log2 - m.S) := by
      rw [← hsplit]
      exact le_antisymm (heq ▸ hup) hlog
    have hq : s / 2^(s.log2 - m.S) = 2^m.S := Nat.div_eq_of_eq_mul_left hpos hs'
    have hr : s % 2^(s.log2 - m.S) = 0 := Nat.mod_eq_zero_of_dvd (Dvd.intro_left _ hs'.symm)
    rw [hq, hr, if_neg (lt_irrefl 0), Nat.add_zero, Nat.sub_self, Nat.add_zero, heq]
  · calc (s.log2 - m.kMidSizeLog) * 2^m.S +
          (s / 2^(s.log2 - m.S) + (if 0 < s % 2^(s.log2 - m.S) then 1 else 0) - 2^m.S)
      _ ≤ (s.log2 - m.kMidSizeLog) * 2^m.S + 2^m.S := Nat.add_le_add_left (by omega) _
      _ = (s.log2 + 1 - m.kMidSizeLog) * 2^m.S := by rw [Nat.succ_sub he, Nat.succ_mul]
      _ ≤ (m.kMaxSizeLog - m.kMidSizeLog) * 2^m.S := Nat.mul_le_mul_right _ (by omega)

omit h32 in
theorem le_size_iff (hc : c ≤ m.kLargestClassID) (hle : s ≤ m.size c) (hlt : m.size (c - 1) < s)
    {d : ℕ} (hd : d ≤ m.kLargestClassID) : s ≤ m.size d ↔ c ≤ d := by
  constructor
  · intro h
    by_contra hdc
    have hmono := (size_strictMonoOn (m := m)).monotoneOn hd (show c - 1 ≤ m.kLargestClassID by omega)
      (show d ≤ c - 1 by omega)
    omega
  · exact fun h => hle.trans ((size_strictMonoOn (m := m)).monotoneOn hc hd h)

/-- The class of a size is in range, is large enough, and the one before is not. -/
theorem classID_spec (hpos : 0 < s) (hup : s ≤ m.kMaxSize) :
    0 < m.classID s ∧ m.classID s ≤ m.kLargestClassID ∧ s ≤ m.size (m.classID s) ∧
      m.size (m.classID s - 1) < s := by
  rcases Nat.lt_or_ge m.kMidSize s with hhigh | hlow
  · obtain ⟨e, q, he, hq', hclass, hle, hq, hquot⟩ := classID_high h32 hhigh hup
    have hd : 0 < 2^(e - m.S) := Nat.two_pow_pos _
    have hdiv := Nat.div_add_mod' s (2^(e - m.S))
    have hmod := Nat.mod_lt s hd
    have hsize : m.size (m.classID s) = q * 2^(e - m.S) := by
      rw [hclass]
      exact size_block he (by omega) hq' (hclass ▸ hle)
    have hcpos : 0 < m.classID s := by
      have := m.kMidClass_pos
      omega
    refine ⟨hcpos, hle, ?_, ?_⟩
    · rw [hsize, hq]
      split_ifs with hrest
      · rw [Nat.add_mul, Nat.one_mul]
        omega
      · rw [Nat.add_zero]
        omega
    · by_cases hrest : 0 < s % 2^(e - m.S)
      · -- The class before has the size that is rounded down.
        rw [if_pos hrest] at hq
        have hbefore : m.classID s - 1 =
            m.kMidClass + ((e - m.kMidSizeLog) * 2^m.S + (s / 2^(e - m.S) - 2^m.S)) := by
          rw [hclass, hq, Nat.sub_add_comm hquot]
          rfl
        rw [hbefore, size_block he hquot (by omega) (by omega)]
        omega
      · -- The size is that of its class.
        rw [if_neg hrest, Nat.add_zero] at hq
        have hexact : m.size (m.classID s) = s := by
          rw [hsize, hq]
          omega
        calc m.size (m.classID s - 1) < m.size (m.classID s - 1 + 1) := size_lt_succ (by omega)
          _ = s := by rw [Nat.sub_add_cancel hcpos, hexact]
  · have hmin : 0 < m.kMinSize := by
      rw [kMinSize_eq]
      exact Nat.two_pow_pos _
    have hclass := classID_low hlow
    have hdiv := Nat.div_add_mod (s + m.kMinSize - 1) m.kMinSize
    have hmod := Nat.mod_lt (s + m.kMinSize - 1) hmin
    rw [← hclass] at hdiv
    have hmid : m.classID s ≤ m.kMidClass := by
      rw [hclass, ← Nat.lt_succ_iff, Nat.div_lt_iff_lt_mul hmin, Nat.succ_mul, Nat.mul_comm,
        kMinSize_mul_kMidClass]
      omega
    have hcpos : 0 < m.classID s := by
      rw [hclass]
      exact Nat.div_pos (by omega) hmin
    have hlargest := m.kLargestClassID_eq
    refine ⟨hcpos, by omega, ?_, ?_⟩
    · rw [size_low hmid]
      omega
    · rw [size_low (by omega), Nat.mul_sub, Nat.mul_one]
      omega

theorem classID_size (hpos : 0 < c) (hc : c ≤ m.kLargestClassID) : m.classID (m.size c) = c := by
  have hmono := size_strictMonoOn (m := m)
  obtain ⟨-, hle, hlow, hbefore⟩ := classID_spec h32 (size_pos hpos hc) (size_le hc)
  refine le_antisymm ((le_size_iff hle hlow hbefore hc).mp le_rfl) ?_
  exact hmono.le_iff_le hc hle |>.mp hlow

/-- A power of two that divides a size divides the size of its class. -/
theorem two_pow_dvd_size {k : ℕ} (hpos : 0 < s) (hup : s ≤ m.kMaxSize) (hdvd : 2^k ∣ s) :
    2^k ∣ m.size (m.classID s) := by
  -- The class's size is `s` rounded up to a power of two, which divides both or divides `s`.
  have hround : ∀ j q, m.size (m.classID s) = q * 2^j → (2^j ∣ s → m.size (m.classID s) = s) →
      2^k ∣ m.size (m.classID s) := fun j q hq hexact => by
    rcases Nat.le_total k j with hkj | hjk
    · exact hq ▸ Dvd.dvd.mul_left (pow_dvd_pow 2 hkj) q
    · rw [hexact ((pow_dvd_pow 2 hjk).trans hdvd)]
      exact hdvd
  rcases Nat.lt_or_ge m.kMidSize s with hhigh | hlow
  · obtain ⟨e, q, he, hq', hclass, hle, hq, hquot⟩ := classID_high h32 hhigh hup
    have hsize : m.size (m.classID s) = q * 2^(e - m.S) := by
      rw [hclass]
      exact size_block he (by omega) hq' (hclass ▸ hle)
    refine hround (e - m.S) q hsize fun hd => ?_
    rw [hsize, hq, Nat.mod_eq_zero_of_dvd hd, if_neg (lt_irrefl 0), Nat.add_zero, Nat.div_mul_cancel hd]
  · obtain ⟨-, hle, hs, hbefore⟩ := classID_spec h32 hpos hup
    have hmid : m.classID s ≤ m.kMidClass := by
      have hlargest := m.kLargestClassID_eq
      refine (le_size_iff hle hs hbefore (by omega)).mp ?_
      rwa [size_low le_rfl, kMinSize_mul_kMidClass]
    refine hround m.kMinSizeLog (m.classID s) ?_ fun hd => ?_
    · rw [size_low hmid, kMinSize_eq, Nat.mul_comm]
    · obtain ⟨q, rfl⟩ := hd
      rw [size_low hmid, classID_low hlow, kMinSize_eq]
      rw [Nat.add_sub_assoc Nat.one_le_two_pow, Nat.mul_add_div (Nat.two_pow_pos _),
        Nat.div_eq_of_lt (Nat.sub_lt (Nat.two_pow_pos _) Nat.one_pos), Nat.add_zero]

end Sizes

end SizeClassMap

end Tasan.Primary
