import Tasan.Memory

/-!
# NUL-terminated strings

The length of a string of which at most `size` characters are looked at (`IsLength`; `size` is `⊤` where
there is no limit), the bytes that a reader of the string looks at (`reads`), and the loop that copies the
characters before the NUL (`copyLoop`) with the bytes that it reads and writes. The loop reads the string
that was there before as long as it writes no byte that it reads later (`copyLoop_spec`).
-/

namespace Tasan.CString

/-- `n` is the length of the string at `p` of which at most `size` characters are looked at. -/
structure IsLength (m : Mem) (p : ℕ) (size : ℕ∞) (n : ℕ) : Prop where
  /-- The length is within the limit. -/
  le : (n : ℕ∞) ≤ size
  /-- No character is NUL. -/
  char : ∀ i < n, m (p + i) ≠ 0
  /-- Then comes the NUL, or the limit. -/
  stop : (n : ℕ∞) < size → m (p + n) = 0

/-- The bytes that a reader of the string at `p` looks at: up to the NUL, and at most `size`. -/
def reads (m : Mem) (p : ℕ) (size : ℕ∞) : Set ℕ :=
  {b | ∃ i : ℕ, b = p + i ∧ (i : ℕ∞) < size ∧ ∀ j < i, m (p + j) ≠ 0}

/-- `strnlen`. -/
def strnlen (m : Mem) (p : ℕ) : ℕ → ℕ
  | 0 => 0
  | n + 1 => if m p = 0 then 0 else strnlen m (p + 1) n + 1

variable {m : Mem} {p n k : ℕ} {size : ℕ∞}

theorem IsLength.unique (hn : IsLength m p size n) (hk : IsLength m p size k) : n = k := by
  rcases lt_trichotomy n k with h | h | h
  · exact absurd (hn.stop ((Nat.cast_lt.mpr h).trans_le hk.le)) (hk.char n h)
  · exact h
  · exact absurd (hk.stop ((Nat.cast_lt.mpr h).trans_le hn.le)) (hn.char k h)

theorem IsLength.le_of_nul (h : IsLength m p size n) (hk : m (p + k) = 0) : n ≤ k := by
  by_contra hlt
  exact h.char k (by omega) hk

theorem le_of_mem_reads {b : ℕ} (h : b ∈ reads m p size) (hk : m (p + k) = 0) : b ≤ p + k := by
  obtain ⟨i, rfl, -, hchar⟩ := h
  by_contra hlt
  exact hchar k (by omega) hk

theorem IsLength.of_top {size : ℕ} (h : IsLength m p ⊤ n) (hsize : n ≤ size) :
    IsLength m p size n :=
  ⟨Nat.cast_le.mpr hsize, h.char, fun _ => h.stop (ENat.natCast_lt_top n)⟩

theorem isLength_succ {size : ℕ} (hp : m p ≠ 0) (h : IsLength m (p + 1) size n) :
    IsLength m p (size + 1 : ℕ) (n + 1) where
  le := Nat.cast_le.mpr (Nat.succ_le_succ (Nat.cast_le.mp h.le))
  char i hi := by
    rcases i with - | i
    · exact hp
    · rw [show p + (i + 1) = p + 1 + i by omega]
      exact h.char i (by omega)
  stop hlt := by
    rw [show p + (n + 1) = p + 1 + n by omega]
    exact h.stop (Nat.cast_lt.mpr (Nat.lt_of_succ_lt_succ (Nat.cast_lt.mp hlt)))

theorem isLength_strnlen (m : Mem) (p size : ℕ) : IsLength m p size (strnlen m p size) := by
  induction size generalizing p with
  | zero => exact ⟨le_rfl, fun i hi => absurd hi (Nat.not_lt_zero i), fun h => absurd h (lt_irrefl _)⟩
  | succ size ih =>
    rw [strnlen]
    split_ifs with hp
    · exact ⟨Nat.cast_le.mpr (Nat.zero_le _), fun i hi => absurd hi (Nat.not_lt_zero i), fun _ => hp⟩
    · exact isLength_succ hp (ih (p + 1))

theorem mem_reads_iff (h : IsLength m p size n) {b : ℕ} :
    b ∈ reads m p size ↔ p ≤ b ∧ b ≤ p + n ∧ ((b - p : ℕ) : ℕ∞) < size := by
  constructor
  · rintro ⟨i, rfl, hi, hchar⟩
    have hin : i ≤ n := by
      by_contra hlt
      exact hchar n (by omega) (h.stop ((Nat.cast_lt.mpr (by omega)).trans hi))
    exact ⟨by omega, by omega, by rwa [Nat.add_sub_cancel_left]⟩
  · rintro ⟨hp, hn, hsize⟩
    exact ⟨b - p, by omega, hsize, fun j hj => h.char j (by omega)⟩

theorem mem_reads_top_iff (h : IsLength m p ⊤ n) {b : ℕ} :
    b ∈ reads m p ⊤ ↔ p ≤ b ∧ b < p + (n + 1) := by
  rw [mem_reads_iff h, and_iff_left (ENat.natCast_lt_top _), Nat.lt_iff_add_one_le]
  omega

theorem mem_reads_coe_iff {size : ℕ} (h : IsLength m p size n) {b : ℕ} :
    b ∈ reads m p size ↔ p ≤ b ∧ b < p + min size (n + 1) := by
  rw [mem_reads_iff h, Nat.cast_lt]
  omega

/-- A reader looks at the same bytes with two limits when they are equal or the NUL comes before both. -/
theorem reads_eq_iff {a b : ℕ∞} (hab : a ≤ b) :
    reads m p a = reads m p b ↔ a = b ∨ ∃ i : ℕ, (i : ℕ∞) < a ∧ m (p + i) = 0 := by
  constructor
  · intro heq
    by_contra hnot
    obtain ⟨hne, hchar⟩ := not_or.mp hnot
    have hlt : a < b := lt_of_le_of_ne hab hne
    obtain ⟨n, rfl⟩ := ENat.ne_top_iff_exists.mp hlt.ne_top
    -- the first byte behind the smaller limit
    have hmem : p + n ∈ reads m p b := ⟨n, rfl, hlt, fun j hj h => hchar ⟨j, Nat.cast_lt.mpr hj, h⟩⟩
    rw [← heq] at hmem
    obtain ⟨i, hi, hin, -⟩ := hmem
    have := Nat.cast_lt.mp hin
    omega
  · rintro (rfl | ⟨i, hi, hnul⟩)
    · rfl
    · ext c
      constructor
      · rintro ⟨j, rfl, hj, hchar⟩
        exact ⟨j, rfl, hj.trans_le hab, hchar⟩
      · rintro ⟨j, rfl, -, hchar⟩
        refine ⟨j, rfl, lt_of_le_of_lt (Nat.cast_le.mpr ?_) hi, hchar⟩
        by_contra hlt
        exact hchar i (by omega) hnul

theorem isLength_top_strnlen {memEnd size : ℕ} (h : ∀ b ∈ reads m p ⊤, b < memEnd)
    (hsize : memEnd ≤ p + size) : IsLength m p ⊤ (strnlen m p size) := by
  have hlen := isLength_strnlen m p size
  have hlt : strnlen m p size < size := by
    have := h (p + strnlen m p size) ⟨_, rfl, ENat.natCast_lt_top _, hlen.char⟩
    omega
  exact ⟨le_top, hlen.char, fun _ => hlen.stop (Nat.cast_lt.mpr hlt)⟩

/-- What a loop over memory leaves: the memory, the number of characters that it copied, and the bytes that
it read and wrote. -/
structure Copied where
  /-- The memory. -/
  mem : Mem
  /-- The number of characters. -/
  count : ℕ
  /-- The bytes read. -/
  read : List ℕ
  /-- The bytes written. -/
  written : List ℕ

/-- `for (i = 0; i < n && src[i]; i++) dst[i] = src[i];` -/
def copyLoop (m : Mem) (dst src : ℕ) : ℕ → Copied
  | 0 => ⟨m, 0, [], []⟩
  | n + 1 =>
    if m src = 0 then ⟨m, 0, [src], []⟩
    else
      let r := copyLoop (m.set dst (m src)) (dst + 1) (src + 1) n
      ⟨r.mem, r.count + 1, src :: r.read, dst :: r.written⟩

/-- The loop copies the string that was there before, when it writes no byte that it reads later. -/
theorem copyLoop_spec {dst src size : ℕ} (hlen : IsLength m src size n)
    (hlater : ∀ j i, j < i → i ≤ n → i < size → dst + j ≠ src + i) :
    (copyLoop m dst src size).count = n ∧
    (∀ b, b ∈ (copyLoop m dst src size).read ↔ src ≤ b ∧ b < src + min size (n + 1)) ∧
    ∀ b, b ∈ (copyLoop m dst src size).written ↔ dst ≤ b ∧ b < dst + n := by
  induction size generalizing m dst src n with
  | zero =>
    obtain rfl : n = 0 := Nat.le_zero.mp (Nat.cast_le.mp hlen.le)
    refine ⟨rfl, fun b => iff_of_false List.not_mem_nil (by omega),
      fun b => iff_of_false List.not_mem_nil (by omega)⟩
  | succ size ih =>
    rw [copyLoop]
    split_ifs with hsrc
    · obtain rfl : n = 0 := by
        by_contra hn
        exact hlen.char 0 (by omega) hsrc
      refine ⟨rfl, fun b => ?_, fun b => iff_of_false List.not_mem_nil (by omega)⟩
      rw [List.mem_singleton]
      omega
    · -- The characters that are left are those of the string before the store.
      obtain ⟨n, rfl⟩ : ∃ k, n = k + 1 := by
        refine Nat.exists_eq_succ_of_ne_zero ?_
        rintro rfl
        exact hsrc (hlen.stop (Nat.cast_lt.mpr (by omega)))
      have hsame : ∀ i, i ≤ n → i < size →
          (m.set dst (m src)) (src + 1 + i) = m (src + (i + 1)) := by
        intro i hi hlt
        have := hlater 0 (i + 1) (by omega) (by omega) (by omega)
        rw [Mem.set_of_ne _ _ (by omega), show src + 1 + i = src + (i + 1) by omega]
      have hle : n + 1 ≤ size + 1 := Nat.cast_le.mp hlen.le
      have hrest : IsLength (m.set dst (m src)) (src + 1) size n :=
        { le := Nat.cast_le.mpr (by omega)
          char := fun i hi => hsame i (by omega) (by omega) ▸ hlen.char (i + 1) (by omega)
          stop := fun hlt => by
            have hlt : n < size := Nat.cast_lt.mp hlt
            rw [hsame n le_rfl hlt]
            exact hlen.stop (Nat.cast_lt.mpr (by omega)) }
      have hlater' : ∀ j i, j < i → i ≤ n → i < size → dst + 1 + j ≠ src + 1 + i := by
        intro j i hj hi hlt
        have := hlater (j + 1) (i + 1) (by omega) (by omega) (by omega)
        omega
      obtain ⟨hcount, hread, hwritten⟩ := ih hrest hlater'
      refine ⟨congrArg (· + 1) hcount, fun b => ?_, fun b => ?_⟩
      · rw [List.mem_cons, hread]
        omega
      · rw [List.mem_cons, hwritten]
        omega

end Tasan.CString
