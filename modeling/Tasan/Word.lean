import Mathlib

/-!
# Words of `w` bits

Machine words are natural numbers below `2^w`, and the operations wrap modulo `2^w`. The rounding
functions are written with the masks that a C++ implementation uses, and the theorems here say what
they compute at a power-of-two boundary: `roundDownTo_two_pow` always, and `roundUpTo_two_pow` with
the wrap of the sum `size + boundary - 1` left visible. `roundUpTo_of_lt` is the case where the sum
does not wrap.
-/

namespace Tasan.Word

/-- The sum of two words. -/
def add (w a b : ℕ) : ℕ := (a + b) % 2^w

/-- The difference of two words, modulo `2^w`. -/
def sub (w a b : ℕ) : ℕ := (a + 2^w - b) % 2^w

/-- The bitwise complement of a word. -/
def compl (w x : ℕ) : ℕ := 2^w - 1 - x

/-- `(x & (x - 1)) == 0`, which holds of the powers of two and of zero. -/
def isPowerOfTwo (w x : ℕ) : Bool := x &&& sub w x 1 == 0

/-- `(a & (alignment - 1)) == 0`. -/
def isAligned (w a alignment : ℕ) : Bool := a &&& sub w alignment 1 == 0

/-- `(size + boundary - 1) & ~(boundary - 1)`. -/
def roundUpTo (w size boundary : ℕ) : ℕ :=
  sub w (add w size boundary) 1 &&& compl w (sub w boundary 1)

/-- `x & ~(boundary - 1)`. -/
def roundDownTo (w x boundary : ℕ) : ℕ := x &&& compl w (sub w boundary 1)

theorem add_of_lt {w a b : ℕ} (h : a + b < 2^w) : add w a b = a + b := Nat.mod_eq_of_lt h

theorem sub_of_le {w a b : ℕ} (h : b ≤ a) (ha : a < 2^w) : sub w a b = a - b := by
  unfold sub
  rw [show a + 2^w - b = a - b + 2^w by omega, Nat.add_mod_right, Nat.mod_eq_of_lt (by omega)]

theorem sub_of_lt {w a b : ℕ} (h : a < b) (hb : b ≤ 2^w) : sub w a b = a + 2^w - b := by
  unfold sub
  exact Nat.mod_eq_of_lt (by omega)

theorem sub_two_pow_one {w a : ℕ} (h : a < w) : sub w (2^a) 1 = 2^a - 1 :=
  sub_of_le Nat.one_le_two_pow (Nat.pow_lt_pow_right (by norm_num) h)

theorem and_mask {w a : ℕ} (h : a < w) (x : ℕ) : x &&& sub w (2^a) 1 = x % 2^a := by
  rw [sub_two_pow_one h, Nat.and_two_pow_sub_one_eq_mod]

/-- The complement of the mask of `2^a` clears the low `a` bits of a word. -/
theorem and_compl_mask {w a x : ℕ} (h : a ≤ w) (hx : x < 2^w) :
    x &&& (2^w - 2^a) = x / 2^a * 2^a := by
  have hm : 2^w - 2^a = 2^w - (2^a - 1 + 1) := by
    rw [Nat.sub_add_cancel Nat.one_le_two_pow]
  have hlt : 2^a - 1 < 2^w := by
    have := Nat.pow_le_pow_right (n := 2) (by norm_num) h
    have := Nat.one_le_two_pow (n := a)
    omega
  apply Nat.eq_of_testBit_eq
  intro i
  rw [Nat.testBit_and, hm, Nat.testBit_two_pow_sub_succ hlt, Nat.testBit_two_pow_sub_one,
    Nat.testBit_mul_two_pow, Nat.testBit_div_two_pow]
  by_cases hi : a ≤ i
  · rw [Nat.sub_add_cancel hi]
    rcases lt_or_ge i w with hiw | hiw
    · simp [hi, hiw]
    · have : x.testBit i = false :=
        Nat.testBit_lt_two_pow (lt_of_lt_of_le hx (Nat.pow_le_pow_right (by norm_num) hiw))
      simp [this]
  · have hia : i < a := by omega
    simp [hi, hia]

theorem roundDownTo_two_pow {w a x : ℕ} (h : a < w) (hx : x < 2^w) :
    roundDownTo w x (2^a) = x / 2^a * 2^a := by
  have h1 := Nat.one_le_two_pow (n := a)
  unfold roundDownTo compl
  rw [sub_two_pow_one h, show 2^w - 1 - (2^a - 1) = 2^w - 2^a by omega, and_compl_mask h.le hx]

theorem roundUpTo_two_pow {w a x : ℕ} (h : a < w) :
    roundUpTo w x (2^a) = (x + 2^a - 1) % 2^w / 2^a * 2^a := by
  have h1 := Nat.one_le_two_pow (n := a)
  have hsum : sub w (add w x (2^a)) 1 = (x + 2^a - 1) % 2^w := by
    unfold sub add
    have hw := Nat.one_le_two_pow (n := w)
    rw [Nat.add_sub_assoc hw, Nat.mod_add_mod, ← Nat.add_sub_assoc hw,
      show x + 2^a + 2^w - 1 = x + 2^a - 1 + 2^w by omega, Nat.add_mod_right]
  unfold roundUpTo compl
  rw [hsum, sub_two_pow_one h, show 2^w - 1 - (2^a - 1) = 2^w - 2^a by omega,
    and_compl_mask h.le (Nat.mod_lt _ (by positivity))]

theorem roundUpTo_of_lt {w a x : ℕ} (h : a < w) (hx : x + 2^a - 1 < 2^w) :
    roundUpTo w x (2^a) = (x + 2^a - 1) / 2^a * 2^a := by
  rw [roundUpTo_two_pow h, Nat.mod_eq_of_lt hx]

/-! ### Rounding up without a wrap -/

section RoundUp

variable {w a x y : ℕ} (h : a < w) (hx : x + 2^a - 1 < 2^w)

include h

theorem dvd_roundUpTo : 2^a ∣ roundUpTo w x (2^a) := by
  rw [roundUpTo_two_pow h]
  exact Nat.dvd_mul_left _ _

include hx

/-- It is the least multiple of the boundary that is not below. -/
theorem roundUpTo_le_iff (hy : 2^a ∣ y) : roundUpTo w x (2^a) ≤ y ↔ x ≤ y := by
  obtain ⟨k, rfl⟩ := hy
  have hpos : 0 < 2^a := Nat.two_pow_pos a
  rw [roundUpTo_of_lt h hx, Nat.mul_comm (2^a) k, Nat.mul_le_mul_right_iff hpos, Nat.div_le_iff_le_mul hpos]
  omega

theorem le_roundUpTo : x ≤ roundUpTo w x (2^a) := (roundUpTo_le_iff h hx (dvd_roundUpTo h)).mp le_rfl

theorem roundUpTo_lt : roundUpTo w x (2^a) < x + 2^a := by
  have hpos : 0 < 2^a := Nat.two_pow_pos a
  have hle := Nat.div_mul_le_self (x + 2^a - 1) (2^a)
  rw [roundUpTo_of_lt h hx]
  omega

end RoundUp

theorem isAligned_two_pow {w a x : ℕ} (h : a < w) : isAligned w x (2^a) = true ↔ x % 2^a = 0 := by
  unfold isAligned
  rw [and_mask h, beq_iff_eq]

theorem isPowerOfTwo_iff {w x : ℕ} (hx : x < 2^w) :
    isPowerOfTwo w x = true ↔ x = 0 ∨ ∃ a, a < w ∧ x = 2^a := by
  unfold isPowerOfTwo
  rcases Nat.eq_zero_or_pos x with rfl | hpos
  · simp
  · rw [sub_of_le hpos hx, beq_iff_eq, Nat.and_sub_one_eq_zero_iff_isPowerOfTwo hpos.ne']
    constructor
    · rintro ⟨a, rfl⟩
      exact Or.inr ⟨a, (Nat.pow_lt_pow_iff_right (by norm_num)).mp hx, rfl⟩
    · rintro (rfl | ⟨a, -, rfl⟩)
      · exact absurd hpos (by norm_num)
      · exact ⟨a, rfl⟩

theorem lt_iff_div_mod {g : ℕ} (hg : 0 < g) (x y : ℕ) :
    x < y ↔ x / g < y / g ∨ x / g = y / g ∧ x % g < y % g := by
  have hx := Nat.div_add_mod x g
  have hy := Nat.div_add_mod y g
  have hxr := Nat.mod_lt x hg
  have hyr := Nat.mod_lt y hg
  rcases lt_trichotomy (x / g) (y / g) with h | h | h
  · have := Nat.mul_le_mul_left g h
    rw [Nat.mul_succ] at this
    simp only [h, true_or, iff_true]
    omega
  · rw [h] at hx
    simp only [h, lt_irrefl, false_or, true_and]
    omega
  · have := Nat.mul_le_mul_left g h
    rw [Nat.mul_succ] at this
    simp only [h.not_gt, h.ne', false_and, or_false, iff_false]
    omega

end Tasan.Word
