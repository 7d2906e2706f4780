import Mathlib

/-!
# Byte memory

A memory is a function from addresses to bytes. `fill` is `memset` on a range, `move` is `memmove`,
`readLE` and `writeLE` load and store a little-endian number of `n` bytes. Each operation comes with
its effect at one address and its frame: `fill` and `writeLE` change nothing outside their range, and
a read depends only on the bytes that it covers.
-/

namespace Tasan

/-- A byte. -/
abbrev Byte := BitVec 8

/-- A byte for each address. -/
abbrev Mem := ℕ → Byte

namespace Mem

/-- One byte stored. -/
def set (m : Mem) (a : ℕ) (v : Byte) : Mem := fun x => if x = a then v else m x

/-- `memset`: the bytes of `[a, a + n)` set to `v`. -/
def fill (m : Mem) (a n : ℕ) (v : Byte) : Mem := fun x => if a ≤ x ∧ x < a + n then v else m x

/-- `memmove`: the bytes of `[src, src + n)` stored from `dst` on, as they were before. -/
def move (m : Mem) (dst src n : ℕ) : Mem :=
  fun x => if dst ≤ x ∧ x < dst + n then m (src + (x - dst)) else m x

/-- The little-endian number in the `n` bytes from `a`. -/
def readLE (m : Mem) (a : ℕ) : ℕ → ℕ
  | 0 => 0
  | n + 1 => (m a).toNat + 256 * readLE m (a + 1) n

/-- The low `n` bytes of `v` stored from `a`, least significant first. -/
def writeLE (m : Mem) (a : ℕ) : ℕ → ℕ → Mem
  | 0, _ => m
  | n + 1, v => writeLE (m.set a (BitVec.ofNat 8 v)) (a + 1) n (v / 256)

@[simp]
theorem set_self (m : Mem) (a : ℕ) (v : Byte) : m.set a v a = v := if_pos rfl

theorem set_of_ne (m : Mem) (v : Byte) {a x : ℕ} (h : x ≠ a) : m.set a v x = m x := if_neg h

theorem fill_of_mem (m : Mem) (v : Byte) {a n x : ℕ} (h : a ≤ x ∧ x < a + n) :
    m.fill a n v x = v := if_pos h

theorem fill_of_not_mem (m : Mem) (v : Byte) {a n x : ℕ} (h : ¬ (a ≤ x ∧ x < a + n)) :
    m.fill a n v x = m x := if_neg h

@[simp]
theorem fill_zero (m : Mem) (a : ℕ) (v : Byte) : m.fill a 0 v = m := by
  funext x
  exact if_neg (by omega)

theorem fill_fill (m : Mem) (v : Byte) (a n k : ℕ) :
    (m.fill a n v).fill (a + n) k v = m.fill a (n + k) v := by
  funext x
  unfold fill
  split_ifs <;> first | rfl | omega

theorem readLE_congr {m m' : Mem} {a : ℕ} (n : ℕ) (h : ∀ x, a ≤ x → x < a + n → m x = m' x) :
    m.readLE a n = m'.readLE a n := by
  induction n generalizing a with
  | zero => rfl
  | succ n ih =>
    rw [readLE, readLE, h a le_rfl (by omega), ih (fun x h1 h2 => h x (by omega) (by omega))]

theorem readLE_lt (m : Mem) (a n : ℕ) : m.readLE a n < 256^n := by
  induction n generalizing a with
  | zero => simp [readLE]
  | succ n ih =>
    have h1 := (m a).isLt
    have h2 := ih (a + 1)
    rw [readLE, pow_succ]
    omega

theorem readLE_mod (m : Mem) (a : ℕ) {k n : ℕ} (h : k ≤ n) : m.readLE a n % 256^k = m.readLE a k := by
  induction k generalizing a n with
  | zero => rw [pow_zero, Nat.mod_one, readLE]
  | succ k ih =>
    obtain ⟨n, rfl⟩ : ∃ j, n = j + 1 := ⟨n - 1, by omega⟩
    have hbyte := (m a).isLt
    have hdiv : ((m a).toNat + 256 * m.readLE (a + 1) n) / 256 = m.readLE (a + 1) n := by omega
    rw [readLE, readLE, ← ih (a + 1) (by omega : k ≤ n), pow_succ', Nat.mod_mul, hdiv]
    omega

theorem readLE_eq_zero_iff (m : Mem) (a n : ℕ) :
    m.readLE a n = 0 ↔ ∀ x, a ≤ x → x < a + n → m x = 0 := by
  induction n generalizing a with
  | zero => simp [readLE]; omega
  | succ n ih =>
    rw [readLE, Nat.add_eq_zero_iff, Nat.mul_eq_zero, or_iff_right (by norm_num), ih]
    constructor
    · rintro ⟨h0, h⟩ x h1 h2
      rcases eq_or_lt_of_le h1 with rfl | h1
      · exact BitVec.eq_of_toNat_eq h0
      · exact h x h1 (by omega)
    · intro h
      refine ⟨?_, fun x h1 h2 => h x (by omega) (by omega)⟩
      rw [h a le_rfl (by omega)]
      rfl

theorem writeLE_of_not_mem (m : Mem) {a n x : ℕ} (v : ℕ) (h : ¬ (a ≤ x ∧ x < a + n)) :
    m.writeLE a n v x = m x := by
  induction n generalizing m a v with
  | zero => rfl
  | succ n ih =>
    rw [writeLE, ih _ _ (by omega), set_of_ne _ _ (by omega)]

theorem readLE_writeLE (m : Mem) (a n v : ℕ) : (m.writeLE a n v).readLE a n = v % 256^n := by
  induction n generalizing m a v with
  | zero =>
    rw [readLE]
    omega
  | succ n ih =>
    have hmod : v % 256^(n + 1) = v % 256 + 256 * (v / 256 % 256^n) := by
      rw [pow_succ, Nat.mul_comm, Nat.mod_mul]
    rw [readLE, writeLE, ih, writeLE_of_not_mem _ _ (by omega), set_self, BitVec.toNat_ofNat, hmod]

end Mem

end Tasan
