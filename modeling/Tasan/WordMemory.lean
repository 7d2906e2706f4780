import Tasan.Memory

/-!
# Byte memory with machine words for addresses

A range of `n` bytes from the word `a` holds the addresses `x` with `(x - a).toNat < n`, so that it may
go over the end of the address space. `WordMem.store` and `WordMem.load` move a little-endian number of
`n` bytes, each with its effect on its own range and its frame outside of it. The last section is about
signed displacements: a displacement that fits in the low `k` bits is the sign extension of them.
-/

namespace Tasan

/-- A byte for each word. -/
abbrev WordMem := BitVec 64 → Byte

/-- Address `x` is one of the `n` bytes from `a`. -/
def InRange (a : BitVec 64) (n : ℕ) (x : BitVec 64) : Prop := (x - a).toNat < n

instance (a : BitVec 64) (n : ℕ) (x : BitVec 64) : Decidable (InRange a n x) :=
  inferInstanceAs (Decidable ((x - a).toNat < n))

theorem toNat_add_ofNat_sub (a : BitVec 64) {i : ℕ} (hi : i < 2^64) :
    (a + BitVec.ofNat 64 i - a).toNat = i := by
  rw [add_sub_cancel_left, BitVec.toNat_ofNat, Nat.mod_eq_of_lt hi]

theorem add_ofNat_toNat_sub (a x : BitVec 64) : a + BitVec.ofNat 64 (x - a).toNat = x := by
  rw [BitVec.ofNat_toNat, BitVec.setWidth_eq, add_sub_cancel]

theorem inRange_add_ofNat (a : BitVec 64) {n i : ℕ} (hi : i < n) (hn : n ≤ 2^64) :
    InRange a n (a + BitVec.ofNat 64 i) := by
  unfold InRange
  rwa [toNat_add_ofNat_sub a (by omega)]

theorem InRange.mono {a x : BitVec 64} {n k : ℕ} (h : InRange a n x) (hk : n ≤ k) :
    InRange a k x := lt_of_lt_of_le h hk

theorem toNat_sub_eq_add {a x : BitVec 64} {k n : ℕ} (h : InRange (a + BitVec.ofNat 64 k) n x)
    (hkn : k + n ≤ 2^64) : (x - a).toNat = k + (x - (a + BitVec.ofNat 64 k)).toNat := by
  unfold InRange at h
  have hx : x - a = BitVec.ofNat 64 k + (x - (a + BitVec.ofNat 64 k)) := by ring
  rw [hx, BitVec.toNat_add, BitVec.toNat_ofNat, Nat.mod_eq_of_lt (show k < 2^64 by omega),
    Nat.mod_eq_of_lt (by omega)]

theorem InRange.sub {a x : BitVec 64} {k n N : ℕ} (h : InRange (a + BitVec.ofNat 64 k) n x)
    (hkn : k + n ≤ N) (hN : N ≤ 2^64) : InRange a N x := by
  have hx := toNat_sub_eq_add h (by omega)
  unfold InRange at h ⊢
  omega

theorem InRange.not_start {a x : BitVec 64} {k n : ℕ} (h : InRange (a + BitVec.ofNat 64 k) n x)
    (hkn : k + n ≤ 2^64) : ¬ InRange a k x := by
  have hx := toNat_sub_eq_add h hkn
  unfold InRange at h ⊢
  omega

namespace WordMem

/-- The low `n` bytes of `v` stored from `a`, least significant first. -/
def store (m : WordMem) (a : BitVec 64) (n v : ℕ) : WordMem :=
  fun x => if InRange a n x then BitVec.ofNat 8 (v / 256^(x - a).toNat) else m x

/-- The little-endian number in the `n` bytes from `a`. -/
def load (m : WordMem) (a : BitVec 64) (n : ℕ) : ℕ :=
  Mem.readLE (fun i => m (a + BitVec.ofNat 64 i)) 0 n

/-- `memset`. -/
def fill (m : WordMem) (a : BitVec 64) (n : ℕ) (v : Byte) : WordMem :=
  fun x => if InRange a n x then v else m x

/-- `memcpy` by a loop over the bytes, from the first one on. -/
def copy (m : WordMem) (dst src : BitVec 64) : ℕ → WordMem
  | 0 => m
  | n + 1 =>
    let m := copy m dst src n
    fun x => if x = dst + BitVec.ofNat 64 n then m (src + BitVec.ofNat 64 n) else m x

theorem store_of_not_inRange (m : WordMem) (v : ℕ) {a x : BitVec 64} {n : ℕ}
    (h : ¬ InRange a n x) : m.store a n v x = m x := if_neg h

theorem store_of_part (m : WordMem) (v : ℕ) {a b x : BitVec 64} {k n N : ℕ}
    (hb : b = a + BitVec.ofNat 64 k) (hkn : k + n ≤ N) (hN : N ≤ 2^64) (hx : ¬ InRange a N x) :
    m.store b n v x = m x := by
  subst hb
  exact store_of_not_inRange m v fun h => hx (h.sub hkn hN)

theorem store_add_ofNat (m : WordMem) (v : ℕ) (a : BitVec 64) {n i : ℕ} (hi : i < n)
    (hn : n ≤ 2^64) : m.store a n v (a + BitVec.ofNat 64 i) = BitVec.ofNat 8 (v / 256^i) := by
  unfold store
  rw [if_pos (inRange_add_ofNat a hi hn), toNat_add_ofNat_sub a (by omega)]

theorem fill_of_not_inRange (m : WordMem) (v : Byte) {a x : BitVec 64} {n : ℕ}
    (h : ¬ InRange a n x) : m.fill a n v x = m x := if_neg h

theorem load_congr {m m' : WordMem} {a b : BitVec 64} {n : ℕ}
    (h : ∀ i < n, m (a + BitVec.ofNat 64 i) = m' (b + BitVec.ofNat 64 i)) :
    m.load a n = m'.load b n :=
  Mem.readLE_congr n fun i _ hi => h i (by omega)

theorem readLE_bytes (v a n : ℕ) :
    Mem.readLE (fun i => BitVec.ofNat 8 (v / 256^i)) a n = v / 256^a % 256^n := by
  induction n generalizing a with
  | zero => simp [Mem.readLE, Nat.mod_one]
  | succ n ih =>
    rw [Mem.readLE, ih, BitVec.toNat_ofNat, pow_succ 256 a, ← Nat.div_div_eq_div_mul,
      pow_succ 256 n, Nat.mul_comm (256^n), Nat.mod_mul]

theorem load_store_self (m : WordMem) (a : BitVec 64) (v : ℕ) {n : ℕ} (hn : n ≤ 2^64) :
    (m.store a n v).load a n = v % 256^n := by
  have hbyte : ∀ i < n, m.store a n v (a + BitVec.ofNat 64 i) = BitVec.ofNat 8 (v / 256^i) :=
    fun i hi => store_add_ofNat m v a hi hn
  unfold load
  rw [Mem.readLE_congr n fun i _ hi => hbyte i (by omega), readLE_bytes, pow_zero, Nat.div_one]

/-- A copy between disjoint ranges. -/
theorem copy_eq (m : WordMem) {dst src : BitVec 64} {n : ℕ} (hn : n ≤ 2^64)
    (hdisj : ∀ x, InRange src n x → ¬ InRange dst n x) (x : BitVec 64) :
    m.copy dst src n x =
      if InRange dst n x then m (src + BitVec.ofNat 64 (x - dst).toNat) else m x := by
  induction n generalizing x with
  | zero =>
    rw [copy, if_neg (show ¬ InRange dst 0 x from Nat.not_lt_zero _)]
  | succ n ih =>
    have ih := ih (by omega) fun x h1 h2 => hdisj x (h1.mono (by omega)) (h2.mono (by omega))
    rw [copy]
    dsimp only
    rcases eq_or_ne x (dst + BitVec.ofNat 64 n) with rfl | hx
    · have hsrc := hdisj _ (inRange_add_ofNat src (Nat.lt_succ_self n) hn)
      rw [if_pos rfl, if_pos (inRange_add_ofNat dst (Nat.lt_succ_self n) hn), ih,
        if_neg fun h => hsrc (h.mono (by omega)), toNat_add_ofNat_sub dst (by omega)]
    · rw [if_neg hx, ih]
      -- Only the last byte is in the longer range and not in the shorter one.
      have hne : (x - dst).toNat ≠ n := fun h => hx (by rw [← h, add_ofNat_toNat_sub])
      have hiff : InRange dst n x ↔ InRange dst (n + 1) x := by
        unfold InRange
        omega
      exact if_congr hiff rfl rfl

end WordMem

/-! ## Signed displacements -/

theorem signExtend_setWidth {k : ℕ} (hk : 0 < k) (hk64 : k ≤ 64) {d : BitVec 64}
    (h1 : -2^(k - 1) ≤ d.toInt) (h2 : d.toInt < 2^(k - 1)) :
    (d.setWidth k).signExtend 64 = d := by
  apply BitVec.eq_of_toInt_eq
  have hpow : (2 : ℤ)^k = 2^(k - 1) + 2^(k - 1) := by
    rw [← mul_two, ← pow_succ, Nat.sub_add_cancel hk]
  rw [BitVec.toInt_signExtend_of_le hk64, BitVec.toInt_setWidth]
  have hnat : (d.toNat : ℤ).bmod (2^k) = d.toInt.bmod (2^k) := by
    rw [BitVec.toInt_eq_toNat_bmod, Int.bmod_bmod_of_dvd]
    exact_mod_cast pow_dvd_pow 2 hk64
  rw [hnat]
  apply Int.bmod_eq_of_le
  · push_cast
    omega
  · push_cast
    omega

theorem ofNat_toNat_mod (d : BitVec 64) (k : ℕ) :
    BitVec.ofNat k (d.toNat % 2^k) = d.setWidth k := by
  apply BitVec.eq_of_toNat_eq
  rw [BitVec.toNat_ofNat, BitVec.toNat_setWidth, Nat.mod_mod]

end Tasan
