import Tasan.Memory

/-!
# `internal_memset`

`__sanitizer_internal_memset` of `sanitizer_libc.cpp`. A block of whole 16-byte units at a multiple of 16 is
stored by 64-bit words, into which `c` is replicated by shifts and ors; every other block is stored by bytes.
The replication starts from `c` sign-extended to 64 bits. The bits above the low byte are never cleared, and
each of them ends up in the bytes above its own (`getLsbD_replicated`): `memset_iff` says for which `c` that
makes no difference. Words are stored least significant byte first.
-/

namespace Tasan.Libc

variable {m : Mem} {s n a : ℕ} {c : BitVec 32}

/-- The value `v` of the fast path. -/
def replicated (c : BitVec 32) : BitVec 64 :=
  let v := c.signExtend 64
  let v := v ||| v <<< 8
  let v := v ||| v <<< 16
  v ||| v <<< 32

/-- The loop of the fast path, from `p` on, with at most as many turns as `fuel`. -/
def storeWords (v e : ℕ) : ℕ → ℕ → Mem → Mem
  | 0, _, m => m
  | fuel + 1, p, m =>
    if p < e then storeWords v e fuel (p + 16) ((m.writeLE (p + 8) 8 v).writeLE p 8 v) else m

/-- The loop of the other path, with `n` bytes left. -/
def storeBytes (b : Byte) : ℕ → ℕ → Mem → Mem
  | 0, _, m => m
  | n + 1, t, m => storeBytes b n (t + 1) (m.set t b)

/-- `__sanitizer_internal_memset`. -/
def internalMemset (m : Mem) (s : ℕ) (c : BitVec 32) (n : ℕ) : Mem :=
  if s % 16 = 0 ∧ n % 16 = 0 then storeWords (replicated c).toNat (s + n / 8 * 8) n s m
  else storeBytes (c.setWidth 8) n s m

/-! ## The loops -/

theorem writeLE_of_mem (m : Mem) {x : ℕ} (v : ℕ) (h : a ≤ x ∧ x < a + n) :
    m.writeLE a n v x = BitVec.ofNat 8 (v / 256^(x - a)) := by
  induction n generalizing m a v with
  | zero => omega
  | succ n ih =>
    rw [Mem.writeLE]
    rcases eq_or_lt_of_le h.1 with rfl | hlt
    · rw [Mem.writeLE_of_not_mem _ _ (by omega), Mem.set_self, Nat.sub_self, pow_zero, Nat.div_one]
    · rw [ih _ _ (by omega), Nat.div_div_eq_div_mul, show x - a = x - (a + 1) + 1 by omega, pow_succ,
        Nat.mul_comm]

/-- The word loop stores the bytes of `v` one after the other, over and over. -/
theorem storeWords_apply {v e : ℕ} {fuel : ℕ} (hfuel : e - a ≤ 16 * fuel) (hdvd : 16 ∣ e - a) (m : Mem)
    (x : ℕ) : storeWords v e fuel a m x =
      if a ≤ x ∧ x < e then BitVec.ofNat 8 (v / 256^((x - a) % 8)) else m x := by
  induction fuel generalizing a m with
  | zero => rw [storeWords, if_neg (by omega)]
  | succ fuel ih =>
    rw [storeWords]
    by_cases hlt : a < e
    · rw [if_pos hlt, ih (by omega) (by omega)]
      by_cases hlater : a + 16 ≤ x ∧ x < e
      · rw [if_pos hlater, if_pos (by omega), show (x - a) % 8 = (x - (a + 16)) % 8 by omega]
      rw [if_neg hlater]
      by_cases hin : a ≤ x ∧ x < e
      · -- the first word, or the second one
        rw [if_pos hin]
        rcases lt_or_ge x (a + 8) with hx | hx
        · rw [writeLE_of_mem _ _ (by omega), Nat.mod_eq_of_lt (by omega : x - a < 8)]
        · rw [Mem.writeLE_of_not_mem _ _ (by omega), writeLE_of_mem _ _ (by omega),
            show (x - a) % 8 = x - (a + 8) by omega]
      · rw [if_neg hin, Mem.writeLE_of_not_mem _ _ (by omega), Mem.writeLE_of_not_mem _ _ (by omega)]
    · rw [if_neg hlt, if_neg (by omega)]

theorem storeBytes_eq (b : Byte) (m : Mem) : storeBytes b n a m = m.fill a n b := by
  induction n generalizing a m with
  | zero => rw [storeBytes, Mem.fill_zero]
  | succ n ih =>
    funext x
    rw [storeBytes, ih]
    rcases eq_or_ne x a with rfl | hne
    · rw [Mem.fill_of_not_mem _ _ (by omega), Mem.set_self, Mem.fill_of_mem _ _ (by omega)]
    · unfold Mem.fill
      rw [Mem.set_of_ne _ _ hne]
      exact if_congr (by omega) rfl rfl

/-! ## The replication -/

/-- A bit of `v` is set where one of `c` is, in the same place of the same byte or of one below it. -/
theorem getLsbD_replicated {i : ℕ} (hi : i < 64) : (replicated c).getLsbD i = true ↔
    ∃ k ≤ i / 8, (c.signExtend 64).getLsbD (i - 8 * k) = true := by
  generalize hv : c.signExtend 64 = v
  -- the shifts that the three steps add up to
  have hstep : (replicated c).getLsbD i = true ↔ ∃ k < 8, 8 * k ≤ i ∧ v.getLsbD (i - 8 * k) = true := by
    unfold replicated
    rw [hv]
    simp only [BitVec.getLsbD_or, BitVec.getLsbD_shiftLeft, hi, decide_true, Bool.true_and,
      Bool.or_eq_true, Bool.and_eq_true, Bool.not_eq_true', decide_eq_false_iff_not, not_lt,
      Nat.sub_sub, (show i - 32 < 64 by omega), (show i - 16 < 64 by omega),
      (show i - (32 + 16) < 64 by omega)]
    constructor
    · rintro (((h | ⟨h1, h⟩) | ⟨h2, h | ⟨h1, h⟩⟩) | ⟨h3, (h | ⟨h1, h⟩) | ⟨h2, h | ⟨h1, h⟩⟩⟩)
      exacts [⟨0, by omega, by omega, h⟩, ⟨1, by omega, by omega, h⟩, ⟨2, by omega, by omega, h⟩,
        ⟨3, by omega, by omega, h⟩, ⟨4, by omega, by omega, h⟩, ⟨5, by omega, by omega, h⟩,
        ⟨6, by omega, by omega, h⟩, ⟨7, by omega, by omega, h⟩]
    · rintro ⟨k, hk, hle, h⟩
      interval_cases k <;> simp_all <;> omega
  rw [hstep]
  constructor
  · rintro ⟨k, -, hle, h⟩
    exact ⟨k, by omega, h⟩
  · rintro ⟨k, hle, h⟩
    exact ⟨k, by omega, by omega, h⟩

theorem getLsbD_byte (v : BitVec 64) (k : ℕ) {j : ℕ} (hj : j < 8) :
    (BitVec.ofNat 8 (v.toNat / 256^k)).getLsbD j = v.getLsbD (8 * k + j) := by
  have hpow : 256^k = 2^(8 * k) := by
    rw [pow_mul]
    norm_num
  rw [BitVec.getLsbD_ofNat, hpow, Nat.testBit_div_two_pow, decide_eq_true hj, Bool.true_and, BitVec.getLsbD,
    Nat.add_comm]

/-- Each bit of `c`, as it is extended to 64 bits, is also set in its low byte. -/
def LowByteCovers (c : BitVec 32) : Prop :=
  ∀ i < 64, (c.signExtend 64).getLsbD i = true → c.getLsbD (i % 8) = true

instance (c : BitVec 32) : Decidable (LowByteCovers c) :=
  inferInstanceAs (Decidable (∀ i < 64, (c.signExtend 64).getLsbD i = true → c.getLsbD (i % 8) = true))

/-- All bytes of `v` are the low byte of `c` exactly if that covers the bits above it. -/
theorem replicated_bytes_iff :
    (∀ k < 8, BitVec.ofNat 8 ((replicated c).toNat / 256^k) = c.setWidth 8) ↔ LowByteCovers c := by
  have hlow : ∀ j < 8, (c.setWidth 8).getLsbD j = c.getLsbD j := fun j hj => by
    rw [BitVec.getLsbD_setWidth, decide_eq_true hj, Bool.true_and]
  have hext : ∀ j < 8, (c.signExtend 64).getLsbD j = c.getLsbD j := fun j hj => by
    rw [BitVec.getLsbD_signExtend, decide_eq_true (by omega), Bool.true_and, if_pos (by omega)]
  constructor
  · intro h i hi hbit
    -- the bit stays where it is
    have hset : (replicated c).getLsbD i = true := (getLsbD_replicated hi).mpr ⟨0, Nat.zero_le _, hbit⟩
    rw [← hlow _ (Nat.mod_lt _ (by norm_num)), ← h (i / 8) (by omega),
      getLsbD_byte _ _ (Nat.mod_lt _ (by norm_num)), Nat.div_add_mod]
    exact hset
  · intro h k hk
    refine BitVec.eq_of_getLsbD_eq fun j hj => ?_
    rw [getLsbD_byte _ _ hj, hlow j hj, Bool.eq_iff_iff, getLsbD_replicated (by omega)]
    constructor
    · rintro ⟨q, hq, hbit⟩
      have hcovered := h (8 * k + j - 8 * q) (by omega) hbit
      rwa [show (8 * k + j - 8 * q) % 8 = j by omega] at hcovered
    · intro hbit
      exact ⟨k, by omega, by rw [show 8 * k + j - 8 * k = j by omega, hext j hj, hbit]⟩

/-! ## Both paths -/

/-- `internal_memset` sets the bytes of the block to the low byte of `c`, and no others, on every memory,
exactly if the block takes the byte path, is empty, or `c` has no bit above the low byte that the low byte
does not have. -/
theorem memset_iff (m : Mem) (s : ℕ) (c : BitVec 32) (n : ℕ) :
    internalMemset m s c n = m.fill s n (c.setWidth 8) ↔
      (s % 16 = 0 ∧ n % 16 = 0 ∧ 0 < n → LowByteCovers c) := by
  unfold internalMemset
  by_cases hfast : s % 16 = 0 ∧ n % 16 = 0
  · have hend : s + n / 8 * 8 = s + n := by omega
    have happly := fun x =>
      @storeWords_apply s (replicated c).toNat (s + n) n (by omega) (by omega) m x
    rw [if_pos hfast, hend]
    constructor
    · rintro heq ⟨-, -, hn⟩
      refine replicated_bytes_iff.mp fun k hk => ?_
      -- the bytes of the first word
      have hbyte := congrFun heq (s + k)
      rwa [happly, if_pos (by omega), Mem.fill_of_mem _ _ (by omega), Nat.add_sub_cancel_left,
        Nat.mod_eq_of_lt hk] at hbyte
    · intro h
      funext x
      rw [happly]
      by_cases hx : s ≤ x ∧ x < s + n
      · have hcovers := h ⟨hfast.1, hfast.2, by omega⟩
        rw [if_pos hx, Mem.fill_of_mem _ _ hx, replicated_bytes_iff.mpr hcovers _ (Nat.mod_lt _ (by norm_num))]
      · rw [if_neg hx, Mem.fill_of_not_mem _ _ hx]
  · rw [if_neg hfast, storeBytes_eq]
    exact iff_of_true rfl fun h => absurd ⟨h.1, h.2.1⟩ hfast

/-- A block of 16 bytes that is set to 256 gets ones, where the low byte is zero. -/
theorem internalMemset_aligned :
    internalMemset (fun _ => 0) 4096 256 16 4097 = 1 ∧ ((256 : BitVec 32).setWidth 8 : Byte) = 0 ∧
      internalMemset (fun _ => 0) 4096 256 16 ≠ Mem.fill (fun _ => 0) 4096 16 ((256 : BitVec 32).setWidth 8) := by
  have hone : internalMemset (fun _ => 0) 4096 256 16 4097 = 1 := by decide
  refine ⟨hone, by decide, fun h => ?_⟩
  rw [h, Mem.fill_of_mem _ _ (by omega)] at hone
  exact absurd hone (by decide)

end Tasan.Libc
