import Tasan.Cyclic
import Tasan.Word

/-!
# The compact ring buffer

`CompactRingBuffer` keeps its state in one word: the top byte is the size of the storage in pages,
and the other bytes are the address of the next element, without its top byte, which is all copies
of the bit below. The storage is aligned to twice its size. So an address that has run to the end of
the storage differs from its beginning in one bit, and `push` masks this bit.

The words are 64 bits wide. `mem` is memory, as the element at an address.
-/

namespace Tasan.Ring

open Cyclic

/-- `kPageSizeBits`. -/
def kPageSizeBits : ℕ := 12

/-- `kSizeShift`. -/
def kSizeShift : ℕ := 56

/-- `kSizeBits`. -/
def kSizeBits : ℕ := 64 - kSizeShift

/-- `kNextMask`. -/
def kNextMask : ℕ := 2^kSizeShift - 1

/-- `SignExtend`. -/
def signExtend (x : ℕ) : ℕ := ((BitVec.ofNat 64 x <<< kSizeBits).sshiftRight kSizeBits).toNat

/-- `CompactRingBuffer`. -/
structure CompactRingBuffer (T : Type*) where
  long : ℕ
  /-- Memory, by address. -/
  mem : ℕ → T

namespace CompactRingBuffer

variable {T : Type*} (sizeofT : ℕ)

/-- `GetStorageSize`. -/
def getStorageSize (b : CompactRingBuffer T) : ℕ := (b.long >>> kSizeShift) <<< kPageSizeBits % 2^64

/-- The checks of `Init`. -/
def initChecks (storage size : ℕ) : Prop :=
  Word.isPowerOfTwo 64 size ∧ 2^kPageSizeBits ≤ size ∧ size ≤ 128 * 2^kPageSizeBits ∧
    size % 4096 = 0 ∧ size % sizeofT = 0 ∧ storage % (size * 2 % 2^64) = 0 ∧
    storage = signExtend (storage &&& kNextMask)

instance (storage size : ℕ) : Decidable (initChecks sizeofT storage size) :=
  inferInstanceAs (Decidable (_ ∧ _ ∧ _ ∧ _ ∧ _ ∧ _ ∧ _))

/-- `Init`; `none` is a failed `CHECK`. -/
def init (storage size : ℕ) (mem : ℕ → T) : Option (CompactRingBuffer T) :=
  if initChecks sizeofT storage size then
    some
      { long := (storage &&& kNextMask) ||| (size >>> kPageSizeBits) <<< kSizeShift % 2^64
        mem := mem }
  else none

/-- `SetNext`. -/
def setNext (b : CompactRingBuffer T) (next : ℕ) : CompactRingBuffer T :=
  { b with long := (b.long &&& Word.compl 64 kNextMask) ||| (next &&& kNextMask) }

/-- `Next`. -/
def next (b : CompactRingBuffer T) : ℕ := signExtend (b.long &&& kNextMask)

/-- `StartOfStorage`. -/
def startOfStorage (b : CompactRingBuffer T) : ℕ := Word.roundDownTo 64 b.next b.getStorageSize

/-- `size`. -/
def size (b : CompactRingBuffer T) : ℕ := b.getStorageSize / sizeofT

/-- `push`. -/
def push (b : CompactRingBuffer T) (t : T) : CompactRingBuffer T :=
  let next := Word.add 64 b.next sizeofT
  let next := next &&& Word.compl 64 b.getStorageSize
  { b with mem := Function.update b.mem b.next t }.setNext next

/-- `operator[]`; `none` is a failed `CHECK_LT`. -/
def get (b : CompactRingBuffer T) (idx : ℕ) : Option T :=
  if idx < b.size sizeofT then
    let begin := b.startOfStorage
    let storageIdx : ℤ := ((b.next : ℤ) - begin) / sizeofT
    let storageIdx := storageIdx - (idx + 1)
    let storageIdx := if storageIdx < 0 then storageIdx + b.size sizeofT else storageIdx
    some (b.mem (begin + storageIdx * sizeofT).toNat)
  else none

/-- The copy constructor; `none` is a failed `CHECK`. -/
def copy (other : CompactRingBuffer T) (storage : ℕ) : Option (CompactRingBuffer T) :=
  let size := other.getStorageSize
  let mem : ℕ → T := fun a => other.mem (other.startOfStorage + (a - storage))
  (init sizeofT storage size mem).map fun b =>
    let idx := (other.next - other.startOfStorage) / sizeofT
    b.setNext (Word.add 64 storage (idx * sizeofT))

/-- The buffer after elements are pushed. -/
def pushAll (b : CompactRingBuffer T) (ts : List T) : CompactRingBuffer T := ts.foldl (push sizeofT) b

end CompactRingBuffer

/-! ## Words -/

theorem signExtend_of_lt {x : ℕ} (hx : x < 2^56) :
    signExtend x = if x < 2^55 then x else x + 255 * 2^56 := by
  have hshift : (BitVec.ofNat 64 x <<< 8).toNat = x * 2^8 := by
    rw [BitVec.toNat_shiftLeft, BitVec.toNat_ofNat, Nat.mod_eq_of_lt (show x < 2^64 by omega),
      Nat.shiftLeft_eq, Nat.mod_eq_of_lt (by omega)]
  have hmsb : (BitVec.ofNat 64 x <<< 8).msb = decide (2^55 ≤ x) := by
    rw [BitVec.msb_eq_decide, hshift]
    exact decide_eq_decide.mpr (by omega)
  rw [signExtend, show kSizeBits = 8 from rfl, BitVec.toNat_sshiftRight, hmsb, hshift]
  simp only [decide_eq_true_eq, Nat.shiftRight_eq_div_pow]
  split_ifs <;> omega

theorem testBit_and_compl_bit {p x i : ℕ} (hp : p < 64) (hx : x < 2^64) :
    (x &&& Word.compl 64 (2^p)).testBit i = (x.testBit i && p ≠ i) := by
  have hpow : 2^p < 2^64 := Nat.pow_lt_pow_right (by decide) hp
  have hcompl : Word.compl 64 (2^p) = 2^64 - (2^p + 1) := by rw [Word.compl]; omega
  rw [Nat.testBit_and, hcompl, Nat.testBit_two_pow_sub_succ hpow, Nat.testBit_two_pow]
  rcases Nat.lt_or_ge i 64 with hi | hi
  · simp [hi]
  · have hz : x.testBit i = false :=
      Nat.testBit_lt_two_pow (hx.trans_le (Nat.pow_le_pow_right (by decide) hi))
    simp [hz]

theorem and_compl_bit {p q k : ℕ} (hp : p < 64) (hk : k ≤ 2^p) (hx : 2^(p + 1) * q + k < 2^64) :
    (2^(p + 1) * q + k) &&& Word.compl 64 (2^p) = 2^(p + 1) * q + k % 2^p := by
  have hlt : k < 2^(p + 1) := by
    have := Nat.two_pow_pos p
    rw [pow_succ]
    omega
  have hmod : k % 2^p < 2^(p + 1) := (Nat.mod_le _ _).trans_lt hlt
  apply Nat.eq_of_testBit_eq
  intro i
  rw [testBit_and_compl_bit hp hx, Nat.testBit_two_pow_mul_add q hlt,
    Nat.testBit_two_pow_mul_add q hmod]
  rcases Nat.lt_trichotomy i p with hi | rfl | hi
  · simp [show i < p + 1 by omega, hi, hi.ne']
  · simp [Nat.testBit_mod_two_pow]
  · simp [show ¬i < p + 1 by omega, hi.ne]

/-- The address of an element of storage that is aligned to `2^(p + 1)` keeps its top byte. -/
theorem signExtend_add {p q k : ℕ} (hp : p ≤ 54) (hk : k < 2^(p + 1))
    (hst : 2^(p + 1) * q = signExtend (2^(p + 1) * q % 2^56)) :
    signExtend ((2^(p + 1) * q + k) % 2^56) = 2^(p + 1) * q + k := by
  obtain ⟨m, hm⟩ : ∃ m, 2^55 = 2^(p + 1) * m := pow_dvd_pow 2 (by omega)
  have h56 : 2^56 = 2^(p + 1) * (2 * m) := by
    rw [Nat.mul_left_comm, ← hm]
    rfl
  have hm_pos : 0 < m := Nat.pos_of_ne_zero (by rintro rfl; simp at hm)
  generalize hB : 2^(p + 1) = B at *
  have hr : q % (2 * m) < 2 * m := Nat.mod_lt _ (by omega)
  have hmod : B * q % 2^56 = B * (q % (2 * m)) := by rw [h56, Nat.mul_mod_mul_left]
  have hmod_add : (B * q + k) % 2^56 = B * (q % (2 * m)) + k := by
    have hlt : B * (q % (2 * m)) + k < B * (2 * m) := by nlinarith
    have hq : B * q = B * (2 * m) * (q / (2 * m)) + B * (q % (2 * m)) := by
      rw [Nat.mul_assoc, ← Nat.mul_add, Nat.div_add_mod]
    rw [hq, h56, Nat.add_assoc, Nat.mul_add_mod, Nat.mod_eq_of_lt hlt]
  have hlt : B * (q % (2 * m)) + k < 2^56 := hmod_add ▸ Nat.mod_lt _ (by decide)
  rw [hmod, signExtend_of_lt (by omega)] at hst
  rw [hmod_add, signExtend_of_lt hlt]
  -- the offset does not reach the bit that is copied
  have hbit : B * (q % (2 * m)) + k < 2^55 ↔ B * (q % (2 * m)) < 2^55 := by
    rw [hm]
    constructor
    · omega
    · intro h
      have : q % (2 * m) < m := Nat.lt_of_mul_lt_mul_left h
      nlinarith
  by_cases h : B * (q % (2 * m)) < 2^55
  · rw [if_pos h] at hst
    rw [if_pos (hbit.mpr h), ← hst]
  · rw [if_neg h] at hst
    rw [if_neg (mt hbit.mp h)]
    omega

/-! ## The history of a buffer -/

section History

variable {T : Type*} {sizeofT p storage c : ℕ} {b : CompactRingBuffer T} {hist : List T}

/-- Storage of `2^p` bytes that passes the checks of `Init`. -/
structure Legal (sizeofT p storage : ℕ) : Prop where
  /-- It has at least a page. -/
  le_p : 12 ≤ p
  /-- It has at most 128 pages. -/
  p_le : p ≤ 19
  /-- Elements are not empty. -/
  sizeofT_pos : 0 < sizeofT
  /-- There is a whole number of elements. -/
  sizeofT_dvd : sizeofT ∣ 2^p
  /-- It is aligned to twice its size. -/
  dvd : 2^(p + 1) ∣ storage
  /-- Its top byte can be left out. -/
  canonical : storage = signExtend (storage % 2^56)

/-- The number of elements of the storage. -/
def capacity (sizeofT p : ℕ) : ℕ := 2^p / sizeofT

theorem legal_of_initChecks {size : ℕ} (h : CompactRingBuffer.initChecks sizeofT storage size) :
    ∃ p, size = 2^p ∧ Legal sizeofT p storage := by
  obtain ⟨hpow, hge, hle, -, hsize, hst, hcanon⟩ := h
  have hlt : size < 2^64 := hle.trans_lt (by decide)
  obtain rfl | ⟨p, -, rfl⟩ := (Word.isPowerOfTwo_iff hlt).mp hpow
  · exact absurd hge (by decide)
  have hge' : 12 ≤ p := (Nat.pow_le_pow_iff_right (by decide)).mp hge
  have hle' : p ≤ 19 := (Nat.pow_le_pow_iff_right (a := 2) (by decide)).mp (hle.trans (by decide))
  have hpos : 0 < sizeofT := by
    rcases Nat.eq_zero_or_pos sizeofT with rfl | hpos
    · rw [Nat.mod_zero] at hsize
      exact absurd hsize (Nat.two_pow_pos p).ne'
    · exact hpos
  have h64 : 2^p * 2 < 2^64 := by
    rw [← pow_succ]
    exact Nat.pow_lt_pow_right (by decide) (by omega)
  rw [Nat.mod_eq_of_lt h64, ← pow_succ] at hst
  rw [kNextMask, Nat.and_two_pow_sub_one_eq_mod] at hcanon
  exact ⟨p, rfl, hge', hle', hpos, Nat.dvd_of_mod_eq_zero hsize, Nat.dvd_of_mod_eq_zero hst, hcanon⟩

theorem Legal.capacity_mul (h : Legal sizeofT p storage) : capacity sizeofT p * sizeofT = 2^p :=
  Nat.div_mul_cancel h.sizeofT_dvd

theorem Legal.end_le (h : Legal sizeofT p storage) (hc : c < capacity sizeofT p) :
    c * sizeofT + sizeofT ≤ 2^p := by
  rw [← h.capacity_mul, ← Nat.add_one_mul]
  exact Nat.mul_le_mul_right _ hc

theorem Legal.storage_lt (h : Legal sizeofT p storage) : storage + 2^(p + 1) ≤ 2^64 := by
  have hlt : storage < 2^64 := h.canonical ▸ BitVec.isLt _
  obtain ⟨q, hq⟩ := h.dvd
  obtain ⟨m, hm⟩ : 2^(p + 1) ∣ 2^64 := pow_dvd_pow 2 (by have := h.p_le; omega)
  rw [hq, hm] at hlt ⊢
  rw [← Nat.mul_add_one]
  exact Nat.mul_le_mul_left _ (Nat.lt_of_mul_lt_mul_left hlt)

/-- The buffer uses `storage`, and its elements are the first ones of `hist`. Slot `k` is the `k`-th
element of the storage. -/
structure Stores (sizeofT p storage c : ℕ) (b : CompactRingBuffer T) (hist : List T) : Prop where
  /-- The size, and the next element. -/
  long_eq : b.long = (storage + c * sizeofT) % 2^56 + 2^p / 2^12 * 2^56
  /-- The elements. -/
  recent : Recent (capacity sizeofT p) (fun k => b.mem (storage + k * sizeofT)) c hist

theorem Stores.getStorageSize_eq (hl : Legal sizeofT p storage)
    (h : Stores sizeofT p storage c b hist) : b.getStorageSize = 2^p := by
  have hlt : (storage + c * sizeofT) % 2^56 < 2^56 := Nat.mod_lt _ (by decide)
  have hdiv : b.long / 2^56 = 2^p / 2^12 := by rw [h.long_eq]; omega
  have hpow : 2^p / 2^12 * 2^12 = 2^p := Nat.div_mul_cancel (pow_dvd_pow 2 hl.le_p)
  have h64 : 2^p < 2^64 := Nat.pow_lt_pow_right (by decide) (by have := hl.p_le; omega)
  rw [CompactRingBuffer.getStorageSize, Nat.shiftRight_eq_div_pow, Nat.shiftLeft_eq,
    show kSizeShift = 56 from rfl, show kPageSizeBits = 12 from rfl, hdiv, hpow, Nat.mod_eq_of_lt h64]

theorem Stores.next_eq (hl : Legal sizeofT p storage) (h : Stores sizeofT p storage c b hist) :
    b.next = storage + c * sizeofT := by
  have hmask : b.long % 2^56 = (storage + c * sizeofT) % 2^56 := by rw [h.long_eq]; omega
  have hend := hl.end_le h.recent.cursor_lt
  have hcanon := hl.canonical
  obtain ⟨q, rfl⟩ := hl.dvd
  rw [CompactRingBuffer.next, kNextMask, Nat.and_two_pow_sub_one_eq_mod,
    show kSizeShift = 56 from rfl, hmask]
  have := hl.sizeofT_pos
  exact signExtend_add (by have := hl.p_le; omega) (by rw [pow_succ]; omega) hcanon

theorem Stores.startOfStorage_eq (hl : Legal sizeofT p storage)
    (h : Stores sizeofT p storage c b hist) : b.startOfStorage = storage := by
  have hend := hl.end_le h.recent.cursor_lt
  have hpos := hl.sizeofT_pos
  have hst := hl.storage_lt
  have hp := hl.p_le
  rw [pow_succ] at hst
  rw [CompactRingBuffer.startOfStorage, h.getStorageSize_eq hl, h.next_eq hl,
    Word.roundDownTo_two_pow (by omega) (by omega)]
  obtain ⟨q, rfl⟩ := (pow_dvd_pow 2 (Nat.le_succ p)).trans hl.dvd
  rw [Nat.mul_add_div (Nat.two_pow_pos p), Nat.div_eq_of_lt (by omega), Nat.add_zero, Nat.mul_comm]

theorem Stores.size_eq (hl : Legal sizeofT p storage) (h : Stores sizeofT p storage c b hist) :
    b.size sizeofT = capacity sizeofT p := by
  rw [CompactRingBuffer.size, h.getStorageSize_eq hl, capacity]

theorem setNext_long (hl : Legal sizeofT p storage) (h : Stores sizeofT p storage c b hist)
    (next : ℕ) : (b.setNext next).long = next % 2^56 + 2^p / 2^12 * 2^56 := by
  have hlt : (storage + c * sizeofT) % 2^56 < 2^56 := Nat.mod_lt _ (by decide)
  have hpow : 2^p / 2^12 ≤ 2^19 / 2^12 :=
    Nat.div_le_div_right (Nat.pow_le_pow_right (by decide) hl.p_le)
  have hlong : b.long < 2^64 := by rw [h.long_eq]; omega
  have hdiv : b.long / 2^56 = 2^p / 2^12 := by rw [h.long_eq]; omega
  have hcompl : Word.compl 64 kNextMask = 2^64 - 2^56 := rfl
  simp only [CompactRingBuffer.setNext]
  rw [hcompl, Word.and_compl_mask (by decide) hlong, hdiv, kNextMask, Nat.and_two_pow_sub_one_eq_mod,
    show kSizeShift = 56 from rfl, Nat.mul_comm, ← Nat.two_pow_add_eq_or_of_lt (Nat.mod_lt _ (by decide)),
    Nat.add_comm]

/-- The elements that the storage held before the first element was pushed, the last one first. -/
def initial (sizeofT p storage : ℕ) (mem : ℕ → T) : List T :=
  (List.range (capacity sizeofT p)).map fun i => mem (storage + (capacity sizeofT p - 1 - i) * sizeofT)

theorem init_long {size : ℕ} {mem : ℕ → T} (hinit : CompactRingBuffer.init sizeofT storage size mem = some b)
    (hsize : size = 2^p) (hp : p ≤ 19) : b.long = storage % 2^56 + 2^p / 2^12 * 2^56 := by
  rw [CompactRingBuffer.init] at hinit
  split at hinit
  · have hpow : 2^p / 2^12 ≤ 2^19 / 2^12 :=
      Nat.div_le_div_right (Nat.pow_le_pow_right (by decide) hp)
    have h64 : 2^p / 2^12 * 2^56 < 2^64 := by omega
    rw [← Option.some.inj hinit, hsize]
    simp only [kNextMask]
    rw [Nat.and_two_pow_sub_one_eq_mod, Nat.shiftRight_eq_div_pow, Nat.shiftLeft_eq,
      show kSizeShift = 56 from rfl, show kPageSizeBits = 12 from rfl, Nat.mod_eq_of_lt h64,
      Nat.lor_comm, Nat.mul_comm, ← Nat.two_pow_add_eq_or_of_lt (Nat.mod_lt _ (by decide)), Nat.add_comm]
  · exact (Option.some_ne_none _ hinit.symm).elim

theorem init_mem {size : ℕ} {mem : ℕ → T}
    (hinit : CompactRingBuffer.init sizeofT storage size mem = some b) :
    b.mem = mem ∧ CompactRingBuffer.initChecks sizeofT storage size := by
  rw [CompactRingBuffer.init] at hinit
  split at hinit
  · next hchecks => exact ⟨Option.some.inj hinit ▸ rfl, hchecks⟩
  · exact (Option.some_ne_none _ hinit.symm).elim

theorem stores_init {size : ℕ} {mem : ℕ → T}
    (hinit : CompactRingBuffer.init sizeofT storage size mem = some b) :
    ∃ p, size = 2^p ∧ Legal sizeofT p storage ∧
      Stores sizeofT p storage 0 b (initial sizeofT p storage mem) := by
  obtain ⟨hmem, hchecks⟩ := init_mem hinit
  obtain ⟨p, hsize, hl⟩ := legal_of_initChecks hchecks
  have hpos : 0 < capacity sizeofT p :=
    Nat.div_pos (Nat.le_of_dvd (Nat.two_pow_pos p) hl.sizeofT_dvd) hl.sizeofT_pos
  refine ⟨p, hsize, hl, ?_, ?_⟩
  · rw [Nat.zero_mul, Nat.add_zero]
    exact init_long hinit hsize hl.p_le
  · rw [hmem]
    exact recent_init hpos fun k => mem (storage + k * sizeofT)

/-- An element is pushed. -/
theorem Stores.push (hl : Legal sizeofT p storage) (h : Stores sizeofT p storage c b hist) (t : T) :
    Stores sizeofT p storage (Cyclic.next (capacity sizeofT p) c) (b.push sizeofT t) (t :: hist) := by
  have hend := hl.end_le h.recent.cursor_lt
  have hpos := hl.sizeofT_pos
  have hst := hl.storage_lt
  have hp := hl.p_le
  have hnext : Word.add 64 b.next sizeofT &&& Word.compl 64 b.getStorageSize =
      storage + Cyclic.next (capacity sizeofT p) c * sizeofT := by
    have hpow : 2^(p + 1) = 2^p * 2 := pow_succ 2 p
    have hsum : Word.add 64 (storage + c * sizeofT) sizeofT = storage + (c + 1) * sizeofT := by
      rw [Word.add_of_lt (by omega), Nat.add_one_mul]
      omega
    rw [h.next_eq hl, h.getStorageSize_eq hl, hsum]
    have hle : (c + 1) * sizeofT ≤ 2^p := by rwa [Nat.add_one_mul]
    obtain ⟨q, hq⟩ := hl.dvd
    rw [hq, and_compl_bit (by omega) hle (by omega), Cyclic.next]
    split
    · next hlast => rw [hlast, hl.capacity_mul, Nat.mod_self, Nat.zero_mul]
    · next hlast =>
      have hlt : c + 1 < capacity sizeofT p := Nat.lt_of_le_of_ne h.recent.cursor_lt hlast
      rw [Nat.mod_eq_of_lt (by have := hl.end_le hlt; omega)]
  constructor
  · simp only [CompactRingBuffer.push, hnext]
    exact setNext_long hl ⟨h.long_eq, h.recent⟩ _
  · refine (h.recent.push t).congr fun k _ => ?_
    have hinj : storage + k * sizeofT = storage + c * sizeofT ↔ k = c := by
      rw [Nat.add_left_cancel_iff, Nat.mul_left_inj hpos.ne']
    simp only [CompactRingBuffer.push, CompactRingBuffer.setNext, h.next_eq hl, Function.update_apply,
      hinj]

theorem Stores.pushAll (hl : Legal sizeofT p storage) (h : Stores sizeofT p storage c b hist)
    (ts : List T) : ∃ c', Stores sizeofT p storage c' (b.pushAll sizeofT ts) (ts.reverse ++ hist) := by
  induction ts generalizing c b hist with
  | nil => exact ⟨c, h⟩
  | cons t ts ih =>
    obtain ⟨c', hc'⟩ := ih (h.push hl t)
    rw [List.reverse_cons, List.append_assoc]
    exact ⟨c', hc'⟩

/-- The copy has the same size and the same elements, and goes on in the same way. -/
theorem Stores.copy (hl : Legal sizeofT p storage) (h : Stores sizeofT p storage c b hist)
    {storage' : ℕ} (hchecks : CompactRingBuffer.initChecks sizeofT storage' (2^p)) :
    ∃ b', b.copy sizeofT storage' = some b' ∧ Legal sizeofT p storage' ∧
      Stores sizeofT p storage' c b' hist := by
  obtain ⟨p', hpow, hl'⟩ := legal_of_initChecks hchecks
  obtain rfl : p = p' := Nat.pow_right_injective le_rfl hpow
  set b₀ : CompactRingBuffer T :=
    { long := (storage' &&& kNextMask) ||| (2^p >>> kPageSizeBits) <<< kSizeShift % 2^64
      mem := fun a => b.mem (storage + (a - storage')) } with hb₀
  have hinit : CompactRingBuffer.init sizeofT storage' (2^p) b₀.mem = some b₀ := if_pos hchecks
  have hend := hl.end_le h.recent.cursor_lt
  have hpos := hl.sizeofT_pos
  have hst := hl'.storage_lt
  have hpow2 : 2^(p + 1) = 2^p * 2 := pow_succ 2 p
  have hidx : (b.next - storage) / sizeofT = c := by
    rw [h.next_eq hl, Nat.add_sub_cancel_left, Nat.mul_div_cancel _ hpos]
  have hzero : Stores sizeofT p storage' 0 b₀ (initial sizeofT p storage' b₀.mem) := by
    obtain ⟨p', hpow', hl'', hstores⟩ := stores_init hinit
    rwa [← Nat.pow_right_injective le_rfl hpow'] at hstores
  refine ⟨b₀.setNext (storage' + c * sizeofT), ?_, hl', ?_, ?_⟩
  · rw [CompactRingBuffer.copy, h.getStorageSize_eq hl, h.startOfStorage_eq hl, hinit, Option.map_some]
    have hadd : Word.add 64 storage' (c * sizeofT) = storage' + c * sizeofT :=
      Word.add_of_lt (by omega)
    rw [hidx]
    exact congrArg (some ∘ b₀.setNext) hadd
  · exact setNext_long hl' hzero _
  · refine h.recent.congr fun k _ => ?_
    simp only [CompactRingBuffer.setNext, hb₀, Nat.add_sub_cancel_left]

end History

end Tasan.Ring
