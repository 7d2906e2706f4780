import Tasan.Codec.Leb128

/-!
# ULEB128, complete encodings and `CompressDelta`

`EncodeULEB128` and `DecodeULEB128` of `sanitizer_leb128.h`, and `CompressDelta` and `UncompressDelta`
of `sanitizer_stack_store.cpp`. A value of 64 bits takes at most ten bytes, so that the bytes which
an encoder writes into ten bytes are the complete encoding, `slebBytes` and `ulebBytes`. Into any
buffer the encoders write the part of the complete encoding that fits, and the decoders read a
complete encoding back whatever follows it.
-/

namespace Tasan.Codec

/-! ## ULEB128 -/

/-- `EncodeULEB128` into a buffer of `cap` bytes: the bytes written. -/
def encodeULEB128 (value : Word64) : ℕ → List Byte
  | 0 => []
  | cap + 1 =>
    let byte := value.setWidth 8 &&& 0x7f
    if value >>> 7 ≠ 0 then (byte ||| 0x80) :: encodeULEB128 (value >>> 7) cap else [byte]

/-- `DecodeULEB128`, from the value read so far and its number of bits: the value and the bytes after
it, or `none` when the input ends inside a value, which leaves `*v` unset. -/
def decodeULEB128 (value : Word64) (shift : ℕ) : List Byte → Option (Word64 × List Byte)
  | [] => none
  | byte :: bytes =>
    let slice := (byte &&& 0x7f).setWidth 64
    let value := value + slice <<< shift
    let shift := shift + 7
    if 128 ≤ byte.toNat then decodeULEB128 value shift bytes else some (value, bytes)

/-! ## `CompressDelta` and `UncompressDelta` -/

/-- `CompressDelta` into `cap` bytes. -/
def compressDelta (vs : List Word64) (cap : ℕ) : List Byte := encodeDelta 0 vs cap

/-- `UncompressDelta` into a buffer of `n` words, which the words have to fill: `CHECK_EQ(to, to_end)`. -/
def uncompressDelta (bytes : List Byte) (n : ℕ) : Option (List Word64) :=
  (decodeDelta 0 bytes.length bytes).filter fun vs => vs.length = n

/-! ## Complete encodings -/

/-- The bytes of a value, as SLEB128. -/
def slebBytes (value : Word64) : List Byte := encodeSLEB128 value 10

/-- The bytes of a value, as ULEB128. -/
def ulebBytes (value : Word64) : List Byte := encodeULEB128 value 10

/-- The bytes of the differences of the words `vs` after `previous`. -/
def deltaBytes (previous : Word64) : List Word64 → List Byte
  | [] => []
  | v :: vs => slebBytes (v - previous) ++ deltaBytes v vs

theorem encodeSLEB128_take (value : Word64) (cap k : ℕ) :
    (encodeSLEB128 value (cap + k)).take cap = encodeSLEB128 value cap := by
  induction cap generalizing value with
  | zero => rfl
  | succ cap ih =>
    rw [Nat.succ_add, encodeSLEB128, encodeSLEB128]
    split_ifs
    · rw [List.take_succ_cons, ih]
    · simp

theorem encodeULEB128_take (value : Word64) (cap k : ℕ) :
    (encodeULEB128 value (cap + k)).take cap = encodeULEB128 value cap := by
  induction cap generalizing value with
  | zero => rfl
  | succ cap ih =>
    rw [Nat.succ_add, encodeULEB128, encodeULEB128]
    split_ifs
    · rw [List.take_succ_cons, ih]
    · simp

theorem encodeSLEB128_length_le_of_not_more (value : Word64) (n cap : ℕ)
    (h : slebMore (value.sshiftRight (7 * n)) = false) :
    (encodeSLEB128 value cap).length ≤ n + 1 := by
  induction n generalizing value cap with
  | zero =>
    rw [Nat.mul_zero, BitVec.sshiftRight_zero] at h
    cases cap with
    | zero => simp [encodeSLEB128]
    | succ cap => simp [encodeSLEB128, h]
  | succ n ih =>
    cases cap with
    | zero => simp [encodeSLEB128]
    | succ cap =>
      rw [encodeSLEB128]
      split_ifs
      · rw [List.length_cons]
        apply Nat.succ_le_succ (ih _ _ _)
        rw [← BitVec.sshiftRight_add, show 7 + 7 * n = 7 * (n + 1) by ring]
        exact h
      · simp

/-- The encoder stops with the first shifted value that has no more bits. -/
theorem encodeULEB128_length_le_of_lt (value : Word64) (n cap : ℕ)
    (h : value.toNat < 2^(7 * (n + 1))) : (encodeULEB128 value cap).length ≤ n + 1 := by
  induction n generalizing value cap with
  | zero =>
    have hzero : value >>> 7 = 0 := by
      apply BitVec.eq_of_toNat_eq
      rw [BitVec.toNat_ushiftRight, Nat.shiftRight_eq_div_pow]
      exact Nat.div_eq_of_lt h
    cases cap with
    | zero => simp [encodeULEB128]
    | succ cap => simp [encodeULEB128, hzero]
  | succ n ih =>
    cases cap with
    | zero => simp [encodeULEB128]
    | succ cap =>
      rw [encodeULEB128]
      split_ifs
      · rw [List.length_cons]
        apply Nat.succ_le_succ (ih _ _ _)
        rw [BitVec.toNat_ushiftRight, Nat.shiftRight_eq_div_pow]
        apply Nat.div_lt_of_lt_mul
        rw [← pow_add, show 7 + 7 * (n + 1) = 7 * (n + 1 + 1) by ring]
        exact h
      · simp

theorem not_slebMore_sshiftRight (value : Word64) : slebMore (value.sshiftRight (7 * 9)) = false := by
  have h : value.sshiftRight 63 = if value.msb then -1 else 0 := by
    apply BitVec.eq_of_getLsbD_eq
    intro i hi
    rw [BitVec.getLsbD_sshiftRight]
    have hbit : (if 63 + i < 64 then value.getLsbD (63 + i) else value.msb) = value.msb := by
      split_ifs with hzero
      · rw [show i = 0 by omega, BitVec.msb_eq_getLsbD_last]
      · rfl
    rw [hbit]
    split_ifs with hsign
    · rw [getLsbD_neg_one, hsign]
      simp [hi]
    · simpa [hi] using hsign
  rw [show 7 * 9 = 63 from rfl, h]
  split_ifs <;> decide

theorem encodeSLEB128_length_le_ten (value : Word64) (cap : ℕ) :
    (encodeSLEB128 value cap).length ≤ 10 :=
  encodeSLEB128_length_le_of_not_more value 9 cap (not_slebMore_sshiftRight value)

theorem encodeULEB128_length_le_ten (value : Word64) (cap : ℕ) :
    (encodeULEB128 value cap).length ≤ 10 :=
  encodeULEB128_length_le_of_lt value 9 cap (value.isLt.trans (by norm_num))

theorem encodeSLEB128_eq_take (value : Word64) (cap : ℕ) :
    encodeSLEB128 value cap = (slebBytes value).take cap := by
  have hfull : slebBytes value = encodeSLEB128 value (cap + 10) := by
    rw [slebBytes, ← encodeSLEB128_take value 10 cap, Nat.add_comm]
    exact List.take_of_length_le (encodeSLEB128_length_le_ten value _)
  rw [hfull, encodeSLEB128_take]

theorem encodeULEB128_eq_take (value : Word64) (cap : ℕ) :
    encodeULEB128 value cap = (ulebBytes value).take cap := by
  have hfull : ulebBytes value = encodeULEB128 value (cap + 10) := by
    rw [ulebBytes, ← encodeULEB128_take value 10 cap, Nat.add_comm]
    exact List.take_of_length_le (encodeULEB128_length_le_ten value _)
  rw [hfull, encodeULEB128_take]

theorem encodeDelta_eq_take (previous : Word64) (vs : List Word64) (cap : ℕ) :
    encodeDelta previous vs cap = (deltaBytes previous vs).take cap := by
  induction vs generalizing previous cap with
  | nil => simp [encodeDelta, deltaBytes]
  | cons v vs ih =>
    rw [encodeDelta, deltaBytes, List.take_append, encodeSLEB128_eq_take, ih, List.length_take]
    congr 2
    omega

/-! ## Decoding -/

theorem decodeSLEB128_slebBytes (value : Word64) (bytes : List Byte) :
    decodeSLEB128 0 0 (slebBytes value ++ bytes) = some (value, bytes) := by
  have hlen : (slebBytes value).length ≤ 10 := encodeSLEB128_length_le_ten value 10
  have hfull : encodeSLEB128 value 11 = slebBytes value := by
    rw [encodeSLEB128_eq_take]
    exact List.take_of_length_le (by omega)
  rw [← hfull]
  apply decodeSLEB128_encodeSLEB128
  rw [hfull]
  omega

theorem toNat_add_slice {value acc : Word64} {shift : ℕ} (hacc : acc.toNat = value.toNat % 2^shift) :
    (acc + ((value >>> shift).setWidth 8 &&& 0x7f).setWidth 64 <<< shift).toNat =
      value.toNat % 2^(shift + 7) := by
  have hslice : (((value >>> shift).setWidth 8 &&& 0x7f).setWidth 64).toNat =
      value.toNat / 2^shift % 2^7 := by
    rw [BitVec.toNat_setWidth, BitVec.toNat_and, BitVec.toNat_setWidth, BitVec.toNat_ushiftRight,
      Nat.shiftRight_eq_div_pow, show (0x7f : Byte).toNat = 2^7 - 1 from rfl,
      Nat.and_two_pow_sub_one_eq_mod]
    omega
  have hsplit := Nat.mod_mul (x := value.toNat) (a := 2^shift) (b := 2^7)
  have hle : value.toNat % (2^shift * 2^7) ≤ value.toNat := Nat.mod_le _ _
  have hlt := value.isLt
  rw [BitVec.toNat_add, BitVec.toNat_shiftLeft, hslice, hacc, Nat.shiftLeft_eq, pow_add,
    Nat.mul_comm (value.toNat / 2^shift % 2^7), Nat.mod_eq_of_lt (by omega : 2^shift * _ < 2^64),
    ← hsplit]
  exact Nat.mod_eq_of_lt (by omega)

/-- Decoding what is left of a value after `shift` bits. -/
theorem decodeULEB128_append (value acc : Word64) (shift n : ℕ) (bytes : List Byte)
    (hacc : acc.toNat = value.toNat % 2^shift) (hn : value.toNat < 2^(shift + 7 * (n + 1))) :
    decodeULEB128 acc shift (encodeULEB128 (value >>> shift) (n + 1) ++ bytes) =
      some (value, bytes) := by
  induction n generalizing acc shift with
  | zero =>
    have hnext := toNat_add_slice hacc
    have hzero : value >>> shift >>> 7 = 0 := by
      apply BitVec.eq_of_toNat_eq
      rw [← BitVec.shiftRight_add, BitVec.toNat_ushiftRight, Nat.shiftRight_eq_div_pow]
      exact Nat.div_eq_of_lt hn
    have hbyte := slebByte_lt (value >>> shift)
    have hand := slebByte_and (value >>> shift)
    rw [slebByte] at hbyte hand
    rw [encodeULEB128, if_neg (not_not.mpr hzero), List.singleton_append, decodeULEB128, if_neg (by omega), hand]
    refine congrArg some (Prod.ext (BitVec.eq_of_toNat_eq ?_) rfl)
    rw [hnext]
    exact Nat.mod_eq_of_lt hn
  | succ n ih =>
    have hnext := toNat_add_slice hacc
    have hbyte := slebByte_lt (value >>> shift)
    have hand := slebByte_and (value >>> shift)
    rw [slebByte] at hbyte hand
    rw [encodeULEB128]
    split_ifs with hmore
    · -- One more byte, and the rest by induction.
      rw [List.cons_append, decodeULEB128, if_pos (le_or_continuation _), and_or_continuation,
        ← BitVec.shiftRight_add]
      exact ih _ _ hnext (by rwa [show shift + 7 + 7 * (n + 1) = shift + 7 * (n + 1 + 1) by ring])
    · have hlt : value.toNat < 2^(shift + 7) := by
        have hzero := congrArg BitVec.toNat (not_not.mp hmore)
        rw [← BitVec.shiftRight_add, BitVec.toNat_ushiftRight, Nat.shiftRight_eq_div_pow] at hzero
        exact Nat.lt_of_div_eq_zero (by positivity) hzero
      rw [List.singleton_append, decodeULEB128, if_neg (by omega), hand]
      refine congrArg some (Prod.ext (BitVec.eq_of_toNat_eq ?_) rfl)
      rw [hnext]
      exact Nat.mod_eq_of_lt hlt

theorem decodeULEB128_ulebBytes (value : Word64) (bytes : List Byte) :
    decodeULEB128 0 0 (ulebBytes value ++ bytes) = some (value, bytes) := by
  have h := decodeULEB128_append value 0 0 9 bytes (by simp [Nat.mod_one])
    (value.isLt.trans (by norm_num))
  rwa [BitVec.ushiftRight_zero] at h

theorem decodeDelta_deltaBytes (vs : List Word64) :
    decodeDelta 0 (deltaBytes 0 vs).length (deltaBytes 0 vs) = some vs := by
  have hfull : encodeDelta 0 vs ((deltaBytes 0 vs).length + 1) = deltaBytes 0 vs := by
    rw [encodeDelta_eq_take]
    exact List.take_of_length_le (Nat.le_succ _)
  have h := decodeDelta_encodeDelta 0 vs ((deltaBytes 0 vs).length + 1) (deltaBytes 0 vs).length
  rw [hfull] at h
  exact h (Nat.lt_succ_self _) le_rfl

/-! ## The round trip -/

/-- A list that `CompressDelta` had room for is what `UncompressDelta` makes of its bytes. A value is
read back from its bytes, signed or unsigned, and the bytes after them stay. Into any buffer the
encoders write the part of the complete encoding that fits. -/
theorem compressDelta_roundTrip :
    (∀ vs cap, (deltaBytes 0 vs).length ≤ cap →
      uncompressDelta (compressDelta vs cap) vs.length = some vs) ∧
    (∀ value bytes, decodeSLEB128 0 0 (slebBytes value ++ bytes) = some (value, bytes)) ∧
    (∀ value bytes, decodeULEB128 0 0 (ulebBytes value ++ bytes) = some (value, bytes)) ∧
    (∀ value cap, encodeSLEB128 value cap = (slebBytes value).take cap ∧
      (encodeSLEB128 value cap).length = min cap (slebBytes value).length) ∧
    (∀ value cap, encodeULEB128 value cap = (ulebBytes value).take cap ∧
      (encodeULEB128 value cap).length = min cap (ulebBytes value).length) ∧
    (∀ vs cap, compressDelta vs cap = (deltaBytes 0 vs).take cap ∧
      (compressDelta vs cap).length = min cap (deltaBytes 0 vs).length) := by
  refine ⟨fun vs cap hcap => ?_, decodeSLEB128_slebBytes, decodeULEB128_ulebBytes,
    fun value cap => ?_, fun value cap => ?_, fun vs cap => ?_⟩
  · rw [compressDelta, encodeDelta_eq_take, List.take_of_length_le hcap, uncompressDelta,
      decodeDelta_deltaBytes]
    simp
  · exact ⟨encodeSLEB128_eq_take value cap, by rw [encodeSLEB128_eq_take, List.length_take]⟩
  · exact ⟨encodeULEB128_eq_take value cap, by rw [encodeULEB128_eq_take, List.length_take]⟩
  · rw [compressDelta]
    exact ⟨encodeDelta_eq_take 0 vs cap, by rw [encodeDelta_eq_take, List.length_take]⟩

/-- The second difference wraps, and a buffer of four bytes is filled exactly. -/
theorem compressDelta_roundTrip_wrap :
    compressDelta [5, 3, 200] 4 = [5, 0x7e, 0xc5, 1] ∧
      uncompressDelta (compressDelta [5, 3, 200] 4) 3 = some [5, 3, 200] :=
  ⟨by decide, compressDelta_roundTrip.1 [5, 3, 200] 4 (by decide)⟩

end Tasan.Codec
