import Tasan.Memory

/-!
# SLEB128 and the delta codec

`EncodeSLEB128` and `DecodeSLEB128` of `sanitizer_leb128.h` for 64-bit values, and the iterators
`SLeb128Encoder` and `SLeb128Decoder` of `sanitizer_stack_store.cpp`, which code the differences of
consecutive words. The encoder writes into a buffer of fixed size and stops silently at its end. An
encoding that does not fill its buffer was not cut short, which is all that the caller can see, and
`decodeDelta_encodeDelta` says that such an encoding is read back as it was written.
-/

namespace Tasan.Codec

/-- A machine word, `uptr`. -/
abbrev Word64 := BitVec 64

/-- The byte that `EncodeSLEB128` writes for `value`, without the continuation bit. -/
def slebByte (value : Word64) : Byte := value.setWidth 8 &&& 0x7f

/-- Whether `EncodeSLEB128` writes more bytes after the one for `value`. -/
def slebMore (value : Word64) : Bool :=
  let byte := slebByte value
  let value := value.sshiftRight 7
  !(value == 0 && byte &&& 0x40 == 0 || value == -1 && byte &&& 0x40 != 0)

/-- `EncodeSLEB128` into a buffer of `cap` bytes: the bytes written. -/
def encodeSLEB128 (value : Word64) : ℕ → List Byte
  | 0 => []
  | cap + 1 =>
    if slebMore value then (slebByte value ||| 0x80) :: encodeSLEB128 (value.sshiftRight 7) cap
    else [slebByte value]

/-- `DecodeSLEB128`, from the value read so far and its number of bits: the value and the bytes after
it, or `none` when the input ends inside a value, which leaves `*v` unset. -/
def decodeSLEB128 (value : Word64) (shift : ℕ) : List Byte → Option (Word64 × List Byte)
  | [] => none
  | byte :: bytes =>
    let slice := (byte &&& 0x7f).setWidth 64
    let value := value ||| slice <<< shift
    let shift := shift + 7
    if 128 ≤ byte.toNat then decodeSLEB128 value shift bytes
    else some (if shift < 64 ∧ byte &&& 0x40 ≠ 0 then value ||| (-1 : Word64) <<< shift else value, bytes)

/-- The bytes that a `SLeb128Encoder` writes for `vs` after `previous`, with `cap` bytes left. -/
def encodeDelta (previous : Word64) : List Word64 → ℕ → List Byte
  | [], _ => []
  | v :: vs, cap =>
    let bytes := encodeSLEB128 (v - previous) cap
    bytes ++ encodeDelta v vs (cap - bytes.length)

/-- The words that a `SLeb128Decoder` reads until the end of its input, with the number of bytes as
fuel. -/
def decodeDelta (previous : Word64) : ℕ → List Byte → Option (List Word64)
  | _, [] => some []
  | 0, _ :: _ => none
  | fuel + 1, byte :: bytes => do
    let (diff, rest) ← decodeSLEB128 0 0 (byte :: bytes)
    let vs ← decodeDelta (previous + diff) fuel rest
    return (previous + diff) :: vs

/-! ## One value -/

theorem and_or_continuation (b : Byte) : ((b &&& 0x7f) ||| 0x80) &&& 0x7f = b &&& 0x7f := by
  revert b
  decide

theorem le_or_continuation (b : Byte) : 128 ≤ (b ||| 0x80).toNat := by
  revert b
  decide

theorem slebByte_lt (value : Word64) : (slebByte value).toNat < 128 := by
  have h : ∀ b : Byte, (b &&& 0x7f).toNat < 128 := by decide
  exact h _

theorem slebByte_and (value : Word64) : slebByte value &&& 0x7f = slebByte value := by
  have h : ∀ b : Byte, b &&& 0x7f &&& 0x7f = b &&& 0x7f := by decide
  exact h _

theorem slebByte_getLsbD (value : Word64) (i : ℕ) :
    (slebByte value).getLsbD i = (decide (i < 7) && value.getLsbD i) := by
  have h : (0x7f : Byte).getLsbD i = decide (i < 7) := by
    rcases Nat.lt_or_ge i 8 with hi | hi
    · interval_cases i <;> rfl
    · rw [BitVec.getLsbD_of_ge _ _ hi, decide_eq_false (by omega)]
  unfold slebByte
  rw [BitVec.getLsbD_and, BitVec.getLsbD_setWidth, h]
  by_cases hi : i < 7
  · simp [hi, show i < 8 by omega]
  · simp [hi]

theorem slebByte_sign (value : Word64) :
    slebByte value &&& 0x40 ≠ 0 ↔ value.getLsbD 6 = true := by
  have h : ∀ b : Byte, b &&& 0x40 ≠ 0 ↔ b.getLsbD 6 = true := by decide
  rw [h, slebByte_getLsbD]
  simp

theorem getLsbD_or_slice {value acc : Word64} {shift i : ℕ} (hi : i < 64)
    (hacc : acc.getLsbD i = (decide (i < shift) && value.getLsbD i)) :
    (acc ||| (slebByte (value.sshiftRight shift)).setWidth 64 <<< shift).getLsbD i =
      (decide (i < shift + 7) && value.getLsbD i) := by
  rw [BitVec.getLsbD_or, hacc, BitVec.getLsbD_shiftLeft, BitVec.getLsbD_setWidth, slebByte_getLsbD,
    BitVec.getLsbD_sshiftRight]
  rcases Nat.lt_or_ge i shift with h | h
  · simp [h, hi, show i < shift + 7 by omega]
  · have h1 : shift + (i - shift) = i := by omega
    have h2 : i - shift < 64 := by omega
    have h3 : (i - shift < 7) ↔ i < shift + 7 := by omega
    simp [h1, h2, h3, hi, Nat.not_lt.mpr h, Nat.not_le.mpr h2]

theorem getLsbD_neg_one (i : ℕ) : (-1 : Word64).getLsbD i = decide (i < 64) := by
  have h : (-1 : Word64) = BitVec.allOnes 64 := by decide
  rw [h, BitVec.getLsbD_allOnes]

theorem getLsbD_of_not_slebMore {value : Word64} (h : slebMore value = false) {i : ℕ} (h1 : 7 ≤ i)
    (hi : i < 64) : value.getLsbD i = value.getLsbD 6 := by
  have hbit : (value.sshiftRight 7).getLsbD (i - 7) = value.getLsbD i := by
    rw [BitVec.getLsbD_sshiftRight, show 7 + (i - 7) = i by omega]
    simp [hi, show ¬ (64 ≤ i - 7) by omega]
  have hsign := slebByte_sign value
  simp only [slebMore, Bool.not_eq_false', Bool.or_eq_true, Bool.and_eq_true, beq_iff_eq,
    bne_iff_ne] at h
  rw [← hbit]
  rcases h with ⟨hz, hb⟩ | ⟨hz, hb⟩
  · rw [hz]
    cases hv : value.getLsbD 6 with
    | true => exact absurd hb (hsign.mpr hv)
    | false => simp
  · rw [hz, hsign.mp hb]
    rw [getLsbD_neg_one, decide_eq_true (by omega)]

/-- Decoding what is left of a value after `shift` bits, when the encoding does not fill its buffer. -/
theorem decodeSLEB128_append (value acc : Word64) (shift cap : ℕ) (bytes : List Byte)
    (hacc : ∀ i < 64, acc.getLsbD i = (decide (i < shift) && value.getLsbD i))
    (hlen : (encodeSLEB128 (value.sshiftRight shift) cap).length < cap) :
    decodeSLEB128 acc shift (encodeSLEB128 (value.sshiftRight shift) cap ++ bytes) =
      some (value, bytes) := by
  induction cap generalizing acc shift with
  | zero => exact absurd hlen (Nat.not_lt_zero _)
  | succ cap ih =>
    have hnext := fun i hi => getLsbD_or_slice hi (hacc i hi)
    rw [encodeSLEB128] at hlen ⊢
    split_ifs at hlen ⊢ with hmore
    · -- One more byte, and the rest by induction.
      rw [List.cons_append, decodeSLEB128, if_pos (le_or_continuation _)]
      unfold slebByte at hnext ⊢
      rw [and_or_continuation, ← BitVec.sshiftRight_add]
      rw [← BitVec.sshiftRight_add, List.length_cons] at hlen
      exact ih _ _ hnext (by omega)
    · rw [List.cons_append, List.nil_append, decodeSLEB128,
        if_neg (by have := slebByte_lt (value.sshiftRight shift); omega), slebByte_and]
      refine congrArg some (Prod.ext (BitVec.eq_of_getLsbD_eq fun i hi => ?_) rfl)
      -- The bits from `shift + 7` on are the sign bit, which is filled in below bit 64.
      have hrest : shift + 7 ≤ i → value.getLsbD i = (value.sshiftRight shift).getLsbD 6 := by
        intro h
        have hcopy := getLsbD_of_not_slebMore (by simpa using hmore) (i := i - shift) (by omega)
          (by omega)
        rw [← hcopy, BitVec.getLsbD_sshiftRight, show shift + (i - shift) = i by omega]
        simp [hi, show ¬ (64 ≤ i - shift) by omega]
      have hbit := hnext i hi
      simp only [slebByte_sign]
      split_ifs with hsign
      · rw [BitVec.getLsbD_or, hbit, BitVec.getLsbD_shiftLeft]
        rcases Nat.lt_or_ge i (shift + 7) with h | h
        · simp [h]
        · rw [hrest h, hsign.2]
          rw [getLsbD_neg_one]
          simp [hi, Nat.not_lt.mpr h]
          omega
      · rw [hbit]
        rcases Nat.lt_or_ge i (shift + 7) with h | h
        · simp [h]
        · have hoff : (value.sshiftRight shift).getLsbD 6 = false := by
            by_contra hc
            exact hsign ⟨by omega, by simpa using hc⟩
          rw [hrest h, hoff]
          simp

theorem decodeSLEB128_encodeSLEB128 (value : Word64) (cap : ℕ) (bytes : List Byte)
    (hlen : (encodeSLEB128 value cap).length < cap) :
    decodeSLEB128 0 0 (encodeSLEB128 value cap ++ bytes) = some (value, bytes) := by
  have h := decodeSLEB128_append value 0 0 cap bytes (by simp)
  rw [BitVec.sshiftRight_zero] at h
  exact h hlen

theorem encodeSLEB128_length_pos (value : Word64) {cap : ℕ} (h : 0 < cap) :
    0 < (encodeSLEB128 value cap).length := by
  obtain ⟨n, rfl⟩ := Nat.exists_eq_add_of_lt h
  rw [Nat.zero_add, encodeSLEB128]
  split_ifs <;> simp

/-! ## Sequences of words -/

theorem length_le_encodeDelta_length (previous : Word64) (vs : List Word64) (cap : ℕ)
    (hlen : (encodeDelta previous vs cap).length < cap) :
    vs.length ≤ (encodeDelta previous vs cap).length := by
  induction vs generalizing previous cap with
  | nil => simp
  | cons v vs ih =>
    rw [encodeDelta, List.length_append] at hlen ⊢
    have h1 := encodeSLEB128_length_pos (v - previous) (show 0 < cap by omega)
    have h2 := ih v (cap - (encodeSLEB128 (v - previous) cap).length) (by omega)
    rw [List.length_cons]
    omega

/-- A sequence of words whose encoding does not fill its buffer is read back. -/
theorem decodeDelta_encodeDelta (previous : Word64) (vs : List Word64) (cap fuel : ℕ)
    (hlen : (encodeDelta previous vs cap).length < cap)
    (hfuel : (encodeDelta previous vs cap).length ≤ fuel) :
    decodeDelta previous fuel (encodeDelta previous vs cap) = some vs := by
  induction vs generalizing previous cap fuel with
  | nil =>
    rw [encodeDelta]
    cases fuel <;> rfl
  | cons v vs ih =>
    rw [encodeDelta] at hlen hfuel ⊢
    rw [List.length_append] at hlen hfuel
    have hpos := encodeSLEB128_length_pos (v - previous) (show 0 < cap by omega)
    have hone := decodeSLEB128_encodeSLEB128 (v - previous) cap
      (encodeDelta v vs (cap - (encodeSLEB128 (v - previous) cap).length)) (by omega)
    obtain ⟨byte, bytes, hbytes⟩ := List.exists_cons_of_length_pos hpos
    obtain ⟨fuel, rfl⟩ := Nat.exists_eq_add_of_lt (show 0 < fuel by omega)
    have hv : previous + (v - previous) = v := by rw [add_sub_cancel]
    rw [Nat.zero_add] at hfuel ⊢
    rw [hbytes, List.cons_append] at hone ⊢
    rw [decodeDelta, hone]
    simp only [Option.bind_eq_bind, Option.bind_some, hv]
    rw [hbytes] at hlen hfuel
    rw [ih v _ fuel (by omega) (by simp only [List.length_cons] at hfuel ⊢; omega)]
    rfl

end Tasan.Codec
