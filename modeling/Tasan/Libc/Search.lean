import Tasan.CString
import Tasan.Fuel

/-!
# The searches and comparisons of `sanitizer_libc.cpp`

`internal_memcmp`, `internal_memchr`, `internal_memrchr`, `internal_strchr` and `internal_strrchr` next to the
functions of ISO C, and the interceptors that forward to them before anything is initialized. The internal
functions look at memory through `char`, whose values are those of the platform (`charValue`). ISO C compares
bytes as `unsigned char`, and converts what is searched for to the type of a character.

A byte that is equal to an `int` as a `char` is the low byte of that `int`, but only an `int` that is the
value of some `char` is found at all (`charValue_eq_toInt_iff`). This is the whole difference between the
searches; `internal_strchr` alone converts its argument.
-/

namespace Tasan.Libc

open CString (IsLength)

/-- The value of a `char`. -/
def charValue (signed : Bool) (b : Byte) : ℤ := if signed then b.toInt else b.toNat

/-! ## The internal functions -/

/-- `internal_memchr`, with `n` bytes left. -/
def internalMemchr (signed : Bool) (m : Mem) (c : BitVec 32) : ℕ → ℕ → Option ℕ
  | 0, _ => none
  | n + 1, t =>
    if charValue signed (m t) = c.toInt then some t else internalMemchr signed m c n (t + 1)

/-- The loop of `internal_memrchr`, with `n` bytes left. -/
def memrchrLoop (signed : Bool) (m : Mem) (c : BitVec 32) : ℕ → ℕ → Option ℕ → Option ℕ
  | 0, _, res => res
  | n + 1, t, res =>
    memrchrLoop signed m c n (t + 1) (if charValue signed (m t) = c.toInt then some t else res)

/-- `internal_memrchr`. -/
def internalMemrchr (signed : Bool) (m : Mem) (c : BitVec 32) (n s : ℕ) : Option ℕ :=
  memrchrLoop signed m c n s none

/-- `internal_memcmp`, with `n` bytes left. -/
def internalMemcmp (signed : Bool) (m : Mem) : ℕ → ℕ → ℕ → ℤ
  | 0, _, _ => 0
  | n + 1, t1, t2 =>
    if charValue signed (m t1) ≠ charValue signed (m t2) then
      if charValue signed (m t1) < charValue signed (m t2) then -1 else 1
    else internalMemcmp signed m n (t1 + 1) (t2 + 1)

/-- `internal_strchr`. A string has no end that the loop knows of. -/
def internalStrchr (signed : Bool) (m : Mem) (c : BitVec 32) : ℕ → ℕ → Outcome Empty (Option ℕ)
  | 0, _ => .unfinished
  | fuel + 1, s =>
    if charValue signed (m s) = charValue signed (c.setWidth 8) then .returned (some s)
    else if charValue signed (m s) = 0 then .returned none
    else internalStrchr signed m c fuel (s + 1)

/-- The loop of `internal_strrchr`. -/
def strrchrLoop (signed : Bool) (m : Mem) (c : BitVec 32) :
    ℕ → ℕ → Option ℕ → Outcome Empty (Option ℕ)
  | 0, _, _ => .unfinished
  | fuel + 1, s, res =>
    if charValue signed (m s) ≠ 0 then
      strrchrLoop signed m c fuel (s + 1) (if charValue signed (m s) = c.toInt then some s else res)
    else .returned res

/-- `internal_strrchr`. -/
def internalStrrchr (signed : Bool) (m : Mem) (c : BitVec 32) (fuel s : ℕ) :
    Outcome Empty (Option ℕ) := strrchrLoop signed m c fuel s none

/-! ## ISO C -/

/-- The addresses of a block. -/
def addresses (n s : ℕ) : List ℕ := (List.range n).map (s + ·)

/-- `memchr`: the first byte that is `c` converted to `unsigned char`. -/
def memchr (m : Mem) (c : BitVec 32) (n s : ℕ) : Option ℕ :=
  (addresses n s).find? fun a => m a = c.setWidth 8

/-- `memrchr`: the last one. -/
def memrchr (m : Mem) (c : BitVec 32) (n s : ℕ) : Option ℕ :=
  (addresses n s).reverse.find? fun a => m a = c.setWidth 8

/-- The sign of `memcmp`: the first bytes that differ are compared as `unsigned char`. -/
def memcmp (m : Mem) (n s1 s2 : ℕ) : ℤ :=
  match (List.range n).find? fun i => m (s1 + i) ≠ m (s2 + i) with
  | none => 0
  | some i => if (m (s1 + i)).toNat < (m (s2 + i)).toNat then -1 else 1

/-- `strchr` in a string of length `len`, whose NUL is searched too. -/
def strchr (m : Mem) (c : BitVec 32) (len s : ℕ) : Option ℕ := memchr m c (len + 1) s

/-- `strrchr`. -/
def strrchr (m : Mem) (c : BitVec 32) (len s : ℕ) : Option ℕ := memrchr m c (len + 1) s

/-! ## The interceptors -/

/-- The flags that `MemcmpInterceptorCommon` looks at. -/
structure MemcmpFlags where
  interceptMemcmp : Bool
  strictMemcmp : Bool

/-- The loop of `MemcmpInterceptorCommon` with `n` bytes left, and `CharCmpX` of the last two bytes. -/
def compareLoop (m : Mem) : ℕ → ℕ → ℕ → Byte × Byte → ℤ
  | 0, _, _, (c1, c2) => if c1.toNat = c2.toNat then 0 else if c1.toNat < c2.toNat then -1 else 1
  | n + 1, s1, s2, _ =>
    if (m s1).toNat ≠ (m s2).toNat then if (m s1).toNat < (m s2).toNat then -1 else 1
    else compareLoop m n (s1 + 1) (s2 + 1) (m s1, m s2)

/-- The interceptor of `memcmp`, without what it checks. -/
def memcmpInterceptor (signed initialized : Bool) (flags : MemcmpFlags) (m : Mem) (n a1 a2 : ℕ) : ℤ :=
  if !initialized then internalMemcmp signed m n a1 a2
  else if flags.interceptMemcmp && !flags.strictMemcmp then compareLoop m n a1 a2 (0, 0)
  else memcmp m n a1 a2

/-! ## Characters -/

variable {signed : Bool} {m : Mem} {c : BitVec 32} {n s s1 s2 len : ℕ}

theorem charValue_inj {b b' : Byte} : charValue signed b = charValue signed b' ↔ b = b' := by
  unfold charValue
  split_ifs
  · exact BitVec.toInt_inj
  · exact Nat.cast_inj.trans BitVec.toNat_inj

theorem charValue_eq_zero_iff {b : Byte} : charValue signed b = 0 ↔ b = 0 := by
  rw [← @charValue_inj signed]
  cases signed <;> rfl

/-- An `int` that is the value of a `char`. -/
def IsChar (signed : Bool) (c : BitVec 32) : Prop := charValue signed (c.setWidth 8) = c.toInt

instance (signed : Bool) (c : BitVec 32) : Decidable (IsChar signed c) :=
  inferInstanceAs (Decidable (_ = _))

theorem charValue_eq_toInt_iff {b : Byte} :
    charValue signed b = c.toInt ↔ IsChar signed c ∧ b = c.setWidth 8 := by
  have hlow : charValue signed b = c.toInt → b = c.setWidth 8 := by
    intro h
    have hb := b.isLt
    have hc := c.isLt
    rw [← BitVec.toNat_inj, BitVec.toNat_setWidth]
    unfold charValue at h
    rw [BitVec.toInt_eq_toNat_cond, BitVec.toInt_eq_toNat_cond] at h
    split_ifs at h <;> omega
  constructor
  · intro h
    obtain rfl := hlow h
    exact ⟨h, rfl⟩
  · rintro ⟨h, rfl⟩
    exact h

/-! ## Blocks -/

theorem addresses_succ (n s : ℕ) : addresses (n + 1) s = s :: addresses n (s + 1) := by
  rw [addresses, List.range_succ_eq_map, List.map_cons, List.map_map, Nat.add_zero]
  congr 1
  refine List.map_congr_left fun i _ => ?_
  rw [Function.comp_apply, Nat.succ_eq_add_one]
  omega

theorem addresses_succ_last (n s : ℕ) : addresses (n + 1) s = addresses n s ++ [s + n] := by
  rw [addresses, List.range_succ, List.map_append]
  rfl

theorem memchr_eq_none : memchr m c n s = none ↔ ∀ i < n, m (s + i) ≠ c.setWidth 8 := by
  simp [memchr, addresses]

theorem memrchr_eq_none : memrchr m c n s = none ↔ ∀ i < n, m (s + i) ≠ c.setWidth 8 := by
  simp [memrchr, addresses]

theorem memchr_succ (m : Mem) (c : BitVec 32) (n s : ℕ) :
    memchr m c (n + 1) s = if m s = c.setWidth 8 then some s else memchr m c n (s + 1) := by
  rw [memchr, addresses_succ, List.find?_cons]
  by_cases h : m s = c.setWidth 8 <;> simp [h, memchr]

theorem memrchr_succ (m : Mem) (c : BitVec 32) (n s : ℕ) :
    memrchr m c (n + 1) s =
      (memrchr m c n (s + 1)).or (if m s = c.setWidth 8 then some s else none) := by
  rw [memrchr, addresses_succ, List.reverse_cons, List.find?_append]
  by_cases h : m s = c.setWidth 8 <;> simp [h, memrchr]

/-- `memcmp` byte by byte. -/
theorem memcmp_succ (m : Mem) (n s1 s2 : ℕ) : memcmp m (n + 1) s1 s2 =
    if m s1 ≠ m s2 then if (m s1).toNat < (m s2).toNat then -1 else 1
    else memcmp m n (s1 + 1) (s2 + 1) := by
  have hnext : ∀ t i, t + Nat.succ i = t + 1 + i := fun t i => by omega
  rw [memcmp, List.range_succ_eq_map, List.find?_cons, List.find?_map]
  by_cases h : m s1 = m s2
  · -- the position among the others
    have hothers : (fun i => decide (m (s1 + i) ≠ m (s2 + i))) ∘ Nat.succ =
        fun i => decide (m (s1 + 1 + i) ≠ m (s2 + 1 + i)) := by
      funext i
      rw [Function.comp_apply, hnext s1, hnext s2]
    have hfirst : decide (m (s1 + 0) ≠ m (s2 + 0)) = false := decide_eq_false (not_not.mpr h)
    rw [hothers, hfirst, if_neg (not_not.mpr h), memcmp]
    dsimp only
    cases (List.range n).find? fun i => decide (m (s1 + 1 + i) ≠ m (s2 + 1 + i)) with
    | none => rfl
    | some i =>
      rw [Option.map_some]
      dsimp only
      rw [hnext s1, hnext s2]
  · have hfirst : decide (m (s1 + 0) ≠ m (s2 + 0)) = true := decide_eq_true h
    rw [hfirst, if_pos h]
    rfl

/-! ## The internal functions on blocks -/

theorem internalMemchr_eq (signed : Bool) (m : Mem) (c : BitVec 32) (n s : ℕ) :
    internalMemchr signed m c n s = if IsChar signed c then memchr m c n s else none := by
  induction n generalizing s with
  | zero => simp [internalMemchr, memchr, addresses]
  | succ n ih =>
    rw [internalMemchr, ih, memchr_succ]
    simp only [charValue_eq_toInt_iff]
    by_cases h : IsChar signed c <;> simp [h]

theorem memrchrLoop_eq (signed : Bool) (m : Mem) (c : BitVec 32) (n s : ℕ) (res : Option ℕ) :
    memrchrLoop signed m c n s res = if IsChar signed c then (memrchr m c n s).or res else res := by
  induction n generalizing s res with
  | zero => simp [memrchrLoop, memrchr, addresses]
  | succ n ih =>
    rw [memrchrLoop, ih, memrchr_succ]
    simp only [charValue_eq_toInt_iff]
    by_cases h : IsChar signed c
    · by_cases hs : m s = c.setWidth 8 <;> simp [h, hs]
    · simp [h]

theorem charValue_lt_iff {b b' : Byte} (hne : b ≠ b') :
    ((charValue signed b < charValue signed b') ↔ b.toNat < b'.toNat) ↔
      (signed = false ∨ b.msb = b'.msb) := by
  have hb := b.isLt
  have hb' := b'.isLt
  have hnat : b.toNat ≠ b'.toNat := fun h => hne (BitVec.toNat_inj.mp h)
  cases signed with
  | false => simp [charValue]
  | true =>
    simp only [charValue, if_true, BitVec.toInt_eq_toNat_cond, BitVec.msb_eq_decide, decide_eq_decide,
      Bool.true_eq_false, false_or]
    split_ifs <;> omega

theorem sign_eq_iff (p q : Prop) [Decidable p] [Decidable q] :
    ((if p then (-1 : ℤ) else 1) = if q then -1 else 1) ↔ (p ↔ q) := by
  by_cases hp : p <;> by_cases hq : q <;> simp [hp, hq]

/-- `internal_memcmp` has the sign of `memcmp` exactly if the first bytes that differ have the same sign as
`char`, or no `char` has one. -/
theorem internalMemcmp_eq_iff (signed : Bool) (m : Mem) (n s1 s2 : ℕ) :
    internalMemcmp signed m n s1 s2 = memcmp m n s1 s2 ↔
      (signed = false ∨ ∀ i < n, (∀ j < i, m (s1 + j) = m (s2 + j)) →
        (m (s1 + i)).msb = (m (s2 + i)).msb) := by
  induction n generalizing s1 s2 with
  | zero => simp [internalMemcmp, memcmp]
  | succ n ih =>
    rw [internalMemcmp, memcmp_succ]
    simp only [ne_eq, charValue_inj]
    by_cases h : m s1 = m s2
    · -- the comparison goes on
      rw [if_neg (not_not.mpr h), if_neg (not_not.mpr h), ih]
      refine or_congr Iff.rfl ⟨fun hrest i hi hsame => ?_, fun hall i hi hsame => ?_⟩
      · rcases i with - | i
        · rw [Nat.add_zero, Nat.add_zero, h]
        · have hlater := hrest i (by omega) fun j hj => by
            have := hsame (j + 1) (by omega)
            rwa [show s1 + (j + 1) = s1 + 1 + j by omega, show s2 + (j + 1) = s2 + 1 + j by omega] at this
          rwa [show s1 + (i + 1) = s1 + 1 + i by omega, show s2 + (i + 1) = s2 + 1 + i by omega]
      · have hlater := hall (i + 1) (by omega) fun j hj => by
          rcases j with - | j
          · exact h
          · rw [show s1 + (j + 1) = s1 + 1 + j by omega, show s2 + (j + 1) = s2 + 1 + j by omega]
            exact hsame j (by omega)
        rwa [show s1 + (i + 1) = s1 + 1 + i by omega, show s2 + (i + 1) = s2 + 1 + i by omega] at hlater
    · -- these are the first bytes that differ
      rw [if_pos h, if_pos h]
      have horder := @charValue_lt_iff signed _ _ h
      have hfirst : (∀ i < n + 1, (∀ j < i, m (s1 + j) = m (s2 + j)) →
          (m (s1 + i)).msb = (m (s2 + i)).msb) ↔ (m s1).msb = (m s2).msb := by
        constructor
        · intro hall
          exact hall 0 (by omega) fun j hj => absurd hj (Nat.not_lt_zero j)
        · rintro heq (- | i) - hsame
          · exact heq
          · exact absurd (hsame 0 (by omega)) h
      rw [hfirst, ← horder, sign_eq_iff]

theorem compareLoop_eq (m : Mem) (n s1 s2 : ℕ) (b : Byte) :
    compareLoop m n s1 s2 (b, b) = memcmp m n s1 s2 := by
  induction n generalizing s1 s2 b with
  | zero => simp [compareLoop, memcmp]
  | succ n ih =>
    rw [compareLoop, memcmp_succ]
    simp only [ne_eq, BitVec.toNat_inj]
    by_cases h : m s1 = m s2
    · rw [if_neg (not_not.mpr h), if_neg (not_not.mpr h), h, ih]
    · rw [if_pos h, if_pos h]

theorem memcmpInterceptor_initialized (signed : Bool) (flags : MemcmpFlags) (m : Mem) (n a1 a2 : ℕ) :
    memcmpInterceptor signed true flags m n a1 a2 = memcmp m n a1 a2 := by
  unfold memcmpInterceptor
  simp only [Bool.not_true, Bool.false_eq_true, if_false]
  split_ifs
  · exact compareLoop_eq m n a1 a2 0
  · rfl

/-! ## The internal functions on strings -/

/-- `internal_strchr` is `strchr`. -/
theorem internalStrchr_eq (signed : Bool) (c : BitVec 32) {fuel : ℕ} (hfuel : len < fuel)
    (hchar : ∀ i < len, m (s + i) ≠ 0) (hstop : m (s + len) = 0) :
    internalStrchr signed m c fuel s = .returned (strchr m c len s) := by
  induction len generalizing s fuel with
  | zero =>
    obtain ⟨fuel, rfl⟩ := Nat.exists_eq_succ_of_ne_zero hfuel.ne'
    rw [internalStrchr, strchr, memchr_succ]
    simp only [charValue_inj, charValue_eq_zero_iff]
    rw [Nat.add_zero] at hstop
    split_ifs
    · rfl
    · rfl
  | succ len ih =>
    obtain ⟨fuel, rfl⟩ := Nat.exists_eq_succ_of_ne_zero (Nat.ne_zero_of_lt hfuel)
    have hshift : ∀ i, s + 1 + i = s + (i + 1) := fun i => by omega
    rw [internalStrchr, strchr, memchr_succ]
    simp only [charValue_inj, charValue_eq_zero_iff]
    rw [if_neg (show ¬ m s = 0 from hchar 0 (by omega)),
      ih (by omega) (fun i hi => hshift i ▸ hchar (i + 1) (by omega)) (hshift len ▸ hstop), strchr]
    split_ifs
    · rfl
    · rfl

theorem strrchrLoop_eq (signed : Bool) (c : BitVec 32) (res : Option ℕ) {fuel : ℕ} (hfuel : len < fuel)
    (hchar : ∀ i < len, m (s + i) ≠ 0) (hstop : m (s + len) = 0) :
    strrchrLoop signed m c fuel s res =
      .returned (if IsChar signed c then (memrchr m c len s).or res else res) := by
  induction len generalizing s fuel res with
  | zero =>
    obtain ⟨fuel, rfl⟩ := Nat.exists_eq_succ_of_ne_zero hfuel.ne'
    rw [Nat.add_zero] at hstop
    rw [strrchrLoop, if_neg (not_not.mpr (charValue_eq_zero_iff.mpr hstop))]
    simp [memrchr, addresses]
  | succ len ih =>
    obtain ⟨fuel, rfl⟩ := Nat.exists_eq_succ_of_ne_zero (Nat.ne_zero_of_lt hfuel)
    have hshift : ∀ i, s + 1 + i = s + (i + 1) := fun i => by omega
    have hs : charValue signed (m s) ≠ 0 := fun h => hchar 0 (by omega) (charValue_eq_zero_iff.mp h)
    rw [strrchrLoop, if_pos hs,
      ih _ (by omega) (fun i hi => hshift i ▸ hchar (i + 1) (by omega)) (hshift len ▸ hstop), memrchr_succ]
    simp only [charValue_eq_toInt_iff]
    by_cases h : IsChar signed c
    · by_cases hs : m s = c.setWidth 8 <;> simp [h, hs]
    · simp [h]

theorem strrchr_eq (c : BitVec 32) (hstop : m (s + len) = 0) :
    strrchr m c len s = if c.setWidth 8 = (0 : Byte) then some (s + len) else memrchr m c len s := by
  rw [strrchr, memrchr, addresses_succ_last, List.reverse_append, List.reverse_singleton,
    List.singleton_append, List.find?_cons, hstop]
  by_cases h : c.setWidth 8 = (0 : Byte)
  · rw [decide_eq_true h.symm, if_pos h]
  · rw [decide_eq_false fun h' => h h'.symm, if_neg h, memrchr]

/-! ## Before and after the initialization -/

theorem found_iff {r : Option ℕ} (hr : r = none ↔ ∀ i < n, m (s + i) ≠ c.setWidth 8) :
    (if IsChar signed c then r else none) = r ↔
      (IsChar signed c ∨ ∀ i < n, m (s + i) ≠ c.setWidth 8) := by
  rw [← hr]
  by_cases h : IsChar signed c
  · rw [if_pos h]
    exact iff_of_true rfl (Or.inl h)
  · rw [if_neg h, or_iff_right h]
    exact eq_comm

/-- What the internal functions return, against ISO C: the interceptor of `memcmp` gives the same before and
after the initialization exactly if the first bytes that differ have the same sign as `char`; `memchr` and
`memrchr` find the same exactly if the `int` is the value of a `char`, or its low byte is not in the block;
`strchr` always does; and `strrchr` does exactly if the low byte is not the NUL and is not missed as by
`memchr`. All of them return. -/
theorem search_iff (signed : Bool) (flags : MemcmpFlags) (m : Mem) (c : BitVec 32) (n s s2 len : ℕ)
    (hlen : IsLength m s ⊤ len) :
    (memcmpInterceptor signed false flags m n s s2 = memcmpInterceptor signed true flags m n s s2 ↔
      (signed = false ∨ ∀ i < n, (∀ j < i, m (s + j) = m (s2 + j)) →
        (m (s + i)).msb = (m (s2 + i)).msb)) ∧
    memcmpInterceptor signed true flags m n s s2 = memcmp m n s s2 ∧
    (internalMemchr signed m c n s = memchr m c n s ↔
      (IsChar signed c ∨ ∀ i < n, m (s + i) ≠ c.setWidth 8)) ∧
    (internalMemrchr signed m c n s = memrchr m c n s ↔
      (IsChar signed c ∨ ∀ i < n, m (s + i) ≠ c.setWidth 8)) ∧
    internalStrchr signed m c (len + 1) s = .returned (strchr m c len s) ∧
    (internalStrrchr signed m c (len + 1) s = .returned (strrchr m c len s) ↔
      c.setWidth 8 ≠ (0 : Byte) ∧ (IsChar signed c ∨ ∀ i < len, m (s + i) ≠ c.setWidth 8)) := by
  have hstop : m (s + len) = 0 := hlen.stop (ENat.natCast_lt_top len)
  refine ⟨?_, memcmpInterceptor_initialized signed flags m n s s2, ?_, ?_,
    internalStrchr_eq signed c (Nat.lt_succ_self len) hlen.char hstop, ?_⟩
  · rw [memcmpInterceptor_initialized, memcmpInterceptor]
    exact internalMemcmp_eq_iff signed m n s s2
  · rw [internalMemchr_eq]
    exact found_iff memchr_eq_none
  · rw [internalMemrchr, memrchrLoop_eq, Option.or_none]
    exact found_iff memrchr_eq_none
  · rw [internalStrrchr, strrchrLoop_eq signed c none (Nat.lt_succ_self len) hlen.char hstop, Option.or_none,
      strrchr_eq c hstop, Outcome.returned.injEq]
    by_cases hnul : c.setWidth 8 = (0 : Byte)
    · -- there is no NUL before the end
      have hnone : memrchr m c len s = none := memrchr_eq_none.mpr fun i hi => hnul ▸ hlen.char i hi
      rw [if_pos hnul, hnone, ite_self]
      exact iff_of_false (Option.some_ne_none _).symm fun h => h.1 hnul
    · rw [if_neg hnul, and_iff_right hnul]
      exact found_iff memrchr_eq_none

/-- The string of one character `0xe9`. -/
def accented : Mem := fun a => if a = 0 then 0xe9 else 0

/-- A string of one character is compared with its NUL, and searched for that character as an `unsigned char`
and for the NUL. -/
theorem search_accented :
    memcmpInterceptor true false ⟨true, false⟩ accented 1 0 1 = -1 ∧
      memcmpInterceptor true true ⟨true, false⟩ accented 1 0 1 = 1 ∧
      internalMemchr true accented 0xe9 1 0 = none ∧ memchr accented 0xe9 1 0 = some 0 ∧
      internalMemrchr true accented 0xe9 1 0 = none ∧ memrchr accented 0xe9 1 0 = some 0 ∧
      internalStrrchr true accented 0 2 0 = .returned none ∧ strrchr accented 0 1 0 = some 1 := by
  decide

/-- The instance for the same string. -/
theorem search_iff_accented :
    IsLength accented 0 ⊤ 1 ∧
      internalStrchr true accented 0xe9 2 0 = .returned (strchr accented 0xe9 1 0) := by
  have hlen : IsLength accented 0 ⊤ 1 := ⟨le_top, fun i hi => by
    obtain rfl : i = 0 := by omega
    decide, fun _ => by decide⟩
  exact ⟨hlen, (search_iff true ⟨true, false⟩ accented 0xe9 1 0 1 1 hlen).2.2.2.2.1⟩

end Tasan.Libc
