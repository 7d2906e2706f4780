import Tasan.Format.Sizes

/-!
# Reading numbers

`internal_simple_strtoll` of `sanitizer_libc.cpp`. A string is the list of its characters from a
pointer on, up to the NUL. The number is that of the digits with the sign, or the nearest `s64`, and the loops
that find it read nothing behind the NUL (`internalSimpleStrtollSteps_eq`). Decimal digits are read back as the
number that they stand for, and the end pointer is behind them (`internalSimpleStrtoll_digits`).
-/

namespace Tasan.Libc

open FlagParser (nul)
open Format (peek isDigit addDigit decimal takeWhile_digits
  dropWhile_digits foldl_addDigit)

/-- `IsSpace`: a blank, or one of the characters from a tab to a carriage return. -/
def isSpace (c : Char) : Bool := c = ' ' || (9 ≤ c.toNat && c.toNat ≤ 13)

/-- `internal_simple_strtoll` with base 10: the number, and the end pointer. -/
def internalSimpleStrtoll (nptr : List Char) : ℤ × List Char :=
  let nptr := nptr.dropWhile isSpace
  let oldNptr := nptr
  let (sgn, nptr) : ℤ × List Char :=
    if peek nptr = '+' then (1, nptr.tail) else if peek nptr = '-' then (-1, nptr.tail)
    else (1, nptr)
  let res := (nptr.takeWhile isDigit).foldl addDigit 0
  let haveDigits := isDigit (peek nptr)
  let endptr := if haveDigits then nptr.dropWhile isDigit else oldNptr
  (if 0 < sgn then min (2^63 - 1) res else if 2^63 - 1 < res then -2^63 else -res, endptr)

/-! ## The loops

Here a text is what can be read from a pointer on, and a character behind it cannot. The steps read one
character after the other, and stop when a signed operation overflows. -/

/-- `while (IsSpace(*nptr)) nptr++`. -/
def skipSpaces : List Char → Option (List Char)
  | [] => none
  | c :: text => if isSpace c then skipSpaces text else some (c :: text)

/-- The loop over the digits: `res`, `have_digits` and `nptr` behind it. -/
def digitsLoop : List Char → ℕ → Bool → Option (ℕ × Bool × List Char)
  | [], _, _ => none
  | c :: text, res, haveDigits =>
    if isDigit c then digitsLoop text (addDigit res c) true else some (res, haveDigits, c :: text)

/-- The result of an operation on `s64`. -/
def s64 (v : ℤ) : Option ℤ := if -2^63 ≤ v ∧ v ≤ 2^63 - 1 then some v else none

/-- `internal_simple_strtoll` with base 10, step by step: the number and the end pointer. -/
def internalSimpleStrtollSteps (text : List Char) : Option (ℤ × List Char) := do
  let nptr ← skipSpaces text
  let oldNptr := nptr
  let c ← nptr.head?
  let (sgn, nptr) : ℤ × List Char :=
    if c = '+' then (1, nptr.tail) else if c = '-' then (-1, nptr.tail) else (1, nptr)
  let (res, haveDigits, nptr) ← digitsLoop nptr 0 false
  let endptr := if haveDigits then nptr else oldNptr
  if 0 < sgn then
    let value ← s64 (min (2^63 - 1) res)
    return (value, endptr)
  else if 2^63 - 1 < res then return (-2^63, endptr)
  else
    let value ← s64 res
    let value ← s64 (value * -1)
    return (value, endptr)

/-- The sign of a number. -/
def signOf (p : List Char) : ℤ := if peek p = '-' then -1 else 1

/-- What is behind an optional sign. -/
def behindSign (p : List Char) : List Char := if peek p = '+' ∨ peek p = '-' then p.tail else p

theorem skipSpaces_append (s : List Char) :
    skipSpaces (s ++ [nul]) = some (s.dropWhile isSpace ++ [nul]) := by
  induction s with
  | nil => rfl
  | cons c s ih =>
    rw [List.cons_append, skipSpaces, List.dropWhile_cons]
    split_ifs
    · exact ih
    · rfl

theorem digitsLoop_append (s : List Char) (res : ℕ) (haveDigits : Bool) :
    digitsLoop (s ++ [nul]) res haveDigits = some ((s.takeWhile isDigit).foldl addDigit res,
      haveDigits || !(s.takeWhile isDigit).isEmpty, s.dropWhile isDigit ++ [nul]) := by
  induction s generalizing res haveDigits with
  | nil =>
    rw [List.takeWhile_nil, List.isEmpty_nil, Bool.not_true, Bool.or_false]
    rfl
  | cons c s ih =>
    rw [List.cons_append, digitsLoop, List.takeWhile_cons, List.dropWhile_cons]
    split_ifs
    · rw [ih, List.foldl_cons, List.isEmpty_cons, Bool.true_or, Bool.not_false, Bool.or_true]
    · rw [List.isEmpty_nil, Bool.not_true, Bool.or_false]
      rfl

theorem sign_eq (p : List Char) :
    (if peek p = '+' then (1, p.tail) else if peek p = '-' then (-1, p.tail) else (1, p) : ℤ × List Char) =
      (signOf p, behindSign p) := by
  unfold signOf behindSign
  by_cases hplus : peek p = '+'
  · have hminus : peek p ≠ '-' := by
      rw [hplus]
      decide
    rw [if_pos hplus, if_neg hminus, if_pos (Or.inl hplus)]
  by_cases hminus : peek p = '-'
  · rw [if_neg hplus, if_pos hminus, if_pos hminus, if_pos (Or.inr hminus)]
  · rw [if_neg hplus, if_neg hminus, if_neg hminus, if_neg (not_or.mpr ⟨hplus, hminus⟩)]

/-- The sign is read, also where the string has ended. -/
theorem sign_append (p : List Char) : (p ++ [nul]).head? = some (peek p) ∧
    (if peek p = '+' then (1, (p ++ [nul]).tail)
      else if peek p = '-' then (-1, (p ++ [nul]).tail) else (1, p ++ [nul]) : ℤ × List Char) =
      (signOf p, behindSign p ++ [nul]) := by
  cases p with
  | nil => exact ⟨rfl, rfl⟩
  | cons c p =>
    have hbehind : behindSign (c :: p ++ [nul]) = behindSign (c :: p) ++ [nul] :=
      (apply_ite (· ++ [nul]) (c = '+' ∨ c = '-') p (c :: p)).symm
    exact ⟨rfl, (sign_eq (c :: p ++ [nul])).trans (Prod.ext rfl hbehind)⟩

theorem takeWhile_isEmpty (p : List Char) : (!(p.takeWhile isDigit).isEmpty) = isDigit (peek p) := by
  cases p with
  | nil => rfl
  | cons c p =>
    rw [List.takeWhile_cons, show peek (c :: p) = c from rfl]
    split_ifs with h
    · rw [h]
      rfl
    · rw [Bool.eq_false_of_not_eq_true h]
      rfl

/-- The parts of the function on strings. -/
theorem internalSimpleStrtoll_parts (s : List Char) :
    internalSimpleStrtoll s =
      (if 0 < signOf (s.dropWhile isSpace) then
          min (2^63 - 1) ((((behindSign (s.dropWhile isSpace)).takeWhile isDigit).foldl addDigit 0 : ℕ) : ℤ)
        else if 2^63 - 1 < ((behindSign (s.dropWhile isSpace)).takeWhile isDigit).foldl addDigit 0 then -2^63
        else -((((behindSign (s.dropWhile isSpace)).takeWhile isDigit).foldl addDigit 0 : ℕ) : ℤ),
      if isDigit (peek (behindSign (s.dropWhile isSpace))) then
        (behindSign (s.dropWhile isSpace)).dropWhile isDigit else s.dropWhile isSpace) := by
  unfold internalSimpleStrtoll
  dsimp only
  rw [sign_eq]

/-- The number is that of the digits with the sign, or the nearest `s64`. -/
theorem internalSimpleStrtoll_eq (s : List Char) :
    internalSimpleStrtoll s =
      (max (-2^63) (min (2^63 - 1)
        (signOf (s.dropWhile isSpace) * decimal ((behindSign (s.dropWhile isSpace)).takeWhile isDigit))),
      if (behindSign (s.dropWhile isSpace)).takeWhile isDigit = [] then s.dropWhile isSpace
      else (behindSign (s.dropWhile isSpace)).dropWhile isDigit) := by
  rw [internalSimpleStrtoll_parts, foldl_addDigit fun c hc => List.mem_takeWhile_imp hc, ← takeWhile_isEmpty]
  have hsign : signOf (s.dropWhile isSpace) = 1 ∨ signOf (s.dropWhile isSpace) = -1 := by
    unfold signOf
    split_ifs
    · exact .inr rfl
    · exact .inl rfl
  refine Prod.ext ?_ ?_
  · -- The sum of the digits is beyond the range of `s64` just when the number is.
    dsimp only
    generalize decimal _ = n
    rcases hsign with h | h
    · rw [h, if_pos Int.one_pos]
      omega
    · rw [h, if_neg (by norm_num)]
      split_ifs <;> omega
  · cases (behindSign (s.dropWhile isSpace)).takeWhile isDigit with
    | nil => rfl
    | cons => rfl

/-- A text that ends at the NUL is read to its end at most, and no signed operation overflows. -/
theorem internalSimpleStrtollSteps_append (s : List Char) :
    internalSimpleStrtollSteps (s ++ [nul]) =
      some ((internalSimpleStrtoll s).1, (internalSimpleStrtoll s).2 ++ [nul]) := by
  obtain ⟨hhead, hsign⟩ := sign_append (s.dropWhile isSpace)
  unfold internalSimpleStrtollSteps
  rw [skipSpaces_append, Option.bind_eq_bind, Option.bind_some, hhead, Option.bind_eq_bind, Option.bind_some]
  dsimp only
  rw [hsign]
  dsimp only
  rw [digitsLoop_append, Option.bind_eq_bind, Option.bind_some]
  dsimp only
  rw [Bool.false_or, takeWhile_isEmpty, ← apply_ite (· ++ [nul]), internalSimpleStrtoll_parts]
  generalize List.foldl addDigit 0 _ = res
  generalize (if isDigit (peek (behindSign (s.dropWhile isSpace))) = true then _ else _) = endptr
  have hpos : s64 (min (2^63 - 1) (res : ℤ)) = some (min (2^63 - 1) (res : ℤ)) :=
    if_pos ⟨by omega, min_le_left _ _⟩
  split_ifs with hsgn hbig
  · rw [hpos]
    rfl
  · rfl
  · have hres : s64 res = some (res : ℤ) := if_pos (by omega)
    have hneg : s64 ((res : ℤ) * -1) = some (-(res : ℤ)) := by
      rw [mul_neg_one]
      exact if_pos (by omega)
    rw [hres, Option.bind_eq_bind, Option.bind_some, hneg]
    rfl

/-- For every string, `internal_simple_strtoll` reads nothing behind the NUL and no signed operation
overflows. The number is that of the digits with the sign, or the nearest `s64`, and the end pointer is behind
the digits, or at the first character that is no space. -/
theorem internalSimpleStrtollSteps_eq (s : List Char) :
    internalSimpleStrtollSteps (s ++ [nul]) =
      some (max (-2^63) (min (2^63 - 1)
          (signOf (s.dropWhile isSpace) * decimal ((behindSign (s.dropWhile isSpace)).takeWhile isDigit))),
        (if (behindSign (s.dropWhile isSpace)).takeWhile isDigit = [] then s.dropWhile isSpace
          else (behindSign (s.dropWhile isSpace)).dropWhile isDigit) ++ [nul]) := by
  rw [internalSimpleStrtollSteps_append, internalSimpleStrtoll_eq]

/-! ## Strings that begin with digits -/

theorem isSpace_of_isDigit {c : Char} (h : isDigit c = true) : isSpace c = false := by
  simp only [isDigit, Bool.and_eq_true, decide_eq_true_eq] at h
  have h0 : '0'.toNat ≤ c.toNat := Char.le_def.mp h.1
  have hzero : '0'.toNat = 48 := rfl
  have hblank : c ≠ ' ' := by
    rintro rfl
    exact absurd h.1 (by decide)
  unfold isSpace
  simp only [hblank, decide_false, Bool.false_or, Bool.and_eq_false_iff, decide_eq_false_iff_not]
  right
  omega

/-- Digits are read back. -/
theorem internalSimpleStrtoll_digits {digits rest : List Char}
    (hdigits : ∀ c ∈ digits, isDigit c = true) (hne : digits ≠ [])
    (hrest : isDigit (peek rest) = false) :
    internalSimpleStrtoll (digits ++ rest) =
      (((min (2^63 - 1) (decimal digits) : ℕ) : ℤ), rest) := by
  obtain ⟨c, tail, rfl⟩ := List.exists_cons_of_ne_nil hne
  have hc : isDigit c = true := hdigits c List.mem_cons_self
  have hpeek : peek (c :: tail ++ rest) = c := rfl
  have hdrop : (c :: tail ++ rest).dropWhile isSpace = c :: tail ++ rest :=
    List.dropWhile_cons_of_neg (by rw [isSpace_of_isDigit hc]; exact Bool.false_ne_true)
  have hplus : c ≠ '+' := by
    rintro rfl
    exact absurd hc (by decide)
  have hminus : c ≠ '-' := by
    rintro rfl
    exact absurd hc (by decide)
  rw [internalSimpleStrtoll_eq, hdrop, signOf, behindSign, hpeek, if_neg hminus,
    if_neg (not_or.mpr ⟨hplus, hminus⟩), takeWhile_digits hdigits hrest, dropWhile_digits hdigits hrest,
    if_neg hne, one_mul, max_eq_right (by omega), Nat.cast_min]
  norm_num

theorem internalSimpleStrtoll_space (p : List Char) :
    internalSimpleStrtoll (' ' :: p) = internalSimpleStrtoll p := by
  have hdrop : (' ' :: p).dropWhile isSpace = p.dropWhile isSpace :=
    List.dropWhile_cons_of_pos (by decide)
  unfold internalSimpleStrtoll
  rw [hdrop]

/-! ## Decimal numbers -/

theorem isDigit_of_mem_toDigits {n : ℕ} {c : Char} (h : c ∈ Nat.toDigits 10 n) :
    isDigit c = true := by
  have hdigit := Nat.isDigit_of_mem_toDigits (by decide) le_rfl h
  simp only [Char.isDigit, Bool.and_eq_true, decide_eq_true_eq] at hdigit
  simp only [isDigit, Bool.and_eq_true, decide_eq_true_eq]
  exact ⟨Char.le_def.mpr hdigit.1, Char.le_def.mpr hdigit.2⟩

theorem decimal_toDigits (n : ℕ) : decimal (Nat.toDigits 10 n) = n := by
  have hfold : ∀ (digits : List Char) (k : ℕ),
      digits.foldl (fun n c => n * 10 + (c.toNat - '0'.toNat)) k =
        Nat.ofDigitChars 10 digits k := by
    intro digits
    induction digits with
    | nil => exact fun _ => rfl
    | cons c digits ih =>
      intro k
      rw [List.foldl_cons, ih, Nat.ofDigitChars_cons, Nat.mul_comm]
  unfold decimal
  rw [hfold, Nat.ofDigitChars_ten_toDigits]

theorem internalSimpleStrtoll_toDigits {n : ℕ} (hn : n < 2^63) {rest : List Char}
    (hrest : isDigit (peek rest) = false) :
    internalSimpleStrtoll (Nat.toDigits 10 n ++ rest) = ((n : ℤ), rest) := by
  rw [internalSimpleStrtoll_digits (fun _ => isDigit_of_mem_toDigits) Nat.toDigits_ne_nil hrest,
    decimal_toDigits, min_eq_right (by omega)]

end Tasan.Libc
