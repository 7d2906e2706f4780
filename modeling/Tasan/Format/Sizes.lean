import Tasan.Format.Bounds

/-!
# The sizes of arguments

`format_get_char_size`, `format_get_value_size`, `scanf_get_value_size` and `printf_get_value_size` of
`sanitizer_common_interceptors_format.inc`. A negative size is a marker, and zero is an invalid directive.

The width of a `scanf` directive is parsed as an `s64` that saturates, stored in an `int`, and the size is
computed in 32 bits. `scanf_size_iff` says for which widths the size is nevertheless the right one, or the
directive is rejected: what is left are the widths whose low 32 bits happen to be a small positive number, and
those for which the size itself does not fit.
-/

namespace Tasan.Format

open FlagParser (nul)

/-- The sizes of the types of the platform that differ, and `SANITIZER_GLIBC`. -/
structure Target where
  /-- `sizeof(wchar_t)`. -/
  sizeofWchar : ℕ
  sizeofLong : ℕ
  /-- `sizeof(void *)`, and of `SIZE_T` and `PTRDIFF_T`. -/
  sizeofPointer : ℕ
  /-- `sizeof(long double)`. -/
  sizeofLongDouble : ℕ
  /-- `SANITIZER_GLIBC`. -/
  glibc : Bool
  /-- A wide character has a size. -/
  sizeofWchar_pos : 0 < sizeofWchar := by decide
  /-- The size fits into an `int`. -/
  sizeofWchar_lt : sizeofWchar < 2^31 := by decide

/-- Linux on x86-64. -/
def Target.linux64 : Target where
  sizeofWchar := 4
  sizeofLong := 8
  sizeofPointer := 8
  sizeofLongDouble := 16
  glibc := true

/-- `FSS_WCSLEN`. -/
def fssWcslen : ℤ := -2

/-- `FSS_STRLEN`. -/
def fssStrlen : ℤ := -1

/-- `FSS_INVALID`. -/
def fssInvalid : ℤ := 0

/-- `format_is_integer_conv`. -/
def formatIsIntegerConv (T : Target) (c : Char) : Bool :=
  (T.glibc && charIsOneOf c ['b', 'B']) || charIsOneOf c ['d', 'i', 'o', 'u', 'x', 'X', 'n']

/-- `format_is_float_conv`. -/
def formatIsFloatConv (c : Char) : Bool := charIsOneOf c ['a', 'A', 'e', 'E', 'f', 'F', 'g', 'G']

/-- `format_get_char_size`. -/
def formatGetCharSize (T : Target) (convSpecifier : Char) (lengthModifier : Char × Char) : ℕ :=
  if charIsOneOf convSpecifier ['C', 'S'] then T.sizeofWchar
  else if charIsOneOf convSpecifier ['c', 's', '['] then
    if lengthModifier.1 = 'l' ∧ lengthModifier.2 = nul then T.sizeofWchar
    else if lengthModifier.1 = nul then 1
    else 0
  else 0

/-- `format_get_value_size`. -/
def formatGetValueSize (T : Target) (convSpecifier : Char) (lengthModifier : Char × Char)
    (promoteFloat : Bool) : ℤ :=
  if formatIsIntegerConv T convSpecifier then
    if lengthModifier.1 = 'h' then if lengthModifier.2 = 'h' then 1 else 2
    else if lengthModifier.1 = 'l' then if lengthModifier.2 = 'l' then 8 else T.sizeofLong
    else if lengthModifier.1 = 'q' then 8
    else if lengthModifier.1 = 'L' then 8
    else if lengthModifier.1 = 'j' then 8
    else if lengthModifier.1 = 'z' then T.sizeofPointer
    else if lengthModifier.1 = 't' then T.sizeofPointer
    else if lengthModifier.1 = nul then 4
    else fssInvalid
  else if formatIsFloatConv convSpecifier then
    if lengthModifier.1 = 'L' ∨ lengthModifier.1 = 'q' then T.sizeofLongDouble
    else if lengthModifier.1 = 'l' then if lengthModifier.2 = 'l' then T.sizeofLongDouble else 8
    else if lengthModifier.1 = nul then if promoteFloat then 8 else 4
    else fssInvalid
  else if convSpecifier = 'p' then
    if lengthModifier.1 ≠ nul then fssInvalid else T.sizeofPointer
  else fssInvalid

/-- `(dir->fieldWidth + needsTerminator) * charSize`: an `int` and a `bool`, times an `unsigned`, as an
`int`. -/
def widthSize (fieldWidth : ℤ) (needsTerminator : Bool) (charSize : ℕ) : ℤ :=
  ((BitVec.ofInt 32 fieldWidth + BitVec.ofNat 32 needsTerminator.toNat) * BitVec.ofNat 32 charSize).toInt

/-- `scanf_get_value_size`. -/
def scanfGetValueSize (T : Target) (dir : ScanfDirective) : ℤ :=
  if dir.allocate then
    if !charIsOneOf dir.convSpecifier ['c', 'C', 's', 'S', '['] then fssInvalid else T.sizeofPointer
  else if dir.maybeGnuMalloc then
    if dir.convSpecifier ≠ 'a' ∨ dir.lengthModifier.1 ≠ nul then fssInvalid else min T.sizeofPointer 4
  else if charIsOneOf dir.convSpecifier ['c', 'C', 's', 'S', '['] then
    let needsTerminator := charIsOneOf dir.convSpecifier ['s', 'S', '[']
    let charSize := formatGetCharSize T dir.convSpecifier dir.lengthModifier
    if charSize = 0 then fssInvalid
    else if dir.fieldWidth = 0 then
      if !needsTerminator then charSize else if charSize = 1 then fssStrlen else fssWcslen
    else widthSize dir.fieldWidth needsTerminator charSize
  else formatGetValueSize T dir.convSpecifier dir.lengthModifier false

/-- `printf_get_value_size`. -/
def printfGetValueSize (T : Target) (dir : PrintfDirective) : ℤ :=
  if charIsOneOf dir.convSpecifier ['c', 'C', 's', 'S'] then
    let charSize := formatGetCharSize T dir.convSpecifier dir.lengthModifier
    if charSize = 0 then fssInvalid
    else if charIsOneOf dir.convSpecifier ['s', 'S'] then if charSize = 1 then fssStrlen else fssWcslen
    else charSize
  else formatGetValueSize T dir.convSpecifier dir.lengthModifier true

/-! ## Numbers -/

/-- The number that digits stand for. -/
def decimal (digits : List Char) : ℕ := digits.foldl (fun n c => n * 10 + (c.toNat - '0'.toNat)) 0

theorem digit_le {c : Char} (h : isDigit c = true) : c.toNat - '0'.toNat ≤ 9 := by
  simp only [isDigit, Bool.and_eq_true, decide_eq_true_eq] at h
  have h9 : c.toNat ≤ '9'.toNat := Char.le_def.mp h.2
  have : '9'.toNat = 57 := rfl
  have : '0'.toNat = 48 := rfl
  omega

/-- The sum of digits saturates at the largest `u64`. -/
theorem foldl_addDigit {digits : List Char} (hdigits : ∀ c ∈ digits, isDigit c = true) :
    digits.foldl addDigit 0 = min (2^64 - 1) (decimal digits) := by
  have hfold : ∀ (digits : List Char) (n : ℕ), (∀ c ∈ digits, isDigit c = true) →
      digits.foldl addDigit (min (2^64 - 1) n) =
        min (2^64 - 1) (digits.foldl (fun n c => n * 10 + (c.toNat - '0'.toNat)) n) := by
    intro digits
    induction digits with
    | nil => exact fun n _ => rfl
    | cons c digits ih =>
      intro n hdigits
      have hc := digit_le (hdigits c List.mem_cons_self)
      have hstep : addDigit (min (2^64 - 1) n) c = min (2^64 - 1) (n * 10 + (c.toNat - '0'.toNat)) := by
        unfold addDigit
        generalize c.toNat - '0'.toNat = d at hc
        dsimp only
        split_ifs <;> omega
      rw [List.foldl_cons, List.foldl_cons, hstep]
      exact ih _ fun c' h => hdigits c' (List.mem_cons_of_mem _ h)
  have hzero := hfold digits 0 hdigits
  rw [Nat.min_zero] at hzero
  exact hzero

/-- `internal_atoll` saturates. -/
theorem internalAtoll_eq (p : List Char) :
    internalAtoll p = min (2^63 - 1) (decimal (p.takeWhile isDigit)) := by
  rw [internalAtoll, foldl_addDigit fun c hc => List.mem_takeWhile_imp hc, ← min_assoc]
  rfl

/-- A number as an `int`: its low 32 bits, or all ones when it has saturated. -/
def narrowed (w : ℕ) : ℤ :=
  if 2^63 - 1 ≤ w then -1
  else if w % 2^32 < 2^31 then ((w % 2^32 : ℕ) : ℤ) else ((w % 2^32 : ℕ) : ℤ) - 2^32

theorem toInt_internalAtoll (p : List Char) :
    toInt (internalAtoll p) = narrowed (decimal (p.takeWhile isDigit)) := by
  rw [internalAtoll_eq]
  generalize decimal (p.takeWhile isDigit) = w
  rw [toInt, BitVec.toInt_eq_toNat_cond, BitVec.toNat_ofNat, narrowed]
  rcases le_or_gt (2^63 - 1) w with hsat | hsat
  · rw [min_eq_left hsat, if_pos hsat]
    norm_num
  · rw [min_eq_right hsat.le, if_neg (not_le.mpr hsat)]
    push_cast
    split_ifs <;> omega

/-! ## The sizes of `scanf` -/

/-- The two characters of a length modifier. -/
def modifierOf : List Char → Char × Char
  | [] => (nul, nul)
  | [a] => (a, nul)
  | a :: b :: _ => (a, b)

/-- A length modifier before a character that is part of none. -/
theorem maybeParseLengthModifier_append {len : List Char} (hlen : len ∈ lengthModifiers) {c : Char}
    (hc : c ∉ [nul, 'j', 'z', 't', 'L', 'q', 'h', 'l']) (q : List Char) :
    maybeParseLengthModifier (len ++ c :: q) = (.at (c :: q), modifierOf len) := by
  have hnot : charIsOneOf c ['j', 'z', 't', 'L', 'q'] = false ∧ c ≠ 'h' ∧ c ≠ 'l' := by
    simp only [List.mem_cons, List.not_mem_nil, or_false, not_or] at hc
    simp [charIsOneOf, hc]
  have hone : ∀ a, charIsOneOf a ['j', 'z', 't', 'L', 'q'] = true →
      maybeParseLengthModifier (a :: c :: q) = (.at (c :: q), (a, nul)) := fun a ha => by
    rw [maybeParseLengthModifier]
    exact if_pos ha
  have hend : ∀ p, charIsOneOf (peek p) ['j', 'z', 't', 'L', 'q'] = false → peek p ≠ 'h' →
      peek p ≠ 'l' → maybeParseLengthModifier p = (.at p, (nul, nul)) := fun p h1 h2 h3 => by
    rw [maybeParseLengthModifier, if_neg (by rw [h1]; decide), if_neg h2, if_neg h3]
  have hl : ∀ p, peek p ≠ 'l' → maybeParseLengthModifier ('l' :: p) = (.at p, ('l', nul)) := fun p h => by
    rw [maybeParseLengthModifier, show peek ('l' :: p) = 'l' from rfl, if_neg (by decide),
      if_neg (by decide)]
    exact if_neg h
  have hh : ∀ p, peek p ≠ 'h' → maybeParseLengthModifier ('h' :: p) = (.at p, ('h', nul)) := fun p h => by
    rw [maybeParseLengthModifier, show peek ('h' :: p) = 'h' from rfl, if_neg (by decide)]
    exact if_neg h
  simp only [lengthModifiers, List.mem_cons, List.not_mem_nil, or_false] at hlen
  rcases hlen with rfl | rfl | rfl | rfl | rfl | rfl | rfl | rfl | rfl | rfl
  · exact hend (c :: q) hnot.1 hnot.2.1 hnot.2.2
  · exact hone 'j' (by decide)
  · exact hone 'z' (by decide)
  · exact hone 't' (by decide)
  · exact hone 'L' (by decide)
  · exact hone 'q' (by decide)
  · exact hh (c :: q) hnot.2.1
  · rfl
  · exact hl (c :: q) hnot.2.2
  · rfl

/-- The conversions of characters and strings. -/
def charConversions : List Char := ['c', 'C', 's', 'S', '[']

/-- The directive after a `%`: a width, a length modifier, a conversion, and what follows it. -/
def widthDirective (width len : List Char) (conv : Char) (rest : List Char) : List Char :=
  width ++ (len ++ conv :: rest)

variable {T : Target} {width len rest : List Char} {conv : Char}

theorem scanfConversion_eq (hconv : conv ≠ 'a') (allowGnuMalloc : Bool) (dir : ScanfDirective) :
    scanfConversion allowGnuMalloc (.at (conv :: rest)) dir =
      .ok (if conv = '[' then (consumeSet (fun _ => false) rest).map .at else some (.at rest),
        { dir with convSpecifier := conv }) := by
  change (if conv = '[' then _ else if (allowGnuMalloc && decide (conv = 'a') && _) = true then _ else _) = _
  by_cases hbracket : conv = '['
  · rw [if_pos hbracket, if_pos hbracket]
    rfl
  · rw [if_neg hbracket, if_neg hbracket, if_neg (by simp [hconv])]
    rfl

/-- A directive without an index, `*` and `m`. -/
def plainDirective (fieldWidth : ℤ) (lengthModifier : Char × Char) (convSpecifier : Char) :
    ScanfDirective :=
  ⟨-1, fieldWidth, false, false, lengthModifier, convSpecifier, false⟩

/-- A directive with a width is rejected, or its width is narrowed. -/
theorem scanfParseNext_width (allowGnuMalloc : Bool) (hne : width ≠ [])
    (hwidth : ∀ c ∈ width, isDigit c = true) (hlen : len ∈ lengthModifiers) (hconv : conv ∈ charConversions)
    (hset : conv = '[' → (consumeSet (fun _ => false) rest).isSome = true) :
    ∃ q dir, scanfParseNext allowGnuMalloc ('%' :: widthDirective width len conv rest) = .ok (q, dir) ∧
      if narrowed (decimal width) ≤ 0 then q = none else
        q.isSome = true ∧ dir = plainDirective (narrowed (decimal width)) (modifierOf len) conv := by
  have hnot : conv ∉ [nul, 'j', 'z', 't', 'L', 'q', 'h', 'l'] ∧ isDigit conv = false ∧ conv ≠ '$' ∧
      conv ≠ 'm' ∧ conv ≠ '*' ∧ conv ≠ 'a' := by
    have hall : charConversions.all (fun conv => conv ∉ [nul, 'j', 'z', 't', 'L', 'q', 'h', 'l'] ∧
      isDigit conv = false ∧ conv ≠ '$' ∧ conv ≠ 'm' ∧ conv ≠ '*' ∧ conv ≠ 'a') := by decide
    simpa only [decide_eq_true_eq] using List.all_eq_true.mp hall conv hconv
  -- what comes after the width
  have hpeek : isDigit (peek (len ++ conv :: rest)) = false ∧ peek (len ++ conv :: rest) ≠ '$' ∧
      peek (len ++ conv :: rest) ≠ 'm' := by
    cases len with
    | nil => exact ⟨hnot.2.1, hnot.2.2.1, hnot.2.2.2.1⟩
    | cons a len =>
      have ha := of_mem_lengthModifiers _ hlen a List.mem_cons_self
      exact ⟨ha.1, ha.2.1, ha.2.2.2.1⟩
  obtain ⟨d, width, rfl⟩ := List.exists_cons_of_ne_nil hne
  have hd : isDigit d = true := hwidth d List.mem_cons_self
  have hdrop := dropWhile_digits hwidth hpeek.1
  have htake := takeWhile_digits hwidth hpeek.1
  have hnumber : parseNumber (widthDirective (d :: width) len conv rest) =
      (narrowed (decimal (d :: width)), len ++ conv :: rest) := by
    unfold parseNumber widthDirective
    rw [toInt_internalAtoll, htake, hdrop]
  have hfirst : peek (widthDirective (d :: width) len conv rest) = d := rfl
  have hindex : maybeParseParamIndex (widthDirective (d :: width) len conv rest) (-1) =
      (widthDirective (d :: width) len conv rest, -1) := by
    unfold maybeParseParamIndex
    rw [hfirst, if_pos hd, hnumber]
    exact if_neg hpeek.2.1
  have hpercent : d ≠ '%' := by
    rintro rfl
    exact absurd hd (by decide)
  have hstar : d ≠ '*' := by
    rintro rfl
    exact absurd hd (by decide)
  have hrun : scanfParseNext allowGnuMalloc ('%' :: widthDirective (d :: width) len conv rest) =
      scanfDirective allowGnuMalloc (widthDirective (d :: width) len conv rest) := by
    rw [scanfParseNext.eq_def]
    exact if_neg hpercent
  rw [hrun, scanfDirective, hindex]
  dsimp only
  rw [hfirst, decide_eq_false hstar]
  simp only [if_neg hstar, hfirst, hd, if_true, hnumber, Bool.true_and, decide_eq_true_eq]
  by_cases hpos : narrowed (decimal (d :: width)) ≤ 0
  · rw [if_pos hpos]
    exact ⟨_, _, rfl, by rw [if_pos hpos]⟩
  · rw [if_neg hpos, decide_eq_false hpeek.2.2]
    simp only [if_neg hpeek.2.2, maybeParseLengthModifier_append hlen hnot.1]
    rw [scanfConversion_eq hnot.2.2.2.2.2]
    refine ⟨_, _, rfl, ?_⟩
    rw [if_neg hpos]
    refine ⟨?_, rfl⟩
    split_ifs with hbracket
    · rw [Option.isSome_map]
      exact hset hbracket
    · rfl

/-- The size of a directive, or zero for one that the parser rejects. -/
def sizeOrInvalid (T : Target) : Option Pointer × ScanfDirective → ℤ
  | (none, _) => fssInvalid
  | (some _, dir) => scanfGetValueSize T dir

/-- What `scanf_common` gets of the next directive. -/
def scanfSize (T : Target) (allowGnuMalloc : Bool) (text : List Char) : Except Fault ℤ :=
  (scanfParseNext allowGnuMalloc text).map (sizeOrInvalid T)

theorem widthSize_eq_iff {m : ℕ} (hm : 0 < m) (t : Bool) {cs : ℕ} (hcs : 0 < cs) (hlt : cs < 2^31)
    {size : ℕ} (hsize : m * cs ≤ size) :
    (widthSize m t cs = 0 ∨ widthSize m t cs = (size : ℤ)) ↔
      (2^32 ∣ (m + t.toNat) * cs ∨ (m + t.toNat) * cs = size ∧ size < 2^31) := by
  have hvalue : widthSize m t cs = (BitVec.ofNat 32 ((m + t.toNat) * cs)).toInt := by
    rw [widthSize, BitVec.ofInt_natCast, ← BitVec.ofNat_add, ← BitVec.ofNat_mul]
  have hpos : 0 < m * cs := Nat.mul_pos hm hcs
  have hle : m * cs ≤ (m + t.toNat) * cs := Nat.mul_le_mul_right cs (Nat.le_add_right m _)
  have hup : (m + t.toNat) * cs ≤ m * cs + cs := by
    calc (m + t.toNat) * cs ≤ (m + 1) * cs :=
          Nat.mul_le_mul_right cs (Nat.add_le_add_left (Bool.toNat_le t) m)
      _ = m * cs + cs := Nat.succ_mul m cs
  rw [hvalue, BitVec.toInt_eq_toNat_cond, BitVec.toNat_ofNat, Nat.dvd_iff_mod_eq_zero]
  generalize (m + t.toNat) * cs = p at hle hup
  split_ifs <;> omega

/-- A directive with a width, a length modifier that its conversion takes, and a conversion of characters or
of a string: it is rejected, or its size is the width, with one more for the NUL of a string, times the size
of a character, exactly if the width saturates, or its low 32 bits are not positive as an `int`, or the size
of these wraps to zero, or the size itself fits into an `int`. -/
theorem scanf_size_iff (T : Target) (allowGnuMalloc : Bool) (width len : List Char) (conv : Char)
    (rest : List Char) (hne : width ≠ []) (hwidth : ∀ c ∈ width, isDigit c = true)
    (hlen : len ∈ lengthModifiers) (hconv : conv ∈ charConversions)
    (hset : conv = '[' → (consumeSet (fun _ => false) rest).isSome = true)
    (hsize : formatGetCharSize T conv (modifierOf len) ≠ 0) :
    ∃ size, scanfSize T allowGnuMalloc ('%' :: widthDirective width len conv rest) = .ok size ∧
      ((size = fssInvalid ∨ size = ((decimal width + (charIsOneOf conv ['s', 'S', '[']).toNat) *
          formatGetCharSize T conv (modifierOf len) : ℕ)) ↔
        (2^63 - 1 ≤ decimal width ∨ decimal width % 2^32 = 0 ∨ 2^31 ≤ decimal width % 2^32 ∨
          2^32 ∣ (decimal width % 2^32 + (charIsOneOf conv ['s', 'S', '[']).toNat) *
            formatGetCharSize T conv (modifierOf len) ∨
          (decimal width + (charIsOneOf conv ['s', 'S', '[']).toNat) *
            formatGetCharSize T conv (modifierOf len) < 2^31)) := by
  obtain ⟨q, dir, hparse, hdir⟩ := scanfParseNext_width allowGnuMalloc hne hwidth hlen hconv hset
  have hrun : scanfSize T allowGnuMalloc ('%' :: widthDirective width len conv rest) =
      .ok (sizeOrInvalid T (q, dir)) := by
    rw [scanfSize, hparse]
    rfl
  refine ⟨_, hrun, ?_⟩
  have hcs : formatGetCharSize T conv (modifierOf len) < 2^31 := by
    have := T.sizeofWchar_lt
    unfold formatGetCharSize
    split_ifs <;> omega
  have hin : charIsOneOf conv ['c', 'C', 's', 'S', '['] = true :=
    List.elem_eq_true_of_mem (List.mem_append_left [nul] hconv)
  generalize decimal width = w at hdir ⊢
  by_cases hpos : narrowed w ≤ 0
  · -- the parser rejects the directive
    rw [if_pos hpos] at hdir
    subst hdir
    refine iff_of_true (Or.inl rfl) ?_
    unfold narrowed at hpos
    split_ifs at hpos <;> omega
  · rw [if_neg hpos] at hdir
    obtain ⟨hsome, rfl⟩ := hdir
    obtain ⟨p, rfl⟩ := Option.isSome_iff_exists.mp hsome
    have hnarrow : narrowed w = ((w % 2^32 : ℕ) : ℤ) ∧ w < 2^63 - 1 ∧ w % 2^32 < 2^31 := by
      unfold narrowed at hpos ⊢
      split_ifs at hpos ⊢ <;> omega
    have hvalue : scanfGetValueSize T (plainDirective (narrowed w) (modifierOf len) conv) =
        widthSize ((w % 2^32 : ℕ) : ℤ) (charIsOneOf conv ['s', 'S', '['])
          (formatGetCharSize T conv (modifierOf len)) := by
      unfold scanfGetValueSize plainDirective
      dsimp only
      simp only [Bool.false_eq_true, if_false, hin, if_true, if_neg hsize]
      rw [if_neg (by omega), hnarrow.1]
    rw [sizeOrInvalid, hvalue]
    have hle := Nat.mod_le w (2^32)
    have hm : 0 < w % 2^32 := by omega
    generalize charIsOneOf conv ['s', 'S', '['] = t
    generalize formatGetCharSize T conv (modifierOf len) = cs at hsize hcs ⊢
    rw [show fssInvalid = 0 from rfl, widthSize_eq_iff hm t (Nat.pos_of_ne_zero hsize) hcs
      (Nat.mul_le_mul_right cs (by omega))]
    constructor
    · rintro (hdvd | ⟨heq, hlt⟩)
      · exact Or.inr (Or.inr (Or.inr (Or.inl hdvd)))
      · exact Or.inr (Or.inr (Or.inr (Or.inr hlt)))
    · rintro (h | h | h | hdvd | hlt)
      · omega
      · omega
      · omega
      · exact Or.inl hdvd
      · -- the width itself has fewer than 32 bits
        have hw : w < 2^31 := by
          calc w ≤ w + t.toNat := Nat.le_add_right _ _
            _ ≤ (w + t.toNat) * cs := Nat.le_mul_of_pos_right _ (Nat.pos_of_ne_zero hsize)
            _ < 2^31 := hlt
        rw [Nat.mod_eq_of_lt (by omega)]
        exact Or.inr ⟨rfl, hlt⟩

/-- `%4294967301s` is taken for `%5s`. -/
theorem scanfSize_wide :
    scanfSize .linux64 false ['%', '4', '2', '9', '4', '9', '6', '7', '3', '0', '1', 's'] = .ok 6 ∧
      decimal ['4', '2', '9', '4', '9', '6', '7', '3', '0', '1'] + 1 = 4294967302 := by
  decide +kernel

/-- `%10s` stores eleven bytes. -/
theorem scanf_size_iff_ten : ∃ size, scanfSize .linux64 false ['%', '1', '0', 's'] = .ok size ∧
    (size = fssInvalid ∨ size = 11) := by
  obtain ⟨size, hrun, hiff⟩ := scanf_size_iff .linux64 false ['1', '0'] [] 's' [] (by decide)
    (List.all_eq_true.mp (by decide)) (by decide) (by decide) (by decide) (by decide)
  exact ⟨size, hrun, hiff.mpr (by decide)⟩

end Tasan.Format
