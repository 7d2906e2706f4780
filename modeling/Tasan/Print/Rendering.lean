import Tasan.Print.Model

/-!
# Renderings

What C makes of a format and its arguments (`Item.rendering`), for the formats that the runtime
supports: a format is a list of items, each of them a character or a directive with its arguments.

The state of the formatter is a function of what has been rendered so far (`shown`): as much of it
as there is room for stands at the beginning of the buffer, and the rest of the buffer is as before.
So each function that appends to the buffer has an equation of its own, and `vsnprintf_eq` puts them
together: the buffer holds as much of the rendering as fits and a NUL, and the result is the length
of the whole rendering.
-/

namespace Tasan.Print

open FlagParser (nul)
open Format (peek isDigit decimal takeWhile_digits dropWhile_digits)

/-! ## What C prints -/

/-- The conversion of a number. -/
inductive NumberConv
  /-- `%d`. -/
  | d
  /-- `%u`. -/
  | u
  /-- `%x`. -/
  | x
  /-- `%X`. -/
  | X

/-- The character of a conversion. -/
def NumberConv.char : NumberConv → Char
  | .d => 'd'
  | .u => 'u'
  | .x => 'x'
  | .X => 'X'

/-- The base of a conversion. -/
def NumberConv.base : NumberConv → ℕ
  | .d => 10
  | .u => 10
  | .x => 16
  | .X => 16

/-- The value of an argument, which has a sign for `%d` alone. -/
def NumberConv.value {w : ℕ} (conv : NumberConv) (v : BitVec w) : ℤ :=
  match conv with
  | .d => v.toInt
  | _ => v.toNat

/-- The digits of a number. -/
def numberDigits (uppercase : Bool) (base n : ℕ) : List Char :=
  if uppercase then (Nat.toDigits base n).map Char.toUpper else Nat.toDigits base n

/-- A number with its sign, filled up from the left with zeros behind the sign or with spaces before
it. -/
def numberText (width : ℕ) (padWithZero negative : Bool) (digits : List Char) : List Char :=
  let sign := if negative then ['-'] else []
  let fill := width - (sign.length + digits.length)
  if padWithZero then sign ++ (List.replicate fill '0' ++ digits)
  else List.replicate fill ' ' ++ (sign ++ digits)

/-- What a directive for a number prints. -/
def NumberConv.rendering (conv : NumberConv) (width : List Char) (value : ℤ) : List Char :=
  numberText (decimal width) (peek width = '0') (value < 0)
    (numberDigits (conv.char = 'X') conv.base value.natAbs)

/-- A pointer: `0x` and its digits, filled up with zeros. -/
def pointerText (T : Target) (n : ℕ) : List Char :=
  '0' :: 'x' :: numberText T.pointerLength true false (Nat.toDigits 16 n)

/-- A string, up to the precision if that is not negative, and filled up with spaces. -/
def stringText (width : ℕ) (precision : ℤ) (str : List Char) : List Char :=
  let text := if 0 ≤ precision then str.take precision.toNat else str
  text ++ List.replicate (width - text.length) ' '

/-- An item of a format, with its arguments. -/
inductive Item
  /-- An ordinary character. -/
  | char (c : Char)
  /-- `%%`. -/
  | percent
  /-- A number without a length modifier. -/
  | int (conv : NumberConv) (width : List Char) (v : BitVec 32)
  /-- A number with a length modifier. -/
  | long (conv : NumberConv) (width modifier : List Char) (v : BitVec 64)
  /-- `%p`. -/
  | pointer (v : BitVec 64)
  /-- `%s`, with a width behind a dash or without one, and with a precision or without one. -/
  | string (width : Option (List Char)) (precision : Option (BitVec 32)) (str : Option (List Char))
  /-- `%c`. -/
  | character (v : BitVec 32)

/-- A directive behind its `%`. -/
def directiveText (leftJustified : Bool) (width : List Char) (precision : Bool)
    (modifier : List Char) (c : Char) : List Char :=
  (if leftJustified then ['-'] else []) ++
    (width ++ ((if precision then ['.', '*'] else []) ++ (modifier ++ [c])))

/-- The item in the format string. -/
def Item.text : Item → List Char
  | .char c => [c]
  | .percent => '%' :: directiveText false [] false [] '%'
  | .int conv width _ => '%' :: directiveText false width false [] conv.char
  | .long conv width modifier _ => '%' :: directiveText false width false modifier conv.char
  | .pointer _ => '%' :: directiveText false [] false [] 'p'
  | .string width precision _ =>
    '%' :: directiveText width.isSome (width.getD []) precision.isSome [] 's'
  | .character _ => '%' :: directiveText false [] false [] 'c'

/-- The arguments for the item. -/
def Item.args : Item → List Arg
  | .char _ => []
  | .percent => []
  | .int _ _ v => [.int v]
  | .long _ _ _ v => [.long v]
  | .pointer v => [.long v]
  | .string _ precision str => (precision.map Arg.int).toList ++ [.str str]
  | .character v => [.int v]

/-- What is printed for the item. -/
def Item.rendering (T : Target) : Item → List Char
  | .char c => [c]
  | .percent => ['%']
  | .int conv width v => conv.rendering width (conv.value v)
  | .long conv width _ v => conv.rendering width (conv.value v)
  | .pointer v => pointerText T v.toNat
  | .string width precision str =>
    stringText (decimal (width.getD [])) ((precision.map BitVec.toInt).getD (-1))
      (str.getD nullString)
  | .character v => [Char.ofNat (v.toNat % 2^8)]

/-- The widths are numbers, those of numbers below 30, and the length modifiers those that there
are. -/
def Item.Ok : Item → Prop
  | .char c => c ≠ '%' ∧ c ≠ nul
  | .int _ width _ => (∀ c ∈ width, isDigit c = true) ∧ decimal width < 30
  | .long _ width modifier _ => (∀ c ∈ width, isDigit c = true) ∧ decimal width < 30 ∧
      modifier ∈ [['z'], ['l'], ['l', 'l']]
  | .string width _ _ => ∀ c ∈ width.getD [], isDigit c = true
  | _ => True

/-- A format string. -/
def formatOf (items : List Item) : List Char := items.flatMap Item.text

/-- The arguments for a format string. -/
def argsOf (items : List Item) : List Arg := items.flatMap Item.args

/-- What is printed. -/
def rendering (T : Target) (items : List Item) : List Char := items.flatMap (Item.rendering T)

theorem rendering_d_nil (value : ℤ) : NumberConv.d.rendering [] value =
    (if decide (value < 0) = true then ['-'] else []) ++ Nat.toDigits 10 value.natAbs := by
  calc NumberConv.d.rendering [] value
      = List.replicate (0 - ((if decide (value < 0) = true then ['-'] else []).length +
            (Nat.toDigits 10 value.natAbs).length)) ' ' ++
          ((if decide (value < 0) = true then ['-'] else []) ++
            Nat.toDigits 10 value.natAbs) := rfl
    _ = (if decide (value < 0) = true then ['-'] else []) ++ Nat.toDigits 10 value.natAbs := by
      rw [Nat.zero_sub, List.replicate_zero, List.nil_append]

theorem nul_not_mem_rendering_d (value : ℤ) : nul ∉ NumberConv.d.rendering [] value := by
  have hdigits : nul ∉ Nat.toDigits 10 value.natAbs := by
    intro hmem
    have hdigit := Nat.isDigit_of_mem_toDigits (by decide) le_rfl hmem
    exact absurd hdigit (by decide)
  rw [rendering_d_nil, List.mem_append]
  split_ifs
  · exact not_or.mpr ⟨by decide, hdigits⟩
  · exact not_or.mpr ⟨List.not_mem_nil, hdigits⟩

theorem length_rendering_d_pos (value : ℤ) : 0 < (NumberConv.d.rendering [] value).length := by
  rw [rendering_d_nil, List.length_append]
  exact Nat.add_pos_right _ Nat.length_toDigits_pos

/-! ## The buffer -/

/-- The state after some text: as much of it as there is room for is in the buffer. -/
def shown (buffEnd : ℕ) (mem text : List Char) : Printed :=
  ⟨min text.length buffEnd, text.take buffEnd ++ mem.drop (min text.length buffEnd), text.length⟩

variable {buffEnd : ℕ} {mem text : List Char} (hmem : buffEnd < mem.length)

include hmem

theorem appendChar_shown (c : Char) (text : List Char) :
    appendChar buffEnd c (shown buffEnd mem text) = shown buffEnd mem (text ++ [c]) := by
  unfold appendChar shown
  rw [List.length_append, List.length_singleton]
  by_cases hroom : text.length < buffEnd
  · have hpos : min text.length buffEnd = text.length := min_eq_left hroom.le
    have hpos' : min (text.length + 1) buffEnd = text.length + 1 := min_eq_left hroom
    rw [if_pos (by dsimp only; omega), hpos, hpos', List.take_of_length_le hroom.le,
      List.take_of_length_le (by rw [List.length_append]; exact hroom)]
    congr 1
    rw [List.set_append_right _ _ le_rfl, Nat.sub_self, List.append_assoc]
    congr 1
    rw [← List.cons_getElem_drop_succ (h := (by omega : text.length < mem.length)),
      List.set_cons_zero]
    rfl
  · have hpos : min text.length buffEnd = buffEnd := min_eq_right (by omega)
    have hpos' : min (text.length + 1) buffEnd = buffEnd := min_eq_right (by omega)
    rw [if_neg (by dsimp only; omega), hpos, hpos', List.take_append_of_le_length (by omega)]

theorem digitsLoop_shown (uppercase : Bool) (digits : List ℕ) (text : List Char) :
    digitsLoop buffEnd uppercase digits (shown buffEnd mem text) =
      shown buffEnd mem (text ++ digits.map (digitChar uppercase)) := by
  induction digits generalizing text with
  | nil => rw [digitsLoop, List.map_nil, List.append_nil]
  | cons d digits ih =>
    rw [digitsLoop, appendChar_shown hmem, ih, List.map_cons, List.append_assoc,
      List.singleton_append]

theorem leadingLoop_zeros (padWithZero : Bool) {d : ℕ} (digits : List ℕ) (k : ℕ)
    (text : List Char) :
    leadingLoop buffEnd padWithZero (List.replicate k 0 ++ d :: digits) (shown buffEnd mem text) =
      leadingLoop buffEnd padWithZero (d :: digits)
        (shown buffEnd mem (text ++ List.replicate k (if padWithZero then '0' else ' '))) := by
  induction k generalizing text with
  | zero => rw [List.replicate_zero, List.nil_append, List.replicate_zero, List.append_nil]
  | succ k ih =>
    have hempty : (List.replicate k 0 ++ d :: digits).isEmpty = false := by
      cases k <;> rfl
    rw [List.replicate_succ, List.cons_append, leadingLoop, if_pos rfl, hempty, Bool.or_false,
      appendChar_shown hmem, ih, List.replicate_succ, List.append_assoc, List.singleton_append]

omit hmem

/-! ## Numbers -/

/-- The digits of a number, the first one at the front. -/
structure IsDigits (base n : ℕ) (digits : List ℕ) : Prop where
  /-- They are written in lower case. -/
  lower : digits.map (digitChar false) = Nat.toDigits base n
  /-- They are written in upper case. -/
  upper : digits.map (digitChar true) = (Nat.toDigits base n).map Char.toUpper
  /-- The first one is not zero. -/
  head : n ≠ 0 → ∃ d rest, digits = d :: rest ∧ d ≠ 0
  /-- Zero has one digit. -/
  zero : n = 0 → digits = [0]

theorem digitChar_eq {d : ℕ} (hd : d < 16) :
    digitChar false d = Nat.digitChar d ∧ digitChar true d = (Nat.digitChar d).toUpper := by
  interval_cases d <;> exact ⟨rfl, rfl⟩

/-- The digits that `AppendNumber` puts into its buffer. -/
theorem digitLoop_eq {base : ℕ} (hbase : 1 < base) (hbase' : base ≤ 16) {room n : ℕ}
    (hn : n < base^room) (hroom : 0 < room) (rest : List ℕ) :
    ∃ digits, digitLoop base room n rest = .returned (digits ++ rest) ∧ IsDigits base n digits := by
  induction room generalizing n rest with
  | zero => omega
  | succ room ih =>
    have hlast : n % base < 16 := (Nat.mod_lt n (by omega)).trans_le hbase'
    obtain ⟨hlower, hupper⟩ := digitChar_eq hlast
    rw [digitLoop]
    by_cases hone : n / base = 0
    · have hlt : n < base := (Nat.div_eq_zero_iff.mp hone).resolve_left (by omega)
      rw [if_pos hone]
      rw [Nat.mod_eq_of_lt hlt] at hlower hupper ⊢
      refine ⟨[n], rfl, ?_, ?_, fun h => ⟨n, [], rfl, h⟩, fun h => by rw [h]⟩
      · rw [Nat.toDigits_of_lt_base hlt, ← hlower]
        rfl
      · rw [Nat.toDigits_of_lt_base hlt, List.map_singleton, List.map_singleton, hupper]
    · have hle : base ≤ n := by
        by_contra hlt
        exact hone (Nat.div_eq_of_lt (not_le.mp hlt))
      have hroom' : 0 < room := by
        by_contra hzero
        obtain rfl : room = 0 := by omega
        rw [Nat.zero_add, Nat.pow_one] at hn
        omega
      have hdiv : n / base < base^room := Nat.div_lt_of_lt_mul (by rwa [Nat.pow_succ'] at hn)
      obtain ⟨digits, hrun, hdigits⟩ := ih hdiv hroom' (n % base :: rest)
      obtain ⟨d, tail, rfl, hd⟩ := hdigits.head hone
      rw [if_neg hone, hrun]
      refine ⟨d :: tail ++ [n % base], by simp, ?_, ?_, fun _ => ⟨d, _, rfl, hd⟩, fun h => ?_⟩
      · rw [Nat.toDigits_of_base_le hbase hle, List.map_append, hdigits.lower, ← hlower]
        rfl
      · rw [Nat.toDigits_of_base_le hbase hle, List.map_append, List.map_append, hdigits.upper,
          List.map_singleton, List.map_singleton, hupper]
      · rw [h, Nat.zero_div] at hone
        exact absurd rfl hone

theorem IsDigits.map {base n : ℕ} {digits : List ℕ} (h : IsDigits base n digits)
    (uppercase : Bool) : digits.map (digitChar uppercase) = numberDigits uppercase base n := by
  cases uppercase with
  | false => exact h.lower
  | true => exact h.upper

include hmem

/-- `AppendNumber` prints the number. -/
theorem appendNumber_shown {base n width : ℕ} (hbase : base = 10 ∨ base = 16) {negative : Bool}
    (hten : base = 10 ∨ negative = false) (hnegative : n ≠ 0 ∨ negative = false)
    (hwidth : width < 30) (hn : n < 2^64) (padWithZero uppercase : Bool) (text : List Char) :
    appendNumber buffEnd n base width padWithZero negative uppercase (shown buffEnd mem text) =
      .returned (shown buffEnd mem
        (text ++ numberText width padWithZero negative (numberDigits uppercase base n))) := by
  have hroom : n < base^30 := by
    rcases hbase with rfl | rfl
    · exact hn.trans (by norm_num)
    · exact hn.trans (by norm_num)
  obtain ⟨digits, hrun, hdigits⟩ := digitLoop_eq (by omega) (by omega) hroom (by decide) []
  rw [List.append_nil] at hrun
  have hlen : (numberDigits uppercase base n).length = digits.length := by
    rw [← hdigits.map, List.length_map]
  have hminus : ∀ (b : Bool) (text : List Char),
      (if b = true then appendChar buffEnd '-' (shown buffEnd mem text)
        else shown buffEnd mem text) =
      shown buffEnd mem (text ++ if b = true then ['-'] else []) := by
    intro b text
    cases b with
    | false => rw [if_neg Bool.false_ne_true, if_neg Bool.false_ne_true, List.append_nil]
    | true => rw [if_pos rfl, if_pos rfl, appendChar_shown hmem]
  have hfill : (if negative = true ∧ width ≠ 0 then width - 1 else width) - digits.length =
      width - ((if negative = true then ['-'] else []).length + digits.length) := by
    cases negative with
    | false => simp
    | true =>
      simp only [true_and, if_true, List.length_singleton]
      split_ifs <;> omega
  unfold appendNumber
  rw [if_pos ⟨hbase, hten, hnegative, hwidth⟩, hrun, Outcome.returned_bind]
  dsimp only
  rw [hminus, hfill]
  unfold numberText
  rw [hlen]
  dsimp only
  generalize width - ((if negative = true then ['-'] else []).length + digits.length) = fill
  by_cases hzero : n = 0
  · -- the last zero is printed, whatever the others are filled up with
    obtain rfl := hdigits.zero hzero
    obtain rfl : negative = false := hnegative.resolve_left fun h => h hzero
    have hdigit : numberDigits uppercase base n = ['0'] := by
      rw [← hdigits.map]
      cases uppercase <;> rfl
    rw [leadingLoop_zeros hmem, leadingLoop, if_pos rfl, List.isEmpty_nil, Bool.or_true, if_pos rfl,
      appendChar_shown hmem, leadingLoop]
    dsimp only
    rw [hminus, digitsLoop, hdigit]
    cases padWithZero <;> simp
  · obtain ⟨d, rest, rfl, hd⟩ := hdigits.head hzero
    rw [leadingLoop_zeros hmem, leadingLoop, if_neg hd]
    dsimp only
    rw [hminus, digitsLoop_shown hmem, hdigits.map]
    cases padWithZero <;> cases negative <;> simp

/-- `AppendSignedDecimal` prints a number with its sign. -/
theorem appendSignedDecimal_shown (num : BitVec 64) {width : List Char}
    (hwidth : decimal width < 30) (text : List Char) :
    appendSignedDecimal buffEnd num (decimal width) (peek width = '0') (shown buffEnd mem text) =
      .returned (shown buffEnd mem (text ++ NumberConv.d.rendering width num.toInt)) := by
  have hsmall : decimal width % 2^8 = decimal width := Nat.mod_eq_of_lt (by omega)
  -- the smallest number is its own negative, and right as an unsigned number
  have habs : (if decide (num.toInt < 0) = true then -num else num).toNat = num.toInt.natAbs := by
    have hcases := BitVec.toInt_eq_toNat_cond num
    have hlt := num.isLt
    split_ifs at hcases ⊢ with h1 h2 h2
    all_goals simp only [decide_eq_true_eq] at *
    all_goals try rw [BitVec.toNat_neg]
    all_goals omega
  unfold appendSignedDecimal
  dsimp only
  rw [habs, hsmall, appendNumber_shown hmem (Or.inl rfl) (Or.inl rfl) ?_ hwidth ?_]
  · rfl
  · rcases lt_or_ge num.toInt 0 with hneg | hpos
    · exact Or.inl (Int.natAbs_ne_zero.mpr hneg.ne)
    · exact Or.inr (decide_eq_false (not_lt.mpr hpos))
  · rw [← habs]
    exact BitVec.isLt _

theorem appendUnsigned_shown {n : ℕ} (hn : n < 2^64) {base width : ℕ}
    (hbase : base = 10 ∨ base = 16) (hwidth : width < 30) (padWithZero uppercase : Bool)
    (text : List Char) :
    appendUnsigned buffEnd n base width padWithZero uppercase (shown buffEnd mem text) =
      .returned (shown buffEnd mem
        (text ++ numberText width padWithZero false (numberDigits uppercase base n))) := by
  unfold appendUnsigned
  rw [Nat.mod_eq_of_lt (by omega),
    appendNumber_shown hmem hbase (Or.inr rfl) (Or.inr rfl) hwidth hn]

/-! ## Strings -/

/-- The characters of a string, up to the precision. -/
theorem stringLoop_shown (maxChars : ℤ) (str : List Char) (n : ℕ) (text : List Char) :
    stringLoop buffEnd maxChars str n (shown buffEnd mem text) =
      (n + (if 0 ≤ maxChars then str.take (maxChars.toNat - n) else str).length,
        shown buffEnd mem
          (text ++ if 0 ≤ maxChars then str.take (maxChars.toNat - n) else str)) := by
  induction str generalizing n text with
  | nil => simp [stringLoop]
  | cons c str ih =>
    rw [stringLoop]
    by_cases hmax : 0 ≤ maxChars
    · by_cases hstop : maxChars ≤ n
      · have hzero : maxChars.toNat - n = 0 := by omega
        rw [if_pos ⟨hmax, hstop⟩, if_pos hmax, hzero, List.take_zero, List.append_nil]
        rfl
      · have hsucc : maxChars.toNat - n = (maxChars.toNat - (n + 1)) + 1 := by omega
        rw [if_neg fun h => hstop h.2, appendChar_shown hmem, ih, if_pos hmax, if_pos hmax, hsucc,
          List.take_succ_cons, List.append_assoc, List.singleton_append, List.length_cons]
        congr 1
        omega
    · rw [if_neg fun h => hmax h.1, appendChar_shown hmem, ih, if_neg hmax, if_neg hmax,
        List.append_assoc, List.singleton_append, List.length_cons]
      congr 1
      omega

theorem padLoop_shown (width : ℤ) {fuel n : ℕ} (hfuel : (-width).toNat - n ≤ fuel)
    (text : List Char) :
    padLoop buffEnd width fuel n (shown buffEnd mem text) =
      shown buffEnd mem (text ++ List.replicate ((-width).toNat - n) ' ') := by
  induction fuel generalizing n text with
  | zero =>
    rw [padLoop, Nat.le_zero.mp hfuel, List.replicate_zero, List.append_nil]
  | succ fuel ih =>
    rw [padLoop]
    by_cases hlt : width < -(n : ℤ)
    · have hsucc : (-width).toNat - n = (-width).toNat - (n + 1) + 1 := by omega
      rw [if_pos hlt, appendChar_shown hmem, ih (by omega), hsucc, List.replicate_succ,
        List.append_assoc, List.singleton_append]
    · have hzero : (-width).toNat - n = 0 := by omega
      rw [if_neg hlt, hzero, List.replicate_zero, List.append_nil]

theorem appendString_shown (width : ℕ) (precision : ℤ) (str : Option (List Char))
    (text : List Char) :
    appendString buffEnd (-width) precision str (shown buffEnd mem text) =
      shown buffEnd mem (text ++ stringText width precision (str.getD nullString)) := by
  unfold appendString stringText
  rw [stringLoop_shown hmem]
  dsimp only
  rw [padLoop_shown hmem _ (Nat.sub_le _ _), neg_neg, Int.toNat_natCast, Nat.zero_add, Nat.sub_zero,
    List.append_assoc]

theorem appendPointer_shown (T : Target) (v : BitVec 64) (text : List Char) :
    appendPointer T buffEnd v.toNat (shown buffEnd mem text) =
      .returned (shown buffEnd mem (text ++ pointerText T v.toNat)) := by
  unfold appendPointer pointerText
  have hfront := appendString_shown hmem 0 (-1) (some ['0', 'x']) text
  rw [Nat.cast_zero, neg_zero] at hfront
  rw [hfront, appendUnsigned_shown hmem v.isLt (Or.inr rfl) T.pointerLength_lt]
  simp [stringText, numberDigits]

omit hmem

/-! ## Directives -/

/-- The length modifiers. -/
def modifiers : List (List Char) := [[], ['z'], ['l'], ['l', 'l']]

/-- The characters that a directive can end with. -/
def conversions : List Char := ['d', 'u', 'x', 'X', 'p', 's', 'c', '%']

theorem parseLength_eq {modifier : List Char} (hmodifier : modifier ∈ modifiers) {c : Char}
    (hc : c ∈ conversions) (rest : List Char) :
    parseLength (modifier ++ c :: rest) = (!modifier.isEmpty, c :: rest) := by
  have hne : c ≠ 'z' ∧ c ≠ 'l' := by
    have hall : conversions.all (fun c => c ≠ 'z' ∧ c ≠ 'l') = true := by decide
    simpa using List.all_eq_true.mp hall c hc
  simp only [modifiers, List.mem_cons, List.not_mem_nil, or_false] at hmodifier
  rcases hmodifier with rfl | rfl | rfl | rfl
  · simp [parseLength, peek, hne.1, hne.2]
  · simp [parseLength, peek, hne.2]
  · simp [parseLength, peek, hne.2]
  · simp [parseLength, peek]

/-- A character that begins neither a width nor a precision. -/
def Plain (c : Char) : Prop := isDigit c = false ∧ c ≠ '-' ∧ c ≠ '.'

theorem plain_modifier {modifier : List Char} (hmodifier : modifier ∈ modifiers) {c : Char}
    (hc : c ∈ conversions) (rest : List Char) : Plain (peek (modifier ++ c :: rest)) := by
  have hplain : conversions.all (fun c => isDigit c = false ∧ c ≠ '-' ∧ c ≠ '.') = true := by
    decide
  have hconv : Plain c := by simpa [Plain] using List.all_eq_true.mp hplain c hc
  simp only [modifiers, List.mem_cons, List.not_mem_nil, or_false] at hmodifier
  rcases hmodifier with rfl | rfl | rfl | rfl
  · exact hconv
  · exact ⟨show isDigit 'z' = false by decide, show 'z' ≠ '-' by decide, show 'z' ≠ '.' by decide⟩
  · exact ⟨show isDigit 'l' = false by decide, show 'l' ≠ '-' by decide, show 'l' ≠ '.' by decide⟩
  · exact ⟨show isDigit 'l' = false by decide, show 'l' ≠ '-' by decide, show 'l' ≠ '.' by decide⟩

/-- The parts of a directive are found. -/
theorem parseSpec_eq (leftJustified : Bool) {width : List Char}
    (hwidth : ∀ c ∈ width, isDigit c = true) (precision : Option (BitVec 32))
    {modifier : List Char} (hmodifier : modifier ∈ modifiers) {c : Char} (hc : c ∈ conversions)
    (rest : List Char) (args : List Arg) :
    parseSpec (directiveText leftJustified width precision.isSome modifier c ++ rest)
        ((precision.map Arg.int).toList ++ args) =
      .returned (⟨leftJustified, !width.isEmpty, peek width = '0', decimal width,
        (precision.map BitVec.toInt).getD (-1), !modifier.isEmpty⟩, c :: rest, args) := by
  obtain ⟨hdigit, hdash, hdot⟩ := plain_modifier hmodifier hc rest
  have hlength := parseLength_eq hmodifier hc rest
  -- from the precision on
  have hprecision : isDigit (peek ((if precision.isSome = true then ['.', '*'] else []) ++
      (modifier ++ c :: rest))) = false ∧
      peek ((if precision.isSome = true then ['.', '*'] else []) ++
        (modifier ++ c :: rest)) ≠ '-' := by
    cases precision with
    | none => exact ⟨hdigit, hdash⟩
    | some v => exact ⟨show isDigit '.' = false by decide, show '.' ≠ '-' by decide⟩
  have htext : directiveText leftJustified width precision.isSome modifier c ++ rest =
      (if leftJustified then ['-'] else []) ++ (width ++
        ((if precision.isSome = true then ['.', '*'] else []) ++ (modifier ++ c :: rest))) := by
    simp [directiveText]
  have hprec : (decide (peek ((if precision.isSome = true then ['.', '*'] else []) ++
      (modifier ++ c :: rest)) = '.' ∧ peek ((if precision.isSome = true then ['.', '*'] else []) ++
      (modifier ++ c :: rest)).tail = '*')) = precision.isSome := by
    cases precision with
    | none => exact decide_eq_false fun h => hdot h.1
    | some v => exact decide_eq_true ⟨rfl, rfl⟩
  have hrest : (if precision.isSome = true then
      ((if precision.isSome = true then ['.', '*'] else []) ++ (modifier ++ c :: rest)).tail.tail
      else (if precision.isSome = true then ['.', '*'] else []) ++ (modifier ++ c :: rest)) =
        modifier ++ c :: rest := by
    cases precision <;> rfl
  have hargs : vaPrecision precision.isSome ((precision.map Arg.int).toList ++ args) =
      .returned ((precision.map BitVec.toInt).getD (-1), args) := by
    cases precision <;> rfl
  generalize (if precision.isSome = true then ['.', '*'] else []) ++ (modifier ++ c :: rest) = p
    at hprecision htext hprec hrest
  -- from the width on
  have hfirst : peek (width ++ p) ≠ '-' ∧ isDigit (peek (width ++ p)) = !width.isEmpty ∧
      decide (peek (width ++ p) = '0') = decide (peek width = '0') := by
    cases width with
    | nil =>
      have hzero : peek p ≠ '0' := by
        intro h
        rw [h] at hprecision
        exact absurd hprecision.1 (by decide)
      refine ⟨hprecision.2, hprecision.1, ?_⟩
      rw [List.nil_append, decide_eq_false hzero]
      rfl
    | cons d width =>
      have hd : isDigit d = true := hwidth d List.mem_cons_self
      refine ⟨?_, hd, rfl⟩
      rintro (h : d = '-')
      rw [h] at hd
      exact absurd hd (by decide)
  have hleft : decide (peek ((if leftJustified = true then ['-'] else []) ++ (width ++ p)) = '-') =
      leftJustified := by
    cases leftJustified with
    | false => exact decide_eq_false hfirst.1
    | true => rfl
  have hskip : (if leftJustified = true then
      ((if leftJustified = true then ['-'] else []) ++ (width ++ p)).tail
      else (if leftJustified = true then ['-'] else []) ++ (width ++ p)) = width ++ p := by
    cases leftJustified <;> rfl
  unfold parseSpec
  rw [htext]
  dsimp only
  rw [hleft, hskip, takeWhile_digits hwidth hprecision.1, dropWhile_digits hwidth hprecision.1,
    hprec, hargs, Outcome.returned_bind]
  dsimp only
  rw [hrest, hlength, hfirst.2.1, hfirst.2.2]
  rfl

include hmem

/-- A number is printed. -/
theorem convert_number (T : Target) (conv : NumberConv) {width : List Char}
    (hwidth : decimal width < 30) {haveLength : Bool} {args rest : List Arg}
    {signed unsigned : BitVec 64} (hsigned : vaSigned haveLength args = .returned (signed, rest))
    (hunsigned : vaUnsigned haveLength args = .returned (unsigned, rest)) (haveWidth : Bool)
    (text : List Char) :
    convert T buffEnd ⟨false, haveWidth, peek width = '0', decimal width, -1, haveLength⟩ conv.char
        args (shown buffEnd mem text) =
      .returned (shown buffEnd mem (text ++ conv.rendering width
        (if conv.char = 'd' then signed.toInt else unsigned.toNat)), rest) := by
  have hcheck : ¬ ((0 ≤ (-1 : ℤ) ∨ false = true) ∧ conv.char ≠ 's') := by
    rintro ⟨h | h, -⟩
    · exact absurd h (by decide)
    · exact absurd h Bool.false_ne_true
  unfold convert
  dsimp only
  rw [if_neg hcheck]
  by_cases hd : conv.char = 'd'
  · have hconv : conv = .d := by
      cases conv with
      | d => rfl
      | u => exact absurd hd (by decide)
      | x => exact absurd hd (by decide)
      | X => exact absurd hd (by decide)
    subst hconv
    rw [if_pos hd, if_pos hd, hsigned, Outcome.returned_bind]
    dsimp only
    rw [appendSignedDecimal_shown hmem _ hwidth]
    rfl
  · -- the conversions without a sign
    have hother : (conv.char = 'u' ∨ conv.char = 'x' ∨ conv.char = 'X') ∧
        (if conv.char = 'u' then 10 else 16) = conv.base ∧ (conv.base = 10 ∨ conv.base = 16) := by
      cases conv with
      | d => exact absurd rfl hd
      | u => exact ⟨by decide, rfl, Or.inl rfl⟩
      | x => exact ⟨by decide, rfl, Or.inr rfl⟩
      | X => exact ⟨by decide, rfl, Or.inr rfl⟩
    rw [if_neg hd, if_pos hother.1, if_neg hd, hunsigned, Outcome.returned_bind]
    dsimp only
    rw [hother.2.1, appendUnsigned_shown hmem unsigned.isLt hother.2.2 hwidth]
    unfold NumberConv.rendering
    rw [Int.natAbs_natCast, decide_eq_false (not_lt.mpr (Int.natCast_nonneg _))]
    rfl

theorem convert_string (T : Target) (width : Option (List Char)) (precision : ℤ)
    (padWithZero : Bool) (str : Option (List Char)) (args : List Arg) (text : List Char) :
    convert T buffEnd ⟨width.isSome, !(width.getD []).isEmpty, padWithZero, decimal (width.getD []),
        precision, false⟩ 's' (.str str :: args) (shown buffEnd mem text) =
      .returned (shown buffEnd mem
        (text ++ stringText (decimal (width.getD [])) precision (str.getD nullString)), args) := by
  have hwidth : (if width.isSome = true then -((decimal (width.getD []) : ℕ) : ℤ)
      else ((decimal (width.getD []) : ℕ) : ℤ)) = -((decimal (width.getD []) : ℕ) : ℤ) := by
    cases width <;> rfl
  have hcheck : ¬ (false = true ∨ (!(width.getD []).isEmpty) = true ∧ width.isSome = false) := by
    cases width with
    | none => simp
    | some w => simp
  unfold convert
  dsimp only
  rw [if_neg (fun h => h.2 rfl), if_neg (by decide), if_neg (by decide), if_neg (by decide),
    if_pos rfl, if_neg hcheck, hwidth, vaString, Outcome.returned_bind]
  dsimp only
  rw [appendString_shown hmem]
  rfl

omit hmem in
theorem printLoop_directive {T : Target} {p rest : List Char} {spec : Spec} {c : Char}
    {args args' args'' : List Arg} {s s' : Printed}
    (hparse : parseSpec p args = .returned (spec, c :: rest, args'))
    (hconvert : convert T buffEnd spec c args' s = .returned (s', args'')) (fuel : ℕ) :
    printLoop T buffEnd (fuel + 1) ('%' :: p) args s = printLoop T buffEnd fuel rest args'' s' := by
  have hpeek : peek (c :: rest) = c := rfl
  rw [printLoop, if_neg (not_not.mpr rfl), hparse, Outcome.returned_bind]
  dsimp only
  rw [hpeek, hconvert]
  rfl

/-- An item is printed. -/
theorem printLoop_item (T : Target) {item : Item} (hok : item.Ok) (fuel : ℕ) (rest : List Char)
    (args : List Arg) (text : List Char) :
    printLoop T buffEnd (fuel + 1) (item.text ++ rest) (item.args ++ args)
        (shown buffEnd mem text) =
      printLoop T buffEnd fuel rest args (shown buffEnd mem (text ++ item.rendering T)) := by
  have hnil : ([] : List Char) ∈ modifiers := by decide
  have hdigits : ∀ c ∈ ([] : List Char), isDigit c = true := List.forall_mem_nil _
  cases item with
  | char c =>
    have hstep : printLoop T buffEnd (fuel + 1) (c :: rest) args (shown buffEnd mem text) =
        printLoop T buffEnd fuel rest args (appendChar buffEnd c (shown buffEnd mem text)) :=
      if_pos hok.1
    exact hstep.trans (by rw [appendChar_shown hmem]; rfl)
  | percent =>
    refine printLoop_directive (c := '%')
      (parseSpec_eq false hdigits none hnil (by decide) rest args) ?_ fuel
    have hconvert : convert T buffEnd ⟨false, false, false, 0, -1, false⟩ '%' args
        (shown buffEnd mem text) =
          .returned (appendChar buffEnd '%' (shown buffEnd mem text), args) := rfl
    rw [appendChar_shown hmem] at hconvert
    exact hconvert
  | int conv width v =>
    have hconv : conv.char ∈ conversions := by cases conv <;> decide
    refine printLoop_directive
      (parseSpec_eq false hok.1 none hnil hconv rest (Arg.int v :: args)) ?_ fuel
    have hconvert := @convert_number _ _ hmem T conv width hok.2 false (Arg.int v :: args) args
      (v.signExtend 64) (v.setWidth 64) rfl rfl (!width.isEmpty) text
    have hvalue : (if conv.char = 'd' then (v.signExtend 64).toInt
        else ((v.setWidth 64).toNat : ℤ)) = conv.value v := by
      have hsigned : (v.signExtend 64).toInt = v.toInt := BitVec.toInt_signExtend_of_le (by decide)
      have hunsigned : (v.setWidth 64).toNat = v.toNat := by
        rw [BitVec.toNat_setWidth, Nat.mod_eq_of_lt (v.isLt.trans (by decide))]
      rw [hsigned, hunsigned]
      cases conv <;> rfl
    rw [hvalue] at hconvert
    exact hconvert
  | long conv width modifier v =>
    have hconv : conv.char ∈ conversions := by cases conv <;> decide
    have hmodifier : modifier ∈ modifiers := List.mem_cons_of_mem _ hok.2.2
    have hlength : (!modifier.isEmpty) = true := by
      have hall : [['z'], ['l'], ['l', 'l']].all (fun m => !List.isEmpty m) = true := by decide
      exact List.all_eq_true.mp hall modifier hok.2.2
    refine printLoop_directive
      (parseSpec_eq false hok.1 none hmodifier hconv rest (Arg.long v :: args)) ?_ fuel
    have hconvert := @convert_number _ _ hmem T conv width hok.2.1 true (Arg.long v :: args) args
      v v rfl rfl (!width.isEmpty) text
    have hvalue : (if conv.char = 'd' then v.toInt else (v.toNat : ℤ)) = conv.value v := by
      cases conv <;> rfl
    rw [hvalue] at hconvert
    rw [hlength]
    exact hconvert
  | pointer v =>
    refine printLoop_directive (c := 'p')
      (parseSpec_eq false hdigits none hnil (by decide) rest (Arg.long v :: args)) ?_ fuel
    have hconvert : convert T buffEnd ⟨false, false, false, 0, -1, false⟩ 'p' (Arg.long v :: args)
        (shown buffEnd mem text) = (do
          let s ← appendPointer T buffEnd v.toNat (shown buffEnd mem text)
          return (s, args)) := rfl
    rw [appendPointer_shown hmem] at hconvert
    exact hconvert
  | string width precision str =>
    have hargs : (Item.string width precision str).args ++ args =
        (precision.map Arg.int).toList ++ (Arg.str str :: args) := by
      rw [Item.args, List.append_assoc, List.singleton_append]
    rw [hargs]
    refine printLoop_directive (c := 's')
      (parseSpec_eq width.isSome hok precision hnil (by decide) rest (Arg.str str :: args)) ?_ fuel
    exact convert_string hmem T width _ _ str args text
  | character v =>
    refine printLoop_directive (c := 'c')
      (parseSpec_eq false hdigits none hnil (by decide) rest (Arg.int v :: args)) ?_ fuel
    have hconvert : convert T buffEnd ⟨false, false, false, 0, -1, false⟩ 'c' (Arg.int v :: args)
        (shown buffEnd mem text) =
          .returned (appendChar buffEnd (Char.ofNat (v.toNat % 2^8)) (shown buffEnd mem text),
            args) := rfl
    rw [appendChar_shown hmem] at hconvert
    exact hconvert

theorem printLoop_items (T : Target) {items : List Item} (hok : ∀ item ∈ items, item.Ok) {fuel : ℕ}
    (hfuel : (formatOf items).length ≤ fuel) (text : List Char) :
    printLoop T buffEnd fuel (formatOf items) (argsOf items) (shown buffEnd mem text) =
      .returned (shown buffEnd mem (text ++ rendering T items)) := by
  induction items generalizing fuel text with
  | nil =>
    have htext : text ++ rendering T [] = text := List.append_nil _
    rw [htext]
    cases fuel <;> rfl
  | cons item items ih =>
    have hformat : formatOf (item :: items) = item.text ++ formatOf items := List.flatMap_cons
    have hargs : argsOf (item :: items) = item.args ++ argsOf items := List.flatMap_cons
    have hrendering : rendering T (item :: items) = item.rendering T ++ rendering T items :=
      List.flatMap_cons
    have hpos : 0 < item.text.length := by
      cases item <;> exact Nat.succ_pos _
    rw [hformat, List.length_append] at hfuel
    obtain ⟨fuel, rfl⟩ : ∃ k, fuel = k + 1 := Nat.exists_eq_succ_of_ne_zero (by omega)
    rw [hformat, hargs, hrendering, printLoop_item hmem T (hok item List.mem_cons_self),
      ih (fun i hi => hok i (List.mem_cons_of_mem _ hi)) (by omega), List.append_assoc]

omit hmem

/-- The buffer with a text in it: as much of it as there is room for, a NUL, and what was behind
that before. -/
def printed (n : ℕ) (mem text : List Char) : List Char :=
  text.take (n - 1) ++ nul :: mem.drop (min text.length (n - 1) + 1)

/-- `VSNPrintf` for a format that is supported, with its arguments, and a buffer of `n` characters:
the buffer holds the first `n - 1` characters of the rendering and a NUL, the characters behind that
are as before, and the result is the length of the rendering. -/
theorem vsnprintf_eq (T : Target) {items : List Item} (hok : ∀ item ∈ items, item.Ok) {n : ℕ}
    (hn : 1 ≤ n) {mem : List Char} (hmem : n ≤ mem.length) :
    vsnprintf T n mem (formatOf items) (argsOf items) =
      .returned (printed n mem (rendering T items), (rendering T items).length) := by
  have hend : ((n : ℤ) - 1).toNat = n - 1 := by omega
  have hlt : n - 1 < mem.length := by omega
  have hstart : shown (n - 1) mem [] = ⟨0, mem, 0⟩ := by
    unfold shown
    rw [List.length_nil, Nat.zero_min, List.take_nil, List.nil_append, List.drop_zero]
  have hloop := printLoop_items hlt T hok le_rfl []
  rw [hstart, List.nil_append] at hloop
  have hpos : (shown (n - 1) mem (rendering T items)).pos ≤ n - 1 := min_le_right _ _
  unfold vsnprintf
  rw [if_neg (by omega), hend]
  dsimp only
  rw [hloop, Outcome.returned_bind, if_neg (not_lt.mpr hpos)]
  -- the NUL comes behind what has been printed
  have hset : (shown (n - 1) mem (rendering T items)).mem.set
      (shown (n - 1) mem (rendering T items)).pos nul = printed n mem (rendering T items) := by
    unfold shown printed
    dsimp only
    have htake : ((rendering T items).take (n - 1)).length =
        min (rendering T items).length (n - 1) := by
      rw [List.length_take, min_comm]
    rw [List.set_append_right _ _ htake.le, htake, Nat.sub_self,
      ← List.cons_getElem_drop_succ (h := (by omega :
        min (rendering T items).length (n - 1) < mem.length)), List.set_cons_zero]
  unfold appendChar
  rw [if_pos (by omega), hset]
  rfl

end Tasan.Print
