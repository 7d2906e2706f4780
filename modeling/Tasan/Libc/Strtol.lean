import Tasan.Memory

/-!
# `strtol` of ISO C

The subject sequence of `strtol` is the longest initial sequence behind the white space that has the form of
an integer in the base, with a sign. `IsStrtol` is what ISO C says of the end pointer and of the value, for
the C locale, and that the result does not depend on memory that is not read. The form of an integer is kept
by the initial parts of one, but for `0x` (`IsConstant.take`). `strtol` is such a function (`isStrtol`).

A text is the list of the bytes from a pointer to the end of the memory.
-/

namespace Tasan.Strtol

/-! ## Characters -/

/-- A character of the source, as a byte. -/
def byte (c : Char) : Byte := BitVec.ofNat 8 c.toNat

/-- `IsSpace`, and `isspace` in the C locale: a blank, or one of the characters from a tab to a carriage
return. -/
def isSpace (c : Byte) : Bool :=
  c = byte ' ' || c = 0x0A || c = 0x09 || c = 0x0C || c = 0x0D || c = 0x0B

/-- A sign. -/
def isSign (c : Byte) : Bool := c = byte '+' || c = byte '-'

/-- The value of a digit or a letter, and 36 for another character. -/
def digitValue (c : Byte) : ℕ :=
  if byte '0' ≤ c ∧ c ≤ byte '9' then c.toNat - (byte '0').toNat
  else if byte 'a' ≤ c ∧ c ≤ byte 'z' then c.toNat - (byte 'a').toNat + 10
  else if byte 'A' ≤ c ∧ c ≤ byte 'Z' then c.toNat - (byte 'A').toNat + 10
  else 36

/-- A digit of a base. -/
def isDigit (base : ℕ) (c : Byte) : Bool := digitValue c < base

/-- The second character of the prefix of a hexadecimal constant. -/
def isX (c : Byte) : Bool := c = byte 'x' || c = byte 'X'

/-- Whether a constant can have the prefix. -/
def allowsHex (base : ℕ) : Bool := base = 0 || base = 16

/-! ## Subject sequences -/

/-- An integer of the expected form, without its sign. -/
inductive IsConstant : (base : ℕ) → (w : List Byte) → Prop
  /-- Letters and digits of the base. -/
  | digits {base w} (hbase : base ≠ 0) (hne : w ≠ []) (h : ∀ c ∈ w, isDigit base c = true) :
    IsConstant base w
  /-- Hexadecimal digits behind a prefix. -/
  | hex {base x w} (hbase : allowsHex base = true) (hx : isX x = true) (hne : w ≠ [])
    (h : ∀ c ∈ w, isDigit 16 c = true) : IsConstant base (byte '0' :: x :: w)
  /-- A decimal constant. -/
  | decimal {c w} (hc : c ≠ byte '0') (h : ∀ d ∈ c :: w, isDigit 10 d = true) : IsConstant 0 (c :: w)
  /-- An octal constant. -/
  | octal {w} (h : ∀ d ∈ w, isDigit 8 d = true) : IsConstant 0 (byte '0' :: w)

/-- White space, and then perhaps a sign. -/
inductive IsLead : (lead : List Byte) → Prop
  /-- Nothing. -/
  | nil : IsLead []
  /-- A sign. -/
  | sign {c} (h : isSign c = true) : IsLead [c]
  /-- White space. -/
  | space {c lead} (hc : isSpace c = true) (h : IsLead lead) : IsLead (c :: lead)

/-- An initial part of the text is white space and a sequence of the expected form. -/
def EndsAt (base : ℕ) (text : List Byte) (e : ℕ) : Prop :=
  ∃ lead w rest, text = lead ++ (w ++ rest) ∧ IsLead lead ∧ IsConstant base w ∧
    e = lead.length + w.length

/-! ## Values -/

/-- The white space and the sign. -/
def leadOf : List Byte → List Byte
  | [] => []
  | c :: rest => if isSpace c then c :: leadOf rest else if isSign c then [c] else []

/-- Whether a text begins with a prefix and a hexadecimal digit. Nothing, if the memory ends before. -/
def startsHex (base : ℕ) : List Byte → Option Bool
  | [] => none
  | [c] => if allowsHex base && c = byte '0' then none else some false
  | c :: x :: rest =>
    if allowsHex base && c = byte '0' && isX x then rest.head?.map (isDigit 16) else some false

/-- The radix of the constant at the start of a text. -/
def radix (base : ℕ) (hex : Bool) : List Byte → ℕ
  | [] => base
  | c :: _ => if hex then 16 else if base = 0 then if c = byte '0' then 8 else 10 else base

/-- The number that some digits stand for. -/
def valueOf (radix : ℕ) (digits : List Byte) : ℕ :=
  digits.foldl (fun n c => n * radix + digitValue c) 0

/-- The value of a subject sequence behind white space. -/
def subjectValue (base : ℕ) (s : List Byte) : ℤ :=
  let w := s.drop (leadOf s).length
  let hex := startsHex base w = some true
  let n := valueOf (radix base hex w) (w.drop (if hex then 2 else 0))
  if (leadOf s).getLast? = some (byte '-') then -n else n

/-! ## What ISO C says -/

/-- A function is `strtol`, or another of its kind, in a base. `range` takes a value to the range of the
type. -/
structure IsStrtol (range : ℤ → ℤ) (base : ℕ) (real : List Byte → Option (ℤ × ℕ)) : Prop where
  /-- It returns for a string. -/
  returns : ∀ text, 0 ∈ text → ∃ r, real text = some r
  /-- The memory behind what it reads does not matter. -/
  append : ∀ text more r, real text = some r → real (text ++ more) = some r
  /-- The end pointer is behind a sequence of the expected form, if there is one. -/
  ends : ∀ text v e, real text = some (v, e) → e ≠ 0 → EndsAt base text e
  /-- No sequence of the expected form is longer. -/
  longest : ∀ text v e k, real text = some (v, e) → EndsAt base text k → k ≤ e
  /-- The value is that of the sequence, or zero. -/
  value : ∀ text v e, real text = some (v, e) →
    v = if e = 0 then 0 else range (subjectValue base (text.take e))

/-! ## Characters of different kinds -/

theorem isSpace_of_isDigit {c : Byte} (h : isDigit 36 c = true) : isSpace c = false := by
  revert c
  decide

theorem isSign_of_isDigit {c : Byte} (h : isDigit 36 c = true) : isSign c = false := by
  revert c
  decide

theorem isSpace_of_isSign {c : Byte} (h : isSign c = true) : isSpace c = false := by
  revert c
  decide

theorem isDigit_of_isX {x : Byte} (h : isX x = true) : isDigit 16 x = false := by
  revert x
  decide

theorem isDigit_mono {base base' : ℕ} {c : Byte} (hle : base ≤ base') (h : isDigit base c = true) :
    isDigit base' c = true := by
  rw [isDigit, decide_eq_true_eq] at h ⊢
  exact h.trans_le hle

theorem isDigit_nul {base : ℕ} (hbase : base ≤ 36) : isDigit base 0 = false := by
  have h : digitValue 0 = 36 := by decide
  rw [isDigit, decide_eq_false_iff_not, h]
  omega

/-! ## Sequences of the expected form -/

variable {base : ℕ} {w lead text : List Byte}

theorem IsConstant.ne_nil (h : IsConstant base w) : w ≠ [] := by
  cases h with
  | digits _ hne _ => exact hne
  | hex => exact List.cons_ne_nil _ _
  | decimal => exact List.cons_ne_nil _ _
  | octal => exact List.cons_ne_nil _ _

theorem IsConstant.head (hbase : base ≤ 36) {c : Byte} (h : IsConstant base (c :: w)) :
    isDigit 36 c = true := by
  have hzero : isDigit 36 (byte '0') = true := by decide
  cases h with
  | digits _ _ h => exact isDigit_mono hbase (h c List.mem_cons_self)
  | hex => exact hzero
  | decimal _ h => exact isDigit_mono (by norm_num) (h c List.mem_cons_self)
  | octal => exact hzero

theorem IsConstant.not_nul (hbase : base ≤ 36) (h : IsConstant base w) : 0 ∉ w := by
  have hzero : (0 : Byte) ≠ byte '0' := by decide
  cases h with
  | digits _ _ h => exact fun hmem => Bool.false_ne_true ((isDigit_nul hbase).symm.trans (h 0 hmem))
  | hex _ hx _ h =>
    intro hmem
    rcases List.mem_cons.mp hmem with heq | hmem
    · exact hzero heq
    rcases List.mem_cons.mp hmem with rfl | hmem
    · exact absurd hx (by decide)
    · exact Bool.false_ne_true ((isDigit_nul (by norm_num)).symm.trans (h 0 hmem))
  | decimal _ h => exact fun hmem => Bool.false_ne_true ((isDigit_nul (by norm_num)).symm.trans (h 0 hmem))
  | octal h =>
    intro hmem
    rcases List.mem_cons.mp hmem with heq | hmem
    · exact hzero heq
    · exact Bool.false_ne_true ((isDigit_nul (by norm_num)).symm.trans (h 0 hmem))

theorem IsConstant.snoc_zero (hbase : base = 0 ∨ 2 ≤ base) (h : IsConstant base w) :
    IsConstant base (w ++ [byte '0']) := by
  have hzero : digitValue (byte '0') = 0 := by decide
  have hdigit : ∀ b, 1 ≤ b → isDigit b (byte '0') = true := fun b hb => by
    rw [isDigit, decide_eq_true_eq, hzero]
    exact hb
  have hall : ∀ {b : ℕ} {v : List Byte}, 1 ≤ b → (∀ c ∈ v, isDigit b c = true) →
      ∀ c ∈ v ++ [byte '0'], isDigit b c = true := by
    intro b v hb hv c hc
    rcases List.mem_append.mp hc with hc | hc
    · exact hv c hc
    · rw [List.mem_singleton.mp hc]
      exact hdigit b hb
  have hne : ∀ v : List Byte, v ++ [byte '0'] ≠ [] := fun v =>
    List.append_ne_nil_of_right_ne_nil v (List.cons_ne_nil _ _)
  cases h with
  | digits hb _ h => exact .digits hb (hne _) (hall (by omega) h)
  | hex hb hx _ h => exact .hex hb hx (hne _) (hall (by norm_num) h)
  | decimal hc h => exact .decimal hc (hall (by norm_num) h)
  | octal h => exact .octal (hall (by norm_num) h)

theorem isConstant_one (hbase : base = 0 ∨ 2 ≤ base) : IsConstant base [byte '1'] := by
  have hone : digitValue (byte '1') = 1 := by decide
  have hdigit : ∀ b, 2 ≤ b → ∀ c ∈ [byte '1'], isDigit b c = true := fun b hb c hc => by
    rw [List.mem_singleton.mp hc, isDigit, decide_eq_true_eq, hone]
    exact hb
  rcases hbase with rfl | hbase
  · exact .decimal (by decide) (hdigit 10 (by norm_num))
  · exact .digits (by omega) (List.cons_ne_nil _ _) (hdigit base hbase)

/-- An initial part of a sequence of the expected form has the expected form, unless it is only a prefix. -/
theorem IsConstant.take (h : IsConstant base w) {k : ℕ} (hk : k ≠ 0) :
    IsConstant base (w.take k) ∨ allowsHex base = true ∧ ∃ x, isX x = true ∧ w.take k = [byte '0', x] := by
  have htake : ∀ {v : List Byte} {b n : ℕ}, (∀ c ∈ v, isDigit b c = true) →
      ∀ c ∈ v.take n, isDigit b c = true :=
    fun hv c hc => hv c (List.mem_of_mem_take hc)
  obtain ⟨n, rfl⟩ := Nat.exists_eq_succ_of_ne_zero hk
  cases h with
  | digits hb hne h =>
    refine .inl (.digits hb ?_ (htake h))
    rw [ne_eq, List.take_eq_nil_iff, not_or]
    exact ⟨hk, hne⟩
  | @hex _ x v hb hx hne h =>
    rw [List.take_succ_cons]
    cases n with
    | zero =>
      -- The zero in front of the prefix is a constant of its own.
      rw [List.take_zero]
      left
      by_cases hzero : base = 0
      · rw [hzero]
        exact .octal (fun d hd => absurd hd List.not_mem_nil)
      · refine .digits hzero (List.cons_ne_nil _ _) fun c hc => ?_
        have hvalue : digitValue (byte '0') = 0 := by decide
        rw [List.mem_singleton.mp hc, isDigit, decide_eq_true_eq, hvalue]
        omega
    | succ n =>
      rw [List.take_succ_cons]
      cases n with
      | zero => exact .inr ⟨hb, x, hx, rfl⟩
      | succ n =>
        refine .inl (.hex hb hx ?_ (htake h))
        rw [ne_eq, List.take_eq_nil_iff, not_or]
        exact ⟨Nat.succ_ne_zero n, hne⟩
  | decimal hc h =>
    have hall := htake (n := n + 1) h
    rw [List.take_succ_cons] at hall ⊢
    exact .inl (.decimal hc hall)
  | octal h =>
    rw [List.take_succ_cons]
    exact .inl (.octal (htake h))

/-! ## White space and signs -/

theorem IsLead.not_nul (h : IsLead lead) : 0 ∉ lead := by
  induction h with
  | nil => exact List.not_mem_nil
  | sign h =>
    intro hmem
    rw [← List.mem_singleton.mp hmem] at h
    exact absurd h (by decide)
  | space hc _ ih =>
    intro hmem
    rcases List.mem_cons.mp hmem with rfl | hmem
    · exact absurd hc (by decide)
    · exact ih hmem

theorem IsLead.take (h : IsLead lead) (k : ℕ) : IsLead (lead.take k) := by
  induction h generalizing k with
  | nil =>
    rw [List.take_nil]
    exact .nil
  | sign h =>
    cases k with
    | zero => exact .nil
    | succ k =>
      rw [List.take_succ_cons, List.take_nil]
      exact .sign h
  | space hc _ ih =>
    cases k with
    | zero => exact .nil
    | succ k => exact List.take_succ_cons ▸ .space hc (ih k)

theorem isLead_leadOf (text : List Byte) : IsLead (leadOf text) := by
  induction text with
  | nil => exact .nil
  | cons c rest ih =>
    rw [leadOf]
    split_ifs with hspace hsign
    · exact .space hspace ih
    · exact .sign hsign
    · exact .nil

theorem leadOf_isPrefix (text : List Byte) : leadOf text <+: text := by
  induction text with
  | nil => exact List.prefix_rfl
  | cons c rest ih =>
    rw [leadOf]
    split_ifs
    · exact (List.prefix_cons_inj c).mpr ih
    · exact ⟨rest, rfl⟩
    · exact List.nil_prefix

theorem leadOf_append_cons (h : IsLead lead) {c : Byte} (hc : isDigit 36 c = true) (rest : List Byte) :
    leadOf (lead ++ c :: rest) = lead := by
  induction h with
  | nil =>
    rw [List.nil_append, leadOf, isSpace_of_isDigit hc, isSign_of_isDigit hc]
    rfl
  | @sign d h =>
    change leadOf (d :: c :: rest) = [d]
    rw [leadOf, isSpace_of_isSign h, if_neg Bool.false_ne_true, if_pos h]
  | space hd _ ih => rw [List.cons_append, leadOf, if_pos hd, ih]

theorem leadOf_congr {c : Byte} {rest rest' : List Byte} (h : text = leadOf text ++ c :: rest) :
    leadOf (leadOf text ++ c :: rest') = leadOf text := by
  induction text generalizing c with
  | nil => exact absurd h (List.append_ne_nil_of_right_ne_nil _ (List.cons_ne_nil _ _)).symm
  | cons d text ih =>
    rw [leadOf] at h ⊢
    split_ifs at h ⊢ with hspace hsign
    · rw [List.cons_append, leadOf, if_pos hspace, ih (List.cons_inj_right d |>.mp h)]
    · rw [List.singleton_append, leadOf, if_neg hspace, if_pos hsign]
    · obtain ⟨rfl, -⟩ := List.cons.inj h
      rw [List.nil_append, leadOf, if_neg hspace, if_neg hsign]

/-! ## Ends -/

theorem EndsAt.congr {text' : List Byte} {e : ℕ} (h : EndsAt base text e)
    (htake : text.take e = text'.take e) :
    EndsAt base text' e := by
  obtain ⟨lead, w, rest, rfl, hlead, hw, rfl⟩ := h
  rw [← List.append_assoc, List.take_left' (List.length_append)] at htake
  refine ⟨lead, w, text'.drop (lead.length + w.length), ?_, hlead, hw, rfl⟩
  rw [← List.append_assoc, htake, List.take_append_drop]

theorem EndsAt.not_nul (hbase : base ≤ 36) {e : ℕ} (h : EndsAt base text e) : 0 ∉ text.take e := by
  obtain ⟨lead, w, rest, rfl, hlead, hw, rfl⟩ := h
  rw [← List.append_assoc, List.take_left' (List.length_append), List.mem_append, not_or]
  exact ⟨hlead.not_nul, hw.not_nul hbase⟩

theorem EndsAt.le_length {e : ℕ} (h : EndsAt base text e) : e ≤ text.length := by
  obtain ⟨lead, w, rest, rfl, -, -, rfl⟩ := h
  rw [List.length_append, List.length_append]
  omega

theorem EndsAt.leadOf_lt (hbase : base ≤ 36) {e : ℕ} (h : EndsAt base text e) :
    (leadOf text).length < e ∧
      IsConstant base ((text.drop (leadOf text).length).take (e - (leadOf text).length)) := by
  obtain ⟨lead, w, rest, rfl, hlead, hw, rfl⟩ := h
  obtain ⟨c, v, rfl⟩ := List.exists_cons_of_ne_nil hw.ne_nil
  rw [List.cons_append, leadOf_append_cons hlead (hw.head hbase), ← List.cons_append, List.drop_left,
    Nat.add_sub_cancel_left, List.take_left]
  refine ⟨?_, hw⟩
  rw [List.length_cons]
  omega

theorem endsAt_of_drop {e : ℕ} (hle : (leadOf text).length + e ≤ text.length)
    (h : IsConstant base ((text.drop (leadOf text).length).take e)) :
    EndsAt base text ((leadOf text).length + e) := by
  refine ⟨leadOf text, _, (text.drop (leadOf text).length).drop e, ?_, isLead_leadOf text, h, ?_⟩
  · rw [List.take_append_drop]
    exact (List.prefix_iff_eq_append.mp (leadOf_isPrefix text)).symm
  · rw [List.length_take, List.length_drop]
    omega

theorem EndsAt.snoc_zero (hbase : base = 0 ∨ 2 ≤ base) {e : ℕ} (h : EndsAt base text e) (rest : List Byte) :
    EndsAt base (text.take e ++ byte '0' :: rest) (e + 1) := by
  obtain ⟨lead, w, rest', rfl, hlead, hw, rfl⟩ := h
  refine ⟨lead, w ++ [byte '0'], rest, ?_, hlead, hw.snoc_zero hbase, ?_⟩
  · rw [← List.append_assoc, List.take_left' (List.length_append), List.append_assoc, List.append_assoc]
    rfl
  · rw [List.length_append, List.length_singleton, Nat.add_assoc]

theorem IsLead.endsAt_one (hbase : base = 0 ∨ 2 ≤ base) (h : IsLead lead) (rest : List Byte) :
    EndsAt base (lead ++ byte '1' :: rest) (lead.length + 1) :=
  ⟨lead, [byte '1'], rest, rfl, h, isConstant_one hbase, rfl⟩

theorem EndsAt.of_le (hbase : base ≤ 36) {e m : ℕ} (h : EndsAt base text e) (hm : (leadOf text).length < m)
    (hme : m ≤ e) : EndsAt base text m ∨ m = (leadOf text).length + 2 ∧ allowsHex base = true ∧
      ∃ x, isX x = true ∧ text.take m = leadOf text ++ [byte '0', x] := by
  have hlen := h.le_length
  have hconstant := (h.leadOf_lt hbase).2.take (k := m - (leadOf text).length) (by omega)
  rw [List.take_take, Nat.min_eq_left (by omega)] at hconstant
  rcases hconstant with hconstant | ⟨hallows, x, hx, htake⟩
  · left
    have hend := endsAt_of_drop (by omega) hconstant
    rwa [Nat.add_sub_cancel' hm.le] at hend
  · right
    have hlength := congrArg List.length htake
    rw [List.length_take, List.length_drop, List.length_cons, List.length_singleton] at hlength
    refine ⟨by omega, hallows, x, hx, ?_⟩
    rw [← htake, ← Nat.add_sub_cancel' hm.le, List.take_add, Nat.add_sub_cancel' hm.le,
      ← List.prefix_iff_eq_take.mp (leadOf_isPrefix text)]

/-! ## `strtol` -/

/-- The end of the digits behind a prefix of `k` characters. -/
def digitsEnd (radix k : ℕ) (text : List Byte) : ℕ :=
  k + ((text.drop k).takeWhile (isDigit radix)).length

/-- The end of a constant at the start of a text: zero if there is none, and nothing if the memory ends
before that is known. -/
def constantEnd (base : ℕ) (text : List Byte) : Option ℕ := do
  let hex ← startsHex base text
  let e := digitsEnd (radix base hex text) (if hex then 2 else 0) text
  if e < text.length then some e else none

/-- `*endptr`. -/
def subjectEnd (base : ℕ) (text : List Byte) : Option ℕ :=
  (constantEnd base (text.drop (leadOf text).length)).map fun k =>
    if k = 0 then 0 else (leadOf text).length + k

/-- `strtol` for a type whose range is that of `range`: the value, and `*endptr`. -/
def strtol (range : ℤ → ℤ) (base : ℕ) (text : List Byte) : Option (ℤ × ℕ) :=
  (subjectEnd base text).map fun e => (if e = 0 then 0 else range (subjectValue base (text.take e)), e)

/-- A text that starts with a prefix and a digit. -/
theorem startsHex_eq_true (h : startsHex base text = some true) :
    ∃ x d rest, text = byte '0' :: x :: d :: rest ∧ allowsHex base = true ∧ isX x = true ∧
      isDigit 16 d = true := by
  match text with
  | [] => exact nomatch h
  | [c] =>
    rw [startsHex] at h
    split_ifs at h
    exact nomatch h
  | [c, x] =>
    rw [startsHex] at h
    split_ifs at h
    · exact nomatch h
    · exact nomatch h
  | c :: x :: d :: rest =>
    rw [startsHex] at h
    split_ifs at h with hprefixed
    · simp only [Bool.and_eq_true, decide_eq_true_eq] at hprefixed
      obtain ⟨⟨hbase, rfl⟩, hx⟩ := hprefixed
      exact ⟨x, d, rest, rfl, hbase, hx, Option.some.inj h⟩
    · exact nomatch h

/-- Memory behind what decides whether a text starts with a prefix. -/
theorem startsHex_append {hex : Bool} (h : startsHex base text = some hex) (more : List Byte) :
    startsHex base (text ++ more) = some hex ∧ radix base hex (text ++ more) = radix base hex text := by
  match text with
  | [] => exact nomatch h
  | [c] =>
    rw [startsHex] at h
    split_ifs at h with hzero
    cases more with
    | nil => exact ⟨by rw [List.append_nil, startsHex, if_neg hzero, h], rfl⟩
    | cons d more =>
      refine ⟨?_, rfl⟩
      change startsHex base (c :: d :: more) = _
      rw [startsHex, if_neg (fun hand => hzero (Bool.and_eq_true_iff.mp hand).1), h]
  | [c, x] =>
    rw [startsHex] at h
    split_ifs at h with hprefixed
    · exact nomatch h
    · refine ⟨?_, rfl⟩
      change startsHex base (c :: x :: more) = _
      rw [startsHex, if_neg hprefixed, h]
  | c :: x :: d :: rest =>
    refine ⟨?_, rfl⟩
    change startsHex base (c :: x :: d :: (rest ++ more)) = _
    rw [startsHex] at h ⊢
    exact h

/-- Whether a string starts with a prefix is known. -/
theorem startsHex_of_nul (h : 0 ∈ text) : ∃ hex, startsHex base text = some hex := by
  match text with
  | [] => exact absurd h List.not_mem_nil
  | [c] =>
    refine ⟨false, ?_⟩
    rw [startsHex, if_neg]
    rw [← List.mem_singleton.mp h]
    simp only [Bool.and_eq_true, decide_eq_true_eq, not_and]
    exact fun _ => by decide
  | [c, x] =>
    refine ⟨false, ?_⟩
    rw [startsHex, if_neg]
    simp only [Bool.and_eq_true, decide_eq_true_eq]
    rintro ⟨⟨-, rfl⟩, hx⟩
    rcases List.mem_pair.mp h with h | rfl
    · exact absurd h (by decide)
    · exact absurd hx (by decide)
  | c :: x :: d :: rest =>
    rw [startsHex]
    split_ifs
    · exact ⟨_, rfl⟩
    · exact ⟨_, rfl⟩

theorem constantEnd_eq_some {k : ℕ} :
    constantEnd base text = some k ↔ ∃ hex, startsHex base text = some hex ∧
      digitsEnd (radix base hex text) (if hex then 2 else 0) text < text.length ∧
      digitsEnd (radix base hex text) (if hex then 2 else 0) text = k := by
  unfold constantEnd
  rw [Option.bind_eq_bind, Option.bind_eq_some_iff]
  refine exists_congr fun hex => and_congr_right fun _ => ?_
  dsimp only
  rw [Option.ite_none_right_eq_some, Option.some.injEq]

theorem take_digitsEnd (radix k : ℕ) (text : List Byte) :
    text.take (digitsEnd radix k text) = text.take k ++ (text.drop k).takeWhile (isDigit radix) := by
  have hinit := List.prefix_iff_eq_take.mp (List.takeWhile_prefix (isDigit radix) (l := text.drop k))
  rw [digitsEnd, List.take_add, ← hinit]

theorem length_le_digitsEnd {radix k : ℕ} {rest : List Byte} (hk : k ≤ w.length)
    (h : ∀ c ∈ w.drop k, isDigit radix c = true) : w.length ≤ digitsEnd radix k (w ++ rest) := by
  rw [digitsEnd, List.drop_append_of_le_length hk, List.takeWhile_append_of_pos h, List.length_append,
    List.length_drop]
  omega

/-- What is before the end of a constant has the expected form. -/
theorem isConstant_take {k : ℕ} (h : constantEnd base text = some k) (hk : k ≠ 0) :
    IsConstant base (text.take k) := by
  obtain ⟨hex, hstart, -, rfl⟩ := constantEnd_eq_some.mp h
  rw [take_digitsEnd]
  have hdigits := fun c (hc : c ∈ (text.drop (if hex then 2 else 0)).takeWhile
    (isDigit (radix base hex text))) => List.mem_takeWhile_imp hc
  cases hex with
  | true =>
    obtain ⟨x, d, rest, rfl, hbase, hx, hd⟩ := startsHex_eq_true hstart
    refine .hex hbase hx ?_ hdigits
    change (d :: rest).takeWhile (isDigit 16) ≠ []
    rw [List.takeWhile_cons_of_pos hd]
    exact List.cons_ne_nil _ _
  | false =>
    rw [digitsEnd, if_neg Bool.false_ne_true, Nat.zero_add, List.drop_zero] at hk
    rw [if_neg Bool.false_ne_true, List.drop_zero] at hdigits ⊢
    rw [List.take_zero, List.nil_append]
    have hne := List.ne_nil_of_length_pos (Nat.pos_of_ne_zero hk)
    obtain ⟨c, rest, rfl⟩ := List.exists_cons_of_ne_nil (fun hnil => hne (by rw [hnil]; rfl) : text ≠ [])
    rw [radix, if_neg Bool.false_ne_true] at hdigits hne ⊢
    split_ifs at hdigits hne ⊢ with hbase hc
    · -- A zero begins an octal constant.
      rw [List.takeWhile_cons] at hdigits hne ⊢
      split_ifs at hdigits hne ⊢ with hd
      · rw [hbase, hc]
        exact .octal fun d hd => hdigits d (List.mem_cons_of_mem _ hd)
      · exact absurd rfl hne
    · rw [List.takeWhile_cons] at hdigits hne ⊢
      split_ifs at hdigits hne ⊢ with hd
      · rw [hbase]
        exact .decimal hc hdigits
      · exact absurd rfl hne
    · exact .digits hbase hne hdigits

/-- No sequence of the expected form at the start of a text is longer than up to the end of the constant. -/
theorem IsConstant.length_le {rest : List Byte} {k : ℕ} (h : IsConstant base w)
    (hend : constantEnd base (w ++ rest) = some k) : w.length ≤ k := by
  obtain ⟨hex, hstart, -, rfl⟩ := constantEnd_eq_some.mp hend
  -- With a prefix behind it, a sequence of other digits is only the zero.
  have hzero : ∀ {b : ℕ}, b ≤ 16 → (∀ c ∈ w, isDigit b c = true) → startsHex base (w ++ rest) = some true →
      ∀ r, w.length ≤ digitsEnd r 2 (w ++ rest) := by
    intro b hb hdigits htrue r
    obtain ⟨x, d, rest', heq, -, hx, -⟩ := startsHex_eq_true htrue
    match w with
    | [] => exact Nat.zero_le _
    | [c] =>
      rw [digitsEnd, List.length_singleton]
      omega
    | c :: c' :: w' =>
      obtain ⟨-, htail⟩ := List.cons.inj heq
      obtain ⟨rfl, -⟩ := List.cons.inj htail
      have hc' := isDigit_mono hb (hdigits c' (List.mem_cons_of_mem _ List.mem_cons_self))
      rw [isDigit_of_isX hx] at hc'
      exact absurd hc' Bool.false_ne_true
  cases h with
  | digits hbase hne hdigits =>
    cases hex with
    | true =>
      obtain ⟨-, -, -, -, hallows, -⟩ := startsHex_eq_true hstart
      have h16 : base ≤ 16 := by
        simp only [allowsHex, Bool.or_eq_true, decide_eq_true_eq] at hallows
        omega
      exact hzero h16 hdigits hstart _
    | false =>
      have hradix : radix base false (w ++ rest) = base := by
        obtain ⟨c, v, rfl⟩ := List.exists_cons_of_ne_nil hne
        rw [List.cons_append, radix, if_neg Bool.false_ne_true, if_neg hbase]
      rw [hradix]
      exact length_le_digitsEnd (Nat.zero_le _) hdigits
  | @hex _ x v hbase hx hne hdigits =>
    obtain ⟨d, v, rfl⟩ := List.exists_cons_of_ne_nil hne
    have htrue : startsHex base (byte '0' :: x :: d :: v ++ rest) = some true := by
      change startsHex base (byte '0' :: x :: d :: (v ++ rest)) = _
      rw [startsHex, hbase, hx, decide_eq_true rfl]
      exact congrArg some (hdigits d List.mem_cons_self)
    obtain rfl := Option.some.inj (hstart.symm.trans htrue)
    exact length_le_digitsEnd (by rw [List.length_cons, List.length_cons]; simp) hdigits
  | @decimal c v hc hdigits =>
    have hfalse : startsHex 0 (c :: v ++ rest) ≠ some true := by
      intro htrue
      obtain ⟨_, _, _, heq, -⟩ := startsHex_eq_true htrue
      exact hc (List.cons.inj heq).1
    cases hex with
    | true => exact absurd hstart hfalse
    | false =>
      have hradix : radix 0 false (c :: v ++ rest) = 10 := by
        rw [List.cons_append, radix, if_neg Bool.false_ne_true, if_pos rfl, if_neg hc]
      rw [hradix]
      exact length_le_digitsEnd (Nat.zero_le _) hdigits
  | @octal v hdigits =>
    have hall : ∀ c ∈ byte '0' :: v, isDigit 8 c = true := by
      intro c hc
      rcases List.mem_cons.mp hc with rfl | hc
      · decide
      · exact hdigits c hc
    cases hex with
    | true => exact hzero (by norm_num) hall hstart _
    | false => exact length_le_digitsEnd (Nat.zero_le _) hall

/-- The end of a constant in a string is known. -/
theorem constantEnd_of_nul (hbase : base ≤ 36) (h : 0 ∈ text) : ∃ k, constantEnd base text = some k := by
  obtain ⟨hex, hstart⟩ : ∃ hex, startsHex base text = some hex := startsHex_of_nul h
  refine ⟨_, constantEnd_eq_some.mpr ⟨hex, hstart, ?_, rfl⟩⟩
  have hradix : radix base hex text ≤ 36 := by
    cases text with
    | nil => exact hbase
    | cons c rest =>
      rw [radix]
      split_ifs <;> omega
  -- The NUL is behind the prefix, and it is no digit.
  have hdrop : 0 ∈ text.drop (if hex then 2 else 0) := by
    cases hex with
    | false => exact h
    | true =>
      obtain ⟨x, d, rest, rfl, -, hx, -⟩ := startsHex_eq_true hstart
      rcases List.mem_cons.mp h with heq | h
      · exact absurd heq (by decide)
      rcases List.mem_cons.mp h with rfl | h
      · exact absurd hx (by decide)
      · exact h
  have hlt : ((text.drop (if hex then 2 else 0)).takeWhile (isDigit (radix base hex text))).length <
      (text.drop (if hex then 2 else 0)).length := by
    refine lt_of_le_of_ne (List.takeWhile_prefix _).length_le fun hlen => ?_
    have hall := (List.takeWhile_prefix _).eq_of_length hlen
    rw [← hall] at hdrop
    exact Bool.false_ne_true ((isDigit_nul hradix).symm.trans (List.mem_takeWhile_imp hdrop))
  rw [List.length_drop] at hlt
  rw [digitsEnd]
  omega

theorem digitsEnd_append {r k : ℕ} (h : digitsEnd r k text < text.length) (more : List Byte) :
    digitsEnd r k (text ++ more) = digitsEnd r k text := by
  rw [digitsEnd] at h ⊢
  have hdrop : (text ++ more).drop k = text.drop k ++ more := List.drop_append_of_le_length (by omega)
  have hne : ((text.drop k).takeWhile (isDigit r)).length ≠ (text.drop k).length := by
    rw [List.length_drop]
    omega
  rw [hdrop, List.takeWhile_append, if_neg hne, digitsEnd]

theorem constantEnd_append {k : ℕ} (h : constantEnd base text = some k) (more : List Byte) :
    constantEnd base (text ++ more) = some k := by
  obtain ⟨hex, hstart, hlt, rfl⟩ := constantEnd_eq_some.mp h
  obtain ⟨hstart', hradix⟩ := startsHex_append hstart more
  refine constantEnd_eq_some.mpr ⟨hex, hstart', ?_, ?_⟩
  · rw [hradix, digitsEnd_append hlt, List.length_append]
    omega
  · rw [hradix, digitsEnd_append hlt]

theorem constantEnd_lt {k : ℕ} (h : constantEnd base text = some k) : k < text.length := by
  obtain ⟨hex, -, hlt, rfl⟩ := constantEnd_eq_some.mp h
  exact hlt

theorem strtol_eq_some {range : ℤ → ℤ} {v : ℤ} {e : ℕ} :
    strtol range base text = some (v, e) ↔ ∃ k, constantEnd base (text.drop (leadOf text).length) = some k ∧
      e = (if k = 0 then 0 else (leadOf text).length + k) ∧
      v = if e = 0 then 0 else range (subjectValue base (text.take e)) := by
  rw [strtol, subjectEnd, Option.map_map, Option.map_eq_some_iff]
  refine exists_congr fun k => and_congr_right fun _ => ?_
  rw [Function.comp_apply, Prod.mk.injEq]
  constructor
  · rintro ⟨rfl, rfl⟩
    exact ⟨rfl, rfl⟩
  · rintro ⟨rfl, rfl⟩
    exact ⟨rfl, rfl⟩

/-- `strtol` does what ISO C says. -/
theorem isStrtol (range : ℤ → ℤ) (hbase : base ≤ 36) : IsStrtol range base (strtol range base) where
  returns text h := by
    have hdrop : 0 ∈ text.drop (leadOf text).length := by
      rw [← List.prefix_iff_eq_append.mp (leadOf_isPrefix text), List.mem_append] at h
      exact h.resolve_left (isLead_leadOf text).not_nul
    obtain ⟨k, hk⟩ := constantEnd_of_nul hbase hdrop
    exact ⟨_, strtol_eq_some.mpr ⟨k, hk, rfl, rfl⟩⟩
  append text more r h := by
    obtain ⟨v, e⟩ := r
    obtain ⟨k, hk, he, hv⟩ := strtol_eq_some.mp h
    have hlt := constantEnd_lt hk
    rw [List.length_drop] at hlt
    -- There is a character behind the lead, so that the lead is the same.
    have htext := List.prefix_iff_eq_append.mp (leadOf_isPrefix text)
    obtain ⟨c, rest, hrest⟩ := List.exists_cons_of_length_pos
      (show 0 < (text.drop (leadOf text).length).length by rw [List.length_drop]; omega)
    have hlead : leadOf (text ++ more) = leadOf text := by
      rw [hrest] at htext
      rw [← htext, List.append_assoc, List.cons_append, htext]
      exact leadOf_congr htext.symm
    have hdrop : (text ++ more).drop (leadOf text).length = text.drop (leadOf text).length ++ more :=
      List.drop_append_of_le_length (by omega)
    have hle : e ≤ text.length := by
      rw [he]
      split_ifs <;> omega
    refine strtol_eq_some.mpr ⟨k, ?_, ?_, ?_⟩
    · rw [hlead, hdrop]
      exact constantEnd_append hk more
    · rw [hlead]
      exact he
    · rw [List.take_append_of_le_length hle]
      exact hv
  ends text v e h he := by
    obtain ⟨k, hk, rfl, -⟩ := strtol_eq_some.mp h
    have hlt := constantEnd_lt hk
    rw [List.length_drop] at hlt
    split_ifs at he ⊢ with hzero
    · exact absurd rfl he
    · exact endsAt_of_drop (by omega) (isConstant_take hk hzero)
  longest text v e k h hk := by
    obtain ⟨k', hk', rfl, -⟩ := strtol_eq_some.mp h
    obtain ⟨hlt, hconstant⟩ := hk.leadOf_lt hbase
    have hle := hk.le_length
    rw [← List.take_append_drop (k - (leadOf text).length) (text.drop (leadOf text).length)] at hk'
    have hlen := hconstant.length_le hk'
    rw [List.length_take, List.length_drop] at hlen
    rw [if_neg (by omega)]
    omega
  value text v e h := by
    obtain ⟨-, -, -, hv⟩ := strtol_eq_some.mp h
    exact hv

end Tasan.Strtol
