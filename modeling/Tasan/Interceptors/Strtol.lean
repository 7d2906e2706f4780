import Tasan.Libc.Strtol

/-!
# What the interceptors of `strtol` check

The interceptors of `strtol` and its kind check the bytes up to the one behind the number, and without a
number the bytes that `FixRealStrtolEndptr` skips and the one behind. These are the bytes that decide the
result, but for one case. Where a prefix `0x` has no digit behind it, the number is the zero in front of the
`x`, and the byte behind the `x` has been looked at too; it is not checked (`checked_iff`).

A text is the list of the bytes from a pointer to the end of the memory, and pointers into it are offsets.
-/

namespace Tasan.Interceptors

open Strtol

/-! ## The model -/

/-- The flags that the interceptors look at. -/
structure StringFlags where
  strictStringChecks : Bool
  replaceStr : Bool

/-- `COMMON_INTERCEPTOR_READ_STRING` and `ASAN_READ_STRING`: how many bytes of `s` are checked. -/
def readString (flags : StringFlags) (s : List Byte) (n : ℕ) : ℕ :=
  if flags.strictStringChecks then (s.takeWhile fun c => c ≠ 0).length + 1 else n

/-- The leading blanks and the optional sign that `FixRealStrtolEndptr` skips. -/
def skipLead : List Byte → ℕ
  | [] => 0
  | c :: rest =>
    if isSpace c then skipLead rest + 1
    else if c = byte '+' || c = byte '-' then 1 else 0

/-- `FixRealStrtolEndptr`. That `*endptr` is not before `nptr` holds of every offset. -/
def fixRealStrtolEndptr (nptr : List Byte) (endptr : ℕ) : ℕ :=
  -- No digits were found, so the last symbol accessed is behind the blanks and the sign.
  if endptr = 0 then skipLead nptr else endptr

/-- `is_valid_base`. -/
def isValidBase (base : ℤ) : Bool := base = 0 || (2 ≤ base && base ≤ 36)

/-- What `StrtolFixAndCheck` does. -/
structure StrtolChecks where
  /-- What is stored at `endptr`, and the store is checked, if it is not null. -/
  endptr : Option ℕ
  /-- How many bytes of `nptr` are checked. -/
  read : ℕ

/-- `StrtolFixAndCheck`. -/
def strtolFixAndCheck (flags : StringFlags) (nptr : List Byte) (hasEndptr : Bool) (realEndptr : ℕ)
    (base : ℤ) : StrtolChecks where
  endptr := if hasEndptr then some realEndptr else none
  read := readString flags nptr (if isValidBase base then fixRealStrtolEndptr nptr realEndptr + 1 else 0)

/-- An interceptor. -/
inductive Interceptor
  /-- `strtol`, `strtoll` and the others that are `StrtolImpl`. -/
  | strto (base : ℤ) (hasEndptr : Bool)
  /-- `strtol` of Windows. -/
  | windowsStrtol (base : ℤ) (hasEndptr : Bool)
  | atoi
  | atol
  | atoll

/-- The base that the real function is called with. -/
def Interceptor.base : Interceptor → ℤ
  | strto base _ => base
  | windowsStrtol base _ => base
  | atoi => 10
  | atol => 10
  | atoll => 10

/-- The result, from that of the real function. -/
def Interceptor.convert : Interceptor → ℤ → ℤ
  | strto _ _, result => result
  | windowsStrtol _ _, result => max (-2^31) (min (2^31 - 1) result)
  | atoi, result => (BitVec.ofInt 32 result).toInt
  | atol, result => result
  | atoll, result => result

variable (real : ℤ → List Byte → Option (ℤ × ℕ))

/-- The result and the end pointer. The real function returns nothing where the memory ends before the
number does. -/
def Interceptor.result (f : Interceptor) (nptr : List Byte) : Option (ℤ × ℕ) :=
  (real f.base nptr).map fun (result, realEndptr) => (f.convert result, realEndptr)

/-- How many bytes of `nptr` are checked, if there is a check. -/
def Interceptor.checked (flags : StringFlags) (f : Interceptor) (nptr : List Byte) : Option ℕ :=
  if flags.replaceStr then
    (real f.base nptr).map fun (_, realEndptr) =>
      match f with
      | strto base hasEndptr => (strtolFixAndCheck flags nptr hasEndptr realEndptr base).read
      | windowsStrtol base hasEndptr => (strtolFixAndCheck flags nptr hasEndptr realEndptr base).read
      | atoi => readString flags nptr (fixRealStrtolEndptr nptr realEndptr + 1)
      | atol => readString flags nptr (fixRealStrtolEndptr nptr realEndptr + 1)
      | atoll => readString flags nptr (fixRealStrtolEndptr nptr realEndptr + 1)
  else none

/-! ## What is asked for -/

/-- Byte `i` decides the result: with another value of it, and the bytes before it kept, there can be
another result. -/
def Decides {α : Type} (result : List Byte → Option α) (text : List Byte) (i : ℕ) : Prop :=
  ∃ text' b b' r r', (∀ j < i, text'[j]? = text[j]?) ∧ text[i]? = some b ∧ text'[i]? = some b' ∧ b' ≠ b ∧
    result text = some r ∧ result text' = some r' ∧ r' ≠ r

/-- A prefix of a hexadecimal constant without a digit behind it. -/
def BarePrefix (base : ℕ) (text : List Byte) : Prop :=
  allowsHex base = true ∧ ∃ lead x rest, text = lead ++ byte '0' :: x :: rest ∧ IsLead lead ∧
    isX x = true ∧ ∀ d ∈ rest.head?, isDigit 16 d = false

/-! ## The bytes that are skipped -/

variable {range : ℤ → ℤ} {base : ℕ} {strtol : List Byte → Option (ℤ × ℕ)} {text text' : List Byte}
  {v v' : ℤ} {e e' : ℕ}

theorem skipLead_eq (text : List Byte) : skipLead text = (leadOf text).length := by
  induction text with
  | nil => rfl
  | cons c rest ih =>
    change (if isSpace c then skipLead rest + 1 else if isSign c then 1 else 0) = _
    rw [leadOf, ih]
    split_ifs <;> rfl

theorem fixRealStrtolEndptr_lt (h : IsStrtol range base strtol) (hbase : base = 0 ∨ 2 ≤ base)
    (hr : strtol text = some (v, e)) : fixRealStrtolEndptr text e < text.length := by
  by_contra hge
  rw [not_lt] at hge
  unfold fixRealStrtolEndptr at hge
  split_ifs at hge with he
  · -- A digit behind the lead would be a number.
    rw [skipLead_eq] at hge
    have htext := (leadOf_isPrefix text).eq_of_length (le_antisymm (leadOf_isPrefix text).length_le hge)
    have hend := (isLead_leadOf text).endsAt_one hbase []
    have hle := h.longest _ _ _ _ (h.append text [byte '1'] _ hr) (htext ▸ hend)
    omega
  · have hend := h.ends text v e hr he
    have hlen := hend.le_length
    have hsnoc := hend.snoc_zero hbase []
    rw [List.take_of_length_le (by omega)] at hsnoc
    have hle := h.longest _ _ _ _ (h.append text [byte '0'] _ hr) hsnoc
    omega

/-! ## What decides the result -/

theorem take_congr {n i : ℕ} (h : ∀ j < i, text'[j]? = text[j]?) (hn : n ≤ i) :
    text'.take n = text.take n := by
  refine List.ext_getElem? fun j => ?_
  rw [List.getElem?_take, List.getElem?_take]
  split_ifs with hj
  · exact h j (by omega)
  · rfl

theorem leadOf_eq_of_take (hlt : (leadOf text).length < text.length)
    (htake : text.take ((leadOf text).length + 1) = text'.take ((leadOf text).length + 1)) :
    leadOf text' = leadOf text := by
  obtain ⟨c, rest, hrest⟩ := List.exists_cons_of_length_pos
    (show 0 < (text.drop (leadOf text).length).length by rw [List.length_drop]; omega)
  have htext := (List.prefix_iff_eq_append.mp (leadOf_isPrefix text)).symm
  rw [hrest] at htext
  have hstart : text.take ((leadOf text).length + 1) = leadOf text ++ [c] := by
    rw [List.take_add, hrest, ← List.prefix_iff_eq_take.mp (leadOf_isPrefix text)]
    rfl
  have htext' : text' = leadOf text ++ c :: text'.drop ((leadOf text).length + 1) := by
    rw [List.append_cons, ← hstart, htake, List.take_append_drop]
  rw [htext']
  exact leadOf_congr htext

/-- Texts that are the same up to the last byte that is checked have the same result, unless there is a
prefix without a digit. -/
theorem eq_of_take (h : IsStrtol range base strtol) (hbase : base ≤ 36)
    (hlt : fixRealStrtolEndptr text e < text.length) (hbare : ¬ BarePrefix base text)
    (hr : strtol text = some (v, e)) (hr' : strtol text' = some (v', e'))
    (htake : text.take (fixRealStrtolEndptr text e + 1) = text'.take (fixRealStrtolEndptr text e + 1)) :
    v' = v ∧ e' = e := by
  have hcongr : ∀ m ≤ fixRealStrtolEndptr text e + 1, text.take m = text'.take m := by
    intro m hm
    rw [← Nat.min_eq_left hm, ← List.take_take, htake, List.take_take]
  have hend : e' = e := by
    by_cases he : e = 0
    · -- A number in the other text would begin with a digit that is also in this one.
      by_contra hne
      rw [fixRealStrtolEndptr, if_pos he, skipLead_eq] at hlt hcongr
      have hend' := h.ends text' v' e' hr' (by omega)
      have hlead := leadOf_eq_of_take hlt (hcongr _ le_rfl)
      have hlt' := (hend'.leadOf_lt hbase).1
      rw [hlead] at hlt'
      rcases hend'.of_le hbase (m := (leadOf text).length + 1) (by rw [hlead]; omega) hlt' with hm | ⟨hm, -⟩
      · have hle := h.longest text v e _ hr (hm.congr (hcongr _ le_rfl).symm)
        omega
      · rw [hlead] at hm
        omega
    · rw [fixRealStrtolEndptr, if_neg he] at hlt hcongr
      have hend := h.ends text v e hr he
      have hle := h.longest text' v' e' e hr' (hend.congr (hcongr e (by omega)))
      by_contra hne
      have hend' := h.ends text' v' e' hr' (by omega)
      have hlead := ((hend.congr (hcongr e (by omega))).leadOf_lt hbase).1
      rcases hend'.of_le hbase (m := e + 1) (by omega) (by omega) with hm | ⟨hm, hallows, x, hx, hstart⟩
      · have hle := h.longest text v e _ hr (hm.congr (hcongr _ le_rfl).symm)
        omega
      · -- The other number is one with a prefix, of which this text has no digit.
        have htext : text = leadOf text' ++ byte '0' :: x :: text.drop (e + 1) := by
          have hsplit := List.take_append_drop (e + 1) text
          rw [hcongr _ le_rfl, hstart, List.append_assoc] at hsplit
          exact hsplit.symm
        refine hbare ⟨hallows, leadOf text', x, _, htext, isLead_leadOf text', hx, fun d hd => ?_⟩
        by_contra hdigit
        obtain ⟨rest, hrest⟩ := List.head?_eq_some_iff.mp (Option.mem_def.mp hd)
        have hlonger : EndsAt base text (e + 2) := by
          refine ⟨leadOf text', [byte '0', x, d], rest, ?_, isLead_leadOf text', ?_, ?_⟩
          · rw [htext, hrest]
            rfl
          · refine .hex hallows hx (List.cons_ne_nil _ _) fun c hc => ?_
            rw [List.mem_singleton.mp hc]
            exact Bool.not_eq_false _ ▸ hdigit
          · change e + 2 = _ + 3
            omega
        have hle := h.longest text v e _ hr hlonger
        omega
  subst hend
  refine ⟨?_, rfl⟩
  have hle : e' ≤ fixRealStrtolEndptr text e' + 1 := by
    unfold fixRealStrtolEndptr
    split_ifs <;> omega
  rw [h.value text v e' hr, h.value text' v' e' hr', hcongr e' hle]

theorem getElem?_take_append {i : ℕ} (hi : i ≤ text.length) (b : Byte) (more : List Byte) :
    (text.take i ++ b :: more)[i]? = some b := by
  have hlen : (text.take i).length = i := by rw [List.length_take, Nat.min_eq_left hi]
  rw [List.getElem?_append_right hlen.le, hlen, Nat.sub_self, List.getElem?_cons_zero]

theorem decides_of_end (h : IsStrtol range base strtol) (convert : ℤ → ℤ) {i : ℕ} (hi : i < text.length)
    (hr : strtol text = some (v, e)) {c : Byte} (hb : text[i]? ≠ some c)
    (hend : ∀ v' e', strtol (text.take i ++ [c, 0]) = some (v', e') → e' ≠ e) :
    Decides (fun text => (strtol text).map fun (v, e) => (convert v, e)) text i := by
  have hlen : (text.take i).length = i := by rw [List.length_take, Nat.min_eq_left hi.le]
  obtain ⟨⟨v', e'⟩, hr'⟩ := h.returns (text.take i ++ [c, 0]) (by simp)
  refine ⟨text.take i ++ [c, 0], text[i], c, (convert v, e), (convert v', e'), fun j hj => ?_,
    List.getElem?_eq_getElem hi, getElem?_take_append hi.le _ _, fun heq => ?_, congrArg (Option.map _) hr,
    congrArg (Option.map _) hr', fun heq => ?_⟩
  · rw [List.getElem?_append_left (by omega), List.getElem?_take_of_lt hj]
  · exact hb (heq ▸ List.getElem?_eq_getElem hi)
  · exact hend v' e' hr' (Prod.mk.inj heq).2

/-- The bytes up to the one behind the number decide the result. -/
theorem decides_of_lt (h : IsStrtol range base strtol) (hbase : base = 0 ∨ 2 ≤ base) (hbase' : base ≤ 36)
    (convert : ℤ → ℤ) (hr : strtol text = some (v, e)) {i : ℕ} (hi : i < fixRealStrtolEndptr text e + 1) :
    Decides (fun text => (strtol text).map fun (v, e) => (convert v, e)) text i := by
  have hlt := fixRealStrtolEndptr_lt h hbase hr
  have hilen : i < text.length := by omega
  have hlen : (text.take i).length = i := by rw [List.length_take, Nat.min_eq_left hilen.le]
  unfold fixRealStrtolEndptr at hi
  split_ifs at hi with he
  · -- Without a number, one begins with a digit here.
    rw [skipLead_eq] at hi
    have hlead : IsLead (text.take i) := by
      have hstart := List.prefix_iff_eq_take.mp (leadOf_isPrefix text)
      have hleadTake := (isLead_leadOf text).take i
      rwa [hstart, List.take_take, Nat.min_eq_left (by omega)] at hleadTake
    refine decides_of_end h convert hilen hr (c := byte '1') (fun hb => ?_) fun v' e' hr' heq => ?_
    · have hsplit : text = text.take i ++ byte '1' :: text.drop (i + 1) := by
        have hdrop := List.drop_eq_getElem_cons hilen
        rw [List.getElem?_eq_getElem hilen, Option.some.injEq] at hb
        rw [hb] at hdrop
        rw [← hdrop, List.take_append_drop]
      have hone := hlead.endsAt_one hbase (text.drop (i + 1))
      rw [← hsplit] at hone
      have hle := h.longest text v e _ hr hone
      omega
    · have hle := h.longest _ v' e' _ hr' (hlead.endsAt_one hbase [0])
      omega
  · have hend := h.ends text v e hr he
    rcases Nat.lt_or_ge i e with hlt | hge
    · -- A NUL in the number ends it.
      refine decides_of_end h convert hilen hr (c := 0) (fun hb => ?_) fun v' e' hr' heq => ?_
      · apply hend.not_nul hbase'
        exact List.mem_of_getElem? ((List.getElem?_take_of_lt hlt).trans hb)
      · rw [heq] at hr'
        apply (h.ends _ v' e hr' he).not_nul hbase'
        have hnul := getElem?_take_append hilen.le 0 [0]
        exact List.mem_of_getElem? ((List.getElem?_take_of_lt hlt).trans hnul)
    · -- A digit behind the number continues it.
      obtain rfl : i = e := by omega
      refine decides_of_end h convert hilen hr (c := byte '0') (fun hb => ?_) fun v' e' hr' heq => ?_
      · have hsplit : text = text.take i ++ byte '0' :: text.drop (i + 1) := by
          have hdrop := List.drop_eq_getElem_cons hilen
          rw [List.getElem?_eq_getElem hilen, Option.some.injEq] at hb
          rw [hb] at hdrop
          rw [← hdrop, List.take_append_drop]
        have hmore := hend.snoc_zero hbase (text.drop (i + 1))
        rw [← hsplit] at hmore
        have hle := h.longest text v i _ hr hmore
        omega
      · have hle := h.longest _ v' e' _ hr' (hend.snoc_zero hbase [0])
        omega

theorem digit_of_prefix (hallows : allowsHex base = true) {x : Byte} (hx : isX x = true) {w : List Byte}
    (h : IsConstant base (byte '0' :: x :: w)) : ∃ d ∈ w.head?, isDigit 16 d = true := by
  have hno : ∀ b ≤ 16, ¬ isDigit b x = true := fun b hb hdigit =>
    Bool.false_ne_true ((isDigit_of_isX hx).symm.trans (isDigit_mono hb hdigit))
  cases h with
  | digits _ _ h =>
    have h16 : base ≤ 16 := by
      simp only [allowsHex, Bool.or_eq_true, decide_eq_true_eq] at hallows
      omega
    exact absurd (h x (List.mem_cons_of_mem _ List.mem_cons_self)) (hno base h16)
  | hex _ _ hne h =>
    obtain ⟨d, w, rfl⟩ := List.exists_cons_of_ne_nil hne
    exact ⟨d, rfl, h d List.mem_cons_self⟩
  | decimal hc => exact absurd rfl hc
  | octal h => exact absurd (h x List.mem_cons_self) (hno 8 (by norm_num))

/-- Behind a prefix without a digit there is one more byte that decides the result. -/
theorem decides_of_barePrefix (h : IsStrtol range base strtol) (hbase' : base ≤ 36) (convert : ℤ → ℤ)
    (hr : strtol text = some (v, e)) (hbare : BarePrefix base text) :
    Decides (fun text => (strtol text).map fun (v, e) => (convert v, e)) text
      (fixRealStrtolEndptr text e + 1) := by
  obtain ⟨hallows, lead, x, rest, rfl, hlead, hx, hrest⟩ := hbare
  have hleadOf : leadOf (lead ++ byte '0' :: x :: rest) = lead :=
    leadOf_append_cons hlead (by decide) (x :: rest)
  have hdigits : ∀ more : List Byte,
      EndsAt base (lead ++ byte '0' :: x :: byte '1' :: more) (lead.length + 3) := by
    intro more
    refine ⟨lead, [byte '0', x, byte '1'], more, rfl, hlead, .hex hallows hx (List.cons_ne_nil _ _) ?_, rfl⟩
    intro c hc
    rw [List.mem_singleton.mp hc]
    decide
  -- The number is the zero.
  have hzero : EndsAt base (lead ++ byte '0' :: x :: rest) (lead.length + 1) := by
    refine ⟨lead, [byte '0'], x :: rest, rfl, hlead, ?_, rfl⟩
    simp only [allowsHex, Bool.or_eq_true, decide_eq_true_eq] at hallows
    rcases hallows with rfl | rfl
    · exact .octal fun d hd => absurd hd List.not_mem_nil
    · refine .digits (by norm_num) (List.cons_ne_nil _ _) fun c hc => ?_
      rw [List.mem_singleton.mp hc]
      decide
  have hle := h.longest _ v e _ hr hzero
  have hend := (h.ends _ v e hr (by omega)).leadOf_lt hbase'
  rw [hleadOf, List.drop_left] at hend
  have he : e = lead.length + 1 := by
    by_contra hne
    obtain ⟨k, rfl⟩ : ∃ k, e = lead.length + (k + 2) := ⟨e - lead.length - 2, by omega⟩
    rw [Nat.add_sub_cancel_left, List.take_succ_cons, List.take_succ_cons] at hend
    obtain ⟨d, hd, hdigit⟩ := digit_of_prefix hallows hx hend.2
    rw [List.head?_take] at hd
    split_ifs at hd
    · exact absurd hd (Option.not_mem_none d)
    · exact Bool.false_ne_true ((hrest d hd).symm.trans hdigit)
  have hfix : fixRealStrtolEndptr (lead ++ byte '0' :: x :: rest) e + 1 = lead.length + 2 := by
    rw [fixRealStrtolEndptr, if_neg (by omega), he]
  rw [hfix]
  have hlen : (lead ++ [byte '0', x]).length = lead.length + 2 := List.length_append
  have hsplit : lead ++ byte '0' :: x :: rest = (lead ++ [byte '0', x]) ++ rest := by
    rw [List.append_assoc]
    rfl
  refine decides_of_end h convert ?_ hr (c := byte '1') (fun hb => ?_) fun v' e' hr' heq => ?_
  · -- A digit behind the memory would be one of the number.
    by_contra hge
    cases rest with
    | nil =>
      have hr' := h.append _ [byte '1'] _ hr
      rw [List.append_assoc] at hr'
      have hle := h.longest _ v e _ hr' (hdigits [])
      omega
    | cons d rest =>
      simp only [List.length_append, List.length_cons] at hge
      omega
  · rw [hsplit, List.getElem?_append_right hlen.le, hlen, Nat.sub_self, ← List.head?_eq_getElem?] at hb
    exact absurd (hrest _ hb) (by decide)
  · rw [hsplit, List.take_left' hlen, List.append_assoc] at hr'
    have hle := h.longest _ v' e' _ hr' (hdigits [0])
    omega

theorem lt_iff_decides (h : IsStrtol range base strtol) (hbase : base = 0 ∨ 2 ≤ base) (hbase' : base ≤ 36)
    (convert : ℤ → ℤ) (hr : strtol text = some (v, e)) :
    (∀ i, i < fixRealStrtolEndptr text e + 1 ↔
        Decides (fun text => (strtol text).map fun (v, e) => (convert v, e)) text i) ↔
      ¬ BarePrefix base text := by
  refine ⟨fun hall hbare => ?_,
    fun hbare i => ⟨decides_of_lt h hbase hbase' convert hr, fun hdecides => ?_⟩⟩
  · exact lt_irrefl _ ((hall _).mpr (decides_of_barePrefix h hbase' convert hr hbare))
  · obtain ⟨text', b, b', r, r', hbefore, -, -, -, hres, hres', hne⟩ := hdecides
    by_contra hge
    obtain ⟨⟨v₁, e₁⟩, hr₁, rfl⟩ := Option.map_eq_some_iff.mp hres
    obtain ⟨⟨v', e'⟩, hr', rfl⟩ := Option.map_eq_some_iff.mp hres'
    obtain ⟨rfl, rfl⟩ := Prod.mk.inj (Option.some.inj (hr₁.symm.trans hr))
    obtain ⟨rfl, rfl⟩ := eq_of_take h hbase' (fixRealStrtolEndptr_lt h hbase hr) hbare hr hr'
      (take_congr hbefore (not_lt.mp hge)).symm
    exact hne rfl

/-! ## The interceptors -/

variable {real}

/-- What is checked, without `strict_string_checks`. -/
theorem checked_eq_some {flags : StringFlags} (hflags : flags.strictStringChecks = false) {f : Interceptor}
    (hbase : isValidBase f.base = true) {n : ℕ} (h : f.checked real flags text = some n) :
    ∃ v e, real f.base text = some (v, e) ∧ n = fixRealStrtolEndptr text e + 1 := by
  have hread : ∀ k, readString flags text k = k := fun k => by
    rw [readString, hflags, if_neg Bool.false_ne_true]
  unfold Interceptor.checked at h
  rw [Option.ite_none_right_eq_some, Option.map_eq_some_iff] at h
  obtain ⟨-, ⟨v, e⟩, hr, rfl⟩ := h
  refine ⟨v, e, hr, ?_⟩
  cases f with
  | strto base hasEndptr =>
    change isValidBase base = true at hbase
    dsimp only [strtolFixAndCheck]
    rw [hread, if_pos hbase]
  | windowsStrtol base hasEndptr =>
    change isValidBase base = true at hbase
    dsimp only [strtolFixAndCheck]
    rw [hread, if_pos hbase]
  | atoi => exact hread _
  | atol => exact hread _
  | atoll => exact hread _

theorem decides_iff_of_noPrefix {flags : StringFlags} (hflags : flags.strictStringChecks = false)
    {f : Interceptor} (hbase : isValidBase f.base = true) (hnot : allowsHex f.base.toNat = false)
    (hreal : IsStrtol range f.base.toNat (real f.base)) {n : ℕ} (h : f.checked real flags text = some n)
    (i : ℕ) : Decides (f.result real) text i ↔ i < n := by
  obtain ⟨v, e, hr, rfl⟩ := checked_eq_some hflags hbase h
  simp only [isValidBase, Bool.or_eq_true, Bool.and_eq_true, decide_eq_true_eq] at hbase
  have hbare : ¬ BarePrefix f.base.toNat text := fun ⟨hallows, _⟩ =>
    Bool.false_ne_true (hnot.symm.trans hallows)
  exact ((lt_iff_decides hreal (by omega) (by omega) f.convert hr).mpr hbare i).symm

/-- The bytes that an interceptor checks are those that decide the result if, and only if, there is no
prefix without a digit. -/
theorem checked_iff {flags : StringFlags} (hflags : flags.strictStringChecks = false) {f : Interceptor}
    (hbase : isValidBase f.base = true) (hreal : IsStrtol range f.base.toNat (real f.base)) {n : ℕ}
    (h : f.checked real flags text = some n) :
    (∀ i, i < n ↔ Decides (f.result real) text i) ↔ ¬ BarePrefix f.base.toNat text := by
  obtain ⟨v, e, hr, rfl⟩ := checked_eq_some hflags hbase h
  simp only [isValidBase, Bool.or_eq_true, Bool.and_eq_true, decide_eq_true_eq] at hbase
  exact lt_iff_decides hreal (by omega) (by omega) f.convert hr

/-- The range of `long`. -/
def clampLong (v : ℤ) : ℤ := max (-2^63) (min (2^63 - 1) v)

/-- `strtol` of 64-bit systems. -/
def realStrtol (base : ℤ) : List Byte → Option (ℤ × ℕ) := Strtol.strtol clampLong base.toNat

/-- The number 12 and a NUL. -/
def twelve : List Byte := [byte ' ', byte '1', byte '2', 0]

/-- `checked_iff` for `atoi` of the number 12. -/
theorem checked_iff_twelve :
    (∀ i, i < 4 ↔ Decides (Interceptor.atoi.result realStrtol) twelve i) ↔ ¬ BarePrefix 10 twelve := by
  have hreal : IsStrtol clampLong Interceptor.atoi.base.toNat (realStrtol Interceptor.atoi.base) :=
    isStrtol clampLong (by decide)
  have hchecked : Interceptor.atoi.checked realStrtol ⟨false, true⟩ twelve = some 4 := by decide
  exact checked_iff rfl rfl hreal hchecked

/-- A prefix without a digit. -/
def barePrefix : List Byte := [byte '0', byte 'x', byte 'g', 0]

/-- The byte behind the prefix decides the result, but it is not checked. -/
theorem checked_barePrefix :
    (Interceptor.strto 16 true).checked realStrtol ⟨false, true⟩ barePrefix = some 2 ∧
      Decides ((Interceptor.strto 16 true).result realStrtol) barePrefix 2 := by
  refine ⟨by decide, [byte '0', byte 'x', byte '1', 0], byte 'g', byte '1', (0, 1), (1, 3), ?_, rfl, rfl,
    by decide, by decide, by decide, by decide⟩
  intro j hj
  interval_cases j <;> rfl

end Tasan.Interceptors
