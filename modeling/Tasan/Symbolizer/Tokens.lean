import Tasan.Symbolizer.Output

/-!
# The tokens of a symbolizer's output

What `ExtractToken` and `ParseFileLineInfo` make of a string. A token is the part of the string up
to a delimiter, and the cursor is then behind the delimiter (`extractToken_eq`). A round of the
splitter of a file line cuts off a number at the end with its colon (`splitRounds_number`), or stops
(`splitRounds_stop`). A second round on the empty file name looks in front of the copy
(`splitRounds_nil`), so that `ParseFileLineInfo` stays in bounds unless the line is a colon and a
number (`parseFileLineInfo_eq`, `parseFileLineInfo_number`).
-/

namespace Tasan.Symbolizer

open FlagParser (nul)
open Format (isDigit)
open Libc (internalSimpleStrtoll)
open Buffer (read write readAt readBlock writeBlock scan scan_eq read_eq readBlock_eq drop_add
  drop_succ read_of_getElem? readAt_natCast)

/-- A string in an array: what is in front of the cursor, up to the NUL. -/
structure Ahead (str : List Char) (pos : ℕ) (text junk : List Char) : Prop where
  /-- The text and its NUL. -/
  drop_eq : str.drop pos = text ++ nul :: junk
  /-- There is no other NUL in it. -/
  nul_notMem : nul ∉ text

variable {e : OutputFault} {str text junk delims : List Char} {pos : ℕ} {info : AddressInfo}

/-- The part of a text up to a delimiter. -/
def upTo (delims text : List Char) : List Char := text.takeWhile (!delims.contains ·)

/-- The part behind the delimiter. -/
def after (delims text : List Char) : List Char := (text.dropWhile (!delims.contains ·)).tail

theorem Ahead.le_length (h : Ahead str pos text junk) : pos ≤ str.length := by
  have hlength := congrArg List.length h.drop_eq
  rw [List.length_drop, List.length_append, List.length_cons] at hlength
  omega

theorem ahead_zero (h : nul ∉ text) : Ahead (text ++ [nul]) 0 text [] := ⟨rfl, h⟩

theorem cString_eq (h : Ahead str pos text junk) : cString e str pos = .returned text := by
  have hchars : ∀ c ∈ text, decide (c ≠ nul) = true := fun c hc =>
    decide_eq_true fun heq => h.nul_notMem (heq ▸ hc)
  unfold cString
  rw [scan_eq h.drop_eq hchars (by rw [decide_eq_false_iff_not, not_not]),
    Outcome.returned_bind, Nat.add_sub_cancel_left]
  exact readBlock_eq h.drop_eq h.le_length

theorem of_mem_upTo {c : Char} (h : c ∈ upTo delims text) :
    c ∈ text ∧ delims.contains c = false := by
  refine ⟨(List.takeWhile_sublist _).subset h, ?_⟩
  have hprop := List.mem_takeWhile_imp h
  rwa [Bool.not_eq_true'] at hprop

/-- A token ends at the NUL, or at a delimiter. -/
theorem Ahead.token (h : Ahead str pos text junk) (delims : List Char) :
    ∃ c rest, str.drop pos = upTo delims text ++ c :: rest ∧
      (c = nul ∧ after delims text = [] ∧ c :: rest = nul :: junk ∨
        c ≠ nul ∧ delims.contains c = true ∧ rest = after delims text ++ nul :: junk) := by
  have happend : upTo delims text ++ text.dropWhile (!delims.contains ·) = text :=
    List.takeWhile_append_dropWhile
  cases hrest : text.dropWhile (!delims.contains ·) with
  | nil =>
    rw [hrest, List.append_nil] at happend
    refine ⟨nul, junk, by rw [happend, h.drop_eq], Or.inl ⟨rfl, ?_, rfl⟩⟩
    unfold after
    rw [hrest]
    rfl
  | cons c rest =>
    have hafter : after delims text = rest := by
      unfold after
      rw [hrest]
      rfl
    have hdelim : delims.contains c = true := by
      have hhead := List.head?_dropWhile_not (!delims.contains ·) text
      rw [hrest] at hhead
      simpa using hhead
    have hmem : c ∈ text := (List.dropWhile_sublist _).subset (hrest ▸ List.mem_cons_self)
    rw [hrest] at happend
    refine ⟨c, rest ++ nul :: junk, ?_, Or.inr ⟨fun heq => h.nul_notMem (heq ▸ hmem), hdelim,
      by rw [hafter]⟩⟩
    calc
      str.drop pos = text ++ nul :: junk := h.drop_eq
      _ = upTo delims text ++ c :: rest ++ nul :: junk := by rw [happend]
      _ = upTo delims text ++ c :: (rest ++ nul :: junk) := List.append_assoc ..

theorem internalStrcspn_eq (h : Ahead str pos text junk) :
    internalStrcspn e str pos delims = .returned (upTo delims text).length := by
  have hchars : ∀ c ∈ upTo delims text, (decide (c ≠ nul) && !delims.contains c) = true := by
    intro c hc
    obtain ⟨hmem, hdelim⟩ := of_mem_upTo hc
    rw [hdelim, Bool.not_false, Bool.and_true]
    exact decide_eq_true fun heq => h.nul_notMem (heq ▸ hmem)
  obtain ⟨c, rest, hdrop, hstop⟩ := h.token delims
  have hend : (decide (c ≠ nul) && !delims.contains c) = false := by
    rcases hstop with ⟨hnul, -, -⟩ | ⟨-, hdelim, -⟩
    · rw [decide_eq_false (not_not.mpr hnul), Bool.false_and]
    · rw [hdelim, Bool.not_true, Bool.and_false]
  unfold internalStrcspn
  rw [scan_eq hdrop hchars hend, Outcome.returned_bind, Nat.add_sub_cancel_left]
  rfl

theorem writeBlock_token (token : List Char) :
    writeBlock OutputFault.token (List.replicate (token.length + 1) nul) 0 token =
      .returned (token ++ [nul]) := by
  unfold writeBlock
  rw [List.length_replicate, if_pos (by omega), List.take_zero, List.nil_append, Nat.zero_add,
    List.drop_replicate, Nat.add_sub_cancel_left]
  rfl

/-- The token is copied, and the cursor is behind the delimiter. -/
theorem extractToken_eq (h : Ahead str pos text junk) (delims : List Char) :
    ∃ next, extractToken e str pos delims = .returned (upTo delims text ++ [nul], next) ∧
      Ahead str next (after delims text) junk := by
  obtain ⟨c, rest, hdrop, hstop⟩ := h.token delims
  have hend : str.drop (pos + (upTo delims text).length) = c :: rest := drop_add hdrop
  have hwrite : write OutputFault.token (upTo delims text ++ [nul]) (upTo delims text).length nul =
      .returned (upTo delims text ++ [nul]) := by
    unfold write
    rw [if_pos (by rw [List.length_append]; exact Nat.lt_succ_self _),
      List.set_append_right _ _ le_rfl, Nat.sub_self]
    rfl
  have hrun : extractToken e str pos delims = .returned (upTo delims text ++ [nul],
      if c ≠ nul then pos + (upTo delims text).length + 1
      else pos + (upTo delims text).length) := by
    unfold extractToken
    rw [internalStrcspn_eq h, Outcome.returned_bind, readBlock_eq hdrop h.le_length,
      Outcome.returned_bind, writeBlock_token, Outcome.returned_bind, hwrite, Outcome.returned_bind,
      read_eq hend]
    rfl
  have hsub : nul ∉ after delims text := fun hmem =>
    h.nul_notMem ((List.dropWhile_sublist _).subset (List.mem_of_mem_tail hmem))
  refine ⟨_, hrun, ?_, hsub⟩
  rcases hstop with ⟨hnul, hafter, hcons⟩ | ⟨hne, -, hrest⟩
  · rw [if_neg (not_not.mpr hnul), hend, hafter, hcons]
    rfl
  · rw [if_pos hne, drop_succ hend, hrest]

/-! ## Numbers at the end -/

/-- A text ends in a colon and a number. -/
def EndsInNumber (text : List Char) : Prop :=
  ∃ pre digits, text = pre ++ ':' :: digits ∧ digits ≠ [] ∧ ∀ d ∈ digits, isDigit d = true

/-- A text is a colon and a number. -/
def IsNumber (text : List Char) : Prop :=
  ∃ digits, text = ':' :: digits ∧ digits ≠ [] ∧ ∀ d ∈ digits, isDigit d = true

theorem exists_digits (text : List Char) : (∀ d ∈ text, isDigit d = true) ∨
    ∃ pre c digits, text = pre ++ c :: digits ∧ isDigit c = false ∧
      ∀ d ∈ digits, isDigit d = true := by
  induction text using List.reverseRecOn with
  | nil => exact Or.inl fun _ h => absurd h List.not_mem_nil
  | append_singleton text a ih =>
    cases ha : isDigit a with
    | false => exact Or.inr ⟨text, a, [], rfl, ha, fun _ h => absurd h List.not_mem_nil⟩
    | true =>
      rcases ih with hall | ⟨pre, c, digits, rfl, hc, hdigits⟩
      · left
        intro d hd
        rcases List.mem_append.mp hd with h | h
        · exact hall d h
        · rwa [List.mem_singleton.mp h]
      · refine Or.inr ⟨pre, c, digits ++ [a], List.append_assoc .., hc, fun d hd => ?_⟩
        rcases List.mem_append.mp hd with h | h
        · exact hdigits d h
        · rwa [List.mem_singleton.mp h]

/-- The scan back over digits ends at what is not one. -/
theorem backOverDigits_eq {t pre digits rest : List Char} {c : Char}
    (ht : t = pre ++ c :: (digits ++ rest)) (hc : isDigit c = false)
    (hdigits : ∀ d ∈ digits, isDigit d = true) {k : ℕ} (hk : k ≤ digits.length) :
    backOverDigits t (pre.length + k) = .returned pre.length := by
  induction k with
  | zero =>
    have hget : t[pre.length]? = some c := by
      rw [ht, List.getElem?_append_right le_rfl, Nat.sub_self]
      rfl
    rw [Nat.add_zero]
    cases hlength : pre.length with
    | zero => rfl
    | succ n =>
      rw [backOverDigits, read_of_getElem? (hlength ▸ hget), Outcome.returned_bind, hc]
      rfl
  | succ k ih =>
    have hget : t[pre.length + k + 1]? = some digits[k] := by
      rw [ht, List.getElem?_append_right (by omega), show pre.length + k + 1 - pre.length = k + 1 by
        omega, List.getElem?_cons_succ, List.getElem?_append_left (by omega),
        List.getElem?_eq_getElem]
    rw [← Nat.add_assoc, backOverDigits, read_of_getElem? hget, Outcome.returned_bind,
      hdigits _ (List.getElem_mem _)]
    exact ih (by omega)

theorem backOverDigits_all {digits rest : List Char} (hdigits : ∀ d ∈ digits, isDigit d = true)
    {k : ℕ} (hk : k < digits.length) : backOverDigits (digits ++ rest) k = .returned 0 := by
  induction k with
  | zero => rfl
  | succ k ih =>
    have hget : (digits ++ rest)[k + 1]? = some digits[k + 1] := by
      rw [List.getElem?_append_left hk, List.getElem?_eq_getElem]
    rw [backOverDigits, read_of_getElem? hget, Outcome.returned_bind,
      hdigits _ (List.getElem_mem _)]
    exact ih (by omega)

theorem skipDigits_natCast (t : List Char) (back : ℕ) :
    skipDigits t (back : ℤ) = do return ((← backOverDigits t back : ℕ) : ℤ) := rfl

theorem splitRounds_nil (n : ℕ) (t : List Char) (info : AddressInfo) :
    splitRounds (n + 1) t (-1) info = .stopped .token := rfl

/-- What a round has read. -/
def AddressInfo.shift (info : AddressInfo) (digits : List Char) : AddressInfo :=
  { info with column := info.line, line := toInt (internalSimpleStrtoll digits).1 }

/-- A round cuts off the number at the end. -/
theorem splitRounds_number (n : ℕ) {pre digits : List Char} (hnul : nul ∉ digits)
    (hne : digits ≠ []) (hdigits : ∀ d ∈ digits, isDigit d = true) (junk : List Char)
    (info : AddressInfo) :
    splitRounds (n + 1) (pre ++ ':' :: digits ++ nul :: junk)
        ((pre ++ ':' :: digits).length - 1) info =
      splitRounds n (pre ++ nul :: (digits ++ nul :: junk)) (pre.length - 1)
        (info.shift digits) := by
  obtain ⟨d, tail, rfl⟩ := List.exists_cons_of_ne_nil hne
  have ht : pre ++ ':' :: (d :: tail) ++ nul :: junk =
      pre ++ ':' :: ((d :: tail) ++ nul :: junk) := List.append_assoc ..
  have hback : (((pre ++ ':' :: d :: tail).length : ℤ) - 1) =
      ((pre.length + (d :: tail).length : ℕ) : ℤ) := by
    rw [List.length_append, List.length_cons]
    push_cast
    ring
  have hcolon : (pre ++ ':' :: ((d :: tail) ++ nul :: junk)).drop pre.length =
      ':' :: ((d :: tail) ++ nul :: junk) := List.drop_left
  have hahead : Ahead (pre ++ ':' :: ((d :: tail) ++ nul :: junk)) (pre.length + 1) (d :: tail)
      junk := ⟨drop_succ hcolon, hnul⟩
  have hwrite :
      write OutputFault.token (pre ++ ':' :: ((d :: tail) ++ nul :: junk)) pre.length nul =
        .returned (pre ++ nul :: ((d :: tail) ++ nul :: junk)) := by
    unfold write
    rw [if_pos (by rw [List.length_append, List.length_cons]; omega),
      List.set_append_right _ _ le_rfl, Nat.sub_self]
    rfl
  have hnext : ((pre.length : ℤ) + 1) = ((pre.length + 1 : ℕ) : ℤ) := rfl
  rw [ht, hback, splitRounds, skipDigits_natCast, backOverDigits_eq rfl (by decide) hdigits le_rfl]
  simp only [Outcome.returned_bind, Outcome.pure_eq]
  rw [readAt_natCast, read_eq hcolon, Outcome.returned_bind, if_neg (not_not.mpr rfl), hnext,
    readAt_natCast, read_eq hahead.drop_eq, Outcome.returned_bind, hdigits d List.mem_cons_self,
    Int.toNat_natCast, Int.toNat_natCast, cString_eq hahead]
  simp only [Outcome.returned_bind, hwrite]
  rfl

/-- A round leaves a text alone that does not end in a colon and a number. -/
theorem splitRounds_stop (n : ℕ) {text : List Char} (hne : text ≠ []) (hend : ¬ EndsInNumber text)
    (junk : List Char) (info : AddressInfo) :
    splitRounds (n + 1) (text ++ nul :: junk) (text.length - 1) info =
      .returned (text ++ nul :: junk, info) := by
  have hpos := List.length_pos_of_ne_nil hne
  have hback : ((text.length : ℤ) - 1) = ((text.length - 1 : ℕ) : ℤ) := by omega
  rw [hback, splitRounds, skipDigits_natCast]
  rcases exists_digits text with hall | ⟨pre, c, digits, rfl, hc, hdigits⟩
  · -- The first character is a digit, and no colon.
    obtain ⟨d, tail, rfl⟩ := List.exists_cons_of_ne_nil hne
    have hcolon : d ≠ ':' := by
      rintro rfl
      exact absurd (hall ':' List.mem_cons_self) (by decide)
    rw [backOverDigits_all hall (by omega)]
    simp only [Outcome.returned_bind, Outcome.pure_eq]
    rw [readAt_natCast, read_of_getElem? (a := d) rfl, Outcome.returned_bind, if_pos hcolon]
  · have hlength : (pre ++ c :: digits).length - 1 = pre.length + digits.length := by
      rw [List.length_append, List.length_cons]
      omega
    have ht : pre ++ c :: digits ++ nul :: junk = pre ++ c :: (digits ++ nul :: junk) :=
      List.append_assoc ..
    have hdrop : (pre ++ c :: (digits ++ nul :: junk)).drop pre.length =
        c :: (digits ++ nul :: junk) := List.drop_left
    rw [hlength, ht, backOverDigits_eq rfl hc hdigits le_rfl]
    simp only [Outcome.returned_bind, Outcome.pure_eq]
    rw [readAt_natCast, read_eq hdrop, Outcome.returned_bind]
    rcases eq_or_ne c ':' with rfl | hcolon
    · -- There is no digit behind the colon.
      have hnil : digits = [] := by
        by_contra hdig
        exact hend ⟨pre, digits, rfl, hdig, hdigits⟩
      subst hnil
      have hnext : ((pre.length : ℤ) + 1) = ((pre.length + 1 : ℕ) : ℤ) := rfl
      have hnul : (pre ++ ':' :: ([] ++ nul :: junk)).drop (pre.length + 1) = nul :: junk :=
        drop_succ hdrop
      rw [if_neg (not_not.mpr rfl), hnext, readAt_natCast, read_eq hnul, Outcome.returned_bind]
      rfl
    · rw [if_pos hcolon]

theorem splitRounds_spec {text : List Char} (hnul : nul ∉ text) (hne : text ≠ [])
    (hnumber : ¬ IsNumber text) (info : AddressInfo) :
    ∃ file junk info', splitRounds 2 (text ++ [nul]) (text.length - 1) info =
      .returned (file ++ nul :: junk, info') ∧ nul ∉ file ∧ info'.function = info.function := by
  by_cases hend : EndsInNumber text
  · obtain ⟨pre, digits, rfl, hdig, hdigits⟩ := hend
    have hpre : pre ≠ [] := by
      rintro rfl
      exact hnumber ⟨digits, rfl, hdig, hdigits⟩
    rw [List.mem_append, List.mem_cons, not_or, not_or] at hnul
    rw [splitRounds_number 1 hnul.2.2 hdig hdigits]
    by_cases hend : EndsInNumber pre
    · obtain ⟨pre, digits', rfl, hdig', hdigits'⟩ := hend
      rw [List.mem_append, List.mem_cons, not_or, not_or] at hnul
      rw [splitRounds_number 0 hnul.1.2.2 hdig' hdigits']
      exact ⟨pre, _, _, rfl, hnul.1.1, rfl⟩
    · rw [splitRounds_stop 0 hpre hend]
      exact ⟨pre, _, _, rfl, hnul.1, rfl⟩
  · rw [splitRounds_stop 1 hne hend]
    exact ⟨text, [], info, rfl, hnul, rfl⟩

/-- A name is null, or the array of a string. -/
def Named (name : Option (List Char)) : Prop :=
  ∀ array ∈ name, ∃ text, array = text ++ [nul] ∧ nul ∉ text

/-- `ParseFileLineInfo` on a line that is not a colon and a number. -/
theorem parseFileLineInfo_eq (h : Ahead str pos text junk)
    (hnumber : ¬ IsNumber (upTo [newline] text)) (info : AddressInfo) (hfile : Named info.file) :
    ∃ info' next, parseFileLineInfo str pos info = .returned (info', next) ∧
      Ahead str next (after [newline] text) junk ∧ info'.function = info.function ∧
      Named info'.file := by
  obtain ⟨next, hrun, hnext⟩ := extractToken_eq (e := .output) h [newline]
  have hnul : nul ∉ upTo [newline] text := fun hmem => h.nul_notMem (of_mem_upTo hmem).1
  unfold parseFileLineInfo
  rw [hrun, Outcome.returned_bind]
  dsimp only
  rw [cString_eq (ahead_zero hnul), Outcome.returned_bind]
  rcases eq_or_ne (upTo [newline] text) [] with hnil | hne
  · rw [if_neg (by rw [hnil]; decide)]
    exact ⟨info, next, rfl, hnext, rfl, hfile⟩
  · obtain ⟨file, junk', info', hsplit, hname, hfun⟩ := splitRounds_spec hnul hne hnumber info
    have hcopy : Ahead (file ++ nul :: junk') 0 file junk' := ⟨rfl, hname⟩
    obtain ⟨_, htoken, -⟩ := extractToken_eq (e := .token) hcopy []
    rw [if_pos (List.length_pos_of_ne_nil hne).ne']
    rw [hsplit, Outcome.returned_bind]
    dsimp only
    rw [htoken]
    refine ⟨_, next, rfl, hnext, hfun, fun array harray => ?_⟩
    obtain rfl := Option.some.inj harray
    exact ⟨upTo [] file, rfl, fun hmem => hname (of_mem_upTo hmem).1⟩

theorem parseFileLineInfo_number (h : Ahead str pos text junk)
    (hnumber : IsNumber (upTo [newline] text)) (info : AddressInfo) :
    parseFileLineInfo str pos info = .stopped .token := by
  obtain ⟨next, hrun, hnext⟩ := extractToken_eq (e := .output) h [newline]
  have hnul : nul ∉ upTo [newline] text := fun hmem => h.nul_notMem (of_mem_upTo hmem).1
  obtain ⟨digits, hline, hne, hdigits⟩ := hnumber
  have hsplit := @splitRounds_number 1 [] digits
    (fun hmem => hnul (hline ▸ List.mem_cons_of_mem _ hmem)) hne hdigits [] info
  rw [List.nil_append, ← hline, List.length_nil] at hsplit
  unfold parseFileLineInfo
  rw [hrun, Outcome.returned_bind]
  dsimp only
  rw [cString_eq (ahead_zero hnul), Outcome.returned_bind,
    if_pos (by rw [hline]; exact Nat.succ_ne_zero _)]
  rw [hsplit]
  rfl

end Tasan.Symbolizer
