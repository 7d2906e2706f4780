import Mathlib.Data.List.TakeWhile
import Tasan.Format.Model

/-!
# Reading format strings to their end

The parsers read behind the NUL exactly when a directive breaks off before its conversion specifier: after
the `%` come an index, flags, a width, a precision and a length modifier, each of which may be missing, and
then the NUL (`ScanfUnfinished`, `PrintfUnfinished`). `char_is_one_of` takes the NUL for a length modifier
and for a flag, and a length modifier at the end of the string makes the NUL the conversion specifier.
The parsers follow the grammar piece by piece, and the pieces are determined by the text, so that the two
agree (`scanfUnfinished_iff`, `printfUnfinished_iff`).
-/

namespace Tasan.Format

open FlagParser (nul)

/-! ## The pieces of a directive -/

/-- An index `n$`, or none. -/
def IsIndex (l : List Char) : Prop :=
  l = [] ∨ ∃ digits, digits ≠ [] ∧ (∀ c ∈ digits, isDigit c = true) ∧ l = digits ++ ['$']

/-- The length modifiers, and none. -/
def lengthModifiers : List (List Char) :=
  [[], ['j'], ['z'], ['t'], ['L'], ['q'], ['h'], ['h', 'h'], ['l'], ['l', 'l']]

theorem of_mem_lengthModifiers : ∀ len ∈ lengthModifiers, ∀ c ∈ len, isDigit c = false ∧
    c ≠ '$' ∧ c ≠ '*' ∧ c ≠ 'm' ∧ c ≠ '.' ∧ charIsOneOf c printfFlags = false ∧ c ≠ nul := by
  have hall : lengthModifiers.all (fun len => len.all fun c => isDigit c = false ∧
    c ≠ '$' ∧ c ≠ '*' ∧ c ≠ 'm' ∧ c ≠ '.' ∧ charIsOneOf c printfFlags = false ∧ c ≠ nul) := by decide
  simpa only [List.all_eq_true, decide_eq_true_eq] using hall

theorem eq_cons_of_peek {p : List Char} {c : Char} (h : peek p = c) (hc : c ≠ nul) :
    p = c :: p.tail := by
  cases p with
  | nil => exact absurd h.symm hc
  | cons d p => exact congrArg (· :: p) h

theorem ne_nil_of_isDigit_peek {p : List Char} (h : isDigit (peek p) = true) : p ≠ [] := by
  rintro rfl
  exact absurd h (by decide)

theorem isDigit_dollar : isDigit '$' = false := by decide

/-- After the digits of a text there is no dollar sign when there is none in it, or none right after the
part of it without one. -/
theorem peek_dropWhile_ne_dollar {a b : List Char} (ha : ∀ c ∈ a, c ≠ '$')
    (hb : peek (b.dropWhile isDigit) ≠ '$') : peek ((a ++ b).dropWhile isDigit) ≠ '$' := by
  induction a with
  | nil => exact hb
  | cons c a ih =>
    rw [List.cons_append]
    cases hc : isDigit c with
    | true =>
      rw [List.dropWhile_cons_of_pos hc]
      exact ih fun d hd => ha d (List.mem_cons_of_mem _ hd)
    | false =>
      rw [List.dropWhile_cons_of_neg (by rw [hc]; decide)]
      exact ha c List.mem_cons_self

theorem exists_index (p : List Char) (out : ℤ) :
    ∃ index, IsIndex index ∧ p = index ++ (maybeParseParamIndex p out).1 := by
  unfold maybeParseParamIndex parseNumber
  dsimp only
  split_ifs with hdigit hdollar
  · refine ⟨p.takeWhile isDigit ++ ['$'], Or.inr ⟨p.takeWhile isDigit, ?_, ?_, rfl⟩, ?_⟩
    · obtain ⟨c, p, rfl⟩ := List.exists_cons_of_ne_nil (ne_nil_of_isDigit_peek hdigit)
      rw [List.takeWhile_cons_of_pos (show isDigit c = true from hdigit)]
      exact List.cons_ne_nil _ _
    · exact fun c hc => List.mem_takeWhile_imp hc
    · rw [List.append_assoc, List.singleton_append, ← eq_cons_of_peek hdollar (by decide),
        List.takeWhile_append_dropWhile]
  · exact ⟨[], Or.inl rfl, rfl⟩
  · exact ⟨[], Or.inl rfl, rfl⟩

theorem maybeParseParamIndex_append {index rest : List Char} (hindex : IsIndex index)
    (hrest : peek (rest.dropWhile isDigit) ≠ '$') (out : ℤ) :
    (maybeParseParamIndex (index ++ rest) out).1 = rest := by
  unfold maybeParseParamIndex parseNumber
  dsimp only
  rcases hindex with rfl | ⟨digits, hne, hdigits, rfl⟩
  · rw [List.nil_append, if_neg hrest]
    split_ifs <;> rfl
  · obtain ⟨c, digits, rfl⟩ := List.exists_cons_of_ne_nil hne
    have hdrop : ((c :: digits) ++ ['$'] ++ rest).dropWhile isDigit = '$' :: rest := by
      rw [List.append_assoc, List.dropWhile_append_of_pos hdigits, List.singleton_append,
        List.dropWhile_cons_of_neg (by rw [isDigit_dollar]; decide)]
    rw [hdrop, if_pos (show isDigit (peek ((c :: digits) ++ ['$'] ++ rest)) = true from
      hdigits c List.mem_cons_self), if_pos (show peek ('$' :: rest) = '$' from rfl)]
    rfl

theorem dropWhile_digits {digits rest : List Char} (hdigits : ∀ c ∈ digits, isDigit c = true)
    (hrest : isDigit (peek rest) = false) : (digits ++ rest).dropWhile isDigit = rest := by
  rw [List.dropWhile_append_of_pos hdigits]
  cases rest with
  | nil => rfl
  | cons c rest => exact List.dropWhile_cons_of_neg (by rw [show isDigit c = false from hrest]; decide)

theorem takeWhile_digits {digits rest : List Char} (hdigits : ∀ c ∈ digits, isDigit c = true)
    (hrest : isDigit (peek rest) = false) : (digits ++ rest).takeWhile isDigit = digits := by
  rw [List.takeWhile_append_of_pos hdigits]
  cases rest with
  | nil => rw [List.takeWhile_nil, List.append_nil]
  | cons c rest =>
    rw [List.takeWhile_cons_of_neg (by rw [show isDigit c = false from hrest]; decide),
      List.append_nil]

theorem dropWhile_of_not_isDigit {p : List Char} (h : isDigit (peek p) = false) :
    p.dropWhile isDigit = p := by
  have hnone : ∀ c ∈ ([] : List Char), isDigit c = true := nofun
  exact dropWhile_digits hnone h

/-- What a length modifier leaves: nothing behind the end of the string, the end of the string, or more. -/
theorem maybeParseLengthModifier_cases {p : List Char} (hnul : nul ∉ p) :
    p ∈ lengthModifiers ∧ ((maybeParseLengthModifier p).1 = .behind ∨
      (maybeParseLengthModifier p).1 = .at []) ∨
    p ∉ lengthModifiers ∧ ∃ len c q, len ∈ lengthModifiers ∧ p = len ++ c :: q ∧
      (maybeParseLengthModifier p).1 = .at (c :: q) := by
  cases p with
  | nil => exact Or.inl ⟨by decide, Or.inl rfl⟩
  | cons c p =>
    have hc : c ≠ nul := fun h => hnul (h ▸ List.mem_cons_self)
    obtain ⟨r, hr⟩ : ∃ r, maybeParseLengthModifier (c :: p) = r := ⟨_, rfl⟩
    rw [hr]
    unfold maybeParseLengthModifier at hr
    have hpeek : peek (c :: p) = c := rfl
    simp only [hpeek, List.tail_cons] at hr
    split_ifs at hr with hone hh hhh hl hll
    · -- One letter.
      have hmem : c = 'j' ∨ c = 'z' ∨ c = 't' ∨ c = 'L' ∨ c = 'q' := by
        simpa [charIsOneOf, hc] using hone
      subst hr
      cases p with
      | nil => exact Or.inl ⟨by rcases hmem with rfl | rfl | rfl | rfl | rfl <;> decide, Or.inr rfl⟩
      | cons d q =>
        refine Or.inr ⟨?_, [c], d, q, ?_, rfl, rfl⟩
        · rcases hmem with rfl | rfl | rfl | rfl | rfl <;> simp [lengthModifiers]
        · rcases hmem with rfl | rfl | rfl | rfl | rfl <;> decide
    · -- Two letters `h`.
      subst hr hh
      rw [eq_cons_of_peek hhh (by decide)]
      cases p.tail with
      | nil => exact Or.inl ⟨by decide, Or.inr rfl⟩
      | cons d q => exact Or.inr ⟨by simp [lengthModifiers], ['h', 'h'], d, q, by decide, rfl, rfl⟩
    · -- One letter `h`.
      subst hr hh
      cases p with
      | nil => exact Or.inl ⟨by decide, Or.inr rfl⟩
      | cons d q =>
        have hd : d ≠ 'h' := hhh
        exact Or.inr ⟨by simp [lengthModifiers, hd], ['h'], d, q, by decide, rfl, congrArg Prod.fst (if_neg hhh)⟩
    · -- Two letters `l`.
      subst hr hl
      rw [eq_cons_of_peek hll (by decide)]
      cases p.tail with
      | nil => exact Or.inl ⟨by decide, Or.inr rfl⟩
      | cons d q => exact Or.inr ⟨by simp [lengthModifiers], ['l', 'l'], d, q, by decide, rfl, rfl⟩
    · -- One letter `l`.
      subst hr hl
      cases p with
      | nil => exact Or.inl ⟨by decide, Or.inr rfl⟩
      | cons d q =>
        have hd : d ≠ 'l' := hll
        exact Or.inr ⟨by simp [lengthModifiers, hd], ['l'], d, q, by decide, rfl, congrArg Prod.fst (if_neg hll)⟩
    · -- No length modifier.
      subst hr
      have hnone : c ≠ 'j' ∧ c ≠ 'z' ∧ c ≠ 't' ∧ c ≠ 'L' ∧ c ≠ 'q' := by
        simpa [charIsOneOf, hc] using hone
      exact Or.inr ⟨by simp [lengthModifiers, hnone, hh, hl], [], c, p, by decide, rfl, rfl⟩

theorem suffix_of_consumeSet {stop : Char → Bool} {p q : List Char} (h : consumeSet stop p = some q) :
    q <:+ p := by
  unfold consumeSet at h
  dsimp only at h
  have htail : ∀ (l : List Char) (c : Char), (if peek l = c then l.tail else l) <:+ l := by
    intro l c
    split_ifs
    · exact List.tail_suffix l
    · exact List.suffix_refl l
  split at h
  · exact absurd h nofun
  · rename_i c r hdrop
    split_ifs at h
    obtain rfl := Option.some.inj h
    have hsuffix := List.dropWhile_suffix (fun c => c ≠ ']' && !stop c)
      (l := if peek (if peek p = '^' then p.tail else p) = ']' then
        (if peek p = '^' then p.tail else p).tail else if peek p = '^' then p.tail else p)
    rw [hdrop] at hsuffix
    exact (List.suffix_cons c r).trans (hsuffix.trans ((htail _ _).trans (htail _ _)))

theorem suffix_of_consumeGnuMalloc {p q : List Char} {gnu : Bool}
    (h : consumeGnuMalloc p = some (gnu, q)) : q <:+ p := by
  unfold consumeGnuMalloc at h
  split_ifs at h
  · obtain ⟨-, rfl⟩ := Prod.mk.inj (Option.some.inj h)
    exact List.tail_suffix p
  · obtain ⟨r, hset, hr⟩ := Option.map_eq_some_iff.mp h
    obtain ⟨-, rfl⟩ := Prod.mk.inj hr
    exact (suffix_of_consumeSet hset).trans (List.tail_suffix p)
  · obtain ⟨-, rfl⟩ := Prod.mk.inj (Option.some.inj h)
    exact List.suffix_refl _

/-- The result of a parser is safe: null, or a pointer to some end of the text, and to the end of the string
when there is no conversion specifier. -/
def Safe {δ : Type} [Directive δ] (text : List Char) (r : Except Fault (Option Pointer × δ)) : Prop :=
  ∃ q dir, r = .ok (q, dir) ∧ (q = none ∨ ∃ p, q = some (.at p) ∧ p <:+ text ∧
    (Directive.convSpecifier dir = nul → p = []))

theorem scanfConversion_at {c : Char} {p : List Char} (hc : c ≠ nul) (allowGnuMalloc : Bool)
    (dir : ScanfDirective) : Safe p (scanfConversion allowGnuMalloc (.at (c :: p)) dir) := by
  change Safe p (if c = '[' then _ else if _ then _ else _)
  split_ifs with hset hgnu
  · refine ⟨_, _, rfl, ?_⟩
    cases hp : consumeSet (fun _ => false) p with
    | none => exact Or.inl rfl
    | some q => exact Or.inr ⟨q, rfl, suffix_of_consumeSet hp, fun h => absurd h hc⟩
  · cases hp : consumeGnuMalloc p with
    | none => exact ⟨_, _, rfl, Or.inl rfl⟩
    | some r => exact ⟨_, _, rfl, Or.inr ⟨r.2, rfl, suffix_of_consumeGnuMalloc hp, fun h => absurd h hc⟩⟩
  · exact ⟨_, _, rfl, Or.inr ⟨p, rfl, List.suffix_refl p, fun h => absurd h hc⟩⟩

theorem scanfConversion_end {p : Pointer} (hp : p = .behind ∨ p = .at []) (allowGnuMalloc : Bool)
    (dir : ScanfDirective) (text : List Char) : ¬ Safe text (scanfConversion allowGnuMalloc p dir) := by
  rcases hp with rfl | rfl
  · rintro ⟨q, dir', h, -⟩
    exact absurd h nofun
  · rintro ⟨q, dir', h, rfl | ⟨p, rfl, -⟩⟩
    · exact absurd h nofun
    · exact absurd h nofun

theorem Safe.mono {δ : Type} [Directive δ] {text text' : List Char}
    {r : Except Fault (Option Pointer × δ)} (h : Safe text r) (hsuffix : text <:+ text') :
    Safe text' r := by
  obtain ⟨q, dir, hr, hq⟩ := h
  refine ⟨q, dir, hr, hq.imp_right ?_⟩
  rintro ⟨p, rfl, hp, hconv⟩
  exact ⟨p, rfl, hp.trans hsuffix, hconv⟩

/-! ## scanf -/

/-- A directive of `scanf` that breaks off before its conversion specifier: after the `%` there are an
index, `*`, a positive width, `m` and a length modifier, or some of them, and then the NUL. -/
def ScanfUnfinished (text : List Char) : Prop :=
  ∃ index star width m len, text = index ++ (star ++ (width ++ (m ++ len))) ∧ IsIndex index ∧
    (star = [] ∨ star = ['*']) ∧ (∀ c ∈ width, isDigit c = true) ∧
    (width = [] ∨ 0 < toInt (internalAtoll width)) ∧ (m = [] ∨ m = ['m']) ∧ len ∈ lengthModifiers

/-- What `scanf_parse_next` has left after the index and the star. -/
def afterStar (p : List Char) : List Char :=
  let p := (maybeParseParamIndex p (-1)).1
  if peek p = '*' then p.tail else p

/-- What `scanf_parse_next` has left before the length modifier. -/
def beforeLength (p : List Char) : List Char :=
  let p := (afterStar p).dropWhile isDigit
  if peek p = 'm' then p.tail else p

/-- `scanf_parse_next` does not accept the width. -/
def badWidth (p : List Char) : Bool :=
  isDigit (peek (afterStar p)) && toInt (internalAtoll (afterStar p)) ≤ 0

theorem scanfDirective_eq (allowGnuMalloc : Bool) (p : List Char) :
    ∃ dir dir', scanfDirective allowGnuMalloc p = if badWidth p then .ok (none, dir) else
      scanfConversion allowGnuMalloc (maybeParseLengthModifier (beforeLength p)).1 dir' := by
  unfold scanfDirective badWidth beforeLength afterStar
  rcases maybeParseParamIndex p (-1) with ⟨q, argIdx⟩
  dsimp only
  generalize (if peek q = '*' then q.tail else q) = r
  cases hdigit : isDigit (peek r) with
  | true =>
    simp only [if_true]
    exact ⟨_, _, rfl⟩
  | false =>
    rw [dropWhile_of_not_isDigit hdigit]
    exact ⟨.empty, _, rfl⟩

theorem ne_dollar_of_scanf_pieces {star width m len : List Char} (hstar : star = [] ∨ star = ['*'])
    (hwidth : ∀ c ∈ width, isDigit c = true) (hm : m = [] ∨ m = ['m']) (hlen : len ∈ lengthModifiers) :
    ∀ c ∈ star ++ (width ++ (m ++ len)), c ≠ '$' := by
  intro c hc
  simp only [List.mem_append] at hc
  rcases hc with hc | hc | hc | hc
  · rcases hstar with rfl | rfl
    · exact absurd hc List.not_mem_nil
    · rw [List.mem_singleton.mp hc]
      decide
  · rintro rfl
    exact absurd (hwidth _ hc) (by decide)
  · rcases hm with rfl | rfl
    · exact absurd hc List.not_mem_nil
    · rw [List.mem_singleton.mp hc]
      decide
  · exact (of_mem_lengthModifiers len hlen c hc).2.1

theorem peek_lengthModifier {len : List Char} (hlen : len ∈ lengthModifiers) :
    isDigit (peek len) = false ∧ peek len ≠ '*' ∧ peek len ≠ 'm' ∧ peek len ≠ '.' ∧
      peek (len.dropWhile isDigit) ≠ '$' := by
  revert len
  decide

/-- The directives of `scanf` that break off, by what is left at each piece. -/
theorem scanfUnfinished_iff (p : List Char) :
    ScanfUnfinished p ↔ badWidth p = false ∧ beforeLength p ∈ lengthModifiers := by
  constructor
  · rintro ⟨index, star, width, m, len, rfl, hindex, hstar, hwidth, hpos, hm, hlen⟩
    obtain ⟨hdigit, hnostar, hnom, -, -⟩ := peek_lengthModifier hlen
    have hdollar := peek_dropWhile_ne_dollar (b := [])
      (ne_dollar_of_scanf_pieces hstar hwidth hm hlen) (by decide)
    rw [List.append_nil] at hdollar
    have hmlen : isDigit (peek (m ++ len)) = false ∧ peek (m ++ len) ≠ '*' := by
      rcases hm with rfl | rfl
      · exact ⟨hdigit, hnostar⟩
      · exact ⟨show isDigit 'm' = false by decide, show 'm' ≠ '*' by decide⟩
    have hstar' : afterStar (index ++ (star ++ (width ++ (m ++ len)))) = width ++ (m ++ len) := by
      unfold afterStar
      rw [maybeParseParamIndex_append hindex hdollar]
      rcases hstar with rfl | rfl
      · dsimp only
        rw [List.nil_append, if_neg]
        cases width with
        | nil => exact hmlen.2
        | cons c width =>
          rintro rfl
          exact absurd (hwidth _ List.mem_cons_self) (by decide)
      · exact if_pos rfl
    have hbefore : beforeLength (index ++ (star ++ (width ++ (m ++ len)))) = len := by
      unfold beforeLength
      rw [hstar', dropWhile_digits hwidth hmlen.1]
      rcases hm with rfl | rfl
      · exact if_neg hnom
      · exact if_pos rfl
    refine ⟨?_, hbefore.symm ▸ hlen⟩
    unfold badWidth
    rw [hstar']
    rcases hpos with rfl | hpos
    · rw [List.nil_append, hmlen.1, Bool.false_and]
    · have hvalue : internalAtoll (width ++ (m ++ len)) = internalAtoll width := by
        unfold internalAtoll
        rw [takeWhile_digits hwidth hmlen.1, List.takeWhile_eq_self_iff.mpr hwidth]
      rw [hvalue, decide_eq_false (not_le.mpr hpos), Bool.and_false]
  · rintro ⟨hwidth, hlen⟩
    obtain ⟨index, hindex, hp⟩ := exists_index p (-1)
    obtain ⟨star, hstar, hq⟩ : ∃ star, (star = [] ∨ star = ['*']) ∧
        (maybeParseParamIndex p (-1)).1 = star ++ afterStar p := by
      unfold afterStar
      dsimp only
      split_ifs with h
      · exact ⟨['*'], Or.inr rfl, eq_cons_of_peek h (by decide)⟩
      · exact ⟨[], Or.inl rfl, rfl⟩
    obtain ⟨m, hm, hr⟩ : ∃ m, (m = [] ∨ m = ['m']) ∧
        (afterStar p).dropWhile isDigit = m ++ beforeLength p := by
      unfold beforeLength
      dsimp only
      split_ifs with h
      · exact ⟨['m'], Or.inr rfl, eq_cons_of_peek h (by decide)⟩
      · exact ⟨[], Or.inl rfl, rfl⟩
    refine ⟨index, star, (afterStar p).takeWhile isDigit, m, beforeLength p, ?_, hindex, hstar,
      fun c hc => List.mem_takeWhile_imp hc, ?_, hm, hlen⟩
    · rw [← hr, List.takeWhile_append_dropWhile, ← hq, ← hp]
    · cases hdigit : isDigit (peek (afterStar p)) with
      | false =>
        left
        cases h : afterStar p with
        | nil => rfl
        | cons c q =>
          rw [h] at hdigit
          exact List.takeWhile_cons_of_neg (by rw [show isDigit c = false from hdigit]; decide)
      | true =>
        right
        unfold badWidth at hwidth
        rw [hdigit, Bool.true_and, decide_eq_false_iff_not, not_le] at hwidth
        have hvalue : internalAtoll ((afterStar p).takeWhile isDigit) =
            internalAtoll (afterStar p) := by
          unfold internalAtoll
          rw [List.takeWhile_eq_self_iff.mpr fun c hc => List.mem_takeWhile_imp hc]
        rw [hvalue]
        exact hwidth

theorem beforeLength_suffix (p : List Char) : beforeLength p <:+ p := by
  obtain ⟨index, -, hp⟩ := exists_index p (-1)
  have h1 : (maybeParseParamIndex p (-1)).1 <:+ p := ⟨index, hp.symm⟩
  have h2 : afterStar p <:+ p := by
    unfold afterStar
    dsimp only
    split_ifs
    · exact (List.tail_suffix _).trans h1
    · exact h1
  unfold beforeLength
  dsimp only
  split_ifs
  · exact (List.tail_suffix _).trans ((List.dropWhile_suffix _).trans h2)
  · exact (List.dropWhile_suffix _).trans h2

theorem scanfDirective_safe_iff (allowGnuMalloc : Bool) {p text : List Char} (hnul : nul ∉ p)
    (htext : p <:+ text) : Safe text (scanfDirective allowGnuMalloc p) ↔ ¬ ScanfUnfinished p := by
  obtain ⟨dir, dir', heq⟩ := scanfDirective_eq allowGnuMalloc p
  rw [heq, scanfUnfinished_iff]
  cases badWidth p with
  | true => exact iff_of_true ⟨_, _, rfl, Or.inl rfl⟩ (by rintro ⟨h, -⟩; exact absurd h (by decide))
  | false =>
    rw [if_neg (by decide)]
    have hsuffix := beforeLength_suffix p
    rcases maybeParseLengthModifier_cases (fun h => hnul (hsuffix.mem h)) with
      ⟨hlen, hend⟩ | ⟨hlen, len, c, q, -, hq, hat⟩
    · exact iff_of_false (scanfConversion_end hend _ _ _) (not_not.mpr ⟨rfl, hlen⟩)
    · rw [hat]
      have hcq : c :: q <:+ p := List.IsSuffix.trans ⟨len, hq.symm⟩ hsuffix
      have hc : c ≠ nul := fun h => hnul (hcq.mem (h ▸ List.mem_cons_self))
      exact iff_of_true ((scanfConversion_at hc _ _).mono
        ((List.suffix_cons c q).trans (hcq.trans htext))) fun h => hlen h.2

/-! ## printf -/

/-- A flag of `printf`; the NUL counts as one. -/
def isFlag (c : Char) : Bool := charIsOneOf c printfFlags

/-- A width: a star, or digits of which the first is no flag. -/
def IsWidth (l : List Char) : Prop :=
  l = ['*'] ∨ (∀ c ∈ l, isDigit c = true) ∧ peek l ≠ '0'

/-- A precision, or none: a dot with digits, or with a star and its index. -/
def IsPrecision (l : List Char) : Prop :=
  l = [] ∨ (∃ digits, (∀ c ∈ digits, isDigit c = true) ∧ l = '.' :: digits) ∨
    ∃ index, IsIndex index ∧ l = '.' :: '*' :: index

/-- A directive of `printf` that breaks off before its conversion specifier: after the `%` there are an
index, flags, a width, a precision and a length modifier, or some of them, and then the NUL. -/
def PrintfUnfinished (text : List Char) : Prop :=
  ∃ index flags width prec len, text = index ++ (flags ++ (width ++ (prec ++ len))) ∧ IsIndex index ∧
    (∀ c ∈ flags, isFlag c = true) ∧ IsWidth width ∧ IsPrecision prec ∧ len ∈ lengthModifiers

/-- What `printf_parse_next` has left after the index and the flags. -/
def afterFlags (p : List Char) : List Char := (maybeParseParamIndex p (-1)).1.dropWhile isFlag

/-- What `maybe_parse_number_or_star` leaves. -/
def afterNumber (p : List Char) : List Char :=
  if peek p = '*' then p.tail else p.dropWhile isDigit

/-- What is left after the precision. -/
def afterPrecision (p : List Char) : List Char :=
  if peek p = '.' then
    if peek p.tail = '*' then (maybeParseParamIndex p.tail.tail (-1)).1 else p.tail.dropWhile isDigit
  else p

/-- What `printf_parse_next` has left before the length modifier. -/
def printfBeforeLength (p : List Char) : List Char := afterPrecision (afterNumber (afterFlags p))

theorem skipFlags_eq (p : List Char) : skipFlags p =
    if p.dropWhile isFlag = [] then .error .overrun else .ok (p.dropWhile isFlag) := by
  induction p with
  | nil => rfl
  | cons c p ih =>
    rw [skipFlags]
    cases hc : isFlag c with
    | true =>
      rw [if_pos (show charIsOneOf c printfFlags = true from hc), List.dropWhile_cons_of_pos hc]
      exact ih
    | false =>
      rw [if_neg (by rw [show charIsOneOf c printfFlags = false from hc]; decide),
        List.dropWhile_cons_of_neg (by rw [hc]; decide), if_neg (List.cons_ne_nil c p)]

theorem maybeParseNumberOrStar_eq (p : List Char) (out : ℤ) : ∃ number,
    maybeParseNumberOrStar p out = (afterNumber p, number, decide (peek p = '*')) := by
  unfold maybeParseNumberOrStar afterNumber maybeParseNumber parseNumber
  split_ifs with hstar hdigit
  · exact ⟨out, by rw [decide_eq_true hstar]⟩
  · exact ⟨_, by rw [decide_eq_false hstar]⟩
  · rw [dropWhile_of_not_isDigit (Bool.eq_false_of_not_eq_true hdigit)]
    exact ⟨out, by rw [decide_eq_false hstar]⟩

theorem maybeParseParamIndex_fst (p : List Char) (out out' : ℤ) :
    (maybeParseParamIndex p out).1 = (maybeParseParamIndex p out').1 := by
  unfold maybeParseParamIndex
  dsimp only
  split_ifs <;> rfl

theorem parsePrecision_eq (p : List Char) (precisionIdx : ℤ) : ∃ r,
    parsePrecision p precisionIdx = (afterPrecision p, r) := by
  unfold parsePrecision afterPrecision
  split_ifs with hdot hstar
  · obtain ⟨number, hnumber⟩ := maybeParseNumberOrStar_eq p.tail 0
    rw [hnumber, decide_eq_true hstar]
    unfold afterNumber
    rw [if_pos hstar]
    exact ⟨_, Prod.ext (maybeParseParamIndex_fst _ _ _) rfl⟩
  · obtain ⟨number, hnumber⟩ := maybeParseNumberOrStar_eq p.tail 0
    rw [hnumber, decide_eq_false hstar]
    unfold afterNumber
    rw [if_neg hstar]
    exact ⟨_, rfl⟩
  · exact ⟨_, rfl⟩

theorem printfDirective_eq (p : List Char) : ∃ dir : Char → PrintfDirective,
    (∀ c, (dir c).convSpecifier = c) ∧ printfDirective p =
      if afterFlags p = [] then .error .overrun else
        (maybeParseLengthModifier (printfBeforeLength p)).1.next.map fun r => (some r.2, dir r.1) := by
  unfold printfDirective printfBeforeLength
  obtain ⟨width, hwidth⟩ := maybeParseNumberOrStar_eq (afterFlags p) 0
  obtain ⟨prec, hprec⟩ :=
    parsePrecision_eq (afterNumber (afterFlags p)) (maybeParseParamIndex p (-1)).2
  dsimp only
  rw [skipFlags_eq]
  rw [show (maybeParseParamIndex p (-1)).1.dropWhile isFlag = afterFlags p from rfl]
  rcases eq_or_ne (afterFlags p) [] with hflags | hflags
  · simp only [if_pos hflags]
    exact ⟨fun c => { PrintfDirective.empty with convSpecifier := c }, fun _ => rfl, rfl⟩
  · simp only [if_neg hflags, Bind.bind, Except.bind, hwidth, hprec]
    rcases (maybeParseLengthModifier (afterPrecision (afterNumber (afterFlags p)))).1 with q | _
    · exact ⟨_, fun _ => rfl, rfl⟩
    · exact ⟨fun c => { PrintfDirective.empty with convSpecifier := c }, fun _ => rfl, rfl⟩

theorem isFlag_of_isDigit {c : Char} (h : isDigit c = true) (h0 : c ≠ '0') : isFlag c = false := by
  rw [← Bool.not_eq_true]
  intro hflag
  simp only [isFlag, charIsOneOf, printfFlags, List.cons_append, List.nil_append,
    List.contains_eq_mem, List.mem_cons, List.not_mem_nil, or_false, decide_eq_true_eq] at hflag
  rcases hflag with rfl | rfl | rfl | rfl | rfl | rfl | rfl
  · exact absurd h (by decide)
  · exact absurd h (by decide)
  · exact absurd h (by decide)
  · exact absurd h (by decide)
  · exact absurd h (by decide)
  · exact h0 rfl
  · exact absurd h (by decide)

theorem dropWhile_isFlag {p : List Char} (h : p = [] ∨ isFlag (peek p) = false) :
    p.dropWhile isFlag = p := by
  cases p with
  | nil => rfl
  | cons c p =>
    have hc : isFlag c = false := h.resolve_left (List.cons_ne_nil c p)
    exact List.dropWhile_cons_of_neg (by rw [hc]; decide)

theorem peek_precision {prec len : List Char} (hprec : IsPrecision prec)
    (hlen : len ∈ lengthModifiers) : isDigit (peek (prec ++ len)) = false ∧ peek (prec ++ len) ≠ '*' ∧
      peek ((prec ++ len).dropWhile isDigit) ≠ '$' ∧
      (prec ++ len = [] ∨ isFlag (peek (prec ++ len)) = false) := by
  have hdot : ∀ p : List Char, isDigit (peek ('.' :: p)) = false ∧ peek ('.' :: p) ≠ '*' ∧
      peek (('.' :: p).dropWhile isDigit) ≠ '$' ∧
      ('.' :: p = [] ∨ isFlag (peek ('.' :: p)) = false) := by
    intro p
    refine ⟨show isDigit '.' = false by decide, show '.' ≠ '*' by decide, ?_,
      Or.inr (show isFlag '.' = false by decide)⟩
    rw [List.dropWhile_cons_of_neg (by decide)]
    exact show '.' ≠ '$' by decide
  rcases hprec with rfl | ⟨digits, -, rfl⟩ | ⟨index, -, rfl⟩
  · obtain ⟨h1, h2, -, -, h5⟩ := peek_lengthModifier hlen
    refine ⟨h1, h2, h5, ?_⟩
    cases len with
    | nil => exact Or.inl rfl
    | cons c len => exact Or.inr (of_mem_lengthModifiers _ hlen c List.mem_cons_self).2.2.2.2.2.1
  · exact hdot _
  · exact hdot _

theorem afterPrecision_append {prec len : List Char} (hprec : IsPrecision prec)
    (hlen : len ∈ lengthModifiers) : afterPrecision (prec ++ len) = len := by
  obtain ⟨hdigit, hnostar, -, hnodot, hdollar⟩ := peek_lengthModifier hlen
  unfold afterPrecision
  rcases hprec with rfl | ⟨digits, hdigits, rfl⟩ | ⟨index, hindex, rfl⟩
  · exact if_neg hnodot
  · rw [if_pos (show peek ('.' :: digits ++ len) = '.' from rfl),
      show ('.' :: digits ++ len).tail = digits ++ len from rfl, dropWhile_digits hdigits hdigit, if_neg]
    cases digits with
    | nil => exact hnostar
    | cons c digits =>
      rintro rfl
      exact absurd (hdigits _ List.mem_cons_self) (by decide)
  · rw [if_pos (show peek ('.' :: '*' :: index ++ len) = '.' from rfl),
      if_pos (show peek ('.' :: '*' :: index ++ len).tail = '*' from rfl)]
    exact maybeParseParamIndex_append hindex hdollar _

/-- The directives of `printf` that break off, by what is left before the length modifier. -/
theorem printfUnfinished_iff (p : List Char) :
    PrintfUnfinished p ↔ printfBeforeLength p ∈ lengthModifiers := by
  constructor
  · rintro ⟨index, flags, width, prec, len, rfl, hindex, hflags, hwidth, hprec, hlen⟩
    obtain ⟨hdigit, hnostar, hdollar, hflag⟩ := peek_precision hprec hlen
    have hnodollar : peek ((flags ++ (width ++ (prec ++ len))).dropWhile isDigit) ≠ '$' := by
      rw [← List.append_assoc]
      refine peek_dropWhile_ne_dollar (fun c hc => ?_) hdollar
      rcases List.mem_append.mp hc with hc | hc
      · rintro rfl
        exact absurd (hflags _ hc) (by decide)
      · rcases hwidth with rfl | ⟨hdigits, -⟩
        · rw [List.mem_singleton.mp hc]
          decide
        · rintro rfl
          exact absurd (hdigits _ hc) (by decide)
    have hwidthFlag : width ++ (prec ++ len) = [] ∨ isFlag (peek (width ++ (prec ++ len))) = false := by
      rcases hwidth with rfl | ⟨hdigits, hzero⟩
      · exact Or.inr (show isFlag '*' = false by decide)
      · cases width with
        | nil => exact hflag
        | cons c width => exact Or.inr (isFlag_of_isDigit (hdigits c List.mem_cons_self) hzero)
    have hafterFlags : afterFlags (index ++ (flags ++ (width ++ (prec ++ len)))) =
        width ++ (prec ++ len) := by
      unfold afterFlags
      rw [maybeParseParamIndex_append hindex hnodollar, List.dropWhile_append_of_pos hflags,
        dropWhile_isFlag hwidthFlag]
    have hafterNumber : afterNumber (width ++ (prec ++ len)) = prec ++ len := by
      unfold afterNumber
      rcases hwidth with rfl | ⟨hdigits, -⟩
      · exact if_pos rfl
      · rw [dropWhile_digits hdigits hdigit, if_neg]
        cases width with
        | nil => exact hnostar
        | cons c width =>
          rintro rfl
          exact absurd (hdigits _ List.mem_cons_self) (by decide)
    unfold printfBeforeLength
    rw [hafterFlags, hafterNumber, afterPrecision_append hprec hlen]
    exact hlen
  · intro hlen
    obtain ⟨index, hindex, hp⟩ := exists_index p (-1)
    obtain ⟨width, hwidth, hq⟩ : ∃ width, IsWidth width ∧
        afterFlags p = width ++ afterNumber (afterFlags p) := by
      unfold afterNumber
      split_ifs with h
      · exact ⟨['*'], Or.inl rfl, eq_cons_of_peek h (by decide)⟩
      · refine ⟨(afterFlags p).takeWhile isDigit, Or.inr ⟨fun c hc => List.mem_takeWhile_imp hc, ?_⟩,
          (List.takeWhile_append_dropWhile).symm⟩
        -- A zero at the start would have been taken for a flag.
        intro hzero
        have hcons := eq_cons_of_peek hzero (by decide)
        obtain ⟨r, hr⟩ : ∃ r, afterFlags p = '0' :: r := by
          refine ⟨((afterFlags p).takeWhile isDigit).tail ++ (afterFlags p).dropWhile isDigit, ?_⟩
          rw [← List.cons_append, ← hcons, List.takeWhile_append_dropWhile]
        have hr' : (maybeParseParamIndex p (-1)).1.dropWhile isFlag = '0' :: r := hr
        have hnot := List.head_dropWhile_not isFlag
          (show (maybeParseParamIndex p (-1)).1.dropWhile isFlag ≠ [] by
            rw [hr']; exact List.cons_ne_nil '0' r)
        simp only [hr', List.head_cons] at hnot
        exact absurd hnot (by decide)
    obtain ⟨prec, hprec, hr⟩ : ∃ prec, IsPrecision prec ∧
        afterNumber (afterFlags p) = prec ++ printfBeforeLength p := by
      unfold printfBeforeLength
      generalize afterNumber (afterFlags p) = q
      unfold afterPrecision
      split_ifs with hdot hstar
      · obtain ⟨index, hindex, hq⟩ := exists_index q.tail.tail (-1)
        refine ⟨'.' :: '*' :: index, Or.inr (Or.inr ⟨index, hindex, rfl⟩), ?_⟩
        rw [List.cons_append, List.cons_append, ← hq, ← eq_cons_of_peek hstar (by decide)]
        exact eq_cons_of_peek hdot (by decide)
      · refine ⟨'.' :: q.tail.takeWhile isDigit,
          Or.inr (Or.inl ⟨_, fun c hc => List.mem_takeWhile_imp hc, rfl⟩), ?_⟩
        rw [List.cons_append, List.takeWhile_append_dropWhile]
        exact eq_cons_of_peek hdot (by decide)
      · exact ⟨[], Or.inl rfl, rfl⟩
    refine ⟨index, (maybeParseParamIndex p (-1)).1.takeWhile isFlag, width, prec, printfBeforeLength p,
      ?_, hindex, fun c hc => List.mem_takeWhile_imp hc, hwidth, hprec, hlen⟩
    rw [← hr, ← hq, afterFlags, List.takeWhile_append_dropWhile, ← hp]

theorem printfBeforeLength_suffix (p : List Char) : printfBeforeLength p <:+ p := by
  have hindex : ∀ p : List Char, (maybeParseParamIndex p (-1)).1 <:+ p := by
    intro p
    obtain ⟨index, -, hp⟩ := exists_index p (-1)
    exact ⟨index, hp.symm⟩
  have hnumber : ∀ p : List Char, afterNumber p <:+ p := by
    intro p
    unfold afterNumber
    split_ifs
    · exact List.tail_suffix p
    · exact List.dropWhile_suffix _
  have hprec : ∀ p : List Char, afterPrecision p <:+ p := by
    intro p
    unfold afterPrecision
    split_ifs
    · exact (hindex _).trans ((List.tail_suffix _).trans (List.tail_suffix _))
    · exact (List.dropWhile_suffix _).trans (List.tail_suffix _)
    · exact List.suffix_refl p
  exact (hprec _).trans ((hnumber _).trans ((List.dropWhile_suffix _).trans (hindex p)))

/-- A directive of `printf` is parsed safely when it does not break off. -/
theorem printfDirective_safe_iff {p text : List Char} (hnul : nul ∉ p) (htext : p <:+ text) :
    Safe text (printfDirective p) ↔ ¬ PrintfUnfinished p := by
  obtain ⟨dir, hconv, heq⟩ := printfDirective_eq p
  rw [heq, printfUnfinished_iff]
  rcases eq_or_ne (afterFlags p) [] with hflags | hflags
  · -- The flags go on to the end of the string.
    rw [if_pos hflags]
    have hempty : printfBeforeLength p = [] := by
      unfold printfBeforeLength
      rw [hflags]
      rfl
    refine iff_of_false ?_ (not_not.mpr (hempty ▸ by decide))
    rintro ⟨q, dir, h, -⟩
    exact absurd h nofun
  · rw [if_neg hflags]
    have hsuffix := printfBeforeLength_suffix p
    rcases maybeParseLengthModifier_cases (fun h => hnul (hsuffix.mem h)) with
      ⟨hlen, hend⟩ | ⟨hlen, len, c, q, -, hq, hat⟩
    · refine iff_of_false ?_ (not_not.mpr hlen)
      rcases hend with hend | hend <;> rw [hend]
      · rintro ⟨q, dir, h, -⟩
        exact absurd h nofun
      · rintro ⟨q, dir, h, rfl | ⟨q, rfl, -⟩⟩
        · exact absurd h nofun
        · exact absurd h nofun
    · rw [hat]
      have hcq : c :: q <:+ p := List.IsSuffix.trans ⟨len, hq.symm⟩ hsuffix
      have hc : c ≠ nul := fun h => hnul (hcq.mem (h ▸ List.mem_cons_self))
      refine iff_of_true ⟨_, dir c, rfl, Or.inr
        ⟨q, rfl, (List.suffix_cons c q).trans (hcq.trans htext), ?_⟩⟩ hlen
      intro h
      exact absurd ((hconv c).symm.trans h) hc

end Tasan.Format
