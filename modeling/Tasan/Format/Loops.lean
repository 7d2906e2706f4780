import Tasan.Format.Bounds

/-!
# The loops over the directives

`scanf_parse_next` and `printf_parse_next` skip the ordinary characters and every `%%`, and then parse the
first directive (`directiveText`). A call that is safe (`NextSafe`) gives null or a pointer that is further
on in the string, and when every call is, the loops end after at most one turn for each character
(`directiveLoop_returned`). So the parsers keep to the string exactly when no directive of it breaks off.
-/

namespace Tasan.Format

open FlagParser (nul)

/-- What follows the `%` of the first directive. -/
def directiveText : List Char → Option (List Char)
  | [] => none
  | c :: p =>
    if c ≠ '%' then directiveText p
    else match p with
      | [] => none
      | d :: rest => if d = '%' then directiveText rest else some (d :: rest)

theorem directiveText_skip {c : Char} (hc : c ≠ '%') (p : List Char) :
    directiveText (c :: p) = directiveText p := by
  rw [directiveText.eq_def]
  exact if_pos hc

theorem directiveText_percent : directiveText ['%'] = none := rfl

theorem directiveText_percents (rest : List Char) :
    directiveText ('%' :: '%' :: rest) = directiveText rest := by
  rw [directiveText.eq_def]
  rfl

theorem directiveText_directive {d : Char} (hd : d ≠ '%') (rest : List Char) :
    directiveText ('%' :: d :: rest) = some (d :: rest) := by
  rw [directiveText.eq_def]
  exact if_neg hd

/-- A directive is further on in the string than its `%`. -/
theorem directiveText_suffix {p text : List Char} (h : directiveText p = some text) :
    text <:+ p ∧ text.length < p.length := by
  induction p using directiveText.induct with
  | case1 => exact absurd h nofun
  | case2 c p hc ih =>
    rw [directiveText_skip hc] at h
    have hp := ih h
    exact ⟨hp.1.trans (List.suffix_cons c p), hp.2.trans (Nat.lt_succ_self _)⟩
  | case3 c hc =>
    obtain rfl := not_not.mp hc
    exact absurd h nofun
  | case4 c hc rest ih =>
    obtain rfl := not_not.mp hc
    rw [directiveText_percents] at h
    have hp := ih h
    exact ⟨hp.1.trans ((List.suffix_cons _ rest).trans (List.suffix_cons _ _)),
      hp.2.trans (by simp only [List.length_cons]; omega)⟩
  | case5 c hc d rest hd =>
    obtain rfl := not_not.mp hc
    rw [directiveText_directive hd] at h
    obtain rfl := Option.some.inj h
    exact ⟨List.suffix_cons _ _, Nat.lt_succ_self _⟩

section Next

variable {δ : Type} [Directive δ]

/-- A call of a parser at `p` is safe: it reads nothing behind the NUL, it gives null or a pointer further
on in the string, and the latter is at the NUL when there is no conversion specifier. -/
def NextSafe (p : List Char) (r : Except Fault (Option Pointer × δ)) : Prop :=
  ∃ q dir, r = .ok (q, dir) ∧ (q = none ∨ ∃ p', q = some (.at p') ∧ p' <:+ p ∧
    p'.length < p.length ∧ (Directive.convSpecifier dir = nul → p' = []))

/-- A parser finds the first directive and parses it, and without one it gives null or the NUL. -/
def FindsDirective (directive : List Char → Except Fault (Option Pointer × δ)) (p : List Char)
    (r : Except Fault (Option Pointer × δ)) : Prop :=
  (∃ text, directiveText p = some text ∧ r = directive text) ∨
    directiveText p = none ∧ ∃ q dir, (q = none ∨ q = some (.at [])) ∧ r = .ok (q, dir)

omit [Directive δ] in
/-- A parser that skips the ordinary characters and every `%%` finds the first directive. -/
theorem findsDirective {parseNext directive : List Char → Except Fault (Option Pointer × δ)}
    (hend : ∃ dir, parseNext [] = .ok (some (.at []), dir))
    (hskip : ∀ c p, c ≠ '%' → parseNext (c :: p) = parseNext p)
    (hpercent : ∃ dir, parseNext ['%'] = .ok (none, dir))
    (hpercents : ∀ rest, parseNext ('%' :: '%' :: rest) = parseNext rest)
    (hdirective : ∀ d rest, d ≠ '%' → parseNext ('%' :: d :: rest) = directive (d :: rest))
    (p : List Char) : FindsDirective directive p (parseNext p) := by
  induction p using directiveText.induct with
  | case1 =>
    obtain ⟨dir, hdir⟩ := hend
    exact Or.inr ⟨rfl, _, dir, Or.inr rfl, hdir⟩
  | case2 c p hc ih =>
    rw [hskip c p hc]
    exact ih.imp (by rw [directiveText_skip hc]; exact id) (by rw [directiveText_skip hc]; exact id)
  | case3 c hc =>
    obtain rfl := not_not.mp hc
    obtain ⟨dir, hdir⟩ := hpercent
    exact Or.inr ⟨directiveText_percent, _, dir, Or.inl rfl, hdir⟩
  | case4 c hc rest ih =>
    obtain rfl := not_not.mp hc
    rw [hpercents rest]
    exact ih.imp (by rw [directiveText_percents]; exact id) (by rw [directiveText_percents]; exact id)
  | case5 c hc d rest hd =>
    obtain rfl := not_not.mp hc
    exact Or.inl ⟨_, directiveText_directive hd rest, hdirective d rest hd⟩

/-- The first directive alone decides whether a call is safe. -/
theorem nextSafe_iff {directive : List Char → Except Fault (Option Pointer × δ)}
    {Unfinished : List Char → Prop} {p : List Char} {r : Except Fault (Option Pointer × δ)}
    (hfinds : FindsDirective directive p r) (hnul : nul ∉ p) (hp : p ≠ [])
    (hsafe : ∀ text text', nul ∉ text → text <:+ text' →
      (Safe text' (directive text) ↔ ¬ Unfinished text)) :
    NextSafe p r ↔ ¬ ∃ text, directiveText p = some text ∧ Unfinished text := by
  rcases hfinds with ⟨text, htext, rfl⟩ | ⟨hnone, q, dir, hq, rfl⟩
  · obtain ⟨hsuffix, hlength⟩ := directiveText_suffix htext
    have hnultext : nul ∉ text := fun h => hnul (hsuffix.mem h)
    constructor
    · rintro ⟨q, dir, hr, hq⟩ ⟨text', htext', hunf⟩
      obtain rfl := Option.some.inj (htext.symm.trans htext')
      refine (hsafe text p hnultext hsuffix).mp ⟨q, dir, hr, hq.imp_right ?_⟩ hunf
      rintro ⟨p', hp', hsuffix', -, hconv⟩
      exact ⟨p', hp', hsuffix', hconv⟩
    · intro hunf
      obtain ⟨q, dir, hr, hq⟩ := (hsafe text text hnultext (List.suffix_refl text)).mpr
        fun h => hunf ⟨text, htext, h⟩
      refine ⟨q, dir, hr, hq.imp_right ?_⟩
      rintro ⟨p', hp', hsuffix', hconv⟩
      exact ⟨p', hp', hsuffix'.trans hsuffix, hsuffix'.length_le.trans_lt hlength, hconv⟩
  · refine iff_of_true ⟨q, dir, rfl, hq.imp_right fun h => ?_⟩ ?_
    · exact ⟨[], h, List.nil_suffix, List.length_pos_iff.mpr hp, fun _ => rfl⟩
    · rintro ⟨text, htext, -⟩
      exact absurd (hnone.symm.trans htext) nofun

/-- When every call is safe, a loop over the directives ends after at most one turn for each character,
without a fault. -/
theorem directiveLoop_returned {σ : Type} {parseNext : List Char → Except Fault (Option Pointer × δ)}
    (doWhat : δ → σ → σ ⊕ σ) {fuel : ℕ} {p : List Char} (hfuel : p.length ≤ fuel)
    (hsafe : ∀ q, q <:+ p → q ≠ [] → NextSafe q (parseNext q)) (s : σ) :
    ∃ s', directiveLoop parseNext doWhat fuel p s = .returned s' := by
  induction fuel generalizing p s with
  | zero =>
    obtain rfl := List.length_eq_zero_iff.mp (Nat.le_zero.mp hfuel)
    exact ⟨s, rfl⟩
  | succ fuel ih =>
    cases p with
    | nil => exact ⟨s, rfl⟩
    | cons c p =>
      obtain ⟨q, dir, hr, hq⟩ := hsafe _ (List.suffix_refl _) (List.cons_ne_nil c p)
      rcases hq with rfl | ⟨p', rfl, hsuffix, hlength, hconv⟩
      · exact ⟨s, by simp only [directiveLoop, hr]⟩
      · by_cases hdir : Directive.convSpecifier dir = nul
        · -- The check that the string ends here holds.
          obtain rfl := hconv hdir
          exact ⟨s, by simp only [directiveLoop, hr, if_pos hdir]; rfl⟩
        · cases hdo : doWhat dir s with
          | inl s' =>
            obtain ⟨s'', hs''⟩ := ih (Nat.le_of_lt_succ (hlength.trans_le hfuel))
              (fun q hq => hsafe q (hq.trans hsuffix)) s'
            exact ⟨s'', by simp only [directiveLoop, hr, if_neg hdir, hdo, hs'']⟩
          | inr s' => exact ⟨s', by simp only [directiveLoop, hr, if_neg hdir, hdo]⟩

/-- What the parsers promise for a format string: from every position inside it a call is safe, and the loop
over its directives ends after at most one turn for each character, without a fault. -/
def ParseContract (parseNext : List Char → Except Fault (Option Pointer × δ)) (format : List Char) :
    Prop :=
  (∀ p, p <:+ format → p ≠ [] → NextSafe p (parseNext p)) ∧
    ∀ (σ : Type) (doWhat : δ → σ → σ ⊕ σ) (s : σ),
      ∃ s', directiveLoop parseNext doWhat format.length format s = .returned s'

theorem parseContract_iff {parseNext directive : List Char → Except Fault (Option Pointer × δ)}
    {Unfinished : List Char → Prop} {format : List Char} (hnul : nul ∉ format)
    (hfinds : ∀ p, FindsDirective directive p (parseNext p))
    (hsafe : ∀ text text', nul ∉ text → text <:+ text' →
      (Safe text' (directive text) ↔ ¬ Unfinished text)) :
    ParseContract parseNext format ↔
      ∀ p, p <:+ format → ¬ ∃ text, directiveText p = some text ∧ Unfinished text := by
  have hiff : ∀ p, p <:+ format → p ≠ [] → (NextSafe p (parseNext p) ↔
      ¬ ∃ text, directiveText p = some text ∧ Unfinished text) := fun p hp hne =>
    nextSafe_iff (hfinds p) (fun h => hnul (hp.mem h)) hne hsafe
  constructor
  · intro h p hp
    rcases eq_or_ne p [] with rfl | hne
    · rintro ⟨text, htext, -⟩
      exact absurd htext nofun
    · exact (hiff p hp hne).mp (h.1 p hp hne)
  · intro h
    have hnext : ∀ p, p <:+ format → p ≠ [] → NextSafe p (parseNext p) := fun p hp hne =>
      (hiff p hp hne).mpr (h p hp)
    exact ⟨hnext, fun σ doWhat s => directiveLoop_returned doWhat le_rfl hnext s⟩

end Next

theorem scanfParseNext_finds (allowGnuMalloc : Bool) (p : List Char) :
    FindsDirective (scanfDirective allowGnuMalloc) p (scanfParseNext allowGnuMalloc p) := by
  refine findsDirective ⟨_, rfl⟩ ?_ ⟨_, rfl⟩ ?_ ?_ p
  · intro c p hc
    rw [scanfParseNext.eq_def]
    exact if_pos hc
  · intro rest
    rw [scanfParseNext.eq_def]
    rfl
  · intro d rest hd
    rw [scanfParseNext.eq_def]
    exact if_neg hd

theorem printfParseNext_finds (p : List Char) :
    FindsDirective printfDirective p (printfParseNext p) := by
  refine findsDirective ⟨_, rfl⟩ ?_ ⟨_, rfl⟩ ?_ ?_ p
  · intro c p hc
    rw [printfParseNext.eq_def]
    exact if_pos hc
  · intro rest
    rw [printfParseNext.eq_def]
    rfl
  · intro d rest hd
    rw [printfParseNext.eq_def]
    exact if_neg hd

/-- Both parsers keep to a format string, and the loops around them end without a fault, exactly when no
directive of the string breaks off before its conversion specifier. -/
theorem formatParsers_iff {format : List Char} (hnul : nul ∉ format) :
    (∀ allowGnuMalloc, ParseContract (scanfParseNext allowGnuMalloc) format ↔
      ∀ p, p <:+ format → ¬ ∃ text, directiveText p = some text ∧ ScanfUnfinished text) ∧
    (ParseContract printfParseNext format ↔
      ∀ p, p <:+ format → ¬ ∃ text, directiveText p = some text ∧ PrintfUnfinished text) :=
  ⟨fun allowGnuMalloc => parseContract_iff hnul (scanfParseNext_finds allowGnuMalloc)
      fun _ _ hnul htext => scanfDirective_safe_iff allowGnuMalloc hnul htext,
    parseContract_iff hnul printfParseNext_finds fun _ _ => printfDirective_safe_iff⟩

/-- The formats `a%d` and `a%5`. -/
theorem formatParsers_iff_number :
    nul ∉ ['a', '%', 'd'] ∧
      ((∀ allowGnuMalloc, ParseContract (scanfParseNext allowGnuMalloc) ['a', '%', 'd'] ↔
        ∀ p, p <:+ ['a', '%', 'd'] →
          ¬ ∃ text, directiveText p = some text ∧ ScanfUnfinished text) ∧
      (ParseContract printfParseNext ['a', '%', 'd'] ↔
        ∀ p, p <:+ ['a', '%', 'd'] →
          ¬ ∃ text, directiveText p = some text ∧ PrintfUnfinished text)) :=
  ⟨by decide, formatParsers_iff (by decide)⟩

/-- The width of `%5` and the flag of `%-` are not followed by a conversion specifier: the loop of
`scanf_common` and a call of `printf_parse_next` read behind the NUL. -/
theorem not_parseContract_unfinished :
    directiveLoop (scanfParseNext true) (fun _ n => .inl (n + 1)) 2 ['%', '5'] 0 =
      .stopped .overrun ∧
    directiveLoop printfParseNext (fun _ n => .inl (n + 1)) 2 ['%', '-'] 0 = .stopped .overrun ∧
    ¬ ParseContract (scanfParseNext true) ['%', '5'] ∧
    ¬ ParseContract printfParseNext ['%', '-'] := by
  have hscanf : directiveLoop (scanfParseNext true) (fun _ n => .inl (n + 1)) 2 ['%', '5'] 0 =
      .stopped .overrun := by decide +kernel
  have hprintf : directiveLoop printfParseNext (fun _ n => .inl (n + 1)) 2 ['%', '-'] 0 =
      .stopped .overrun := by decide +kernel
  refine ⟨hscanf, hprintf, fun h => ?_, fun h => ?_⟩
  · obtain ⟨s', hs'⟩ := h.2 ℕ (fun _ n => .inl (n + 1)) 0
    exact absurd (hscanf.symm.trans hs') nofun
  · obtain ⟨s', hs'⟩ := h.2 ℕ (fun _ n => .inl (n + 1)) 0
    exact absurd (hprintf.symm.trans hs') nofun

end Tasan.Format
