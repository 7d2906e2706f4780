import Tasan.FlagParser.Model

/-!
# The grammar of options strings

`Options` says which flags a string consists of and how it ends, without a cursor: flags between
separators, each a name, `=` and a value, where a value is in quotes or goes up to the next separator.
Each string has exactly one reading (`options_exists`, `Options.unique`).
-/

namespace Tasan.FlagParser

/-- How a string ends. -/
inductive Ending
  /-- With its last flag. -/
  | eof
  /-- In a flag that has no `=`. -/
  | expectedEquals
  /-- In a value whose quote is not closed. -/
  | unterminatedString
  deriving DecidableEq

/-- A character that opens a quoted value. -/
def IsQuote (c : Char) : Prop := c = singleQuote ∨ c = doubleQuote

/-- A run of characters that can be in a name. -/
def IsName (name : List Char) : Prop := ∀ c ∈ name, c ≠ '=' ∧ isSpace c = false

/-- The end of a string, or a separator. -/
def AtSeparator (rest : List Char) : Prop := ∀ c ∈ rest.head?, isSpace c = true

/-- The value at the start of a string, and what follows it. -/
inductive Value : List Char → List Char → List Char → Prop
  /-- A value in quotes. -/
  | quoted {quote : Char} {value rest : List Char} (hq : IsQuote quote) (hv : quote ∉ value) :
    Value (quote :: (value ++ quote :: rest)) value rest
  /-- A value that goes up to the next separator. -/
  | plain {value rest : List Char} (hq : ∀ c ∈ value.head?, ¬ IsQuote c)
    (hv : ∀ c ∈ value, isSpace c = false) (hr : AtSeparator rest) : Value (value ++ rest) value rest

/-- The flags of a string, with the way in which it ends. -/
inductive Options : List Char → List (List Char × List Char) → Ending → Prop
  /-- The end. -/
  | eof : Options [] [] .eof
  /-- A separator. -/
  | separator {c : Char} {s fs e} (hc : isSpace c = true) (h : Options s fs e) : Options (c :: s) fs e
  /-- A flag. -/
  | flag {name t value rest fs e} (hn : IsName name) (hv : Value t value rest)
    (h : Options rest fs e) : Options (name ++ '=' :: t) ((name, value) :: fs) e
  /-- A flag without `=`. -/
  | expectedEquals {name rest : List Char} (hne : name ≠ []) (hn : IsName name)
    (hr : AtSeparator rest) : Options (name ++ rest) [] .expectedEquals
  /-- A value whose quote is not closed. -/
  | unterminated {name body : List Char} {quote : Char} (hn : IsName name) (hq : IsQuote quote)
    (hb : quote ∉ body) : Options (name ++ '=' :: quote :: body) [] .unterminatedString

instance : DecidablePred IsQuote := fun c =>
  inferInstanceAs (Decidable (c = singleQuote ∨ c = doubleQuote))

instance : DecidablePred IsName := fun name =>
  List.decidableBAll (fun c => c ≠ '=' ∧ isSpace c = false) name

theorem Options.single {name value : List Char} (hn : IsName name)
    (hq : value.head?.all fun c => !decide (IsQuote c)) (hv : value.all fun c => !isSpace c) :
    Options (name ++ '=' :: value) [(name, value)] .eof := by
  have hplain : ∀ c ∈ value, isSpace c = false := by simpa using hv
  have hunquoted : ∀ c ∈ value.head?, ¬ IsQuote c := by simpa [Option.all_eq_true] using hq
  have hvalue : Value (value ++ []) value [] := .plain hunquoted hplain fun _ h => nomatch h
  rw [List.append_nil] at hvalue
  exact .flag hn hvalue .eof

/-! ## The longest runs -/

section Runs

variable {p : Char → Prop}

theorem exists_run (p : Char → Prop) :
    ∀ s : List Char, ∃ run rest, s = run ++ rest ∧ (∀ c ∈ run, p c) ∧ ∀ c ∈ rest.head?, ¬ p c
  | [] => ⟨[], [], rfl, nofun, nofun⟩
  | c :: s => by
    by_cases hc : p c
    · obtain ⟨run, rest, hs, hrun, hrest⟩ := exists_run p s
      exact ⟨c :: run, rest, by rw [hs]; rfl, List.forall_mem_cons.mpr ⟨hc, hrun⟩, hrest⟩
    · exact ⟨[], c :: s, rfl, nofun, fun c' hc' => Option.some.inj hc' ▸ hc⟩

theorem run_unique : ∀ {run run' rest rest' : List Char}, (∀ c ∈ run, p c) → (∀ c ∈ run', p c) →
    (∀ c ∈ rest.head?, ¬ p c) → (∀ c ∈ rest'.head?, ¬ p c) → run ++ rest = run' ++ rest' →
    run = run' ∧ rest = rest'
  | [], [], _, _, _, _, _, _, h => ⟨rfl, h⟩
  | c :: _, [], _, _, hrun, _, _, hrest', h => by
    rw [List.nil_append] at h
    exact absurd (hrun c List.mem_cons_self) (hrest' c (by rw [← h]; rfl))
  | [], c :: _, _, _, _, hrun', hrest, _, h => by
    rw [List.nil_append] at h
    exact absurd (hrun' c List.mem_cons_self) (hrest c (by rw [h]; rfl))
  | c :: run, c' :: run', _, _, hrun, hrun', hrest, hrest', h => by
    obtain ⟨rfl, htail⟩ := List.cons.inj h
    obtain ⟨rfl, hr⟩ := run_unique (List.forall_mem_cons.mp hrun).2 (List.forall_mem_cons.mp hrun').2
      hrest hrest' htail
    exact ⟨rfl, hr⟩

end Runs

/-! ## Each string has one reading -/

theorem IsQuote.isSpace {c : Char} (h : IsQuote c) : isSpace c = false := by
  rcases h with rfl | rfl <;> decide

theorem AtSeparator.not_value {rest : List Char} (h : AtSeparator rest) :
    ∀ c ∈ rest.head?, ¬ isSpace c = false := by
  intro c hc
  rw [h c hc]
  nofun

theorem AtSeparator.not_name {rest : List Char} (h : AtSeparator rest) :
    ∀ c ∈ rest.head?, ¬ (c ≠ '=' ∧ isSpace c = false) :=
  fun c hc hname => h.not_value c hc hname.2

theorem equals_not_name {t : List Char} :
    ∀ c ∈ (('=' : Char) :: t).head?, ¬ (c ≠ '=' ∧ isSpace c = false) :=
  fun _ hc hname => hname.1 (Option.some.inj hc).symm

theorem Value.of_quote {quote : Char} {t value rest : List Char} (hq : IsQuote quote)
    (h : Value (quote :: t) value rest) : quote ∉ value ∧ t = value ++ quote :: rest := by
  generalize hs : quote :: t = s at h
  cases h with
  | quoted _ hv =>
    obtain ⟨rfl, rfl⟩ := List.cons.inj hs
    exact ⟨hv, rfl⟩
  | plain hqv hv hr =>
    cases value with
    | nil =>
      rw [List.nil_append] at hs
      exact absurd hq.isSpace (hr.not_value quote (by rw [← hs]; rfl))
    | cons c value =>
      obtain ⟨rfl, -⟩ := List.cons.inj hs
      exact absurd hq (hqv quote rfl)

theorem Value.unique_of_quote {quote : Char} {t value value' rest rest' : List Char}
    (hq : IsQuote quote) (h : Value (quote :: t) value rest) (h' : Value (quote :: t) value' rest') :
    value = value' ∧ rest = rest' := by
  obtain ⟨hv, ht⟩ := h.of_quote hq
  obtain ⟨hv', ht'⟩ := h'.of_quote hq
  have hmem : ∀ {l : List Char}, quote ∉ l → ∀ c ∈ l, c ≠ quote := fun hl c hc hcq => hl (hcq ▸ hc)
  have hstop : ∀ {r : List Char}, ∀ c ∈ (quote :: r).head?, ¬ c ≠ quote :=
    fun c hc => not_not.mpr (Option.some.inj hc).symm
  obtain ⟨rfl, hr⟩ := run_unique (hmem hv) (hmem hv') hstop hstop (ht.symm.trans ht')
  exact ⟨rfl, (List.cons.inj hr).2⟩

theorem Value.unique {t value value' rest rest' : List Char} (h : Value t value rest)
    (h' : Value t value' rest') : value = value' ∧ rest = rest' := by
  cases h with
  | quoted hq hv => exact unique_of_quote hq (.quoted hq hv) h'
  | plain hq hv hr =>
    generalize hs : value ++ rest = s at h'
    cases h' with
    | quoted hq' hv' => exact unique_of_quote hq' (hs ▸ .plain hq hv hr) (.quoted hq' hv')
    | plain hq' hv' hr' => exact run_unique hv hv' hr.not_value hr'.not_value hs

theorem Value.mem_of_rest {t value rest : List Char} (h : Value t value rest) {c : Char}
    (hc : c ∈ rest) : c ∈ t := by
  cases h with
  | quoted => simp [hc]
  | plain => simp [hc]

theorem Value.not_unterminated {quote : Char} {body value rest : List Char} (hq : IsQuote quote)
    (hb : quote ∉ body) : ¬ Value (quote :: body) value rest := fun h =>
  hb ((h.of_quote hq).2 ▸ List.mem_append_right _ List.mem_cons_self)

/-- The string behind a separator. -/
theorem Options.of_separator {c : Char} {s fs e} (hc : isSpace c = true) (h : Options (c :: s) fs e) :
    Options s fs e := by
  generalize hs : c :: s = s' at h
  -- No name starts with a separator, and it is no `=`.
  have hname : ∀ {name rest : List Char}, IsName name → c :: s = name ++ rest → name = [] := by
    intro name rest hn h
    cases name with
    | nil => rfl
    | cons c' name =>
      obtain ⟨rfl, -⟩ := List.cons.inj h
      rw [(hn c List.mem_cons_self).2] at hc
      cases hc
  have hequals : c ≠ '=' := by
    rintro rfl
    exact absurd hc (by decide)
  cases h with
  | eof => cases hs
  | separator _ h =>
    obtain ⟨-, rfl⟩ := List.cons.inj hs
    exact h
  | flag hn =>
    obtain rfl := hname hn hs
    exact absurd (List.cons.inj hs).1 hequals
  | expectedEquals hne hn => exact absurd (hname hn hs) hne
  | unterminated hn =>
    obtain rfl := hname hn hs
    exact absurd (List.cons.inj hs).1 hequals

/-- What can follow a name. -/
theorem Options.of_name {name rest : List Char} {fs e} (hn : IsName name)
    (hrest : ∀ c ∈ rest.head?, ¬ (c ≠ '=' ∧ isSpace c = false))
    (hstart : name = [] → rest.head? = some '=') (h : Options (name ++ rest) fs e) :
    (∃ t value rest' fs', rest = '=' :: t ∧ Value t value rest' ∧ Options rest' fs' e ∧
      fs = (name, value) :: fs') ∨
    (AtSeparator rest ∧ fs = [] ∧ e = .expectedEquals) ∨
    ∃ quote body, rest = '=' :: quote :: body ∧ IsQuote quote ∧ quote ∉ body ∧ fs = [] ∧
      e = .unterminatedString := by
  generalize hs : name ++ rest = s at h
  cases h with
  | eof =>
    obtain ⟨rfl, rfl⟩ := List.append_eq_nil_iff.mp hs
    cases hstart rfl
  | @separator c s _ _ hc h =>
    cases name with
    | nil =>
      rw [List.nil_append] at hs
      rw [hs] at hstart
      obtain rfl := Option.some.inj (hstart rfl)
      exact absurd hc (by decide)
    | cons c' name =>
      obtain ⟨rfl, -⟩ := List.cons.inj hs
      rw [(hn c' List.mem_cons_self).2] at hc
      cases hc
  | flag hn' hv h =>
    obtain ⟨rfl, rfl⟩ := run_unique hn hn' hrest equals_not_name hs
    exact Or.inl ⟨_, _, _, _, rfl, hv, h, rfl⟩
  | expectedEquals _ hn' hr =>
    obtain ⟨rfl, rfl⟩ := run_unique hn hn' hrest hr.not_name hs
    exact Or.inr (Or.inl ⟨hr, rfl, rfl⟩)
  | unterminated hn' hq hb =>
    obtain ⟨rfl, rfl⟩ := run_unique hn hn' hrest equals_not_name hs
    exact Or.inr (Or.inr ⟨_, _, rfl, hq, hb, rfl, rfl⟩)

theorem AtSeparator.not_equals {t : List Char} : ¬ AtSeparator ('=' :: t) := fun h =>
  absurd (h '=' rfl) (by decide)

/-- A string has only one reading. -/
theorem Options.unique {s : List Char} {fs fs' : List (List Char × List Char)} {e e' : Ending}
    (h : Options s fs e) (h' : Options s fs' e') : fs = fs' ∧ e = e' := by
  induction h generalizing fs' e' with
  | eof =>
    generalize hs : ([] : List Char) = s at h'
    cases h' with
    | eof => exact ⟨rfl, rfl⟩
    | separator => cases hs
    | flag => exact absurd hs (by simp)
    | expectedEquals hne => exact absurd (List.append_eq_nil_iff.mp hs.symm).1 hne
    | unterminated => exact absurd hs (by simp)
  | separator hc _ ih => exact ih (h'.of_separator hc)
  | flag hn hv _ ih =>
    rcases h'.of_name hn equals_not_name fun _ => rfl with
      ⟨t, value', rest', fs'', ht, hv', ho, rfl⟩ | ⟨hr, -⟩ | ⟨quote, body, ht, hq, hb, -⟩
    · obtain ⟨-, rfl⟩ := List.cons.inj ht
      obtain ⟨rfl, rfl⟩ := hv.unique hv'
      obtain ⟨rfl, rfl⟩ := ih ho
      exact ⟨rfl, rfl⟩
    · exact absurd hr AtSeparator.not_equals
    · obtain ⟨-, rfl⟩ := List.cons.inj ht
      exact absurd hv (Value.not_unterminated hq hb)
  | expectedEquals hne hn hr =>
    rcases h'.of_name hn hr.not_name fun h => absurd h hne with
      ⟨t, value', rest', fs'', rfl, -⟩ | ⟨-, rfl, rfl⟩ | ⟨quote, body, rfl, -⟩
    · exact absurd hr AtSeparator.not_equals
    · exact ⟨rfl, rfl⟩
    · exact absurd hr AtSeparator.not_equals
  | unterminated hn hq hb =>
    rcases h'.of_name hn equals_not_name fun _ => rfl with
      ⟨t, value', rest', fs'', ht, hv', -⟩ | ⟨hr, -⟩ | ⟨quote, body, ht, -, -, rfl, rfl⟩
    · obtain ⟨-, rfl⟩ := List.cons.inj ht
      exact absurd hv' (Value.not_unterminated hq hb)
    · exact absurd hr AtSeparator.not_equals
    · exact ⟨rfl, rfl⟩

theorem exists_value (t : List Char) :
    (∃ value rest, Value t value rest ∧ rest.length ≤ t.length) ∨
    ∃ quote body, t = quote :: body ∧ IsQuote quote ∧ quote ∉ body := by
  by_cases hquote : ∃ quote body, t = quote :: body ∧ IsQuote quote
  · obtain ⟨quote, body, rfl, hq⟩ := hquote
    by_cases hb : quote ∈ body
    · obtain ⟨value, rest, rfl, hv⟩ := List.eq_append_cons_of_mem hb
      exact Or.inl ⟨value, rest, .quoted hq hv, by simp; omega⟩
    · exact Or.inr ⟨quote, body, rfl, hq, hb⟩
  · obtain ⟨value, rest, rfl, hv, hr⟩ := exists_run (fun c => isSpace c = false) t
    refine Or.inl ⟨value, rest, .plain (fun c hc hq => hquote ?_) hv fun c hc => ?_, by simp⟩
    · cases value with
      | nil => cases hc
      | cons c' value =>
        obtain rfl := Option.some.inj hc
        exact ⟨c', value ++ rest, rfl, hq⟩
    · exact Bool.not_eq_false _ ▸ hr c hc

/-- Each string has a reading. -/
theorem exists_options (s : List Char) : ∃ fs e, Options s fs e := by
  induction hlen : s.length using Nat.strong_induction_on generalizing s with
  | _ n ih =>
    subst hlen
    obtain ⟨name, rest, rfl, hn, hr⟩ := exists_run (fun c => c ≠ '=' ∧ isSpace c = false) s
    match rest, hr with
    | [], _ =>
      cases name with
      | nil => exact ⟨_, _, .eof⟩
      | cons c name => exact ⟨_, _, .expectedEquals (List.cons_ne_nil c name) hn nofun⟩
    | c :: rest, hr =>
      by_cases hequals : c = '='
      · subst hequals
        rcases exists_value rest with ⟨value, rest', hv, hlen⟩ | ⟨quote, body, rfl, hq, hb⟩
        · obtain ⟨fs, e, h⟩ := ih rest'.length (by simp; omega) rest' rfl
          exact ⟨_, _, .flag hn hv h⟩
        · exact ⟨_, _, .unterminated hn hq hb⟩
      · have hc : isSpace c = true := by
          by_contra hc
          exact hr c rfl ⟨hequals, Bool.not_eq_true _ ▸ hc⟩
        cases name with
        | nil =>
          obtain ⟨fs, e, h⟩ := ih rest.length (by simp) rest rfl
          exact ⟨_, _, .separator hc h⟩
        | cons c' name =>
          exact ⟨_, _, .expectedEquals (List.cons_ne_nil c' name) hn
            fun c'' hc'' => Option.some.inj hc'' ▸ hc⟩

end Tasan.FlagParser
