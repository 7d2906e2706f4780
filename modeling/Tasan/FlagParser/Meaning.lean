import Tasan.FlagParser.Refinement

/-!
# The meaning of `ParseString`

`meaning` is `ParseString` without fuel, and `meaning_eq` its equation: the handlers run for the flags of
the reading, with the same meaning for the calls of `ParseString` that they make (`Calls`). From it follow
the exact conditions under which `ParseString` returns, dies or goes on for ever (`parseString_reads`). It
does go on for ever where a file includes itself (`include_diverges`).
-/

namespace Tasan.FlagParser

open Outcome

variable {σ : Type}

/-! ## More fuel -/

section Approx

variable {cfg : Config σ} {nested nested' : Nested σ}

theorem runAction_approx (h : ∀ s env p, Approx (nested s env p) (nested' s env p)) :
    ∀ (action : Action σ) (p : Parser σ),
      Approx (runAction nested action p) (runAction nested' action p)
  | .done _ _, _ => .refl _
  | .parseString _ _ _ next, _ => (h _ _ _).bind fun q => runAction_approx h (next q.flags) q

theorem applyFlag_approx (h : ∀ s env p, Approx (nested s env p) (nested' s env p)) (p : Parser σ)
    (flag : List Char × List Char) :
    Approx (applyFlag cfg nested p flag) (applyFlag cfg nested' p flag) := by
  refine Approx.bind ?_ fun r => .refl _
  unfold runHandler
  cases cfg.handlers.find? (·.1 = flag.1) with
  | some h' => exact runAction_approx h _ p
  | none => exact .refl _

theorem parseFlag_approx (h : ∀ s env p, Approx (nested s env p) (nested' s env p))
    (env : Option (List Char)) (p : Parser σ) :
    Approx (parseFlag cfg nested env p) (parseFlag cfg nested' env p) := by
  refine (Approx.refl _).bind fun pos => (Approx.refl _).bind fun c => ?_
  by_cases hc : c ≠ '='
  · simp only [if_pos hc]
    exact .refl _
  · simp only [if_neg hc]
    exact (Approx.refl _).bind fun r => applyFlag_approx h _ _

theorem withString_approx {flags flags' : Option (List Char) → Parser σ → Outcome Stop (Parser σ)}
    (h : ∀ env p, Approx (flags env p) (flags' env p)) (s env : Option (List Char)) (p : Parser σ) :
    Approx (withString flags s env p) (withString flags' s env p) := by
  cases s with
  | none => exact .refl _
  | some text => exact (h _ _).bind fun _ => .refl _

end Approx

variable (cfg : Config σ)

theorem chain_parseFlags (env : Option (List Char)) (p : Parser σ) :
    Chain fun n => parseFlags cfg n env p := by
  intro n
  induction n generalizing env p with
  | zero => exact Or.inl rfl
  | succ n ih =>
    refine (Approx.refl _).bind fun q => (Approx.refl _).bind fun c => ?_
    by_cases hc : c = nul
    · simp only [if_pos hc]
      exact .refl _
    · simp only [if_neg hc]
      exact (parseFlag_approx (withString_approx ih) env q).bind fun q => ih env q

theorem chain_parseString (s env : Option (List Char)) (p : Parser σ) :
    Chain fun n => parseString cfg n s env p := fun n =>
  withString_approx (fun env p => chain_parseFlags cfg env p n) s env p

/-! ## The meaning -/

/-- `ParseString`, with as much fuel as it takes. -/
noncomputable def meaning : Nested σ := fun s env p => limit fun n => parseString cfg n s env p

theorem chain_runAction (action : Action σ) (p : Parser σ) :
    Chain fun n => runAction (parseString cfg n) action p := fun n =>
  runAction_approx (fun s env p => chain_parseString cfg s env p n) action p

theorem limit_runAction : ∀ (action : Action σ) (p : Parser σ),
    limit (fun n => runAction (parseString cfg n) action p) = runAction (meaning cfg) action p
  | .done _ _, _ => limit_const _
  | .parseString s env flags next, p => by
    refine (limit_bind (chain_parseString cfg s env { p with flags := flags })
      fun q => chain_runAction cfg (next q.flags) q).trans ?_
    exact congrArg (_ >>= ·) (funext fun q => limit_runAction (next q.flags) q)

theorem chain_runHandler (name value : List Char) (p : Parser σ) :
    Chain fun n => runHandler cfg (parseString cfg n) name value p := by
  intro n
  unfold runHandler
  cases cfg.handlers.find? (·.1 = name) with
  | some h => exact chain_runAction cfg _ p n
  | none => exact .refl _

theorem limit_applyFlag (p : Parser σ) (flag : List Char × List Char) :
    limit (fun n => applyFlag cfg (parseString cfg n) p flag) = applyFlag cfg (meaning cfg) p flag := by
  have hrun : limit (fun n => runHandler cfg (parseString cfg n) flag.1 flag.2 p) =
      runHandler cfg (meaning cfg) flag.1 flag.2 p := by
    unfold runHandler
    cases cfg.handlers.find? (·.1 = flag.1) with
    | some h => exact limit_runAction cfg _ p
    | none => exact limit_const _
  have hchain := chain_runHandler cfg flag.1 flag.2 p
  unfold applyFlag
  rw [limit_bind hchain fun r => chain_const (if !r.1 then stopped .flagParsingFailed else pure r.2)]
  simp only [hrun, limit_const]

theorem chain_runFlags (env : Option (List Char)) (e : Ending) (fs : List (List Char × List Char))
    (p : Parser σ) : Chain fun n => runFlags cfg env e n fs p := by
  intro n
  induction fs generalizing p n with
  | nil =>
    cases n with
    | zero => exact Or.inl rfl
    | succ n => exact .refl _
  | cons f fs ih =>
    cases n with
    | zero => exact Or.inl rfl
    | succ n =>
      exact (applyFlag_approx (fun s env p => chain_parseString cfg s env p n) p f).bind
        fun q => ih q n

theorem limit_runFlags (env : Option (List Char)) (e : Ending) (fs : List (List Char × List Char))
    (p : Parser σ) : limit (fun n => runFlags cfg env e n fs p) =
      fs.foldlM (applyFlag cfg (meaning cfg)) p >>= fun p' => e.finish cfg env p' := by
  induction fs generalizing p with
  | nil =>
    rw [(chain_runFlags cfg env e [] p).limit_succ]
    exact limit_const _
  | cons f fs ih =>
    rw [(chain_runFlags cfg env e (f :: fs) p).limit_succ, List.foldlM_cons, bind_assoc]
    simp only [runFlags]
    have hchain : Chain fun n => applyFlag cfg (parseString cfg n) p f := fun n =>
      applyFlag_approx (fun s env p => chain_parseString cfg s env p n) p f
    rw [limit_bind hchain fun q => chain_runFlags cfg env e fs q, limit_applyFlag]
    exact congrArg _ (funext ih)

theorem meaning_eq {s : List Char} {fs : List (List Char × List Char)} {e : Ending}
    (h : Options s fs e) (hnul : nul ∉ s) (tail : List Char) (env : Option (List Char)) (p : Parser σ) :
    meaning cfg (some (s ++ nul :: tail)) env p =
      fs.foldlM (applyFlag cfg (meaning cfg)) p >>= fun p' => e.finish cfg env p' := by
  rw [← limit_runFlags]
  exact congrArg limit (funext (parseString_eq cfg h hnul tail env p))

/-! ## What a flag does -/

/-- The calls of `ParseString` that a handler makes. -/
inductive Calls (nested : Nested σ) :
    Action σ → Parser σ → Option (List Char) → Option (List Char) → Parser σ → Prop
  /-- The first call. -/
  | first {s env flags next p} :
    Calls nested (.parseString s env flags next) p s env { p with flags := flags }
  /-- A call after the first has returned. -/
  | later {s env flags next p q s' env' p'} (h : nested s env { p with flags := flags } = .returned q)
    (hc : Calls nested (next q.flags) q s' env' p') :
    Calls nested (.parseString s env flags next) p s' env' p'

section Flag

variable {nested : Nested σ}

theorem runAction_eq_fail {r : Option Stop} (action : Action σ) (p : Parser σ) :
    runAction nested action p = fail r ↔
      ∃ s env q, Calls nested action p s env q ∧ nested s env q = fail r := by
  induction action generalizing p with
  | done accepted flags =>
    exact iff_of_false (fail_ne_returned r _).symm fun ⟨_, _, _, hc, _⟩ => nomatch hc
  | parseString s env flags next ih =>
    rw [runAction, bind_eq_fail]
    constructor
    · rintro (h | ⟨q, hq, h⟩)
      · exact ⟨s, env, _, .first, h⟩
      · obtain ⟨s', env', p', hc, h'⟩ := (ih _ q).mp h
        exact ⟨s', env', p', .later hq hc, h'⟩
    · rintro ⟨s', env', p', hc, h⟩
      cases hc with
      | first => exact Or.inl h
      | later hq hc => exact Or.inr ⟨_, hq, (ih _ _).mpr ⟨s', env', p', hc, h⟩⟩

/-- The calls of `ParseString` that the handler of a flag makes. -/
def FlagCalls (cfg : Config σ) (nested : Nested σ) (f : List Char × List Char) (p : Parser σ)
    (s env : Option (List Char)) (q : Parser σ) : Prop :=
  ∃ h, cfg.handlers.find? (·.1 = f.1) = some h ∧ Calls nested (h.2 f.2 p.flags) p s env q

/-- A flag that has no handler. -/
def Unknown (cfg : Config σ) (f : List Char × List Char) : Prop :=
  cfg.handlers.find? (·.1 = f.1) = none

theorem runHandler_eq_fail {r : Option Stop} {p : Parser σ} {f : List Char × List Char} :
    runHandler cfg nested f.1 f.2 p = fail r ↔
      (Unknown cfg f ∧ kMaxUnknownFlags ≤ p.unknownFlags.length ∧ r = some .tooManyUnknownFlags) ∨
      ∃ s env q, FlagCalls cfg nested f p s env q ∧ nested s env q = fail r := by
  unfold runHandler FlagCalls Unknown
  cases cfg.handlers.find? (·.1 = f.1) with
  | some h =>
    simp only [runAction_eq_fail, reduceCtorEq, false_and, false_or, Option.some.injEq, exists_eq_left']
  | none =>
    simp only [reduceCtorEq, false_and, exists_false, or_false, true_and]
    by_cases hlt : p.unknownFlags.length < kMaxUnknownFlags
    · simp only [addUnknown, if_pos hlt, returned_bind, pure_eq]
      exact iff_of_false (fail_ne_returned r _).symm fun h => absurd hlt (Nat.not_lt.mpr h.1)
    · simp only [addUnknown, if_neg hlt, stopped_bind]
      constructor
      · exact fun h => ⟨Nat.not_lt.mp hlt, stopped_eq_fail.mp h⟩
      · rintro ⟨-, rfl⟩
        rfl

theorem applyFlag_eq_fail {r : Option Stop} {p : Parser σ} {f : List Char × List Char} :
    applyFlag cfg nested p f = fail r ↔
      ((∃ q, runHandler cfg nested f.1 f.2 p = .returned (false, q)) ∧ r = some .flagParsingFailed) ∨
      (Unknown cfg f ∧ kMaxUnknownFlags ≤ p.unknownFlags.length ∧ r = some .tooManyUnknownFlags) ∨
      ∃ s env q, FlagCalls cfg nested f p s env q ∧ nested s env q = fail r := by
  rw [applyFlag, bind_eq_fail, runHandler_eq_fail, or_comm]
  refine or_congr_left ?_
  constructor
  · rintro ⟨⟨res, q⟩, hq, h⟩
    cases res with
    | false => exact ⟨⟨q, hq⟩, stopped_eq_fail.mp h⟩
    | true => exact absurd h.symm (fail_ne_returned r q)
  · rintro ⟨⟨q, hq⟩, rfl⟩
    exact ⟨(false, q), hq, rfl⟩

theorem applyFlag_eq_returned {p p' : Parser σ} {f : List Char × List Char} :
    applyFlag cfg nested p f = .returned p' ↔
      runHandler cfg nested f.1 f.2 p = .returned (true, p') := by
  rw [applyFlag, bind_eq_returned]
  constructor
  · rintro ⟨⟨res, q⟩, hq, h⟩
    cases res with
    | false => cases h
    | true => exact hq.trans (by rw [Outcome.returned.inj h])
  · exact fun h => ⟨(true, p'), h, rfl⟩

end Flag

/-! ## What a string does -/

/-- `run_handler` is called for the flags in their order, and accepts them all. -/
inductive Handled : List (List Char × List Char) → Parser σ → Parser σ → Prop
  /-- No flag. -/
  | nil {p} : Handled [] p p
  /-- One more flag. -/
  | cons {f fs p q p'} (h : runHandler cfg (meaning cfg) f.1 f.2 p = .returned (true, q))
    (hs : Handled fs q p') : Handled (f :: fs) p p'

theorem foldlM_eq_returned {fs : List (List Char × List Char)} {p p' : Parser σ} :
    fs.foldlM (applyFlag cfg (meaning cfg)) p = .returned p' ↔ Handled cfg fs p p' := by
  induction fs generalizing p with
  | nil =>
    constructor
    · exact fun h => Outcome.returned.inj h ▸ .nil
    · rintro ⟨⟩
      rfl
  | cons f fs ih =>
    rw [List.foldlM_cons, bind_eq_returned]
    constructor
    · rintro ⟨q, hq, h⟩
      exact .cons ((applyFlag_eq_returned cfg).mp hq) (ih.mp h)
    · rintro (_ | ⟨hq, h⟩)
      exact ⟨_, (applyFlag_eq_returned cfg).mpr hq, ih.mpr h⟩

/-- The death at the end of a reading. -/
def Ending.death (env : Option (List Char)) : Ending → Option Stop
  | eof => none
  | expectedEquals => some (.expectedEquals env)
  | unterminatedString => some .unterminatedString

/-- A flag at which a string fails, after the flags before it have been accepted. -/
def FailsAt (fs : List (List Char × List Char)) (p : Parser σ)
    (failure : List Char × List Char → Parser σ → Prop) : Prop :=
  ∃ fs₁ f fs₂ q, fs = fs₁ ++ f :: fs₂ ∧ Handled cfg fs₁ p q ∧ failure f q

/-- The strings that the handlers parse are terminated. -/
def Action.NulTerminated : Action σ → Prop
  | .done _ _ => True
  | .parseString s _ _ next => (∀ text ∈ s, nul ∈ text) ∧ ∀ flags, (next flags).NulTerminated

theorem includeHandler_nulTerminated {readFile : List Char → Option (List Char)} {pageSize : ℕ}
    (hfiles : ∀ path content, readFile path = some content → content.length < max (2^15) pageSize)
    (substitute : List Char → List Char) (ignoreMissing : Bool) (value : List Char) (flags : σ) :
    (includeHandler readFile pageSize substitute ignoreMissing value flags).NulTerminated := by
  unfold includeHandler
  generalize (if '%' ∈ value then substitute value else value) = path
  cases hread : readFile path with
  | none => simp [parseFile, hread, Action.NulTerminated]
  | some content =>
    have hnul : nul ∈ fileBuffer (max (2^15) pageSize) content := by
      rw [fileBuffer, if_pos (hfiles path content hread)]
      exact List.mem_append_right _ List.mem_cons_self
    simp only [parseFile, hread, Action.NulTerminated, Option.mem_some_iff, forall_eq', implies_true,
      and_true]
    exact hnul

theorem Calls.nulTerminated {nested : Nested σ} {action : Action σ} {p q : Parser σ}
    {s env : Option (List Char)} (h : Calls nested action p s env q) (ha : action.NulTerminated) :
    ∀ text ∈ s, nul ∈ text := by
  induction h with
  | first => exact ha.1
  | later _ _ ih => exact ih (ha.2 _)

/-- Neither the end of the memory of a string is passed nor the branch `expected separator or eol`
reached when each string is terminated. -/
theorem runFlags_ne_fail {r : Stop} (hr : r = .overrun ∨ r = .expectedSeparator)
    (hcfg : ∀ h ∈ cfg.handlers, ∀ value flags, (h.2 value flags).NulTerminated) (n : ℕ) :
    ∀ (env : Option (List Char)) (e : Ending) (fs : List (List Char × List Char)) (p : Parser σ),
      runFlags cfg env e n fs p ≠ fail (some r) := by
  induction n with
  | zero => exact fun _ _ _ _ => nofun
  | succ n ih =>
    -- The nested calls have less fuel.
    have hnested : ∀ (s env : Option (List Char)) (p : Parser σ), (∀ text ∈ s, nul ∈ text) →
        parseString cfg n s env p ≠ fail (some r) := by
      intro s env p hs
      cases s with
      | none => exact (fail_ne_returned _ _).symm
      | some text =>
        obtain ⟨s, tail, rfl, hnul⟩ := List.eq_append_cons_of_mem (hs text rfl)
        obtain ⟨fs, e, ho⟩ := exists_options s
        rw [parseString_eq cfg ho hnul]
        exact ih env e fs p
    intro env e fs p
    cases fs with
    | nil =>
      rcases hr with rfl | rfl <;> cases e <;> nofun
    | cons f fs =>
      rw [runFlags, Ne, bind_eq_fail, applyFlag_eq_fail]
      rintro ((⟨-, h⟩ | ⟨-, -, h⟩ | ⟨s, env', q, ⟨handler, hmem, hc⟩, h⟩) | ⟨q, -, h⟩)
      · rcases hr with rfl | rfl <;> cases h
      · rcases hr with rfl | rfl <;> cases h
      · exact hnested s env' q (hc.nulTerminated (hcfg handler (List.mem_of_find?_eq_some hmem) _ _)) h
      · exact ih env e fs q h

theorem finish_eq_fail {env : Option (List Char)} {e : Ending} {p : Parser σ} {r : Option Stop} :
    e.finish cfg env p = fail r ↔ ∃ d, e.death env = some d ∧ r = some d := by
  cases e with
  | eof => exact iff_of_false (fail_ne_returned r _).symm fun ⟨_, h, _⟩ => nomatch h
  | expectedEquals => simp [Ending.finish, Ending.death, stopped_eq_fail]
  | unterminatedString => simp [Ending.finish, Ending.death, stopped_eq_fail]

theorem meaning_eq_fail {s : List Char} {fs : List (List Char × List Char)} {e : Ending}
    (h : Options s fs e) (hnul : nul ∉ s) (tail : List Char) (env : Option (List Char)) (p : Parser σ)
    (r : Option Stop) :
    meaning cfg (some (s ++ nul :: tail)) env p = fail r ↔
      (∃ q d, Handled cfg fs p q ∧ e.death env = some d ∧ r = some d) ∨
      FailsAt cfg fs p fun f q =>
        ((∃ q', runHandler cfg (meaning cfg) f.1 f.2 q = .returned (false, q')) ∧
          r = some .flagParsingFailed) ∨
        (Unknown cfg f ∧ kMaxUnknownFlags ≤ q.unknownFlags.length ∧ r = some .tooManyUnknownFlags) ∨
        ∃ s' env' q', FlagCalls cfg (meaning cfg) f q s' env' q' ∧ meaning cfg s' env' q' = fail r := by
  rw [meaning_eq cfg h hnul, bind_eq_fail, or_comm]
  simp only [foldlM_eq_returned, finish_eq_fail, foldlM_eq_fail, applyFlag_eq_fail, FailsAt,
    exists_and_left]

theorem meaning_ne_stopped {r : Stop} (hr : r = .overrun ∨ r = .expectedSeparator)
    (hcfg : ∀ h ∈ cfg.handlers, ∀ value flags, (h.2 value flags).NulTerminated) {text : List Char}
    (hnul : nul ∈ text) (env : Option (List Char)) (p : Parser σ) :
    meaning cfg (some text) env p ≠ .stopped r := by
  intro hstop
  obtain ⟨s, tail, rfl, hs⟩ := List.eq_append_cons_of_mem hnul
  obtain ⟨fs, e, h⟩ := exists_options s
  obtain ⟨n, hn⟩ := (chain_parseString cfg (some (s ++ nul :: tail)) env p).eventually
  have hrun := (hn n le_rfl).trans hstop
  rw [parseString_eq cfg h hs] at hrun
  exact runFlags_ne_fail cfg hr hcfg n env e fs p hrun

/-- `ParseString` on the string `s`, terminated by a NUL that anything may follow. The string has one
reading. `ParseString` returns exactly when the reading ends well and `run_handler`, called for its flags
in their order, accepts them all; it dies exactly when a flag has no `=`, a quote is not closed, a
handler rejects its value, an unknown flag comes after `kMaxUnknownFlags` others, or a `ParseString` that
a handler calls dies; and it goes on for ever only when a `ParseString` that a handler calls does. What
is behind the NUL is not read when the handlers pass on terminated strings only. A handler, whatever it
parses, leaves the cursor of its caller alone. -/
theorem parseString_reads {s : List Char} (hnul : nul ∉ s) (tail : List Char)
    (env : Option (List Char)) (p : Parser σ) :
    ∃ fs e, (∀ fs' e', Options s fs' e' ↔ fs' = fs ∧ e' = e) ∧
      (∀ p', meaning cfg (some (s ++ nul :: tail)) env p = .returned p' ↔
        e = .eof ∧ ∃ q, Handled cfg fs p q ∧ p' = { q with flags := cfg.sanityCheck q.flags }) ∧
      (∀ d, meaning cfg (some (s ++ nul :: tail)) env p = .stopped d ↔
        (∃ q, Handled cfg fs p q ∧ e.death env = some d) ∨
        FailsAt cfg fs p fun f q =>
          ((∃ q', runHandler cfg (meaning cfg) f.1 f.2 q = .returned (false, q')) ∧
            d = .flagParsingFailed) ∨
          (Unknown cfg f ∧ kMaxUnknownFlags ≤ q.unknownFlags.length ∧ d = .tooManyUnknownFlags) ∨
          ∃ s' env' q', FlagCalls cfg (meaning cfg) f q s' env' q' ∧
            meaning cfg s' env' q' = .stopped d) ∧
      (meaning cfg (some (s ++ nul :: tail)) env p = .unfinished ↔
        FailsAt cfg fs p fun f q => ∃ s' env' q', FlagCalls cfg (meaning cfg) f q s' env' q' ∧
          meaning cfg s' env' q' = .unfinished) ∧
      ((∀ h ∈ cfg.handlers, ∀ value flags, (h.2 value flags).NulTerminated) →
        meaning cfg (some (s ++ nul :: tail)) env p ≠ .stopped .overrun ∧
        meaning cfg (some (s ++ nul :: tail)) env p ≠ .stopped .expectedSeparator) ∧
      ∀ n name value q res q', runHandler cfg (parseString cfg n) name value q = .returned (res, q') →
        q'.buf = q.buf ∧ q'.pos = q.pos := by
  obtain ⟨fs, e, h⟩ := exists_options s
  refine ⟨fs, e, fun fs' e' => ?_, fun p' => ?_, fun d => ?_, ?_, fun hcfg => ?_,
    fun n name value q res q' => runHandler_cursor cfg (cursorFree_withString _)⟩
  · constructor
    · exact fun h' => h'.unique h
    · rintro ⟨rfl, rfl⟩
      exact h
  · rw [meaning_eq cfg h hnul, bind_eq_returned]
    simp only [foldlM_eq_returned]
    constructor
    · rintro ⟨q, hq, hp'⟩
      cases e with
      | eof => exact ⟨rfl, q, hq, (Outcome.returned.inj hp').symm⟩
      | expectedEquals => cases hp'
      | unterminatedString => cases hp'
    · rintro ⟨rfl, q, hq, rfl⟩
      exact ⟨q, hq, rfl⟩
  · refine (meaning_eq_fail cfg h hnul tail env p (some d)).trans ?_
    simp only [Option.some.injEq, exists_and_left, exists_eq_right']
    rfl
  · refine (meaning_eq_fail cfg h hnul tail env p none).trans ?_
    simp only [reduceCtorEq, and_false, exists_false, false_or]
    rfl
  · have hmem : nul ∈ s ++ nul :: tail := List.mem_append_right _ List.mem_cons_self
    exact ⟨meaning_ne_stopped cfg (Or.inl rfl) hcfg hmem env p,
      meaning_ne_stopped cfg (Or.inr rfl) hcfg hmem env p⟩

/-- A flag that takes any value: `a=1` is read and handled. -/
theorem parseString_reads_one_flag :
    ∃ p' : Parser (List Char), meaning
        { handlers := [(['a'], fun value _ => .done true value)] } (some (['a', '=', '1'] ++ [nul])) none
        { flags := [] } = .returned p' ∧ p'.flags = ['1'] := by
  have hread : Options ['a', '=', '1'] [(['a'], ['1'])] .eof :=
    .single (by decide : IsName ['a']) (by decide) (by decide)
  obtain ⟨fs, e, hunique, hreturned, -⟩ := parseString_reads
    { handlers := [(['a'], fun value _ => .done true value)] } (show nul ∉ ['a', '=', '1'] by decide) []
    none ({ flags := [] } : Parser (List Char))
  obtain ⟨rfl, rfl⟩ := (hunique _ _).mp hread
  exact ⟨_, (hreturned _).mpr ⟨rfl, _, .cons rfl .nil, rfl⟩, rfl⟩

/-! ## A file that includes itself -/

/-- The contents of a file `a` that includes itself. -/
def includeSelf : List Char := ['i', 'n', 'c', 'l', 'u', 'd', 'e', '=', 'a']

/-- The include flag, where the file `a` includes itself. -/
def includeConfig : Config Unit where
  handlers := [(['i', 'n', 'c', 'l', 'u', 'd', 'e'],
    includeHandler (fun path => if path = ['a'] then some includeSelf else none) (2^12) id false)]

theorem options_includeSelf :
    Options includeSelf [(['i', 'n', 'c', 'l', 'u', 'd', 'e'], ['a'])] .eof :=
  .single (by decide : IsName ['i', 'n', 'c', 'l', 'u', 'd', 'e']) (by decide) (by decide)

theorem include_unfinished (n : ℕ) (env : Option (List Char)) (p : Parser Unit) :
    parseString includeConfig n (some (includeSelf ++ [nul])) env p = .unfinished := by
  induction n generalizing env p with
  | zero => rfl
  | succ n ih =>
    rw [parseString_eq includeConfig options_includeSelf (by decide) []]
    have hrun : runHandler includeConfig (parseString includeConfig n)
        ['i', 'n', 'c', 'l', 'u', 'd', 'e'] ['a'] p = .unfinished := by
      change parseString includeConfig n (some (includeSelf ++ [nul])) (some ['a']) p >>= _ = _
      rw [ih]
      rfl
    rw [runFlags, applyFlag, hrun]
    rfl

/-- `ParseString` does not return on every string: it goes on for ever when a file includes itself. -/
theorem include_diverges :
    ¬ ∀ (cfg : Config Unit) (s tail : List Char) (env : Option (List Char)) (p : Parser Unit),
      nul ∉ s → meaning cfg (some (s ++ nul :: tail)) env p ≠ .unfinished := fun h =>
  h includeConfig includeSelf [] none { flags := () } (by decide)
    (limit_eq_unfinished.mpr fun n => include_unfinished n none _)

end Tasan.FlagParser
