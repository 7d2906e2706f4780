import Tasan.Print.Messages
import Tasan.ReportPath.Model

/-!
# What a pattern expands to

The expansion of a pattern is given by recursion over it (`expand`), without an index and without a
destination, and `Meets` says what `ParseAndSetPath` is there for: it leaves the expansion in the
destination, or the pattern itself when there is an unknown sequence, or it dies, and then for a
reason.

The length of the destination is only checked after a text has been appended to it. Where the text
is the value of a directive, `internal_strlcat` keeps to the size. The literal text before a
directive, however, is appended with a limit of its own, behind which the destination may end. The
condition `Room` says that each literal text before a directive that is come to does fit, and
`parseAndSetPath_iff` that this, and that the pattern is not empty, is what the function needs: the
bound of the loop is the length of the pattern less one, which wraps for the empty pattern.
-/

namespace Tasan.ReportPath

open FlagParser (nul)
open Format (toInt)

/-! ## Expansions -/

/-- What a pattern expands to. -/
inductive Expansion
  /-- The directives have values. -/
  | text (t : List Char)
  /-- A variable is not set. What comes before it is expanded. -/
  | unset (t : List Char)
  /-- A sequence is unknown. What comes before it is expanded. -/
  | unknown (t : List Char)

/-- What is expanded. -/
def Expansion.expanded : Expansion → List Char
  | .text t => t
  | .unset t => t
  | .unknown t => t

/-- The expansion after some text. -/
def Expansion.prepend (s : List Char) : Expansion → Expansion
  | .text t => .text (s ++ t)
  | .unset t => .unset (s ++ t)
  | .unknown t => .unknown (s ++ t)

/-- The value of a directive, if it is one and has one. -/
def Env.value (env : Env) (c : Char) : Option (Option (List Char)) :=
  if c = '%' then some (some ['%'])
  else if c = 'H' then some env.home
  else if c = 't' then some env.tmpdir
  else if c = 'p' then some (some env.pidText)
  else none

/-- The expansion of a pattern. The last character is no directive. -/
def expand (env : Env) : List Char → Expansion
  | [] => .text []
  | [c] => .text [c]
  | c :: d :: rest =>
    if c = '%' then
      match env.value d with
      | none => .unknown []
      | some none => .unset []
      | some (some v) => (expand env rest).prepend v
    else (expand env (d :: rest)).prepend [c]

/-- How `ParseAndSetPath` may end. -/
inductive Meets (destSize : ℕ) (pattern : List Char) :
    Expansion → Outcome Fault (List Char) → Prop
  /-- The expansion is in the destination. -/
  | text (t rest : List Char) : Meets destSize pattern (.text t) (.returned (t ++ nul :: rest))
  /-- The pattern is in the destination. -/
  | pattern (t rest : List Char) :
    Meets destSize pattern (.unknown t) (.returned (pattern ++ nul :: rest))
  /-- A variable that is needed is not set. -/
  | unset (t : List Char) : Meets destSize pattern (.unset t) (.stopped .died)
  /-- The destination is not larger than the expansion and the pattern together. -/
  | small (e : Expansion) (hle : destSize ≤ e.expanded.length + pattern.length) :
    Meets destSize pattern e (.stopped .died)

/-- Each literal text before a directive fits into the destination, and is shorter than `2^31`, and
so is the room for the PID, as far as it matters. There are `len` characters in the destination, and
`lit` literal ones come before the rest of the pattern. What comes after a check that fails does not
matter. -/
def Room (env : Env) (destSize : ℕ) : ℕ → ℕ → List Char → Prop
  | _, _, [] => True
  | _, _, [_] => True
  | len, lit, c :: d :: rest =>
    if c = '%' then
      len + lit < destSize ∧ lit < 2^31 ∧
      (len + (lit + (rest.length + 2)) < destSize →
        match env.value d with
        | none => True
        | some none => True
        | some (some v) => len + lit + v.length < destSize →
          (d = 'p' → v.length < toInt (destSize - (len + lit))) ∧
            Room env destSize (len + lit + v.length) 0 rest)
    else Room env destSize len (lit + 1) (d :: rest)

theorem Expansion.prepend_prepend (s t : List Char) (e : Expansion) :
    (e.prepend t).prepend s = e.prepend (s ++ t) := by
  cases e <;> exact congrArg _ (List.append_assoc s t _).symm

theorem Expansion.length_prepend (s : List Char) (e : Expansion) :
    (e.prepend s).expanded.length = s.length + e.expanded.length := by
  cases e <;> exact List.length_append

/-! ## Directives -/

section

variable {env : Env} {destSize : ℕ} {text dest v : List Char} {c : Char}

theorem directive_none (hc : env.value c = none) (dest : List Char) :
    directive env destSize c dest = none := by
  unfold Env.value at hc
  unfold directive
  split_ifs at hc ⊢
  rfl

theorem directive_unset (hc : env.value c = some none) (dest : List Char) :
    directive env destSize c dest = some (.stopped .died) := by
  unfold Env.value at hc
  unfold directive
  split_ifs at hc ⊢
  · exact absurd (Option.some.inj hc) (Option.some_ne_none _)
  · rw [Option.some.inj hc]
    rfl
  · rw [Option.some.inj hc]
    rfl
  · exact absurd (Option.some.inj hc) (Option.some_ne_none _)

theorem Env.nul_not_mem_value (hc : env.value c = some (some v)) : nul ∉ v := by
  unfold Env.value at hc
  split_ifs at hc
  · obtain rfl := Option.some.inj (Option.some.inj hc)
    decide
  · have hhome := Option.some.inj hc
    exact env.nul_not_mem v
      (List.mem_append_left _ (by rw [hhome]; exact List.mem_singleton_self v))
  · have htmpdir := Option.some.inj hc
    exact env.nul_not_mem v
      (List.mem_append_right _ (by rw [htmpdir]; exact List.mem_singleton_self v))
  · obtain rfl := Option.some.inj (Option.some.inj hc)
    exact Print.nul_not_mem_rendering_d _

/-- A directive appends its value if there is room for it, and dies otherwise. -/
theorem directive_value (h : Holds destSize text dest) (hc : env.value c = some (some v)) :
    (text.length + v.length < destSize → (c = 'p' → v.length < toInt (destSize - text.length)) →
      ∃ dest', directive env destSize c dest = some (.returned dest') ∧
        Holds destSize (text ++ v) dest') ∧
    (destSize ≤ text.length + v.length →
      directive env destSize c dest = some (.stopped .died)) := by
  have hv := Env.nul_not_mem_value hc
  have hconcat := concat_spec h hv
  have hstr : ∀ str, some str = some (some v) →
      (text.length + v.length < destSize → (c = 'p' → v.length < toInt (destSize - text.length)) →
        ∃ dest', some (concat destSize str dest) = some (.returned dest') ∧
          Holds destSize (text ++ v) dest') ∧
      (destSize ≤ text.length + v.length →
        some (concat destSize str dest) = some (.stopped .died)) := by
    intro str hstr
    rw [Option.some.inj hstr]
    refine ⟨fun hroom _ => ?_, fun hroom => congrArg some (hconcat.2 hroom)⟩
    obtain ⟨dest', hrun, hdest⟩ := hconcat.1 hroom
    exact ⟨dest', congrArg some hrun, hdest⟩
  unfold Env.value at hc
  unfold directive
  split_ifs at hc ⊢ with hpercent hhome htmpdir hp
  · exact hstr _ hc
  · exact hstr _ hc
  · exact hstr _ hc
  · -- behind the PID, nothing is appended
    obtain rfl := Option.some.inj (Option.some.inj hc)
    have hprint := printPid_spec env h
    constructor
    · intro hroom hint
      obtain ⟨dest', hrun, hdest⟩ := hprint.1 (hint hp)
      obtain ⟨dest'', hrun', hdest'⟩ := (concat_spec hdest (List.not_mem_nil)).1 (by
        rw [List.length_append]
        exact hroom)
      rw [hrun, Outcome.returned_bind, hrun']
      rw [List.append_nil] at hdest'
      exact ⟨dest'', rfl, hdest'⟩
    · intro hroom
      have hle := Print.toInt_le (destSize - text.length)
      rw [hprint.2 (by omega)]
      rfl

end

/-! ## The loop -/

section

variable {env : Env} {destSize : ℕ} {text pre lit rest done dest : List Char} {c d : Char}
  (hnul : nul ∉ text) (hword : text.length < 2^64) (h : Holds destSize done dest)

include hnul hword

/-- The index is before the last character of the pattern. -/
theorem parseLoop_lt (htext : text = pre ++ (lit ++ c :: d :: rest)) (fuel next : ℕ) :
    parseLoop env destSize (text ++ [nul]) (fuel + 1) (pre.length + lit.length) next dest =
      if c ≠ '%' then
        parseLoop env destSize (text ++ [nul]) fuel (pre.length + lit.length + 1) next dest
      else (do
        let destLen ← internalStrlen dest
        let result ← internalStrlcat dest ((text ++ [nul]).drop next)
          (addLength destLen (toInt (pre.length + lit.length - next)))
        let dest ← checkLt destSize result
        match directive env destSize d dest with
        | some run => do
          let dest ← run
          parseLoop env destSize (text ++ [nul]) fuel (pre.length + lit.length + 2)
            (pre.length + lit.length + 2) dest
        | none => do
          let result ← internalStrlcpy dest (text ++ [nul]) destSize
          checkLt destSize result) := by
  have hlen : text.length = pre.length + lit.length + (rest.length + 2) := by
    rw [htext, List.length_append, List.length_append, List.length_cons, List.length_cons]
    omega
  have hsplit : text ++ [nul] = (pre ++ lit) ++ c :: d :: (rest ++ [nul]) := by
    rw [htext]
    simp only [List.append_assoc, List.cons_append]
  have hc : charAt (text ++ [nul]) (pre.length + lit.length) = .returned c := by
    unfold charAt
    rw [hsplit, ← List.length_append, List.getElem?_append_right le_rfl, Nat.sub_self]
    rfl
  have hd : charAt (text ++ [nul]) (pre.length + lit.length + 1) = .returned d := by
    unfold charAt
    rw [hsplit, ← List.length_append, List.getElem?_append_right (Nat.le_succ _),
      Nat.succ_sub le_rfl, Nat.sub_self]
    rfl
  have hbound : Word.sub 64 text.length 1 = text.length - 1 :=
    Word.sub_of_le (by omega) hword
  rw [parseLoop, internalStrlen_string hnul, Outcome.returned_bind, hbound, if_pos (by omega), hc,
    Outcome.returned_bind, hd]
  rfl

theorem parseLoop_ge (hne : text ≠ []) (htext : text = pre ++ (lit ++ rest))
    (hrest : rest.length ≤ 1) (fuel : ℕ) :
    parseLoop env destSize (text ++ [nul]) (fuel + 1) (pre.length + lit.length) pre.length dest =
      concat destSize (some (lit ++ rest)) dest := by
  have hpos := List.length_pos_iff.mpr hne
  have hlen : text.length = pre.length + (lit.length + rest.length) := by
    rw [htext, List.length_append, List.length_append]
  have hdrop : (text ++ [nul]).drop pre.length = lit ++ rest ++ [nul] := by
    rw [htext, List.append_assoc, List.drop_left]
  have hbound : Word.sub 64 text.length 1 = text.length - 1 :=
    Word.sub_of_le (by omega) hword
  rw [parseLoop, internalStrlen_string hnul, Outcome.returned_bind, hbound, if_neg (by omega),
    hdrop]
  rfl

include h

/-- The literal text before a directive is appended. -/
theorem parseLoop_literal (htext : text = pre ++ (lit ++ '%' :: d :: rest))
    (hlit : lit.length < 2^31) (hadd : done.length + lit.length + 1 < 2^64) (fuel : ℕ) :
    (destSize ≤ done.length + lit.length →
      parseLoop env destSize (text ++ [nul]) (fuel + 1) (pre.length + lit.length) pre.length dest =
        .stopped .outside) ∧
    (done.length + lit.length < destSize →
      destSize ≤ done.length + (lit.length + (rest.length + 2)) →
      parseLoop env destSize (text ++ [nul]) (fuel + 1) (pre.length + lit.length) pre.length dest =
        .stopped .died) ∧
    (done.length + (lit.length + (rest.length + 2)) < destSize →
      ∃ dest', Holds destSize (done ++ lit) dest' ∧
        parseLoop env destSize (text ++ [nul]) (fuel + 1) (pre.length + lit.length) pre.length
            dest =
          match directive env destSize d dest' with
          | some run => do
            let dest ← run
            parseLoop env destSize (text ++ [nul]) fuel (pre.length + lit.length + 2)
              (pre.length + lit.length + 2) dest
          | none => do
            let result ← internalStrlcpy dest' (text ++ [nul]) destSize
            checkLt destSize result) := by
  have hdrop : (text ++ [nul]).drop pre.length = lit ++ '%' :: d :: rest ++ nul :: [] := by
    rw [htext, List.append_assoc, List.drop_left]
  have hs : nul ∉ lit ++ '%' :: d :: rest := by
    intro hmem
    exact hnul (by rw [htext]; exact List.mem_append_right _ hmem)
  have hslen : (lit ++ '%' :: d :: rest).length = lit.length + (rest.length + 2) :=
    List.length_append
  have hmax : addLength done.length (toInt (pre.length + lit.length - pre.length)) =
      done.length + lit.length + 1 := by
    unfold addLength
    rw [Nat.add_sub_cancel_left, Print.toInt_of_lt hlit]
    omega
  have hkeep : done.length + lit.length + 1 - done.length - 1 = lit.length := by omega
  have happend := internalStrlcat_spec h hs [] (show done.length < done.length + lit.length + 1 by
    omega)
  rw [hslen, hkeep, min_eq_right (by omega), List.take_left' rfl] at happend
  rw [parseLoop_lt hnul hword htext, if_neg (not_not.mpr rfl), h.strlen, Outcome.returned_bind,
    hmax, hdrop]
  unfold checkLt at *
  refine ⟨fun hfull => ?_, fun hroom hsmall => ?_, fun hroom => ?_⟩
  · rw [happend.2 hfull]
    rfl
  · obtain ⟨dest', hrun, -⟩ := happend.1 hroom
    rw [hrun, Outcome.returned_bind, if_neg (by dsimp only; omega)]
    rfl
  · obtain ⟨dest', hrun, hdest⟩ := happend.1 (by omega)
    refine ⟨dest', hdest, ?_⟩
    rw [hrun, Outcome.returned_bind, if_pos hroom]
    rfl

omit hnul hword h

theorem length_le_expanded (s : List Char) (e : Expansion) :
    s.length ≤ (e.prepend s).expanded.length := by
  rw [Expansion.length_prepend]
  exact Nat.le_add_right _ _

/-- The loop does what it is there for, as long as there is room for the literal texts. -/
theorem parseLoop_meets (hnul : nul ∉ text) (hne : text ≠ []) (hword : text.length < 2^64)
    (hsize : destSize < 2^64) {fuel : ℕ} (htext : text = pre ++ (lit ++ rest))
    (hfuel : rest.length < fuel) (h : Holds destSize done dest)
    (hroom : Room env destSize done.length lit.length rest) :
    Meets destSize text ((expand env rest).prepend (done ++ lit))
      (parseLoop env destSize (text ++ [nul]) fuel (pre.length + lit.length) pre.length dest) := by
  induction fuel generalizing pre lit rest done dest with
  | zero => omega
  | succ fuel ih =>
    have hpattern : lit.length + rest.length ≤ text.length := by
      rw [htext, List.length_append, List.length_append]
      omega
    -- the end of the pattern
    have hlast : rest.length ≤ 1 → expand env rest = .text rest →
        Meets destSize text ((expand env rest).prepend (done ++ lit))
          (parseLoop env destSize (text ++ [nul]) (fuel + 1) (pre.length + lit.length) pre.length
            dest) := by
      intro hle hexpand
      have htail : nul ∉ lit ++ rest :=
        fun hmem => hnul (by rw [htext]; exact List.mem_append_right _ hmem)
      have hconcat := concat_spec h htail
      rw [parseLoop_ge hnul hword hne htext hle, hexpand]
      rcases Nat.lt_or_ge (done.length + (lit ++ rest).length) destSize with hlt | hge
      · obtain ⟨dest', hrun, hdest⟩ := hconcat.1 hlt
        obtain ⟨old, rfl⟩ := hdest.eq
        rw [hrun, ← List.append_assoc]
        exact Meets.text _ old
      · rw [hconcat.2 hge]
        refine Meets.small _ ?_
        rw [Expansion.length_prepend, List.length_append]
        rw [List.length_append] at hge
        exact (hge.trans (by rw [Nat.add_assoc]; rfl)).trans (Nat.le_add_right _ _)
    match rest with
    | [] => exact hlast (Nat.zero_le _) rfl
    | [c] => exact hlast le_rfl rfl
    | c :: d :: rest =>
      by_cases hc : c = '%'
      · subst hc
        rw [Room, if_pos rfl] at hroom
        obtain ⟨hfits, hlit, hnext⟩ := hroom
        rw [List.length_cons, List.length_cons] at hpattern hfuel
        obtain ⟨-, hdied, hgoes⟩ :=
          @parseLoop_literal env _ _ _ _ _ _ _ _ hnul hword h htext hlit (by omega) fuel
        have hexpanded := length_le_expanded (done ++ lit) (expand env ('%' :: d :: rest))
        rw [List.length_append] at hexpanded
        rcases Nat.lt_or_ge (done.length + (lit.length + (rest.length + 2))) destSize with hlt | hge
        · obtain ⟨dest', hdest, hrun⟩ := hgoes hlt
          have hdirective := hnext hlt
          rw [hrun]
          rw [expand, if_pos rfl] at hexpanded ⊢
          cases hv : env.value d with
          | none =>
            rw [directive_none hv]
            rw [hv] at hexpanded
            have hcopy := internalStrlcpy_spec hdest hnul
            rcases Nat.lt_or_ge text.length destSize with hshort | hlong
            · obtain ⟨dest'', hrun', hdest'⟩ := hcopy.1 hshort
              obtain ⟨old, rfl⟩ := hdest'.eq
              dsimp only
              rw [hrun']
              exact Meets.pattern _ old
            · dsimp only
              rw [hcopy.2 hlong]
              exact Meets.small _ (hlong.trans (Nat.le_add_left _ _))
          | some value =>
            cases value with
            | none =>
              rw [directive_unset hv]
              exact Meets.unset _
            | some v =>
              rw [hv] at hdirective hexpanded
              have hvalue := directive_value hdest hv
              rw [List.length_append] at hvalue
              dsimp only at hdirective ⊢
              rcases Nat.lt_or_ge (done.length + lit.length + v.length) destSize with hless | hmore
              · obtain ⟨hpid, hroom⟩ := hdirective hless
                obtain ⟨dest'', hrun', hdest'⟩ := hvalue.1 hless hpid
                have hpos : (pre ++ (lit ++ ['%', d])).length = pre.length + lit.length + 2 := by
                  simp only [List.length_append, List.length_cons, List.length_nil]
                  omega
                have hlater := @ih (pre ++ (lit ++ ['%', d])) [] rest
                  (done ++ lit ++ v) dest'' (by rw [htext]; simp) (by omega) hdest' (by
                    rw [List.length_append, List.length_append]
                    exact hroom)
                rw [hpos, List.length_nil, Nat.add_zero, List.append_nil] at hlater
                rw [hrun', Expansion.prepend_prepend]
                exact hlater
              · rw [hvalue.2 hmore]
                refine Meets.small _ ?_
                rw [Expansion.prepend_prepend]
                have hle := length_le_expanded (done ++ lit ++ v) (expand env rest)
                rw [List.length_append, List.length_append] at hle
                omega
        · rw [hdied hfits hge]
          exact Meets.small _ (by omega)
      · rw [Room, if_neg hc] at hroom
        have hassoc : lit ++ c :: d :: rest = lit ++ [c] ++ d :: rest := by simp
        have hlater := @ih pre (lit ++ [c]) (d :: rest) _ _ (by rw [htext, hassoc])
          (Nat.lt_of_succ_lt_succ hfuel) h (by rw [List.length_append]; exact hroom)
        rw [parseLoop_lt hnul hword htext, if_pos hc, expand, if_neg hc,
          Expansion.prepend_prepend, List.append_assoc]
        rw [List.length_append, ← Nat.add_assoc] at hlater
        exact hlater

/-- Without room for a literal text, the loop writes outside of the destination. -/
theorem parseLoop_outside (hnul : nul ∉ text) (hlong : text.length < 2^31)
    (hsize : destSize < 2^31) {fuel : ℕ} (htext : text = pre ++ (lit ++ rest))
    (hfuel : rest.length < fuel) (h : Holds destSize done dest)
    (hroom : ¬ Room env destSize done.length lit.length rest) :
    parseLoop env destSize (text ++ [nul]) fuel (pre.length + lit.length) pre.length dest =
      .stopped .outside := by
  induction fuel generalizing pre lit rest done dest with
  | zero => omega
  | succ fuel ih =>
    have hword : text.length < 2^64 := by omega
    have hpattern : lit.length + rest.length ≤ text.length := by
      rw [htext, List.length_append, List.length_append]
      omega
    have hdone := h.length_lt
    match rest with
    | [] => exact absurd trivial hroom
    | [c] => exact absurd trivial hroom
    | c :: d :: rest =>
      by_cases hc : c = '%'
      · subst hc
        rw [Room, if_pos rfl] at hroom
        rw [List.length_cons, List.length_cons] at hpattern hfuel
        have hlit : lit.length < 2^31 := by omega
        obtain ⟨houtside, -, hgoes⟩ :=
          @parseLoop_literal env _ _ _ _ _ _ _ _ hnul hword h htext hlit (by omega) fuel
        rcases Nat.lt_or_ge (done.length + lit.length) destSize with hfits | hfull
        · by_contra hrun
          apply hroom
          refine ⟨hfits, hlit, fun hlt => ?_⟩
          obtain ⟨dest', hdest, hstep⟩ := hgoes hlt
          rw [hstep] at hrun
          cases hv : env.value d with
          | none => trivial
          | some value =>
            cases value with
            | none => trivial
            | some v =>
              dsimp only
              intro hless
              -- the sizes are so small that nothing is narrowed
              have hint : toInt (destSize - (done.length + lit.length)) =
                  (destSize - (done.length + lit.length) : ℕ) := Print.toInt_of_lt (by omega)
              have hpid : v.length < toInt (destSize - (done.length + lit.length)) := by omega
              refine ⟨fun _ => hpid, ?_⟩
              have hvalue := directive_value hdest hv
              rw [List.length_append] at hvalue
              obtain ⟨dest'', hrun', hdest'⟩ := hvalue.1 hless fun _ => hpid
              by_contra hlater
              apply hrun
              have hpos : (pre ++ (lit ++ ['%', d])).length = pre.length + lit.length + 2 := by
                simp only [List.length_append, List.length_cons, List.length_nil]
                omega
              have hnext := @ih (pre ++ (lit ++ ['%', d])) [] rest
                (done ++ lit ++ v) dest'' (by rw [htext]; simp) (by omega) hdest' (by
                  rw [List.length_append, List.length_append]
                  exact hlater)
              rw [hpos, List.length_nil, Nat.add_zero] at hnext
              rw [hrun']
              exact hnext
        · exact houtside hfull
      · rw [Room, if_neg hc] at hroom
        have hassoc : lit ++ c :: d :: rest = lit ++ [c] ++ d :: rest := by simp
        have hlater := @ih pre (lit ++ [c]) (d :: rest) _ _ (by rw [htext, hassoc])
          (Nat.lt_of_succ_lt_succ hfuel) h (by rw [List.length_append]; exact hroom)
        rw [parseLoop_lt hnul hword htext, if_pos hc]
        rw [List.length_append, ← Nat.add_assoc] at hlater
        exact hlater

end

/-! ## The function -/

/-- The pattern is not empty, and there is room for the literal texts in it. -/
def Safe (env : Env) (destSize : ℕ) (pattern : List Char) : Prop :=
  pattern ≠ [] ∧ Room env destSize 0 0 pattern

theorem Meets.not_outside {destSize : ℕ} {pattern : List Char} {e : Expansion} :
    ¬ Meets destSize pattern e (.stopped .outside) := nofun

theorem parseLoop_empty (env : Env) (destSize : ℕ) (dest : List Char) :
    parseLoop env destSize [nul] 2 0 0 dest = .stopped .outside := by
  have hlen : internalStrlen [nul] = .returned 0 := rfl
  have hbound : Word.sub 64 0 1 = 2^64 - 1 := Word.sub_of_lt (by norm_num) (by norm_num)
  have hnul : charAt [nul] 0 = .returned nul := rfl
  have hbehind : charAt [nul] 1 = .stopped .outside := rfl
  rw [parseLoop, hlen, Outcome.returned_bind, hbound, if_pos (by norm_num), hnul,
    Outcome.returned_bind, if_pos (by decide), parseLoop, hlen, Outcome.returned_bind, hbound,
    if_pos (by norm_num), hbehind]
  rfl

theorem Expansion.prepend_nil (e : Expansion) : e.prepend [] = e := by
  cases e <;> rfl

/-- `ParseAndSetPath` leaves the expansion of the pattern in the destination, or dies for a reason,
and does not leave the two objects, if the pattern is not empty and there is room for the literal
texts before its directives; for lengths that are an `int`, only then. -/
theorem parseAndSetPath_iff (env : Env) {destSize : ℕ} (hpos : 1 ≤ destSize)
    (hsize : destSize < 2^64) {pattern : List Char} (hnul : nul ∉ pattern)
    (hword : pattern.length < 2^64) {dest : List Char} (hdest : dest.length = destSize) :
    (Safe env destSize pattern →
      Meets destSize pattern (expand env pattern)
        (parseAndSetPath env destSize (pattern ++ [nul]) dest)) ∧
    (pattern.length < 2^31 → destSize < 2^31 →
      Meets destSize pattern (expand env pattern)
        (parseAndSetPath env destSize (pattern ++ [nul]) dest) →
      Safe env destSize pattern) := by
  have hset : Holds destSize [] (dest.set 0 nul) := by
    refine holds_of_eq hdest List.not_mem_nil hpos ?_
    cases dest with
    | nil => exact absurd hdest (by rw [List.length_nil]; omega)
    | cons c dest => rfl
  have hrun : parseAndSetPath env destSize (pattern ++ [nul]) dest =
      parseLoop env destSize (pattern ++ [nul]) (pattern.length + 2) 0 0 (dest.set 0 nul) := by
    unfold parseAndSetPath setChar
    rw [if_neg (by omega), if_pos (by omega), Outcome.returned_bind, List.length_append]
    rfl
  rw [hrun]
  constructor
  · rintro ⟨hne, hroom⟩
    have hmeets := @parseLoop_meets env destSize pattern [] [] pattern [] (dest.set 0 nul)
      hnul hne hword hsize (pattern.length + 2) rfl
      (show pattern.length < pattern.length + 2 by omega) hset hroom
    rw [List.append_nil, Expansion.prepend_nil] at hmeets
    exact hmeets
  · intro hlong hsmall hmeets
    by_contra hsafe
    rcases not_and_or.mp hsafe with hempty | hroom
    · obtain rfl := not_not.mp hempty
      rw [List.nil_append, List.length_nil, parseLoop_empty] at hmeets
      exact hmeets.not_outside
    · have houtside := @parseLoop_outside env destSize pattern [] [] pattern [] (dest.set 0 nul)
        hnul hlong hsmall (pattern.length + 2) rfl
        (show pattern.length < pattern.length + 2 by omega) hset hroom
      rw [List.length_nil, Nat.add_zero] at houtside
      rw [houtside] at hmeets
      exact hmeets.not_outside

/-- An environment without variables. -/
def bareEnv : Env := ⟨none, none, 7, Print.wideTarget, List.forall_mem_nil _⟩

/-- A pattern with one directive, which fits. -/
theorem parseAndSetPath_iff_percent :
    Meets 8 ['a', '%', '%'] (expand bareEnv ['a', '%', '%'])
      (parseAndSetPath bareEnv 8 (['a', '%', '%'] ++ [nul]) (List.replicate 8 ' ')) :=
  (parseAndSetPath_iff bareEnv (by norm_num) (by norm_num) (by decide) (by norm_num)
    List.length_replicate).1
    ⟨List.cons_ne_nil _ _, by norm_num, by norm_num,
      fun _ _ => ⟨fun h => absurd h (by decide), trivial⟩⟩

/-- The empty pattern is read behind its NUL, and a literal text of four characters before a
directive is written behind a destination of four characters. -/
theorem parseAndSetPath_outside :
    ¬ Meets 4 [] (expand bareEnv [])
        (parseAndSetPath bareEnv 4 ([] ++ [nul]) (List.replicate 4 ' ')) ∧
      ¬ Meets 4 ['a', 'b', 'c', 'd', '%', '%'] (expand bareEnv ['a', 'b', 'c', 'd', '%', '%'])
        (parseAndSetPath bareEnv 4 (['a', 'b', 'c', 'd', '%', '%'] ++ [nul])
          (List.replicate 4 ' ')) := by
  have hempty : parseAndSetPath bareEnv 4 ([] ++ [nul]) (List.replicate 4 ' ') =
      .stopped .outside := by decide +kernel
  have hliteral : parseAndSetPath bareEnv 4 (['a', 'b', 'c', 'd', '%', '%'] ++ [nul])
      (List.replicate 4 ' ') = .stopped .outside := by decide +kernel
  rw [hempty, hliteral]
  exact ⟨Meets.not_outside, Meets.not_outside⟩

end Tasan.ReportPath
