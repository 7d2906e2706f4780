import Mathlib.Data.List.TakeWhile
import Tasan.LibIgnore.Model
import Tasan.Wildcard

/-!
# Templates

`TemplateMatch` of `sanitizer_common.cpp`. The template is a buffer, in which the end of each
literal part is cut off with a NUL while `internal_strstr` looks for it. The loop puts the character
back at once, so that the buffer is as before on every path (`templateMatchIn_eq`), and computes
what `templateMatch` computes without one.

The search takes the first occurrence of each literal part, which leaves as much of the string as is
possible. That is right up to a `$`, where nothing at all may be left: `templateMatch_iff` says when
the answer is that of the pattern.
-/

namespace Tasan.Suppressions

open FlagParser (nul)
open LibIgnore (isSpecial findLiteral templateMatchLoop templateMatch)
open Wildcard (Stands Ends IsLongest)

/-! ## The buffer -/

/-- `internal_strchr` of the string at a position of a buffer. -/
def strchr (buf : List Char) (p : ℕ) (c : Char) : Option ℕ :=
  let str := (buf.drop p).takeWhile (· ≠ nul)
  if c ∈ str then some (p + str.idxOf c) else none

/-- Where the literal part at a position ends: at the first asterisk or dollar. -/
def literalEnd (buf : List Char) (templ : ℕ) : Option ℕ :=
  match strchr buf templ '*', strchr buf templ '$' with
  | some tpos, some tpos1 => if tpos1 < tpos then some tpos1 else some tpos
  | some tpos, none => some tpos
  | none, tpos1 => tpos1

/-- The buffer with a NUL at the end of the literal part. -/
def cutAt (buf : List Char) : Option ℕ → List Char
  | none => buf
  | some tpos => buf.set tpos nul

/-- The buffer with the character put back, which is a dollar if the first dollar was cut off. -/
def uncutAt (buf : List Char) (tpos1 : Option ℕ) : Option ℕ → List Char
  | none => buf
  | some tpos => buf.set tpos (if some tpos = tpos1 then '$' else '*')

/-- The loop of `TemplateMatch`, from a position of the buffer on: the answer, and the buffer. -/
def matchLoop : ℕ → List Char → ℕ → List Char → Bool → Bool → Outcome Empty (Bool × List Char)
  | 0, _, _, _, _, _ => .unfinished
  | fuel + 1, buf, templ, str, start, asterisk =>
    let c := buf.getD templ nul
    if c = nul then .returned (true, buf)
    else if c = '*' then matchLoop fuel buf (templ + 1) str false true
    else if c = '$' then .returned (str.isEmpty || asterisk, buf)
    else if str.isEmpty then .returned (false, buf)
    else
      let tpos1 := strchr buf templ '$'
      let tpos := literalEnd buf templ
      let cut := cutAt buf tpos
      let literal := (cut.drop templ).takeWhile (· ≠ nul)
      let buf := uncutAt cut tpos1 tpos
      match findLiteral str literal with
      | none => .returned (false, buf)
      | some pos =>
        if start && pos ≠ 0 then .returned (false, buf)
        else
          match tpos with
          | none => .returned (true, buf)
          | some tpos => matchLoop fuel buf tpos (str.drop (pos + literal.length)) false false

/-- `TemplateMatch`, with a buffer for the template. -/
def templateMatchIn (buf str : List Char) : Outcome Empty (Bool × List Char) :=
  if str.isEmpty then .returned (false, buf)
  else if buf.getD 0 nul = '^' then matchLoop (buf.length + 1) buf 1 str true false
  else matchLoop (buf.length + 1) buf 0 str false false

variable {pre rest l t : List Char} {c x : Char}

theorem strchr_eq (hnul : nul ∉ rest) (c : Char) :
    strchr (pre ++ (rest ++ [nul])) pre.length c =
      if c ∈ rest then some (pre.length + rest.idxOf c) else none := by
  have hstr : ((pre ++ (rest ++ [nul])).drop pre.length).takeWhile (· ≠ nul) = rest := by
    rw [List.drop_left, List.takeWhile_append_of_pos fun c hc => by
      simpa using ne_of_mem_of_not_mem hc hnul]
    simp
  rw [strchr, hstr]

/-- A literal part ends at a special character. -/
theorem literalEnd_special (hl : ∀ c ∈ l, isSpecial c = false) (hx : isSpecial x = true)
    (hnul : nul ∉ l ++ x :: t) :
    literalEnd (pre ++ ((l ++ x :: t) ++ [nul])) pre.length = some (pre.length + l.length) ∧
      (some (pre.length + l.length) = strchr (pre ++ ((l ++ x :: t) ++ [nul])) pre.length '$' ↔
        x = '$') := by
  have hnot : ∀ c, isSpecial c = true → c ∉ l := fun c hc hmem =>
    Bool.false_ne_true ((hl c hmem).symm.trans hc)
  have hself : strchr (pre ++ ((l ++ x :: t) ++ [nul])) pre.length x =
      some (pre.length + l.length) := by
    rw [strchr_eq hnul, if_pos (by simp), List.idxOf_append_of_notMem (hnot x hx),
      List.idxOf_cons_self, Nat.add_zero]
  -- the other one comes later, or not at all
  have hother : ∀ c, isSpecial c = true → c ≠ x → ∀ i,
      strchr (pre ++ ((l ++ x :: t) ++ [nul])) pre.length c = some i →
        pre.length + l.length < i := by
    intro c hc hne i hi
    rw [strchr_eq hnul, List.idxOf_append_of_notMem (hnot c hc),
      List.idxOf_cons_ne _ (Ne.symm hne)] at hi
    split_ifs at hi
    obtain rfl := Option.some.inj hi
    omega
  have hcases : x = '*' ∨ x = '$' := by simpa [isSpecial] using hx
  unfold literalEnd
  rcases hcases with rfl | rfl
  · rw [hself]
    have hlt := hother '$' (by decide) (by decide)
    cases hd : strchr (pre ++ ((l ++ '*' :: t) ++ [nul])) pre.length '$' with
    | none => exact ⟨rfl, iff_of_false (Option.some_ne_none _) (by decide)⟩
    | some i =>
      have hi := hlt i hd
      refine ⟨if_neg hi.not_gt, iff_of_false (fun h => ?_) (by decide)⟩
      exact absurd (Option.some.inj h) hi.ne
  · rw [hself]
    have hlt := hother '*' (by decide) (by decide)
    refine ⟨?_, iff_of_true rfl rfl⟩
    cases hd : strchr (pre ++ ((l ++ '$' :: t) ++ [nul])) pre.length '*' with
    | none => rfl
    | some i => exact if_pos (hlt i hd)

theorem literalEnd_none (hl : ∀ c ∈ l, isSpecial c = false) (hnul : nul ∉ l) :
    literalEnd (pre ++ (l ++ [nul])) pre.length = none := by
  have hnot : ∀ c, isSpecial c = true → c ∉ l := fun c hc hmem =>
    Bool.false_ne_true ((hl c hmem).symm.trans hc)
  unfold literalEnd
  rw [strchr_eq hnul, strchr_eq hnul, if_neg (hnot '*' (by decide)), if_neg (hnot '$' (by decide))]

theorem takeWhile_literal (hnul : nul ∉ l) (rest : List Char) :
    ((pre ++ (l ++ nul :: rest)).drop pre.length).takeWhile (· ≠ nul) = l := by
  rw [List.drop_left, List.takeWhile_append_of_pos fun c hc => by
    simpa using ne_of_mem_of_not_mem hc hnul]
  simp

theorem set_literal (pre l rest : List Char) (x y : Char) :
    (pre ++ (l ++ x :: rest)).set (pre.length + l.length) y = pre ++ (l ++ y :: rest) := by
  rw [← List.append_assoc, ← List.length_append, List.set_append_right _ _ le_rfl, Nat.sub_self,
    List.set_cons_zero, List.append_assoc]

theorem cut_special (hl : ∀ c ∈ l, isSpecial c = false) (hx : isSpecial x = true)
    (hnul : nul ∉ l ++ x :: t) :
    cutAt (pre ++ ((l ++ x :: t) ++ [nul])) (some (pre.length + l.length)) =
        pre ++ (l ++ nul :: (t ++ [nul])) ∧
      uncutAt (pre ++ (l ++ nul :: (t ++ [nul])))
        (strchr (pre ++ ((l ++ x :: t) ++ [nul])) pre.length '$') (some (pre.length + l.length)) =
        pre ++ ((l ++ x :: t) ++ [nul]) := by
  obtain ⟨-, hdollar⟩ := @literalEnd_special pre _ _ _ hl hx hnul
  have hbuf : pre ++ ((l ++ x :: t) ++ [nul]) = pre ++ (l ++ x :: (t ++ [nul])) := by
    simp only [List.cons_append, List.append_assoc]
  constructor
  · rw [cutAt, hbuf, set_literal]
  · rw [uncutAt, set_literal]
    rcases (show x = '*' ∨ x = '$' by simpa [isSpecial] using hx) with rfl | rfl
    · rw [if_neg fun h => absurd (hdollar.mp h) (by decide), hbuf]
    · rw [if_pos (hdollar.mpr rfl), hbuf]

/-- The loop with a buffer computes what it computes without one, and leaves the buffer as it
was. -/
theorem matchLoop_eq {n fuel : ℕ} (hn : rest.length ≤ n) (hfuel : rest.length < fuel)
    (hnul : nul ∉ rest) (pre str : List Char) (start asterisk : Bool) :
    matchLoop fuel (pre ++ (rest ++ [nul])) pre.length str start asterisk =
      .returned (templateMatchLoop n rest str start asterisk, pre ++ (rest ++ [nul])) := by
  induction fuel generalizing n rest pre str start asterisk with
  | zero => omega
  | succ fuel ih =>
    cases rest with
    | nil =>
      have hend : templateMatchLoop n [] str start asterisk = true := by cases n <;> rfl
      have hc : (pre ++ ([] ++ [nul])).getD pre.length nul = nul := by simp
      rw [matchLoop, hend]
      dsimp only
      rw [if_pos hc]
    | cons c rest =>
      obtain ⟨n, rfl⟩ : ∃ k, n = k + 1 := Nat.exists_eq_succ_of_ne_zero (by
        rw [List.length_cons] at hn
        omega)
      rw [List.length_cons] at hn hfuel
      have hc : (pre ++ (c :: rest ++ [nul])).getD pre.length nul = c := by simp
      have hcnul : c ≠ nul := fun h => hnul (h ▸ List.mem_cons_self)
      have hrest : nul ∉ rest := fun h => hnul (List.mem_cons_of_mem c h)
      rw [matchLoop, templateMatchLoop, hc, if_neg hcnul]
      by_cases hstar : c = '*'
      · have hnext := ih (by omega) (by omega) hrest (pre ++ [c]) str false true (n := n)
        rw [if_pos hstar, if_pos hstar]
        simpa using hnext
      · rw [if_neg hstar, if_neg hstar]
        by_cases hdollar : c = '$'
        · rw [if_pos hdollar, if_pos hdollar]
        · rw [if_neg hdollar, if_neg hdollar]
          by_cases hstr : str.isEmpty = true
          · rw [if_pos hstr, if_pos hstr]
          · rw [if_neg hstr, if_neg hstr]
            have hsplit := List.takeWhile_append_dropWhile (p := fun c => !isSpecial c) (l := rest)
            have hl : ∀ a ∈ c :: rest.takeWhile (fun c => !isSpecial c), isSpecial a = false := by
              intro a ha
              rcases List.mem_cons.mp ha with rfl | ha
              · simp [isSpecial, hstar, hdollar]
              · simpa using List.mem_takeWhile_imp ha
            have hhead := List.head?_dropWhile_not (fun c => !isSpecial c) rest
            generalize rest.takeWhile (fun c => !isSpecial c) = l at hsplit hl ⊢
            generalize rest.dropWhile (fun c => !isSpecial c) = t at hsplit hhead ⊢
            subst hsplit
            have hlnul : nul ∉ c :: l := fun h => hnul (List.mem_append_left t h)
            cases t with
            | nil =>
              rw [List.append_nil] at hnul ⊢
              rw [literalEnd_none hl hlnul]
              simp only [cutAt, uncutAt, takeWhile_literal hlnul]
              cases findLiteral str (c :: l) with
              | none => rfl
              | some pos =>
                have hend : ∀ s, templateMatchLoop n [] s false false = true := by
                  cases n <;> intro s <;> rfl
                dsimp only
                split_ifs
                · rfl
                · rw [hend]
            | cons x t =>
              have hx : isSpecial x = true := by simpa using hhead
              obtain ⟨hend, -⟩ := @literalEnd_special pre _ _ _ hl hx hnul
              obtain ⟨hcut, huncut⟩ := @cut_special pre _ _ _ hl hx hnul
              dsimp only
              rw [← List.cons_append, hend, hcut, huncut, takeWhile_literal hlnul]
              cases findLiteral str (c :: l) with
              | none => rfl
              | some pos =>
                dsimp only
                split_ifs with hstart
                · rfl
                · -- the next round begins at the special character
                  rw [List.length_append, List.length_cons] at hn hfuel
                  have hlen : (x :: t).length ≤ n := by
                    rw [List.length_cons]
                    omega
                  have hmem : nul ∉ x :: t := fun h => hnul (List.mem_append_right (c :: l) h)
                  have hnext := ih hlen (by rw [List.length_cons]; omega) hmem (pre ++ (c :: l))
                    (str.drop (pos + (c :: l).length)) false false
                  rw [List.length_append] at hnext
                  simpa only [List.append_assoc] using hnext

theorem templateMatch_start {str : List Char} (hstr : ¬ str.isEmpty = true) (templ : List Char) :
    templateMatch ('^' :: templ) str = templateMatchLoop templ.length templ str true false :=
  if_neg hstr

theorem templateMatch_free {str templ : List Char} (hstr : ¬ str.isEmpty = true)
    (hc : templ.head? ≠ some '^') :
    templateMatch templ str = templateMatchLoop templ.length templ str false false := by
  unfold templateMatch
  rw [if_neg hstr]
  split
  · exact absurd rfl hc
  · rfl

/-- `TemplateMatch` computes what it computes without a buffer, and leaves the buffer as it was. -/
theorem templateMatchIn_eq {templ : List Char} (hnul : nul ∉ templ) (str : List Char) :
    templateMatchIn (templ ++ [nul]) str =
      .returned (templateMatch templ str, templ ++ [nul]) := by
  unfold templateMatchIn
  by_cases hstr : str.isEmpty = true
  · have hempty : templateMatch templ str = false := if_pos hstr
    rw [if_pos hstr, hempty]
  · rw [if_neg hstr]
    by_cases hc : templ.head? = some '^'
    · obtain ⟨templ, rfl⟩ := List.head?_eq_some_iff.mp hc
      have hfuel : templ.length < ('^' :: templ ++ [nul]).length + 1 := by
        rw [List.length_append, List.length_cons]
        omega
      have hloop := matchLoop_eq le_rfl hfuel (fun h => hnul (List.mem_cons_of_mem _ h)) ['^'] str
        true false
      have hfirst : ('^' :: templ ++ [nul]).getD 0 nul = '^' := rfl
      rw [if_pos hfirst, templateMatch_start hstr]
      exact hloop
    · have hfuel : templ.length < (templ ++ [nul]).length + 1 := by
        rw [List.length_append]
        omega
      have hfirst : (templ ++ [nul]).getD 0 nul ≠ '^' := by
        cases templ with
        | nil => exact show nul ≠ '^' by decide
        | cons c templ => exact fun h => hc (congrArg some h)
      have hloop := matchLoop_eq le_rfl hfuel hnul [] str false false
      rw [if_neg hfirst, templateMatch_free hstr hc]
      exact hloop

/-! ## The pattern of a template -/

/-- A template: an optional caret, ordinary characters and asterisks, and an optional dollar. -/
structure Template where
  /-- Whether there is a caret. -/
  start : Bool
  /-- The characters between the caret and the dollar. -/
  body : List Char
  /-- Whether there is a dollar. -/
  finish : Bool
  /-- No other caret or dollar, and no NUL. -/
  body_ok : ∀ c ∈ body, c ≠ '^' ∧ c ≠ '$' ∧ c ≠ nul

/-- The dollar. -/
def dollar (finish : Bool) : List Char := if finish then ['$'] else []

/-- The characters of a template. -/
def Template.text (t : Template) : List Char :=
  (if t.start then ['^'] else []) ++ (t.body ++ dollar t.finish)

/-- An asterisk is a wildcard. -/
def token (c : Char) : Option Char := if c = '*' then none else some c

/-- The string can be split into the parts of the template: it begins with them if there is a caret,
and ends with them if there is a dollar. -/
def Template.Matches (t : Template) (s : List Char) : Prop :=
  ∃ r, Ends t.start (t.body.map token) s r ∧ (t.finish = true → r = [])

/-- Whether the last character was an asterisk. -/
def lastIsStar (body : List Char) (asterisk : Bool) : Bool := body.getLast?.elim asterisk (· = '*')

/-- The answer at the end of the template, with what is left of the string. -/
def answer (finish asterisk : Bool) : Option (List Char) → Bool
  | none => false
  | some r => !finish || (r.isEmpty || asterisk)

/-! ## The search -/

theorem findLiteral_none {s l : List Char} (h : findLiteral s l = none) (v : List Char) :
    ¬ l ++ v <:+ s := by
  rintro ⟨u, rfl⟩
  unfold findLiteral at h
  rw [if_neg (by simp only [List.length_append]; omega), List.find?_eq_none] at h
  refine h u.length (List.mem_range.mpr (by simp only [List.length_append]; omega)) ?_
  rw [List.drop_left, List.take_left, beq_self_eq_true]

/-- The first occurrence is found. -/
theorem findLiteral_some {s l : List Char} {pos : ℕ} (h : findLiteral s l = some pos) :
    pos + l.length ≤ s.length ∧ s = s.take pos ++ (l ++ s.drop (pos + l.length)) ∧
      ∀ v, l ++ v <:+ s → v <:+ s.drop (pos + l.length) := by
  unfold findLiteral at h
  split_ifs at h with hlen
  obtain ⟨hpos, hrange, hfirst⟩ := List.find?_range_eq_some.mp h
  have hlt := List.mem_range.mp hrange
  have hl : (s.drop pos).take l.length = l := eq_of_beq hpos
  have hdrop : s.drop pos = l ++ s.drop (pos + l.length) := by
    calc s.drop pos = (s.drop pos).take l.length ++ (s.drop pos).drop l.length :=
          (List.take_append_drop _ _).symm
      _ = l ++ s.drop (pos + l.length) := by rw [hl, List.drop_drop]
  refine ⟨by omega, by rw [← hdrop, List.take_append_drop], ?_⟩
  rintro v ⟨u, hu⟩
  have hle : pos ≤ u.length := by
    by_contra hlt
    have hnot := hfirst u.length (not_le.mp hlt)
    rw [← hu, List.drop_left, List.take_left, beq_self_eq_true] at hnot
    exact absurd hnot (by decide)
  have hv : v <:+ s := ⟨u ++ l, by rw [List.append_assoc, hu]⟩
  refine List.suffix_of_suffix_length_le hv (List.drop_suffix _ _) ?_
  have hsum := congrArg List.length hu
  simp only [List.length_append] at hsum
  rw [List.length_drop]
  omega

/-- The search for a literal part gives the longest rest, if what follows does so behind it. -/
theorem isLongest_findLiteral {fixed : Bool} {l : List Char} {p : List (Option Char)}
    (hp : p = [] ∨ ∃ q, p = none :: q) (s : List Char) {find : List Char → Option (List Char)}
    (hfind : ∀ v, IsLongest true p v (find v)) :
    IsLongest fixed (l.map some ++ p) s
      (match findLiteral s l with
        | none => none
        | some pos => if fixed && pos ≠ 0 then none else find (s.drop (pos + l.length))) := by
  cases hf : findLiteral s l with
  | none =>
    cases fixed with
    | false => exact IsLongest.literal_free_none (findLiteral_none hf)
    | true =>
      refine IsLongest.literal_none fun hprefix => ?_
      obtain ⟨v, hv⟩ := hprefix
      exact findLiteral_none hf v (hv ▸ List.suffix_rfl)
  | some pos =>
    obtain ⟨hle, hs, hfirst⟩ := findLiteral_some hf
    cases fixed with
    | false =>
      exact IsLongest.literal_free ⟨_, hs.symm⟩ hfirst hp (hfind _)
    | true =>
      dsimp only
      split_ifs with hpos
      · -- an occurrence at the beginning would have been found first
        refine IsLongest.literal_none fun hprefix => ?_
        obtain ⟨v, rfl⟩ := hprefix
        have hlen := (hfirst v List.suffix_rfl).length_le
        have hne : pos ≠ 0 := by simpa using hpos
        rw [List.length_append] at hle
        rw [List.length_drop, List.length_append] at hlen
        omega
      · obtain rfl : pos = 0 := by simpa using hpos
        rw [List.take_zero, List.nil_append, Nat.zero_add] at hs
        rw [Nat.zero_add]
        have hlongest := (hfind (s.drop l.length)).literal (l := l)
        rwa [← hs] at hlongest

theorem takeWhile_append_dollar (body : List Char) (finish : Bool) :
    (body ++ dollar finish).takeWhile (!isSpecial ·) = body.takeWhile (!isSpecial ·) ∧
      (body ++ dollar finish).dropWhile (!isSpecial ·) =
        body.dropWhile (!isSpecial ·) ++ dollar finish := by
  induction body with
  | nil => cases finish <;> exact ⟨rfl, rfl⟩
  | cons c body ih =>
    rw [List.cons_append, List.takeWhile_cons, List.dropWhile_cons, List.takeWhile_cons,
      List.dropWhile_cons, ih.1, ih.2]
    split_ifs
    · exact ⟨rfl, rfl⟩
    · exact ⟨rfl, rfl⟩

theorem lastIsStar_append (l body : List Char) (asterisk : Bool) :
    lastIsStar (l ++ body) asterisk = lastIsStar body (lastIsStar l asterisk) := by
  unfold lastIsStar
  rw [List.getLast?_append]
  cases body.getLast? <;> rfl

theorem lastIsStar_literal (c : Char) {l : List Char} (hl : ∀ a ∈ c :: l, a ≠ '*')
    (asterisk : Bool) : lastIsStar (c :: l) asterisk = false := by
  have hlast := List.getLast_mem (List.cons_ne_nil c l)
  unfold lastIsStar
  rw [List.getLast?_eq_some_getLast (List.cons_ne_nil c l)]
  exact decide_eq_false (hl _ hlast)

/-- The loop of `TemplateMatch` finds the longest rest, and answers with it. -/
theorem templateMatchLoop_eq {body : List Char} (hbody : ∀ c ∈ body, c ≠ '$') (finish : Bool)
    {fuel : ℕ} (hfuel : (body ++ dollar finish).length ≤ fuel) (s : List Char)
    {start fixed : Bool} (hstart : ∀ c, body.head? = some c → c ≠ '*' → start = fixed)
    (asterisk : Bool) : ∃ o, IsLongest fixed (body.map token) s o ∧
      templateMatchLoop fuel (body ++ dollar finish) s start asterisk =
        answer finish (lastIsStar body asterisk) o := by
  induction fuel generalizing body s start fixed asterisk with
  | zero =>
    have hnil := List.length_eq_zero_iff.mp (Nat.le_zero.mp hfuel)
    obtain ⟨rfl, hfinish⟩ := List.append_eq_nil_iff.mp hnil
    refine ⟨some s, IsLongest.nil s, ?_⟩
    cases finish with
    | false => rfl
    | true => exact absurd hfinish (List.cons_ne_nil _ _)
  | succ fuel ih =>
    cases body with
    | nil =>
      refine ⟨some s, IsLongest.nil s, ?_⟩
      cases finish <;> rfl
    | cons c body =>
      rw [List.cons_append, List.length_cons] at hfuel
      have hrest : ∀ c ∈ body, c ≠ '$' := fun a ha => hbody a (List.mem_cons_of_mem c ha)
      rw [List.cons_append, templateMatchLoop]
      by_cases hstar : c = '*'
      · subst hstar
        obtain ⟨o, ho, hloop⟩ := @ih body hrest (Nat.le_of_succ_le_succ hfuel) s
          false false (fun _ _ _ => rfl) true
        refine ⟨o, ho.wildcard, ?_⟩
        rw [if_pos rfl, hloop, ← List.singleton_append, lastIsStar_append]
        rfl
      · obtain rfl := hstart c rfl hstar
        obtain ⟨htake, hdrop⟩ := takeWhile_append_dollar body finish
        rw [if_neg hstar, if_neg (hbody c List.mem_cons_self), htake, hdrop]
        have hsplit := List.takeWhile_append_dropWhile (p := (!isSpecial ·)) (l := body)
        have hl : ∀ a ∈ c :: body.takeWhile (!isSpecial ·), a ≠ '*' := by
          intro a ha
          rcases List.mem_cons.mp ha with rfl | ha
          · exact hstar
          · rintro rfl
            exact absurd (List.mem_takeWhile_imp ha) (by decide)
        have hhead := List.head?_dropWhile_not (!isSpecial ·) body
        generalize body.takeWhile (!isSpecial ·) = l at hsplit hl ⊢
        generalize body.dropWhile (!isSpecial ·) = t at hsplit hhead ⊢
        subst hsplit
        have ht : ∀ a ∈ t, a ≠ '$' := fun a ha => hrest a (List.mem_append_right l ha)
        -- behind the literal part, there is an asterisk or nothing
        have hnext : ∀ a, t.head? = some a → a = '*' := by
          intro a ha
          rw [ha] at hhead
          have hspecial : a = '*' ∨ a = '$' :=
            or_iff_not_imp_left.mpr (by simpa [isSpecial] using hhead)
          exact hspecial.resolve_right (ht a (List.mem_of_head? ha))
        have htokens : t.map token = [] ∨ ∃ q, t.map token = none :: q := by
          cases t with
          | nil => exact Or.inl rfl
          | cons a t =>
            obtain rfl := hnext a rfl
            exact Or.inr ⟨t.map token, rfl⟩
        have hlen : (t ++ dollar finish).length ≤ fuel := by
          simp only [List.length_append] at hfuel ⊢
          omega
        choose find hfind hloop using fun v => @ih t ht hlen v false true
          (fun a ha hne => absurd (hnext a ha) hne) false
        have hmap : (c :: (l ++ t)).map token = (c :: l).map some ++ t.map token := by
          have hliteral : (c :: l).map token = (c :: l).map some :=
            List.map_congr_left fun a ha => if_neg (hl a ha)
          rw [← List.cons_append, List.map_append, hliteral]
        have hlast : lastIsStar (c :: (l ++ t)) asterisk = lastIsStar t false := by
          rw [← List.cons_append, lastIsStar_append, lastIsStar_literal c hl]
        refine ⟨_, hmap ▸ isLongest_findLiteral htokens s hfind, ?_⟩
        rw [hlast]
        cases s with
        | nil => rfl
        | cons x s =>
          rw [List.isEmpty_cons, if_neg Bool.false_ne_true]
          dsimp only
          cases findLiteral (x :: s) (c :: l) with
          | none => rfl
          | some pos =>
            dsimp only
            split_ifs
            · rfl
            · exact hloop _

/-! ## The answer -/

variable {s : List Char}

/-- `TemplateMatch` answers for the longest rest. -/
theorem templateMatch_longest (t : Template) (hs : s ≠ []) :
    ∃ o, IsLongest t.start (t.body.map token) s o ∧
      templateMatch t.text s = answer t.finish (lastIsStar t.body false) o := by
  have hstr : ¬ s.isEmpty = true := fun h => hs (List.isEmpty_iff.mp h)
  have hbody : ∀ c ∈ t.body, c ≠ '$' := fun c hc => (t.body_ok c hc).2.1
  have hloop := fun fixed =>
    @templateMatchLoop_eq t.body hbody t.finish _ le_rfl s fixed fixed (fun _ _ _ => rfl) false
  unfold Template.text
  cases hstart : t.start with
  | true =>
    rw [if_pos rfl, List.singleton_append, templateMatch_start hstr]
    exact hloop true
  | false =>
    have hhead : (t.body ++ dollar t.finish).head? ≠ some '^' := by
      intro h
      have hmem := List.mem_of_head? h
      rcases List.mem_append.mp hmem with hmem | hmem
      · exact (t.body_ok _ hmem).1 rfl
      · unfold dollar at hmem
        split_ifs at hmem
        · exact absurd hmem (by decide)
        · exact absurd hmem List.not_mem_nil
    rw [if_neg Bool.false_ne_true, List.nil_append, templateMatch_free hstr hhead]
    exact hloop false

/-- The string and the template are in order: there is no dollar, or an asterisk before it, or the
template does not match a proper prefix of the string if it matches the string. -/
def Template.EndsFirst (t : Template) (s : List Char) : Prop :=
  t.finish = true → t.body.getLast? ≠ some '*' → t.Matches s →
    ∀ s', s' <+: s → s' ≠ s → ¬ t.Matches s'

theorem Template.nul_notMem_text (t : Template) : nul ∉ t.text := by
  unfold Template.text dollar
  simp only [List.mem_append, not_or]
  refine ⟨?_, fun h => (t.body_ok nul h).2.2 rfl, ?_⟩
  · split_ifs
    · decide
    · exact List.not_mem_nil
  · split_ifs
    · decide
    · exact List.not_mem_nil

theorem Template.matches_prefix_iff {t : Template} (hfinish : t.finish = true) (s r : List Char) :
    t.Matches s ↔ Ends t.start (t.body.map token) (s ++ r) r := by
  rw [← Wildcard.ends_append_iff]
  constructor
  · rintro ⟨r', hr', hend⟩
    rwa [hend hfinish] at hr'
  · exact fun h => ⟨[], h, fun _ => rfl⟩

theorem Template.matches_of_ends {t : Template} (h : t.finish = true → t.body.getLast? = some '*')
    {r : List Char} (hr : Ends t.start (t.body.map token) s r) : t.Matches s := by
  cases hfinish : t.finish with
  | false => exact ⟨r, hr, fun hf => absurd (hfinish.symm.trans hf) Bool.false_ne_true⟩
  | true =>
    obtain ⟨body, hbody⟩ := List.getLast?_eq_some_iff.mp (h hfinish)
    have htokens : t.body.map token = body.map token ++ [none] := by
      rw [hbody, List.map_append]
      rfl
    rw [htokens] at hr
    exact ⟨[], htokens ▸ hr.to_end, fun _ => rfl⟩

/-- The template is as it was before, on every path. The answer is that of the pattern exactly if
there is no dollar at the end of the template, or an asterisk before it, or if a string that matches
has no proper prefix that does. -/
theorem templateMatch_iff (t : Template) (hs : s ≠ []) :
    ∃ r, templateMatchIn (t.text ++ [nul]) s = .returned (r, t.text ++ [nul]) ∧
      ((r = true ↔ t.Matches s) ↔ t.EndsFirst s) := by
  refine ⟨_, templateMatchIn_eq t.nul_notMem_text s, ?_⟩
  obtain ⟨o, ho, hanswer⟩ := templateMatch_longest t hs
  rw [hanswer]
  cases o with
  | none =>
    have hnot : ¬ t.Matches s := fun ⟨r, hr, _⟩ => ho r hr
    exact iff_of_true (iff_of_false Bool.false_ne_true hnot) fun _ _ h => absurd h hnot
  | some r =>
    obtain ⟨hr, hlongest⟩ := ho
    by_cases hfree : t.finish = true → t.body.getLast? = some '*'
    · -- the rest does not matter
      have htrue : answer t.finish (lastIsStar t.body false) (some r) = true := by
        unfold answer lastIsStar
        cases hfinish : t.finish with
        | false => rfl
        | true =>
          rw [hfree hfinish]
          exact Bool.or_true _
      exact iff_of_true (iff_of_true htrue (Template.matches_of_ends hfree hr))
        fun hfinish hstar => absurd (hfree hfinish) hstar
    · obtain ⟨hfinish, hstar⟩ := Classical.not_imp.mp hfree
      have hempty : answer t.finish (lastIsStar t.body false) (some r) = r.isEmpty := by
        unfold answer lastIsStar
        rw [hfinish]
        cases hlast : t.body.getLast? with
        | none => exact Bool.or_false _
        | some c =>
          have hc : c ≠ '*' := fun h => hstar (h ▸ hlast)
          have hfalse : (some c).elim false (fun c => decide (c = '*')) = false :=
            decide_eq_false hc
          rw [hfalse]
          exact Bool.or_false _
      rw [hempty]
      cases r with
      | nil =>
        refine iff_of_true (iff_of_true rfl ⟨[], hr, fun _ => rfl⟩) ?_
        intro _ _ _ s' hprefix hne hmatch
        -- the rest after the prefix would be longer
        obtain ⟨x, rfl⟩ := hprefix
        have hx := hlongest x ((Template.matches_prefix_iff hfinish s' x).mp hmatch)
        rw [List.suffix_nil.mp hx, List.append_nil] at hne
        exact hne rfl
      | cons a r =>
        obtain ⟨u, w, rfl, hu, hw⟩ := hr
        have hprefix : t.Matches (u ++ w) :=
          (Template.matches_prefix_iff hfinish (u ++ w) (a :: r)).mpr
            ⟨u, w, List.append_assoc u w (a :: r), hu, hw⟩
        have hproper : u ++ w ≠ u ++ (w ++ a :: r) := by
          intro h
          have hlen := congrArg List.length h
          simp only [List.length_append, List.length_cons] at hlen
          omega
        constructor
        · intro hiff _ _ hmatch
          exact absurd (hiff.mpr hmatch) Bool.false_ne_true
        · intro hfirst
          have hnot : ¬ t.Matches (u ++ (w ++ a :: r)) := fun hmatch =>
            hfirst hfinish hstar hmatch (u ++ w) ⟨a :: r, List.append_assoc u w (a :: r)⟩ hproper
              hprefix
          exact iff_of_false Bool.false_ne_true hnot

/-- `a$`. -/
def endsInA : Template := ⟨false, ['a'], true, by simp [nul]⟩

/-- The string `aba` ends in `a`, but the search stops at the first one. -/
theorem templateMatch_aba :
    templateMatchIn (endsInA.text ++ [nul]) ['a', 'b', 'a'] =
        .returned (false, endsInA.text ++ [nul]) ∧
      endsInA.Matches ['a', 'b', 'a'] :=
  ⟨rfl, [], ⟨['a', 'b'], ['a'], rfl, Bool.noConfusion, [], rfl, rfl⟩, fun _ => rfl⟩

/-- The string `ba`. -/
theorem templateMatch_iff_ba : ∃ r,
    templateMatchIn (endsInA.text ++ [nul]) ['b', 'a'] = .returned (r, endsInA.text ++ [nul]) ∧
      ((r = true ↔ endsInA.Matches ['b', 'a']) ↔ endsInA.EndsFirst ['b', 'a']) :=
  templateMatch_iff endsInA (List.cons_ne_nil _ _)

end Tasan.Suppressions
