import Mathlib.Tactic

/-!
# Wildcard patterns

A pattern is a list of letters and of wildcards (`none`), which stand for any text.
`Ends fixed p s r` says that the pattern stands in `s` right before the rest `r`, and at the
beginning of `s` if it is `fixed` there.

A matcher that takes the first occurrence of each literal part never has to go back: what it leaves
of the text is the longest of all rests (`IsLongest`). The rules below say so for each way in which
a pattern can begin. For a literal part that is not fixed it is what makes the search complete that
a wildcard follows, or nothing at all (`IsLongest.literal_free`).
-/

namespace Tasan.Wildcard

variable {α : Type*}

/-- A pattern stands for a text. -/
def Stands : List (Option α) → List α → Prop
  | [], s => s = []
  | some a :: p, s => ∃ s', s = a :: s' ∧ Stands p s'
  | none :: p, s => ∃ u v, s = u ++ v ∧ Stands p v

/-- A pattern stands in `s` before `r`, and at the beginning if it is `fixed`. -/
def Ends (fixed : Bool) (p : List (Option α)) (s r : List α) : Prop :=
  ∃ u w, s = u ++ (w ++ r) ∧ (fixed = true → u = []) ∧ Stands p w

/-- The longest rest behind a pattern, or none if the pattern does not occur. -/
def IsLongest (fixed : Bool) (p : List (Option α)) (s : List α) : Option (List α) → Prop
  | none => ∀ r, ¬ Ends fixed p s r
  | some r => Ends fixed p s r ∧ ∀ r', Ends fixed p s r' → r' <:+ r

variable {p : List (Option α)} {l s v r : List α} {fixed : Bool} {o : Option (List α)}

/-! ## Occurrences -/

theorem stands_literal : Stands (l.map some ++ p) s ↔ ∃ v, s = l ++ v ∧ Stands p v := by
  induction l generalizing s with
  | nil => exact ⟨fun h => ⟨s, rfl, h⟩, fun ⟨_, hv, h⟩ => hv ▸ h⟩
  | cons a l ih =>
    rw [List.map_cons, List.cons_append, Stands]
    constructor
    · rintro ⟨s', rfl, hs'⟩
      obtain ⟨v, rfl, hv⟩ := ih.mp hs'
      exact ⟨v, rfl, hv⟩
    · rintro ⟨v, rfl, hv⟩
      exact ⟨l ++ v, rfl, ih.mpr ⟨v, rfl, hv⟩⟩

theorem Stands.append (h : Stands (p ++ [none]) s) (r : List α) :
    Stands (p ++ [none]) (s ++ r) := by
  induction p generalizing s with
  | nil => exact ⟨s ++ r, [], (List.append_nil _).symm, rfl⟩
  | cons x p ih =>
    cases x with
    | none =>
      obtain ⟨u, v, rfl, hv⟩ := h
      exact ⟨u, v ++ r, List.append_assoc u v r, ih hv⟩
    | some a =>
      obtain ⟨s', rfl, hs'⟩ := h
      exact ⟨s' ++ r, rfl, ih hs'⟩

theorem ends_fixed : Ends true p s r ↔ ∃ w, s = w ++ r ∧ Stands p w := by
  constructor
  · rintro ⟨u, w, rfl, hu, hw⟩
    obtain rfl := hu rfl
    exact ⟨w, rfl, hw⟩
  · rintro ⟨w, rfl, hw⟩
    exact ⟨[], w, rfl, fun _ => rfl, hw⟩

theorem ends_free : Ends false p s r ↔ ∃ v, v <:+ s ∧ Ends true p v r := by
  constructor
  · rintro ⟨u, w, rfl, -, hw⟩
    exact ⟨w ++ r, List.suffix_append _ _, ends_fixed.mpr ⟨w, rfl, hw⟩⟩
  · rintro ⟨v, ⟨u, rfl⟩, hv⟩
    obtain ⟨w, rfl, hw⟩ := ends_fixed.mp hv
    exact ⟨u, w, rfl, Bool.noConfusion, hw⟩

theorem Ends.of_suffix (hv : v <:+ s) (h : Ends false p v r) : Ends false p s r := by
  obtain ⟨v', hv', h'⟩ := ends_free.mp h
  exact ends_free.mpr ⟨v', hv'.trans hv, h'⟩

theorem ends_wildcard : Ends fixed (none :: p) s r ↔ Ends false p s r := by
  constructor
  · rintro ⟨u, w, rfl, -, x, y, rfl, hy⟩
    exact ⟨u ++ x, y, by simp only [List.append_assoc], Bool.noConfusion, hy⟩
  · rintro ⟨u, w, rfl, -, hw⟩
    have hs : u ++ (w ++ r) = [] ++ (u ++ w ++ r) := (List.append_assoc u w r).symm
    exact ⟨[], u ++ w, hs, fun _ => rfl, u, w, rfl, hw⟩

theorem Ends.to_end (h : Ends fixed (p ++ [none]) s r) : Ends fixed (p ++ [none]) s [] := by
  obtain ⟨u, w, rfl, hu, hw⟩ := h
  exact ⟨u, w ++ r, by rw [List.append_nil], hu, hw.append r⟩

theorem ends_append_iff (s r : List α) : Ends fixed p s [] ↔ Ends fixed p (s ++ r) r := by
  constructor
  · rintro ⟨u, w, rfl, hu, hw⟩
    exact ⟨u, w, by simp only [List.append_nil, List.append_assoc], hu, hw⟩
  · rintro ⟨u, w, h, hu, hw⟩
    rw [← List.append_assoc] at h
    exact ⟨u, w, by rw [List.append_nil]; exact List.append_cancel_right h, hu, hw⟩

theorem ends_literal : Ends true (l.map some ++ p) s r ↔ ∃ v, s = l ++ v ∧ Ends true p v r := by
  constructor
  · intro h
    obtain ⟨w, rfl, hw⟩ := ends_fixed.mp h
    obtain ⟨v, rfl, hv⟩ := stands_literal.mp hw
    exact ⟨v ++ r, List.append_assoc l v r, ends_fixed.mpr ⟨v, rfl, hv⟩⟩
  · rintro ⟨v, rfl, hv⟩
    obtain ⟨w, rfl, hw⟩ := ends_fixed.mp hv
    exact ends_fixed.mpr ⟨l ++ w, (List.append_assoc l w r).symm, stands_literal.mpr ⟨w, rfl, hw⟩⟩

/-! ## The longest rest -/

theorem IsLongest.nil (s : List α) : IsLongest fixed [] s (some s) := by
  refine ⟨⟨[], [], rfl, fun _ => rfl, rfl⟩, ?_⟩
  rintro r ⟨u, w, rfl, -, rfl⟩
  exact List.suffix_append u r

theorem IsLongest.wildcard (h : IsLongest false p s o) : IsLongest fixed (none :: p) s o := by
  cases o with
  | none => exact fun r hr => h r (ends_wildcard.mp hr)
  | some r => exact ⟨ends_wildcard.mpr h.1, fun r' hr' => h.2 r' (ends_wildcard.mp hr')⟩

theorem IsLongest.literal (h : IsLongest true p v o) :
    IsLongest true (l.map some ++ p) (l ++ v) o := by
  have hiff : ∀ r, Ends true (l.map some ++ p) (l ++ v) r ↔ Ends true p v r := fun r =>
    ends_literal.trans
      ⟨fun ⟨_, hv, hr⟩ => List.append_cancel_left hv ▸ hr, fun hr => ⟨v, rfl, hr⟩⟩
  cases o with
  | none => exact fun r hr => h r ((hiff r).mp hr)
  | some r => exact ⟨(hiff r).mpr h.1, fun r' hr' => h.2 r' ((hiff r').mp hr')⟩

theorem IsLongest.literal_none (h : ¬ l <+: s) : IsLongest true (l.map some ++ p) s none := by
  intro r hr
  obtain ⟨v, rfl, -⟩ := ends_literal.mp hr
  exact h (List.prefix_append l v)

theorem IsLongest.literal_free_none (h : ∀ v, ¬ l ++ v <:+ s) :
    IsLongest false (l.map some ++ p) s none := by
  intro r hr
  obtain ⟨x, hx, hr⟩ := ends_free.mp hr
  obtain ⟨v, rfl, -⟩ := ends_literal.mp hr
  exact h v hx

/-- The literal part is not fixed, and `v` is what follows its first occurrence. Behind it, there is
a wildcard, or the pattern is at its end. -/
theorem IsLongest.literal_free (hv : l ++ v <:+ s) (hfirst : ∀ v', l ++ v' <:+ s → v' <:+ v)
    (hp : p = [] ∨ ∃ q, p = none :: q) (h : IsLongest true p v o) :
    IsLongest false (l.map some ++ p) s o := by
  have hends : ∀ r, Ends true p v r → Ends false (l.map some ++ p) s r := fun r hr =>
    ends_free.mpr ⟨l ++ v, hv, ends_literal.mpr ⟨v, rfl, hr⟩⟩
  -- from a later occurrence, the rest is no longer
  have hlater : ∀ r', Ends false (l.map some ++ p) s r' → ∃ r, Ends true p v r ∧ r' <:+ r := by
    intro r' hr'
    obtain ⟨x, hx, hfixed⟩ := ends_free.mp hr'
    obtain ⟨v', rfl, hrest⟩ := ends_literal.mp hfixed
    have hsuffix := hfirst v' hx
    rcases hp with rfl | ⟨q, rfl⟩
    · obtain ⟨w, rfl, rfl⟩ := ends_fixed.mp hrest
      exact ⟨v, (IsLongest.nil v).1, hsuffix⟩
    · have hsooner := (ends_wildcard.mp hrest).of_suffix hsuffix
      exact ⟨r', ends_wildcard.mpr hsooner, List.suffix_rfl⟩
  cases o with
  | none =>
    intro r' hr'
    obtain ⟨r, hr, -⟩ := hlater r' hr'
    exact h r hr
  | some r =>
    refine ⟨hends r h.1, fun r' hr' => ?_⟩
    obtain ⟨r'', hr'', hsuffix⟩ := hlater r' hr'
    exact hsuffix.trans (h.2 r'' hr'')

end Tasan.Wildcard
