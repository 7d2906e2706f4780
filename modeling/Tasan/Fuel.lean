import Mathlib.Tactic

/-!
# Interpreters with fuel

An interpreter whose recursion is bounded by fuel either finishes, by returning a value or by stopping,
or runs out of fuel. With more fuel it gives the same result once it has finished (`Chain`), so that it
has a meaning that mentions no fuel: `limit`. A meaning is `unfinished` exactly when no fuel is enough,
and the meaning of a sequence of two computations is the sequence of their meanings (`limit_bind`),
which turns the equations of an interpreter into equations of its meaning.
-/

namespace Tasan

variable {ε α β : Type}

/-- The result of a computation with fuel. -/
inductive Outcome (ε α : Type)
  /-- A value. -/
  | returned (a : α)
  /-- The computation stopped without a value. -/
  | stopped (e : ε)
  /-- The fuel did not suffice. -/
  | unfinished
  deriving DecidableEq

namespace Outcome

/-- The second computation gets the value of the first. -/
def bind (x : Outcome ε α) (f : α → Outcome ε β) : Outcome ε β :=
  match x with
  | returned a => f a
  | stopped e => stopped e
  | unfinished => unfinished

instance : Monad (Outcome ε) where
  pure := returned
  bind := bind

@[simp] theorem pure_eq (a : α) : (pure a : Outcome ε α) = returned a := rfl

@[simp] theorem returned_bind (a : α) (f : α → Outcome ε β) : (returned a : Outcome ε α) >>= f = f a := rfl

@[simp] theorem stopped_bind (e : ε) (f : α → Outcome ε β) : stopped e >>= f = stopped e := rfl

@[simp] theorem unfinished_bind (f : α → Outcome ε β) : unfinished >>= f = unfinished := rfl

@[simp] theorem map_returned (g : α → β) (a : α) :
    g <$> (returned a : Outcome ε α) = returned (g a) := rfl

@[simp] theorem map_stopped (g : α → β) (e : ε) : g <$> (stopped e : Outcome ε α) = stopped e := rfl

@[simp] theorem map_unfinished (g : α → β) : g <$> (unfinished : Outcome ε α) = unfinished := rfl

instance : LawfulMonad (Outcome ε) := LawfulMonad.mk' _
  (fun x => by cases x <;> rfl) (fun _ _ => rfl) (fun x _ _ => by cases x <;> rfl)

theorem bind_eq_returned {x : Outcome ε α} {f : α → Outcome ε β} {b : β} :
    x >>= f = returned b ↔ ∃ a, x = returned a ∧ f a = returned b := by
  cases x <;> simp

/-- A result that is no value: the computation stops, or its fuel does not suffice. -/
def fail : Option ε → Outcome ε α
  | some e => stopped e
  | none => unfinished

@[simp] theorem fail_ne_returned (r : Option ε) (a : α) : (fail r : Outcome ε α) ≠ returned a := by
  cases r <;> nofun

@[simp] theorem fail_bind (r : Option ε) (f : α → Outcome ε β) : fail r >>= f = fail r := by
  cases r <;> rfl

theorem fail_inj {r r' : Option ε} (h : (fail r : Outcome ε α) = fail r') : r = r' := by
  cases r <;> cases r' <;> simp_all [fail]

theorem stopped_eq_fail {e : ε} {r : Option ε} : (stopped e : Outcome ε α) = fail r ↔ r = some e :=
  ⟨fun h => (fail_inj (show (fail (some e) : Outcome ε α) = fail r from h)).symm, fun h => h ▸ rfl⟩

theorem returned_or_fail (x : Outcome ε α) : (∃ a, x = returned a) ∨ ∃ r, x = fail r := by
  cases x with
  | returned a => exact Or.inl ⟨a, rfl⟩
  | stopped e => exact Or.inr ⟨some e, rfl⟩
  | unfinished => exact Or.inr ⟨none, rfl⟩

theorem bind_eq_fail {x : Outcome ε α} {f : α → Outcome ε β} {r : Option ε} :
    x >>= f = fail r ↔ x = fail r ∨ ∃ a, x = returned a ∧ f a = fail r := by
  rcases returned_or_fail x with ⟨a, rfl⟩ | ⟨r', rfl⟩
  · simp [(fail_ne_returned r a).symm]
  · rw [fail_bind]
    constructor
    · exact fun h => Or.inl (by rw [fail_inj h])
    · rintro (h | ⟨a, ha, -⟩)
      · rw [fail_inj h]
      · exact absurd ha (fail_ne_returned r' a)

/-- When a sequence over a list fails: at the first item that does. -/
theorem foldlM_eq_fail {γ : Type} {f : β → γ → Outcome ε β} {l : List γ} {b : β} {r : Option ε} :
    l.foldlM f b = fail r ↔
      ∃ l₁ x l₂ b', l = l₁ ++ x :: l₂ ∧ l₁.foldlM f b = returned b' ∧ f b' x = fail r := by
  induction l generalizing b with
  | nil => simp [(fail_ne_returned r b).symm]
  | cons y l ih =>
    rw [List.foldlM_cons, bind_eq_fail]
    constructor
    · rintro (h | ⟨b₁, h₁, h⟩)
      · exact ⟨[], y, l, b, rfl, rfl, h⟩
      · obtain ⟨l₁, x, l₂, b', rfl, hl, hx⟩ := ih.mp h
        exact ⟨y :: l₁, x, l₂, b', rfl, by rw [List.foldlM_cons, h₁, returned_bind, hl], hx⟩
    · rintro ⟨l₁, x, l₂, b', hl, hfold, hx⟩
      cases l₁ with
      | nil =>
        obtain ⟨rfl, rfl⟩ := List.cons.inj hl
        obtain rfl := Outcome.returned.inj hfold
        exact Or.inl hx
      | cons z l₁ =>
        obtain ⟨rfl, rfl⟩ := List.cons.inj hl
        obtain ⟨b₁, h₁, h⟩ := bind_eq_returned.mp hfold
        exact Or.inr ⟨b₁, h₁, ih.mpr ⟨l₁, x, l₂, b', rfl, h, hx⟩⟩

/-- A result with at most as much fuel. -/
def Approx (x y : Outcome ε α) : Prop := x = unfinished ∨ y = x

@[refl] theorem Approx.refl (x : Outcome ε α) : Approx x x := Or.inr rfl

theorem Approx.bind {x y : Outcome ε α} {f g : α → Outcome ε β} (hx : Approx x y)
    (hf : ∀ a, Approx (f a) (g a)) : Approx (x >>= f) (y >>= g) := by
  rcases hx with rfl | rfl
  · exact Or.inl rfl
  · cases y with
    | returned a => exact hf a
    | stopped e => exact Or.inr rfl
    | unfinished => exact Or.inl rfl

/-- More fuel gives the same result once there is one. -/
def Chain (x : ℕ → Outcome ε α) : Prop := ∀ n, Approx (x n) (x (n + 1))

theorem Chain.of_le {x : ℕ → Outcome ε α} (h : Chain x) {n m : ℕ} (hnm : n ≤ m)
    (hx : x n ≠ unfinished) : x m = x n := by
  induction m, hnm using Nat.le_induction with
  | base => rfl
  | succ m _ ih => exact ((h m).resolve_left (by rwa [ih])).trans ih

theorem chain_const (x : Outcome ε α) : Chain fun _ => x := fun _ => .refl x

theorem Chain.bind {x : ℕ → Outcome ε α} {f : ℕ → α → Outcome ε β} (hx : Chain x)
    (hf : ∀ a, Chain fun n => f n a) : Chain fun n => x n >>= f n :=
  fun n => (hx n).bind fun a => hf a n

open Classical in
/-- The result with enough fuel. -/
noncomputable def limit (x : ℕ → Outcome ε α) : Outcome ε α :=
  if h : ∃ n, x n ≠ unfinished then x (Nat.find h) else unfinished

theorem limit_eq_unfinished {x : ℕ → Outcome ε α} : limit x = unfinished ↔ ∀ n, x n = unfinished := by
  classical
  unfold limit
  split_ifs with h
  · exact ⟨fun hx => absurd hx (Nat.find_spec h), fun hx => absurd (hx _) h.choose_spec⟩
  · exact ⟨fun _ n => not_not.mp fun hn => h ⟨n, hn⟩, fun _ => rfl⟩

theorem Chain.eventually {x : ℕ → Outcome ε α} (h : Chain x) : ∃ n, ∀ m ≥ n, x m = limit x := by
  classical
  by_cases hex : ∃ n, x n ≠ unfinished
  · refine ⟨Nat.find hex, fun m hm => ?_⟩
    rw [limit, dif_pos hex]
    exact h.of_le hm (Nat.find_spec hex)
  · have hall : ∀ n, x n = unfinished := fun n => not_not.mp fun hn => hex ⟨n, hn⟩
    exact ⟨0, fun m _ => (hall m).trans (limit_eq_unfinished.mpr hall).symm⟩

theorem Chain.limit_eq {x : ℕ → Outcome ε α} (h : Chain x) {o : Outcome ε α} {n : ℕ}
    (ho : ∀ m ≥ n, x m = o) : limit x = o := by
  obtain ⟨k, hk⟩ := h.eventually
  exact (hk (max n k) (le_max_right n k)).symm.trans (ho _ (le_max_left n k))

theorem Chain.limit_eq_of_ne {x : ℕ → Outcome ε α} (h : Chain x) {n : ℕ} (hn : x n ≠ unfinished) :
    limit x = x n :=
  h.limit_eq (n := n) fun _ hm => h.of_le hm hn

@[simp] theorem limit_const (x : Outcome ε α) : limit (fun _ => x) = x :=
  (chain_const x).limit_eq (n := 0) fun _ _ => rfl

theorem Chain.limit_succ {x : ℕ → Outcome ε α} (h : Chain x) :
    limit x = limit fun n => x (n + 1) := by
  obtain ⟨n, hn⟩ := h.eventually
  have hsucc : Chain fun n => x (n + 1) := fun n => h (n + 1)
  exact (hsucc.limit_eq (n := n) fun m hm => hn (m + 1) (by omega)).symm

theorem limit_bind {x : ℕ → Outcome ε α} {f : ℕ → α → Outcome ε β} (hx : Chain x)
    (hf : ∀ a, Chain fun n => f n a) :
    limit (fun n => x n >>= f n) = limit x >>= fun a => limit fun n => f n a := by
  obtain ⟨n, hn⟩ := hx.eventually
  cases hval : limit x with
  | returned a =>
    obtain ⟨k, hk⟩ := (hf a).eventually
    refine (hx.bind hf).limit_eq (n := max n k) fun m hm => ?_
    calc x m >>= f m = returned a >>= f m := by rw [hn m (by omega), hval]
      _ = limit fun n => f n a := hk m (by omega)
  | stopped e =>
    exact (hx.bind hf).limit_eq (n := n) fun m hm => by rw [hn m hm, hval]; rfl
  | unfinished =>
    exact (hx.bind hf).limit_eq (n := n) fun m hm => by rw [hn m hm, hval]; rfl

end Outcome

end Tasan
