import Mathlib.Data.List.Sublists

/-!
# Linearizability

A history is the list of the calls and returns of the operations of an object, each with the number of its
operation. The object is given by its sequential behaviour, a relation `step` between states. A history is
linearizable when its operations can be put into one order in which each takes effect at one point between
its call and its return (`Linearizes`): the order is a legal sequential run, it has the results that the
operations return, and an operation that returns before another is called comes before it.

Where each operation takes effect at a step of the system that is known when it is taken, the order grows with
the history: the rules `nil`, `call`, `effect` and `ret` are one for each kind of step.
-/

namespace Tasan.Linearizable

variable {Op Res St : Type}

/-- An event of a history. -/
inductive Event (Op Res : Type)
  /-- The operation with this number is called. -/
  | call (i : ℕ) (op : Op)
  /-- It returns. -/
  | ret (i : ℕ) (r : Res)

/-- An operation that has taken effect. -/
structure Entry (Op Res : Type) where
  /-- The number of the operation. -/
  id : ℕ
  /-- The operation. -/
  op : Op
  /-- Its result. -/
  res : Res

/-- The sequential runs of an object. -/
inductive Legal (step : St → Op → Res → St → Prop) : St → List (Entry Op Res) → St → Prop
  /-- No operations. -/
  | nil (s : St) : Legal step s [] s
  /-- One operation after others. -/
  | snoc {s s' s'' : St} {l : List (Entry Op Res)} (e : Entry Op Res) (hl : Legal step s l s')
      (he : step s' e.op e.res s'') : Legal step s (l ++ [e]) s''

/-- The order `lin` linearizes the history, and leaves the object in the state `s`. -/
structure Linearizes (step : St → Op → Res → St → Prop) (init : St) (h : List (Event Op Res))
    (lin : List (Entry Op Res)) (s : St) : Prop where
  /-- It is a sequential run. -/
  legal : Legal step init lin s
  /-- An operation takes effect once. -/
  once : (lin.map Entry.id).Nodup
  /-- It takes effect after its call. -/
  called : ∀ e ∈ lin, .call e.id e.op ∈ h
  /-- It has taken effect when it returns, with this result. -/
  returned : ∀ i r, .ret i r ∈ h → ∃ e ∈ lin, e.id = i ∧ e.res = r
  /-- The order agrees with that of the history. -/
  order : ∀ i r j op, [Event.ret i r, Event.call j op].Sublist h → j ∈ lin.map Entry.id →
    [i, j].Sublist (lin.map Entry.id)

variable {step : St → Op → Res → St → Prop} {init s s' : St} {h : List (Event Op Res)}
  {lin : List (Entry Op Res)} {i : ℕ} {op : Op} {r : Res}

theorem pair_sublist_snoc {α : Type} {a b x : α} {l : List α} (h : [a, b].Sublist (l ++ [x])) :
    [a, b].Sublist l ∨ a ∈ l ∧ b = x := by
  obtain ⟨l₁, l₂, heq, h₁, h₂⟩ := List.sublist_append_iff.mp h
  rcases List.sublist_singleton.mp h₂ with rfl | rfl
  · left
    rw [List.append_nil] at heq
    exact heq ▸ h₁
  · right
    obtain ⟨rfl, rfl⟩ : [a] = l₁ ∧ b = x := by
      have := List.append_inj' (show [a] ++ [b] = l₁ ++ [x] from heq) rfl
      exact ⟨this.1, List.singleton_inj.mp this.2⟩
    exact ⟨List.singleton_sublist.mp h₁, rfl⟩

theorem Linearizes.nil (init : St) : Linearizes step init [] [] init where
  legal := .nil init
  once := List.nodup_nil
  called := nofun
  returned := nofun
  order _ _ _ _ _ h := absurd h List.not_mem_nil

theorem Linearizes.call (hlin : Linearizes step init h lin s) (i : ℕ) (op : Op)
    (hnew : i ∉ lin.map Entry.id) : Linearizes step init (h ++ [.call i op]) lin s where
  legal := hlin.legal
  once := hlin.once
  called e he := List.mem_append_left _ (hlin.called e he)
  returned i r hr := by
    rcases List.mem_append.mp hr with hr | hr
    · exact hlin.returned i r hr
    · exact absurd (List.mem_singleton.mp hr) nofun
  order i' r j op' hsub hj := by
    rcases pair_sublist_snoc hsub with hsub | ⟨-, heq⟩
    · exact hlin.order i' r j op' hsub hj
    · obtain ⟨rfl, -⟩ := Event.call.inj heq
      exact absurd hj hnew

/-- An operation takes effect. -/
theorem Linearizes.effect (hlin : Linearizes step init h lin s) (hcall : .call i op ∈ h)
    (hnew : i ∉ lin.map Entry.id) (hstep : step s op r s') :
    Linearizes step init h (lin ++ [⟨i, op, r⟩]) s' where
  legal := hlin.legal.snoc _ hstep
  once := by
    rw [List.map_append, List.nodup_append]
    refine ⟨hlin.once, List.nodup_singleton i, ?_⟩
    rintro a ha b hb rfl
    obtain rfl : a = i := List.mem_singleton.mp hb
    exact hnew ha
  called e he := by
    rcases List.mem_append.mp he with he | he
    · exact hlin.called e he
    · obtain rfl := List.mem_singleton.mp he
      exact hcall
  returned i' r' hr := by
    obtain ⟨e, he, hi⟩ := hlin.returned i' r' hr
    exact ⟨e, List.mem_append_left _ he, hi⟩
  order i' r' j op' hsub hj := by
    rw [List.map_append] at hj ⊢
    rcases List.mem_append.mp hj with hj | hj
    · exact (hlin.order i' r' j op' hsub hj).trans (List.sublist_append_left _ _)
    · -- What has returned has taken effect before.
      obtain rfl := List.mem_singleton.mp hj
      have hret : .ret i' r' ∈ h := hsub.subset List.mem_cons_self
      obtain ⟨e, he, hi, -⟩ := hlin.returned i' r' hret
      have hmem : [i'].Sublist (lin.map Entry.id) :=
        List.singleton_sublist.mpr (List.mem_map.mpr ⟨e, he, hi⟩)
      exact hmem.append (List.Sublist.refl _)

theorem Linearizes.ret (hlin : Linearizes step init h lin s) (hdone : ∃ e ∈ lin, e.id = i ∧ e.res = r) :
    Linearizes step init (h ++ [.ret i r]) lin s where
  legal := hlin.legal
  once := hlin.once
  called e he := List.mem_append_left _ (hlin.called e he)
  returned i' r' hr := by
    rcases List.mem_append.mp hr with hr | hr
    · exact hlin.returned i' r' hr
    · obtain ⟨rfl, rfl⟩ := Event.ret.inj (List.mem_singleton.mp hr)
      exact hdone
  order i' r' j op' hsub hj := by
    rcases pair_sublist_snoc hsub with hsub | ⟨-, heq⟩
    · exact hlin.order i' r' j op' hsub hj
    · exact absurd heq nofun

end Tasan.Linearizable
