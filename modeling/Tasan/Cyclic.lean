import Mathlib

/-!
# Cyclic histories

A cyclic buffer of `N` slots writes each element at a cursor, which then goes on to the next slot and
from the last slot to the first. Counting back from the cursor, the slots hold the latest elements.
`Recent` says this of a list of elements, the latest first, and `Recent.push` is the step. A buffer
that has not gone round yet holds what its slots held at the beginning; `recent_init` counts these
among the elements, as if they had been written in the order of the slots.
-/

namespace Tasan.Cyclic

variable {α : Type*} {N c i : ℕ} {slots : ℕ → α} {hist : List α}

/-- The slot after `c`. -/
def next (N c : ℕ) : ℕ := if c + 1 = N then 0 else c + 1

/-- The slot `i + 1` steps before `c`. -/
def back (N c i : ℕ) : ℕ := if i + 1 ≤ c then c - (i + 1) else c + N - (i + 1)

/-- The slots hold the first elements of `hist`, counted back from the cursor `c`. -/
structure Recent (N : ℕ) (slots : ℕ → α) (c : ℕ) (hist : List α) : Prop where
  /-- The cursor is at a slot. -/
  cursor_lt : c < N
  /-- The slots hold the elements. -/
  get : ∀ i < N, hist[i]? = some (slots (back N c i))

theorem back_lt (hc : c < N) (hi : i < N) : back N c i < N := by
  rw [back]
  split <;> omega

theorem recent_init (hN : 0 < N) (slots : ℕ → α) :
    Recent N slots 0 ((List.range N).map fun i => slots (N - 1 - i)) where
  cursor_lt := hN
  get := fun i hi => by
    have hback : back N 0 i = N - 1 - i := by rw [back, if_neg (by omega)]; omega
    simp [hback, hi]

/-- An element is written at the cursor. -/
theorem Recent.push (h : Recent N slots c hist) (x : α) :
    Recent N (Function.update slots c x) (next N c) (x :: hist) where
  cursor_lt := by
    have := h.cursor_lt
    rw [next]
    split <;> omega
  get := fun i hi => by
    have hc := h.cursor_lt
    cases i with
    | zero =>
      have hback : back N (next N c) 0 = c := by
        rw [back, next]
        split_ifs <;> omega
      rw [hback, Function.update_self, List.getElem?_cons_zero]
    | succ i =>
      -- one step more from one slot further is the same slot, and not the one just written
      have hback : back N (next N c) (i + 1) = back N c i := by
        simp only [back, next]
        split_ifs <;> omega
      have hne : back N c i ≠ c := by
        rw [back]
        split <;> omega
      rw [hback, Function.update_of_ne hne, List.getElem?_cons_succ, h.get i (Nat.lt_of_succ_lt hi)]

theorem Recent.congr (h : Recent N slots c hist) {slots' : ℕ → α}
    (heq : ∀ k < N, slots' k = slots k) : Recent N slots' c hist where
  cursor_lt := h.cursor_lt
  get := fun i hi => by rw [h.get i hi, heq _ (back_lt h.cursor_lt hi)]

end Tasan.Cyclic
