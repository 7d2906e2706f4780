import Mathlib.Logic.Relation
import Mathlib.Data.List.Basic

/-!
# Warshall's transitive closure

The algorithm takes the nodes one after the other as pivots, and joins what leads to the pivot with what the
pivot leads to (`pivot`). After its turn a pivot can be passed through (`Through`), and no later turn undoes
this, so that the result is transitive at every pivot. When every target of an edge has been a pivot, the
result is the transitive closure (`foldl_pivot_iff`).
-/

namespace Tasan.Warshall

open Relation

variable {α : Type} {r b : α → α → Prop} {ks : List α}

/-- The turn of the pivot `k`. -/
def pivot (b : α → α → Prop) (k : α) : α → α → Prop := fun i j => b i j ∨ b i k ∧ b k j

/-- The relation can be passed through at `k`. -/
def Through (b : α → α → Prop) (k : α) : Prop := ∀ i j, b i k → b k j → b i j

theorem through_pivot_self (b : α → α → Prop) (k : α) : Through (pivot b k) k := by
  rintro i j (hik | ⟨hik, -⟩) (hkj | ⟨-, hkj⟩)
  all_goals exact Or.inr ⟨hik, hkj⟩

theorem Through.pivot {k : α} (h : Through b k) (k' : α) : Through (pivot b k') k := by
  rintro i j (hik | ⟨hik', hk'k⟩) (hkj | ⟨hkk', hk'j⟩)
  · exact Or.inl (h i j hik hkj)
  · exact Or.inr ⟨h i k' hik hkk', hk'j⟩
  · exact Or.inr ⟨hik', h k' j hk'k hkj⟩
  · exact Or.inr ⟨hik', hk'j⟩

theorem Through.foldl {k : α} (h : Through b k) (ks : List α) :
    Through (ks.foldl Warshall.pivot b) k := by
  induction ks generalizing b with
  | nil => exact h
  | cons k' ks ih => exact ih (h.pivot k')

theorem through_foldl {k : α} (hk : k ∈ ks) : Through (ks.foldl pivot b) k := by
  induction ks generalizing b with
  | nil => exact absurd hk List.not_mem_nil
  | cons k' ks ih =>
    rcases List.mem_cons.mp hk with rfl | hk
    · exact (through_pivot_self b k).foldl ks
    · exact ih hk

theorem foldl_pivot_of {i j : α} (h : b i j) : ks.foldl pivot b i j := by
  induction ks generalizing b with
  | nil => exact h
  | cons k ks ih => exact ih (Or.inl h)

theorem transGen_of_foldl_pivot (hb : ∀ i j, b i j → TransGen r i j) {i j : α}
    (h : ks.foldl pivot b i j) : TransGen r i j := by
  induction ks generalizing b with
  | nil => exact hb i j h
  | cons k ks ih =>
    refine ih ?_ h
    rintro i j (hij | ⟨hik, hkj⟩)
    · exact hb i j hij
    · exact (hb i k hik).trans (hb k j hkj)

theorem foldl_pivot_iff (hks : ∀ i j, r i j → j ∈ ks) {i j : α} :
    ks.foldl pivot r i j ↔ TransGen r i j := by
  refine ⟨transGen_of_foldl_pivot fun i j => TransGen.single, fun h => ?_⟩
  have hboth : ks.foldl pivot r i j ∧ j ∈ ks := by
    induction h with
    | single hij => exact ⟨foldl_pivot_of hij, hks _ _ hij⟩
    | tail _ hkj ih => exact ⟨through_foldl ih.2 _ _ ih.1 (foldl_pivot_of hkj), hks _ _ hkj⟩
  exact hboth.1

end Tasan.Warshall
