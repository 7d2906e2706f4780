import Mathlib

/-!
# Marking a graph with a worklist

A mark phase keeps a set of marked vertices and a worklist of those whose edges are still to be
followed. `Marking` is its invariant, `Marking.visit` says that it survives one visit, whatever vertex
is taken and however the worklist is arranged, and `Marking.eq_reach` that an empty worklist leaves
exactly what the roots reach.
-/

namespace Tasan

variable {α : Type}

/-- What the roots `R` reach along the edges `E`. -/
def Reach (E : α → α → Prop) (R : Set α) : Set α := {x | ∃ r ∈ R, Relation.ReflTransGen E r x}

namespace Reach

variable {E : α → α → Prop} {R R' M : Set α} {x y : α}

theorem root (h : x ∈ R) : x ∈ Reach E R := ⟨x, h, .refl⟩

theorem step (h : x ∈ Reach E R) (hE : E x y) : y ∈ Reach E R := by
  obtain ⟨r, hr, hx⟩ := h
  exact ⟨r, hr, hx.tail hE⟩

theorem subset (hR : R ⊆ M) (hM : ∀ x ∈ M, ∀ y, E x y → y ∈ M) : Reach E R ⊆ M := by
  rintro x ⟨r, hr, hx⟩
  induction hx with
  | refl => exact hR hr
  | tail _ hE ih => exact hM _ ih _ hE

end Reach

/-- The invariant of a mark phase. -/
structure Marking (E : α → α → Prop) (R marked : Set α) (work : List α) : Prop where
  /-- What is marked is reached. -/
  sound : marked ⊆ Reach E R
  /-- The roots are marked. -/
  roots : R ⊆ marked
  /-- The worklist is marked. -/
  work_marked : ∀ x ∈ work, x ∈ marked
  /-- The edges of a marked vertex have been followed, unless it is on the worklist. -/
  followed : ∀ x ∈ marked, x ∈ work ∨ ∀ y, E x y → y ∈ marked

namespace Marking

variable {E : α → α → Prop} {R marked marked' : Set α} {work work' : List α} {x : α}

theorem perm (h : Marking E R marked work) (hp : work'.Perm work) : Marking E R marked work' where
  sound := h.sound
  roots := h.roots
  work_marked y hy := h.work_marked y (hp.mem_iff.mp hy)
  followed y hy := (h.followed y hy).imp_left hp.mem_iff.mpr

theorem visit (h : Marking E R marked (x :: work)) (hmarked : ∀ y, y ∈ marked' ↔ y ∈ marked ∨ E x y)
    (hwork : ∀ y, y ∈ work' ↔ y ∈ work ∨ (E x y ∧ y ∉ marked)) : Marking E R marked' work' where
  sound y hy := by
    rcases (hmarked y).mp hy with hy | hy
    · exact h.sound hy
    · exact Reach.step (h.sound (h.work_marked x List.mem_cons_self)) hy
  roots y hy := (hmarked y).mpr (Or.inl (h.roots hy))
  work_marked y hy := by
    rcases (hwork y).mp hy with hy | hy
    · exact (hmarked y).mpr (Or.inl (h.work_marked y (List.mem_cons_of_mem _ hy)))
    · exact (hmarked y).mpr (Or.inr hy.1)
  followed y hy := by
    by_cases hold : y ∈ marked
    · rcases h.followed y hold with hwait | hdone
      · rcases List.mem_cons.mp hwait with rfl | hwait
        · exact Or.inr fun z hz => (hmarked z).mpr (Or.inr hz)
        · exact Or.inl ((hwork y).mpr (Or.inl hwait))
      · exact Or.inr fun z hz => (hmarked z).mpr (Or.inl (hdone z hz))
    · exact Or.inl ((hwork y).mpr (Or.inr ⟨((hmarked y).mp hy).resolve_left hold, hold⟩))

theorem eq_reach (h : Marking E R marked []) : marked = Reach E R := by
  refine Set.Subset.antisymm h.sound (Reach.subset h.roots fun x hx => ?_)
  exact (h.followed x hx).resolve_left (List.not_mem_nil)

end Marking

end Tasan
