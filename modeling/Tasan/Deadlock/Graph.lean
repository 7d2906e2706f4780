import Mathlib

/-!
# The graph of the deadlock detector

`BVGraph` of `sanitizer_bvgraph.h`, on the indices below `size`. A bit vector is the finite set that it
represents, which is what `BitVector.Refinement` says of its operations. `isReachable` is a search that
ends and visits exactly the nodes with a path to them: `isReachable_eq`. The last section is about any
relation: edges into a node from which there is no path back to their sources close no cycle.
-/

namespace Tasan.Deadlock

/-- `BVGraph`: the targets of the edges of each index. -/
abbrev Graph := ℕ → Finset ℕ

/-- There is an edge. -/
def Graph.Edge (v : Graph) (a b : ℕ) : Prop := b ∈ v a

/-- `removeEdgesTo`. -/
def Graph.removeEdgesTo (v : Graph) (targets : Finset ℕ) : Graph := fun a => v a \ targets

/-- `removeEdgesFrom` of one index. -/
def Graph.removeEdgesFrom (v : Graph) (source : ℕ) : Graph := Function.update v source ∅

/-- The edges after `addEdges`: the loop takes each source once. -/
def Graph.addEdges (v : Graph) (sources : Finset ℕ) (target : ℕ) : Graph :=
  fun a => if a ∈ sources then insert target (v a) else v a

/-- What `addEdges` returns: the number of new edges, of which at most `max_added_edges` are stored. -/
def Graph.countAdded (v : Graph) (sources : Finset ℕ) (target maxAddedEdges : ℕ) : ℕ :=
  min (sources.filter fun a => target ∉ v a).card maxAddedEdges

/-- The loop of `isReachable`: the nodes that have been visited when nothing is left to visit. -/
def Graph.visit (v : Graph) : ℕ → Finset ℕ → Finset ℕ → Option (Finset ℕ)
  | 0, _, _ => none
  | fuel + 1, toVisit, visited =>
    if h : toVisit.Nonempty then
      let idx := toVisit.min' h
      if idx ∈ visited then v.visit fuel (toVisit.erase idx) visited
      else v.visit fuel (toVisit.erase idx ∪ v idx) (insert idx visited)
    else some visited

/-- `isReachable`. Each round visits a node or takes one off the list, which bounds their number. -/
def Graph.isReachable (v : Graph) (size start : ℕ) (targets : Finset ℕ) : Option Bool :=
  (v.visit (size * (size + 1) + size + 1) (v start) {start}).map fun visited =>
    decide (¬Disjoint targets visited)

theorem Graph.mem_removeEdgesFrom {v : Graph} {source a b : ℕ} :
    b ∈ v.removeEdgesFrom source a ↔ a ≠ source ∧ b ∈ v a := by
  unfold Graph.removeEdgesFrom
  by_cases h : a = source
  · subst h
    simp
  · simp [h]

theorem Graph.mem_addEdges {v : Graph} {sources : Finset ℕ} {target a b : ℕ} :
    b ∈ v.addEdges sources target a ↔ b ∈ v a ∨ a ∈ sources ∧ b = target := by
  unfold Graph.addEdges
  by_cases h : a ∈ sources
  · simp [h, or_comm]
  · simp [h]

/-! ## The search -/

/-- A path of any length. -/
def Graph.Path (v : Graph) (a b : ℕ) : Prop := Relation.ReflTransGen v.Edge a b

/-- The search ends, and visits what can be reached. -/
theorem Graph.visit_spec {v : Graph} {size start : ℕ} (hv : ∀ a, v a ⊆ Finset.range size)
    {fuel : ℕ} {toVisit visited : Finset ℕ} (hto : toVisit ⊆ Finset.range size)
    (hfuel : (Finset.range size \ visited).card * (size + 1) + toVisit.card < fuel)
    (hreach : ∀ a ∈ toVisit ∪ visited, v.Path start a) (hstart : start ∈ visited)
    (hclosed : ∀ a ∈ visited, v a ⊆ toVisit ∪ visited) :
    ∃ r, v.visit fuel toVisit visited = some r ∧ ∀ a, a ∈ r ↔ v.Path start a := by
  induction fuel generalizing toVisit visited with
  | zero => omega
  | succ fuel ih =>
    unfold Graph.visit
    by_cases hne : toVisit.Nonempty
    · rw [dif_pos hne]
      have hmem := toVisit.min'_mem hne
      have hcard := Finset.card_erase_add_one hmem
      have herase : (toVisit.erase (toVisit.min' hne)) ⊆ Finset.range size :=
        (Finset.erase_subset _ _).trans hto
      dsimp only
      generalize toVisit.min' hne = idx at hmem hcard herase
      by_cases hold : idx ∈ visited
      · rw [if_pos hold]
        apply ih herase (by omega) _ hstart
        · intro a ha b hb
          have hb' := hclosed a ha hb
          rw [Finset.mem_union] at hb' ⊢
          by_cases hbi : b = idx
          · exact Or.inr (hbi ▸ hold)
          · exact hb'.imp_left fun h => Finset.mem_erase.mpr ⟨hbi, h⟩
        · intro a ha
          apply hreach
          rw [Finset.mem_union] at ha ⊢
          exact ha.imp_left Finset.mem_of_mem_erase
      · rw [if_neg hold]
        have hpath := hreach idx (Finset.mem_union_left _ hmem)
        apply ih
        · exact Finset.union_subset herase (hv idx)
        · -- one node less to visit, and the list stays below `size`
          have hidx : idx ∈ Finset.range size \ visited :=
            Finset.mem_sdiff.mpr ⟨hto hmem, hold⟩
          have hless := Finset.card_erase_add_one hidx
          have hsame : Finset.range size \ insert idx visited =
              (Finset.range size \ visited).erase idx := by
            ext a
            simp only [Finset.mem_sdiff, Finset.mem_insert, Finset.mem_erase]
            tauto
          have hlist : (toVisit.erase idx ∪ v idx).card ≤ size := by
            have := Finset.card_le_card (Finset.union_subset herase (hv idx))
            rwa [Finset.card_range] at this
          rw [hsame]
          rw [← hless] at hfuel
          have hmul : ((Finset.range size \ visited).erase idx).card * (size + 1) + (size + 1) =
              (((Finset.range size \ visited).erase idx).card + 1) * (size + 1) := by ring
          omega
        · intro a ha
          rw [Finset.mem_union, Finset.mem_union, Finset.mem_insert] at ha
          rcases ha with (ha | ha) | rfl | ha
          · exact hreach a (Finset.mem_union_left _ (Finset.mem_of_mem_erase ha))
          · exact hpath.tail ha
          · exact hpath
          · exact hreach a (Finset.mem_union_right _ ha)
        · exact Finset.mem_insert_of_mem hstart
        · intro a ha b hb
          rw [Finset.mem_union, Finset.mem_union, Finset.mem_insert]
          rcases Finset.mem_insert.mp ha with rfl | ha
          · exact Or.inl (Or.inr hb)
          · by_cases hbi : b = idx
            · exact Or.inr (Or.inl hbi)
            · rcases Finset.mem_union.mp (hclosed a ha hb) with h | h
              · exact Or.inl (Or.inl (Finset.mem_erase.mpr ⟨hbi, h⟩))
              · exact Or.inr (Or.inr h)
    · rw [dif_neg hne]
      rw [Finset.not_nonempty_iff_eq_empty] at hne
      subst hne
      refine ⟨visited, rfl, fun a => ⟨fun ha => hreach a (Finset.mem_union_right _ ha), fun h => ?_⟩⟩
      -- what has been visited is closed under edges
      induction h with
      | refl => exact hstart
      | tail _ hedge ihp =>
        have := hclosed _ ihp hedge
        rwa [Finset.empty_union] at this

/-- `isReachable` tells whether there is a path to one of the targets. -/
theorem Graph.isReachable_eq {v : Graph} {size start : ℕ} (hv : ∀ a, v a ⊆ Finset.range size)
    (targets : Finset ℕ) : ∃ res, v.isReachable size start targets = some res ∧
      (res = true ↔ ∃ a ∈ targets, v.Path start a) := by
  have hclosed : ∀ a ∈ ({start} : Finset ℕ), v a ⊆ v start ∪ {start} := by
    intro a ha
    rw [Finset.mem_singleton.mp ha]
    exact Finset.subset_union_left
  have hreach : ∀ a ∈ v start ∪ {start}, v.Path start a := by
    intro a ha
    rcases Finset.mem_union.mp ha with ha | ha
    · exact Relation.ReflTransGen.single ha
    · rw [Finset.mem_singleton.mp ha]
      exact Relation.ReflTransGen.refl
  have hcard : (v start).card ≤ size := by
    have := Finset.card_le_card (hv start)
    rwa [Finset.card_range] at this
  have hcard' : (Finset.range size \ {start}).card ≤ size := by
    have := Finset.card_le_card (Finset.sdiff_subset (s := Finset.range size) (t := {start}))
    rwa [Finset.card_range] at this
  have hfuel : (Finset.range size \ {start}).card * (size + 1) + (v start).card <
      size * (size + 1) + size + 1 := by
    have := Nat.mul_le_mul_right (size + 1) hcard'
    omega
  obtain ⟨r, hr, hmem⟩ :=
    Graph.visit_spec hv (hv start) hfuel hreach (Finset.mem_singleton_self start) hclosed
  refine ⟨decide (¬Disjoint targets r), by rw [Graph.isReachable, hr]; rfl, ?_⟩
  rw [decide_eq_true_eq, Finset.not_disjoint_iff]
  simp only [hmem]

/-! ## Cycles -/

section Cycles

variable {α : Type} {r r' : α → α → Prop}

/-- No element can be reached from itself by one step or more. -/
def Acyclic (r : α → α → Prop) : Prop := ∀ a, ¬Relation.TransGen r a a

theorem Acyclic.mono (h : Acyclic r) (hle : ∀ a b, r' a b → r a b) : Acyclic r' :=
  fun a hcycle => h a (Relation.TransGen.mono hle a a hcycle)

variable {sources : Set α} {b : α}

theorem reflTransGen_of_new (hnew : ∀ x y, r' x y → r x y ∨ x ∈ sources ∧ y = b) {c : α}
    (h : Relation.ReflTransGen r' b c) : Relation.ReflTransGen r b c := by
  induction h with
  | refl => exact Relation.ReflTransGen.refl
  | tail _ hstep ih =>
    rcases hnew _ _ hstep with hold | ⟨-, rfl⟩
    · exact ih.tail hold
    · exact Relation.ReflTransGen.refl

theorem transGen_or_source (hnew : ∀ x y, r' x y → r x y ∨ x ∈ sources ∧ y = b) {a c : α}
    (h : Relation.TransGen r' a c) : Relation.TransGen r a c ∨
      ∃ x ∈ sources, Relation.ReflTransGen r' a x ∧ Relation.ReflTransGen r' b c := by
  induction h with
  | single hstep =>
    rcases hnew _ _ hstep with hold | ⟨hx, rfl⟩
    · exact Or.inl (Relation.TransGen.single hold)
    · exact Or.inr ⟨_, hx, Relation.ReflTransGen.refl, Relation.ReflTransGen.refl⟩
  | tail hpath hstep ih =>
    rcases hnew _ _ hstep with hold | ⟨hx, rfl⟩
    · rcases ih with ih | ⟨x, hx, hax, hbc⟩
      · exact Or.inl (ih.tail hold)
      · exact Or.inr ⟨x, hx, hax, hbc.tail hstep⟩
    · exact Or.inr ⟨_, hx, hpath.to_reflTransGen, Relation.ReflTransGen.refl⟩

theorem Acyclic.addEdges (h : Acyclic r)
    (hnew : ∀ x y, r' x y → r x y ∨ x ∈ sources ∧ y = b)
    (hno : ∀ x ∈ sources, ¬Relation.ReflTransGen r b x) : Acyclic r' := by
  intro a hcycle
  rcases transGen_or_source hnew hcycle with hold | ⟨x, hx, hax, hba⟩
  · exact h a hold
  · exact hno x hx (reflTransGen_of_new hnew (hba.trans hax))

end Cycles

end Tasan.Deadlock
