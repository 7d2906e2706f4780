import Mathlib.Tactic

/-!
# Depth-first search along edges

A depth-first search for a node goes along the edges of a list, marks the nodes that it comes to and then
goes along their edges before the rest of the list. `Explore` is its big-step meaning: the nodes that are
marked afterwards, the path to the goal if it was found, and how many entries a stack needs that holds the
edges still to be taken and one mark for each node of the path.

`Explore.total` says that the search of a finite graph ends. What it finds is a simple path
(`Explore.isPath`), and when it finds nothing, then no path leads to the goal (`Explore.not_reaches`).

`acc_iff_acyclic` is about walks that remember nothing: among finitely many nodes they end just when they
meet no node again.
-/

namespace Tasan.Search

/-- A graph whose edges are data of their own. -/
structure Graph (V A : Type) where
  /-- The edges of a node, in the order of the search. -/
  out : V → List A
  /-- The node at the end of an edge. -/
  target : A → V
  /-- Whether the edge can be followed. -/
  live : A → Bool

variable {V A : Type} {G : Graph V A} {goal : V}

/-- A node has a live edge to another. -/
def Graph.Step (G : Graph V A) (x y : V) : Prop := ∃ a ∈ G.out x, G.live a = true ∧ G.target a = y

/-- Edges that follow each other from one of some edges to the goal, along nodes that are met once. -/
inductive IsPath (G : Graph V A) (goal : V) : List A → List A → Prop
  /-- One edge. -/
  | last {as a} (hmem : a ∈ as) (hlive : G.live a = true) (hgoal : G.target a = goal) :
    IsPath G goal as [a]
  /-- An edge in front of others. -/
  | cons {as a p} (hmem : a ∈ as) (hlive : G.live a = true)
    (hnew : G.target a ∉ p.map G.target) (htail : IsPath G goal (G.out (G.target a)) p) :
    IsPath G goal as (a :: p)

theorem IsPath.reaches {x : V} {p : List A} (h : IsPath G goal (G.out x) p) :
    Relation.TransGen G.Step x goal := by
  generalize has : G.out x = as at h
  induction h generalizing x with
  | last hmem hlive hgoal => exact .single ⟨_, has ▸ hmem, hlive, hgoal⟩
  | cons hmem hlive _ _ ih => exact .head ⟨_, has ▸ hmem, hlive, rfl⟩ (ih rfl)

/-- All walks from a node end just when none of them comes to a node again, provided that they come to
finitely many nodes. -/
theorem acc_iff_acyclic {Step : V → V → Prop} {x : V} (hfin : {y | Relation.ReflTransGen Step x y}.Finite) :
    Acc (fun y x => Step x y) x ↔
      ∀ y, Relation.ReflTransGen Step x y → ¬ Relation.TransGen Step y y := by
  constructor
  · intro hacc
    clear hfin
    induction hacc with
    | intro x _ ih =>
      intro y hxy hyy
      rcases hxy.cases_head with rfl | ⟨z, hxz, hzy⟩
      · obtain ⟨z, hxz, hzx⟩ := Relation.TransGen.head'_iff.mp hyy
        exact ih z hxz x hzx hyy
      · exact ih z hxz y hzy hyy
  · intro hacyclic
    -- On the nodes that are reached, going on is a strict order.
    let r : {y | Relation.ReflTransGen Step x y} → {y | Relation.ReflTransGen Step x y} → Prop :=
      fun a b => Relation.TransGen Step b.1 a.1
    have : Finite {y | Relation.ReflTransGen Step x y} := hfin
    have : IsTrans _ r := ⟨fun _ _ _ hab hbc => hbc.trans hab⟩
    have : Std.Irrefl r := ⟨fun a => hacyclic a.1 a.2⟩
    have hwf : WellFounded r := Finite.wellFounded_of_trans_of_irrefl r
    have hacc : ∀ a : {y | Relation.ReflTransGen Step x y}, Acc (fun y x => Step x y) a.1 := fun a => by
      induction a using hwf.induction with
      | _ a ih => exact ⟨_, fun y hy => ih ⟨y, a.2.tail hy⟩ (.single hy)⟩
    exact hacc ⟨x, .refl⟩

variable [DecidableEq V]

/-- The search along the edges of a list, from the nodes that are marked. -/
inductive Explore (G : Graph V A) (goal : V) :
    Finset V → List A → Finset V → Option (List A) → ℕ → Prop
  /-- No edge is left. -/
  | nil (marked) : Explore G goal marked [] marked none 0
  /-- The edge is dead, or leads to a marked node. -/
  | skip {marked a as marked' r n} (hskip : G.target a ∈ marked ∨ G.live a = false)
    (hrest : Explore G goal marked as marked' r n) :
    Explore G goal marked (a :: as) marked' r (max (as.length + 1) n)
  /-- The node has no edges. -/
  | leaf {marked a as marked' r n} (hnew : G.target a ∉ marked) (hlive : G.live a = true)
    (hout : G.out (G.target a) = []) (hrest : Explore G goal (insert (G.target a) marked) as marked' r n) :
    Explore G goal marked (a :: as) marked' r (max (as.length + 1) n)
  /-- The node is the goal. -/
  | goal {marked a as} (hnew : G.target a ∉ marked) (hlive : G.live a = true)
    (hout : G.out (G.target a) ≠ []) (hgoal : G.target a = goal) :
    Explore G goal marked (a :: as) (insert (G.target a) marked) (some [a]) (as.length + 1)
  /-- The goal is found from the node. -/
  | found {marked a as marked' p n} (hnew : G.target a ∉ marked) (hlive : G.live a = true)
    (hout : G.out (G.target a) ≠ []) (hgoal : G.target a ≠ goal)
    (hin : Explore G goal (insert (G.target a) marked) (G.out (G.target a)) marked' (some p) n) :
    Explore G goal marked (a :: as) marked' (some (a :: p)) (as.length + 1 + n)
  /-- The goal is not found from the node. -/
  | back {marked a as marked' marked'' r n n'} (hnew : G.target a ∉ marked) (hlive : G.live a = true)
    (hout : G.out (G.target a) ≠ []) (hgoal : G.target a ≠ goal)
    (hin : Explore G goal (insert (G.target a) marked) (G.out (G.target a)) marked' none n)
    (hrest : Explore G goal marked' as marked'' r n') :
    Explore G goal marked (a :: as) marked'' r (max (as.length + 1 + n) n')

namespace Explore

variable {marked marked' : Finset V} {as : List A} {r : Option (List A)} {n : ℕ}

theorem mono (h : Explore G goal marked as marked' r n) : marked ⊆ marked' := by
  induction h with
  | nil => exact Finset.Subset.refl _
  | skip _ _ ih => exact ih
  | leaf _ _ _ _ ih => exact (Finset.subset_insert _ _).trans ih
  | goal => exact Finset.subset_insert _ _
  | found _ _ _ _ _ ih => exact (Finset.subset_insert _ _).trans ih
  | back _ _ _ _ _ _ ih ih' => exact ((Finset.subset_insert _ _).trans ih).trans ih'

theorem length_le (h : Explore G goal marked as marked' r n) : as.length ≤ n := by
  cases h with
  | nil => exact le_rfl
  | skip => exact le_max_left _ _
  | leaf => exact le_max_left _ _
  | goal => exact le_rfl
  | found => exact Nat.le_add_right _ _
  | back => exact (Nat.le_add_right _ _).trans (le_max_left _ _)

/-- A search among finitely many nodes ends. -/
theorem total {nodes : Finset V} (hnodes : ∀ x ∈ nodes, ∀ a ∈ G.out x, G.target a ∈ nodes)
    (goal : V) (marked : Finset V) (as : List A) (has : ∀ a ∈ as, G.target a ∈ nodes) :
    ∃ marked' r n, Explore G goal marked as marked' r n := by
  -- The induction is on the nodes that are not marked, and then on the edges of the list.
  induction hk : (nodes \ marked).card using Nat.strong_induction_on generalizing marked as with
  | _ k ih =>
    induction as generalizing marked with
    | nil => exact ⟨marked, none, 0, .nil marked⟩
    | cons a as ihas =>
      have hrest : ∀ b ∈ as, G.target b ∈ nodes := fun b hb => has b (List.mem_cons_of_mem a hb)
      by_cases hskip : G.target a ∈ marked ∨ G.live a = false
      · obtain ⟨marked', r, n, h⟩ := ihas marked hrest hk
        exact ⟨marked', r, _, .skip hskip h⟩
      · obtain ⟨hnew, hlive⟩ := not_or.mp hskip
        rw [Bool.not_eq_false] at hlive
        have hmem : G.target a ∈ nodes := has a List.mem_cons_self
        have hless : ∀ {marked' : Finset V}, insert (G.target a) marked ⊆ marked' →
            (nodes \ marked').card < k := fun hsub => by
          rw [← hk]
          refine Finset.card_lt_card ⟨Finset.sdiff_subset_sdiff le_rfl
            ((Finset.subset_insert _ _).trans hsub), fun h => ?_⟩
          have := h (Finset.mem_sdiff.mpr ⟨hmem, hnew⟩)
          exact (Finset.mem_sdiff.mp this).2 (hsub (Finset.mem_insert_self _ _))
        by_cases hout : G.out (G.target a) = []
        · obtain ⟨marked', r, n, h⟩ := ih _ (hless le_rfl) _ as hrest rfl
          exact ⟨marked', r, _, .leaf hnew hlive hout h⟩
        · by_cases hgoal : G.target a = goal
          · exact ⟨_, _, _, .goal hnew hlive hout hgoal⟩
          · obtain ⟨marked', r, n, h⟩ := ih _ (hless le_rfl) (insert (G.target a) marked)
              (G.out (G.target a)) (hnodes _ hmem) rfl
            cases r with
            | some p => exact ⟨marked', _, _, .found hnew hlive hout hgoal h⟩
            | none =>
              obtain ⟨marked'', r, n', h'⟩ := ih _ (hless h.mono) marked' as hrest rfl
              exact ⟨marked'', r, _, .back hnew hlive hout hgoal h h'⟩

/-- How much room a stack needs, when no node has more than `d` edges. -/
theorem le {nodes : Finset V} (h : Explore G goal marked as marked' r n)
    (hnodes : ∀ x ∈ nodes, ∀ a ∈ G.out x, G.target a ∈ nodes) (has : ∀ a ∈ as, G.target a ∈ nodes)
    {d : ℕ} (hd : ∀ x, (G.out x).length ≤ d) : n ≤ as.length + (d + 1) * (nodes \ marked).card := by
  -- Marking a node pays for its edges and its mark.
  have hpay : ∀ {marked : Finset V} {x : V}, x ∈ nodes → x ∉ marked →
      (d + 1) * (nodes \ insert x marked).card + (d + 1) = (d + 1) * (nodes \ marked).card := by
    intro marked x hx hnew
    rw [Finset.sdiff_insert, Finset.card_erase_of_mem (Finset.mem_sdiff.mpr ⟨hx, hnew⟩), ← Nat.mul_succ,
      Nat.succ_eq_add_one, Nat.sub_add_cancel (Finset.card_pos.mpr ⟨x, Finset.mem_sdiff.mpr ⟨hx, hnew⟩⟩)]
  have hmono : ∀ {marked marked' : Finset V}, marked ⊆ marked' →
      (d + 1) * (nodes \ marked').card ≤ (d + 1) * (nodes \ marked).card := fun hsub =>
    Nat.mul_le_mul_left _ (Finset.card_le_card (Finset.sdiff_subset_sdiff le_rfl hsub))
  induction h with
  | nil => exact Nat.zero_le _
  | skip _ _ ih =>
    have := ih fun b hb => has b (List.mem_cons_of_mem _ hb)
    rw [List.length_cons]
    omega
  | @leaf marked a as _ _ _ hnew _ _ _ ih =>
    have := ih fun b hb => has b (List.mem_cons_of_mem _ hb)
    have := hpay (has a List.mem_cons_self) hnew
    rw [List.length_cons]
    omega
  | goal =>
    rw [List.length_cons]
    omega
  | @found marked a as _ _ _ hnew _ _ _ _ ih =>
    have := ih (hnodes _ (has a List.mem_cons_self))
    have := hpay (has a List.mem_cons_self) hnew
    have := hd (G.target a)
    rw [List.length_cons]
    omega
  | @back marked a as _ _ _ _ _ hnew _ _ _ hin _ ihin ih =>
    have := ihin (hnodes _ (has a List.mem_cons_self))
    have := ih fun b hb => has b (List.mem_cons_of_mem _ hb)
    have := hpay (has a List.mem_cons_self) hnew
    have := hd (G.target a)
    have := hmono hin.mono
    rw [List.length_cons]
    omega

/-- What is found is a path from one of the edges, along nodes that were not marked. -/
theorem isPath {p : List A} (h : Explore G goal marked as marked' (some p) n) :
    IsPath G goal as p ∧ ∀ a ∈ p, G.target a ∉ marked := by
  have hsub : ∀ {as as' : List A} {p : List A}, as ⊆ as' → IsPath G goal as p → IsPath G goal as' p := by
    intro as as' p hsub hp
    cases hp with
    | last hmem hlive hgoal => exact .last (hsub hmem) hlive hgoal
    | cons hmem hlive hnew htail => exact .cons (hsub hmem) hlive hnew htail
  generalize hr : some p = r at h
  induction h generalizing p with
  | nil => cases hr
  | skip _ _ ih =>
    obtain ⟨hpath, hnew⟩ := ih hr
    exact ⟨hsub (List.subset_cons_self _ _) hpath, hnew⟩
  | leaf _ _ _ _ ih =>
    obtain ⟨hpath, hnew⟩ := ih hr
    exact ⟨hsub (List.subset_cons_self _ _) hpath,
      fun b hb hmem => hnew b hb (Finset.mem_insert_of_mem hmem)⟩
  | goal hnew hlive _ hgoal =>
    cases hr
    refine ⟨.last List.mem_cons_self hlive hgoal, fun b hb => ?_⟩
    rw [List.mem_singleton.mp hb]
    exact hnew
  | found hnew hlive _ _ _ ih =>
    cases hr
    obtain ⟨hpath, hfresh⟩ := ih rfl
    refine ⟨.cons List.mem_cons_self hlive (fun hmem => ?_) hpath, fun b hb => ?_⟩
    · obtain ⟨b, hb, heq⟩ := List.mem_map.mp hmem
      exact hfresh b hb (heq ▸ Finset.mem_insert_self _ _)
    · rcases List.mem_cons.mp hb with rfl | hb
      · exact hnew
      · exact fun hmem => hfresh b hb (Finset.mem_insert_of_mem hmem)
  | back _ _ _ _ hin _ _ ih =>
    obtain ⟨hpath, hnew⟩ := ih hr
    refine ⟨hsub (List.subset_cons_self _ _) hpath, fun b hb hmem => hnew b hb ?_⟩
    exact hin.mono (Finset.mem_insert_of_mem hmem)

/-- When nothing is found, the ends of the live edges are marked, those of the list and those of each node
that the search marked, and the goal is not among what it marked. -/
theorem closed (h : Explore G goal marked as marked' none n) (hgoal : G.out goal ≠ []) :
    (∀ a ∈ as, G.live a = true → G.target a ∈ marked') ∧
      (∀ x ∈ marked', x ∉ marked → ∀ y, G.Step x y → y ∈ marked') ∧
      (goal ∈ marked' → goal ∈ marked) := by
  generalize hr : none = r at h
  induction h with
  | nil => exact ⟨nofun, fun x hx hnot => absurd hx hnot, id⟩
  | @skip marked a as marked' r n hskip hrest ih =>
    obtain ⟨has, hstep, hnot⟩ := ih hr
    refine ⟨fun b hb hlive => ?_, hstep, hnot⟩
    rcases List.mem_cons.mp hb with rfl | hb
    · rcases hskip with hmem | hdead
      · exact hrest.mono hmem
      · exact absurd (hlive.symm.trans hdead) (by decide)
    · exact has b hb hlive
  | @leaf marked a as marked' r n hnew hlive hout hrest ih =>
    obtain ⟨has, hstep, hnot⟩ := ih hr
    refine ⟨fun b hb hb' => ?_, fun x hx hx' y hy => ?_, fun hmem => ?_⟩
    · rcases List.mem_cons.mp hb with rfl | hb
      · exact hrest.mono (Finset.mem_insert_self _ _)
      · exact has b hb hb'
    · by_cases hxa : x = G.target a
      · obtain ⟨b, hb, -⟩ := hy
        rw [hxa, hout] at hb
        exact absurd hb List.not_mem_nil
      · exact hstep x hx (fun h => (Finset.mem_insert.mp h).elim hxa hx') y hy
    · refine (Finset.mem_insert.mp (hnot hmem)).resolve_left fun heq => hgoal ?_
      rw [heq, hout]
  | goal => cases hr
  | found => cases hr
  | @back marked a as marked' marked'' r n n' hnew hlive hout hne hin hrest ihin ih =>
    obtain ⟨hasin, hstepin, hnotin⟩ := ihin rfl
    obtain ⟨has, hstep, hnot⟩ := ih hr
    refine ⟨fun b hb hb' => ?_, fun x hx hx' y hy => ?_, fun hmem => ?_⟩
    · rcases List.mem_cons.mp hb with rfl | hb
      · exact hrest.mono (hin.mono (Finset.mem_insert_self _ _))
      · exact has b hb hb'
    · -- The edges of the node itself are those of the inner search.
      by_cases hxa : x = G.target a
      · obtain ⟨b, hb, hblive, rfl⟩ := hy
        rw [hxa] at hb
        exact hrest.mono (hasin b hb hblive)
      · by_cases hxm : x ∈ marked'
        · exact hrest.mono (hstepin x hxm (fun h => (Finset.mem_insert.mp h).elim hxa hx') y hy)
        · exact hstep x hx hxm y hy
    · exact (Finset.mem_insert.mp (hnotin (hnot hmem))).resolve_left fun heq => hne heq.symm

theorem not_reaches {x : V} (h : Explore G goal ∅ (G.out x) marked' none n) (hgoal : G.out goal ≠ []) :
    ¬ Relation.TransGen G.Step x goal := by
  obtain ⟨hout, hstep, hnot⟩ := h.closed hgoal
  have hreach : ∀ y, Relation.TransGen G.Step x y → y ∈ marked' := fun y hy => by
    induction hy with
    | single hxy =>
      obtain ⟨a, ha, hlive, rfl⟩ := hxy
      exact hout a ha hlive
    | tail _ hyz ih => exact hstep _ ih (Finset.notMem_empty _) _ hyz
  exact fun hx => Finset.notMem_empty _ (hnot (hreach goal hx))

end Explore

end Tasan.Search
