import Tasan.Deadlock.Graph

/-!
# Shortest paths in the graph of the deadlock detector

`findPath` and `findShortestPath` of `sanitizer_bvgraph.h`. `findPath` is a depth-first search that may
visit a node more than once, so it ends because of the bound on the length alone. It writes each node
that it tries into the buffer and overwrites it when it goes back. `FindsPath` is what one call does: it
finds a walk if there is one that fits, the walk that it has found is in the buffer, and the rest of
the buffer stays. The search with increasing bounds finds a shortest walk.
-/

namespace Tasan.Deadlock

/-! ## The code -/

/-- The loop of `findPath` over the edges of a node: the first search that succeeds. -/
def firstFound (search : ℕ → (ℕ → ℕ) → ℕ × (ℕ → ℕ)) : List ℕ → (ℕ → ℕ) → ℕ × (ℕ → ℕ)
  | [], path => (0, path)
  | idx :: rest, path =>
    let r := search idx path
    if r.1 ≠ 0 then (r.1 + 1, r.2) else firstFound search rest r.2

/-- The indices that an iterator over the edges of a node returns. -/
def Graph.successors (v : Graph) (size a : ℕ) : List ℕ := (List.range size).filter (· ∈ v a)

/-- `findPath` with the buffer at `path + off`: the length, and the buffer. -/
def Graph.findPath (v : Graph) (size : ℕ) (targets : Finset ℕ) :
    ℕ → ℕ → (ℕ → ℕ) → ℕ → ℕ × (ℕ → ℕ)
  | 0, _, path, _ => (0, path)
  | pathSize + 1, start, path, off =>
    let path := Function.update path off start
    if start ∈ targets then (1, path)
    else firstFound (fun idx path => v.findPath size targets pathSize idx path (off + 1))
      (v.successors size start) path

/-- The loop of `findShortestPath`, from `p` and with `left` more lengths to try. -/
def Graph.findShortestFrom (v : Graph) (size : ℕ) (targets : Finset ℕ) (start p : ℕ) :
    ℕ → (ℕ → ℕ) → ℕ × (ℕ → ℕ)
  | 0, path => (0, path)
  | left + 1, path =>
    let r := v.findPath size targets p start path 0
    if r.1 = p then (p, r.2) else v.findShortestFrom size targets start (p + 1) left r.2

/-- `findShortestPath`: the length, and the buffer. -/
def Graph.findShortestPath (v : Graph) (size start : ℕ) (targets : Finset ℕ) (path : ℕ → ℕ)
    (pathSize : ℕ) : ℕ × (ℕ → ℕ) :=
  v.findShortestFrom size targets start 1 pathSize path

/-! ## Walks -/

/-- The nodes of a walk along edges, from a node to one of the targets. -/
inductive Graph.Walk (v : Graph) (targets : Finset ℕ) : ℕ → List ℕ → Prop
  /-- A target. -/
  | stop {a : ℕ} : a ∈ targets → Walk v targets a [a]
  /-- An edge, and a walk from its end. -/
  | step {a b : ℕ} {l : List ℕ} : b ∈ v a → Walk v targets b l → Walk v targets a (a :: l)

/-- The first nodes in a buffer. -/
def readPath (path : ℕ → ℕ) (off n : ℕ) : List ℕ := (List.range n).map fun i => path (off + i)

theorem length_readPath (path : ℕ → ℕ) (off n : ℕ) : (readPath path off n).length = n := by
  simp [readPath]

theorem readPath_succ (path : ℕ → ℕ) (off n : ℕ) :
    readPath path off (n + 1) = path off :: readPath path (off + 1) n := by
  rw [readPath, List.range_succ_eq_map, List.map_cons, List.map_map, readPath]
  congr 1
  refine List.map_congr_left fun i _ => ?_
  rw [Function.comp_apply, Nat.succ_eq_add_one]
  congr 1
  omega

variable {v : Graph} {targets : Finset ℕ}

theorem Graph.Walk.length_pos {a : ℕ} {l : List ℕ} (h : v.Walk targets a l) : 0 < l.length := by
  cases h <;> simp

theorem Graph.Walk.exists_path {a : ℕ} {l : List ℕ} (h : v.Walk targets a l) :
    ∃ b ∈ targets, v.Path a b := by
  induction h with
  | stop ha => exact ⟨_, ha, Relation.ReflTransGen.refl⟩
  | step hedge _ ih =>
    obtain ⟨b, hb, hpath⟩ := ih
    exact ⟨b, hb, hpath.head hedge⟩

/-! ## One search -/

/-- What a search for a walk of at most `n` nodes from a node does with the buffer at `off`. -/
structure FindsPath (v : Graph) (targets : Finset ℕ) (n start off : ℕ) (path : ℕ → ℕ)
    (r : ℕ × (ℕ → ℕ)) : Prop where
  /-- The bound. -/
  le : r.1 ≤ n
  /-- What has been found is in the buffer. -/
  sound : r.1 ≠ 0 → v.Walk targets start (readPath r.2 off r.1)
  /-- A walk that fits is found. -/
  complete : ∀ l, v.Walk targets start l → l.length ≤ n → r.1 ≠ 0
  /-- The rest of the memory stays. -/
  frame : ∀ i, i < off ∨ off + n ≤ i → r.2 i = path i

/-- What the loop over the edges does, when each search does what it should. -/
theorem firstFound_spec {search : ℕ → (ℕ → ℕ) → ℕ × (ℕ → ℕ)} {n off : ℕ}
    (hsearch : ∀ idx path, FindsPath v targets n idx off path (search idx path)) (nodes : List ℕ)
    (path : ℕ → ℕ) :
    (firstFound search nodes path).1 ≤ n + 1 ∧
    ((firstFound search nodes path).1 ≠ 0 → ∃ idx ∈ nodes, ∃ k,
      (firstFound search nodes path).1 = k + 1 ∧
        v.Walk targets idx (readPath (firstFound search nodes path).2 off k)) ∧
    (∀ idx ∈ nodes, ∀ l, v.Walk targets idx l → l.length ≤ n →
      (firstFound search nodes path).1 ≠ 0) ∧
    ∀ i, i < off ∨ off + n ≤ i → (firstFound search nodes path).2 i = path i := by
  induction nodes generalizing path with
  | nil => exact ⟨Nat.zero_le _, fun h => absurd rfl h, by simp, fun _ _ => rfl⟩
  | cons idx rest ih =>
    have hone := hsearch idx path
    rw [firstFound]
    split_ifs with hfound
    · -- The search from the first node succeeds.
      refine ⟨Nat.succ_le_succ hone.le, fun _ => ⟨idx, List.mem_cons_self, _, rfl, ?_⟩, ?_, hone.frame⟩
      · exact hone.sound hfound
      · intro _ _ _ _ _
        exact Nat.succ_ne_zero _
    · obtain ⟨hle, hsound, hcomplete, hframe⟩ := ih (search idx path).2
      refine ⟨hle, fun hr => ?_, fun idx' hidx' l hl hlen => ?_, fun i hi => ?_⟩
      · obtain ⟨idx', hidx', hk⟩ := hsound hr
        exact ⟨idx', List.mem_cons_of_mem _ hidx', hk⟩
      · rcases List.mem_cons.mp hidx' with rfl | hidx'
        · exact absurd (hone.complete l hl hlen) hfound
        · exact hcomplete idx' hidx' l hl hlen
      · rw [hframe i hi, hone.frame i hi]

theorem Graph.mem_successors {size : ℕ} (hv : ∀ a, v a ⊆ Finset.range size) {a b : ℕ} :
    b ∈ v.successors size a ↔ b ∈ v a := by
  rw [Graph.successors, List.mem_filter, List.mem_range, decide_eq_true_eq]
  exact ⟨And.right, fun hb => ⟨Finset.mem_range.mp (hv a hb), hb⟩⟩

/-- `findPath` does what a search should. -/
theorem Graph.findPath_spec {size : ℕ} (hv : ∀ a, v a ⊆ Finset.range size) (targets : Finset ℕ)
    (n start off : ℕ) (path : ℕ → ℕ) :
    FindsPath v targets n start off path (v.findPath size targets n start path off) := by
  induction n generalizing start off path with
  | zero =>
    refine ⟨le_rfl, fun h => absurd rfl h, fun l hl hlen => ?_, fun _ _ => rfl⟩
    have := hl.length_pos
    omega
  | succ n ih =>
    rw [Graph.findPath]
    split_ifs with htarget
    · refine ⟨Nat.succ_le_succ (Nat.zero_le n), fun _ => ?_, fun _ _ _ => one_ne_zero, fun i hi => ?_⟩
      · dsimp only
        rw [readPath_succ, Function.update_self]
        exact .stop htarget
      · exact Function.update_of_ne (by omega) _ _
    · have hsearch : ∀ idx path, FindsPath _ _ n idx (off + 1) path _ :=
        fun idx path => ih idx (off + 1) path
      obtain ⟨hle, hsound, hcomplete, hframe⟩ := firstFound_spec hsearch
        (v.successors size start) (Function.update path off start)
      refine ⟨hle, fun hr => ?_, fun l hl hlen => ?_, fun i hi => ?_⟩
      · -- The first node is still there, since the searches write behind it.
        obtain ⟨idx, hidx, k, hk, hwalk⟩ := hsound hr
        rw [hk, readPath_succ, hframe off (Or.inl (Nat.lt_succ_self off)), Function.update_self]
        exact .step ((Graph.mem_successors hv).mp hidx) hwalk
      · cases hl with
        | stop ha => exact absurd ha htarget
        | step hedge hrest =>
          rw [List.length_cons] at hlen
          exact hcomplete _ ((Graph.mem_successors hv).mpr hedge) _ hrest (by omega)
      · rw [hframe i (by omega), Function.update_of_ne (by omega)]

/-! ## Increasing bounds -/

/-- The numbers of nodes of walks from a node to a target. -/
def Graph.walkLengths (v : Graph) (targets : Finset ℕ) (start : ℕ) : Set ℕ :=
  { n | ∃ l, v.Walk targets start l ∧ l.length = n }

theorem Graph.findPath_eq_iff {size start p : ℕ} (hv : ∀ a, v a ⊆ Finset.range size) (hp : 0 < p)
    (hmin : ∀ n ∈ v.walkLengths targets start, p ≤ n) (path : ℕ → ℕ) :
    (v.findPath size targets p start path 0).1 = p ↔ p ∈ v.walkLengths targets start := by
  have h := Graph.findPath_spec hv targets p start 0 path
  constructor
  · intro heq
    refine ⟨_, h.sound (by omega), ?_⟩
    rw [length_readPath, heq]
  · rintro ⟨l, hl, hlen⟩
    -- What is found is a walk, so it is not shorter than the bound.
    have hne := h.complete l hl hlen.le
    have hge := hmin _ ⟨_, h.sound hne, length_readPath _ _ _⟩
    have hle := h.le
    omega

/-- The loop of `findShortestPath`, when no walk is shorter than the lengths that it has not tried. -/
theorem Graph.findShortestFrom_spec {size start : ℕ} (hv : ∀ a, v a ⊆ Finset.range size) (left : ℕ)
    {p : ℕ} (hp : 0 < p)
    (hmin : ∀ n ∈ v.walkLengths targets start, p ≤ n) (path : ℕ → ℕ) :
    let r := v.findShortestFrom size targets start p left path
    (r.1 ≠ 0 → IsLeast (v.walkLengths targets start) r.1 ∧ r.1 < p + left ∧
      v.Walk targets start (readPath r.2 0 r.1)) ∧
    (r.1 = 0 → ∀ n ∈ v.walkLengths targets start, p + left ≤ n) := by
  induction left generalizing p path with
  | zero => exact ⟨fun h => absurd rfl h, fun _ => hmin⟩
  | succ left ih =>
    have hiff := Graph.findPath_eq_iff hv hp hmin path
    have hfind := Graph.findPath_spec hv targets p start 0 path
    rw [Graph.findShortestFrom]
    dsimp only
    split_ifs with hfound
    · refine ⟨fun _ => ⟨⟨hiff.mp hfound, hmin⟩, by omega, ?_⟩, fun hzero => absurd hzero (by omega)⟩
      have hsound := hfind.sound (by omega)
      rwa [hfound] at hsound
    · have hmin' : ∀ n ∈ v.walkLengths targets start, p + 1 ≤ n := by
        intro n hn
        rcases Nat.eq_or_lt_of_le (hmin n hn) with rfl | hlt
        · exact absurd (hiff.mpr hn) hfound
        · exact hlt
      obtain ⟨hsome, hnone⟩ := ih (p := p + 1) (Nat.succ_pos p) hmin'
        (v.findPath size targets p start path 0).2
      refine ⟨fun hr => ?_, fun hr n hn => ?_⟩
      · obtain ⟨hleast, hlt, hwalk⟩ := hsome hr
        exact ⟨hleast, by omega, hwalk⟩
      · have := hnone hr n hn
        omega

/-! ## The two searches -/

/-- For every graph, every node and every set of targets: `isReachable` ends and tells whether there is
a path to a target; `findShortestPath` returns the number of nodes of a shortest walk to a target if it
fits into the buffer, where the nodes of such a walk then are, and zero otherwise. -/
theorem bvGraph_search (v : Graph) (size : ℕ) (hv : ∀ a, v a ⊆ Finset.range size) (start : ℕ)
    (targets : Finset ℕ) (path : ℕ → ℕ) (pathSize : ℕ) :
    (∃ res, v.isReachable size start targets = some res ∧
      (res = true ↔ ∃ a ∈ targets, v.Path start a)) ∧
    (∀ k, IsLeast (v.walkLengths targets start) k →
      (v.findShortestPath size start targets path pathSize).1 = if k ≤ pathSize then k else 0) ∧
    ((¬ ∃ a ∈ targets, v.Path start a) → (v.findShortestPath size start targets path pathSize).1 = 0) ∧
    ((v.findShortestPath size start targets path pathSize).1 ≠ 0 →
      v.Walk targets start (readPath (v.findShortestPath size start targets path pathSize).2 0
        (v.findShortestPath size start targets path pathSize).1)) := by
  have hmin : ∀ n ∈ v.walkLengths targets start, 1 ≤ n := by
    rintro n ⟨l, hl, rfl⟩
    exact hl.length_pos
  obtain ⟨hsome, hnone⟩ := Graph.findShortestFrom_spec hv pathSize Nat.one_pos hmin path
  rw [← Graph.findShortestPath] at hsome hnone
  refine ⟨Graph.isReachable_eq hv targets, fun k hk => ?_, fun hno => ?_, fun hr => (hsome hr).2.2⟩
  · rcases Nat.eq_zero_or_pos (v.findShortestPath size start targets path pathSize).1 with hzero | hpos
    · have hlt := hnone hzero k hk.1
      rw [if_neg (by omega), hzero]
    · obtain ⟨hleast, hlt, -⟩ := hsome hpos.ne'
      rw [hleast.unique hk] at hlt ⊢
      rw [if_pos (by omega)]
  · by_contra hr
    obtain ⟨a, ha, hpath⟩ := (hsome hr).2.2.exists_path
    exact hno ⟨a, ha, hpath⟩

/-- A cycle of two nodes with an edge out of it: the shortest walk has three nodes. -/
theorem bvGraph_search_cycle :
    let v : Graph := fun a => if a = 0 then {1} else if a = 1 then {0, 2} else ∅
    (v.findShortestPath 3 0 {2} (fun _ => 0) 5).1 = 3 ∧
      v.Walk {2} 0 (readPath (v.findShortestPath 3 0 {2} (fun _ => 0) 5).2 0
        (v.findShortestPath 3 0 {2} (fun _ => 0) 5).1) := by
  intro v
  have hv : ∀ a, v a ⊆ Finset.range 3 := by
    intro a
    dsimp only [v]
    split_ifs <;> decide
  have hthree : (v.findShortestPath 3 0 {2} (fun _ => 0) 5).1 = 3 := by decide +kernel
  exact ⟨hthree, (bvGraph_search v 3 hv 0 {2} (fun _ => 0) 5).2.2.2 (by rw [hthree]; decide)⟩

end Tasan.Deadlock
