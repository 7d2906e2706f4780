import Tasan.StackDepot.Model

/-!
# The depot over a flat table of nodes

`Depot` forgets how the nodes are stored and how a lock is encoded in a bucket word: a head and a lock
for each bucket, a table of nodes, and for each thread the phase of its `Put`. Its steps are the accesses
of `Put` that are left (`Depot.Step`). `Depot.Inv` says that the nodes of a bucket form a chain with
decreasing ids and different hashes, which grows at its head only under the lock, so that a search without
the lock has seen everything below the head that it started from. `Depot.Inv.step` keeps it.
-/

namespace Tasan.StackDepot

variable {T Args : Type}

/-- The next access of a `Put`. -/
inductive Phase (Args : Type)
  /-- No `Put`. -/
  | idle
  /-- The load of the bucket. -/
  | load (args : Args)
  /-- A search from the head `s` that compares the node `cur` next. -/
  | find (args : Args) (locked : Bool) (s cur : ℕ)
  /-- A search that follows the link of `cur` next. -/
  | link (args : Args) (locked : Bool) (s cur : ℕ)
  /-- A wait for the lock, after a search from `s`. -/
  | locking (args : Args) (s : ℕ)
  /-- The new id. -/
  | fetchAdd (args : Args) (s2 : ℕ)
  /-- The store of the node. -/
  | store (args : Args) (s2 s : ℕ)
  /-- The store of its link. -/
  | writeLink (args : Args) (s2 s : ℕ)
  /-- The end. -/
  | unlock (args : Args) (word id : ℕ) (inserted : Bool)

namespace Phase

/-- The argument of a `Put` that holds the lock of its bucket. -/
def holds : Phase Args → Option Args
  | find args locked _ _ => if locked then some args else none
  | link args locked _ _ => if locked then some args else none
  | fetchAdd args _ => some args
  | store args _ _ => some args
  | writeLink args _ _ => some args
  | unlock args _ _ _ => some args
  | _ => none

/-- The id that a `Put` has drawn and not yet published. -/
def owned : Phase Args → Option ℕ
  | store _ _ s => some s
  | writeLink _ _ s => some s
  | unlock _ _ id inserted => if inserted then some id else none
  | _ => none

end Phase

/-- The loop of `find` at `cur`, and what follows when it ends without a node. -/
def findPhase (args : Args) (locked : Bool) (s cur : ℕ) : Phase Args :=
  if cur = 0 then (if locked then .fetchAdd args s else .locking args s)
  else .find args locked s cur

@[simp] theorem holds_findPhase (args : Args) (locked : Bool) (s cur : ℕ) :
    (findPhase args locked s cur).holds = if locked then some args else none := by
  unfold findPhase
  split_ifs <;> simp_all [Phase.holds]

@[simp] theorem owned_findPhase (args : Args) (locked : Bool) (s cur : ℕ) :
    (findPhase args locked s cur).owned = none := by
  unfold findPhase
  split_ifs <;> rfl

/-- The depot over a flat table. -/
structure Depot (T Args : Type) where
  /-- The first node of a bucket. -/
  head : ℕ → ℕ
  /-- Whether a bucket is locked. -/
  locked : ℕ → Bool
  /-- The number of ids. -/
  n : ℕ
  /-- The nodes. -/
  nodes : ℕ → Node Args
  /-- The phases. -/
  phases : T → Phase Args
  /-- The calls of `Put` that have returned. -/
  history : List (Completed Args)

namespace Depot

section Step

variable [DecidableEq T]

/-- The thread goes on. -/
def goto (d : Depot T Args) (t : T) (ph : Phase Args) : Depot T Args :=
  { d with phases := Function.update d.phases t ph }

/-- The thread returns. -/
def complete (d : Depot T Args) (t : T) (args : Args) (id : ℕ) (inserted : Bool) : Depot T Args :=
  { d.goto t .idle with history := { args := args, id := id, inserted := inserted } :: d.history }

/-- A node is stored. -/
def setNode (d : Depot T Args) (i : ℕ) (node : Node Args) : Depot T Args :=
  { d with nodes := Function.update d.nodes i node }

/-- One access of the `Put` of a thread. -/
inductive Step (P : Params Args) (t : T) (d : Depot T Args) : Depot T Args → Prop
  /-- An access that is not seen here. -/
  | stutter : Step P t d d
  /-- A `Put` that is not valid. -/
  | invalid {args} (h : d.phases t = .idle) (hv : P.isValid args = false) :
    Step P t d (d.complete t args 0 false)
  /-- A `Put` starts. -/
  | start {args} (h : d.phases t = .idle) (hv : P.isValid args = true) :
    Step P t d (d.goto t (.load args))
  /-- The search without the lock starts. -/
  | load {args} (h : d.phases t = .load args) :
    Step P t d (d.goto t (findPhase args false (d.head (P.bucket args)) (d.head (P.bucket args))))
  /-- The search without the lock ends with a node. -/
  | hit {args s cur} (h : d.phases t = .find args false s cur)
    (heq : P.hash args = (d.nodes cur).hash) : Step P t d (d.complete t args cur false)
  /-- The search under the lock ends with a node. -/
  | hitLocked {args s cur} (h : d.phases t = .find args true s cur)
    (heq : P.hash args = (d.nodes cur).hash) : Step P t d (d.goto t (.unlock args s cur false))
  /-- A node has another hash. -/
  | miss {args locked s cur} (h : d.phases t = .find args locked s cur)
    (hne : P.hash args ≠ (d.nodes cur).hash) : Step P t d (d.goto t (.link args locked s cur))
  /-- The search goes to the next node. -/
  | next {args locked s cur} (h : d.phases t = .link args locked s cur) :
    Step P t d (d.goto t (findPhase args locked s (d.nodes cur).link))
  /-- The bucket is locked, and searched again if its head has moved. -/
  | lock {args s} (h : d.phases t = .locking args s) (hu : d.locked (P.bucket args) = false) :
    Step P t d ({ d with locked := Function.update d.locked (P.bucket args) true }.goto t
      (if d.head (P.bucket args) ≠ s then
        findPhase args true (d.head (P.bucket args)) (d.head (P.bucket args))
      else .fetchAdd args (d.head (P.bucket args))))
  /-- An id is drawn. -/
  | fetchAdd {args s2} (h : d.phases t = .fetchAdd args s2) :
    Step P t d { d.goto t (.store args s2 (d.n + 1)) with n := d.n + 1 }
  /-- The node is stored. -/
  | store {args s2 s} (h : d.phases t = .store args s2 s) :
    Step P t d ((d.setNode s { d.nodes s with hash := P.hash args, args := some args }).goto t
      (.writeLink args s2 s))
  /-- Its link is stored. -/
  | writeLink {args s2 s} (h : d.phases t = .writeLink args s2 s) :
    Step P t d ((d.setNode s { d.nodes s with link := s2 }).goto t (.unlock args s s true))
  /-- The head is stored and the bucket unlocked. -/
  | unlock {args word id inserted} (h : d.phases t = .unlock args word id inserted) :
    Step P t d ({ d with
      head := Function.update d.head (P.bucket args) word
      locked := Function.update d.locked (P.bucket args) false }.complete t args id inserted)

end Step

/-! ## The invariant -/

/-- No node of the chain up to `s` and behind `cur` has the hash. -/
def Passed (P : Params Args) (nodes : ℕ → Node Args) (chain : List ℕ) (args : Args) (s cur : ℕ) :
    Prop :=
  ∀ i ∈ chain, cur < i → i ≤ s → (nodes i).hash ≠ P.hash args

/-- No node of the chain has the hash. -/
def Absent (P : Params Args) (nodes : ℕ → Node Args) (chain : List ℕ) (args : Args) : Prop :=
  ∀ i ∈ chain, (nodes i).hash ≠ P.hash args

/-- An id that has been drawn after those of its chain, and is in no chain. -/
def Fresh (n : ℕ) (chains : ℕ → List ℕ) (b id : ℕ) : Prop :=
  (1 ≤ id ∧ id ≤ n) ∧ (∀ b, id ∉ chains b) ∧ ∀ j ∈ chains b, j < id

/-- What is known of a thread by its phase. -/
def PhaseInv (P : Params Args) (nodes : ℕ → Node Args) (n : ℕ) (chains : ℕ → List ℕ) :
    Phase Args → Prop
  | .idle => True
  | .load args => P.isValid args = true
  | .find args locked s cur => P.isValid args = true ∧ cur ∈ chains (P.bucket args) ∧
      cur ≤ s ∧ s ∈ chains (P.bucket args) ∧ Passed P nodes (chains (P.bucket args)) args s cur ∧
      (locked = true → s = (chains (P.bucket args)).headD 0)
  | .link args locked s cur => P.isValid args = true ∧ cur ∈ chains (P.bucket args) ∧
      cur ≤ s ∧ s ∈ chains (P.bucket args) ∧ Passed P nodes (chains (P.bucket args)) args s cur ∧
      (locked = true → s = (chains (P.bucket args)).headD 0) ∧ (nodes cur).hash ≠ P.hash args
  | .locking args s => P.isValid args = true ∧ (s = 0 ∨ s ∈ chains (P.bucket args)) ∧
      Passed P nodes (chains (P.bucket args)) args s 0
  | .fetchAdd args s2 => P.isValid args = true ∧ s2 = (chains (P.bucket args)).headD 0 ∧
      Absent P nodes (chains (P.bucket args)) args
  | .store args s2 s => P.isValid args = true ∧ s2 = (chains (P.bucket args)).headD 0 ∧
      Absent P nodes (chains (P.bucket args)) args ∧ Fresh n chains (P.bucket args) s
  | .writeLink args s2 s => P.isValid args = true ∧ s2 = (chains (P.bucket args)).headD 0 ∧
      Absent P nodes (chains (P.bucket args)) args ∧ Fresh n chains (P.bucket args) s ∧
      (nodes s).hash = P.hash args ∧ (nodes s).args = some args
  | .unlock args word id true => P.isValid args = true ∧ word = id ∧
      Absent P nodes (chains (P.bucket args)) args ∧ Fresh n chains (P.bucket args) id ∧
      nodes id = { hash := P.hash args, args := some args, link := (chains (P.bucket args)).headD 0 }
  | .unlock args word id false => P.isValid args = true ∧ word = (chains (P.bucket args)).headD 0 ∧
      id ∈ chains (P.bucket args) ∧ (nodes id).hash = P.hash args

/-- The chains of the buckets, and what the threads and the history know of them. -/
structure Inv (P : Params Args) (d : Depot T Args) (chains : ℕ → List ℕ) : Prop where
  /-- A bucket starts with the first node of its chain. -/
  head : ∀ b, d.head b = (chains b).headD 0
  /-- The nodes of the chains have ids. -/
  ids : ∀ b, ∀ i ∈ chains b, 1 ≤ i ∧ i ≤ d.n
  /-- The ids of a chain decrease. -/
  sorted : ∀ b, (chains b).Pairwise (· > ·)
  /-- A node links to the next one. -/
  links : ∀ b l₁ i l₂, chains b = l₁ ++ i :: l₂ → (d.nodes i).link = l₂.headD 0
  /-- A node holds a stack of its bucket. -/
  node : ∀ b, ∀ i ∈ chains b, ∃ args, (d.nodes i).hash = P.hash args ∧ (d.nodes i).args = some args ∧
    P.bucket args = b ∧ P.isValid args = true
  /-- The hashes of a chain are different. -/
  inj : ∀ b, ∀ i ∈ chains b, ∀ j ∈ chains b, (d.nodes i).hash = (d.nodes j).hash → i = j
  /-- The phases. -/
  phase : ∀ t, PhaseInv P d.nodes d.n chains (d.phases t)
  /-- A bucket is locked while a thread holds its lock. -/
  locked : ∀ b, d.locked b = true ↔ ∃ t args, (d.phases t).holds = some args ∧ P.bucket args = b
  /-- Only one thread holds a lock. -/
  exclusive : ∀ t t' args args', (d.phases t).holds = some args → (d.phases t').holds = some args' →
    P.bucket args = P.bucket args' → t = t'
  /-- Only one thread owns an id. -/
  owner : ∀ t t' i, (d.phases t).owned = some i → (d.phases t').owned = some i → t = t'
  /-- Each id is in a chain or owned. -/
  cover : ∀ i, 1 ≤ i → i ≤ d.n → (∃ b, i ∈ chains b) ∨ ∃ t, (d.phases t).owned = some i
  /-- A valid `Put` has returned a node of its bucket with its hash. -/
  returned : ∀ c ∈ d.history, P.isValid c.args = true →
    c.id ∈ chains (P.bucket c.args) ∧ (d.nodes c.id).hash = P.hash c.args
  /-- A `Put` that is not valid has returned 0. -/
  invalid : ∀ c ∈ d.history, P.isValid c.args = false → c.id = 0 ∧ c.inserted = false
  /-- A node has been inserted once. -/
  inserted : ∀ b, ∀ i ∈ chains b, d.history.countP (fun c => c.inserted && c.id == i) = 1

/-! ## What a chain says -/

section Chain

variable {P : Params Args} {d : Depot T Args} {chains : ℕ → List ℕ}

theorem Inv.le_head (h : Inv P d chains) {b i : ℕ} (hi : i ∈ chains b) : i ≤ (chains b).headD 0 := by
  have hsorted := h.sorted b
  cases hc : chains b with
  | nil =>
    rw [hc] at hi
    cases hi
  | cons x l =>
    rw [hc] at hi hsorted
    rcases List.mem_cons.mp hi with rfl | hi
    · exact le_rfl
    · exact (List.rel_of_pairwise_cons hsorted hi).le

theorem headD_mem (l : List ℕ) : l.headD 0 = 0 ∨ l.headD 0 ∈ l := by
  cases l with
  | nil => exact Or.inl rfl
  | cons x l => exact Or.inr List.mem_cons_self

/-- A link leads to the next smaller id of the chain, or to 0. -/
theorem Inv.link (h : Inv P d chains) {b cur : ℕ} (hcur : cur ∈ chains b) :
    ((d.nodes cur).link = 0 ∨ (d.nodes cur).link ∈ chains b) ∧ (d.nodes cur).link < cur ∧
      ∀ i ∈ chains b, (d.nodes cur).link < i → cur ≤ i := by
  obtain ⟨l₁, l₂, hsplit⟩ := List.append_of_mem hcur
  have hsorted := h.sorted b
  rw [hsplit, List.pairwise_append, List.pairwise_cons] at hsorted
  obtain ⟨-, ⟨hsmaller, hrest⟩, hfront⟩ := hsorted
  rw [h.links b l₁ cur l₂ hsplit, hsplit]
  refine ⟨(headD_mem l₂).imp id fun hmem => List.mem_append_right _ (List.mem_cons_of_mem _ hmem),
    ?_, fun i hi hlt => ?_⟩
  · rcases headD_mem l₂ with hzero | hmem
    · rw [hzero]
      exact (h.ids b cur hcur).1
    · exact hsmaller _ hmem
  · rcases List.mem_append.mp hi with hi | hi
    · exact (hfront i hi cur List.mem_cons_self).le
    · rcases List.mem_cons.mp hi with rfl | hi
      · exact le_rfl
      · cases l₂ with
        | nil => cases hi
        | cons x l₂ =>
          rcases List.mem_cons.mp hi with rfl | hi
          · exact absurd hlt (lt_irrefl _)
          · exact absurd hlt (List.rel_of_pairwise_cons hrest hi).not_gt

theorem Inv.findPhase (h : Inv P d chains) {args : Args} {locked : Bool} {s cur : ℕ}
    (hv : P.isValid args = true) (hcur : cur = 0 ∨ cur ∈ chains (P.bucket args))
    (hs : s = 0 ∨ s ∈ chains (P.bucket args)) (hle : cur ≤ s)
    (hpassed : Passed P d.nodes (chains (P.bucket args)) args s cur)
    (hlocked : locked = true → s = (chains (P.bucket args)).headD 0) :
    PhaseInv P d.nodes d.n chains (findPhase args locked s cur) := by
  unfold StackDepot.findPhase
  by_cases hzero : cur = 0
  · subst hzero
    cases locked with
    | false => exact ⟨hv, hs, hpassed⟩
    | true =>
      -- Everything in the chain is at most its head, which is where the search started.
      refine ⟨hv, hlocked rfl, fun i hi => hpassed i hi (h.ids _ i hi).1 ?_⟩
      exact (h.le_head hi).trans (hlocked rfl).ge
  · rw [if_neg hzero]
    have hcur := hcur.resolve_left hzero
    exact ⟨hv, hcur, hle, hs.resolve_left (by omega), hpassed, hlocked⟩

theorem Absent.update {nodes : ℕ → Node Args} {n b s : ℕ} {args : Args} {node : Node Args}
    (h : Absent P nodes (chains b) args) (hs : Fresh n chains b s) :
    Absent P (Function.update nodes s node) (chains b) args := by
  intro i hi
  have his : i ≠ s := by
    rintro rfl
    exact hs.2.1 b hi
  rw [Function.update_of_ne his]
  exact h i hi

theorem PhaseInv.mono {nodes : ℕ → Node Args} {n n' : ℕ} (hn : n ≤ n') :
    ∀ {ph : Phase Args}, PhaseInv P nodes n chains ph → PhaseInv P nodes n' chains ph
  | .idle, h => h
  | .load _, h => h
  | .find _ _ _ _, h => h
  | .link _ _ _ _, h => h
  | .locking _ _, h => h
  | .fetchAdd _ _, h => h
  | .store _ _ _, ⟨hv, hs, ha, ⟨h1, hle⟩, hf⟩ => ⟨hv, hs, ha, ⟨h1, hle.trans hn⟩, hf⟩
  | .writeLink _ _ _, ⟨hv, hs, ha, ⟨⟨h1, hle⟩, hf⟩, hw⟩ => ⟨hv, hs, ha, ⟨⟨h1, hle.trans hn⟩, hf⟩, hw⟩
  | .unlock _ _ _ true, ⟨hv, hs, ha, ⟨⟨h1, hle⟩, hf⟩, hw⟩ =>
    ⟨hv, hs, ha, ⟨⟨h1, hle.trans hn⟩, hf⟩, hw⟩
  | .unlock _ _ _ false, h => h

/-- A phase after nodes have been stored that are in no chain and not owned. -/
theorem PhaseInv.nodes {nodes nodes' : ℕ → Node Args} {n : ℕ}
    (hchain : ∀ b, ∀ i ∈ chains b, nodes' i = nodes i) :
    ∀ {ph : Phase Args}, (∀ i, ph.owned = some i → nodes' i = nodes i) →
      PhaseInv P nodes n chains ph → PhaseInv P nodes' n chains ph := by
  have hpassed : ∀ {b args s cur}, Passed P nodes (chains b) args s cur →
      Passed P nodes' (chains b) args s cur :=
    fun h i hi hlt hle => by rw [hchain _ i hi]; exact h i hi hlt hle
  have habsent : ∀ {b args}, Absent P nodes (chains b) args → Absent P nodes' (chains b) args :=
    fun h i hi => by rw [hchain _ i hi]; exact h i hi
  intro ph howned h
  cases ph with
  | idle => exact h
  | load => exact h
  | find => exact ⟨h.1, h.2.1, h.2.2.1, h.2.2.2.1, hpassed h.2.2.2.2.1, h.2.2.2.2.2⟩
  | link args locked s cur =>
    obtain ⟨hv, hcur, hle, hs, hp, hl, hne⟩ := h
    refine ⟨hv, hcur, hle, hs, hpassed hp, hl, ?_⟩
    rw [hchain _ cur hcur]
    exact hne
  | locking => exact ⟨h.1, h.2.1, hpassed h.2.2⟩
  | fetchAdd => exact ⟨h.1, h.2.1, habsent h.2.2⟩
  | store => exact ⟨h.1, h.2.1, habsent h.2.2.1, h.2.2.2⟩
  | writeLink args s2 s =>
    obtain ⟨hv, hs, ha, hf, hw⟩ := h
    refine ⟨hv, hs, habsent ha, hf, ?_⟩
    rw [howned s rfl]
    exact hw
  | unlock args word id inserted =>
    cases inserted with
    | true =>
      obtain ⟨hv, hs, ha, hf, hw⟩ := h
      exact ⟨hv, hs, habsent ha, hf, (howned id rfl).trans hw⟩
    | false =>
      obtain ⟨hv, hs, hid, hw⟩ := h
      refine ⟨hv, hs, hid, ?_⟩
      rw [hchain _ id hid]
      exact hw

end Chain

/-- A chain grows at its head. -/
def grow (chains : ℕ → List ℕ) (b id : ℕ) : ℕ → List ℕ :=
  Function.update chains b (id :: chains b)

section Grow

variable {P : Params Args} {nodes : ℕ → Node Args} {n : ℕ} {chains : ℕ → List ℕ} {b id : ℕ}

theorem mem_grow {b' i : ℕ} : i ∈ grow chains b id b' ↔ i ∈ chains b' ∨ b' = b ∧ i = id := by
  unfold grow
  by_cases hb : b' = b
  · subst hb
    simp [or_comm]
  · simp [hb]

theorem grow_of_ne {b' : ℕ} (h : b' ≠ b) : grow chains b id b' = chains b' := Function.update_of_ne h ..

/-- A phase after a chain has grown under a lock that the thread does not hold. -/
theorem PhaseInv.grow (hfresh : Fresh n chains b id) :
    ∀ {ph : Phase Args}, (∀ args, ph.holds = some args → P.bucket args ≠ b) → ph.owned ≠ some id →
      PhaseInv P nodes n chains ph → PhaseInv P nodes n (grow chains b id) ph := by
  have hpos := hfresh.1.1
  have hmem : ∀ {b' i}, i ∈ chains b' → i ∈ Depot.grow chains b id b' := fun h => mem_grow.mpr (Or.inl h)
  -- The new node comes before the node from which a search without the lock has started.
  have hpassed : ∀ {b' args s cur}, s = 0 ∨ s ∈ chains b' → Passed P nodes (chains b') args s cur →
      Passed P nodes (Depot.grow chains b id b') args s cur := by
    intro b' args s cur hs h i hi hlt hle
    rcases mem_grow.mp hi with hi | ⟨rfl, rfl⟩
    · exact h i hi hlt hle
    · rcases hs with rfl | hs
      · omega
      · exact absurd hle (hfresh.2.2 s hs).not_ge
  have hfresh' : ∀ {b' id'}, b' ≠ b → id' ≠ id → Fresh n chains b' id' →
      Fresh n (Depot.grow chains b id) b' id' := by
    intro b' id' hb hid h
    rw [Fresh, grow_of_ne hb]
    refine ⟨h.1, fun b'' hi => ?_, h.2.2⟩
    rcases mem_grow.mp hi with hi | ⟨-, hi⟩
    · exact h.2.1 b'' hi
    · exact hid hi
  intro ph hholds howned h
  cases ph with
  | idle => exact h
  | load => exact h
  | find args locked s cur =>
    obtain ⟨hv, hcur, hle, hs, hp, hl⟩ := h
    refine ⟨hv, hmem hcur, hle, hmem hs, hpassed (Or.inr hs) hp, fun hlocked => ?_⟩
    rw [grow_of_ne (hholds args (by simp [Phase.holds, hlocked]))]
    exact hl hlocked
  | link args locked s cur =>
    obtain ⟨hv, hcur, hle, hs, hp, hl, hne⟩ := h
    refine ⟨hv, hmem hcur, hle, hmem hs, hpassed (Or.inr hs) hp, fun hlocked => ?_, hne⟩
    rw [grow_of_ne (hholds args (by simp [Phase.holds, hlocked]))]
    exact hl hlocked
  | locking args s =>
    obtain ⟨hv, hs, hp⟩ := h
    exact ⟨hv, hs.imp_right hmem, hpassed hs hp⟩
  | fetchAdd args s2 =>
    have hb := hholds args rfl
    rw [PhaseInv, grow_of_ne hb]
    exact h
  | store args s2 s =>
    have hb := hholds args rfl
    obtain ⟨hv, hs, ha, hf⟩ := h
    rw [PhaseInv, grow_of_ne hb]
    exact ⟨hv, hs, ha, hfresh' hb (fun hid => howned (congrArg some hid)) hf⟩
  | writeLink args s2 s =>
    have hb := hholds args rfl
    obtain ⟨hv, hs, ha, hf, hw⟩ := h
    rw [PhaseInv, grow_of_ne hb]
    exact ⟨hv, hs, ha, hfresh' hb (fun hid => howned (congrArg some hid)) hf, hw⟩
  | unlock args word id' inserted =>
    have hb := hholds args rfl
    cases inserted with
    | true =>
      obtain ⟨hv, hs, ha, hf, hw⟩ := h
      rw [PhaseInv, grow_of_ne hb]
      exact ⟨hv, hs, ha, hfresh' hb (fun hid => howned (congrArg some hid)) hf, hw⟩
    | false =>
      rw [PhaseInv, grow_of_ne hb]
      exact h

end Grow

/-! ## The steps -/

section Steps

variable [DecidableEq T] {P : Params Args} {d : Depot T Args} {chains : ℕ → List ℕ} {t : T}

theorem forall_update {p : T → Phase Args → Prop} {phases : T → Phase Args} {ph : Phase Args}
    (ht : p t ph) (hother : ∀ t', t' ≠ t → p t' (phases t')) :
    ∀ t', p t' (Function.update phases t ph t') := by
  intro t'
  by_cases h : t' = t
  · rw [h, Function.update_self]
    exact ht
  · rw [Function.update_of_ne h]
    exact hother t' h

theorem update_congr {α : Type} {f : Phase Args → α} (phases : T → Phase Args) {ph : Phase Args}
    (h : f ph = f (phases t)) (t' : T) : f (Function.update phases t ph t') = f (phases t') := by
  by_cases ht : t' = t
  · rw [ht, Function.update_self, h]
  · rw [Function.update_of_ne ht]

/-- A thread goes on with the same lock and the same id, and stores nodes that are in no chain and not
owned by others. -/
theorem Inv.goto_nodes (h : Inv P d chains) {nodes : ℕ → Node Args} {ph : Phase Args}
    (hnodes : ∀ b, ∀ i ∈ chains b, nodes i = d.nodes i)
    (hothers : ∀ t', t' ≠ t → ∀ i, (d.phases t').owned = some i → nodes i = d.nodes i)
    (hph : PhaseInv P nodes d.n chains ph) (hholds : ph.holds = (d.phases t).holds)
    (howned : ph.owned = (d.phases t).owned) :
    Inv P ({ d with nodes := nodes }.goto t ph) chains := by
  have hh := update_congr d.phases hholds
  have ho := update_congr d.phases howned
  exact
    { h with
      links := fun b l₁ i l₂ hsplit => by
        change (nodes i).link = _
        rw [hnodes b i (hsplit ▸ List.mem_append_right _ List.mem_cons_self)]
        exact h.links b l₁ i l₂ hsplit
      node := fun b i hi => by
        change ∃ args, (nodes i).hash = _ ∧ (nodes i).args = _ ∧ _
        rw [hnodes b i hi]
        exact h.node b i hi
      inj := fun b i hi j hj => by
        change (nodes i).hash = (nodes j).hash → _
        rw [hnodes b i hi, hnodes b j hj]
        exact h.inj b i hi j hj
      returned := fun c hc hv => by
        obtain ⟨hid, hhash⟩ := h.returned c hc hv
        exact ⟨hid, by change (nodes c.id).hash = _; rw [hnodes _ _ hid, hhash]⟩
      phase := forall_update hph fun t' ht => (h.phase t').nodes hnodes (hothers t' ht)
      locked := fun b => by
        change d.locked b = true ↔ ∃ t', ∃ args, (Function.update d.phases t ph t').holds = _ ∧ _
        simp only [hh]
        exact h.locked b
      exclusive := fun t₁ t₂ => by
        change ∀ args args', (Function.update d.phases t ph t₁).holds = _ →
          (Function.update d.phases t ph t₂).holds = _ → _
        simp only [hh]
        exact h.exclusive t₁ t₂
      owner := fun t₁ t₂ i => by
        change (Function.update d.phases t ph t₁).owned = _ →
          (Function.update d.phases t ph t₂).owned = _ → _
        simp only [ho]
        exact h.owner t₁ t₂ i
      cover := fun i h₁ h₂ => by
        change _ ∨ ∃ t', (Function.update d.phases t ph t').owned = _
        simp only [ho]
        exact h.cover i h₁ h₂ }

theorem Inv.goto (h : Inv P d chains) (ph : Phase Args) (hph : PhaseInv P d.nodes d.n chains ph)
    (hholds : ph.holds = (d.phases t).holds) (howned : ph.owned = (d.phases t).owned) :
    Inv P (d.goto t ph) chains :=
  h.goto_nodes (fun _ _ _ => rfl) (fun _ _ _ _ => rfl) hph hholds howned

omit [DecidableEq T] in
theorem Inv.addHistory (h : Inv P d chains) {args : Args} {id : ℕ}
    (hvalid : P.isValid args = true →
      id ∈ chains (P.bucket args) ∧ (d.nodes id).hash = P.hash args)
    (hinvalid : P.isValid args = false → id = 0) :
    Inv P { d with history := { args := args, id := id, inserted := false } :: d.history } chains :=
  { h with
    returned := List.forall_mem_cons.mpr ⟨hvalid, h.returned⟩
    invalid := List.forall_mem_cons.mpr ⟨fun hv => ⟨hinvalid hv, rfl⟩, h.invalid⟩
    inserted := fun b i hi => by
      rw [List.countP_cons]
      exact h.inserted b i hi }

/-- A free bucket is locked. -/
theorem Inv.acquire (h : Inv P d chains) {args : Args} {ph : Phase Args}
    (hu : d.locked (P.bucket args) = false) (hph : PhaseInv P d.nodes d.n chains ph)
    (hnone : (d.phases t).holds = none) (hholds : ph.holds = some args)
    (howned : ph.owned = (d.phases t).owned) :
    Inv P ({ d with locked := Function.update d.locked (P.bucket args) true }.goto t ph) chains := by
  have ho := update_congr d.phases howned
  -- No thread holds the lock so far.
  have hfree : ∀ t' args', (d.phases t').holds = some args' → P.bucket args' ≠ P.bucket args := by
    intro t' args' hh hb
    have hlocked := (h.locked (P.bucket args)).mpr ⟨t', args', hh, hb⟩
    rw [hu] at hlocked
    cases hlocked
  have hholder : ∀ t' args', (Function.update d.phases t ph t').holds = some args' →
      t' = t ∧ args' = args ∨ t' ≠ t ∧ (d.phases t').holds = some args' := by
    intro t' args' hh
    by_cases ht : t' = t
    · rw [ht, Function.update_self, hholds] at hh
      exact Or.inl ⟨ht, (Option.some.inj hh).symm⟩
    · rw [Function.update_of_ne ht] at hh
      exact Or.inr ⟨ht, hh⟩
  exact
    { h with
      phase := forall_update hph fun t' _ => h.phase t'
      locked := fun b => by
        change Function.update d.locked (P.bucket args) true b = true ↔
          ∃ t', ∃ args', (Function.update d.phases t ph t').holds = some args' ∧ P.bucket args' = b
        by_cases hb : b = P.bucket args
        · subst hb
          rw [Function.update_self]
          exact iff_of_true rfl ⟨t, args, by rw [Function.update_self, hholds], rfl⟩
        · rw [Function.update_of_ne hb, h.locked b]
          constructor
          · rintro ⟨t', args', hh, rfl⟩
            have ht : t' ≠ t := by
              rintro rfl
              rw [hnone] at hh
              cases hh
            exact ⟨t', args', by rw [Function.update_of_ne ht, hh], rfl⟩
          · rintro ⟨t', args', hh, rfl⟩
            rcases hholder t' args' hh with ⟨-, rfl⟩ | ⟨-, hh⟩
            · exact absurd rfl hb
            · exact ⟨t', args', hh, rfl⟩
      exclusive := fun t₁ t₂ args₁ args₂ h₁ h₂ hb => by
        rcases hholder t₁ args₁ h₁ with ⟨rfl, rfl⟩ | ⟨-, h₁'⟩ <;>
          rcases hholder t₂ args₂ h₂ with ⟨rfl, rfl⟩ | ⟨-, h₂'⟩
        · rfl
        · exact absurd hb.symm (hfree t₂ args₂ h₂')
        · exact absurd hb (hfree t₁ args₁ h₁')
        · exact h.exclusive t₁ t₂ args₁ args₂ h₁' h₂' hb
      owner := fun t₁ t₂ i => by
        change (Function.update d.phases t ph t₁).owned = _ →
          (Function.update d.phases t ph t₂).owned = _ → _
        simp only [ho]
        exact h.owner t₁ t₂ i
      cover := fun i h₁ h₂ => by
        change _ ∨ ∃ t', (Function.update d.phases t ph t').owned = _
        simp only [ho]
        exact h.cover i h₁ h₂ }

/-- Locks after the release of a bucket. -/
theorem Inv.locked_release (h : Inv P d chains) {args : Args} (hholds : (d.phases t).holds = some args)
    (b : ℕ) :
    Function.update d.locked (P.bucket args) false b = true ↔
      ∃ t' args', (Function.update d.phases t .idle t').holds = some args' ∧ P.bucket args' = b := by
  by_cases hb : b = P.bucket args
  · subst hb
    rw [Function.update_self]
    refine iff_of_false nofun ?_
    rintro ⟨t', args', hh, hb⟩
    by_cases ht : t' = t
    · rw [ht, Function.update_self] at hh
      cases hh
    · rw [Function.update_of_ne ht] at hh
      exact ht (h.exclusive t' t args' args hh hholds hb)
  · rw [Function.update_of_ne hb, h.locked b]
    constructor
    · rintro ⟨t', args', hh, rfl⟩
      have ht : t' ≠ t := by
        rintro rfl
        obtain rfl := Option.some.inj (hholds.symm.trans hh)
        exact hb rfl
      exact ⟨t', args', by rw [Function.update_of_ne ht, hh], rfl⟩
    · rintro ⟨t', args', hh, rfl⟩
      have ht : t' ≠ t := by
        rintro rfl
        rw [Function.update_self] at hh
        cases hh
      rw [Function.update_of_ne ht] at hh
      exact ⟨t', args', hh, rfl⟩

theorem update_idle_eq_some {α : Type} {f : Phase Args → Option α} (hf : f .idle = none)
    {phases : T → Phase Args} {t' : T} {x : α} (h : f (Function.update phases t .idle t') = some x) :
    t' ≠ t ∧ f (phases t') = some x := by
  by_cases ht : t' = t
  · rw [ht, Function.update_self, hf] at h
    cases h
  · rw [Function.update_of_ne ht] at h
    exact ⟨ht, h⟩

/-- A bucket is unlocked with its head unchanged. -/
theorem Inv.release (h : Inv P d chains) (args : Args) (hholds : (d.phases t).holds = some args)
    (howned : (d.phases t).owned = none) :
    Inv P ({ d with
      head := Function.update d.head (P.bucket args) ((chains (P.bucket args)).headD 0)
      locked := Function.update d.locked (P.bucket args) false }.goto t .idle) chains :=
  { h with
    head := fun b => by
      by_cases hb : b = P.bucket args
      · subst hb
        exact Function.update_self ..
      · exact (Function.update_of_ne hb ..).trans (h.head b)
    phase := forall_update trivial fun t' _ => h.phase t'
    locked := h.locked_release hholds
    exclusive := fun t₁ t₂ args₁ args₂ h₁ h₂ hb =>
      h.exclusive t₁ t₂ args₁ args₂ (update_idle_eq_some rfl h₁).2 (update_idle_eq_some rfl h₂).2 hb
    owner := fun t₁ t₂ i h₁ h₂ =>
      h.owner t₁ t₂ i (update_idle_eq_some rfl h₁).2 (update_idle_eq_some rfl h₂).2
    cover := fun i h₁ h₂ => (h.cover i h₁ h₂).imp_right fun ⟨t', ht'⟩ => by
      have ht : t' ≠ t := by
        rintro rfl
        rw [howned] at ht'
        cases ht'
      exact ⟨t', (congrArg Phase.owned (Function.update_of_ne ht ..)).trans ht'⟩ }

omit [DecidableEq T] in
/-- An id that a thread owns. -/
theorem Inv.owned (h : Inv P d chains) {i : ℕ} (ho : (d.phases t).owned = some i) :
    ∃ args, (d.phases t).holds = some args ∧ Fresh d.n chains (P.bucket args) i := by
  have hinv := h.phase t
  cases hph : d.phases t with
  | store args s2 s =>
    rw [hph] at ho hinv
    obtain rfl := Option.some.inj ho
    exact ⟨args, rfl, hinv.2.2.2⟩
  | writeLink args s2 s =>
    rw [hph] at ho hinv
    obtain rfl := Option.some.inj ho
    exact ⟨args, rfl, hinv.2.2.2.1⟩
  | unlock args word id inserted =>
    rw [hph] at ho hinv
    cases inserted with
    | true =>
      obtain rfl := Option.some.inj ho
      exact ⟨args, rfl, hinv.2.2.2.1⟩
    | false => cases ho
  | _ =>
    rw [hph] at ho
    cases ho

/-- An id is drawn. -/
theorem Inv.draw (h : Inv P d chains) {args : Args} {s2 : ℕ} (hphase : d.phases t = .fetchAdd args s2) :
    Inv P { d.goto t (.store args s2 (d.n + 1)) with n := d.n + 1 } chains := by
  have hinv := h.phase t
  rw [hphase] at hinv
  obtain ⟨hv, hs2, habsent⟩ := hinv
  have hfresh : Fresh (d.n + 1) chains (P.bucket args) (d.n + 1) :=
    ⟨⟨Nat.succ_pos _, le_rfl⟩, fun b hi => absurd (h.ids b _ hi).2 (by omega),
      fun j hj => Nat.lt_succ_of_le (h.ids _ j hj).2⟩
  have hholds : (Phase.store args s2 (d.n + 1)).holds = (d.phases t).holds := by
    rw [hphase]
    rfl
  have hh := update_congr d.phases hholds
  -- The new id is owned by this thread only.
  have howned : ∀ t' i, (Function.update d.phases t (.store args s2 (d.n + 1)) t').owned = some i →
      t' = t ∧ i = d.n + 1 ∨ i ≤ d.n ∧ (d.phases t').owned = some i := by
    intro t' i hi
    by_cases ht : t' = t
    · rw [ht, Function.update_self] at hi
      exact Or.inl ⟨ht, (Option.some.inj hi).symm⟩
    · rw [Function.update_of_ne ht] at hi
      obtain ⟨_, -, hf⟩ := h.owned hi
      exact Or.inr ⟨hf.1.2, hi⟩
  exact
    { h with
      ids := fun b i hi => ⟨(h.ids b i hi).1, (h.ids b i hi).2.trans (Nat.le_succ _)⟩
      phase := forall_update ⟨hv, hs2, habsent, hfresh⟩ fun t' _ => (h.phase t').mono (Nat.le_succ _)
      locked := fun b => by
        change d.locked b = true ↔ ∃ t', ∃ args', (Function.update d.phases t _ t').holds = _ ∧ _
        simp only [hh]
        exact h.locked b
      exclusive := fun t₁ t₂ => by
        change ∀ args₁ args₂, (Function.update d.phases t _ t₁).holds = _ →
          (Function.update d.phases t _ t₂).holds = _ → _
        simp only [hh]
        exact h.exclusive t₁ t₂
      owner := fun t₁ t₂ i h₁ h₂ => by
        rcases howned t₁ i h₁ with ⟨rfl, rfl⟩ | ⟨hle, h₁'⟩ <;>
          rcases howned t₂ _ h₂ with ⟨rfl, hi⟩ | ⟨hle', h₂'⟩
        · rfl
        · omega
        · omega
        · exact h.owner t₁ t₂ i h₁' h₂'
      cover := fun i h₁ h₂ => by
        rcases Nat.lt_or_ge d.n i with hlt | hle
        · obtain rfl : i = d.n + 1 := le_antisymm h₂ hlt
          refine Or.inr ⟨t, ?_⟩
          change (Function.update d.phases t _ t).owned = _
          rw [Function.update_self]
          rfl
        · refine (h.cover i h₁ hle).imp_right fun ⟨t', ht'⟩ => ⟨t', ?_⟩
          have ht : t' ≠ t := by
            rintro rfl
            rw [hphase] at ht'
            cases ht'
          exact (congrArg Phase.owned (Function.update_of_ne ht ..)).trans ht' }

theorem Inv.setNode (h : Inv P d chains) {s : ℕ} {node : Node Args} (ph : Phase Args)
    (hown : (d.phases t).owned = some s)
    (hph : PhaseInv P (Function.update d.nodes s node) d.n chains ph)
    (hholds : ph.holds = (d.phases t).holds) (howned : ph.owned = (d.phases t).owned) :
    Inv P ((d.setNode s node).goto t ph) chains := by
  obtain ⟨args, -, hfresh⟩ := h.owned hown
  refine h.goto_nodes (fun b i hi => ?_) (fun t' ht i hi => ?_) hph hholds howned
  · have his : i ≠ s := by
      rintro rfl
      exact hfresh.2.1 b hi
    exact Function.update_of_ne his ..
  · have his : i ≠ s := by
      rintro rfl
      exact ht (h.owner t' t i hi hown)
    exact Function.update_of_ne his ..

omit [DecidableEq T] in
theorem Inv.countP_fresh (h : Inv P d chains) {id : ℕ} (hid : ∀ b, id ∉ chains b) :
    d.history.countP (fun c => c.inserted && c.id == id) = 0 := by
  rw [List.countP_eq_zero]
  intro c hc hins
  rw [Bool.and_eq_true, beq_iff_eq] at hins
  obtain ⟨hins, rfl⟩ := hins
  cases hv : P.isValid c.args with
  | true => exact hid _ (h.returned c hc hv).1
  | false =>
    rw [(h.invalid c hc hv).2] at hins
    cases hins

/-- A node is published. -/
theorem Inv.publish (h : Inv P d chains) {args : Args} {word id : ℕ}
    (hphase : d.phases t = .unlock args word id true) :
    Inv P ({ d with
      head := Function.update d.head (P.bucket args) word
      locked := Function.update d.locked (P.bucket args) false }.complete t args id true)
      (grow chains (P.bucket args) id) := by
  have hinv := h.phase t
  rw [hphase] at hinv
  obtain ⟨hv, rfl, habsent, hfresh, hnode⟩ := hinv
  have hholds : (d.phases t).holds = some args := by rw [hphase]; rfl
  have hown : (d.phases t).owned = some word := by rw [hphase]; rfl
  have hself : grow chains (P.bucket args) word (P.bucket args) = word :: chains (P.bucket args) :=
    Function.update_self ..
  exact
    { head := fun b => by
        change Function.update d.head (P.bucket args) word b = _
        by_cases hb : b = P.bucket args
        · rw [hb, Function.update_self, hself]
          rfl
        · rw [Function.update_of_ne hb, grow_of_ne hb]
          exact h.head b
      ids := fun b i hi => by
        rcases mem_grow.mp hi with hi | ⟨-, rfl⟩
        · exact h.ids b i hi
        · exact hfresh.1
      sorted := fun b => by
        by_cases hb : b = P.bucket args
        · rw [hb, hself]
          exact List.pairwise_cons.mpr ⟨hfresh.2.2, h.sorted _⟩
        · rw [grow_of_ne hb]
          exact h.sorted b
      links := fun b l₁ i l₂ hsplit => by
        change (d.nodes i).link = _
        by_cases hb : b = P.bucket args
        · rw [hb, hself] at hsplit
          cases l₁ with
          | nil =>
            obtain ⟨rfl, rfl⟩ := List.cons.inj hsplit
            rw [hnode]
          | cons x l₁ => exact h.links _ l₁ i l₂ (List.cons.inj hsplit).2
        · rw [grow_of_ne hb] at hsplit
          exact h.links b l₁ i l₂ hsplit
      node := fun b i hi => by
        rcases mem_grow.mp hi with hi | ⟨rfl, rfl⟩
        · exact h.node b i hi
        · exact ⟨args, congrArg Node.hash hnode, congrArg Node.args hnode, rfl, hv⟩
      inj := fun b i hi j hj heq => by
        have hhash : (d.nodes word).hash = P.hash args := congrArg Node.hash hnode
        rcases mem_grow.mp hi with hi' | ⟨rfl, rfl⟩ <;> rcases mem_grow.mp hj with hj' | ⟨hb, rfl⟩
        · exact h.inj b i hi' j hj' heq
        · subst hb
          exact absurd (heq.trans hhash) (habsent i hi')
        · exact absurd (heq.symm.trans hhash) (habsent j hj')
        · rfl
      phase := forall_update trivial fun t' ht => by
        refine (h.phase t').grow hfresh (fun args' hh hb => ht ?_) fun ho => ht ?_
        · exact h.exclusive t' t args' args hh hholds hb
        · exact h.owner t' t word ho hown
      locked := h.locked_release hholds
      exclusive := fun t₁ t₂ args₁ args₂ h₁ h₂ hb =>
        h.exclusive t₁ t₂ args₁ args₂ (update_idle_eq_some rfl h₁).2 (update_idle_eq_some rfl h₂).2 hb
      owner := fun t₁ t₂ i h₁ h₂ =>
        h.owner t₁ t₂ i (update_idle_eq_some rfl h₁).2 (update_idle_eq_some rfl h₂).2
      cover := fun i h₁ h₂ => by
        rcases h.cover i h₁ h₂ with ⟨b, hi⟩ | ⟨t', ht'⟩
        · exact Or.inl ⟨b, mem_grow.mpr (Or.inl hi)⟩
        · by_cases ht : t' = t
          · subst ht
            obtain rfl := Option.some.inj (hown.symm.trans ht')
            exact Or.inl ⟨P.bucket args, mem_grow.mpr (Or.inr ⟨rfl, rfl⟩)⟩
          · exact Or.inr ⟨t', (congrArg Phase.owned (Function.update_of_ne ht ..)).trans ht'⟩
      returned := List.forall_mem_cons.mpr
        ⟨fun _ => ⟨mem_grow.mpr (Or.inr ⟨rfl, rfl⟩), congrArg Node.hash hnode⟩, fun c hc hv =>
          ⟨mem_grow.mpr (Or.inl (h.returned c hc hv).1), (h.returned c hc hv).2⟩⟩
      invalid := List.forall_mem_cons.mpr ⟨fun hv' => absurd (hv.symm.trans hv') nofun, h.invalid⟩
      inserted := fun b i hi => by
        change List.countP _ (_ :: d.history) = 1
        rw [List.countP_cons]
        rcases mem_grow.mp hi with hi | ⟨-, rfl⟩
        · have hne : word ≠ i := by
            rintro rfl
            exact hfresh.2.1 b hi
          simpa [hne] using h.inserted b i hi
        · rw [h.countP_fresh hfresh.2.1]
          simp }

omit [DecidableEq T] in
theorem Inv.findHead (h : Inv P d chains) {args : Args} (hv : P.isValid args = true) (locked : Bool) :
    PhaseInv P d.nodes d.n chains
      (StackDepot.findPhase args locked (d.head (P.bucket args)) (d.head (P.bucket args))) := by
  have hmem := headD_mem (chains (P.bucket args))
  rw [h.head]
  exact h.findPhase hv hmem hmem le_rfl (fun i _ hlt hle => absurd hle hlt.not_ge) fun _ => rfl

/-- An access keeps the invariant. -/
theorem Inv.step (h : Inv P d chains) {d' : Depot T Args} (hstep : Step P t d d') :
    ∃ chains', Inv P d' chains' := by
  have hinv := h.phase t
  cases hstep with
  | stutter => exact ⟨chains, h⟩
  | @invalid args hph hv =>
    have hgoto := h.goto (t := t) .idle trivial (by rw [hph]) (by rw [hph])
    exact ⟨chains, hgoto.addHistory (fun hv' => absurd (hv.symm.trans hv') nofun) fun _ => rfl⟩
  | @start args hph hv =>
    exact ⟨chains, h.goto (.load args) hv (by rw [hph]; rfl) (by rw [hph]; rfl)⟩
  | @load args hph =>
    rw [hph] at hinv
    exact ⟨chains, h.goto _ (h.findHead hinv false) (by rw [holds_findPhase, hph]; rfl)
      (by rw [owned_findPhase, hph]; rfl)⟩
  | @hit args s cur hph heq =>
    rw [hph] at hinv
    obtain ⟨hv, hcur, -⟩ := hinv
    have hgoto := h.goto (t := t) .idle trivial (by rw [hph]; rfl) (by rw [hph]; rfl)
    exact ⟨chains, hgoto.addHistory (fun _ => ⟨hcur, heq.symm⟩)
      fun hv' => absurd (hv.symm.trans hv') nofun⟩
  | @hitLocked args s cur hph heq =>
    rw [hph] at hinv
    obtain ⟨hv, hcur, -, -, -, hs⟩ := hinv
    exact ⟨chains, h.goto (.unlock args s cur false) ⟨hv, hs rfl, hcur, heq.symm⟩
      (by rw [hph]; rfl) (by rw [hph]; rfl)⟩
  | @miss args locked s cur hph hne =>
    rw [hph] at hinv
    obtain ⟨hv, hcur, hle, hs, hpassed, hlocked⟩ := hinv
    exact ⟨chains, h.goto (.link args locked s cur)
      ⟨hv, hcur, hle, hs, hpassed, hlocked, hne.symm⟩ (by rw [hph]; rfl) (by rw [hph]; rfl)⟩
  | @next args locked s cur hph =>
    rw [hph] at hinv
    obtain ⟨hv, hcur, hle, hs, hpassed, hlocked, hne⟩ := hinv
    obtain ⟨hnext, hlt, hskip⟩ := h.link hcur
    refine ⟨chains, h.goto _ (h.findPhase hv hnext (Or.inr hs) (hlt.le.trans hle) ?_ hlocked)
      (by rw [holds_findPhase, hph]; rfl) (by rw [owned_findPhase, hph]; rfl)⟩
    -- Between `cur` and the node that it links to there is no other node.
    intro i hi hgt hles
    rcases (hskip i hi hgt).eq_or_lt with rfl | hlt
    · exact hne
    · exact hpassed i hi hlt hles
  | @lock args s hph hu =>
    rw [hph] at hinv
    obtain ⟨hv, hs, hpassed⟩ := hinv
    refine ⟨chains, h.acquire hu ?_ (by rw [hph]; rfl) ?_ ?_⟩
    · split_ifs with hne
      · exact h.findHead hv true
      · -- The head has not moved, so that the search without the lock has seen the whole chain.
        rw [not_not] at hne
        refine ⟨hv, h.head _, fun i hi => hpassed i hi (h.ids _ i hi).1 ?_⟩
        exact (h.le_head hi).trans (hne ▸ (h.head _).ge)
    · split_ifs
      · exact holds_findPhase ..
      · rfl
    · rw [hph]
      split_ifs
      · exact owned_findPhase ..
      · rfl
  | fetchAdd hph => exact ⟨chains, h.draw hph⟩
  | @store args s2 s hph =>
    rw [hph] at hinv
    obtain ⟨hv, hs2, habsent, hfresh⟩ := hinv
    refine ⟨chains, h.setNode (.writeLink args s2 s) (by rw [hph]; rfl) ?_ (by rw [hph]; rfl)
      (by rw [hph]; rfl)⟩
    refine ⟨hv, hs2, habsent.update hfresh, hfresh, ?_, ?_⟩ <;> rw [Function.update_self]
  | @writeLink args s2 s hph =>
    rw [hph] at hinv
    obtain ⟨hv, rfl, habsent, hfresh, hhash, hargs⟩ := hinv
    refine ⟨chains, h.setNode (.unlock args s s true) (by rw [hph]; rfl) ?_ (by rw [hph]; rfl)
      (by rw [hph]; rfl)⟩
    refine ⟨hv, rfl, habsent.update hfresh, hfresh, ?_⟩
    rw [Function.update_self]
    dsimp only
    rw [hhash, hargs]
  | @unlock args word id inserted hph =>
    cases inserted with
    | true => exact ⟨_, h.publish hph⟩
    | false =>
      rw [hph] at hinv
      obtain ⟨hv, rfl, hid, hhash⟩ := hinv
      have hrelease := h.release (t := t) args (by rw [hph]; rfl) (by rw [hph]; rfl)
      exact ⟨chains, hrelease.addHistory (fun _ => ⟨hid, hhash⟩)
        fun hv' => absurd (hv.symm.trans hv') nofun⟩

end Steps

end Depot

end Tasan.StackDepot
