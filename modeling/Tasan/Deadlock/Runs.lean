import Tasan.Deadlock.Locks

/-!
# Runs of the deadlock detector

One detector and any number of threads. The history records what a run has done in terms of nodes: which
are live, how often each thread holds each of them, and which orders of acquisition have been seen. It
is not read by any step. The invariant `Inv` compares the state with the history.

Three facts about the indices carry the invariant. Only live nodes have outgoing edges, since `removeNode`
drops them. Incoming edges stay until the node is recycled, so an available node has none. A thread of an
old epoch holds nothing in the new one.
-/

namespace Tasan.Deadlock

/-! ## Threads -/

/-- The detector and the locks of each thread. -/
structure State (T : Type) where
  /-- The detector. -/
  det : Detector
  /-- The locks of each thread. -/
  tls : T → TLS

/-- The operations, with the thread and the node. -/
inductive Op (T : Type)
  | newNode
  | removeNode (node : ℕ)
  | onLockBefore (t : T) (node : ℕ)
  | addEdges (t : T) (node : ℕ)
  | onLockAfter (t : T) (node : ℕ)
  | onLock (t : T) (node : ℕ)
  | onTryLock (t : T) (node : ℕ)
  | onFirstLock (t : T) (node : ℕ)
  | onLockFast (t : T) (node : ℕ)
  | onUnlock (t : T) (node : ℕ)

/-- What an operation returns. -/
inductive Res
  | unit
  | node (n : ℕ)
  | bool (b : Bool)
  | count (n : ℕ)
  deriving DecidableEq

section Threads

variable {T : Type} [DecidableEq T] (size : ℕ)

/-- After `clear`. -/
def State.init : State T := ⟨Detector.clear, fun _ => TLS.clear⟩

/-- The state with other locks for a thread. -/
def State.setTls (s : State T) (t : T) (tls : TLS) : State T :=
  { s with tls := Function.update s.tls t tls }

/-- One operation. -/
def State.step (s : State T) : Op T → Option (State T × Res)
  | .newNode => (s.det.newNode size).map fun p => ({ s with det := p.1 }, .node p.2)
  | .removeNode n => (s.det.removeNode size n).map fun d => ({ s with det := d }, .unit)
  | .onLockBefore t n =>
    (s.det.onLockBefore size (s.tls t) n).map fun p => (s.setTls t p.1, .bool p.2)
  | .addEdges t n => (s.det.addEdges size (s.tls t) n).map fun p =>
      ({ s with det := p.1 }.setTls t p.2.1, .count p.2.2)
  | .onLockAfter t n => (s.det.onLockAfter size (s.tls t) n).map fun tls => (s.setTls t tls, .unit)
  | .onLock t n => (s.det.onLock size (s.tls t) n).map fun p =>
      ({ s with det := p.1 }.setTls t p.2.1, .bool p.2.2)
  | .onTryLock t n => (s.det.onTryLock size (s.tls t) n).map fun p => (s.setTls t p.1, .bool p.2)
  | .onFirstLock t n => (onFirstLock size (s.tls t) n).map fun p => (s.setTls t p.1, .bool p.2)
  | .onLockFast t n => (s.det.onLockFast size (s.tls t) n).map fun p => (s.setTls t p.1, .bool p.2)
  | .onUnlock t n => some (s.setTls t (onUnlock size (s.tls t) n), .unit)

/-! ## The history -/

/-- What has happened. -/
structure History (T : Type) where
  /-- The nodes that have been created and not removed. -/
  live : Set ℕ
  /-- The acquisitions of a node by a thread that it has not released. -/
  hold : T → ℕ → ℕ
  /-- Since both nodes were created, a thread has held the first one when it updated the graph for an
  acquisition of the second. -/
  order : ℕ → ℕ → Prop
  /-- No cycle has been closed: see `History.record`. -/
  clean : Prop

/-- Before the first operation. -/
def History.init : History T := ⟨∅, fun _ _ => 0, fun _ _ => False, True⟩

/-- A node is created. -/
def History.create (h : History T) (c : ℕ) : History T :=
  { h with
    live := insert c h.live
    order := fun a b => h.order a b ∧ a ≠ c ∧ b ≠ c }

/-- A node is removed. -/
def History.remove (h : History T) (c : ℕ) : History T := { h with live := h.live \ {c} }

/-- A thread holds a node `k` times. -/
def History.setHold (h : History T) (t : T) (n k : ℕ) : History T :=
  { h with hold := Function.update h.hold t (Function.update (h.hold t) n k) }

/-- A thread acquires a node. -/
def History.acquire (h : History T) (t : T) (n : ℕ) : History T := h.setHold t n (h.hold t n + 1)

/-- A thread releases a node. -/
def History.release (h : History T) (t : T) (n : ℕ) : History T := h.setHold t n (h.hold t n - 1)

/-- The graph is updated for an acquisition, and the run stays clean if `ok`. -/
def History.relate (h : History T) (t : T) (n : ℕ) (ok : Prop) : History T :=
  { h with
    order := fun a b => h.order a b ∨ b = n ∧ 0 < h.hold t a
    clean := h.clean ∧ ok }

/-- The graph has a path from the node to another one of the current epoch that the thread holds. -/
def State.Closes (s : State T) (h : History T) (t : T) (n : ℕ) : Prop :=
  ∃ a, a ≠ n ∧ 0 < h.hold t a ∧ nodeToEpoch size a = s.det.currentEpoch ∧
    s.det.g.Path (nodeToIndexUnchecked size n) (nodeToIndexUnchecked size a)

/-- The history after an operation from the state `s`. The run stays clean if `onLock` returns false
and, where it does not look, since the lock is held already or since the graph is updated on its own,
the new edges close no cycle with another node. -/
def History.record (s : State T) (h : History T) : Op T → Res → History T
  | .newNode, .node c => h.create c
  | .removeNode n, _ => h.remove n
  | .addEdges t n, _ => h.relate t n (¬s.Closes size h t n)
  | .onLockAfter t n, _ => h.acquire t n
  | .onLock t n, .bool res =>
    (h.relate t n (res = false ∧ (0 < h.hold t n → ¬s.Closes size h t n))).acquire t n
  | .onTryLock t n, _ => h.acquire t n
  | .onFirstLock t n, .bool true => h.acquire t n
  | .onLockFast t n, .bool true => h.acquire t n
  | .onUnlock t n, _ => h.release t n
  | _, _ => h

/-- A live node of the current epoch. -/
def State.Current (s : State T) (h : History T) (n : ℕ) : Prop :=
  n ∈ h.live ∧ nodeToEpoch size n = s.det.currentEpoch

/-- The locks of the thread, in the current epoch. -/
def State.current (s : State T) (t : T) : TLS :=
  (s.tls t).ensureCurrentEpoch s.det.currentEpoch

/-- The tables of the thread have room for the lock. -/
def State.Fits (s : State T) (t : T) (n : ℕ) : Prop :=
  (s.current t).Fits (nodeToIndexUnchecked size n)

/-- What a caller may do: locks are live nodes of the current epoch, no thread holds a node that is
removed, a thread releases what it holds, and the tables do not overflow. -/
def State.Legal (s : State T) (h : History T) : Op T → Prop
  | .newNode => True
  | .removeNode n => s.Current size h n ∧ ∀ t, h.hold t n = 0
  | .onLockBefore _ n => s.Current size h n
  | .addEdges _ n => s.Current size h n
  | .onLockAfter t n => s.Current size h n ∧ s.Fits size t n
  | .onLock t n => s.Current size h n ∧ s.Fits size t n
  | .onTryLock t n => s.Current size h n ∧ s.Fits size t n
  | .onFirstLock _ n => s.Current size h n
  | .onLockFast t n =>
    s.Current size h n ∧ (s.det.hasAllEdges size (s.tls t) n = true → s.Fits size t n)
  | .onUnlock t n => 0 < h.hold t n

/-- A run of legal operations: its operations with their results, the last one first, the state that it
reaches and the history. -/
inductive Run : List (Op T × Res) → State T → History T → Prop
  | init : Run [] State.init History.init
  | step {events : List (Op T × Res)} {s s' : State T} {h : History T} {op : Op T} {res : Res} :
      Run events s h → s.Legal size h op → s.step size op = some (s', res) →
      Run ((op, res) :: events) s' (h.record size s op res)

/-- `testOnlyHasEdge`, for nodes of the current epoch. -/
def State.HasEdge (s : State T) (a b : ℕ) : Prop :=
  s.det.g.Edge (nodeToIndexUnchecked size a) (nodeToIndexUnchecked size b)

/-- The lock order between distinct live nodes. -/
def State.LockOrder (s : State T) (h : History T) (a b : ℕ) : Prop :=
  a ≠ b ∧ s.Current size h a ∧ s.Current size h b ∧ s.HasEdge size a b

end Threads

/-! ## The invariant -/

section Invariant

variable {T : Type} {size : ℕ} {s : State T} {h : History T} {t : T} {n : ℕ}

/-- The state agrees with the history. -/
structure Inv (size : ℕ) (s : State T) (h : History T) : Prop where
  epoch_dvd : size ∣ s.det.currentEpoch
  available_lt : ∀ i ∈ s.det.availableNodes, i < size
  recycled_lt : ∀ i ∈ s.det.recycledNodes, i < size
  disjoint : Disjoint s.det.availableNodes s.det.recycledNodes
  start : s.det.currentEpoch = 0 → s.det.availableNodes = ∅ ∧ s.det.recycledNodes = ∅
  live_iff : ∀ i < size, s.det.currentEpoch + i ∈ h.live ↔
    s.det.currentEpoch ≠ 0 ∧ i ∉ s.det.availableNodes ∧ i ∉ s.det.recycledNodes
  live_lt : ∀ n ∈ h.live, n < s.det.currentEpoch + size
  edge : ∀ x y, y ∈ s.det.g x → x < size ∧ y < size ∧ s.det.currentEpoch + x ∈ h.live ∧
    y ∉ s.det.availableNodes
  tls_ok : ∀ t, (s.tls t).Ok size (h.hold t)
  tls_le : ∀ t, (s.tls t).epoch ≤ s.det.currentEpoch
  tls_live : ∀ t, (s.tls t).epoch = s.det.currentEpoch →
    ∀ i ∈ (s.tls t).bv, s.det.currentEpoch + i ∈ h.live
  edge_iff : ∀ i j, i < size → j < size → s.det.currentEpoch + i ∈ h.live →
    s.det.currentEpoch + j ∈ h.live →
    (j ∈ s.det.g i ↔ h.order (s.det.currentEpoch + i) (s.det.currentEpoch + j))
  acyclic : h.clean → Acyclic fun i j => i ≠ j ∧ s.det.g.Edge i j

theorem nodeToEpoch_add (size n : ℕ) : nodeToEpoch size n + nodeToIndexUnchecked size n = n :=
  Nat.div_add_mod' n size

theorem nodeToEpoch_eq {e i : ℕ} (hi : i < size) (he : size ∣ e) :
    nodeToEpoch size (e + i) = e ∧ nodeToIndexUnchecked size (e + i) = i := by
  obtain ⟨k, rfl⟩ := he
  have hindex : nodeToIndexUnchecked size (size * k + i) = i := by
    unfold nodeToIndexUnchecked
    rw [Nat.mul_add_mod, Nat.mod_eq_of_lt hi]
  have hsum := nodeToEpoch_add size (size * k + i)
  exact ⟨by omega, hindex⟩

theorem Inv.init : Inv size (State.init : State T) History.init where
  epoch_dvd := dvd_zero size
  available_lt := by simp [State.init, Detector.clear]
  recycled_lt := by simp [State.init, Detector.clear]
  disjoint := Finset.disjoint_empty_right _
  start := fun _ => ⟨rfl, rfl⟩
  live_iff := by simp [State.init, Detector.clear, History.init]
  live_lt := by simp [History.init]
  edge := by simp [State.init, Detector.clear]
  tls_ok := fun _ => ⟨dvd_zero size, by simp [State.init, TLS.clear], List.nodup_nil,
    by simp [State.init, TLS.clear], by simp [State.init, TLS.clear],
    by simp [State.init, TLS.clear, History.init], fun _ _ => rfl⟩
  tls_le := fun _ => le_refl 0
  tls_live := by simp [State.init, TLS.clear]
  edge_iff := by simp [History.init]
  acyclic := by
    intro _ a hcycle
    obtain ⟨b, ⟨-, hedge⟩, -⟩ := Relation.TransGen.head'_iff.mp hcycle
    exact absurd hedge (Finset.notMem_empty b)

theorem Inv.nodeToIndex (hinv : Inv size s h) (hsize : 0 < size) (hn : s.Current size h n) :
    s.det.nodeToIndex size n = some (nodeToIndexUnchecked size n) ∧
      nodeToIndexUnchecked size n < size ∧ s.det.currentEpoch + nodeToIndexUnchecked size n = n := by
  obtain ⟨hlive, hepoch⟩ := hn
  have hsum : s.det.currentEpoch + nodeToIndexUnchecked size n = n := by
    rw [← hepoch, nodeToEpoch_add]
  have hlt : nodeToIndexUnchecked size n < size := Nat.mod_lt n hsize
  refine ⟨?_, hlt, hsum⟩
  have hne := ((hinv.live_iff _ hlt).mp (hsum.symm ▸ hlive)).1
  have hle := Nat.le_of_dvd (Nat.pos_of_ne_zero hne) hinv.epoch_dvd
  unfold Detector.nodeToIndex
  rw [if_pos ⟨by omega, hepoch.symm⟩]

/-! ## New nodes -/

/-- Recycling, when no node is available. -/
theorem Inv.recycle (hinv : Inv size s h) (hnone : s.det.availableNodes = ∅) :
    Inv size { s with det := s.det.recycle } h where
  epoch_dvd := hinv.epoch_dvd
  available_lt := by
    intro i hi
    rw [Detector.recycle, hnone, Finset.empty_union] at hi
    exact hinv.recycled_lt i hi
  recycled_lt := by simp [Detector.recycle]
  disjoint := Finset.disjoint_empty_right _
  start := fun h0 => ⟨by rw [Detector.recycle, hnone, (hinv.start h0).2, Finset.empty_union], rfl⟩
  live_iff := by
    intro i hi
    simp only [Detector.recycle, Finset.mem_union, not_or, Finset.notMem_empty, not_false_eq_true,
      and_true]
    exact hinv.live_iff i hi
  live_lt := hinv.live_lt
  edge := by
    intro x y hxy
    obtain ⟨hedge, hkept⟩ := Finset.mem_sdiff.mp hxy
    obtain ⟨hx, hy, hlive, havail⟩ := hinv.edge x y hedge
    exact ⟨hx, hy, hlive, fun hy' => (Finset.mem_union.mp hy').elim havail hkept⟩
  tls_ok := hinv.tls_ok
  tls_le := hinv.tls_le
  tls_live := hinv.tls_live
  edge_iff := by
    intro i j hi hj hil hjl
    refine Iff.trans ?_ (hinv.edge_iff i j hi hj hil hjl)
    exact ⟨fun hij => (Finset.mem_sdiff.mp hij).1,
      fun hij => Finset.mem_sdiff.mpr ⟨hij, ((hinv.live_iff j hj).mp hjl).2.2⟩⟩
  acyclic := by
    intro hclean
    apply (hinv.acyclic hclean).mono
    rintro a b ⟨hne, hab⟩
    exact ⟨hne, (Finset.mem_sdiff.mp hab).1⟩

/-- A flush, when there is nothing to recycle either. -/
theorem Inv.flush (hinv : Inv size s h) (hsize : 0 < size) :
    Inv size { s with det := s.det.flush size } h where
  epoch_dvd := (Nat.dvd_add_right hinv.epoch_dvd).mpr (dvd_refl size)
  available_lt := fun i hi => Finset.mem_range.mp hi
  recycled_lt := by simp [Detector.flush]
  disjoint := Finset.disjoint_empty_right _
  start := by
    intro h0
    simp only [Detector.flush] at h0
    omega
  live_iff := by
    intro i hi
    constructor
    · intro hlive
      have := hinv.live_lt _ hlive
      simp only [Detector.flush] at this
      omega
    · rintro ⟨-, hnot, -⟩
      exact absurd (Finset.mem_range.mpr hi) hnot
  live_lt := fun n hn => (hinv.live_lt n hn).trans_le (Nat.le_add_right _ _)
  edge := fun x y hxy => absurd hxy (Finset.notMem_empty y)
  tls_ok := hinv.tls_ok
  tls_le := fun t => (hinv.tls_le t).trans (Nat.le_add_right _ _)
  tls_live := by
    intro t ht
    have := hinv.tls_le t
    simp only [Detector.flush] at ht
    omega
  edge_iff := by
    intro i j _ _ hil _
    have := hinv.live_lt _ hil
    simp only [Detector.flush] at this
    omega
  acyclic := by
    intro _ a hcycle
    obtain ⟨b, ⟨-, hedge⟩, -⟩ := Relation.TransGen.head'_iff.mp hcycle
    exact absurd hedge (Finset.notMem_empty b)

/-- An available node becomes a live one. It has no edges, and no thread holds it. -/
theorem Inv.getAvailableNode (hinv : Inv size s h) (hne : s.det.availableNodes.Nonempty) :
    ∃ d idx, s.det.getAvailableNode size = some (d, s.det.currentEpoch + idx) ∧
      d.currentEpoch = s.det.currentEpoch ∧ idx < size ∧
      (d.g idx = ∅ ∧ ∀ x, idx ∉ d.g x) ∧
      (∀ t, (s.tls t).epoch = d.currentEpoch → idx ∉ (s.tls t).bv) ∧
      Inv size { s with det := d } (h.create (s.det.currentEpoch + idx)) := by
  have hmem := s.det.availableNodes.min'_mem hne
  have hlt := hinv.available_lt _ hmem
  unfold Detector.getAvailableNode Detector.indexToNode
  rw [dif_pos hne]
  dsimp only
  rw [if_pos hlt]
  generalize s.det.availableNodes.min' hne = idx at hmem hlt
  have hdead : s.det.currentEpoch + idx ∉ h.live :=
    fun hlive => ((hinv.live_iff idx hlt).mp hlive).2.1 hmem
  have hepoch : s.det.currentEpoch ≠ 0 := by
    intro h0
    rw [(hinv.start h0).1] at hmem
    exact Finset.notMem_empty idx hmem
  have hnoOut : ∀ y, y ∉ s.det.g idx := fun y hy => hdead (hinv.edge idx y hy).2.2.1
  have hnoIn : ∀ x, idx ∉ s.det.g x := fun x hx => (hinv.edge x idx hx).2.2.2 hmem
  rw [Option.map_some, Nat.add_comm idx]
  refine ⟨_, idx, rfl, rfl, hlt,
    ⟨Finset.eq_empty_of_forall_notMem hnoOut, hnoIn⟩,
    fun t ht hidx => hdead (hinv.tls_live t ht idx hidx), ?_⟩
  refine ⟨hinv.epoch_dvd, ?_, hinv.recycled_lt,
    hinv.disjoint.mono_left (Finset.erase_subset _ _), fun h0 => absurd h0 hepoch, ?_, ?_, ?_,
    hinv.tls_ok, hinv.tls_le, ?_, ?_, hinv.acyclic⟩
  · intro i hi
    exact hinv.available_lt i (Finset.mem_of_mem_erase hi)
  · intro i hi
    have hold := hinv.live_iff i hi
    by_cases hii : i = idx
    · subst hii
      have hrec : i ∉ s.det.recycledNodes := Finset.disjoint_left.mp hinv.disjoint hmem
      simp [History.create, hepoch, hrec]
    · simp only [History.create, Set.mem_insert_iff, Nat.add_left_cancel_iff, hii, false_or,
        Finset.mem_erase, ne_eq, not_false_eq_true, true_and]
      exact hold
  · intro m hm
    rcases Set.mem_insert_iff.mp hm with rfl | hm
    · exact Nat.add_lt_add_left hlt _
    · exact hinv.live_lt m hm
  · intro x y hxy
    obtain ⟨hx, hy, hlive, havail⟩ := hinv.edge x y hxy
    exact ⟨hx, hy, Set.mem_insert_of_mem _ hlive, fun hy' => havail (Finset.mem_of_mem_erase hy')⟩
  · intro t ht i hi
    exact Set.mem_insert_of_mem _ (hinv.tls_live t ht i hi)
  · intro i j hi hj hil hjl
    by_cases hii : i = idx
    · exact ⟨fun hij => absurd (hii ▸ hij) (hnoOut j), fun hij => absurd (hii ▸ rfl) hij.2.1⟩
    by_cases hji : j = idx
    · exact ⟨fun hij => absurd (hji ▸ hij) (hnoIn i), fun hij => absurd (hji ▸ rfl) hij.2.2⟩
    have hi' : s.det.currentEpoch + i ≠ s.det.currentEpoch + idx := by omega
    have hj' : s.det.currentEpoch + j ≠ s.det.currentEpoch + idx := by omega
    have hold := hinv.edge_iff i j hi hj (hil.resolve_left hi') (hjl.resolve_left hj')
    exact hold.trans ⟨fun hij => ⟨hij, hi', hj'⟩, fun hij => hij.1⟩

/-- `newNode` keeps the invariant, and the node has no edges and is held by no thread. -/
theorem Inv.newNode (hinv : Inv size s h) (hsize : 0 < size) :
    ∃ d idx, s.det.newNode size = some (d, d.currentEpoch + idx) ∧ idx < size ∧
      (d.g idx = ∅ ∧ ∀ x, idx ∉ d.g x) ∧
      (∀ t, (s.tls t).epoch = d.currentEpoch → idx ∉ (s.tls t).bv) ∧
      Inv size { s with det := d } (h.create (d.currentEpoch + idx)) := by
  unfold Detector.newNode
  by_cases havail : s.det.availableNodes.Nonempty
  · rw [if_pos havail]
    obtain ⟨d, idx, hget, hepoch, hrest⟩ := hinv.getAvailableNode havail
    exact ⟨d, idx, hepoch.symm ▸ hget, hepoch.symm ▸ hrest⟩
  rw [if_neg havail]
  by_cases hrec : s.det.recycledNodes.Nonempty
  · rw [if_pos hrec]
    have hinv' := hinv.recycle (Finset.not_nonempty_iff_eq_empty.mp havail)
    obtain ⟨d, idx, hget, hepoch, hrest⟩ :=
      hinv'.getAvailableNode (hrec.mono Finset.subset_union_right)
    exact ⟨d, idx, hepoch.symm ▸ hget, hepoch.symm ▸ hrest⟩
  · rw [if_neg hrec]
    have hall : (Finset.range size).Nonempty := ⟨0, Finset.mem_range.mpr hsize⟩
    obtain ⟨d, idx, hget, hepoch, hrest⟩ := (hinv.flush hsize).getAvailableNode hall
    exact ⟨d, idx, hepoch.symm ▸ hget, hepoch.symm ▸ hrest⟩

/-- `removeNode` of a node that no thread holds. -/
theorem Inv.removeNode (hinv : Inv size s h) (hsize : 0 < size) (hn : s.Current size h n)
    (hfree : ∀ t, h.hold t n = 0) :
    ∃ d, s.det.removeNode size n = some d ∧ Inv size { s with det := d } (h.remove n) := by
  obtain ⟨hindex, hlt, hsum⟩ := hinv.nodeToIndex hsize hn
  have hlive := hn.1
  generalize nodeToIndexUnchecked size n = idx at hindex hlt hsum
  subst hsum
  obtain ⟨hepoch, havail, hrec⟩ := (hinv.live_iff idx hlt).mp hlive
  unfold Detector.removeNode
  rw [hindex, Option.bind_some, if_neg havail, if_neg hrec]
  refine ⟨_, rfl, hinv.epoch_dvd, hinv.available_lt, ?_, ?_, fun h0 => absurd h0 hepoch, ?_, ?_, ?_,
    hinv.tls_ok, hinv.tls_le, ?_, ?_, ?_⟩
  · intro i hi
    rcases Finset.mem_insert.mp hi with rfl | hi
    · exact hlt
    · exact hinv.recycled_lt i hi
  · exact Finset.disjoint_insert_right.mpr ⟨havail, hinv.disjoint⟩
  · intro i hi
    have hold := hinv.live_iff i hi
    by_cases hii : i = idx
    · subst hii
      simp [History.remove]
    · simp only [History.remove, Set.mem_sdiff, Set.mem_singleton_iff, Nat.add_left_cancel_iff, hii,
        not_false_eq_true, and_true, Finset.mem_insert, false_or]
      exact hold
  · intro m hm
    exact hinv.live_lt m hm.1
  · intro x y hxy
    obtain ⟨hx, hedge⟩ := Graph.mem_removeEdgesFrom.mp hxy
    obtain ⟨hxlt, hy, hxl, hyavail⟩ := hinv.edge x y hedge
    refine ⟨hxlt, hy, ⟨hxl, fun heq => hx ?_⟩, hyavail⟩
    exact Nat.add_left_cancel (Set.mem_singleton_iff.mp heq)
  · intro t ht i hi
    refine ⟨hinv.tls_live t ht i hi, fun heq => ?_⟩
    have hpos := ((hinv.tls_ok t).mem_bv_iff ((hinv.tls_ok t).lt_size i hi)).mp hi
    rw [ht, Set.mem_singleton_iff.mp heq, hfree t] at hpos
    exact absurd hpos (lt_irrefl 0)
  · intro i j hi hj hil hjl
    refine Iff.trans ?_ (hinv.edge_iff i j hi hj hil.1 hjl.1)
    have hne : i ≠ idx := fun hii => hil.2 (by rw [hii]; rfl)
    exact Graph.mem_removeEdgesFrom.trans (and_iff_right hne)
  · intro hclean
    apply (hinv.acyclic hclean).mono
    rintro a b ⟨hne, hab⟩
    exact ⟨hne, (Graph.mem_removeEdgesFrom.mp hab).2⟩

/-! ## Locks -/

theorem Inv.current (hinv : Inv size s h) (t : T) :
    (s.current t).Ok size (h.hold t) ∧ (s.current t).epoch = s.det.currentEpoch ∧
      ∀ i ∈ (s.current t).bv, s.det.currentEpoch + i ∈ h.live := by
  obtain ⟨hok, hepoch⟩ := (hinv.tls_ok t).ensureCurrentEpoch (hinv.tls_le t) hinv.epoch_dvd
  refine ⟨hok, hepoch, ?_⟩
  unfold State.current TLS.ensureCurrentEpoch
  by_cases heq : (s.tls t).epoch = s.det.currentEpoch
  · rw [if_pos heq]
    exact hinv.tls_live t heq
  · rw [if_neg heq]
    simp

theorem Inv.exists_held_iff (hinv : Inv size s h) (hsize : 0 < size) {P : ℕ → Prop} :
    (∃ a, 0 < h.hold t a ∧ nodeToEpoch size a = s.det.currentEpoch ∧
      P (nodeToIndexUnchecked size a)) ↔ ∃ i ∈ (s.current t).bv, P i := by
  obtain ⟨hok, hepoch, -⟩ := hinv.current t
  constructor
  · rintro ⟨a, hpos, ha, hP⟩
    refine ⟨_, (hok.mem_bv_iff (Nat.mod_lt a hsize)).mpr ?_, hP⟩
    rw [hepoch, ← ha]
    exact (nodeToEpoch_add size a).symm ▸ hpos
  · rintro ⟨i, hi, hP⟩
    obtain ⟨ha, hindex⟩ := nodeToEpoch_eq (hok.lt_size i hi) hinv.epoch_dvd
    refine ⟨s.det.currentEpoch + i, ?_, ha, hindex.symm ▸ hP⟩
    rw [← hepoch]
    exact (hok.mem_bv_iff (hok.lt_size i hi)).mp hi

theorem Inv.closes_iff (hinv : Inv size s h) (hsize : 0 < size) (hn : s.Current size h n) :
    s.Closes size h t n ↔ ∃ i ∈ (s.current t).bv, i ≠ nodeToIndexUnchecked size n ∧
      s.det.g.Path (nodeToIndexUnchecked size n) i := by
  rw [← hinv.exists_held_iff hsize]
  unfold State.Closes
  apply exists_congr
  intro a
  constructor
  · rintro ⟨hne, hpos, ha, hpath⟩
    refine ⟨hpos, ha, fun hindex => hne ?_, hpath⟩
    rw [← nodeToEpoch_add size a, ← nodeToEpoch_add size n, ha, hn.2, hindex]
  · rintro ⟨hpos, ha, hne, hpath⟩
    exact ⟨fun heq => hne (heq ▸ rfl), hpos, ha, hpath⟩

/-- The graph is updated for an acquisition. -/
theorem Inv.relate (hinv : Inv size s h) (hsize : 0 < size) (hn : s.Current size h n) {ok : Prop}
    (hok : ok → ¬s.Closes size h t n) :
    Inv size { s with det := { s.det with
      g := s.det.g.addEdges (s.current t).bv (nodeToIndexUnchecked size n) } } (h.relate t n ok) := by
  obtain ⟨-, hlt, hsum⟩ := hinv.nodeToIndex hsize hn
  obtain ⟨hcur, hepoch, hlive⟩ := hinv.current t
  rw [hinv.closes_iff hsize hn] at hok
  have hnlive := hn.1
  generalize nodeToIndexUnchecked size n = idx at hlt hsum hok
  subst hsum
  refine ⟨hinv.epoch_dvd, hinv.available_lt, hinv.recycled_lt, hinv.disjoint, hinv.start,
    hinv.live_iff, hinv.live_lt, ?_, hinv.tls_ok, hinv.tls_le, hinv.tls_live, ?_, ?_⟩
  · intro x y hxy
    rcases Graph.mem_addEdges.mp hxy with hold | ⟨hx, rfl⟩
    · exact hinv.edge x y hold
    · exact ⟨hcur.lt_size x hx, hlt, hlive x hx, ((hinv.live_iff y hlt).mp hnlive).2.1⟩
  · intro i j hi hj hil hjl
    refine Graph.mem_addEdges.trans (or_congr (hinv.edge_iff i j hi hj hil hjl) ?_)
    rw [and_comm]
    exact and_congr (Nat.add_left_cancel_iff).symm (hepoch ▸ hcur.mem_bv_iff hi)
  · rintro ⟨hclean, hok'⟩
    have hno : ∀ x ∈ {x | x ∈ (s.current t).bv ∧ x ≠ idx},
        ¬Relation.ReflTransGen (fun i j => i ≠ j ∧ s.det.g.Edge i j) idx x := by
      rintro x ⟨hx, hne⟩ hpath
      exact hok hok' ⟨x, hx, hne, Relation.ReflTransGen.mono (fun _ _ hab => hab.2) _ _ hpath⟩
    refine (hinv.acyclic hclean).addEdges ?_ hno
    rintro x y ⟨hne, hxy⟩
    rcases Graph.mem_addEdges.mp hxy with hold | ⟨hx, rfl⟩
    · exact Or.inl ⟨hne, hold⟩
    · exact Or.inr ⟨⟨hx, hne⟩, rfl⟩

theorem Inv.getLocks (hinv : Inv size s h) (t : T) :
    (s.current t).getLocks s.det.currentEpoch = some (s.current t).bv := by
  unfold TLS.getLocks
  rw [if_pos (hinv.current t).2.1]

theorem Inv.onLockBefore (hinv : Inv size s h) (hsize : 0 < size) (hn : s.Current size h n) (t : T) :
    ∃ res, s.det.onLockBefore size (s.tls t) n = some (s.current t, res) ∧
      (res = true ↔ ∃ i ∈ (s.current t).bv, s.det.g.Path (nodeToIndexUnchecked size n) i) := by
  have hrange : ∀ a, s.det.g a ⊆ Finset.range size :=
    fun a b hb => Finset.mem_range.mpr (hinv.edge a b hb).2.1
  obtain ⟨res, hres, hiff⟩ := Graph.isReachable_eq hrange (s.current t).bv
  refine ⟨res, ?_, hiff⟩
  have hlocks := hinv.getLocks t
  unfold State.current at hlocks hres
  unfold Detector.onLockBefore
  simp only [(hinv.nodeToIndex hsize hn).1, hlocks, hres, Option.bind_some, Option.map_some]
  rfl

theorem Inv.addEdges (hinv : Inv size s h) (hsize : 0 < size) (hn : s.Current size h n) (t : T) :
    ∃ count, s.det.addEdges size (s.tls t) n = some ({ s.det with
      g := s.det.g.addEdges (s.current t).bv (nodeToIndexUnchecked size n) }, s.current t, count) := by
  have hlocks := hinv.getLocks t
  unfold State.current at hlocks
  unfold Detector.addEdges
  simp only [(hinv.nodeToIndex hsize hn).1, hlocks, Option.bind_some, Option.map_some]
  exact ⟨_, rfl⟩

theorem Inv.onLock_before (hinv : Inv size s h) (hsize : 0 < size) (hn : s.Current size h n) (t : T) :
    ∃ res, (if decide (nodeToIndexUnchecked size n ∈ (s.current t).bv) then
        some (s.current t, false) else s.det.onLockBefore size (s.current t) n) =
          some (s.current t, res) ∧
      (res = true ↔ nodeToIndexUnchecked size n ∉ (s.current t).bv ∧
        ∃ i ∈ (s.current t).bv, s.det.g.Path (nodeToIndexUnchecked size n) i) := by
  by_cases hmem : nodeToIndexUnchecked size n ∈ (s.current t).bv
  · exact ⟨false, by simp [hmem], by simp [hmem]⟩
  · obtain ⟨res, hres, hiff⟩ := hinv.onLockBefore hsize hn t
    refine ⟨res, ?_, hiff.trans (by simp [hmem])⟩
    rw [decide_eq_false hmem, if_neg Bool.false_ne_true, ← hres]
    simp only [Detector.onLockBefore, State.current, TLS.ensureCurrentEpoch_idem]

theorem Inv.lockOrder_acyclic (hinv : Inv size s h) (hclean : h.clean) :
    Acyclic (s.LockOrder size h) := by
  intro a hcycle
  apply hinv.acyclic hclean (nodeToIndexUnchecked size a)
  refine Relation.TransGen.lift (nodeToIndexUnchecked size) ?_ _ _ hcycle
  rintro x y ⟨hne, hx, hy, hedge⟩
  refine ⟨fun hindex => hne ?_, hedge⟩
  rw [← nodeToEpoch_add size x, ← nodeToEpoch_add size y, hx.2, hy.2, hindex]

variable [DecidableEq T]

/-- A step that changes only the locks of one thread. -/
theorem Inv.setTls (hinv : Inv size s h) {tls : TLS} {hold : ℕ → ℕ} (hok : tls.Ok size hold)
    (hle : tls.epoch ≤ s.det.currentEpoch)
    (hlive : tls.epoch = s.det.currentEpoch → ∀ i ∈ tls.bv, s.det.currentEpoch + i ∈ h.live) :
    Inv size (s.setTls t tls) { h with hold := Function.update h.hold t hold } where
  epoch_dvd := hinv.epoch_dvd
  available_lt := hinv.available_lt
  recycled_lt := hinv.recycled_lt
  disjoint := hinv.disjoint
  start := hinv.start
  live_iff := hinv.live_iff
  live_lt := hinv.live_lt
  edge := hinv.edge
  tls_ok := by
    intro u
    by_cases hu : u = t
    · subst hu
      simpa [State.setTls] using hok
    · simpa [State.setTls, hu] using hinv.tls_ok u
  tls_le := by
    intro u
    by_cases hu : u = t
    · subst hu
      simpa [State.setTls] using hle
    · simpa [State.setTls, hu] using hinv.tls_le u
  tls_live := by
    intro u
    by_cases hu : u = t
    · subst hu
      simpa [State.setTls] using hlive
    · simpa [State.setTls, hu] using hinv.tls_live u
  edge_iff := hinv.edge_iff
  acyclic := hinv.acyclic

theorem Inv.ensureCurrentEpoch (hinv : Inv size s h) (t : T) :
    Inv size (s.setTls t (s.current t)) h := by
  obtain ⟨hok, hepoch, hlive⟩ := hinv.current t
  have hset := hinv.setTls (t := t) hok hepoch.le fun _ => hlive
  rwa [Function.update_eq_self] at hset

theorem Inv.acquire (hinv : Inv size s h) (hsize : 0 < size) (hn : s.Current size h n)
    (hfits : (s.current t).Fits (nodeToIndexUnchecked size n)) :
    ∃ tls first, (s.current t).addLock (nodeToIndexUnchecked size n) s.det.currentEpoch =
      some (tls, first) ∧ Inv size (s.setTls t tls) (h.acquire t n) := by
  obtain ⟨-, hlt, hsum⟩ := hinv.nodeToIndex hsize hn
  obtain ⟨hok, hepoch, hlive⟩ := hinv.current t
  obtain ⟨tls, first, hadd, hsame, hbv, hok'⟩ := hok.addLock hlt hfits
  rw [hepoch] at hadd hsame hok'
  refine ⟨tls, first, hadd, ?_⟩
  rw [hsum] at hok'
  apply hinv.setTls hok' hsame.le
  intro _ i hi
  rw [hbv] at hi
  rcases Finset.mem_insert.mp hi with rfl | hi
  · exact hsum.symm ▸ hn.1
  · exact hlive i hi

/-! ## The operations -/

theorem Inv.onLockAfter (hinv : Inv size s h) (hsize : 0 < size) (hn : s.Current size h n)
    (hfits : s.Fits size t n) :
    ∃ tls, s.det.onLockAfter size (s.tls t) n = some tls ∧
      Inv size (s.setTls t tls) (h.acquire t n) := by
  obtain ⟨tls, first, hadd, hinv'⟩ := hinv.acquire hsize hn hfits
  refine ⟨tls, ?_, hinv'⟩
  unfold State.current at hadd
  unfold Detector.onLockAfter
  simp only [(hinv.nodeToIndex hsize hn).1, hadd, Option.bind_some, Option.map_some]

theorem Inv.onTryLock (hinv : Inv size s h) (hsize : 0 < size) (hn : s.Current size h n)
    (hfits : s.Fits size t n) :
    ∃ tls, s.det.onTryLock size (s.tls t) n = some (tls, false) ∧
      Inv size (s.setTls t tls) (h.acquire t n) := by
  obtain ⟨tls, first, hadd, hinv'⟩ := hinv.acquire hsize hn hfits
  refine ⟨tls, ?_, hinv'⟩
  unfold State.current at hadd
  unfold Detector.onTryLock
  simp only [(hinv.nodeToIndex hsize hn).1, hadd, Option.bind_some, Option.map_some]

/-- `onLock`: the answer, then `addEdges` and `onLockAfter`. -/
theorem Inv.onLock (hinv : Inv size s h) (hsize : 0 < size) (hn : s.Current size h n)
    (hfits : s.Fits size t n) :
    ∃ d tls res, s.det.onLock size (s.tls t) n = some (d, tls, res) ∧
      (res = true ↔ h.hold t n = 0 ∧
        ∃ i ∈ (s.current t).bv, s.det.g.Path (nodeToIndexUnchecked size n) i) ∧
      Inv size ({ s with det := d }.setTls t tls)
        (h.record size s (.onLock t n) (.bool res)) := by
  obtain ⟨hindex, hlt, hsum⟩ := hinv.nodeToIndex hsize hn
  obtain ⟨hok, hepoch, -⟩ := hinv.current t
  have hheld : nodeToIndexUnchecked size n ∉ (s.current t).bv ↔ h.hold t n = 0 := by
    rw [hok.mem_bv_iff hlt, hepoch, hsum, Nat.not_lt, Nat.le_zero]
  obtain ⟨res, hres, hiff⟩ := hinv.onLock_before hsize hn t
  rw [hheld] at hiff
  obtain ⟨count, hcount⟩ := hinv.addEdges hsize hn t
  -- a clean answer means that no cycle is closed, also where `onLock` does not look
  have hclean : res = false ∧ (0 < h.hold t n → ¬s.Closes size h t n) → ¬s.Closes size h t n := by
    rintro ⟨hfalse, hrec⟩ hcloses
    rcases Nat.eq_zero_or_pos (h.hold t n) with hzero | hpos
    · obtain ⟨i, hi, -, hpath⟩ := (hinv.closes_iff hsize hn).mp hcloses
      have htrue := hiff.mpr ⟨hzero, i, hi, hpath⟩
      exact absurd htrue (by simp [hfalse])
    · exact hrec hpos hcloses
  have hinv₁ := hinv.relate hsize hn hclean
  obtain ⟨tls, hafter, hinv₂⟩ := hinv₁.onLockAfter hsize hn hfits
  refine ⟨_, tls, res, ?_, hiff, hinv₂⟩
  have hlocks := hinv.getLocks t
  unfold State.current at hlocks hres hcount hafter
  unfold Detector.onLock Detector.isHeld
  simp only [hlocks, hindex, Option.bind_some, Option.map_some, hres]
  simp only [Detector.addEdges, Detector.onLockAfter, TLS.ensureCurrentEpoch_idem] at hcount hafter ⊢
  rw [hcount, Option.bind_some]
  simp only [TLS.ensureCurrentEpoch_idem]
  rw [hafter, Option.map_some]
  rfl

/-- `onFirstLock` adds the lock only if the epoch of the thread is the current one. -/
theorem Inv.onFirstLock (hinv : Inv size s h) (hsize : 0 < size) (hn : s.Current size h n) (t : T) :
    ∃ tls res, onFirstLock size (s.tls t) n = some (tls, res) ∧
      Inv size (s.setTls t tls) (h.record size s (.onFirstLock t n) (.bool res)) := by
  have hsame : Inv size (s.setTls t (s.tls t)) h := by
    rwa [State.setTls, Function.update_eq_self]
  unfold Deadlock.onFirstLock
  by_cases hempty : (s.tls t).bv = ∅
  · rw [if_neg (not_not_intro hempty)]
    by_cases hcur : (s.tls t).epoch ≠ 0 ∧ (s.tls t).epoch = nodeToEpoch size n
    · rw [if_pos hcur, hn.2]
      have hcur' : s.current t = s.tls t := if_pos (hcur.2.trans hn.2)
      have hnil : (s.tls t).allLocks = [] := by
        apply List.eq_nil_iff_forall_not_mem.mpr
        intro i hi
        rw [(hinv.tls_ok t).mem_allLocks, hempty] at hi
        exact absurd hi (Finset.notMem_empty i)
      have hfits : (s.current t).Fits (nodeToIndexUnchecked size n) := by
        rw [hcur', TLS.Fits, hempty, hnil, if_neg (Finset.notMem_empty _)]
        decide
      obtain ⟨tls, first, hadd, hinv'⟩ := hinv.acquire hsize hn hfits
      rw [hcur'] at hadd
      exact ⟨tls, true, by rw [hadd]; rfl, hinv'⟩
    · rw [if_neg hcur]
      exact ⟨_, _, rfl, hsame⟩
  · rw [if_pos hempty]
    exact ⟨_, _, rfl, hsame⟩

theorem Inv.onLockFast (hinv : Inv size s h) (hsize : 0 < size) (hn : s.Current size h n)
    (hfits : s.det.hasAllEdges size (s.tls t) n = true → s.Fits size t n) :
    ∃ tls res, s.det.onLockFast size (s.tls t) n = some (tls, res) ∧
      Inv size (s.setTls t tls) (h.record size s (.onLockFast t n) (.bool res)) := by
  unfold Detector.onLockFast
  by_cases hall : s.det.hasAllEdges size (s.tls t) n = true
  · rw [if_pos hall, hn.2]
    have hcur : s.current t = s.tls t := by
      unfold Detector.hasAllEdges at hall
      simp only [Bool.and_eq_true, decide_eq_true_eq] at hall
      exact if_pos hall.1.1.2
    obtain ⟨tls, first, hadd, hinv'⟩ := hinv.acquire hsize hn (hfits hall)
    rw [hcur] at hadd
    exact ⟨tls, true, by rw [hadd]; rfl, hinv'⟩
  · rw [if_neg hall]
    refine ⟨_, _, rfl, ?_⟩
    rwa [State.setTls, Function.update_eq_self]

/-- `onUnlock` of a node that the thread holds, possibly of an earlier epoch. -/
theorem Inv.onUnlock (hinv : Inv size s h) (hsize : 0 < size) (hpos : 0 < h.hold t n) :
    Inv size (s.setTls t (onUnlock size (s.tls t) n)) (h.release t n) := by
  have hok := hinv.tls_ok t
  unfold Deadlock.onUnlock
  by_cases hepoch : (s.tls t).epoch = nodeToEpoch size n
  · rw [if_pos hepoch]
    have hsum : (s.tls t).epoch + nodeToIndexUnchecked size n = n := by
      rw [hepoch, nodeToEpoch_add]
    have hlt : nodeToIndexUnchecked size n < size := Nat.mod_lt n hsize
    obtain ⟨hsame, hsub, hok'⟩ := hok.removeLock hlt (hsum.symm ▸ hpos)
    rw [hsum] at hok'
    refine hinv.setTls hok' (hsame.trans_le (hinv.tls_le t)) fun heq i hi => ?_
    exact hinv.tls_live t (hsame.symm.trans heq) i (hsub hi)
  · rw [if_neg hepoch]
    refine hinv.setTls (hok.congr fun m hm => ?_) (hinv.tls_le t) (hinv.tls_live t)
    -- the node is of an earlier epoch than the locks of the thread
    have hlt : n < (s.tls t).epoch + size := by
      by_contra hge
      rw [hok.hold_later n (not_lt.mp hge)] at hpos
      exact absurd hpos (lt_irrefl 0)
    refine Function.update_of_ne (fun hmn => hepoch ?_) _ _
    obtain ⟨i, rfl⟩ := Nat.exists_eq_add_of_le (hmn ▸ hm)
    exact (nodeToEpoch_eq (by omega) hok.dvd).1.symm

/-! ## Runs -/

/-- A legal operation passes every `CHECK` and keeps the invariant. -/
theorem Inv.step (hinv : Inv size s h) (hsize : 0 < size) {op : Op T} (hlegal : s.Legal size h op) :
    ∃ s' res, s.step size op = some (s', res) ∧ Inv size s' (h.record size s op res) := by
  cases op with
  | newNode =>
    obtain ⟨d, idx, hnew, -, -, -, hinv'⟩ := hinv.newNode hsize
    exact ⟨_, _, by rw [State.step, hnew]; rfl, hinv'⟩
  | removeNode n =>
    obtain ⟨d, hremove, hinv'⟩ := hinv.removeNode hsize hlegal.1 hlegal.2
    exact ⟨_, _, by rw [State.step, hremove]; rfl, hinv'⟩
  | onLockBefore t n =>
    obtain ⟨res, hres, -⟩ := hinv.onLockBefore hsize hlegal t
    exact ⟨_, _, by rw [State.step, hres]; rfl, hinv.ensureCurrentEpoch t⟩
  | addEdges t n =>
    obtain ⟨count, hcount⟩ := hinv.addEdges hsize hlegal t
    refine ⟨_, _, by rw [State.step, hcount]; rfl, ?_⟩
    exact (hinv.relate hsize hlegal id).ensureCurrentEpoch t
  | onLockAfter t n =>
    obtain ⟨tls, hafter, hinv'⟩ := hinv.onLockAfter hsize hlegal.1 hlegal.2
    exact ⟨_, _, by rw [State.step, hafter]; rfl, hinv'⟩
  | onLock t n =>
    obtain ⟨d, tls, res, hlock, -, hinv'⟩ := hinv.onLock hsize hlegal.1 hlegal.2
    exact ⟨_, _, by rw [State.step, hlock]; rfl, hinv'⟩
  | onTryLock t n =>
    obtain ⟨tls, htry, hinv'⟩ := hinv.onTryLock hsize hlegal.1 hlegal.2
    exact ⟨_, _, by rw [State.step, htry]; rfl, hinv'⟩
  | onFirstLock t n =>
    obtain ⟨tls, res, hfirst, hinv'⟩ := hinv.onFirstLock hsize hlegal t
    exact ⟨_, _, by rw [State.step, hfirst]; rfl, hinv'⟩
  | onLockFast t n =>
    obtain ⟨tls, res, hfast, hinv'⟩ := hinv.onLockFast hsize hlegal.1 hlegal.2
    exact ⟨_, _, by rw [State.step, hfast]; rfl, hinv'⟩
  | onUnlock t n => exact ⟨_, _, rfl, hinv.onUnlock hsize hlegal⟩

theorem Run.inv {events : List (Op T × Res)} (hrun : Run size events s h) (hsize : 0 < size) :
    Inv size s h := by
  induction hrun with
  | init => exact Inv.init
  | step _ hlegal hstep ih =>
    obtain ⟨s', res, hstep', hinv'⟩ := ih.step hsize hlegal
    rw [hstep] at hstep'
    obtain ⟨rfl, rfl⟩ := Prod.mk.inj (Option.some.inj hstep')
    exact hinv'

/-- In every run every operation passes its `CHECK`s. A new node has no edges and is held by no thread
in the current epoch. The edges between live nodes are the orders of acquisition that have been seen
since both were created. `onLock` of a lock that the thread does not hold returns true if and only if
the graph has a path from it to a lock of the thread. As long as that has not happened, and no edges
have been added without the check that close a cycle, the order is acyclic. -/
theorem deadlockDetector_runs {events : List (Op T × Res)} (hsize : 0 < size)
    (hrun : Run size events s h) :
    (∀ op, s.Legal size h op → ∃ s' res, s.step size op = some (s', res)) ∧
    (∀ s' res, s.step size .newNode = some (s', res) → ∃ c, res = .node c ∧
      s'.Current size (h.create c) c ∧
      (∀ i, ¬s'.det.g.Edge (nodeToIndexUnchecked size c) i ∧
        ¬s'.det.g.Edge i (nodeToIndexUnchecked size c)) ∧
      ∀ t, (s'.tls t).epoch = s'.det.currentEpoch → nodeToIndexUnchecked size c ∉ (s'.tls t).bv) ∧
    (∀ a b, s.Current size h a → s.Current size h b → (s.HasEdge size a b ↔ h.order a b)) ∧
    (∀ t b s' res, s.Legal size h (.onLock t b) → h.hold t b = 0 →
      s.step size (.onLock t b) = some (s', .bool res) →
      (res = true ↔ ∃ a, 0 < h.hold t a ∧ nodeToEpoch size a = s.det.currentEpoch ∧
        s.det.g.Path (nodeToIndexUnchecked size b) (nodeToIndexUnchecked size a))) ∧
    (h.clean → Acyclic (s.LockOrder size h)) := by
  have hinv := hrun.inv hsize
  refine ⟨?_, ?_, ?_, ?_, hinv.lockOrder_acyclic⟩
  · intro op hlegal
    obtain ⟨s', res, hstep, -⟩ := hinv.step hsize hlegal
    exact ⟨s', res, hstep⟩
  · intro s' res hstep
    obtain ⟨d, idx, hnew, hlt, ⟨hout, hin⟩, hfree, hinv'⟩ := hinv.newNode hsize
    rw [State.step, hnew] at hstep
    obtain ⟨rfl, rfl⟩ := Prod.mk.inj (Option.some.inj hstep)
    obtain ⟨hepoch, hindex⟩ := nodeToEpoch_eq hlt hinv'.epoch_dvd
    refine ⟨_, rfl, ⟨Set.mem_insert _ _, hepoch⟩, ?_, ?_⟩
    · intro i
      dsimp only at hindex ⊢
      rw [hindex]
      exact ⟨fun hi => absurd (hout ▸ hi) (Finset.notMem_empty i), hin i⟩
    · intro t ht
      dsimp only at hindex ⊢
      rw [hindex]
      exact hfree t ht
  · intro a b ha hb
    obtain ⟨-, hia, hsa⟩ := hinv.nodeToIndex hsize ha
    obtain ⟨-, hib, hsb⟩ := hinv.nodeToIndex hsize hb
    have hedge := hinv.edge_iff _ _ hia hib (hsa.symm ▸ ha.1) (hsb.symm ▸ hb.1)
    rwa [hsa, hsb] at hedge
  · intro t b s' res hlegal hfree hstep
    obtain ⟨d, tls, res', hlock, hiff, -⟩ := hinv.onLock hsize hlegal.1 hlegal.2
    rw [State.step, hlock] at hstep
    obtain rfl : res' = res := Res.bool.inj (Prod.mk.inj (Option.some.inj hstep)).2
    rw [hiff, hinv.exists_held_iff hsize]
    exact and_iff_right hfree

end Invariant

/-! ## A recursive acquisition -/

/-- The room in the tables is decidable. -/
instance {T : Type} (size : ℕ) (s : State T) (t : T) (n : ℕ) : Decidable (s.Fits size t n) := by
  unfold State.Fits TLS.Fits
  infer_instance

/-- The state after some operations that pass their `CHECK`s, as `BasicBitVector` has it. -/
def State.after (s : State Unit) (ops : List (Op Unit)) : State Unit :=
  ops.foldl (fun s op => ((s.step 64 op).map Prod.fst).getD s) s

theorem Run.next {events : List (Op Unit × Res)} {ops : List (Op Unit)} {h : History Unit}
    (hrun : Run 64 events (State.init.after ops) h) (op : Op Unit) (res : Res)
    (hlegal : (State.init.after ops).Legal 64 h op)
    (hres : ((State.init.after ops).step 64 op).map Prod.snd = some res) :
    Run 64 ((op, res) :: events) (State.init.after (ops ++ [op]))
      (h.record 64 (State.init.after ops) op res) := by
  obtain ⟨⟨s', res'⟩, hstep, rfl⟩ := Option.map_eq_some_iff.mp hres
  have hafter : State.init.after (ops ++ [op]) = s' := by
    unfold State.after at hstep ⊢
    rw [List.foldl_append, List.foldl_cons, List.foldl_nil, hstep]
    rfl
  rw [hafter]
  exact hrun.step hlegal hstep

/-- A thread acquires two nodes, and then the first one again. -/
theorem run_two_locks : ∃ (s s' : State Unit) (h h' : History Unit),
    Run 64 [(.onLock () 64, .bool false), (.onLock () 65, .bool false), (.newNode, .node 65),
      (.newNode, .node 64)] s h ∧ (s.Current 64 h 64 ∧ s.Current 64 h 65) ∧ h.clean ∧ h.order 65 64 ∧
    Run 64 [(.onLock () 65, .bool false), (.onLock () 64, .bool false), (.onLock () 65, .bool false),
      (.newNode, .node 65), (.newNode, .node 64)] s' h' ∧
    (s'.Current 64 h' 64 ∧ s'.Current 64 h' 65) ∧ 1 ∈ s'.det.g 0 ∧ 0 ∈ s'.det.g 1 := by
  have h₀ : Run 64 [] (State.init.after []) (History.init : History Unit) := Run.init
  have h₁ := h₀.next .newNode (.node 64) trivial (by decide +kernel)
  have h₂ := h₁.next .newNode (.node 65) trivial (by decide +kernel)
  have h₃ := h₂.next (.onLock () 65) (.bool false)
    ⟨⟨by simp [History.record, History.create], by decide +kernel⟩, by decide +kernel⟩
    (by decide +kernel)
  have h₄ := h₃.next (.onLock () 64) (.bool false)
    ⟨⟨by simp [History.record, History.create, History.acquire, History.relate, History.setHold],
      by decide +kernel⟩, by decide +kernel⟩ (by decide +kernel)
  have h₅ := h₄.next (.onLock () 65) (.bool false)
    ⟨⟨by simp [History.record, History.create, History.acquire, History.relate, History.setHold],
      by decide +kernel⟩, by decide +kernel⟩ (by decide +kernel)
  refine ⟨_, _, _, _, h₄, ⟨⟨?_, by decide +kernel⟩, ⟨?_, by decide +kernel⟩⟩, ?_, ?_, h₅,
    ⟨⟨?_, by decide +kernel⟩, ⟨?_, by decide +kernel⟩⟩, by decide +kernel, by decide +kernel⟩ <;>
  simp [History.record, History.create, History.acquire, History.relate, History.setHold,
    History.init]

/-- After the two acquisitions there is an edge, and no cycle. -/
theorem deadlockDetector_runs_two_locks : ∃ (s : State Unit) (h : History Unit),
    Run 64 [(.onLock () 64, .bool false), (.onLock () 65, .bool false), (.newNode, .node 65),
      (.newNode, .node 64)] s h ∧ s.HasEdge 64 65 64 ∧ Acyclic (s.LockOrder 64 h) := by
  obtain ⟨s, -, h, -, hrun, ⟨h64, h65⟩, hclean, horder, -⟩ := run_two_locks
  obtain ⟨-, -, hedge, -, hacyclic⟩ := deadlockDetector_runs (by decide : 0 < 64) hrun
  exact ⟨s, h, hrun, (hedge 65 64 h65 h64).mpr horder, hacyclic hclean⟩

/-- `onLock` of a lock that the thread holds already does not look for a cycle, and adds the edge that
closes one. -/
theorem deadlockDetector_recursive_cycle :
    ¬∀ (events : List (Op Unit × Res)) (s : State Unit) (h : History Unit), Run 64 events s h →
      (∀ t b, (Op.onLock t b, Res.bool true) ∉ events) → Acyclic (s.LockOrder 64 h) := by
  intro hclaim
  obtain ⟨-, s, -, h, -, -, -, -, hrun, ⟨h64, h65⟩, hedge, hedge'⟩ := run_two_locks
  refine hclaim _ s h hrun (by simp) 64 (Relation.TransGen.tail (b := 65) (.single ?_) ?_)
  · exact ⟨by decide, h64, h65, hedge⟩
  · exact ⟨by decide, h65, h64, hedge'⟩

end Tasan.Deadlock
