import Tasan.Deadlock.Graph

/-!
# The deadlock detector and the locks that a thread holds

`sanitizer_deadlock_detector.h`, for bit vectors of `size` bits. `TLS` is `DeadlockDetectorTLS`: the set
of the locks that a thread holds, the list of its recursive acquisitions and the list of all its locks,
all three for the epoch that the thread has seen last. `Detector` is `DeadlockDetector`. A node is an
index plus the epoch in which it was created.

A failed `CHECK` gives `none`. The stacks, the data of the nodes and the table `edges_`, which are there
for the reports only, are left out.
-/

namespace Tasan.Deadlock

/-! ## The locks of a thread -/

/-- `DeadlockDetectorTLS`. -/
structure TLS where
  /-- `bv_`: the indices of the locks that are held. -/
  bv : Finset ℕ
  epoch : ℕ
  /-- `recursive_locks`, the first `n_recursive_locks` of them. -/
  recursiveLocks : List ℕ
  /-- `all_locks_with_contexts_`, the first `n_all_locks_` of them. -/
  allLocks : List ℕ
  deriving DecidableEq

/-- `clear`. -/
def TLS.clear : TLS := ⟨∅, 0, [], []⟩

/-- `ensureCurrentEpoch`. -/
def TLS.ensureCurrentEpoch (tls : TLS) (currentEpoch : ℕ) : TLS :=
  if tls.epoch = currentEpoch then tls else ⟨∅, currentEpoch, [], []⟩

/-- `ARRAY_SIZE(recursive_locks)`. -/
def maxRecursiveLocks : ℕ := 64

/-- `ARRAY_SIZE(all_locks_with_contexts_)`. -/
def maxAllLocks : ℕ := 128

/-- `addLock`, with whether this is the first acquisition. -/
def TLS.addLock (tls : TLS) (lockId currentEpoch : ℕ) : Option (TLS × Bool) :=
  if tls.epoch ≠ currentEpoch then none
  else if lockId ∈ tls.bv then
    if tls.recursiveLocks.length < maxRecursiveLocks then
      some ({ tls with recursiveLocks := tls.recursiveLocks ++ [lockId] }, false)
    else none
  else if tls.allLocks.length < maxAllLocks then
    some ({ tls with bv := insert lockId tls.bv, allLocks := tls.allLocks ++ [lockId] }, true)
  else none

/-- The loops of `removeLock`: the last index below `n` at which the list has the element. -/
def lastIndex (l : List ℕ) (x : ℕ) : ℕ → Option ℕ
  | 0 => none
  | n + 1 => if l[n]? = some x then some n else lastIndex l x n

/-- `Swap` with the last element, which is then dropped. -/
def swapRemove (l : List ℕ) (i : ℕ) : List ℕ := (l.set i (l.getLastD 0)).dropLast

/-- `removeLock`. -/
def TLS.removeLock (tls : TLS) (lockId : ℕ) : TLS :=
  match lastIndex tls.recursiveLocks lockId tls.recursiveLocks.length with
  | some i => { tls with recursiveLocks := swapRemove tls.recursiveLocks i }
  | none =>
    if lockId ∈ tls.bv then
      match lastIndex tls.allLocks lockId tls.allLocks.length with
      | some i =>
        { tls with bv := tls.bv.erase lockId, allLocks := swapRemove tls.allLocks i }
      | none => { tls with bv := tls.bv.erase lockId }
    else tls  -- probably `addLock` happened before a flush

/-- `getLocks`. -/
def TLS.getLocks (tls : TLS) (currentEpoch : ℕ) : Option (Finset ℕ) :=
  if tls.epoch = currentEpoch then some tls.bv else none

/-! ## The detector -/

/-- `DeadlockDetector`. -/
structure Detector where
  currentEpoch : ℕ
  availableNodes : Finset ℕ
  recycledNodes : Finset ℕ
  g : Graph

/-- `clear`. -/
def Detector.clear : Detector := ⟨0, ∅, ∅, fun _ => ∅⟩

section Size

variable (size : ℕ)

/-- `nodeToEpoch`. -/
def nodeToEpoch (node : ℕ) : ℕ := node / size * size

/-- `nodeToIndexUnchecked`. -/
def nodeToIndexUnchecked (node : ℕ) : ℕ := node % size

/-- `nodeToIndex`, with `check_node`. -/
def Detector.nodeToIndex (d : Detector) (node : ℕ) : Option ℕ :=
  if size ≤ node ∧ d.currentEpoch = nodeToEpoch size node then some (nodeToIndexUnchecked size node)
  else none

/-- `indexToNode`, with `check_idx`. -/
def Detector.indexToNode (d : Detector) (idx : ℕ) : Option ℕ :=
  if idx < size then some (idx + d.currentEpoch) else none

/-- `getAvailableNode`. -/
def Detector.getAvailableNode (d : Detector) : Option (Detector × ℕ) :=
  if h : d.availableNodes.Nonempty then
    let idx := d.availableNodes.min' h
    let d' := { d with availableNodes := d.availableNodes.erase idx }
    (d'.indexToNode size idx).map fun node => (d', node)
  else none

/-- The state after the recycled nodes have been made available. -/
def Detector.recycle (d : Detector) : Detector :=
  { d with
    availableNodes := d.availableNodes ∪ d.recycledNodes
    recycledNodes := ∅
    g := d.g.removeEdgesTo d.recycledNodes }

/-- The state after a flush: a new epoch. -/
def Detector.flush (d : Detector) : Detector :=
  { currentEpoch := d.currentEpoch + size
    availableNodes := Finset.range size
    recycledNodes := ∅
    g := fun _ => ∅ }

/-- `newNode`. -/
def Detector.newNode (d : Detector) : Option (Detector × ℕ) :=
  if d.availableNodes.Nonempty then d.getAvailableNode size
  else if d.recycledNodes.Nonempty then d.recycle.getAvailableNode size
  else (d.flush size).getAvailableNode size

/-- `removeNode`. -/
def Detector.removeNode (d : Detector) (node : ℕ) : Option Detector :=
  (d.nodeToIndex size node).bind fun idx =>
    if idx ∈ d.availableNodes then none
    else if idx ∈ d.recycledNodes then none
    else some { d with
      recycledNodes := insert idx d.recycledNodes
      g := d.g.removeEdgesFrom idx }

/-- `onLockBefore`. -/
def Detector.onLockBefore (d : Detector) (dtls : TLS) (curNode : ℕ) : Option (TLS × Bool) :=
  let dtls := dtls.ensureCurrentEpoch d.currentEpoch
  (d.nodeToIndex size curNode).bind fun curIdx =>
    (dtls.getLocks d.currentEpoch).bind fun locks =>
      (d.g.isReachable size curIdx locks).map fun res => (dtls, res)

/-- `onLockAfter`. -/
def Detector.onLockAfter (d : Detector) (dtls : TLS) (curNode : ℕ) : Option TLS :=
  let dtls := dtls.ensureCurrentEpoch d.currentEpoch
  (d.nodeToIndex size curNode).bind fun curIdx =>
    (dtls.addLock curIdx d.currentEpoch).map Prod.fst

/-- `hasAllEdges`. -/
def Detector.hasAllEdges (d : Detector) (dtls : TLS) (curNode : ℕ) : Bool :=
  curNode ≠ 0 && dtls.epoch = d.currentEpoch && dtls.epoch = nodeToEpoch size curNode &&
    dtls.allLocks.all fun lock => nodeToIndexUnchecked size curNode ∈ d.g lock

/-- `ARRAY_SIZE(added_edges)`. -/
def maxAddedEdges : ℕ := 40

/-- `addEdges`, with the number of edges that have been added. -/
def Detector.addEdges (d : Detector) (dtls : TLS) (curNode : ℕ) : Option (Detector × TLS × ℕ) :=
  let dtls := dtls.ensureCurrentEpoch d.currentEpoch
  (d.nodeToIndex size curNode).bind fun curIdx =>
    (dtls.getLocks d.currentEpoch).map fun locks =>
      ({ d with g := d.g.addEdges locks curIdx }, dtls, d.g.countAdded locks curIdx maxAddedEdges)

/-- `isHeld`. -/
def Detector.isHeld (d : Detector) (dtls : TLS) (node : ℕ) : Option Bool :=
  (dtls.getLocks d.currentEpoch).bind fun locks =>
    (d.nodeToIndex size node).map fun idx => decide (idx ∈ locks)

/-- `onLock`, with whether there is a cycle. -/
def Detector.onLock (d : Detector) (dtls : TLS) (curNode : ℕ) : Option (Detector × TLS × Bool) :=
  let dtls := dtls.ensureCurrentEpoch d.currentEpoch
  (d.isHeld size dtls curNode).bind fun held =>
    (if held then some (dtls, false) else d.onLockBefore size dtls curNode).bind fun before =>
      (d.addEdges size before.1 curNode).bind fun added =>
        (added.1.onLockAfter size added.2.1 curNode).map fun dtls => (added.1, dtls, before.2)

/-- `onTryLock`. -/
def Detector.onTryLock (d : Detector) (dtls : TLS) (curNode : ℕ) : Option (TLS × Bool) :=
  let dtls := dtls.ensureCurrentEpoch d.currentEpoch
  (d.nodeToIndex size curNode).bind fun curIdx =>
    (dtls.addLock curIdx d.currentEpoch).map fun p => (p.1, false)

/-- `onFirstLock`, which does not look at the detector. -/
def onFirstLock (dtls : TLS) (node : ℕ) : Option (TLS × Bool) :=
  if dtls.bv ≠ ∅ then some (dtls, false)
  else if dtls.epoch ≠ 0 ∧ dtls.epoch = nodeToEpoch size node then
    (dtls.addLock (nodeToIndexUnchecked size node) (nodeToEpoch size node)).map fun p => (p.1, true)
  else some (dtls, false)

/-- `onUnlock`. -/
def onUnlock (dtls : TLS) (node : ℕ) : TLS :=
  if dtls.epoch = nodeToEpoch size node then dtls.removeLock (nodeToIndexUnchecked size node) else dtls

/-- `onLockFast`. -/
def Detector.onLockFast (d : Detector) (dtls : TLS) (node : ℕ) : Option (TLS × Bool) :=
  if d.hasAllEdges size dtls node then
    (dtls.addLock (nodeToIndexUnchecked size node) (nodeToEpoch size node)).map fun p => (p.1, true)
  else some (dtls, false)

end Size

/-! ## The two lists of a thread -/

theorem lastIndex_eq (l : List ℕ) (x n : ℕ) :
    (∃ i, lastIndex l x n = some i ∧ i < n ∧ l[i]? = some x) ∨
      lastIndex l x n = none ∧ ∀ i < n, l[i]? ≠ some x := by
  induction n with
  | zero => exact Or.inr ⟨rfl, by simp⟩
  | succ n ih =>
    unfold lastIndex
    by_cases h : l[n]? = some x
    · rw [if_pos h]
      exact Or.inl ⟨n, rfl, n.lt_succ_self, h⟩
    · rw [if_neg h]
      rcases ih with ⟨i, hi, hlt, hx⟩ | ⟨hnone, hall⟩
      · exact Or.inl ⟨i, hi, hlt.trans n.lt_succ_self, hx⟩
      · refine Or.inr ⟨hnone, fun i hi => ?_⟩
        rcases Nat.lt_succ_iff_lt_or_eq.mp hi with hi | rfl
        · exact hall i hi
        · exact h

/-- A list without the element at an index, where the last element takes its place. -/
theorem set_getLastD_dropLast_perm {α : Type} {l : List α} {i : ℕ} {x : α} (d : α)
    (h : l[i]? = some x) : (x :: (l.set i (l.getLastD d)).dropLast).Perm l := by
  rcases List.eq_nil_or_concat l with rfl | ⟨l', y, rfl⟩
  · simp at h
  rw [List.concat_eq_append] at h ⊢
  obtain ⟨hi, hx⟩ := List.getElem?_eq_some_iff.mp h
  rw [List.getLastD_concat]
  by_cases hlast : i < l'.length
  · rw [List.set_append_left _ _ hlast, List.dropLast_concat]
    rw [List.getElem_append_left hlast] at hx
    calc List.Perm (x :: l'.set i y) (x :: y :: l'.eraseIdx i) :=
          (List.set_perm_cons_eraseIdx hlast y).cons x
      List.Perm _ (y :: x :: l'.eraseIdx i) := List.Perm.swap y x _
      List.Perm _ (y :: l') := (hx ▸ List.getElem_cons_eraseIdx_perm hlast).cons y
      List.Perm _ (l' ++ [y]) := (List.perm_append_singleton y l').symm
  · -- the last element goes by itself
    obtain rfl : i = l'.length := by
      rw [List.length_append, List.length_singleton] at hi
      omega
    rw [List.set_append_right _ _ (le_refl _), Nat.sub_self, List.set_cons_zero,
      List.dropLast_concat]
    rw [List.getElem_concat_length rfl] at hx
    rw [← hx]
    exact (List.perm_append_singleton y l').symm

theorem swapRemove_perm {l : List ℕ} {i x : ℕ} (h : l[i]? = some x) :
    (x :: swapRemove l i).Perm l := set_getLastD_dropLast_perm 0 h

theorem lastIndex_cases (l : List ℕ) (x : ℕ) :
    (∃ i, lastIndex l x l.length = some i ∧ (x :: swapRemove l i).Perm l) ∨
      lastIndex l x l.length = none ∧ x ∉ l := by
  rcases lastIndex_eq l x l.length with ⟨i, hi, -, hx⟩ | ⟨hnone, hall⟩
  · exact Or.inl ⟨i, hi, swapRemove_perm hx⟩
  · refine Or.inr ⟨hnone, fun hmem => ?_⟩
    obtain ⟨i, hi, rfl⟩ := List.getElem_of_mem hmem
    exact hall i hi (List.getElem?_eq_getElem hi)

end Tasan.Deadlock
