import Tasan.Deadlock.Model

/-!
# The locks of one thread with the stacks of their acquisitions

`DeadlockDetectorTLS` of `sanitizer_deadlock_detector.h` with all of its tables, in one epoch. `TLS`
leaves the stacks out; here `all_locks_with_contexts_` has them.

What the tables are compared with is the list of the acquisitions of each lock that have not been
released, `outstanding`. A release takes back the last of them, and a release of a lock that is not
held does nothing, which the code expects of locks that were acquired before a flush.
-/

namespace Tasan.Deadlock

/-! ## The code -/

/-- `DeadlockDetectorTLS`. -/
structure ContextTLS where
  /-- `bv_`: the indices of the locks that are held. -/
  bv : Finset ℕ
  epoch : ℕ
  /-- `recursive_locks`, the first `n_recursive_locks` of them. -/
  recursiveLocks : List ℕ
  /-- `all_locks_with_contexts_`, the first `n_all_locks_` of them: the lock and the stack. -/
  allLocks : List (ℕ × ℕ)
  deriving DecidableEq

/-- `clear` and `ensureCurrentEpoch`. -/
def ContextTLS.start (currentEpoch : ℕ) : ContextTLS := ⟨∅, currentEpoch, [], []⟩

/-- `addLock`, with whether this is the first acquisition. -/
def ContextTLS.addLock (tls : ContextTLS) (lockId currentEpoch stk : ℕ) : Option (ContextTLS × Bool) :=
  if tls.epoch ≠ currentEpoch then none
  else if lockId ∈ tls.bv then
    if tls.recursiveLocks.length < maxRecursiveLocks then
      some ({ tls with recursiveLocks := tls.recursiveLocks ++ [lockId] }, false)
    else none
  else if tls.allLocks.length < maxAllLocks then
    some ({ tls with
      bv := insert lockId tls.bv
      allLocks := tls.allLocks ++ [(lockId % 2^32, stk)] }, true)
  else none

/-- `Swap` with the last entry, which is then dropped. -/
def swapRemoveContext (l : List (ℕ × ℕ)) (i : ℕ) : List (ℕ × ℕ) :=
  (l.set i (l.getLastD (0, 0))).dropLast

/-- `removeLock`. -/
def ContextTLS.removeLock (tls : ContextTLS) (lockId : ℕ) : ContextTLS :=
  match lastIndex tls.recursiveLocks lockId tls.recursiveLocks.length with
  | some i => { tls with recursiveLocks := swapRemove tls.recursiveLocks i }
  | none =>
    if lockId ∈ tls.bv then
      match lastIndex (tls.allLocks.map Prod.fst) (lockId % 2^32) tls.allLocks.length with
      | some i =>
        { tls with bv := tls.bv.erase lockId, allLocks := swapRemoveContext tls.allLocks i }
      | none => { tls with bv := tls.bv.erase lockId }
    else tls  -- probably `addLock` happened before a flush

/-- `findLockContext`. -/
def ContextTLS.findLockContext (tls : ContextTLS) (lockId : ℕ) : ℕ :=
  match tls.allLocks.find? fun l => l.1 = lockId % 2^32 with
  | some l => l.2
  | none => 0

/-! ## Acquisitions and releases -/

/-- What a thread does with its locks. -/
inductive LockOp
  /-- A lock is acquired, on some stack. -/
  | acquire (lock stk : ℕ)
  /-- A lock is released. -/
  | release (lock : ℕ)
  deriving DecidableEq

/-- One call, in an epoch. -/
def ContextTLS.exec (epoch : ℕ) (tls : ContextTLS) : LockOp → Option ContextTLS
  | .acquire lock stk => (tls.addLock lock epoch stk).map Prod.fst
  | .release lock => some (tls.removeLock lock)

/-- A sequence of calls, in an epoch. -/
def ContextTLS.run (epoch : ℕ) (tls : ContextTLS) (ops : List LockOp) : Option ContextTLS :=
  ops.foldlM (ContextTLS.exec epoch) tls

/-- The stacks of the acquisitions of each lock that have not been released, after one more call. -/
def LockOp.apply (held : ℕ → List ℕ) : LockOp → ℕ → List ℕ
  | .acquire lock stk => Function.update held lock (held lock ++ [stk])
  | .release lock => Function.update held lock (held lock).dropLast

/-- The stacks of the acquisitions of each lock that have not been released, the first one first. -/
def outstanding (ops : List LockOp) : ℕ → List ℕ := ops.foldl LockOp.apply fun _ => []

/-- The number of acquisitions of locks that were held already. -/
def numRecursive (size : ℕ) (held : ℕ → List ℕ) : ℕ :=
  ∑ i ∈ Finset.range size, ((held i).length - 1)

/-- The number of locks that are held. -/
def numDistinct (size : ℕ) (held : ℕ → List ℕ) : ℕ :=
  ((Finset.range size).filter fun i => held i ≠ []).card

/-- The lock is one of the `size` locks, and there are fewer than 64 recursive acquisitions, or fewer
than 128 locks for one that is not held. -/
def LockOp.Room (size : ℕ) (held : ℕ → List ℕ) : LockOp → Prop
  | .acquire lock _ => lock < size ∧
      if held lock ≠ [] then numRecursive size held < maxRecursiveLocks
      else numDistinct size held < maxAllLocks
  | .release lock => lock < size

/-- The number of acquisitions of a lock. -/
def acquired (ops : List LockOp) (i : ℕ) : ℕ :=
  ops.countP fun op => match op with
    | .acquire lock _ => lock = i
    | .release _ => false

/-- The number of releases of a lock. -/
def released (ops : List LockOp) (i : ℕ) : ℕ := ops.count (.release i)

/-! ## The invariant -/

/-- The tables agree with the acquisitions that have not been released. -/
structure ContextTLS.Tracks (size : ℕ) (held : ℕ → List ℕ) (tls : ContextTLS) : Prop where
  /-- Locks are indices of bits. -/
  lt_size : ∀ i, held i ≠ [] → i < size
  /-- The bits of the locks that are held. -/
  mem_bv : ∀ i, i ∈ tls.bv ↔ held i ≠ []
  /-- Every lock is listed once. -/
  nodup : (tls.allLocks.map Prod.fst).Nodup
  /-- The locks that are held are listed with the stacks of their first acquisitions. -/
  mem_allLocks : ∀ i stk, (i, stk) ∈ tls.allLocks ↔ (held i).head? = some stk
  /-- All acquisitions but the first are listed. -/
  count_recursive : ∀ i, tls.recursiveLocks.count i = (held i).length - 1

variable {size : ℕ} {held : ℕ → List ℕ} {tls : ContextTLS}

theorem ContextTLS.Tracks.length_recursive (h : tls.Tracks size held) :
    tls.recursiveLocks.length = numRecursive size held := by
  have hsub : tls.recursiveLocks.toFinset ⊆ Finset.range size := by
    intro i hi
    have hpos := List.count_pos_iff.mpr (List.mem_toFinset.mp hi)
    rw [h.count_recursive i] at hpos
    rw [Finset.mem_range]
    apply h.lt_size i
    rintro hnil
    rw [hnil] at hpos
    exact absurd hpos (by simp)
  calc tls.recursiveLocks.length = ∑ i ∈ Finset.range size, tls.recursiveLocks.count i := by
        rw [← List.sum_toFinset_count_eq_length]
        refine Finset.sum_subset hsub fun i _ hi => ?_
        exact List.count_eq_zero.mpr fun hmem => hi (List.mem_toFinset.mpr hmem)
    _ = numRecursive size held := Finset.sum_congr rfl fun i _ => h.count_recursive i

theorem ContextTLS.Tracks.length_allLocks (h : tls.Tracks size held) :
    tls.allLocks.length = numDistinct size held := by
  have hset : (tls.allLocks.map Prod.fst).toFinset =
      (Finset.range size).filter fun i => held i ≠ [] := by
    ext i
    rw [List.mem_toFinset, List.mem_map, Finset.mem_filter, Finset.mem_range]
    constructor
    · rintro ⟨⟨j, stk⟩, hmem, rfl⟩
      have hhead := (h.mem_allLocks j stk).mp hmem
      have hne : held j ≠ [] := by
        intro hnil
        rw [hnil] at hhead
        exact absurd hhead (by simp)
      exact ⟨h.lt_size j hne, hne⟩
    · rintro ⟨-, hne⟩
      obtain ⟨stk, rest, hcons⟩ := List.exists_cons_of_ne_nil hne
      exact ⟨(i, stk), (h.mem_allLocks i stk).mpr (by rw [hcons]; rfl), rfl⟩
  rw [numDistinct, ← hset, List.toFinset_card_of_nodup h.nodup, List.length_map]

theorem ContextTLS.Tracks.mem_map_fst (h : tls.Tracks size held) (i : ℕ) :
    i ∈ tls.allLocks.map Prod.fst ↔ held i ≠ [] := by
  rw [List.mem_map]
  constructor
  · rintro ⟨⟨j, stk⟩, hmem, rfl⟩ hnil
    have hhead := (h.mem_allLocks j stk).mp hmem
    rw [hnil] at hhead
    exact absurd hhead (by simp)
  · intro hne
    obtain ⟨stk, rest, hcons⟩ := List.exists_cons_of_ne_nil hne
    exact ⟨(i, stk), (h.mem_allLocks i stk).mpr (by rw [hcons]; rfl), rfl⟩

theorem ContextTLS.start_tracks (size epoch : ℕ) :
    (ContextTLS.start epoch).Tracks size fun _ => [] where
  lt_size := fun i hi => absurd rfl hi
  mem_bv := by simp [ContextTLS.start]
  nodup := List.nodup_nil
  mem_allLocks := by simp [ContextTLS.start]
  count_recursive := by simp [ContextTLS.start]

/-- `addLock` lists one acquisition more. -/
theorem ContextTLS.Tracks.addLock (h : tls.Tracks size held) (hsize : size ≤ 2^32) {lock stk : ℕ}
    (hroom : (LockOp.acquire lock stk).Room size held) :
    ∃ tls' first, tls.addLock lock tls.epoch stk = some (tls', first) ∧ tls'.epoch = tls.epoch ∧
      tls'.Tracks size ((LockOp.acquire lock stk).apply held) := by
  obtain ⟨hlt, hroom⟩ := hroom
  have hnew : ∀ i, Function.update held lock (held lock ++ [stk]) i ≠ [] ↔
      i = lock ∨ held i ≠ [] := by
    intro i
    rcases eq_or_ne i lock with rfl | hne
    · simp
    · rw [Function.update_of_ne hne]
      simp [hne]
  have hlt' : ∀ i, Function.update held lock (held lock ++ [stk]) i ≠ [] → i < size := by
    intro i hi
    rcases (hnew i).mp hi with rfl | hi
    · exact hlt
    · exact h.lt_size i hi
  unfold ContextTLS.addLock
  rw [if_neg (not_not_intro rfl)]
  by_cases hmem : lock ∈ tls.bv
  · have hheld := (h.mem_bv lock).mp hmem
    rw [if_pos hheld, ← h.length_recursive] at hroom
    rw [if_pos hmem, if_pos hroom]
    refine ⟨_, _, rfl, rfl, hlt', fun i => ?_, h.nodup, fun i s => ?_, fun i => ?_⟩
    · rw [LockOp.apply, hnew, h.mem_bv]
      exact ⟨Or.inr, fun hi => hi.elim (fun hi => hi ▸ hheld) id⟩
    · rw [LockOp.apply, h.mem_allLocks]
      rcases eq_or_ne i lock with rfl | hne
      · obtain ⟨a, l, hcons⟩ := List.exists_cons_of_ne_nil hheld
        rw [Function.update_self, hcons]
        rfl
      · rw [Function.update_of_ne hne]
    · rw [LockOp.apply]
      dsimp only
      rw [List.count_append, List.count_singleton, h.count_recursive]
      rcases eq_or_ne i lock with rfl | hne
      · have hpos := List.length_pos_iff.mpr hheld
        rw [Function.update_self, List.length_append, List.length_singleton, if_pos (by simp)]
        omega
      · rw [Function.update_of_ne hne, if_neg (by simpa using hne.symm), Nat.add_zero]
  · have hfree : held lock = [] := by
      by_contra hne
      exact hmem ((h.mem_bv lock).mpr hne)
    rw [if_neg (not_not_intro hfree), ← h.length_allLocks] at hroom
    rw [if_neg hmem, if_pos hroom, Nat.mod_eq_of_lt (by omega)]
    refine ⟨_, _, rfl, rfl, hlt', fun i => ?_, ?_, fun i s => ?_, fun i => ?_⟩
    · rw [LockOp.apply, hnew, Finset.mem_insert, h.mem_bv]
    · dsimp only
      rw [List.map_append, List.map_singleton]
      refine List.nodup_append.mpr ⟨h.nodup, List.nodup_singleton lock, fun a ha b hb hab => ?_⟩
      have hlock : a = lock := hab.trans (List.mem_singleton.mp hb)
      exact (h.mem_map_fst lock).mp (hlock ▸ ha) hfree
    · rw [LockOp.apply]
      dsimp only
      rw [List.mem_append, List.mem_singleton, h.mem_allLocks, Prod.mk.injEq]
      rcases eq_or_ne i lock with rfl | hne
      · rw [Function.update_self, hfree]
        simp [eq_comm]
      · rw [Function.update_of_ne hne]
        simp [hne]
    · rw [LockOp.apply]
      dsimp only
      rw [h.count_recursive]
      rcases eq_or_ne i lock with rfl | hne
      · rw [Function.update_self, hfree]
        rfl
      · rw [Function.update_of_ne hne]

/-- `removeLock` takes the last acquisition back. -/
theorem ContextTLS.Tracks.removeLock (h : tls.Tracks size held) (hsize : size ≤ 2^32) {lock : ℕ}
    (hlt : lock < size) : (tls.removeLock lock).epoch = tls.epoch ∧
      (tls.removeLock lock).Tracks size ((LockOp.release lock).apply held) := by
  have hnew : ∀ i, Function.update held lock (held lock).dropLast i ≠ [] ↔
      held i ≠ [] ∧ (i = lock → 1 < (held lock).length) := by
    intro i
    rcases eq_or_ne i lock with rfl | hne
    · rw [Function.update_self, ← List.length_pos_iff, List.length_dropLast, ← List.length_pos_iff]
      constructor
      · intro hpos
        exact ⟨by omega, fun _ => by omega⟩
      · rintro ⟨-, hpos⟩
        have := hpos rfl
        omega
    · rw [Function.update_of_ne hne]
      exact ⟨fun hi => ⟨hi, fun hil => absurd hil hne⟩, And.left⟩
  have hlt' : ∀ i, Function.update held lock (held lock).dropLast i ≠ [] → i < size :=
    fun i hi => h.lt_size i ((hnew i).mp hi).1
  have hcount := h.count_recursive lock
  unfold ContextTLS.removeLock
  rcases lastIndex_cases tls.recursiveLocks lock with ⟨k, hk, hperm⟩ | ⟨hnone, hnot⟩
  · -- A recursive acquisition: the lock stays held.
    have htwo : 1 < (held lock).length := by
      have hpos : 0 < tls.recursiveLocks.count lock :=
        List.count_pos_iff.mpr (hperm.subset List.mem_cons_self)
      omega
    rw [hk]
    refine ⟨rfl, hlt', fun i => ?_, h.nodup, fun i s => ?_, fun i => ?_⟩
    · rw [LockOp.apply, hnew, h.mem_bv]
      exact ⟨fun hi => ⟨hi, fun _ => htwo⟩, And.left⟩
    · rw [LockOp.apply, h.mem_allLocks]
      rcases eq_or_ne i lock with rfl | hne
      · have hne : held i ≠ [] := List.length_pos_iff.mp (by omega)
        obtain ⟨a, l, hcons⟩ := List.exists_cons_of_ne_nil hne
        rw [Function.update_self]
        rw [hcons, List.length_cons] at htwo
        rw [hcons, List.dropLast_cons_of_ne_nil (List.length_pos_iff.mp (by omega))]
        rfl
      · rw [Function.update_of_ne hne]
    · have hc := hperm.count_eq i
      rw [LockOp.apply]
      dsimp only
      rcases eq_or_ne i lock with rfl | hne
      · rw [List.count_cons_self] at hc
        rw [Function.update_self, List.length_dropLast]
        omega
      · rw [List.count_cons_of_ne hne.symm] at hc
        rw [Function.update_of_ne hne, hc, h.count_recursive]
  · have hzero : tls.recursiveLocks.count lock = 0 := List.count_eq_zero.mpr hnot
    have hone : (held lock).length ≤ 1 := by omega
    have hnil : (held lock).dropLast = [] := by
      rw [← List.length_eq_zero_iff, List.length_dropLast]
      omega
    have hrest : ∀ i, tls.recursiveLocks.count i =
        (Function.update held lock (held lock).dropLast i).length - 1 := by
      intro i
      rcases eq_or_ne i lock with rfl | hne
      · rw [Function.update_self, hnil, hzero]
        rfl
      · rw [Function.update_of_ne hne, h.count_recursive]
    have hbv : ∀ i, Function.update held lock (held lock).dropLast i ≠ [] ↔
        i ≠ lock ∧ held i ≠ [] := by
      intro i
      rw [hnew i]
      constructor
      · rintro ⟨hi, hil⟩
        exact ⟨fun hil' => absurd (hil hil') (by omega), hi⟩
      · rintro ⟨hne, hi⟩
        exact ⟨hi, fun hil => absurd hil hne⟩
    rw [hnone]
    dsimp only
    by_cases hmem : lock ∈ tls.bv
    · rw [if_pos hmem, Nat.mod_eq_of_lt (by omega)]
      have hin : lock ∈ tls.allLocks.map Prod.fst :=
        (h.mem_map_fst lock).mpr ((h.mem_bv lock).mp hmem)
      have hlen : (tls.allLocks.map Prod.fst).length = tls.allLocks.length := List.length_map _
      rw [← hlen]
      rcases lastIndex_eq (tls.allLocks.map Prod.fst) lock (tls.allLocks.map Prod.fst).length with
        ⟨k, hk, -, hx⟩ | ⟨-, hall⟩
      · -- The entry of the lock goes, and no other entry is of this lock.
        rw [hk]
        rw [List.getElem?_map] at hx
        obtain ⟨⟨j, stk⟩, hget, rfl⟩ := Option.map_eq_some_iff.mp hx
        have hperm : ((j, stk) :: swapRemoveContext tls.allLocks k).Perm tls.allLocks :=
          set_getLastD_dropLast_perm (0, 0) hget
        have hnodup := (hperm.map Prod.fst).nodup_iff.mpr h.nodup
        rw [List.map_cons, List.nodup_cons] at hnodup
        refine ⟨rfl, hlt', fun i => ?_, hnodup.2, fun i s => ?_, hrest⟩
        · rw [LockOp.apply, hbv, Finset.mem_erase, h.mem_bv]
        · rw [LockOp.apply]
          dsimp only
          rcases eq_or_ne i j with rfl | hne
          · rw [Function.update_self, hnil]
            refine iff_of_false (fun hin' => hnodup.1 ?_) (by simp)
            exact List.mem_map.mpr ⟨(i, s), hin', rfl⟩
          · rw [Function.update_of_ne hne, ← h.mem_allLocks, ← hperm.mem_iff, List.mem_cons,
              Prod.mk.injEq]
            exact ⟨Or.inr, fun hi => hi.resolve_left fun hij => hne hij.1⟩
      · obtain ⟨k, hk, hget⟩ := List.getElem_of_mem hin
        exact absurd (by rw [List.getElem?_eq_getElem hk, hget]) (hall k hk)
    · -- The lock is not held.
      have hfree : held lock = [] := by
        by_contra hne
        exact hmem ((h.mem_bv lock).mpr hne)
      have hsame : Function.update held lock (held lock).dropLast = held := by
        rw [hfree, List.dropLast_nil, ← hfree, Function.update_eq_self]
      rw [if_neg hmem, LockOp.apply, hsame]
      exact ⟨rfl, h⟩

/-! ## Sequences of calls -/

theorem outstanding_append (ops : List LockOp) (op : LockOp) :
    outstanding (ops ++ [op]) = op.apply (outstanding ops) := by
  rw [outstanding, List.foldl_append]
  rfl

/-- A sequence for which there is room does not fail, and the tables agree with what is outstanding. -/
theorem ContextTLS.run_tracks (hsize : size ≤ 2^32) (epoch : ℕ) (ops : List LockOp)
    (hroom : ∀ pre op post, ops = pre ++ op :: post → op.Room size (outstanding pre)) :
    ∃ tls, (ContextTLS.start epoch).run epoch ops = some tls ∧ tls.epoch = epoch ∧
      tls.Tracks size (outstanding ops) := by
  induction ops using List.reverseRecOn with
  | nil => exact ⟨_, rfl, rfl, ContextTLS.start_tracks size epoch⟩
  | append_singleton ops op ih =>
    obtain ⟨tls, hrun, hepoch, htracks⟩ := ih fun pre op' post h =>
      hroom pre op' (post ++ [op]) (by rw [h]; simp)
    have hop := hroom ops op [] rfl
    rw [outstanding_append]
    rw [ContextTLS.run] at hrun
    cases op with
    | acquire lock stk =>
      obtain ⟨tls', first, hadd, hepoch', htracks'⟩ := htracks.addLock hsize hop
      rw [hepoch] at hadd hepoch'
      refine ⟨tls', ?_, hepoch', htracks'⟩
      rw [ContextTLS.run, List.foldlM_append, hrun]
      simp [ContextTLS.exec, hadd]
    | release lock =>
      obtain ⟨hepoch', htracks'⟩ := htracks.removeLock hsize hop
      refine ⟨tls.removeLock lock, ?_, hepoch'.trans hepoch, htracks'⟩
      rw [ContextTLS.run, List.foldlM_append, hrun]
      simp [ContextTLS.exec]

theorem acquired_append (ops : List LockOp) (op : LockOp) (i : ℕ) :
    acquired (ops ++ [op]) i = acquired ops i + match op with
      | .acquire lock _ => if lock = i then 1 else 0
      | .release _ => 0 := by
  rw [acquired, List.countP_append, ← acquired]
  cases op with
  | acquire lock stk => by_cases h : lock = i <;> simp [h]
  | release lock => simp

theorem released_append (ops : List LockOp) (op : LockOp) (i : ℕ) :
    released (ops ++ [op]) i = released ops i + match op with
      | .acquire _ _ => 0
      | .release lock => if lock = i then 1 else 0 := by
  rw [released, List.count_append, ← released]
  cases op with
  | acquire lock stk => simp
  | release lock => by_cases h : lock = i <;> simp [h]

/-- If no lock is released that is not held, what is outstanding is the difference. -/
theorem length_outstanding (ops : List LockOp) (i : ℕ)
    (hmatched : ∀ pre, pre <+: ops → released pre i ≤ acquired pre i) :
    (outstanding ops i).length + released ops i = acquired ops i := by
  induction ops using List.reverseRecOn with
  | nil => rfl
  | append_singleton ops op ih =>
    have hih := ih fun pre hpre => hmatched pre (hpre.trans (List.prefix_append ops [op]))
    have hnow := hmatched _ (List.prefix_refl _)
    rw [acquired_append, released_append] at hnow ⊢
    rw [outstanding_append]
    cases op with
    | acquire lock stk =>
      rw [LockOp.apply]
      dsimp only at hnow ⊢
      rcases eq_or_ne lock i with rfl | hne
      · rw [Function.update_self, List.length_append, List.length_singleton, if_pos rfl]
        omega
      · rw [Function.update_of_ne hne.symm, if_neg hne]
        omega
    | release lock =>
      rw [LockOp.apply]
      dsimp only at hnow ⊢
      rcases eq_or_ne lock i with rfl | hne
      · rw [if_pos rfl] at hnow ⊢
        rw [Function.update_self, List.length_dropLast]
        omega
      · rw [Function.update_of_ne hne.symm, if_neg hne]
        omega

theorem ContextTLS.Tracks.findLockContext (h : tls.Tracks size held) (hsize : size ≤ 2^32) {i : ℕ}
    (hi : i < size) : tls.findLockContext i = (held i).head?.getD 0 := by
  rw [ContextTLS.findLockContext, Nat.mod_eq_of_lt (by omega)]
  cases hfind : tls.allLocks.find? fun l => l.1 = i with
  | some l =>
    obtain ⟨j, stk⟩ := l
    have hj : j = i := by simpa using List.find?_some hfind
    rw [(h.mem_allLocks i stk).mp (hj ▸ List.mem_of_find?_eq_some hfind)]
    rfl
  | none =>
    have hnone : held i = [] := by
      by_contra hne
      obtain ⟨l, hl, hli⟩ := List.mem_map.mp ((h.mem_map_fst i).mpr hne)
      exact absurd hli (by simpa using List.find?_eq_none.mp hfind l hl)
    rw [hnone]
    rfl

/-- The tables of a thread after acquisitions and releases in one epoch, in any order: a bit is set if
and only if the lock has an acquisition that has not been released; every lock that is held is listed
once, with the stack of the first of these acquisitions; and `recursive_locks` has one entry for each
other one. If no lock is released that is not held, these are the locks that have been acquired more
often than released, and `recursive_locks` has the surplus. -/
theorem contextTLS_tracks (size : ℕ) (hsize : size ≤ 2^32) (epoch : ℕ) (ops : List LockOp)
    (hroom : ∀ pre op post, ops = pre ++ op :: post → op.Room size (outstanding pre)) :
    ∃ tls, (ContextTLS.start epoch).run epoch ops = some tls ∧
      (∀ i, i ∈ tls.bv ↔ outstanding ops i ≠ []) ∧
      (tls.allLocks.map Prod.fst).Nodup ∧
      (∀ i stk, (i, stk) ∈ tls.allLocks ↔ (outstanding ops i).head? = some stk) ∧
      (∀ i < size, tls.findLockContext i = (outstanding ops i).head?.getD 0) ∧
      (∀ i, tls.recursiveLocks.count i = (outstanding ops i).length - 1) ∧
      ∀ i, (∀ pre, pre <+: ops → released pre i ≤ acquired pre i) →
        (i ∈ tls.bv ↔ released ops i < acquired ops i) ∧
        tls.recursiveLocks.count i = acquired ops i - released ops i - 1 := by
  obtain ⟨tls, hrun, -, h⟩ := ContextTLS.run_tracks hsize epoch ops hroom
  refine ⟨tls, hrun, h.mem_bv, h.nodup, h.mem_allLocks, fun i hi => h.findLockContext hsize hi,
    h.count_recursive, fun i hmatched => ?_⟩
  have hlen := length_outstanding ops i hmatched
  rw [h.mem_bv i, ← List.length_pos_iff, h.count_recursive i]
  constructor
  · omega
  · omega

/-- A lock that is acquired twice and released once is held, with the stack of its first
acquisition. -/
theorem contextTLS_tracks_recursive : ∃ tls,
    (ContextTLS.start 64).run 64 [.acquire 3 7, .acquire 3 8, .release 3] = some tls ∧
      3 ∈ tls.bv ∧ (3, 7) ∈ tls.allLocks := by
  have hroom : ∀ pre op post,
      [LockOp.acquire 3 7, .acquire 3 8, .release 3] = pre ++ op :: post →
        op.Room 64 (outstanding pre) := by
    intro pre op post h
    rcases pre with _ | ⟨a, _ | ⟨b, _ | ⟨c, _ | ⟨d, pre⟩⟩⟩⟩
    all_goals
      simp only [List.nil_append, List.cons_append, List.cons.injEq] at h
    · obtain ⟨rfl, -⟩ := h
      exact ⟨by norm_num, by decide⟩
    · obtain ⟨rfl, rfl, -⟩ := h
      exact ⟨by norm_num, by decide⟩
    · obtain ⟨rfl, rfl, rfl, -⟩ := h
      exact (by norm_num : 3 < 64)
    · simp at h
    · simp at h
  obtain ⟨tls, hrun, hbv, -, hall, -⟩ := contextTLS_tracks 64 (by norm_num) 64
    [.acquire 3 7, .acquire 3 8, .release 3] hroom
  exact ⟨tls, hrun, (hbv 3).mpr (by decide), (hall 3 7).mpr (by decide)⟩

/-- A lock that is released when it is not held and then acquired: its bit is set, although it has
been acquired as often as it has been released. -/
theorem not_tracks_unmatched_release : ∃ tls,
    (ContextTLS.start 64).run 64 [.release 3, .acquire 3 7] = some tls ∧ 3 ∈ tls.bv ∧
      ¬ released [.release 3, .acquire 3 7] 3 < acquired [.release 3, .acquire 3 7] 3 :=
  ⟨⟨{3}, 64, [], [(3, 7)]⟩, by decide, by decide, by decide⟩

end Tasan.Deadlock
