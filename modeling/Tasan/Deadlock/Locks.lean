import Tasan.Deadlock.Model

/-!
# The locks that one thread holds

`TLS.Ok` compares the tables of a thread with the number of times that it holds each node: acquisitions
that have not been released. `addLock`, `removeLock` and `ensureCurrentEpoch` keep it. The last of them
forgets every lock of an earlier epoch, and there it loses nothing, since nodes of later epochs are
larger than all that the thread has acquired.
-/

namespace Tasan.Deadlock

/-- The lists agree with the set, and all of them with the number of acquisitions that have not been
released. -/
structure TLS.Ok (size : ℕ) (hold : ℕ → ℕ) (tls : TLS) : Prop where
  dvd : size ∣ tls.epoch
  lt_size : ∀ i ∈ tls.bv, i < size
  nodup : tls.allLocks.Nodup
  mem_allLocks : ∀ i, i ∈ tls.allLocks ↔ i ∈ tls.bv
  recursive_mem : ∀ i ∈ tls.recursiveLocks, i ∈ tls.bv
  hold_eq : ∀ i < size,
    hold (tls.epoch + i) = (if i ∈ tls.bv then 1 else 0) + tls.recursiveLocks.count i
  hold_later : ∀ n, tls.epoch + size ≤ n → hold n = 0

/-- The table into which `addLock` puts the lock has room. -/
def TLS.Fits (tls : TLS) (lockId : ℕ) : Prop :=
  if lockId ∈ tls.bv then tls.recursiveLocks.length < maxRecursiveLocks
  else tls.allLocks.length < maxAllLocks

section Thread

variable {size idx e : ℕ} {hold hold' : ℕ → ℕ} {tls : TLS}

theorem TLS.Ok.mem_bv_iff (h : tls.Ok size hold) (hidx : idx < size) :
    idx ∈ tls.bv ↔ 0 < hold (tls.epoch + idx) := by
  rw [h.hold_eq idx hidx]
  constructor
  · intro hmem
    rw [if_pos hmem]
    omega
  · intro hpos
    by_contra hmem
    have hcount : tls.recursiveLocks.count idx = 0 :=
      List.count_eq_zero_of_not_mem fun hrec => hmem (h.recursive_mem idx hrec)
    rw [if_neg hmem, hcount] at hpos
    exact absurd hpos (lt_irrefl 0)

theorem TLS.Ok.congr (h : tls.Ok size hold) (heq : ∀ n, tls.epoch ≤ n → hold' n = hold n) :
    tls.Ok size hold' where
  dvd := h.dvd
  lt_size := h.lt_size
  nodup := h.nodup
  mem_allLocks := h.mem_allLocks
  recursive_mem := h.recursive_mem
  hold_eq := fun i hi => by rw [heq _ (Nat.le_add_right _ _), h.hold_eq i hi]
  hold_later := fun n hn => by rw [heq n (by omega), h.hold_later n hn]

/-- `ensureCurrentEpoch` forgets the locks of an earlier epoch. -/
theorem TLS.Ok.ensureCurrentEpoch (h : tls.Ok size hold) (hle : tls.epoch ≤ e) (he : size ∣ e) :
    (tls.ensureCurrentEpoch e).Ok size hold ∧ (tls.ensureCurrentEpoch e).epoch = e := by
  unfold TLS.ensureCurrentEpoch
  by_cases heq : tls.epoch = e
  · rw [if_pos heq]
    exact ⟨h, heq⟩
  · rw [if_neg heq]
    have hlater : tls.epoch + size ≤ e := by
      obtain ⟨k, hk⟩ := h.dvd
      obtain ⟨l, rfl⟩ := he
      have hkl : k < l := by
        by_contra hnot
        have := Nat.mul_le_mul_left size (not_lt.mp hnot)
        omega
      calc tls.epoch + size = size * (k + 1) := by rw [hk]; ring
        _ ≤ size * l := Nat.mul_le_mul_left size hkl
    refine ⟨⟨he, ?_, List.nodup_nil, ?_, ?_, ?_, ?_⟩, rfl⟩
    · simp
    · simp
    · simp
    · intro i _
      rw [h.hold_later _ (hlater.trans (Nat.le_add_right e i))]
      simp
    · intro n hn
      exact h.hold_later n (hlater.trans ((Nat.le_add_right e size).trans hn))

theorem TLS.ensureCurrentEpoch_idem (tls : TLS) (e : ℕ) :
    (tls.ensureCurrentEpoch e).ensureCurrentEpoch e = tls.ensureCurrentEpoch e := by
  have hepoch : (tls.ensureCurrentEpoch e).epoch = e := by
    unfold TLS.ensureCurrentEpoch
    split
    · assumption
    · rfl
  rw [TLS.ensureCurrentEpoch, if_pos hepoch]

/-- `addLock` counts one acquisition more. -/
theorem TLS.Ok.addLock (h : tls.Ok size hold) (hidx : idx < size) (hfits : tls.Fits idx) :
    ∃ tls' first, tls.addLock idx tls.epoch = some (tls', first) ∧ tls'.epoch = tls.epoch ∧
      tls'.bv = insert idx tls.bv ∧
      tls'.Ok size (Function.update hold (tls.epoch + idx) (hold (tls.epoch + idx) + 1)) := by
  have hlater : ∀ n, tls.epoch + size ≤ n →
      Function.update hold (tls.epoch + idx) (hold (tls.epoch + idx) + 1) n = 0 := by
    intro n hn
    rw [Function.update_of_ne (by omega), h.hold_later n hn]
  unfold TLS.Fits at hfits
  unfold TLS.addLock
  rw [if_neg (not_not_intro rfl)]
  by_cases hmem : idx ∈ tls.bv
  · rw [if_pos hmem] at hfits ⊢
    rw [if_pos hfits]
    refine ⟨_, _, rfl, rfl, (Finset.insert_eq_of_mem hmem).symm, ?_⟩
    refine ⟨h.dvd, h.lt_size, h.nodup, h.mem_allLocks, ?_, ?_, hlater⟩
    · intro i hi
      rcases List.mem_append.mp hi with hi | hi
      · exact h.recursive_mem i hi
      · rw [List.mem_singleton.mp hi]
        exact hmem
    · intro i hi
      dsimp only
      rw [List.count_append, List.count_singleton]
      by_cases hii : i = idx
      · subst hii
        rw [Function.update_self, h.hold_eq i hi]
        simp [Nat.add_assoc]
      · rw [Function.update_of_ne (by omega), h.hold_eq i hi]
        simp [Ne.symm hii]
  · rw [if_neg hmem] at hfits ⊢
    rw [if_pos hfits]
    refine ⟨_, _, rfl, rfl, rfl, ?_⟩
    refine ⟨h.dvd, ?_, ?_, ?_, ?_, ?_, hlater⟩
    · intro i hi
      rcases Finset.mem_insert.mp hi with rfl | hi
      · exact hidx
      · exact h.lt_size i hi
    · refine List.nodup_append.mpr ⟨h.nodup, List.nodup_singleton idx, fun a ha b hb hab => ?_⟩
      rw [List.mem_singleton.mp hb] at hab
      exact hmem ((h.mem_allLocks idx).mp (hab ▸ ha))
    · intro i
      simp only [List.mem_append, List.mem_singleton, Finset.mem_insert, h.mem_allLocks i]
      exact or_comm
    · intro i hi
      exact Finset.mem_insert_of_mem (h.recursive_mem i hi)
    · intro i hi
      dsimp only
      by_cases hii : i = idx
      · subst hii
        rw [Function.update_self, h.hold_eq i hi, if_neg hmem,
          if_pos (Finset.mem_insert_self i tls.bv)]
        omega
      · rw [Function.update_of_ne (by omega), h.hold_eq i hi]
        simp [hii]

/-- `removeLock` counts one acquisition less. -/
theorem TLS.Ok.removeLock (h : tls.Ok size hold) (hidx : idx < size)
    (hpos : 0 < hold (tls.epoch + idx)) :
    (tls.removeLock idx).epoch = tls.epoch ∧ (tls.removeLock idx).bv ⊆ tls.bv ∧
      (tls.removeLock idx).Ok size
        (Function.update hold (tls.epoch + idx) (hold (tls.epoch + idx) - 1)) := by
  have hmem := (h.mem_bv_iff hidx).mpr hpos
  have hlater : ∀ n, tls.epoch + size ≤ n →
      Function.update hold (tls.epoch + idx) (hold (tls.epoch + idx) - 1) n = 0 := by
    intro n hn
    rw [Function.update_of_ne (by omega), h.hold_later n hn]
  unfold TLS.removeLock
  rcases lastIndex_cases tls.recursiveLocks idx with ⟨k, hk, hperm⟩ | ⟨hnone, hnot⟩
  · rw [hk]
    refine ⟨rfl, Finset.Subset.refl _, h.dvd, h.lt_size, h.nodup, h.mem_allLocks, ?_, ?_, hlater⟩
    · intro i hi
      exact h.recursive_mem i (hperm.subset (List.mem_cons_of_mem idx hi))
    · intro i hi
      have hcount := hperm.count_eq i
      dsimp only
      by_cases hii : i = idx
      · subst hii
        rw [List.count_cons_self] at hcount
        rw [Function.update_self, h.hold_eq i hi, ← hcount]
        exact Nat.add_sub_assoc (Nat.le_add_left 1 _) _
      · rw [List.count_cons_of_ne (Ne.symm hii)] at hcount
        rw [Function.update_of_ne (by omega), h.hold_eq i hi, hcount]
  · rw [hnone]
    dsimp only
    rw [if_pos hmem]
    -- the lock is in the list of all locks once, since it is in the set
    rcases lastIndex_cases tls.allLocks idx with ⟨k, hk, hperm⟩ | ⟨-, habsent⟩
    · rw [hk]
      have hnodup := hperm.nodup_iff.mpr h.nodup
      refine ⟨rfl, Finset.erase_subset _ _, h.dvd, ?_, hnodup.of_cons, ?_, ?_, ?_, hlater⟩
      · intro i hi
        exact h.lt_size i (Finset.mem_of_mem_erase hi)
      · intro i
        dsimp only
        rw [Finset.mem_erase, ← h.mem_allLocks i, ← hperm.mem_iff, List.mem_cons]
        constructor
        · intro hi
          exact ⟨fun hii => (List.nodup_cons.mp hnodup).1 (hii ▸ hi), Or.inr hi⟩
        · rintro ⟨hii, hi⟩
          exact hi.resolve_left hii
      · intro i hi
        exact Finset.mem_erase.mpr ⟨fun hii => hnot (hii ▸ hi), h.recursive_mem i hi⟩
      · intro i hi
        dsimp only
        by_cases hii : i = idx
        · subst hii
          have hcount : tls.recursiveLocks.count i = 0 := List.count_eq_zero_of_not_mem hnot
          rw [Function.update_self, h.hold_eq i hi, if_pos hmem, hcount]
          simp
        · rw [Function.update_of_ne (by omega), h.hold_eq i hi]
          simp [hii]
    · exact absurd ((h.mem_allLocks idx).mpr hmem) habsent

end Thread

end Tasan.Deadlock
