import Mathlib.Tactic

/-!
# The pool of reported program counters

`SuppressErrorReport` of `asan_report.cpp`, by any number of calls at the same time. A call looks for its `pc`
from the first slot of the pool on, and takes the first free slot that it comes to by a compare-exchange. When
that fails, it goes on with what another call has stored there.

No slot changes after it is taken, and none is taken before those in front of it. So a call knows of each slot
that it has passed that it holds another `pc` for ever (`Inv.passed`). If two calls had stored the same `pc`,
the one in the later slot would have passed the other slot; and a call that has passed all slots has seen as
many other program counters as there are slots.
-/

namespace Tasan.BuggyPcPool

/-- `kAsanBuggyPcPoolSize`. -/
def kAsanBuggyPcPoolSize : ℕ := 25

/-- What a call does next. -/
inductive Call
  /-- It loads a slot, unless that is behind the pool. -/
  | load (i : ℕ)
  /-- It exchanges a slot that it has seen free. -/
  | exchange (i : ℕ)
  /-- It has returned. -/
  | returned (b : Bool)
  /-- It has called `Die`. -/
  | died
  deriving DecidableEq

/-- The end of a turn of the loop, with what `cmp` is then. -/
def compare (pc cmp i : ℕ) : Call := if cmp = pc then .returned true else .load (i + 1)

/-- One atomic step of a call. -/
def advance (pc : ℕ) (pool : ℕ → ℕ) : Call → (ℕ → ℕ) × Call
  | .load i =>
    if i < kAsanBuggyPcPoolSize then
      if pool i = 0 then (pool, .exchange i) else (pool, compare pc (pool i) i)
    else (pool, .died)
  | .exchange i =>
    if pool i = 0 then (Function.update pool i pc, .returned false)
    else (pool, compare pc (pool i) i)
  | c => (pool, c)

/-- `SuppressErrorReport` before its first atomic step. -/
def start (suppressEqualPcs : Bool) : Call := if !suppressEqualPcs then .returned false else .load 0

/-- The most atomic steps that a call still takes. -/
def remaining : Call → ℕ
  | .load i => 2 * (kAsanBuggyPcPoolSize - i) + 1
  | .exchange i => 2 * (kAsanBuggyPcPoolSize - i)
  | _ => 0

variable {ι : Type} [DecidableEq ι]

/-- The pool, and the calls. -/
structure State (ι : Type) where
  /-- `AsanBuggyPcPool`. -/
  pool : ℕ → ℕ
  /-- The calls. -/
  calls : ι → Call

/-- Before the first step. -/
def State.init (ι : Type) : State ι where
  pool := fun _ => 0
  calls := fun _ => start true

/-- A step of one call. -/
def State.step (pc : ι → ℕ) (s : State ι) (j : ι) : State ι where
  pool := (advance (pc j) s.pool (s.calls j)).1
  calls := Function.update s.calls j (advance (pc j) s.pool (s.calls j)).2

/-- The states of all interleavings. -/
inductive Reachable (pc : ι → ℕ) : State ι → Prop
  /-- Before the first step. -/
  | init : Reachable pc (.init ι)
  /-- A step of any call. -/
  | step {s : State ι} (h : Reachable pc s) (j : ι) : Reachable pc (s.step pc j)

/-! ## The invariant -/

/-- The slot that a call looks at. -/
def Call.slot : Call → Option ℕ
  | .load i => some i
  | .exchange i => some i
  | _ => none

/-- What holds between any two steps. -/
structure Inv (pc : ι → ℕ) (s : State ι) : Prop where
  /-- A slot that is taken is in the pool, and was taken by a call that returned false. -/
  taken : ∀ k, s.pool k ≠ 0 →
    k < kAsanBuggyPcPoolSize ∧ ∃ j, pc j = s.pool k ∧ s.calls j = .returned false
  /-- Slots are taken in order. -/
  full : ∀ k k', k' < k → s.pool k ≠ 0 → s.pool k' ≠ 0
  /-- No two slots hold the same. -/
  distinct : ∀ k k', s.pool k ≠ 0 → s.pool k = s.pool k' → k = k'
  /-- A call has passed slots that hold something else. -/
  passed : ∀ j i, (s.calls j).slot = some i →
    i ≤ kAsanBuggyPcPoolSize ∧ ∀ k < i, s.pool k ≠ 0 ∧ s.pool k ≠ pc j
  /-- A slot that is exchanged is in the pool. -/
  exchange : ∀ j i, s.calls j = .exchange i → i < kAsanBuggyPcPoolSize
  /-- A call that has returned knows where its program counter is. -/
  found : ∀ j b, s.calls j = .returned b → ∃ k, s.pool k = pc j
  /-- One call has returned false for a program counter. -/
  unique : ∀ j j', s.calls j = .returned false → s.calls j' = .returned false → pc j = pc j' → j = j'
  /-- No call has died. -/
  alive : ∀ j, s.calls j ≠ .died

variable {pc : ι → ℕ} {s : State ι}

omit [DecidableEq ι] in
theorem Inv.init (pc : ι → ℕ) : Inv pc (.init ι) where
  taken _ h := absurd rfl h
  full _ _ _ h := absurd rfl h
  distinct _ _ h := absurd rfl h
  passed j i h := by
    obtain rfl : 0 = i := Option.some.inj h
    exact ⟨Nat.zero_le _, fun k hk => absurd hk (Nat.not_lt_zero k)⟩
  exchange _ _ h := Call.noConfusion h
  found _ _ h := Call.noConfusion h
  unique _ _ h := Call.noConfusion h
  alive _ h := Call.noConfusion h

/-- A call moves on, and the pool stays as it is. -/
theorem Inv.move (h : Inv pc s) {j : ι} {c : Call} (hslot : (s.calls j).slot ≠ none)
    (hpassed : ∀ i, c.slot = some i →
      i ≤ kAsanBuggyPcPoolSize ∧ ∀ k < i, s.pool k ≠ 0 ∧ s.pool k ≠ pc j)
    (hexchange : ∀ i, c = .exchange i → i < kAsanBuggyPcPoolSize)
    (hfound : ∀ b, c = .returned b → b = true ∧ ∃ k, s.pool k = pc j) (halive : c ≠ .died) :
    Inv pc ⟨s.pool, Function.update s.calls j c⟩ := by
  -- the call has not returned false before, and does not do so now
  have hfalse : ∀ j', Function.update s.calls j c j' = .returned false ↔
      s.calls j' = .returned false := by
    intro j'
    rcases eq_or_ne j' j with rfl | hne
    · rw [Function.update_self]
      refine iff_of_false (fun hc => Bool.noConfusion (hfound false hc).1) fun hc => hslot ?_
      rw [hc]
      rfl
    · rw [Function.update_of_ne hne]
  have hcases : ∀ j', (j' = j ∧ Function.update s.calls j c j' = c) ∨
      Function.update s.calls j c j' = s.calls j' := by
    intro j'
    rcases eq_or_ne j' j with rfl | hne
    · exact Or.inl ⟨rfl, Function.update_self ..⟩
    · exact Or.inr (Function.update_of_ne hne ..)
  constructor
  · intro k hk
    obtain ⟨hlt, j', hpc, hret⟩ := h.taken k hk
    exact ⟨hlt, j', hpc, (hfalse j').mpr hret⟩
  · exact h.full
  · exact h.distinct
  · intro j' i hi
    obtain ⟨rfl, hc⟩ | hold := hcases j'
    · exact hpassed i (hc ▸ hi)
    · exact h.passed j' i (hold ▸ hi)
  · intro j' i hi
    obtain ⟨rfl, hc⟩ | hold := hcases j'
    · exact hexchange i (hc ▸ hi)
    · exact h.exchange j' i (hold ▸ hi)
  · intro j' b hb
    obtain ⟨rfl, hc⟩ | hold := hcases j'
    · exact (hfound b (hc ▸ hb)).2
    · exact h.found j' b (hold ▸ hb)
  · exact fun j₁ j₂ h₁ h₂ => h.unique j₁ j₂ ((hfalse j₁).mp h₁) ((hfalse j₂).mp h₂)
  · intro j' hd
    obtain ⟨rfl, hc⟩ | hold := hcases j'
    · exact halive (hc ▸ hd)
    · exact h.alive j' (hold ▸ hd)

theorem Inv.compare (h : Inv pc s) {j : ι} {i : ℕ} (hslot : (s.calls j).slot = some i)
    (hi : i < kAsanBuggyPcPoolSize) (htaken : s.pool i ≠ 0) :
    Inv pc ⟨s.pool, Function.update s.calls j (compare (pc j) (s.pool i) i)⟩ := by
  have hsome : (s.calls j).slot ≠ none := by
    rw [hslot]
    exact Option.some_ne_none i
  unfold BuggyPcPool.compare
  split_ifs with hpc
  · exact h.move hsome (fun _ hc => absurd hc.symm (Option.some_ne_none _)) (fun _ hc => Call.noConfusion hc)
      (fun b hb => ⟨(Call.returned.inj hb).symm, i, hpc⟩) Call.noConfusion
  · refine h.move hsome (fun i' hi' => ?_) (fun _ hc => Call.noConfusion hc)
      (fun _ hc => Call.noConfusion hc) Call.noConfusion
    obtain rfl : i + 1 = i' := Option.some.inj hi'
    refine ⟨hi, fun k hk => ?_⟩
    rcases Nat.lt_succ_iff_lt_or_eq.mp hk with hlt | rfl
    · exact (h.passed j i hslot).2 k hlt
    · exact ⟨htaken, hpc⟩

omit [DecidableEq ι] in
theorem Inv.absent (h : Inv pc s) {j : ι} {i : ℕ} (hpc : pc j ≠ 0) (hslot : (s.calls j).slot = some i)
    (hfree : s.pool i = 0) (k : ℕ) : s.pool k ≠ pc j := by
  intro hk
  rcases lt_trichotomy k i with hlt | rfl | hlt
  · exact ((h.passed j i hslot).2 k hlt).2 hk
  · exact hpc (hk.symm.trans hfree)
  · exact h.full k i hlt (hk ▸ hpc) hfree

/-- A call takes a slot. -/
theorem Inv.take (h : Inv pc s) (hpc : ∀ j, pc j ≠ 0) {j : ι} {i : ℕ} (hcall : s.calls j = .exchange i)
    (hfree : s.pool i = 0) :
    Inv pc ⟨Function.update s.pool i (pc j), Function.update s.calls j (.returned false)⟩ := by
  have hslot : (s.calls j).slot = some i := by rw [hcall]; rfl
  have habsent := h.absent (hpc j) hslot hfree
  have hi := h.exchange j i hcall
  -- slots and calls afterwards
  have hpool : ∀ k, (k = i ∧ Function.update s.pool i (pc j) k = pc j) ∨
      k ≠ i ∧ Function.update s.pool i (pc j) k = s.pool k := by
    intro k
    rcases eq_or_ne k i with rfl | hne
    · exact Or.inl ⟨rfl, Function.update_self ..⟩
    · exact Or.inr ⟨hne, Function.update_of_ne hne ..⟩
  have hkeep : ∀ k, s.pool k ≠ 0 → Function.update s.pool i (pc j) k = s.pool k := by
    intro k hk
    obtain ⟨rfl, -⟩ | ⟨-, hold⟩ := hpool k
    · exact absurd hfree hk
    · exact hold
  have hcalls : ∀ j', (j' = j ∧ Function.update s.calls j (.returned false) j' = .returned false) ∨
      j' ≠ j ∧ Function.update s.calls j (.returned false) j' = s.calls j' := by
    intro j'
    rcases eq_or_ne j' j with rfl | hne
    · exact Or.inl ⟨rfl, Function.update_self ..⟩
    · exact Or.inr ⟨hne, Function.update_of_ne hne ..⟩
  constructor
  · intro k hk
    obtain ⟨rfl, hnew⟩ | ⟨-, hold⟩ := hpool k
    · exact ⟨hi, j, hnew.symm, Function.update_self ..⟩
    · dsimp only at hk ⊢
      rw [hold] at hk ⊢
      obtain ⟨hlt, j', hpc', hret⟩ := h.taken k hk
      refine ⟨hlt, j', hpc', ?_⟩
      obtain ⟨-, hnew⟩ | ⟨-, hold'⟩ := hcalls j'
      · exact hnew
      · exact hold'.trans hret
  · -- the slots in front of the new one have been passed
    intro k k' hlt hk
    have hold : s.pool k' ≠ 0 ∨ k' = i := by
      obtain ⟨rfl, -⟩ | ⟨-, hold⟩ := hpool k
      · exact Or.inl ((h.passed j k hslot).2 k' hlt).1
      · exact Or.inl (h.full k k' hlt (hold ▸ hk))
    dsimp only
    obtain ⟨-, hnew⟩ | ⟨hne, hsame⟩ := hpool k'
    · rw [hnew]
      exact hpc j
    · rw [hsame]
      exact hold.resolve_right hne
  · intro k k' hk heq
    dsimp only at hk heq
    obtain ⟨rfl, hnew⟩ | ⟨-, hold⟩ := hpool k <;> obtain ⟨rfl, hnew'⟩ | ⟨-, hold'⟩ := hpool k'
    · rfl
    · exact absurd (hold'.symm.trans (heq.symm.trans hnew)) (habsent k')
    · exact absurd (hold.symm.trans (heq.trans hnew')) (habsent k)
    · exact h.distinct k k' (hold ▸ hk) (hold.symm.trans (heq.trans hold'))
  · intro j' i' hslot'
    obtain ⟨-, hnew⟩ | ⟨-, hold⟩ := hcalls j'
    · dsimp only at hslot'
      rw [hnew] at hslot'
      exact absurd hslot'.symm (Option.some_ne_none _)
    · obtain ⟨hle, hpassed⟩ := h.passed j' i' (hold ▸ hslot')
      refine ⟨hle, fun k hk => ?_⟩
      dsimp only
      rw [hkeep k (hpassed k hk).1]
      exact hpassed k hk
  · intro j' i' hcall'
    obtain ⟨-, hnew⟩ | ⟨-, hold⟩ := hcalls j'
    · exact Call.noConfusion (hnew.symm.trans hcall')
    · exact h.exchange j' i' (hold.symm.trans hcall')
  · intro j' b hret
    obtain ⟨rfl, -⟩ | ⟨-, hold⟩ := hcalls j'
    · exact ⟨i, Function.update_self ..⟩
    · obtain ⟨k, hk⟩ := h.found j' b (hold.symm.trans hret)
      obtain ⟨rfl, -⟩ | ⟨-, hsame⟩ := hpool k
      · -- the slot was free
        exact absurd (hk.symm.trans hfree) (hpc j')
      · exact ⟨k, hsame.trans hk⟩
  · -- the program counter was nowhere in the pool, and so no call had returned for it
    have hothers : ∀ j', s.calls j' = .returned false → pc j' ≠ pc j := by
      intro j' hret heq
      obtain ⟨k, hk⟩ := h.found j' false hret
      exact habsent k (hk.trans heq)
    intro j₁ j₂ h₁ h₂ heq
    obtain ⟨rfl, -⟩ | ⟨-, hold₁⟩ := hcalls j₁ <;> obtain ⟨rfl, -⟩ | ⟨-, hold₂⟩ := hcalls j₂
    · rfl
    · exact absurd heq.symm (hothers j₂ (hold₂.symm.trans h₂))
    · exact absurd heq (hothers j₁ (hold₁.symm.trans h₁))
    · exact h.unique j₁ j₂ (hold₁.symm.trans h₁) (hold₂.symm.trans h₂) heq
  · intro j' hdied
    obtain ⟨-, hnew⟩ | ⟨-, hold⟩ := hcalls j'
    · exact Call.noConfusion (hnew.symm.trans hdied)
    · exact h.alive j' (hold.symm.trans hdied)

/-! ## Runs -/

omit [DecidableEq ι] in
theorem Inv.mem_of_full (h : Inv pc s) {pcs : Finset ℕ} (hpcs : ∀ j, pc j ∈ pcs)
    (hcard : pcs.card ≤ kAsanBuggyPcPoolSize) (hfull : ∀ k < kAsanBuggyPcPoolSize, s.pool k ≠ 0) (j : ι) :
    ∃ k < kAsanBuggyPcPoolSize, s.pool k = pc j := by
  have hsub : (Finset.range kAsanBuggyPcPoolSize).image s.pool ⊆ pcs := by
    intro v hv
    obtain ⟨k, hk, rfl⟩ := Finset.mem_image.mp hv
    obtain ⟨-, j', hpc, -⟩ := h.taken k (hfull k (Finset.mem_range.mp hk))
    exact hpc ▸ hpcs j'
  have hinj : Set.InjOn s.pool (Finset.range kAsanBuggyPcPoolSize) := fun k hk k' _ heq =>
    h.distinct k k' (hfull k (Finset.mem_range.mp hk)) heq
  have hall : (Finset.range kAsanBuggyPcPoolSize).image s.pool = pcs := by
    refine Finset.eq_of_subset_of_card_le hsub ?_
    rw [Finset.card_image_of_injOn hinj, Finset.card_range]
    exact hcard
  obtain ⟨k, hk, hpc⟩ := Finset.mem_image.mp (hall.symm ▸ hpcs j)
  exact ⟨k, Finset.mem_range.mp hk, hpc⟩

variable {pcs : Finset ℕ} (hne : ∀ j, pc j ≠ 0) (hpcs : ∀ j, pc j ∈ pcs)
  (hcard : pcs.card ≤ kAsanBuggyPcPoolSize)
include hne hpcs hcard

/-- One step keeps the invariant. -/
theorem Inv.step (h : Inv pc s) (j : ι) : Inv pc (s.step pc j) := by
  unfold State.step
  cases hcall : s.calls j with
  | load i =>
    have hslot : (s.calls j).slot = some i := by rw [hcall]; rfl
    rw [advance]
    by_cases hi : i < kAsanBuggyPcPoolSize
    · rw [if_pos hi]
      by_cases hfree : s.pool i = 0
      · rw [if_pos hfree]
        refine h.move ?_ (fun i' hi' => ?_) (fun i' hi' => ?_) (fun _ hc => Call.noConfusion hc)
          Call.noConfusion
        · rw [hslot]
          exact Option.some_ne_none i
        · obtain rfl : i = i' := Option.some.inj hi'
          exact h.passed j i hslot
        · obtain rfl := Call.exchange.inj hi'
          exact hi
      · rw [if_neg hfree]
        exact h.compare hslot hi hfree
    · -- the call has passed all slots without finding its program counter
      obtain ⟨hle, hpassed⟩ := h.passed j i hslot
      obtain ⟨k, hk, hpc⟩ := h.mem_of_full hpcs hcard (fun k hk => (hpassed k (by omega)).1) j
      exact absurd hpc (hpassed k (by omega)).2
  | exchange i =>
    have hslot : (s.calls j).slot = some i := by rw [hcall]; rfl
    rw [advance]
    by_cases hfree : s.pool i = 0
    · rw [if_pos hfree]
      exact h.take hne hcall hfree
    · rw [if_neg hfree]
      exact h.compare hslot (h.exchange j i hcall) hfree
  | returned b =>
    have hsame : Function.update s.calls j (.returned b) = s.calls := by
      rw [← hcall, Function.update_eq_self]
    rw [advance, hsame]
    exact h
    all_goals exact fun _ hc => Call.noConfusion hc
  | died => exact absurd hcall (h.alive j)

theorem Reachable.inv (h : Reachable pc s) : Inv pc s := by
  induction h with
  | init => exact .init pc
  | step _ j ih => exact ih.step hne hpcs hcard j

omit hne hpcs hcard in
/-- A step of a call that runs uses up what remains of it. -/
theorem remaining_step (h : Inv pc s) {j : ι} (hrun : (s.calls j).slot ≠ none) :
    remaining ((s.step pc j).calls j) < remaining (s.calls j) := by
  have hcompare : ∀ cmp i, i < kAsanBuggyPcPoolSize →
      remaining (compare (pc j) cmp i) < 2 * (kAsanBuggyPcPoolSize - i) := by
    intro cmp i hi
    unfold compare
    split_ifs
    · change 0 < _
      omega
    · change 2 * (kAsanBuggyPcPoolSize - (i + 1)) + 1 < _
      omega
  unfold State.step
  dsimp only
  rw [Function.update_self]
  cases hcall : s.calls j with
  | load i =>
    rw [advance]
    by_cases hi : i < kAsanBuggyPcPoolSize
    · rw [if_pos hi]
      split_ifs
      · exact Nat.lt_succ_self _
      · exact (hcompare _ i hi).trans (Nat.lt_succ_self _)
    · rw [if_neg hi]
      exact Nat.succ_pos _
  | exchange i =>
    have hi := h.exchange j i hcall
    rw [advance]
    split_ifs
    · change 0 < 2 * (kAsanBuggyPcPoolSize - i)
      omega
    · exact hcompare _ i hi
  | returned b => exact absurd (by rw [hcall]; rfl) hrun
  | died => exact absurd (by rw [hcall]; rfl) hrun

/-- Calls with at most as many program counters as there are slots, none of them zero. In every state that
they reach, no call has died and no two slots hold the same program counter; and for each program counter for
which a call has returned, exactly one call has returned false, so that the others have returned true or still
run. Each step of a call that runs brings it closer to its end. -/
theorem suppress_once (h : Reachable pc s) :
    (∀ j, s.calls j ≠ .died) ∧
    (∀ k k', s.pool k ≠ 0 → s.pool k = s.pool k' → k = k') ∧
    (∀ j b, s.calls j = .returned b → ∃! j', pc j' = pc j ∧ s.calls j' = .returned false) ∧
    ∀ j, (∃ b, s.calls j = .returned b) ∨
      remaining ((s.step pc j).calls j) < remaining (s.calls j) := by
  have hinv := h.inv hne hpcs hcard
  refine ⟨hinv.alive, hinv.distinct, fun j b hret => ?_, fun j => ?_⟩
  · obtain ⟨k, hk⟩ := hinv.found j b hret
    obtain ⟨-, j', hpc, hfalse⟩ := hinv.taken k (hk ▸ hne j)
    refine ⟨j', ⟨hpc.trans hk, hfalse⟩, ?_⟩
    rintro j₂ ⟨hpc₂, hfalse₂⟩
    exact hinv.unique j₂ j' hfalse₂ hfalse (hpc₂.trans (hpc.trans hk).symm)
  · cases hcall : s.calls j with
    | load i => exact Or.inr (hcall ▸ remaining_step hinv (by rw [hcall]; exact Option.some_ne_none i))
    | exchange i => exact Or.inr (hcall ▸ remaining_step hinv (by rw [hcall]; exact Option.some_ne_none i))
    | returned b => exact Or.inl ⟨b, rfl⟩
    | died => exact absurd hcall (hinv.alive j)

omit hne hpcs hcard in
/-- Two calls with one program counter, of which both have seen the first slot free: the second one fails to
exchange it, and returns true. -/
theorem suppress_once_race :
    Reachable (fun _ : Bool => 7)
        (((((State.init Bool).step (fun _ => 7) false).step (fun _ => 7) true).step (fun _ => 7) false).step
          (fun _ => 7) true) ∧
      ∀ s, Reachable (fun _ : Bool => 7) s → ∀ j, s.calls j ≠ .died :=
  ⟨.step (.step (.step (.step .init false) true) false) true, fun s h =>
    (@suppress_once Bool _ (fun _ => 7) s {7} (fun _ => by norm_num) (fun _ => Finset.mem_singleton_self 7)
      (by decide) h).1⟩

end Tasan.BuggyPcPool
