import Mathlib
import Tasan.LFStack.Model

/-!
# The runs of the lock-free stack

`Memory` says what the stack looks like in memory and what the threads know of it. The nodes on the stack
belong to no thread, so that only the thread of a node writes its `next`. A thread in `Pop` knows the `next`
of the first node as long as nothing has been pushed since it loaded the head: without a push, a node that is
on the stack has been there ever since. Its compare-exchange compares the counter too, and fewer than `2^17`
pushes bring no counter back; so when it succeeds, what the thread knows is still right.

`Calls` says that the order in which the calls take effect linearizes the history. A `Push` and a `Pop` of a
node take effect when the compare-exchange succeeds, and a `Pop` that finds the stack empty does when it loads
the head.
-/

namespace Tasan.LFStack

open Linearizable

/-- The nodes of a stack, from the first one on. -/
def Linked (next : Word → Word) : Word → List Word → Prop
  | top, [] => top = 0
  | top, p :: s => top = p ∧ p ≠ 0 ∧ p.toNat < 2^47 ∧ Linked next (next p) s

theorem Linked.toNat_lt {next : Word → Word} {top : Word} {s : List Word} (h : Linked next top s) :
    top.toNat < 2^47 := by
  cases s with
  | nil =>
    obtain rfl : top = 0 := h
    decide
  | cons p s =>
    obtain ⟨rfl, -, hlt, -⟩ := h
    exact hlt

theorem Linked.congr {next next' : Word → Word} {top : Word} {s : List Word} (h : Linked next top s)
    (hnext : ∀ p ∈ s, next' p = next p) : Linked next' top s := by
  induction s generalizing top with
  | nil => exact h
  | cons p s ih =>
    obtain ⟨htop, hne, hlt, hrest⟩ := h
    refine ⟨htop, hne, hlt, ?_⟩
    rw [hnext p List.mem_cons_self]
    exact ih hrest fun q hq => hnext q (List.mem_cons_of_mem p hq)

theorem Linked.eq_nil_iff {next : Word → Word} {top : Word} {s : List Word} (h : Linked next top s) :
    s = [] ↔ top = 0 := by
  cases s with
  | nil => exact iff_of_true rfl h
  | cons p s => exact iff_of_false nofun fun htop => h.2.1 (h.1.symm.trans htop)

variable {Thread : Type} {w w' : World Thread}

/-! ## The memory -/

/-- A node of a thread, which may be pushed. -/
structure World.Owns (w : World Thread) (t : Thread) (p : Word) : Prop where
  /-- The node belongs to the thread. -/
  owner : w.owner p = some t
  /-- It is not null. -/
  ne : p ≠ 0
  /-- Its address has 47 bits. -/
  lt : p.toNat < 2^47

/-- A head that a thread has loaded. -/
structure World.Loaded (w : World Thread) (t : Thread) (cmp : Word) : Prop where
  /-- When it has been loaded. -/
  since_le : w.since t ≤ w.pushes
  /-- It had the counter of that time. -/
  head : ∃ q, q.toNat < 2^47 ∧ cmp = q ||| counter (w.since t)

/-- What a thread knows of the stack. -/
def World.Knows (w : World Thread) (t : Thread) : Pc → Prop
  | .idle | .pushed | .popLoad | .popped _ => True
  | .pushLoad p | .pushStore p _ => w.Owns t p
  | .pushCas p cmp => w.Owns t p ∧ w.next p = cmp &&& kPtrMask
  | .popRead cmp => w.Loaded t cmp
  | .popCas cmp nxt => w.Loaded t cmp ∧ cmp &&& kPtrMask ≠ 0 ∧
      (w.pushes = w.since t → cmp &&& kPtrMask ∈ w.stack → w.next (cmp &&& kPtrMask) = nxt)

/-- The stack in memory, and what the threads know of it. -/
structure Memory (w : World Thread) : Prop where
  /-- The head holds the pointer to the first node and the counter. -/
  head : ∃ top, w.head = top ||| counter w.pushes ∧ Linked w.next top w.stack
  /-- A node is on the stack once. -/
  nodup : w.stack.Nodup
  /-- The nodes on the stack belong to no thread. -/
  unowned : ∀ p ∈ w.stack, w.owner p = none
  /-- What the threads know. -/
  knows : ∀ t, w.Knows t (w.pc t)

/-- What a step of `t` leaves to the other threads. -/
structure Others (w w' : World Thread) (t : Thread) : Prop where
  /-- They stay where they are. -/
  pc : ∀ u ≠ t, w'.pc u = w.pc u
  /-- They have not loaded the head. -/
  since : ∀ u ≠ t, w'.since u = w.since u
  /-- They keep their nodes. -/
  owner : ∀ u ≠ t, ∀ p, w.owner p = some u → w'.owner p = some u
  /-- Only a node of `t` is written. -/
  next : ∀ p, w.owner p ≠ some t → w'.next p = w.next p
  /-- The number of pushes grows. -/
  pushes_le : w.pushes ≤ w'.pushes
  /-- Without a push, no node is put on the stack. -/
  stack : w'.pushes = w.pushes → ∀ p ∈ w'.stack, p ∈ w.stack

/-- The other threads know what they have known. -/
theorem Memory.knows_others (h : Memory w) {t : Thread} {v : Pc} (hothers : Others w w' t)
    (hv : w'.pc t = v) (ht : w'.Knows t v) (u : Thread) : w'.Knows u (w'.pc u) := by
  rcases eq_or_ne u t with rfl | hu
  · rwa [hv]
  have hknows := h.knows u
  rw [hothers.pc u hu]
  -- A node of `u` is not written, and a loaded head stays one.
  have howns : ∀ p, w.Owns u p → w'.Owns u p ∧ w'.next p = w.next p := fun p hp =>
    ⟨⟨hothers.owner u hu p hp.owner, hp.ne, hp.lt⟩, hothers.next p fun heq =>
      hu (Option.some.inj (hp.owner.symm.trans heq))⟩
  have hloaded : ∀ cmp, w.Loaded u cmp → w'.Loaded u cmp := fun cmp hcmp => by
    refine ⟨?_, ?_⟩
    · rw [hothers.since u hu]
      exact hcmp.since_le.trans hothers.pushes_le
    · rw [hothers.since u hu]
      exact hcmp.head
  cases hpc : w.pc u with
  | idle => trivial
  | pushed => trivial
  | popLoad => trivial
  | popped r => trivial
  | pushLoad p =>
    rw [hpc] at hknows
    exact (howns p hknows).1
  | pushStore p cmp =>
    rw [hpc] at hknows
    exact (howns p hknows).1
  | pushCas p cmp =>
    rw [hpc] at hknows
    exact ⟨(howns p hknows.1).1, (howns p hknows.1).2.trans hknows.2⟩
  | popRead cmp =>
    rw [hpc] at hknows
    exact hloaded cmp hknows
  | popCas cmp nxt =>
    rw [hpc] at hknows
    obtain ⟨hload, hne, hnext⟩ := hknows
    refine ⟨hloaded cmp hload, hne, fun hpushes hmem => ?_⟩
    rw [hothers.since u hu] at hpushes
    have hsame : w'.pushes = w.pushes :=
      le_antisymm (hpushes.le.trans hload.since_le) hothers.pushes_le
    have hold := hothers.stack hsame _ hmem
    -- The node is on the stack, and so it does not belong to `t`.
    rw [hothers.next _ (by rw [h.unowned _ hold]; exact nofun)]
    exact hnext (hsame.symm.trans hpushes) hold

theorem Memory.keep (h : Memory w) {t : Thread} {v : Pc} (hothers : Others w w' t)
    (hv : w'.pc t = v) (ht : w'.Knows t v) (hhead : w'.head = w.head) (hpushes : w'.pushes = w.pushes)
    (hstack : w'.stack = w.stack) (howner : ∀ p, w.owner p = none → w'.owner p = none) :
    Memory w' where
  head := by
    obtain ⟨top, htop, hlinked⟩ := h.head
    refine ⟨top, by rw [hhead, hpushes, htop], ?_⟩
    rw [hstack]
    refine hlinked.congr fun p hp => hothers.next p ?_
    rw [h.unowned p hp]
    exact nofun
  nodup := by
    rw [hstack]
    exact h.nodup
  unowned p hp := by
    rw [hstack] at hp
    exact howner p (h.unowned p hp)
  knows := h.knows_others hothers hv ht

theorem Memory.goOn [DecidableEq Thread] (h : Memory w) {t : Thread} {v : Pc}
    (hpc : w'.pc = Function.update w.pc t v) (hsince : ∀ u ≠ t, w'.since u = w.since u)
    (howner : w'.owner = w.owner) (hnext : w'.next = w.next) (hhead : w'.head = w.head)
    (hpushes : w'.pushes = w.pushes) (hstack : w'.stack = w.stack) (ht : w'.Knows t v) :
    Memory w' := by
  have hothers : Others w w' t :=
    { pc := fun u hu => by rw [hpc, Function.update_of_ne hu]
      since := hsince
      owner := fun u _ p hp => by rwa [howner]
      next := fun p _ => by rw [hnext]
      pushes_le := hpushes.ge
      stack := fun _ p hp => by rwa [hstack] at hp }
  refine h.keep hothers ?_ ht hhead hpushes hstack fun p hp => ?_
  · rw [hpc, Function.update_self]
  · rwa [howner]

theorem Memory.loaded [DecidableEq Thread] (h : Memory w) {t : Thread} {lin : List (Entry Op Res)} :
    ({ w with
      pc := Function.update w.pc t (.popRead w.head)
      since := Function.update w.since t w.pushes
      lin := lin } : World Thread).Loaded t w.head where
  since_le := by
    dsimp only
    rw [Function.update_self]
  head := by
    obtain ⟨top, htop, hlinked⟩ := h.head
    refine ⟨top, hlinked.toNat_lt, ?_⟩
    dsimp only
    rw [Function.update_self]
    exact htop

/-- When the compare-exchange of a `Pop` succeeds, the pointer is that to the first node, and `nxt` that to
the next one. -/
theorem Memory.first (h : Memory w) {t : Thread} {nxt : Word} (hpc : w.pc t = .popCas w.head nxt)
    (hfew : w.pushes < w.since t + 2^17) :
    ∃ s, w.stack = (w.head &&& kPtrMask) :: s ∧ Linked w.next nxt s := by
  obtain ⟨top, htop, hlinked⟩ := h.head
  have hknows := h.knows t
  rw [hpc] at hknows
  obtain ⟨hload, hne, hnext⟩ := hknows
  obtain ⟨q, hq, hcmp⟩ := hload.head
  have hptr : w.head &&& kPtrMask = top := by
    rw [htop]
    exact or_counter_and_kPtrMask hlinked.toNat_lt _
  rw [hptr] at hne hnext ⊢
  -- The counter is the same, and so nothing has been pushed.
  obtain ⟨-, hcounter⟩ := or_counter_inj hlinked.toNat_lt hq (htop.symm.trans hcmp)
  have hsame := eq_of_counter_eq hcounter hload.since_le hfew
  cases hs : w.stack with
  | nil =>
    rw [hs] at hlinked
    exact absurd hlinked hne
  | cons p s =>
    rw [hs] at hlinked hnext
    obtain ⟨rfl, -, -, hrest⟩ := hlinked
    refine ⟨s, rfl, ?_⟩
    rwa [hnext hsame List.mem_cons_self] at hrest

theorem Memory.push (h : Memory w) {t : Thread} {p : Word} (hpc : w.pc t = .pushCas p w.head) :
    ∃ top, p ||| ((w.head &&& kCounterMask) + kCounterInc) = top ||| counter (w.pushes + 1) ∧
      Linked w.next top (p :: w.stack) := by
  obtain ⟨top, htop, hlinked⟩ := h.head
  have hknows := h.knows t
  rw [hpc] at hknows
  obtain ⟨howns, hnext⟩ := hknows
  refine ⟨p, ?_, rfl, howns.ne, howns.lt, ?_⟩
  · rw [htop, or_counter_and_kCounterMask hlinked.toNat_lt, counter_succ]
  · rwa [hnext, htop, or_counter_and_kPtrMask hlinked.toNat_lt]

/-- Each step keeps the stack in memory. -/
theorem Memory.step [DecidableEq Thread] (h : Memory w) (hstep : Step w w') : Memory w' := by
  have hne : ∀ {α : Type} (f : Thread → α) (t : Thread) (v : α), ∀ u ≠ t,
      Function.update f t v u = f u := fun f t v u hu => Function.update_of_ne hu v f
  cases hstep with
  | callPush t p hpc howner hne0 hlt =>
    exact h.goOn rfl (fun _ _ => rfl) rfl rfl rfl rfl rfl ⟨howner, hne0, hlt⟩
  | pushLoad t p hpc =>
    have hknows := h.knows t
    rw [hpc] at hknows
    exact h.goOn rfl (fun _ _ => rfl) rfl rfl rfl rfl rfl ⟨hknows.owner, hknows.ne, hknows.lt⟩
  | pushStore t p cmp hpc =>
    have hknows := h.knows t
    rw [hpc] at hknows
    refine h.keep (t := t) ⟨hne _ _ _, fun _ _ => rfl, fun _ _ _ hp => hp, fun q hq => ?_, le_rfl,
      fun _ _ hp => hp⟩ (Function.update_self ..)
      ⟨⟨hknows.owner, hknows.ne, hknows.lt⟩, Function.update_self ..⟩ rfl rfl rfl fun _ hp => hp
    refine Function.update_of_ne (fun heq => hq ?_) _ _
    rw [heq]
    exact hknows.owner
  | pushCas t p cmp hpc hcmp =>
    subst hcmp
    have hknows := h.knows t
    rw [hpc] at hknows
    have hnotin : p ∉ w.stack := fun hmem => nomatch (h.unowned p hmem).symm.trans hknows.1.owner
    exact
      { head := h.push hpc
        nodup := List.nodup_cons.mpr ⟨hnotin, h.nodup⟩
        unowned := fun q hq => by
          rcases List.mem_cons.mp hq with rfl | hq
          · exact Function.update_self ..
          · refine (Function.update_of_ne (fun heq => hnotin ?_) _ _).trans (h.unowned q hq)
            rwa [← heq]
        knows := by
          refine h.knows_others (t := t) ⟨hne _ _ _, fun _ _ => rfl, fun u hu q hq => ?_, fun _ _ => rfl,
            Nat.le_succ _, fun heq => absurd heq (Nat.succ_ne_self _)⟩ (Function.update_self ..) trivial
          refine (Function.update_of_ne (fun heq => hu ?_) _ _).trans hq
          rw [heq] at hq
          exact Option.some.inj (hq.symm.trans hknows.1.owner) }
  | pushFail t p cmp hpc =>
    have hknows := h.knows t
    rw [hpc] at hknows
    exact h.goOn rfl (fun _ _ => rfl) rfl rfl rfl rfl rfl
      ⟨hknows.1.owner, hknows.1.ne, hknows.1.lt⟩
  | returnPush t hpc => exact h.goOn (t := t) rfl (fun _ _ => rfl) rfl rfl rfl rfl rfl trivial
  | callPop t hpc => exact h.goOn (t := t) rfl (fun _ _ => rfl) rfl rfl rfl rfl rfl trivial
  | popLoad t hpc => exact h.goOn rfl (hne _ _ _) rfl rfl rfl rfl rfl h.loaded
  | popNull t cmp hpc hcur => exact h.goOn (t := t) rfl (fun _ _ => rfl) rfl rfl rfl rfl rfl trivial
  | popRead t cmp hpc hcur =>
    have hknows := h.knows t
    rw [hpc] at hknows
    exact h.goOn rfl (fun _ _ => rfl) rfl rfl rfl rfl rfl
      ⟨⟨hknows.since_le, hknows.head⟩, hcur, fun _ _ => rfl⟩
  | popCas t cmp nxt hpc hcmp hfew =>
    subst hcmp
    obtain ⟨s, hs, hlinked⟩ := h.first hpc hfew
    obtain ⟨top, htop, hlinked₀⟩ := h.head
    have hnodup := h.nodup
    rw [hs, List.nodup_cons] at hnodup
    exact
      { head := ⟨nxt, by
          dsimp only
          rw [htop, or_counter_and_kCounterMask hlinked₀.toNat_lt], by
          dsimp only
          rwa [hs]⟩
        nodup := by
          dsimp only
          rw [hs]
          exact hnodup.2
        unowned := fun q hq => by
          dsimp only at hq ⊢
          rw [hs, List.tail_cons] at hq
          have hnone := h.unowned q (by rw [hs]; exact List.mem_cons_of_mem _ hq)
          refine (Function.update_of_ne (fun heq => hnodup.1 ?_) _ _).trans hnone
          rwa [← heq]
        knows := by
          refine h.knows_others (t := t) ⟨hne _ _ _, fun _ _ => rfl, fun u _ q hq => ?_, fun _ _ => rfl,
            le_rfl, fun _ q hq => List.mem_of_mem_tail hq⟩ (Function.update_self ..) trivial
          -- The node that is popped belongs to no thread.
          refine (Function.update_of_ne (fun heq => ?_) _ _).trans hq
          have hnone := h.unowned q (by rw [hs, heq]; exact List.mem_cons_self)
          exact nomatch hnone.symm.trans hq }
  | popFail t cmp nxt hpc => exact h.goOn rfl (hne _ _ _) rfl rfl rfl rfl rfl h.loaded
  | returnPop t r hpc => exact h.goOn (t := t) rfl (fun _ _ => rfl) rfl rfl rfl rfl rfl trivial
  | reuse t p v hpc howner =>
    refine h.keep (t := t) ⟨fun _ _ => rfl, fun _ _ => rfl, fun _ _ _ hp => hp, fun q hq => ?_, le_rfl,
      fun _ _ hp => hp⟩ hpc trivial rfl rfl rfl fun _ hp => hp
    refine Function.update_of_ne (fun heq => hq ?_) _ _
    rwa [heq]
  | give t u p hpc howner =>
    refine h.keep (t := t) ⟨fun _ _ => rfl, fun _ _ => rfl, fun v hv q hq => ?_, fun _ _ => rfl, le_rfl,
      fun _ _ hp => hp⟩ hpc trivial rfl rfl rfl fun q hq => ?_
    · refine (Function.update_of_ne (fun heq => hv ?_) _ _).trans hq
      rw [heq] at hq
      exact Option.some.inj (hq.symm.trans howner)
    · refine (Function.update_of_ne (fun heq => ?_) _ _).trans hq
      rw [heq] at hq
      exact nomatch hq.symm.trans howner

/-! ## The calls -/

/-- A call that has not taken effect. -/
def Open (h : List (Event Op Res)) (lin : List (Entry Op Res)) (i : ℕ) (op : Op) : Prop :=
  .call i op ∈ h ∧ i ∉ lin.map Entry.id

/-- A call that has taken effect. -/
def Done (lin : List (Entry Op Res)) (i : ℕ) (r : Res) : Prop := ∃ e ∈ lin, e.id = i ∧ e.res = r

/-- How far the call `i` is. -/
def Progress (h : List (Event Op Res)) (lin : List (Entry Op Res)) (i : ℕ) : Pc → Prop
  | .idle => True
  | .pushLoad p | .pushStore p _ | .pushCas p _ => Open h lin i (.push p)
  | .pushed => Done lin i .pushed
  | .popLoad | .popCas _ _ => Open h lin i .pop
  | .popRead cmp => if cmp &&& kPtrMask = 0 then Done lin i (.popped none) else Open h lin i .pop
  | .popped r => Done lin i (.popped r)

/-- A call is where it was when others are made and take effect. -/
theorem Progress.mono {h h' : List (Event Op Res)} {lin lin' : List (Entry Op Res)} {i : ℕ} {v : Pc}
    (hv : Progress h lin i v) (hh : ∀ op, .call i op ∈ h → .call i op ∈ h') (hlin : ∀ e ∈ lin, e ∈ lin')
    (hid : i ∈ lin'.map Entry.id → i ∈ lin.map Entry.id) : Progress h' lin' i v := by
  have hopen : ∀ op, Open h lin i op → Open h' lin' i op :=
    fun op ho => ⟨hh op ho.1, fun hmem => ho.2 (hid hmem)⟩
  have hdone : ∀ r, Done lin i r → Done lin' i r := fun r ⟨e, he, hr⟩ => ⟨e, hlin e he, hr⟩
  cases v with
  | idle => trivial
  | pushed => exact hdone _ hv
  | popped r => exact hdone _ hv
  | popLoad => exact hopen _ hv
  | popCas cmp nxt => exact hopen _ hv
  | pushLoad p => exact hopen _ hv
  | pushStore p cmp => exact hopen _ hv
  | pushCas p cmp => exact hopen _ hv
  | popRead cmp =>
    change if _ then _ else _ at hv
    change if _ then _ else _
    split_ifs at hv ⊢
    · exact hdone _ hv
    · exact hopen _ hv

/-- The calls, and the order in which they take effect. -/
structure Calls (w : World Thread) : Prop where
  /-- The order linearizes the history. -/
  lin : Linearizes StackStep [] w.history w.lin w.stack
  /-- The numbers of the calls. -/
  lt : ∀ i op, .call i op ∈ w.history → i < w.calls
  /-- The threads that are in a call. -/
  called : ∀ t, w.pc t ≠ .idle → ∃ op, .call (w.id t) op ∈ w.history
  /-- Different threads are in different calls. -/
  id_inj : ∀ t u, w.pc t ≠ .idle → w.pc u ≠ .idle → w.id t = w.id u → t = u
  /-- How far they are. -/
  progress : ∀ t, Progress w.history w.lin (w.id t) (w.pc t)

theorem Calls.fresh (h : Calls w) : w.calls ∉ w.lin.map Entry.id := by
  intro hmem
  obtain ⟨e, he, hid⟩ := List.mem_map.mp hmem
  exact absurd (h.lt _ _ (h.lin.called e he)) (by rw [hid]; exact lt_irrefl _)

/-- A thread calls an operation. -/
theorem Calls.call [DecidableEq Thread] (h : Calls w) {t : Thread} {v : Pc} (op : Op)
    (hpc : w'.pc = Function.update w.pc t v) (hid : w'.id = Function.update w.id t w.calls)
    (hcalls : w'.calls = w.calls + 1) (hhist : w'.history = w.history ++ [.call w.calls op])
    (hlin : w'.lin = w.lin) (hstack : w'.stack = w.stack)
    (hv : Open w'.history w'.lin w.calls op → Progress w'.history w'.lin w.calls v) : Calls w' := by
  have hother : ∀ u, u ≠ t → w'.pc u = w.pc u ∧ w'.id u = w.id u := fun u hu => by
    rw [hpc, hid, Function.update_of_ne hu, Function.update_of_ne hu]
    exact ⟨rfl, rfl⟩
  have hself : w'.pc t = v ∧ w'.id t = w.calls := by
    rw [hpc, hid, Function.update_self, Function.update_self]
    exact ⟨rfl, rfl⟩
  have hsub : ∀ e ∈ w.history, e ∈ w'.history := fun e he => by
    rw [hhist]
    exact List.mem_append_left _ he
  have hnew : .call w.calls op ∈ w'.history := by
    rw [hhist]
    exact List.mem_append_right _ List.mem_cons_self
  -- No other thread is in the call.
  have hne : ∀ u, u ≠ t → w'.pc u ≠ .idle → w'.id u ≠ w.calls := fun u hu hactive heq => by
    rw [(hother u hu).1] at hactive
    obtain ⟨op', hop⟩ := h.called u hactive
    rw [(hother u hu).2] at heq
    exact absurd (h.lt _ _ hop) (by rw [heq]; exact lt_irrefl _)
  refine ⟨?_, fun i op' hi => ?_, fun u hactive => ?_, fun u u' hu hu' heq => ?_, fun u => ?_⟩
  · rw [hhist, hlin, hstack]
    exact h.lin.call _ _ h.fresh
  · rw [hhist] at hi
    rw [hcalls]
    rcases List.mem_append.mp hi with hi | hi
    · exact (h.lt i op' hi).trans (Nat.lt_succ_self _)
    · obtain ⟨rfl, -⟩ := Event.call.inj (List.mem_singleton.mp hi)
      exact Nat.lt_succ_self _
  · rcases eq_or_ne u t with rfl | hut
    · rw [hself.2]
      exact ⟨op, hnew⟩
    · rw [(hother u hut).1] at hactive
      obtain ⟨op', hop⟩ := h.called u hactive
      rw [(hother u hut).2]
      exact ⟨op', hsub _ hop⟩
  · rcases eq_or_ne u t with rfl | hut
    · by_contra hne'
      exact hne u' (Ne.symm hne') hu' (heq.symm.trans hself.2)
    · rcases eq_or_ne u' t with rfl | hut'
      · exact absurd (heq.trans hself.2) (hne u hut hu)
      · rw [(hother u hut).1] at hu
        rw [(hother u' hut').1] at hu'
        rw [(hother u hut).2, (hother u' hut').2] at heq
        exact h.id_inj u u' hu hu' heq
  · rcases eq_or_ne u t with rfl | hut
    · rw [hself.1, hself.2]
      refine hv ⟨hnew, ?_⟩
      rw [hlin]
      exact h.fresh
    · rw [(hother u hut).1, (hother u hut).2]
      exact (h.progress u).mono (fun op => hsub _) (fun e he => by rwa [hlin]) fun hmem => by rwa [hlin] at hmem

/-- A thread goes on in its call, or returns. -/
theorem Calls.goOn [DecidableEq Thread] (h : Calls w) {t : Thread} {v : Pc}
    (hpc : w'.pc = Function.update w.pc t v) (hid : w'.id = w.id) (hcalls : w'.calls = w.calls)
    (hactive : w.pc t ≠ .idle)
    (hhist : ∀ i op, .call i op ∈ w'.history ↔ .call i op ∈ w.history)
    (hlin : Linearizes StackStep [] w'.history w'.lin w'.stack)
    (hsub : ∀ e ∈ w.lin, e ∈ w'.lin)
    (hmem : ∀ i, i ≠ w.id t → i ∈ w'.lin.map Entry.id → i ∈ w.lin.map Entry.id)
    (hv : Progress w'.history w'.lin (w.id t) v) : Calls w' := by
  have hself : w'.pc t = v := by rw [hpc, Function.update_self]
  have hother : ∀ u, u ≠ t → w'.pc u = w.pc u := fun u hu => by rw [hpc, Function.update_of_ne hu]
  -- The threads that are in a call were in it before.
  have hold : ∀ u, w'.pc u ≠ .idle → w.pc u ≠ .idle := fun u hu => by
    rcases eq_or_ne u t with rfl | hut
    · exact hactive
    · rwa [hother u hut] at hu
  refine ⟨hlin, fun i op hi => ?_, fun u hu => ?_, fun u u' hu hu' heq => ?_, fun u => ?_⟩
  · rw [hcalls]
    exact h.lt i op ((hhist i op).mp hi)
  · rw [hid]
    exact (h.called u (hold u hu)).imp fun op hop => (hhist _ op).mpr hop
  · rw [hid] at heq
    exact h.id_inj u u' (hold u hu) (hold u' hu') heq
  · rw [hid]
    rcases eq_or_ne u t with rfl | hut
    · rwa [hself]
    rw [hother u hut]
    cases hidle : w.pc u with
    | idle => trivial
    | _ =>
      -- Another thread is in another call.
      have hne : w.id u ≠ w.id t := fun heq =>
        hut (h.id_inj u t (by rw [hidle]; exact nofun) hactive heq)
      have hprogress := h.progress u
      rw [hidle] at hprogress
      exact hprogress.mono (fun op => (hhist _ op).mpr) hsub (hmem _ hne)

theorem Calls.stay [DecidableEq Thread] (h : Calls w) {t : Thread} {v : Pc}
    (hpc : w'.pc = Function.update w.pc t v) (hid : w'.id = w.id) (hcalls : w'.calls = w.calls)
    (hactive : w.pc t ≠ .idle) (hhist : w'.history = w.history) (hlin : w'.lin = w.lin)
    (hstack : w'.stack = w.stack) (hv : Progress w.history w.lin (w.id t) v) : Calls w' := by
  refine h.goOn hpc hid hcalls hactive (fun i op => by rw [hhist]) ?_ (fun e he => by rwa [hlin])
    (fun i _ hi => by rwa [hlin] at hi) ?_
  · rw [hhist, hlin, hstack]
    exact h.lin
  · rwa [hhist, hlin]

theorem Calls.effect [DecidableEq Thread] (h : Calls w) {t : Thread} {v : Pc} {op : Op} {r : Res}
    (hpc : w'.pc = Function.update w.pc t v) (hid : w'.id = w.id) (hcalls : w'.calls = w.calls)
    (hactive : w.pc t ≠ .idle) (hhist : w'.history = w.history)
    (hlin : w'.lin = w.lin ++ [⟨w.id t, op, r⟩]) (hopen : Open w.history w.lin (w.id t) op)
    (hstep : StackStep w.stack op r w'.stack)
    (hv : Done w'.lin (w.id t) r → Progress w'.history w'.lin (w.id t) v) : Calls w' := by
  refine h.goOn hpc hid hcalls hactive (fun i op => by rw [hhist]) ?_ (fun e he => ?_)
    (fun i hne hi => ?_) (hv ⟨⟨w.id t, op, r⟩, ?_, rfl, rfl⟩)
  · rw [hhist, hlin]
    exact h.lin.effect hopen.1 hopen.2 hstep
  · rw [hlin]
    exact List.mem_append_left _ he
  · rw [hlin, List.map_append] at hi
    rcases List.mem_append.mp hi with hi | hi
    · exact hi
    · exact absurd (List.mem_singleton.mp hi) hne
  · rw [hlin]
    exact List.mem_append_right _ List.mem_cons_self

theorem Calls.ret [DecidableEq Thread] (h : Calls w) {t : Thread} {r : Res}
    (hpc : w'.pc = Function.update w.pc t .idle) (hid : w'.id = w.id)
    (hcalls : w'.calls = w.calls) (hactive : w.pc t ≠ .idle)
    (hhist : w'.history = w.history ++ [.ret (w.id t) r]) (hlin : w'.lin = w.lin)
    (hstack : w'.stack = w.stack) (hdone : Done w.lin (w.id t) r) : Calls w' := by
  refine h.goOn hpc hid hcalls hactive (fun i op => ?_) ?_ (fun e he => by rwa [hlin])
    (fun i _ hi => by rwa [hlin] at hi) trivial
  · rw [hhist, List.mem_append, List.mem_singleton]
    exact or_iff_left nofun
  · rw [hhist, hlin, hstack]
    exact h.lin.ret hdone

theorem Memory.stack_eq_nil_iff (h : Memory w) : w.stack = [] ↔ w.head &&& kPtrMask = 0 := by
  obtain ⟨top, htop, hlinked⟩ := h.head
  rw [htop, or_counter_and_kPtrMask hlinked.toNat_lt]
  exact hlinked.eq_nil_iff

theorem Calls.load [DecidableEq Thread] (h : Calls w) (hmemory : Memory w) {t : Thread}
    (hactive : w.pc t ≠ .idle) (hopen : Open w.history w.lin (w.id t) .pop) :
    Calls { w with
      pc := Function.update w.pc t (.popRead w.head)
      since := Function.update w.since t w.pushes
      lin := w.linAfterLoad t } := by
  by_cases hnull : w.head &&& kPtrMask = 0
  · have hnil := hmemory.stack_eq_nil_iff.mpr hnull
    have hlin : w.linAfterLoad t = w.lin ++ [⟨w.id t, .pop, .popped none⟩] := if_pos hnull
    refine h.effect rfl rfl rfl hactive rfl hlin hopen ?_ fun hdone => ?_
    · dsimp only
      rw [hnil]
      exact .empty
    · exact (if_pos hnull).mpr hdone
  · refine h.stay rfl rfl rfl hactive rfl (if_neg hnull) rfl ?_
    exact (if_neg hnull).mpr hopen

/-- Each step keeps the order in which the calls take effect. -/
theorem Calls.step [DecidableEq Thread] (h : Calls w) (hmemory : Memory w) (hstep : Step w w') :
    Calls w' := by
  have hactive : ∀ {t : Thread} {v : Pc}, w.pc t = v → v ≠ .idle → w.pc t ≠ .idle :=
    fun hpc hv heq => hv (hpc.symm.trans heq)
  have hprogress : ∀ {t : Thread} {v : Pc}, w.pc t = v → Progress w.history w.lin (w.id t) v :=
    fun hpc => hpc ▸ h.progress _
  cases hstep with
  | callPush t p hpc howner hne0 hlt => exact h.call (.push p) rfl rfl rfl rfl rfl rfl id
  | pushLoad t p hpc =>
    have hopen := hprogress hpc
    exact h.stay rfl rfl rfl (hactive hpc nofun) rfl rfl rfl hopen
  | pushStore t p cmp hpc =>
    have hopen := hprogress hpc
    exact h.stay rfl rfl rfl (hactive hpc nofun) rfl rfl rfl hopen
  | pushCas t p cmp hpc hcmp =>
    exact h.effect rfl rfl rfl (hactive hpc nofun) rfl rfl (hprogress hpc) (.push p w.stack) id
  | pushFail t p cmp hpc =>
    have hopen := hprogress hpc
    exact h.stay rfl rfl rfl (hactive hpc nofun) rfl rfl rfl hopen
  | returnPush t hpc =>
    exact h.ret rfl rfl rfl (hactive hpc nofun) rfl rfl rfl (hprogress hpc)
  | callPop t hpc => exact h.call .pop rfl rfl rfl rfl rfl rfl id
  | popLoad t hpc => exact h.load hmemory (hactive hpc nofun) (hprogress hpc)
  | popNull t cmp hpc hcur =>
    exact h.stay rfl rfl rfl (hactive hpc nofun) rfl rfl rfl ((if_pos hcur).mp (hprogress hpc))
  | popRead t cmp hpc hcur =>
    exact h.stay rfl rfl rfl (hactive hpc nofun) rfl rfl rfl ((if_neg hcur).mp (hprogress hpc))
  | popCas t cmp nxt hpc hcmp hfew =>
    subst hcmp
    obtain ⟨s, hs, -⟩ := hmemory.first hpc hfew
    refine h.effect rfl rfl rfl (hactive hpc nofun) rfl rfl (hprogress hpc) ?_ id
    dsimp only
    rw [hs]
    exact .pop _ s
  | popFail t cmp nxt hpc => exact h.load hmemory (hactive hpc nofun) (hprogress hpc)
  | returnPop t r hpc =>
    exact h.ret rfl rfl rfl (hactive hpc nofun) rfl rfl rfl (hprogress hpc)
  | reuse t p v hpc howner => exact ⟨h.lin, h.lt, h.called, h.id_inj, h.progress⟩
  | give t u p hpc howner => exact ⟨h.lin, h.lt, h.called, h.id_inj, h.progress⟩

/-! ## A `Pop` of the empty stack -/

/-- The call has found the stack empty, and has not returned. -/
def FoundEmpty : Pc → Prop
  | .popRead cmp => cmp &&& kPtrMask = 0
  | .popped r => r = none
  | _ => False

theorem foundEmpty_of_update [DecidableEq Thread] {t u : Thread} {v : Pc}
    (hu : FoundEmpty (Function.update w.pc t v u)) (hid : ∀ u ≠ t, w'.id u = w.id u)
    (hv : FoundEmpty v → w'.id t = w.id t ∧
      (FoundEmpty (w.pc t) ∨ w.stack = [] ∧ Open w.history w.lin (w.id t) .pop)) :
    w'.id u = w.id u ∧
      (FoundEmpty (w.pc u) ∨ w.stack = [] ∧ Open w.history w.lin (w.id u) .pop) := by
  rcases eq_or_ne u t with rfl | hut
  · rw [Function.update_self] at hu
    exact hv hu
  · rw [Function.update_of_ne hut] at hu
    exact ⟨hid u hut, Or.inl hu⟩

/-- A thread finds the stack empty when it loads the head. -/
theorem foundEmpty_step [DecidableEq Thread] (h : Calls w) (hmemory : Memory w)
    (hstep : Step w w') (u : Thread) (hu : FoundEmpty (w'.pc u)) : w'.id u = w.id u ∧
      (FoundEmpty (w.pc u) ∨ w.stack = [] ∧ Open w.history w.lin (w.id u) .pop) := by
  have hne : ∀ {α : Type} (f : Thread → α) (t : Thread) (v : α), ∀ u ≠ t,
      Function.update f t v u = f u := fun f t v u hu => Function.update_of_ne hu v f
  have hopen : ∀ {t : Thread} {v : Pc}, w.pc t = v → Progress w.history w.lin (w.id t) v :=
    fun hpc => hpc ▸ h.progress _
  cases hstep with
  | callPush t p hpc => exact foundEmpty_of_update hu (hne _ _ _) False.elim
  | pushLoad t p hpc => exact foundEmpty_of_update hu (fun _ _ => rfl) False.elim
  | pushStore t p cmp hpc => exact foundEmpty_of_update hu (fun _ _ => rfl) False.elim
  | pushCas t p cmp hpc => exact foundEmpty_of_update hu (fun _ _ => rfl) False.elim
  | pushFail t p cmp hpc => exact foundEmpty_of_update hu (fun _ _ => rfl) False.elim
  | returnPush t hpc => exact foundEmpty_of_update hu (fun _ _ => rfl) False.elim
  | callPop t hpc => exact foundEmpty_of_update hu (hne _ _ _) False.elim
  | popLoad t hpc =>
    refine foundEmpty_of_update hu (fun _ _ => rfl) fun hnull => ⟨rfl, Or.inr ⟨?_, ?_⟩⟩
    · exact hmemory.stack_eq_nil_iff.mpr hnull
    · exact hopen hpc
  | popNull t cmp hpc hcur =>
    refine foundEmpty_of_update hu (fun _ _ => rfl) fun _ => ⟨rfl, Or.inl ?_⟩
    rw [hpc]
    exact hcur
  | popRead t cmp hpc => exact foundEmpty_of_update hu (fun _ _ => rfl) False.elim
  | popCas t cmp nxt hpc =>
    exact foundEmpty_of_update hu (fun _ _ => rfl) fun h => nomatch (h : some _ = none)
  | popFail t cmp nxt hpc =>
    refine foundEmpty_of_update hu (fun _ _ => rfl) fun hnull => ⟨rfl, Or.inr ⟨?_, ?_⟩⟩
    · exact hmemory.stack_eq_nil_iff.mpr hnull
    · exact hopen hpc
  | returnPop t r hpc => exact foundEmpty_of_update hu (fun _ _ => rfl) False.elim
  | reuse => exact ⟨rfl, Or.inl hu⟩
  | give => exact ⟨rfl, Or.inl hu⟩

theorem ret_null_step [DecidableEq Thread] (hstep : Step w w') {i : ℕ}
    (hret : .ret i (.popped none) ∈ w'.history) :
    .ret i (.popped none) ∈ w.history ∨ ∃ t, FoundEmpty (w.pc t) ∧ w.id t = i := by
  cases hstep with
  | callPush t p =>
    exact Or.inl ((List.mem_append.mp hret).resolve_right fun h => nomatch List.mem_singleton.mp h)
  | callPop t =>
    exact Or.inl ((List.mem_append.mp hret).resolve_right fun h => nomatch List.mem_singleton.mp h)
  | returnPush t =>
    refine Or.inl ((List.mem_append.mp hret).resolve_right fun h => ?_)
    exact nomatch (Event.ret.inj (List.mem_singleton.mp h)).2
  | returnPop t r hpc =>
    rcases List.mem_append.mp hret with hret | hret
    · exact Or.inl hret
    · obtain ⟨rfl, hr⟩ := Event.ret.inj (List.mem_singleton.mp hret)
      refine Or.inr ⟨t, ?_, rfl⟩
      rw [hpc]
      exact (Res.popped.inj hr).symm
  | _ => exact Or.inl hret

/-- The stack was empty at some moment of the run between the call and the return of the `Pop`. -/
structure WasEmpty [DecidableEq Thread] (w₀ w : World Thread) (i : ℕ) (w' : World Thread) : Prop where
  /-- The moment is on the run. -/
  before : Relation.ReflTransGen Step w₀ w'
  /-- What is left of the run. -/
  after : Relation.ReflTransGen Step w' w
  /-- No node is on the stack. -/
  stack : w'.stack = []
  /-- The head holds no pointer. -/
  head : w'.head &&& kPtrMask = 0
  /-- `Pop` has been called. -/
  called : .call i .pop ∈ w'.history
  /-- It has not returned. -/
  not_returned : ∀ r, .ret i r ∉ w'.history

/-! ## The runs -/

theorem invariants [DecidableEq Thread] {next : Word → Word} {owner : Word → Option Thread}
    (hrun : Relation.ReflTransGen Step (.initial next owner) w) : Memory w ∧ Calls w := by
  induction hrun with
  | refl =>
    exact ⟨⟨⟨0, show (0 : Word) = 0 ||| counter 0 by decide, rfl⟩, List.nodup_nil, nofun, fun _ => trivial⟩,
      ⟨.nil [], nofun, fun _ h => absurd rfl h, fun _ _ h => absurd rfl h, fun _ => trivial⟩⟩
  | tail _ hstep ih => exact ⟨ih.1.step hstep, ih.2.step ih.1 hstep⟩

/-- A `Pop` that finds the stack empty finds it so at a moment of the run. -/
theorem wasEmpty [DecidableEq Thread] {next : Word → Word} {owner : Word → Option Thread}
    (hrun : Relation.ReflTransGen Step (.initial next owner) w) :
    (∀ t, FoundEmpty (w.pc t) → ∃ w', WasEmpty (.initial next owner) w (w.id t) w') ∧
    ∀ i, .ret i (.popped none) ∈ w.history → ∃ w', WasEmpty (.initial next owner) w i w' := by
  induction hrun with
  | refl => exact ⟨fun _ h => h.elim, nofun⟩
  | @tail w w₁ hrun hstep ih =>
    obtain ⟨hmemory, hcalls⟩ := invariants hrun
    have hlater : ∀ {i}, (∃ w', WasEmpty (.initial next owner) w i w') →
        ∃ w', WasEmpty (.initial next owner) w₁ i w' := fun ⟨w', h⟩ =>
      ⟨w', h.before, h.after.tail hstep, h.stack, h.head, h.called, h.not_returned⟩
    refine ⟨fun t ht => ?_, fun i hi => ?_⟩
    · obtain ⟨hid, hfound⟩ := foundEmpty_step hcalls hmemory hstep t ht
      rw [hid]
      rcases hfound with hfound | ⟨hstack, hopen⟩
      · exact hlater (ih.1 t hfound)
      · -- The call has not returned, since it has not taken effect.
        have hhead := hmemory.stack_eq_nil_iff.mp hstack
        refine ⟨w, hrun, .single hstep, hstack, hhead, hopen.1, fun r hr => hopen.2 ?_⟩
        obtain ⟨e, he, hi, -⟩ := hcalls.lin.returned _ r hr
        exact List.mem_map.mpr ⟨e, he, hi⟩
    · rcases ret_null_step hstep hi with hold | ⟨t, ht, rfl⟩
      · exact hlater (ih.2 i hold)
      · exact hlater (ih.1 t ht)

/-- In a sequential run, every node that has been pushed has been popped or is on the stack. -/
theorem count_of_legal {lin : List (Entry Op Res)} {s : List Word}
    (h : Legal StackStep [] lin s) (p : Word) :
    lin.countP (fun e => e.op = .push p) =
      lin.countP (fun e => e.res = .popped (some p)) + s.count p := by
  induction h with
  | nil => rfl
  | snoc e hl he ih =>
    obtain ⟨i, op, r⟩ := e
    rw [List.countP_append, List.countP_append, ih, List.countP_singleton, List.countP_singleton]
    dsimp only at he ⊢
    cases he with
    | push q s =>
      rw [List.count_cons]
      simp only [Op.push.injEq, beq_iff_eq, decide_eq_true_eq, reduceCtorEq, if_false]
      omega
    | pop q s =>
      rw [List.count_cons]
      simp only [Res.popped.injEq, Option.some.injEq, beq_iff_eq, decide_eq_true_eq, reduceCtorEq,
        if_false]
      omega
    | empty =>
      simp

/-- What holds of the calls of a run. -/
structure LinearizableRun [DecidableEq Thread] (w₀ w : World Thread) : Prop where
  /-- The calls can be put into one order, which is a run of a sequential stack; every node that has been
  pushed in it has been popped as often, but for the nodes that are on the stack. -/
  order : ∃ lin s, Linearizes StackStep [] w.history lin s ∧
    (∃ top, w.head &&& kPtrMask = top ∧ Linked w.next top s) ∧ s.Nodup ∧
    ∀ p, lin.countP (fun e => e.op = .push p) =
      lin.countP (fun e => e.res = .popped (some p)) + s.count p
  /-- When a `Pop` has returned null, the stack was empty at some moment during the call. -/
  null : ∀ i, .ret i (.popped none) ∈ w.history → ∃ w', WasEmpty w₀ w i w'

/-- For every number of threads and every interleaving of their steps, in which a compare-exchange of `Pop`
succeeds only when the head has been loaded fewer than `2^17` pushes before, the calls of `Push` and `Pop`
are linearizable. -/
theorem linearizable [DecidableEq Thread] {next : Word → Word} {owner : Word → Option Thread}
    (hrun : Relation.ReflTransGen Step (.initial next owner) w) :
    LinearizableRun (.initial next owner) w := by
  obtain ⟨hmemory, hcalls⟩ := invariants hrun
  obtain ⟨top, htop, hlinked⟩ := hmemory.head
  refine ⟨⟨w.lin, w.stack, hcalls.lin, ⟨top, ?_, hlinked⟩, hmemory.nodup,
    count_of_legal hcalls.lin.legal⟩, (wasEmpty hrun).2⟩
  rw [htop]
  exact or_counter_and_kPtrMask hlinked.toNat_lt _

/-- A `Pop` finds the stack empty during a `Push`, and the next one pops the node. -/
theorem linearizable_push_pop : ∃ w : World Bool,
    w.history = [.call 0 (.push 0x1000), .call 1 .pop, .ret 1 (.popped none), .ret 0 .pushed,
      .call 2 .pop, .ret 2 (.popped (some 0x1000))] ∧
    LinearizableRun (.initial (fun _ => 0) fun _ => some false) w := by
  have hrun := Relation.ReflTransGen.refl (r := Step)
      (a := (.initial (fun _ => 0) fun _ => some false : World Bool))
    |>.tail (.callPush false 0x1000 rfl rfl (by decide) (by decide))
    |>.tail (.pushLoad false 0x1000 rfl) |>.tail (.pushStore false 0x1000 0 rfl)
    |>.tail (.callPop true rfl) |>.tail (.popLoad true rfl)
    |>.tail (.pushCas false 0x1000 0 rfl rfl)
    |>.tail (.popNull true 0 rfl (by decide)) |>.tail (.returnPop true none rfl)
    |>.tail (.returnPush false rfl)
    |>.tail (.callPop true rfl) |>.tail (.popLoad true rfl)
    |>.tail (.popRead true 0x800000001000 rfl (by decide))
    |>.tail (.popCas true 0x800000001000 0 rfl rfl (by decide))
    |>.tail (.returnPop true (some 0x1000) rfl)
  exact ⟨_, rfl, linearizable hrun⟩

end Tasan.LFStack
