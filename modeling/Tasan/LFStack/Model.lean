import Mathlib.Data.Nat.Bitwise
import Mathlib.Tactic
import Tasan.Linearizable

/-!
# The lock-free stack

`LFStack` of `sanitizer_lfstack.h` on a 64-bit platform. The head holds the pointer to the first node in its
low 47 bits and a counter of the pushes in the other 17. A thread takes one atomic step after the other, among
which are the store and the load of `next`, and a compare-exchange may fail although the head is what it was.
A node belongs to a thread or to the stack; a thread pushes its own nodes, and between two calls it may write
to their `next` as well, since the stack says nothing of how the memory of a node is used then, and pass them
on to other threads.

The world keeps the history of the calls, the order in which they take effect, and the number of pushes, of
which no step depends on but one: a `Pop` whose compare-exchange succeeds has loaded the head fewer than
`2^17` pushes ago.
-/

namespace Tasan.LFStack

open Linearizable

/-- A machine word. -/
abbrev Word := BitVec 64

/-- `kPtrMask`. -/
def kPtrMask : Word := BitVec.allOnes 64 >>> 17

/-- `kCounterMask`. -/
def kCounterMask : Word := ~~~kPtrMask

/-- `kCounterInc`. -/
def kCounterInc : Word := kPtrMask + 1

/-- What a thread does next. -/
inductive Pc
  /-- It is in no call. -/
  | idle
  /-- `Push(p)` loads the head. -/
  | pushLoad (p : Word)
  /-- `Push(p)` stores `p->next`. -/
  | pushStore (p cmp : Word)
  /-- `Push(p)` exchanges the head. -/
  | pushCas (p cmp : Word)
  /-- `Push` returns. -/
  | pushed
  /-- `Pop` loads the head. -/
  | popLoad
  /-- `Pop` tests the pointer, and loads `cur->next`. -/
  | popRead (cmp : Word)
  /-- `Pop` exchanges the head. -/
  | popCas (cmp nxt : Word)
  /-- `Pop` returns. -/
  | popped (r : Option Word)

/-- The operations of a stack. -/
inductive Op
  | push (p : Word)
  | pop
  deriving DecidableEq

/-- Their results. -/
inductive Res
  /-- Of `Push`. -/
  | pushed
  /-- Of `Pop`; `none` is null. -/
  | popped (p : Option Word)
  deriving DecidableEq

/-- A sequential stack. -/
inductive StackStep : List Word → Op → Res → List Word → Prop
  /-- A node is pushed. -/
  | push (p : Word) (s : List Word) : StackStep s (.push p) .pushed (p :: s)
  /-- The first node is popped. -/
  | pop (p : Word) (s : List Word) : StackStep (p :: s) .pop (.popped (some p)) s
  /-- There is no node. -/
  | empty : StackStep [] .pop (.popped none) []

/-- The stack, the threads, and what is known of their calls. -/
structure World (Thread : Type) where
  head : Word
  /-- The field `next` of the nodes. -/
  next : Word → Word
  /-- What a thread does next. -/
  pc : Thread → Pc
  /-- The thread that a node belongs to. -/
  owner : Word → Option Thread
  /-- The number of pushes. -/
  pushes : ℕ
  /-- The number of pushes when a thread has loaded the head. -/
  since : Thread → ℕ
  /-- The number of the call that a thread is in. -/
  id : Thread → ℕ
  /-- The number of calls. -/
  calls : ℕ
  /-- The calls and returns. -/
  history : List (Event Op Res)
  /-- The calls that have taken effect. -/
  lin : List (Entry Op Res)
  /-- The nodes on the stack. -/
  stack : List Word

/-- After `Clear`: no node is on the stack, and the others belong to threads. -/
def World.initial {Thread : Type} (next : Word → Word) (owner : Word → Option Thread) : World Thread where
  head := 0
  next := next
  pc _ := .idle
  owner := owner
  pushes := 0
  since _ := 0
  id _ := 0
  calls := 0
  history := []
  lin := []
  stack := []

/-- The calls that have taken effect when a `Pop` loads the head: it does when the stack is empty. -/
def World.linAfterLoad {Thread : Type} (w : World Thread) (t : Thread) : List (Entry Op Res) :=
  if w.head &&& kPtrMask = 0 then w.lin ++ [⟨w.id t, .pop, .popped none⟩] else w.lin

/-- One step of a thread. -/
inductive Step {Thread : Type} [DecidableEq Thread] : World Thread → World Thread → Prop
  /-- `Push` is called, with a node of the thread. -/
  | callPush {w : World Thread} (t : Thread) (p : Word) (hpc : w.pc t = .idle)
      (howner : w.owner p = some t) (hne : p ≠ 0) (hlt : p.toNat < 2^47) :
      Step w { w with
        pc := Function.update w.pc t (.pushLoad p)
        id := Function.update w.id t w.calls
        calls := w.calls + 1
        history := w.history ++ [.call w.calls (.push p)] }
  /-- `cmp = head_`. -/
  | pushLoad {w : World Thread} (t : Thread) (p : Word) (hpc : w.pc t = .pushLoad p) :
      Step w { w with pc := Function.update w.pc t (.pushStore p w.head) }
  /-- `p->next = cmp & kPtrMask`. -/
  | pushStore {w : World Thread} (t : Thread) (p cmp : Word) (hpc : w.pc t = .pushStore p cmp) :
      Step w { w with
        next := Function.update w.next p (cmp &&& kPtrMask)
        pc := Function.update w.pc t (.pushCas p cmp) }
  /-- The compare-exchange of `Push` succeeds. -/
  | pushCas {w : World Thread} (t : Thread) (p cmp : Word) (hpc : w.pc t = .pushCas p cmp)
      (hcmp : w.head = cmp) :
      Step w { w with
        head := p ||| ((cmp &&& kCounterMask) + kCounterInc)
        pc := Function.update w.pc t .pushed
        owner := Function.update w.owner p none
        pushes := w.pushes + 1
        lin := w.lin ++ [⟨w.id t, .push p, .pushed⟩]
        stack := p :: w.stack }
  /-- The compare-exchange of `Push` fails. -/
  | pushFail {w : World Thread} (t : Thread) (p cmp : Word) (hpc : w.pc t = .pushCas p cmp) :
      Step w { w with pc := Function.update w.pc t (.pushStore p w.head) }
  /-- `Push` returns. -/
  | returnPush {w : World Thread} (t : Thread) (hpc : w.pc t = .pushed) :
      Step w { w with
        pc := Function.update w.pc t .idle
        history := w.history ++ [.ret (w.id t) .pushed] }
  /-- `Pop` is called. -/
  | callPop {w : World Thread} (t : Thread) (hpc : w.pc t = .idle) :
      Step w { w with
        pc := Function.update w.pc t .popLoad
        id := Function.update w.id t w.calls
        calls := w.calls + 1
        history := w.history ++ [.call w.calls .pop] }
  /-- `cmp = head_`. -/
  | popLoad {w : World Thread} (t : Thread) (hpc : w.pc t = .popLoad) :
      Step w { w with
        pc := Function.update w.pc t (.popRead w.head)
        since := Function.update w.since t w.pushes
        lin := w.linAfterLoad t }
  /-- There is no node. -/
  | popNull {w : World Thread} (t : Thread) (cmp : Word) (hpc : w.pc t = .popRead cmp)
      (hcur : cmp &&& kPtrMask = 0) :
      Step w { w with pc := Function.update w.pc t (.popped none) }
  /-- `nxt = cur->next`. -/
  | popRead {w : World Thread} (t : Thread) (cmp : Word) (hpc : w.pc t = .popRead cmp)
      (hcur : cmp &&& kPtrMask ≠ 0) :
      Step w { w with pc := Function.update w.pc t (.popCas cmp (w.next (cmp &&& kPtrMask))) }
  /-- The compare-exchange of `Pop` succeeds. -/
  | popCas {w : World Thread} (t : Thread) (cmp nxt : Word) (hpc : w.pc t = .popCas cmp nxt)
      (hcmp : w.head = cmp) (hfew : w.pushes < w.since t + 2^17) :
      Step w { w with
        head := nxt ||| (cmp &&& kCounterMask)
        pc := Function.update w.pc t (.popped (some (cmp &&& kPtrMask)))
        owner := Function.update w.owner (cmp &&& kPtrMask) (some t)
        lin := w.lin ++ [⟨w.id t, .pop, .popped (some (cmp &&& kPtrMask))⟩]
        stack := w.stack.tail }
  /-- The compare-exchange of `Pop` fails. -/
  | popFail {w : World Thread} (t : Thread) (cmp nxt : Word) (hpc : w.pc t = .popCas cmp nxt) :
      Step w { w with
        pc := Function.update w.pc t (.popRead w.head)
        since := Function.update w.since t w.pushes
        lin := w.linAfterLoad t }
  /-- `Pop` returns. -/
  | returnPop {w : World Thread} (t : Thread) (r : Option Word) (hpc : w.pc t = .popped r) :
      Step w { w with
        pc := Function.update w.pc t .idle
        history := w.history ++ [.ret (w.id t) (.popped r)] }
  /-- A thread uses a node of its own. -/
  | reuse {w : World Thread} (t : Thread) (p v : Word) (hpc : w.pc t = .idle)
      (howner : w.owner p = some t) : Step w { w with next := Function.update w.next p v }
  /-- A thread passes a node on. -/
  | give {w : World Thread} (t u : Thread) (p : Word) (hpc : w.pc t = .idle)
      (howner : w.owner p = some t) : Step w { w with owner := Function.update w.owner p (some u) }

/-! ## The head -/

/-- The counter after `n` pushes. -/
def counter (n : ℕ) : Word := BitVec.ofNat 64 (n * 2^47)

theorem getLsbD_kPtrMask (i : ℕ) : kPtrMask.getLsbD i = decide (i < 47) := by
  rcases lt_or_ge i 64 with hi | hi
  · have : ∀ i : Fin 64, kPtrMask.getLsbD i = decide ((i : ℕ) < 47) := by decide
    exact this ⟨i, hi⟩
  · rw [BitVec.getLsbD_of_ge _ _ hi]
    exact (decide_eq_false (by omega)).symm

theorem getLsbD_counter {i : ℕ} (n : ℕ) (hi : i < 47) : (counter n).getLsbD i = false := by
  unfold counter
  rw [BitVec.getLsbD_ofNat, Nat.testBit_mul_two_pow]
  simp [Nat.not_le.mpr hi]

theorem getLsbD_of_lt {p : Word} (hp : p.toNat < 2^47) {i : ℕ} (hi : 47 ≤ i) : p.getLsbD i = false :=
  Nat.testBit_lt_two_pow (hp.trans_le (Nat.pow_le_pow_right (by norm_num) hi))

theorem or_counter_and_kPtrMask {p : Word} (hp : p.toNat < 2^47) (n : ℕ) :
    (p ||| counter n) &&& kPtrMask = p := by
  refine BitVec.eq_of_getLsbD_eq fun i hi => ?_
  rw [BitVec.getLsbD_and, BitVec.getLsbD_or, getLsbD_kPtrMask]
  rcases lt_or_ge i 47 with h | h
  · rw [getLsbD_counter n h, decide_eq_true h, Bool.or_false, Bool.and_true]
  · rw [getLsbD_of_lt hp h, decide_eq_false (by omega), Bool.and_false]

theorem or_counter_and_kCounterMask {p : Word} (hp : p.toNat < 2^47) (n : ℕ) :
    (p ||| counter n) &&& kCounterMask = counter n := by
  refine BitVec.eq_of_getLsbD_eq fun i hi => ?_
  unfold kCounterMask
  rw [BitVec.getLsbD_and, BitVec.getLsbD_or, BitVec.getLsbD_not, getLsbD_kPtrMask, decide_eq_true hi,
    Bool.true_and]
  rcases lt_or_ge i 47 with h | h
  · rw [getLsbD_counter n h, decide_eq_true h, Bool.not_true, Bool.and_false]
  · rw [getLsbD_of_lt hp h, decide_eq_false (by omega), Bool.not_false, Bool.and_true, Bool.false_or]

theorem counter_succ (n : ℕ) : counter n + kCounterInc = counter (n + 1) := by
  have hinc : kCounterInc = BitVec.ofNat 64 (2^47) := by decide
  unfold counter
  rw [hinc, ← BitVec.ofNat_add, Nat.succ_mul]

theorem eq_of_counter_eq {n k : ℕ} (h : counter n = counter k) (hle : k ≤ n) (hlt : n < k + 2^17) :
    n = k := by
  have := congrArg BitVec.toNat h
  unfold counter at this
  rw [BitVec.toNat_ofNat, BitVec.toNat_ofNat] at this
  omega

theorem or_counter_inj {p q : Word} (hp : p.toNat < 2^47) (hq : q.toNat < 2^47) {n k : ℕ}
    (h : p ||| counter n = q ||| counter k) : p = q ∧ counter n = counter k := by
  constructor
  · rw [← or_counter_and_kPtrMask hp n, h, or_counter_and_kPtrMask hq]
  · rw [← or_counter_and_kCounterMask hp n, h, or_counter_and_kCounterMask hq]

end Tasan.LFStack
