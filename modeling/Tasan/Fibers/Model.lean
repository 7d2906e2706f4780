import Mathlib.Tactic

/-!
# The switch of fibers

The part of `AsanThread` that follows a thread from one fiber to another: `StartSwitchFiber`,
`FinishSwitchFiber`, `GetStackBounds`, the lazy creation of the fake stack and `DeleteFakeStack`. Words are
bit vectors, and a pointer to a fake stack is the number of its address; `fake_stack_` is 0 when there is none
and 1 while one is being created. The fake stacks that are mapped, and the order in which they are destroyed,
are kept in `FakeStacks`, where each has the number of its creation, since an address can be mapped again.
-/

namespace Tasan.Fibers

/-- A machine word. -/
abbrev Word := BitVec 64

/-- The program stops. -/
inductive Fault
  | die
  /-- A fake stack is destroyed that is not mapped. -/
  | badDestroy
  deriving DecidableEq

/-- A fake stack: the number of its creation, and the size that it is created with. -/
structure FakeStack where
  /-- The number. -/
  id : ℕ
  stackSizeLog : ℕ

/-- The fake stacks of a program. -/
structure FakeStacks where
  /-- What is mapped at an address. -/
  live : ℕ → Option FakeStack
  /-- How many have been created. -/
  created : ℕ
  /-- The numbers of those that have been destroyed. -/
  destroyed : List ℕ

/-- `FakeStack::Create`; `mmap` gives the address `a`. -/
def FakeStacks.create (h : FakeStacks) (stackSizeLog a : ℕ) : FakeStacks where
  live := Function.update h.live a (some ⟨h.created, stackSizeLog⟩)
  created := h.created + 1
  destroyed := h.destroyed

/-- `FakeStack::Destroy`. -/
def FakeStacks.destroy (h : FakeStacks) (p : ℕ) : Except Fault FakeStacks :=
  match h.live p with
  | none => .error .badDestroy
  | some s => .ok { h with live := Function.update h.live p none, destroyed := s.id :: h.destroyed }

/-- The fields of `AsanThread` that a switch reads and writes, with the fake stack of the TLS. -/
structure AsanThread where
  stackTop : Word
  stackBottom : Word
  nextStackTop : Word
  nextStackBottom : Word
  stackSwitching : Bool
  fakeStack : ℕ
  /-- The fake stack of the TLS. -/
  tlsFakeStack : ℕ

/-- `StartSwitchFiber`: the thread, the fake stacks, and what is stored at `fake_stack_save`. The fiber dies
when `fake_stack_save` is null. -/
def AsanThread.startSwitchFiber (t : AsanThread) (h : FakeStacks) (dies : Bool) (bottom size : Word) :
    Except Fault (AsanThread × FakeStacks × Option ℕ) :=
  if t.stackSwitching then .error .die
  else do
    let currentFakeStack := t.fakeStack
    let t := { t with
      nextStackBottom := bottom
      nextStackTop := bottom + size
      stackSwitching := true
      fakeStack := 0
      tlsFakeStack := 0 }
    if !dies then return (t, h, some currentFakeStack)
    else if currentFakeStack = 0 then return (t, h, none)
    else return (t, ← h.destroy currentFakeStack, none)

/-- `FinishSwitchFiber`: the thread, and the old bounds. -/
def AsanThread.finishSwitchFiber (t : AsanThread) (fakeStackSave : ℕ) :
    Except Fault (AsanThread × Word × Word) :=
  if !t.stackSwitching then .error .die
  else .ok ({ t with
    fakeStack := if fakeStackSave ≠ 0 then fakeStackSave else t.fakeStack
    tlsFakeStack := if fakeStackSave ≠ 0 then fakeStackSave else t.tlsFakeStack
    stackBottom := t.nextStackBottom
    stackTop := t.nextStackTop
    stackSwitching := false
    nextStackTop := 0
    nextStackBottom := 0 }, t.stackBottom, t.stackTop - t.stackBottom)

/-- `GetStackBounds`, with the address of a local variable. -/
def AsanThread.getStackBounds (t : AsanThread) (curStack : Word) : Word × Word :=
  if !t.stackSwitching then
    if t.stackBottom ≥ t.stackTop then (0, 0) else (t.stackBottom, t.stackTop)
  else if curStack ≥ t.nextStackBottom ∧ curStack < t.nextStackTop then
    (t.nextStackBottom, t.nextStackTop)
  else (t.stackBottom, t.stackTop)

/-- `stack_size`. -/
def AsanThread.stackSize (t : AsanThread) (curStack : Word) : Word :=
  (t.getStackBounds curStack).2 - (t.getStackBounds curStack).1

/-- `DeleteFakeStack`. -/
def AsanThread.deleteFakeStack (t : AsanThread) (h : FakeStacks) :
    Except Fault (AsanThread × FakeStacks) :=
  if t.fakeStack = 0 then .ok (t, h)
  else do return ({ t with fakeStack := 0, tlsFakeStack := 0 }, ← h.destroy t.fakeStack)

/-- `get_fake_stack`. -/
def AsanThread.getFakeStack (t : AsanThread) : ℕ :=
  if t.stackSwitching then 0 else if t.fakeStack ≤ 1 then 0 else t.fakeStack

/-- What a call gives that may create a fake stack. -/
inductive GetOrCreate
  /-- It returns. -/
  | returned (p : ℕ)
  /-- It has set `fake_stack_` to 1, and goes on to create one. -/
  | creating (t : AsanThread)

/-- `AsyncSignalSafeLazyInitFakeStack`, up to the creation. -/
def AsanThread.lazyInitFakeStack (t : AsanThread) (curStack : Word) : GetOrCreate :=
  -- The size of the stack is not yet available.
  if t.stackSize curStack = 0 then .returned 0
  else if t.fakeStack = 0 then .creating { t with fakeStack := 1 }
  else .returned 0

/-- `get_or_create_fake_stack`. -/
def AsanThread.getOrCreateFakeStack (t : AsanThread) (curStack : Word) : GetOrCreate :=
  if t.stackSwitching then .returned 0
  else if t.fakeStack ≤ 1 then t.lazyInitFakeStack curStack
  else .returned t.fakeStack

/-- The flags that bound the size of a fake stack; `InitializeFlags` checks their order, and the creation checks
it again. -/
structure Flags where
  minUarStackSizeLog : ℕ
  maxUarStackSizeLog : ℕ
  /-- The order. -/
  le : minUarStackSizeLog ≤ maxUarStackSizeLog

/-- The size of a fake stack: the logarithm of the rounded size of the stack, within the bounds. -/
def Flags.stackSizeLog (flags : Flags) (stackSize : ℕ) : ℕ :=
  max (min (Nat.clog 2 stackSize) flags.maxUarStackSizeLog) flags.minUarStackSizeLog

/-- The rest of `AsyncSignalSafeLazyInitFakeStack`: the fake stack is mapped at `a`. -/
def AsanThread.finishLazyInit (t : AsanThread) (h : FakeStacks) (flags : Flags) (curStack : Word) (a : ℕ) :
    AsanThread × FakeStacks :=
  ({ t with fakeStack := a, tlsFakeStack := a },
    h.create (flags.stackSizeLog (t.stackSize curStack).toNat) a)

end Tasan.Fibers
