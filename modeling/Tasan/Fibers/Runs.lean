import Tasan.Fibers.Model

/-!
# Who owns a fake stack

A thread runs fibers, and each call of `StartSwitchFiber` names the stack of the next fiber and either the
save slot of the current one or null when it dies, as the calls of a program must that uses the interface
correctly; `FinishSwitchFiber` then gets what has been saved for the fiber, or null when it never ran. The
world knows which fiber the thread is on, what has become of the others, and who has created each fake stack.
A mapped fake stack is the current one of the fiber that has created it, or in its slot (`Owned.place`); this
is kept by every call.
-/

namespace Tasan.Fibers

open Relation

/-- What has become of a fiber. -/
inductive Status
  /-- It never ran. -/
  | unborn
  /-- It has been left, and its fake stack is in its slot. -/
  | suspended
  /-- The thread is on it. -/
  | active
  /-- It has been left for good. -/
  | dead
  deriving DecidableEq

/-- Where the thread is. -/
inductive Control (Fiber : Type)
  /-- On a fiber. -/
  | running (f : Fiber)
  /-- On a fiber, which is creating its fake stack; signal handlers see this. -/
  | creating (f : Fiber)
  /-- In a switch from the first fiber to the second. -/
  | switching (f g : Fiber)
  /-- The thread has been destroyed on a fiber. -/
  | destroyed (f : Fiber)

/-- The fiber that the thread is on. -/
def Control.on {Fiber : Type} : Control Fiber → Option Fiber
  | .running f | .creating f | .destroyed f => some f
  | .switching _ _ => none

/-- A thread and its fibers. -/
structure World (Fiber : Type) where
  /-- The thread. -/
  thread : AsanThread
  /-- The fake stacks. -/
  fakeStacks : FakeStacks
  /-- The save slots of the program. -/
  slot : Fiber → ℕ
  /-- What has become of the fibers. -/
  status : Fiber → Status
  /-- Where the thread is. -/
  control : Control Fiber
  /-- The fiber that has created a fake stack. -/
  owner : ℕ → Fiber
  /-- The fiber that the last switch has left, with the old bounds that it has reported. -/
  report : Option (Fiber × Word × Word)

variable {Fiber : Type} (flags : Flags) (stack : Fiber → Word × Word)

/-- A thread begins on a fiber, whose bottom and size are those of its stack. -/
def World.initial (f : Fiber) [DecidableEq Fiber] : World Fiber where
  thread := ⟨(stack f).1 + (stack f).2, (stack f).1, 0, 0, false, 0, 0⟩
  fakeStacks := ⟨fun _ => none, 0, []⟩
  slot _ := 0
  status g := if g = f then .active else .unborn
  control := .running f
  owner _ := f
  report := none

/-- One call. -/
inductive Step [DecidableEq Fiber] : World Fiber → World Fiber → Prop
  /-- `get_or_create_fake_stack` begins to create a fake stack. -/
  | beginCreate {w : World Fiber} (f : Fiber) (curStack : Word) {t : AsanThread}
      (hcontrol : w.control = .running f)
      (hcreate : w.thread.getOrCreateFakeStack curStack = .creating t) :
      Step w { w with thread := t, control := .creating f }
  /-- It creates it, at an address where nothing is mapped. -/
  | create {w : World Fiber} (f : Fiber) (curStack : Word) (a : ℕ)
      (hcontrol : w.control = .creating f) (ha : 1 < a) (hfree : w.fakeStacks.live a = none) :
      Step w { w with
        thread := (w.thread.finishLazyInit w.fakeStacks flags curStack a).1
        fakeStacks := (w.thread.finishLazyInit w.fakeStacks flags curStack a).2
        control := .running f
        owner := Function.update w.owner w.fakeStacks.created f }
  /-- `StartSwitchFiber`. -/
  | start {w : World Fiber} (f g : Fiber) (dies : Bool) {t : AsanThread} {fakeStacks : FakeStacks}
      {saved : Option ℕ} (hcontrol : w.control = .running f)
      (hnext : w.status g = .unborn ∨ w.status g = .suspended ∨ g = f ∧ dies = false)
      (hstart : w.thread.startSwitchFiber w.fakeStacks dies (stack g).1 (stack g).2 =
        .ok (t, fakeStacks, saved)) :
      Step w { w with
        thread := t
        fakeStacks := fakeStacks
        slot := match saved with
          | some p => Function.update w.slot f p
          | none => w.slot
        status := Function.update w.status f (if dies then .dead else .suspended)
        control := .switching f g }
  /-- `FinishSwitchFiber`. -/
  | finish {w : World Fiber} (f g : Fiber) {t : AsanThread} {bottom size : Word}
      (hcontrol : w.control = .switching f g)
      (hfinish : w.thread.finishSwitchFiber (if w.status g = .unborn then 0 else w.slot g) =
        .ok (t, bottom, size)) :
      Step w { w with
        thread := t
        status := Function.update w.status g .active
        control := .running g
        report := some (f, bottom, size) }
  /-- The thread is destroyed. -/
  | destroy {w : World Fiber} (f : Fiber) {t : AsanThread} {fakeStacks : FakeStacks}
      (hcontrol : w.control = .running f)
      (hdelete : w.thread.deleteFakeStack w.fakeStacks = .ok (t, fakeStacks)) :
      Step w { w with thread := t, fakeStacks := fakeStacks, control := .destroyed f }

/-- The worlds of the runs that begin on the fiber `f`. -/
def Reachable [DecidableEq Fiber] (f : Fiber) (w : World Fiber) : Prop :=
  ReflTransGen (Step flags stack) (.initial stack f) w

/-! ## The fake stacks -/

/-- The fake stacks that are mapped, and those that have been destroyed, are those that have been created. -/
structure FakeStacks.Valid (h : FakeStacks) : Prop where
  /-- The addresses are neither 0 nor 1. -/
  address : ∀ a s, h.live a = some s → 1 < a
  /-- What is mapped has been created, and not been destroyed. -/
  mapped : ∀ a s, h.live a = some s → s.id < h.created ∧ s.id ∉ h.destroyed
  /-- A fake stack is mapped at one address. -/
  inj : ∀ a b s s', h.live a = some s → h.live b = some s' → s.id = s'.id → a = b
  /-- What has been created is mapped or has been destroyed. -/
  cover : ∀ id < h.created, id ∈ h.destroyed ∨ ∃ a s, h.live a = some s ∧ s.id = id
  /-- What has been destroyed has been created. -/
  destroyed : ∀ id ∈ h.destroyed, id < h.created
  /-- Nothing has been destroyed twice. -/
  nodup : h.destroyed.Nodup

/-- Creating a fake stack where nothing is mapped. -/
theorem FakeStacks.Valid.create {h : FakeStacks} (hv : h.Valid) (stackSizeLog : ℕ) {a : ℕ} (ha : 1 < a)
    (hfree : h.live a = none) : (h.create stackSizeLog a).Valid := by
  have hself : (h.create stackSizeLog a).live a = some ⟨h.created, stackSizeLog⟩ :=
    Function.update_self _ _ _
  have hother : ∀ b, b ≠ a → (h.create stackSizeLog a).live b = h.live b := fun b hb =>
    Function.update_of_ne hb _ _
  constructor
  · intro b s hb
    rcases eq_or_ne b a with rfl | hba
    · exact ha
    · exact hv.address b s (hother b hba ▸ hb)
  · intro b s hb
    rcases eq_or_ne b a with rfl | hba
    · obtain rfl := Option.some.inj (hself.symm.trans hb)
      exact ⟨Nat.lt_succ_self _, fun hmem => absurd (hv.destroyed _ hmem) (lt_irrefl _)⟩
    · obtain ⟨hlt, hmem⟩ := hv.mapped b s (hother b hba ▸ hb)
      exact ⟨hlt.trans (Nat.lt_succ_self _), hmem⟩
  · intro b c s s' hb hc heq
    -- The number of the new fake stack is larger than all others.
    rcases eq_or_ne b a with hba | hba <;> rcases eq_or_ne c a with hca | hca
    · rw [hba, hca]
    · rw [hba] at hb
      obtain rfl := Option.some.inj (hself.symm.trans hb)
      have := (hv.mapped c s' (hother c hca ▸ hc)).1
      dsimp only at heq
      omega
    · rw [hca] at hc
      obtain rfl := Option.some.inj (hself.symm.trans hc)
      have := (hv.mapped b s (hother b hba ▸ hb)).1
      dsimp only at heq
      omega
    · exact hv.inj b c s s' (hother b hba ▸ hb) (hother c hca ▸ hc) heq
  · intro id hid
    rcases Nat.lt_succ_iff_lt_or_eq.mp hid with hid | rfl
    · refine (hv.cover id hid).imp_right ?_
      rintro ⟨b, s, hb, hs⟩
      have hba : b ≠ a := by
        rintro rfl
        exact absurd (hfree.symm.trans hb) nofun
      exact ⟨b, s, (hother b hba).trans hb, hs⟩
    · exact Or.inr ⟨a, _, hself, rfl⟩
  · exact fun id hid => (hv.destroyed id hid).trans (Nat.lt_succ_self _)
  · exact hv.nodup

/-- Destroying a fake stack that is mapped. -/
theorem FakeStacks.Valid.destroy {h : FakeStacks} (hv : h.Valid) {p : ℕ} {s : FakeStack}
    (hp : h.live p = some s) : ∃ h', h.destroy p = .ok h' ∧ h'.Valid ∧ h'.created = h.created ∧
      h'.destroyed = s.id :: h.destroyed ∧ ∀ a, h'.live a = if a = p then none else h.live a := by
  refine ⟨{ h with live := Function.update h.live p none, destroyed := s.id :: h.destroyed }, ?_, ?_,
    rfl, rfl, fun a => ?_⟩
  · rw [FakeStacks.destroy, hp]
  · have hother : ∀ a s', Function.update h.live p none a = some s' → a ≠ p ∧ h.live a = some s' := by
      intro a s' ha
      rcases eq_or_ne a p with rfl | hap
      · rw [Function.update_self] at ha
        exact absurd ha nofun
      · rw [Function.update_of_ne hap] at ha
        exact ⟨hap, ha⟩
    constructor
    · exact fun a s' ha => hv.address a s' (hother a s' ha).2
    · intro a s' ha
      obtain ⟨hap, ha⟩ := hother a s' ha
      obtain ⟨hlt, hmem⟩ := hv.mapped a s' ha
      refine ⟨hlt, fun h' => ?_⟩
      rcases List.mem_cons.mp h' with heq | h'
      · exact hap (hv.inj a p s' s ha hp heq)
      · exact hmem h'
    · exact fun a b s₁ s₂ ha hb => hv.inj a b s₁ s₂ (hother a s₁ ha).2 (hother b s₂ hb).2
    · intro id hid
      rcases eq_or_ne id s.id with rfl | hne
      · exact Or.inl List.mem_cons_self
      · refine (hv.cover id hid).imp (List.mem_cons_of_mem _) ?_
        rintro ⟨a, s', ha, rfl⟩
        have hap : a ≠ p := by
          rintro rfl
          exact hne (congrArg FakeStack.id (Option.some.inj (ha.symm.trans hp)))
        exact ⟨a, s', (Function.update_of_ne hap _ _).trans ha, rfl⟩
    · intro id hid
      rcases List.mem_cons.mp hid with rfl | hid
      · exact (hv.mapped p s hp).1
      · exact hv.destroyed id hid
    · exact List.nodup_cons.mpr ⟨(hv.mapped p s hp).2, hv.nodup⟩
  · exact Function.update_apply _ _ _ _

/-! ## The invariant -/

section Invariant

variable {flags : Flags} {stack : Fiber → Word × Word} {w w' : World Fiber}

/-- A pointer is null or points to a fake stack that is mapped, and that the fiber has created. -/
def World.Owned (w : World Fiber) (p : ℕ) (f : Fiber) : Prop :=
  p = 0 ∨ ∃ s, w.fakeStacks.live p = some s ∧ w.owner s.id = f

/-- The bounds of the thread are those of the stack of the fiber. -/
def Bounds (stack : Fiber → Word × Word) (t : AsanThread) (f : Fiber) : Prop :=
  t.stackBottom = (stack f).1 ∧ t.stackTop = (stack f).1 + (stack f).2

/-- The thread, by where it is. -/
def ThreadInv (stack : Fiber → Word × Word) (w : World Fiber) : Prop :=
  match w.control with
  | .running f => w.thread.stackSwitching = false ∧ Bounds stack w.thread f ∧
      w.thread.tlsFakeStack = w.thread.fakeStack ∧ w.Owned w.thread.fakeStack f
  | .creating f => w.thread.stackSwitching = false ∧ Bounds stack w.thread f ∧
      w.thread.fakeStack = 1
  | .switching f g => w.thread.stackSwitching = true ∧ Bounds stack w.thread f ∧
      w.thread.nextStackBottom = (stack g).1 ∧ w.thread.nextStackTop = (stack g).1 + (stack g).2 ∧
      w.thread.fakeStack = 0 ∧ w.thread.tlsFakeStack = 0 ∧
      (w.status g = .unborn ∨ w.status g = .suspended)
  | .destroyed _ => w.thread.fakeStack = 0

/-- The invariant of the runs. -/
structure Inv (stack : Fiber → Word × Word) (w : World Fiber) : Prop where
  /-- The fake stacks. -/
  valid : w.fakeStacks.Valid
  /-- The thread. -/
  thread : ThreadInv stack w
  /-- The thread is on the active fiber. -/
  active : ∀ f, w.status f = .active ↔ w.control.on = some f
  /-- A mapped fake stack is in the slot of its fiber, or the current one. -/
  place : ∀ a s, w.fakeStacks.live a = some s →
    w.status (w.owner s.id) = .suspended ∧ w.slot (w.owner s.id) = a ∨
      w.status (w.owner s.id) = .active ∧ w.thread.fakeStack = a
  /-- The slot of a suspended fiber holds its fake stack. -/
  slot : ∀ f, w.status f = .suspended → w.Owned (w.slot f) f
  /-- Why a fake stack has been destroyed. -/
  gone : ∀ id ∈ w.fakeStacks.destroyed,
    w.status (w.owner id) = .dead ∨ w.control = .destroyed (w.owner id)
  /-- The bounds that the last switch has reported. -/
  report : ∀ f bottom size, w.report = some (f, bottom, size) → (bottom, size) = stack f

theorem inv_initial [DecidableEq Fiber] (f : Fiber) : Inv stack (.initial stack f) where
  valid := ⟨nofun, nofun, nofun, nofun, nofun, List.nodup_nil⟩
  thread := ⟨rfl, ⟨rfl, rfl⟩, rfl, Or.inl rfl⟩
  active g := by
    show (if g = f then Status.active else Status.unborn) = Status.active ↔ some f = some g
    rcases eq_or_ne g f with rfl | hg
    · exact iff_of_true (if_pos rfl) rfl
    · exact iff_of_false (by rw [if_neg hg]; nofun) fun h => hg (Option.some.inj h).symm
  place := nofun
  slot _ _ := Or.inl rfl
  gone := nofun
  report := nofun

theorem getOrCreateFakeStack_creating {t t' : AsanThread} {curStack : Word}
    (h : t.getOrCreateFakeStack curStack = .creating t') :
    t.fakeStack = 0 ∧ t' = { t with fakeStack := 1 } := by
  unfold AsanThread.getOrCreateFakeStack AsanThread.lazyInitFakeStack at h
  split_ifs at h with h1 h2 h3 h4
  exact ⟨h4, (GetOrCreate.creating.inj h).symm⟩

/-- What `StartSwitchFiber` does outside a switch, when the current fake stack is null or mapped. -/
theorem startSwitchFiber_cases {t t' : AsanThread} {h h' : FakeStacks} {dies : Bool} {bottom size : Word}
    {saved : Option ℕ} (hstart : t.startSwitchFiber h dies bottom size = .ok (t', h', saved)) :
    t' = { t with
      nextStackBottom := bottom
      nextStackTop := bottom + size
      stackSwitching := true
      fakeStack := 0
      tlsFakeStack := 0 } ∧
    (dies = false ∧ saved = some t.fakeStack ∧ h' = h ∨
      dies = true ∧ saved = none ∧ (t.fakeStack = 0 ∧ h' = h ∨
        t.fakeStack ≠ 0 ∧ h.destroy t.fakeStack = .ok h')) := by
  unfold AsanThread.startSwitchFiber at hstart
  dsimp only at hstart
  split_ifs at hstart with hswitching hdies hzero
  · obtain ⟨rfl, rfl, rfl⟩ : _ = t' ∧ h = h' ∧ some t.fakeStack = saved := by
      simpa using Except.ok.inj hstart
    exact ⟨rfl, Or.inl ⟨by simpa using hdies, rfl, rfl⟩⟩
  · obtain ⟨rfl, rfl, rfl⟩ : _ = t' ∧ h = h' ∧ none = saved := by simpa using Except.ok.inj hstart
    exact ⟨rfl, Or.inr ⟨by simpa using hdies, rfl, Or.inl ⟨hzero, rfl⟩⟩⟩
  · cases hdestroy : h.destroy t.fakeStack with
    | error e => rw [hdestroy] at hstart; exact absurd hstart nofun
    | ok h₁ =>
      rw [hdestroy] at hstart
      obtain ⟨rfl, rfl, rfl⟩ : _ = t' ∧ h₁ = h' ∧ none = saved := by simpa using Except.ok.inj hstart
      exact ⟨rfl, Or.inr ⟨by simpa using hdies, rfl, Or.inr ⟨hzero, rfl⟩⟩⟩

theorem finishSwitchFiber_cases {t t' : AsanThread} {save : ℕ} {bottom size : Word}
    (hfinish : t.finishSwitchFiber save = .ok (t', bottom, size)) :
    bottom = t.stackBottom ∧ size = t.stackTop - t.stackBottom ∧ t' = { t with
      fakeStack := if save ≠ 0 then save else t.fakeStack
      tlsFakeStack := if save ≠ 0 then save else t.tlsFakeStack
      stackBottom := t.nextStackBottom
      stackTop := t.nextStackTop
      stackSwitching := false
      nextStackTop := 0
      nextStackBottom := 0 } := by
  unfold AsanThread.finishSwitchFiber at hfinish
  cases hswitching : t.stackSwitching with
  | false => rw [hswitching] at hfinish; exact absurd hfinish nofun
  | true =>
  rw [hswitching, if_neg (by decide)] at hfinish
  obtain ⟨h1, h2⟩ := Prod.mk.inj (Except.ok.inj hfinish)
  obtain ⟨h2, h3⟩ := Prod.mk.inj h2
  exact ⟨h2.symm, h3.symm, h1.symm⟩

theorem deleteFakeStack_cases {t t' : AsanThread} {h h' : FakeStacks}
    (hdelete : t.deleteFakeStack h = .ok (t', h')) : t'.fakeStack = 0 ∧
      (t.fakeStack = 0 ∧ h' = h ∨ t.fakeStack ≠ 0 ∧ h.destroy t.fakeStack = .ok h') := by
  unfold AsanThread.deleteFakeStack at hdelete
  split_ifs at hdelete with hzero
  · obtain ⟨rfl, rfl⟩ := Prod.mk.inj (Except.ok.inj hdelete)
    exact ⟨hzero, Or.inl ⟨hzero, rfl⟩⟩
  · cases hdestroy : h.destroy t.fakeStack with
    | error e => rw [hdestroy] at hdelete; exact absurd hdelete nofun
    | ok h₁ =>
      rw [hdestroy] at hdelete
      obtain ⟨rfl, rfl⟩ := Prod.mk.inj (Except.ok.inj hdelete)
      exact ⟨rfl, Or.inr ⟨hzero, rfl⟩⟩

theorem Inv.suspended_of_small (h : Inv stack w) (hsmall : w.thread.fakeStack ≤ 1) {a : ℕ}
    {s : FakeStack} (ha : w.fakeStacks.live a = some s) :
    w.status (w.owner s.id) = .suspended ∧ w.slot (w.owner s.id) = a := by
  refine (h.place a s ha).resolve_right fun hplace => ?_
  have := h.valid.address a s ha
  omega

theorem Inv.beginCreate (h : Inv stack w) {f : Fiber} {curStack : Word} {t : AsanThread}
    (hcontrol : w.control = .running f)
    (hcreate : w.thread.getOrCreateFakeStack curStack = .creating t) :
    Inv stack { w with thread := t, control := .creating f } := by
  obtain ⟨hzero, rfl⟩ := getOrCreateFakeStack_creating hcreate
  have hthread := h.thread
  rw [ThreadInv, hcontrol] at hthread
  obtain ⟨hswitching, hbounds, -⟩ := hthread
  refine ⟨h.valid, ⟨hswitching, hbounds, rfl⟩, fun g => ?_, fun a s ha => ?_, h.slot, ?_, h.report⟩
  · rw [h.active, hcontrol]
    rfl
  · exact Or.inl (h.suspended_of_small (by omega) ha)
  · intro id hid
    refine (h.gone id hid).imp_right fun hd => ?_
    rw [hcontrol] at hd
    exact absurd hd nofun

/-- A fake stack is created for the fiber that the thread is on. -/
theorem Inv.create (h : Inv stack w) {f : Fiber} {curStack : Word} {a : ℕ}
    (hcontrol : w.control = .creating f) (ha : 1 < a) (hfree : w.fakeStacks.live a = none) :
    Inv stack { w with
      thread := (w.thread.finishLazyInit w.fakeStacks flags curStack a).1
      fakeStacks := (w.thread.finishLazyInit w.fakeStacks flags curStack a).2
      control := .running f
      owner := Function.update w.owner w.fakeStacks.created f } := by
  have hthread := h.thread
  rw [ThreadInv, hcontrol] at hthread
  obtain ⟨hswitching, hbounds, hone⟩ := hthread
  -- The owners of the others stay.
  have howner : ∀ b s, w.fakeStacks.live b = some s →
      Function.update w.owner w.fakeStacks.created f s.id = w.owner s.id := fun b s hb =>
    Function.update_of_ne (h.valid.mapped b s hb).1.ne _ _
  have hlive : ∀ b, b ≠ a → (w.fakeStacks.create (flags.stackSizeLog
      (w.thread.stackSize curStack).toNat) a).live b = w.fakeStacks.live b := fun b hb =>
    Function.update_of_ne hb _ _
  have hself : (w.fakeStacks.create (flags.stackSizeLog
      (w.thread.stackSize curStack).toNat) a).live a = some ⟨w.fakeStacks.created, _⟩ :=
    Function.update_self _ _ _
  have hactive : w.status f = .active := (h.active f).mpr (by rw [hcontrol]; rfl)
  refine ⟨h.valid.create _ ha hfree, ⟨hswitching, hbounds, rfl, Or.inr ⟨_, hself, ?_⟩⟩, fun g => ?_,
    fun b s hb => ?_, fun g hg => ?_, fun id hid => ?_, h.report⟩
  · exact Function.update_self _ _ _
  · rw [h.active, hcontrol]
    rfl
  · rcases eq_or_ne b a with rfl | hba
    · obtain rfl := Option.some.inj (hself.symm.trans hb)
      right
      dsimp only
      rw [Function.update_self]
      exact ⟨hactive, rfl⟩
    · have hb' := (hlive b hba).symm.trans hb
      left
      dsimp only
      rw [howner b s hb']
      exact h.suspended_of_small (by omega) hb'
  · refine (h.slot g hg).imp_right ?_
    rintro ⟨s, hs, hsg⟩
    have hne : w.slot g ≠ a := by
      intro heq
      rw [heq, hfree] at hs
      exact absurd hs nofun
    exact ⟨s, (hlive _ hne).trans hs, (howner _ s hs).trans hsg⟩
  · have hne : id ≠ w.fakeStacks.created := (h.valid.destroyed id hid).ne
    dsimp only
    rw [Function.update_of_ne hne]
    refine (h.gone id hid).imp_right fun hd => ?_
    rw [hcontrol] at hd
    exact absurd hd nofun

theorem Inv.suspended_of_ne (h : Inv stack w) {f : Fiber} (hon : w.control.on = some f) {a : ℕ}
    {s : FakeStack} (ha : w.fakeStacks.live a = some s) (hne : w.owner s.id ≠ f) :
    w.status (w.owner s.id) = .suspended ∧ w.slot (w.owner s.id) = a := by
  refine (h.place a s ha).resolve_right fun hplace => ?_
  have hactive := (h.active _).mp hplace.1
  exact hne (Option.some.inj (hactive.symm.trans hon))

theorem Inv.current_of_eq (h : Inv stack w) {a : ℕ} {s : FakeStack}
    (ha : w.fakeStacks.live a = some s) (hon : w.control.on = some (w.owner s.id)) :
    w.thread.fakeStack = a := by
  refine ((h.place a s ha).resolve_left fun hplace => ?_).2
  rw [(h.active _).mpr hon] at hplace
  exact absurd hplace.1 nofun

/-- The current fake stack is destroyed: nothing that is mapped is left of the fiber. -/
theorem Inv.dropCurrent (h : Inv stack w) {f : Fiber} (hcontrol : w.control = .running f) {h' : FakeStacks}
    (hdrop : w.thread.fakeStack = 0 ∧ h' = w.fakeStacks ∨
      w.thread.fakeStack ≠ 0 ∧ w.fakeStacks.destroy w.thread.fakeStack = .ok h') :
    h'.Valid ∧ (∀ a s, h'.live a = some s ↔ w.fakeStacks.live a = some s ∧ w.owner s.id ≠ f) ∧
      ∀ id ∈ h'.destroyed, id ∈ w.fakeStacks.destroyed ∨ w.owner id = f := by
  have hon : w.control.on = some f := by rw [hcontrol]; rfl
  have hthread := h.thread
  rw [ThreadInv, hcontrol] at hthread
  rcases hdrop with ⟨hzero, rfl⟩ | ⟨hne, hdestroy⟩
  · refine ⟨h.valid, fun a s => (and_iff_left_of_imp fun ha hof => ?_).symm, fun _ => Or.inl⟩
    have hcur := h.current_of_eq ha (hon.trans (congrArg some hof.symm))
    have := h.valid.address a s ha
    omega
  · obtain ⟨s, hs, hof⟩ := hthread.2.2.2.resolve_left hne
    obtain ⟨h₁, hdestroy', hvalid, -, hdestroyed, hlive⟩ := h.valid.destroy hs
    obtain rfl := Except.ok.inj (hdestroy'.symm.trans hdestroy)
    refine ⟨hvalid, fun a s' => ?_, fun id hid => ?_⟩
    · rw [hlive]
      split_ifs with ha
      · refine iff_of_false nofun fun hs' => hs'.2 ?_
        rw [ha, hs] at hs'
        exact Option.some.inj hs'.1 ▸ hof
      · refine (and_iff_left_of_imp fun ha' hof' => ha ?_).symm
        exact (h.current_of_eq ha' (hon.trans (congrArg some hof'.symm))).symm
    · rw [hdestroyed] at hid
      rcases List.mem_cons.mp hid with rfl | hid
      · exact Or.inr hof
      · exact Or.inl hid

/-- A switch begins, and the fiber that is left keeps its fake stack in its slot. -/
theorem Inv.startSuspend [DecidableEq Fiber] (h : Inv stack w) {f g : Fiber}
    (hcontrol : w.control = .running f)
    (hnext : w.status g = .unborn ∨ w.status g = .suspended ∨ g = f) :
    Inv stack { w with
      thread := { w.thread with
        nextStackBottom := (stack g).1
        nextStackTop := (stack g).1 + (stack g).2
        stackSwitching := true
        fakeStack := 0
        tlsFakeStack := 0 }
      slot := Function.update w.slot f w.thread.fakeStack
      status := Function.update w.status f .suspended
      control := .switching f g } := by
  have hthread := h.thread
  rw [ThreadInv, hcontrol] at hthread
  obtain ⟨-, hbounds, -, howned⟩ := hthread
  have hon : w.control.on = some f := by rw [hcontrol]; rfl
  refine ⟨h.valid, ⟨rfl, hbounds, rfl, rfl, rfl, rfl, ?_⟩, fun e => ?_, fun a s ha => Or.inl ?_,
    fun e he => ?_, fun id hid => ?_, h.report⟩
  · dsimp only
    rcases eq_or_ne g f with rfl | hgf
    · exact Or.inr (Function.update_self _ _ _)
    · rw [Function.update_of_ne hgf]
      exact hnext.imp_right fun h => h.resolve_right hgf
  · refine iff_of_false ?_ nofun
    dsimp only
    rcases eq_or_ne e f with rfl | hef
    · rw [Function.update_self]
      nofun
    · rw [Function.update_of_ne hef, h.active, hon]
      exact fun h => hef (Option.some.inj h).symm
  · dsimp only
    rcases eq_or_ne (w.owner s.id) f with hof | hof
    · rw [hof, Function.update_self, Function.update_self]
      exact ⟨rfl, h.current_of_eq ha (hon.trans (congrArg some hof.symm))⟩
    · rw [Function.update_of_ne hof, Function.update_of_ne hof]
      exact h.suspended_of_ne hon ha hof
  · dsimp only at he ⊢
    rcases eq_or_ne e f with rfl | hef
    · rw [Function.update_self]
      exact howned
    · rw [Function.update_of_ne hef] at he ⊢
      exact h.slot e he
  · left
    dsimp only
    have hdead := (h.gone id hid).resolve_right fun hd => by
      rw [hcontrol] at hd
      exact absurd hd nofun
    have hof : w.owner id ≠ f := by
      intro hof
      rw [hof, (h.active f).mpr hon] at hdead
      exact absurd hdead nofun
    rw [Function.update_of_ne hof]
    exact hdead

theorem Inv.dead_of_gone (h : Inv stack w) {f : Fiber} (hcontrol : w.control = .running f) {id : ℕ}
    (hid : id ∈ w.fakeStacks.destroyed) : w.status (w.owner id) = .dead := by
  refine (h.gone id hid).resolve_right fun hd => ?_
  rw [hcontrol] at hd
  exact absurd hd nofun

/-- A switch begins, and the fiber that is left dies. -/
theorem Inv.startDie [DecidableEq Fiber] (h : Inv stack w) {f g : Fiber} {h' : FakeStacks}
    (hcontrol : w.control = .running f) (hnext : w.status g = .unborn ∨ w.status g = .suspended)
    (hdrop : w.thread.fakeStack = 0 ∧ h' = w.fakeStacks ∨
      w.thread.fakeStack ≠ 0 ∧ w.fakeStacks.destroy w.thread.fakeStack = .ok h') :
    Inv stack { w with
      thread := { w.thread with
        nextStackBottom := (stack g).1
        nextStackTop := (stack g).1 + (stack g).2
        stackSwitching := true
        fakeStack := 0
        tlsFakeStack := 0 }
      fakeStacks := h'
      status := Function.update w.status f .dead
      control := .switching f g } := by
  obtain ⟨hvalid, hlive, hdestroyed⟩ := h.dropCurrent hcontrol hdrop
  have hthread := h.thread
  rw [ThreadInv, hcontrol] at hthread
  have hon : w.control.on = some f := by rw [hcontrol]; rfl
  have hactive := (h.active f).mpr hon
  refine ⟨hvalid, ⟨rfl, hthread.2.1, rfl, rfl, rfl, rfl, ?_⟩, fun e => ?_, fun a s ha => Or.inl ?_,
    fun e he => ?_, fun id hid => Or.inl ?_, h.report⟩
  · have hgf : g ≠ f := by
      rintro rfl
      rw [hactive] at hnext
      exact absurd hnext (by decide)
    dsimp only
    rwa [Function.update_of_ne hgf]
  · refine iff_of_false ?_ nofun
    dsimp only
    rcases eq_or_ne e f with rfl | hef
    · rw [Function.update_self]
      nofun
    · rw [Function.update_of_ne hef, h.active, hon]
      exact fun h => hef (Option.some.inj h).symm
  · obtain ⟨ha, hof⟩ := (hlive a s).mp ha
    dsimp only
    rw [Function.update_of_ne hof]
    exact h.suspended_of_ne hon ha hof
  · dsimp only at he ⊢
    have hef : e ≠ f := by
      rintro rfl
      rw [Function.update_self] at he
      exact absurd he nofun
    rw [Function.update_of_ne hef] at he
    refine (h.slot e he).imp_right ?_
    rintro ⟨s, hs, hse⟩
    exact ⟨s, (hlive _ s).mpr ⟨hs, hse ▸ hef⟩, hse⟩
  · dsimp only
    rcases eq_or_ne (w.owner id) f with hof | hof
    · rw [hof, Function.update_self]
    · rw [Function.update_of_ne hof]
      exact h.dead_of_gone hcontrol ((hdestroyed id hid).resolve_right hof)

theorem Inv.destroy (h : Inv stack w) {f : Fiber} {t : AsanThread} {h' : FakeStacks}
    (hcontrol : w.control = .running f) (hdelete : w.thread.deleteFakeStack w.fakeStacks = .ok (t, h')) :
    Inv stack { w with thread := t, fakeStacks := h', control := .destroyed f } := by
  obtain ⟨hzero, hdrop⟩ := deleteFakeStack_cases hdelete
  obtain ⟨hvalid, hlive, hdestroyed⟩ := h.dropCurrent hcontrol hdrop
  have hon : w.control.on = some f := by rw [hcontrol]; rfl
  refine ⟨hvalid, hzero, fun e => (h.active e).trans (by rw [hon]; rfl), fun a s ha => Or.inl ?_,
    fun e he => ?_, fun id hid => ?_, h.report⟩
  · obtain ⟨ha, hof⟩ := (hlive a s).mp ha
    exact h.suspended_of_ne hon ha hof
  · refine (h.slot e he).imp_right ?_
    rintro ⟨s, hs, hse⟩
    refine ⟨s, (hlive _ s).mpr ⟨hs, ?_⟩, hse⟩
    rintro hof
    dsimp only at he
    rw [← hse, hof, (h.active f).mpr hon] at he
    exact absurd he nofun
  · rcases hdestroyed id hid with hid | hof
    · exact Or.inl (h.dead_of_gone hcontrol hid)
    · exact Or.inr (congrArg Control.destroyed hof.symm)

/-- A switch ends. -/
theorem Inv.finish [DecidableEq Fiber] (h : Inv stack w) {f g : Fiber} {t : AsanThread}
    {bottom size : Word} (hcontrol : w.control = .switching f g)
    (hfinish : w.thread.finishSwitchFiber (if w.status g = .unborn then 0 else w.slot g) =
      .ok (t, bottom, size)) :
    Inv stack { w with
      thread := t
      status := Function.update w.status g .active
      control := .running g
      report := some (f, bottom, size) } := by
  obtain ⟨rfl, rfl, rfl⟩ := finishSwitchFiber_cases hfinish
  have hthread := h.thread
  rw [ThreadInv, hcontrol] at hthread
  obtain ⟨-, hbounds, hnextBottom, hnextTop, hzero, htls, hstatus⟩ := hthread
  -- No fiber is active in a switch.
  have hnone : ∀ e, w.status e ≠ .active := by
    intro e he
    rw [h.active, hcontrol] at he
    exact absurd he nofun
  generalize hsave : (if w.status g = .unborn then 0 else w.slot g) = save
  have hfake : (if save ≠ 0 then save else w.thread.fakeStack) = save := by
    rw [hzero]
    split_ifs <;> omega
  have htls' : (if save ≠ 0 then save else w.thread.tlsFakeStack) = save := by
    rw [htls]
    split_ifs <;> omega
  rw [hfake, htls']
  have hsuspended : w.status g = .suspended → save = w.slot g := fun hg => by
    rw [← hsave, hg, if_neg (by decide)]
  have howned : w.Owned save g := by
    rcases hstatus with hg | hg
    · exact Or.inl (by rw [← hsave, if_pos hg])
    · exact hsuspended hg ▸ h.slot g hg
  refine ⟨h.valid, ⟨rfl, ⟨hnextBottom, hnextTop⟩, rfl, howned⟩, fun e => ?_, fun a s ha => ?_,
    fun e he => ?_, fun id hid => Or.inl ?_, fun e bottom size he => ?_⟩
  · dsimp only
    rcases eq_or_ne e g with rfl | heg
    · exact iff_of_true (Function.update_self _ _ _) rfl
    · rw [Function.update_of_ne heg]
      exact iff_of_false (hnone e) fun h => heg (Option.some.inj h).symm
  · obtain ⟨hs, hslot⟩ := h.suspended_of_small (by omega) ha
    dsimp only
    rcases eq_or_ne (w.owner s.id) g with hg | hg
    · right
      rw [hg] at hs hslot ⊢
      exact ⟨Function.update_self _ _ _, (hsuspended hs).trans hslot⟩
    · left
      rw [Function.update_of_ne hg]
      exact ⟨hs, hslot⟩
  · dsimp only at he ⊢
    have heg : e ≠ g := by
      rintro rfl
      rw [Function.update_self] at he
      exact absurd he nofun
    rw [Function.update_of_ne heg] at he
    exact h.slot e he
  · have hdead : w.status (w.owner id) = .dead := by
      refine (h.gone id hid).resolve_right fun hd => ?_
      rw [hcontrol] at hd
      exact absurd hd nofun
    have hg : w.owner id ≠ g := by
      intro hg
      rw [hg] at hdead
      rw [hdead] at hstatus
      exact absurd hstatus (by decide)
    dsimp only
    rw [Function.update_of_ne hg]
    exact hdead
  · obtain ⟨rfl, hbt⟩ := Prod.mk.inj (Option.some.inj he)
    obtain ⟨rfl, rfl⟩ := Prod.mk.inj hbt
    refine Prod.ext hbounds.1 ?_
    rw [hbounds.1, hbounds.2, BitVec.add_comm]
    exact BitVec.add_sub_cancel _ _

theorem Inv.step [DecidableEq Fiber] (h : Inv stack w) (hstep : Step flags stack w w') :
    Inv stack w' := by
  cases hstep with
  | beginCreate f curStack hcontrol hcreate => exact h.beginCreate hcontrol hcreate
  | create f curStack a hcontrol ha hfree => exact h.create hcontrol ha hfree
  | start f g dies hcontrol hnext hstart =>
    obtain ⟨rfl, ⟨rfl, rfl, rfl⟩ | ⟨rfl, rfl, hdrop⟩⟩ := startSwitchFiber_cases hstart
    · exact h.startSuspend hcontrol (hnext.imp_right (Or.imp_right And.left))
    · refine h.startDie hcontrol (hnext.imp_right fun h => h.resolve_right fun hf => ?_) hdrop
      exact absurd hf.2 nofun
  | finish f g hcontrol hfinish => exact h.finish hcontrol hfinish
  | destroy f hcontrol hdelete => exact h.destroy hcontrol hdelete

theorem Inv.of_reachable [DecidableEq Fiber] {f : Fiber} (h : Reachable flags stack f w) :
    Inv stack w := by
  induction h with
  | refl => exact inv_initial f
  | tail _ hstep ih => exact ih.step hstep

/-! ## What the calls guarantee -/

/-- Where a fake stack can be. -/
inductive Place (Fiber : Type)
  /-- It is the current one. -/
  | current
  /-- It is in the slot of a suspended fiber. -/
  | slot (f : Fiber)
  /-- It has been destroyed. -/
  | destroyed

/-- The fake stack with the number `id` is at a place. -/
def World.At (w : World Fiber) (id : ℕ) : Place Fiber → Prop
  | .current => ∃ s, w.fakeStacks.live w.thread.fakeStack = some s ∧ s.id = id
  | .slot f => w.status f = .suspended ∧ ∃ s, w.fakeStacks.live (w.slot f) = some s ∧ s.id = id
  | .destroyed => id ∈ w.fakeStacks.destroyed

/-- What holds in every run. -/
structure Correct (stack : Fiber → Word × Word) (w : World Fiber) : Prop where
  /-- On a fiber, the bounds are those of its stack. -/
  bounds : ∀ f, w.control = .running f → w.thread.stackBottom = (stack f).1 ∧
    w.thread.stackTop = (stack f).1 + (stack f).2
  /-- The old bounds that a switch has reported are those of the fiber that was left. -/
  report : ∀ f bottom size, w.report = some (f, bottom, size) → (bottom, size) = stack f
  /-- On a fiber, the thread and the TLS have its own fake stack, or none. -/
  current : ∀ f, w.control = .running f → w.thread.tlsFakeStack = w.thread.fakeStack ∧
    (w.thread.fakeStack = 0 ∨
      ∃ s, w.fakeStacks.live w.thread.fakeStack = some s ∧ w.owner s.id = f)
  /-- In a switch there is no fake stack to get. -/
  switching : ∀ f g, w.control = .switching f g → w.thread.getFakeStack = 0 ∧
    ∀ curStack, w.thread.getOrCreateFakeStack curStack = .returned 0
  /-- A fake stack is at one place. -/
  place : ∀ id < w.fakeStacks.created, ∃! p, w.At id p
  /-- None is destroyed twice. -/
  once : w.fakeStacks.destroyed.Nodup
  /-- Those are destroyed whose fiber has died, or on whose fiber the thread has been destroyed. -/
  destroyed : ∀ id < w.fakeStacks.created, id ∈ w.fakeStacks.destroyed ↔
    w.status (w.owner id) = .dead ∨ w.control = .destroyed (w.owner id)
  /-- The next call does not stop the program. -/
  safe : (∀ f, w.control = .running f → (∀ dies bottom size fault,
      w.thread.startSwitchFiber w.fakeStacks dies bottom size ≠ .error fault) ∧
      ∀ fault, w.thread.deleteFakeStack w.fakeStacks ≠ .error fault) ∧
    ∀ f g, w.control = .switching f g →
      ∀ save fault, w.thread.finishSwitchFiber save ≠ .error fault

theorem Inv.active_of_current (h : Inv stack w) {s : FakeStack}
    (hs : w.fakeStacks.live w.thread.fakeStack = some s) : w.status (w.owner s.id) = .active := by
  have haddress := h.valid.address _ s hs
  have hthread := h.thread
  unfold ThreadInv at hthread
  split at hthread
  · next f hcontrol =>
    obtain ⟨s', hs', rfl⟩ := hthread.2.2.2.resolve_left (by omega)
    obtain rfl := Option.some.inj (hs'.symm.trans hs)
    exact (h.active _).mpr (by rw [hcontrol]; rfl)
  · next => omega
  · next => omega
  · next => omega

theorem Inv.owner_of_slot (h : Inv stack w) {f : Fiber} {s : FakeStack} (hf : w.status f = .suspended)
    (hs : w.fakeStacks.live (w.slot f) = some s) : w.owner s.id = f := by
  have haddress := h.valid.address _ s hs
  obtain ⟨s', hs', hof⟩ := (h.slot f hf).resolve_left (by omega)
  exact Option.some.inj (hs'.symm.trans hs) ▸ hof

/-- A fake stack is at one place. -/
theorem Inv.existsUnique_place (h : Inv stack w) {id : ℕ} (hid : id < w.fakeStacks.created) :
    ∃! p, w.At id p := by
  rcases h.valid.cover id hid with hgone | ⟨a, s, ha, rfl⟩
  · refine ⟨.destroyed, hgone, ?_⟩
    rintro (_ | f | _) hp
    · obtain ⟨s, hs, rfl⟩ := hp
      exact absurd hgone (h.valid.mapped _ s hs).2
    · obtain ⟨-, s, hs, rfl⟩ := hp
      exact absurd hgone (h.valid.mapped _ s hs).2
    · rfl
  · have hmapped := (h.valid.mapped a s ha).2
    rcases h.place a s ha with ⟨hsuspended, hslot⟩ | ⟨hactive, hcurrent⟩
    · refine ⟨.slot (w.owner s.id), ⟨hsuspended, s, hslot ▸ ha, rfl⟩, ?_⟩
      rintro (_ | f | _) hp
      · obtain ⟨s', hs', heq⟩ := hp
        have hactive := h.active_of_current hs'
        rw [heq, hsuspended] at hactive
        exact absurd hactive nofun
      · obtain ⟨hf, s', hs', heq⟩ := hp
        rw [← h.owner_of_slot hf hs', heq]
      · exact absurd hp hmapped
    · refine ⟨.current, ⟨s, hcurrent ▸ ha, rfl⟩, ?_⟩
      rintro (_ | f | _) hp
      · rfl
      · obtain ⟨hf, s', hs', heq⟩ := hp
        rw [← h.owner_of_slot hf hs', heq, hactive] at hf
        exact absurd hf nofun
      · exact absurd hp hmapped

theorem Inv.destroyed_iff (h : Inv stack w) {id : ℕ} (hid : id < w.fakeStacks.created) :
    id ∈ w.fakeStacks.destroyed ↔
      w.status (w.owner id) = .dead ∨ w.control = .destroyed (w.owner id) := by
  refine ⟨h.gone id, fun hwhy => (h.valid.cover id hid).resolve_right ?_⟩
  rintro ⟨a, s, ha, rfl⟩
  have haddress := h.valid.address a s ha
  rcases hwhy with hdead | hcontrol
  · rcases h.place a s ha with ⟨hs, -⟩ | ⟨hs, -⟩
    all_goals
      rw [hdead] at hs
      exact absurd hs nofun
  · have hcurrent := h.current_of_eq ha (by rw [hcontrol]; rfl)
    have hthread := h.thread
    rw [ThreadInv, hcontrol] at hthread
    dsimp only at hthread
    omega

/-- A switch can begin on a fiber, and the thread can be destroyed. -/
theorem Inv.safe_of_running (h : Inv stack w) {f : Fiber} (hcontrol : w.control = .running f) :
    (∀ dies bottom size fault,
      w.thread.startSwitchFiber w.fakeStacks dies bottom size ≠ .error fault) ∧
      ∀ fault, w.thread.deleteFakeStack w.fakeStacks ≠ .error fault := by
  have hthread := h.thread
  rw [ThreadInv, hcontrol] at hthread
  obtain ⟨hswitching, -, -, howned⟩ := hthread
  have hdestroy : w.thread.fakeStack ≠ 0 → ∃ h', w.fakeStacks.destroy w.thread.fakeStack = .ok h' := by
    intro hne
    obtain ⟨s, hs, -⟩ := howned.resolve_left hne
    obtain ⟨h', hok, -⟩ := h.valid.destroy hs
    exact ⟨h', hok⟩
  constructor
  · intro dies bottom size fault
    unfold AsanThread.startSwitchFiber
    rw [hswitching, if_neg (by decide)]
    dsimp only
    split_ifs with hdies hzero
    · nofun
    · nofun
    · obtain ⟨h', hok⟩ := hdestroy hzero
      rw [hok]
      nofun
  · intro fault
    unfold AsanThread.deleteFakeStack
    split_ifs with hzero
    · nofun
    · obtain ⟨h', hok⟩ := hdestroy hzero
      rw [hok]
      nofun

/-- In every run the bounds are those of the running fiber, and each fake stack is with its fiber until it is
destroyed, which happens once. -/
theorem correct_of_reachable [DecidableEq Fiber] {f : Fiber} (h : Reachable flags stack f w) :
    Correct stack w := by
  have hinv := Inv.of_reachable h
  have hthread := hinv.thread
  refine ⟨fun f hcontrol => ?_, hinv.report, fun f hcontrol => ?_, fun f g hcontrol => ?_,
    fun id hid => hinv.existsUnique_place hid, hinv.valid.nodup, fun id hid => hinv.destroyed_iff hid,
    fun f hcontrol => hinv.safe_of_running hcontrol, fun f g hcontrol save fault => ?_⟩
  all_goals rw [ThreadInv, hcontrol] at hthread
  · exact hthread.2.1
  · exact hthread.2.2
  · unfold AsanThread.getFakeStack
    refine ⟨if_pos hthread.1, fun curStack => ?_⟩
    unfold AsanThread.getOrCreateFakeStack
    rw [if_pos hthread.1]
  · unfold AsanThread.finishSwitchFiber
    rw [hthread.1, if_neg (by decide)]
    nofun

end Invariant

/-- The default bounds of the size of a fake stack. -/
def defaultFlags : Flags := ⟨16, 20, by decide⟩

/-- Two fibers, of which the first creates a fake stack and is left for the second. -/
theorem correct_of_reachable_twoFibers :
    ∃ w : World Bool, Reachable defaultFlags (fun f => if f then (65536, 8192) else (4096, 8192)) false w ∧
      w.control = .running true ∧ w.slot false = 1048576 ∧ w.report = some (false, 4096, 8192) ∧
      Correct (fun f => if f then (65536, 8192) else (4096, 8192)) w := by
  have hrun : ∃ w : World Bool,
      Reachable defaultFlags (fun f => if f then (65536, 8192) else (4096, 8192)) false w ∧
      w.control = .running true ∧ w.slot false = 1048576 ∧ w.report = some (false, 4096, 8192) :=
    ⟨_, ReflTransGen.tail (ReflTransGen.tail (ReflTransGen.tail (ReflTransGen.tail .refl
      (Step.beginCreate false 5000 rfl rfl)) (Step.create false 5000 1048576 rfl (by decide) rfl))
      (Step.start false true false rfl (Or.inl rfl) rfl)) (Step.finish false true rfl rfl),
      rfl, rfl, rfl⟩
  obtain ⟨w, hw, hcontrol, hslot, hreport⟩ := hrun
  exact ⟨w, hw, hcontrol, hslot, hreport, correct_of_reachable hw⟩

end Tasan.Fibers
