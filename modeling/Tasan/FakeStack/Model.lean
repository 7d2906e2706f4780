import Tasan.Memory
import Tasan.FakeStack.Layout

/-!
# The operations of a fake stack

`Allocate`, `Deallocate`, `HandleNoReturn`, `GC` and `ForEachFakeFrame` of `asan_fake_stack.cpp`, on a
byte memory. The object begins with `hint_position_`, `stack_size_log_` and `needs_gc_`, which are kept
apart from the memory. The shadow of a frame that `GC` poisons is left out.
-/

namespace Tasan.FakeFrames

/-- The fields that change, and the memory of the flags and the frames. -/
structure State where
  hintPosition : ℕ → ℕ
  needsGc : Bool
  /-- The memory. -/
  mem : Mem

section Operations

variable (fs : FakeStack)

/-- `real_stack` of a frame. -/
def FakeStack.realStack (mem : Mem) (f : Frame) : ℕ := mem.readLE (fs.frame f + realStackOffset) 8

/-- What `GC` does with one frame. -/
def FakeStack.gcFrame (bottom realStack : ℕ) (mem : Mem) (f : Frame) : Mem :=
  if mem (fs.flag f) = 0 then mem
  else if bottom < fs.realStack mem f ∧ fs.realStack mem f < realStack then mem.set (fs.flag f) 0
  else mem

/-- The two loops over all frames of `GC` and `ForEachFakeFrame`. -/
def FakeStack.forFrames {α : Type} (body : α → Frame → α) (init : α) : α :=
  (List.range kNumberOfSizeClasses).foldl (fun acc classId =>
    (List.range (numberOfFrames fs.stackSizeLog classId)).foldl (fun acc i => body acc ⟨classId, i⟩)
      acc) init

/-- `GC`. The thread, if there is one, has the top and the bottom of its stack. -/
def FakeStack.gc (s : State) (thread : Option (ℕ × ℕ)) (realStack : ℕ) : State :=
  match thread with
  | none => s  -- try again when there is a thread
  | some (top, bottom) =>
    if realStack < bottom ∨ realStack > top then s  -- not the default stack
    else { s with needsGc := false, mem := fs.forFrames (fs.gcFrame bottom realStack) s.mem }

/-- `const int num_iter = NumberOfFrames(..)`: the number of rounds of the loop up to it. -/
def numIter (n : ℕ) : ℕ := (BitVec.ofNat 32 n).toInt.toNat

/-- The loop of `Allocate`. -/
def FakeStack.probe (classId realStack : ℕ) : ℕ → State → State × Option ℕ
  | 0, s => (s, none)
  | n + 1, s =>
    let pos := moduloNumberOfFrames fs.stackSizeLog classId (s.hintPosition classId)
    let s := { s with
      hintPosition := Function.update s.hintPosition classId ((s.hintPosition classId + 1) % 2 ^ 64) }
    let flag := fs.getFlags classId + pos
    if s.mem flag ≠ 0 then FakeStack.probe classId realStack n s
    else
      let res := fs.getFrame classId pos
      let mem := s.mem.set flag 1
      let mem := mem.writeLE (res + realStackOffset) 8 realStack
      let mem := mem.writeLE (savedFlagPtr res classId) 8 flag
      ({ s with mem := mem }, some res)

/-- The state after the garbage collection of `Allocate`. -/
def FakeStack.collect (s : State) (thread : Option (ℕ × ℕ)) (realStack : ℕ) : State :=
  if s.needsGc then fs.gc s thread realStack else s

/-- `Allocate`: the frame, if there is one. -/
def FakeStack.allocate (s : State) (thread : Option (ℕ × ℕ)) (classId realStack : ℕ) :
    Option (State × Option ℕ) :=
  if classId < kNumberOfSizeClasses then
    let s := fs.collect s thread realStack
    some (fs.probe classId realStack (numIter (numberOfFrames fs.stackSizeLog classId)) s)
  else none

/-- `Deallocate`. -/
def State.deallocate (s : State) (x classId : ℕ) : State :=
  { s with mem := s.mem.set (s.mem.readLE (savedFlagPtr x classId) 8) 0 }

/-- `HandleNoReturn`. -/
def State.handleNoReturn (s : State) : State := { s with needsGc := true }

/-- `ForEachFakeFrame`: the ranges with which it calls the callback, in order. -/
def FakeStack.forEachFakeFrame (s : State) : List (ℕ × ℕ) :=
  fs.forFrames (fun acc f => if s.mem (fs.flag f) = 0 then acc
    else acc ++ [(fs.frame f, fs.frame f + f.size)]) []

end Operations

/-! ## The loops over all frames -/

section Loops

variable {fs : FakeStack} {f : Frame}

/-- All frames, class by class. -/
def FakeStack.frames (fs : FakeStack) : List Frame :=
  (List.range kNumberOfSizeClasses).flatMap fun classId =>
    (List.range (numberOfFrames fs.stackSizeLog classId)).map fun i => ⟨classId, i⟩

theorem FakeStack.forFrames_eq {α : Type} (body : α → Frame → α) (init : α) :
    fs.forFrames body init = fs.frames.foldl body init := by
  unfold FakeStack.forFrames FakeStack.frames
  rw [List.foldl_flatMap]
  simp only [List.foldl_map]

theorem FakeStack.mem_frames : f ∈ fs.frames ↔ f.Valid fs := by
  unfold FakeStack.frames
  simp only [List.mem_flatMap, List.mem_range, List.mem_map]
  constructor
  · rintro ⟨c, hc, i, hi, rfl⟩
    exact ⟨hc, hi⟩
  · intro hf
    exact ⟨f.classId, hf.class_lt, f.pos, hf.pos_lt, rfl⟩

/-- `GC` clears the flags of the frames that are lower than the current frame of the stack, and changes
nothing else. -/
theorem FakeStack.gcFrames_spec (bottom realStack : ℕ) {l : List Frame} (hl : ∀ f ∈ l, f.Valid fs)
    (mem : Mem) :
    (∀ f ∈ l, l.foldl (fs.gcFrame bottom realStack) mem (fs.flag f) =
      if bottom < fs.realStack mem f ∧ fs.realStack mem f < realStack then 0 else mem (fs.flag f)) ∧
    ∀ a, (∀ f ∈ l, a ≠ fs.flag f) → l.foldl (fs.gcFrame bottom realStack) mem a = mem a := by
  induction l generalizing mem with
  | nil => exact ⟨by simp, fun _ _ => rfl⟩
  | cons g l ih =>
    have hg := hl g List.mem_cons_self
    obtain ⟨hflags, hrest⟩ := ih (fun f hf => hl f (List.mem_cons_of_mem g hf))
      (fs.gcFrame bottom realStack mem g)
    rw [List.foldl_cons]
    -- one frame
    have hself : fs.gcFrame bottom realStack mem g (fs.flag g) =
        if bottom < fs.realStack mem g ∧ fs.realStack mem g < realStack then 0
        else mem (fs.flag g) := by
      unfold FakeStack.gcFrame
      by_cases hzero : mem (fs.flag g) = 0
      · rw [if_pos hzero, hzero, ite_self]
      · rw [if_neg hzero]
        split
        · exact Mem.set_self _ _ _
        · rfl
    have hother : ∀ a, a ≠ fs.flag g → fs.gcFrame bottom realStack mem g a = mem a := by
      intro a ha
      unfold FakeStack.gcFrame
      split
      · rfl
      · split
        · exact Mem.set_of_ne _ _ ha
        · rfl
    have hstack : ∀ f, f.Valid fs →
        fs.realStack (fs.gcFrame bottom realStack mem g) f = fs.realStack mem f := by
      intro f hf
      apply Mem.readLE_congr
      intro x hx _
      apply hother
      have := hg.flag_lt_frame hf
      unfold realStackOffset at hx
      omega
    constructor
    · intro f hf
      by_cases hmem : f ∈ l
      · rw [hflags f hmem, hstack f (hl f hf)]
        by_cases hfg : f = g
        · rw [hfg, hself]
          split <;> rfl
        · rw [hother _ fun heq => hfg ((hl f hf).flag_inj hg heq)]
      · obtain rfl : f = g := (List.mem_cons.mp hf).resolve_right hmem
        rw [hrest, hself]
        intro g' hg' heq
        exact hmem (hg.flag_inj (hl g' (List.mem_cons_of_mem f hg')) heq ▸ hg')
    · intro a ha
      rw [hrest a fun f hf => ha f (List.mem_cons_of_mem g hf), hother a (ha g List.mem_cons_self)]

end Loops

end Tasan.FakeFrames
