import Tasan.Fuel
import Tasan.Memory

/-!
# The fast unwinder

`BufferedStackTrace::UnwindFast` of `sanitizer_stacktrace.cpp` for x86-64, where a frame is the
saved frame pointer and then the return address. What is on the stack may be anything, so that only
the bound that moves up with each frame makes the walk end. `unwindFast_eq` says that it ends, reads
nothing outside the stack, and finds the return addresses of the longest chain of frames
(`IsLongest`).
-/

namespace Tasan.StackTrace

/-- What goes wrong. -/
inductive Fault
  /-- A `CHECK` fails. -/
  | check
  /-- A word outside the stack is read. -/
  | read
  /-- A word outside `trace_buffer` is written. -/
  | buffer
  deriving DecidableEq

/-- `kStackTraceMax`. -/
def kStackTraceMax : ℕ := 255

/-- `kFrameSize`. -/
def kFrameSize : ℕ := 16

/-- `IsValidFrame`, for a `stack_top` that is not below `kFrameSize`. -/
def isValidFrame (frame stackTop stackBottom : ℕ) : Bool :=
  stackBottom < frame && frame < stackTop - kFrameSize

/-- `GetCanonicFrame`. -/
def getCanonicFrame (bp stackTop stackBottom : ℕ) : Outcome Fault ℕ :=
  if stackBottom < stackTop then .returned bp else .stopped .check

/-- `trace_buffer[size++] = pc`. -/
def push (trace : List ℕ) (pc : ℕ) : Outcome Fault (List ℕ) :=
  if trace.length < kStackTraceMax then .returned (trace ++ [pc]) else .stopped .buffer

/-- `if (pc1 != pc) trace_buffer[size++] = pc1`. -/
def pushReturn (pc : ℕ) (trace : List ℕ) (pc1 : ℕ) : Outcome Fault (List ℕ) :=
  if pc1 ≠ pc then push trace pc1 else .returned trace

variable (m : Mem) (stackTop stackBottom kPageSize pc maxDepth : ℕ)

/-- A word is read, all of whose bytes have to be between the bounds of the stack. -/
def loadWord (a : ℕ) : Outcome Fault ℕ :=
  if stackBottom < a ∧ a + 8 ≤ stackTop then .returned (m.readLE a 8) else .stopped .read

/-- The loop of `UnwindFast`. -/
def unwindLoop : ℕ → ℕ → ℕ → List ℕ → Outcome Fault (List ℕ)
  | 0, _, _, _ => .unfinished
  | fuel + 1, frame, bottom, trace =>
    if isValidFrame frame stackTop bottom ∧ frame % 8 = 0 ∧ trace.length < maxDepth then do
      let pc1 ← loadWord m stackTop stackBottom (frame + 8)
      if pc1 < kPageSize then return trace
      else
        let trace ← pushReturn pc trace pc1
        let newBp ← loadWord m stackTop stackBottom frame
        let next ← getCanonicFrame newBp stackTop frame
        unwindLoop fuel next frame trace
    else return trace

/-- `UnwindFast`: the first `size` words of `trace_buffer`. -/
def unwindFast (fuel bp : ℕ) : Outcome Fault (List ℕ) :=
  if maxDepth < 2 then .stopped .check
  else do
    let trace ← push [] pc
    if stackTop < 4096 then return trace
    else
      let frame ← getCanonicFrame bp stackTop stackBottom
      unwindLoop m stackTop stackBottom kPageSize pc maxDepth fuel frame stackBottom trace

/-! ## Chains of frames -/

/-- A chain of frames from `frame` on: each of them is aligned and valid, and is what its
predecessor has saved, which is lower. -/
structure IsFrames (bottom frame : ℕ) (frames : List ℕ) : Prop where
  /-- The first frame. -/
  head : ∀ f ∈ frames.head?, f = frame
  /-- The frames are valid. -/
  valid : ∀ f ∈ frames, isValidFrame f stackTop bottom = true ∧ f % 8 = 0
  /-- They are linked. -/
  linked : frames.IsChain fun f g => f < g ∧ g = m.readLE f 8

/-- The chain that all others are the start of. -/
structure IsLongest (bottom frame : ℕ) (frames : List ℕ) : Prop where
  /-- It is a chain. -/
  isFrames : IsFrames m stackTop bottom frame frames
  /-- No chain goes on where it ends. -/
  prefix_of : ∀ others, IsFrames m stackTop bottom frame others → others <+: frames

/-- The return addresses of some frames. -/
def returnAddresses (frames : List ℕ) : List ℕ := frames.map fun f => m.readLE (f + 8) 8

/-- The trace of a chain: `pc`, and the return addresses that are not `pc`, up to one in the zero
page, or as many entries as there may be. -/
def traceOf (frames : List ℕ) : List ℕ :=
  (pc :: ((returnAddresses m frames).takeWhile (kPageSize ≤ ·)).filter (· ≠ pc)).take maxDepth

variable {m stackTop stackBottom kPageSize pc maxDepth} {bottom frame f : ℕ} {frames : List ℕ}

theorem isValidFrame_iff :
    isValidFrame f stackTop bottom = true ↔ bottom < f ∧ f < stackTop - 16 := by
  unfold isValidFrame kFrameSize
  rw [Bool.and_eq_true, decide_eq_true_eq, decide_eq_true_eq]

theorem isFrames_nil (bottom frame : ℕ) : IsFrames m stackTop bottom frame [] where
  head := fun _ h => absurd h.symm (Option.some_ne_none _)
  valid := fun _ h => absurd h List.not_mem_nil
  linked := List.isChain_nil

/-- A chain is a valid frame and a chain from what it has saved. -/
theorem isFrames_cons : IsFrames m stackTop bottom frame (f :: frames) ↔
    f = frame ∧ isValidFrame f stackTop bottom = true ∧ f % 8 = 0 ∧
      IsFrames m stackTop f (m.readLE f 8) frames := by
  constructor
  · intro h
    obtain ⟨hvalid, haligned⟩ := h.valid f List.mem_cons_self
    obtain ⟨hnext, hlinked⟩ := List.isChain_cons.mp h.linked
    have habove : ∀ g ∈ frames, f < g := by
      have hchain : (f :: frames).IsChain (· < ·) := h.linked.imp fun _ _ hlink => hlink.1
      exact fun g hg => List.rel_of_pairwise_cons hchain.pairwise hg
    refine ⟨h.head f rfl, hvalid, haligned, fun g hg => (hnext g hg).2, fun g hg => ?_, hlinked⟩
    obtain ⟨hg1, hg2⟩ := h.valid g (List.mem_cons_of_mem f hg)
    exact ⟨isValidFrame_iff.mpr ⟨habove g hg, (isValidFrame_iff.mp hg1).2⟩, hg2⟩
  · rintro ⟨rfl, hvalid, haligned, h⟩
    refine ⟨fun g hg => (Option.some.inj hg).symm, fun g hg => ?_, List.isChain_cons.mpr
      ⟨fun g hg => ?_, h.linked⟩⟩
    · rcases List.mem_cons.mp hg with rfl | hg
      · exact ⟨hvalid, haligned⟩
      · obtain ⟨hg1, hg2⟩ := h.valid g hg
        have hlow := isValidFrame_iff.mp hvalid
        have hhigh := isValidFrame_iff.mp hg1
        exact ⟨isValidFrame_iff.mpr ⟨hlow.1.trans hhigh.1, hhigh.2⟩, hg2⟩
    · exact ⟨(isValidFrame_iff.mp (h.valid g (List.mem_of_mem_head? hg)).1).1, h.head g hg⟩

theorem isLongest_nil : IsLongest m stackTop bottom frame [] ↔
    ¬ (isValidFrame frame stackTop bottom = true ∧ frame % 8 = 0) := by
  constructor
  · intro h hvalid
    have hone : IsFrames m stackTop bottom frame [frame] :=
      isFrames_cons.mpr ⟨rfl, hvalid.1, hvalid.2, isFrames_nil _ _⟩
    exact absurd (List.prefix_nil.mp (h.prefix_of _ hone)) (List.cons_ne_nil _ _)
  · intro hvalid
    refine ⟨isFrames_nil _ _, fun others h => ?_⟩
    cases others with
    | nil => exact List.nil_prefix
    | cons g others =>
      obtain ⟨rfl, hg1, hg2, -⟩ := isFrames_cons.mp h
      exact absurd ⟨hg1, hg2⟩ hvalid

theorem isLongest_cons : IsLongest m stackTop bottom frame (f :: frames) ↔
    f = frame ∧ isValidFrame f stackTop bottom = true ∧ f % 8 = 0 ∧
      IsLongest m stackTop f (m.readLE f 8) frames := by
  constructor
  · intro h
    obtain ⟨rfl, hvalid, haligned, hframes⟩ := isFrames_cons.mp h.isFrames
    refine ⟨rfl, hvalid, haligned, hframes, fun others hothers => ?_⟩
    have hmore := h.prefix_of _ (isFrames_cons.mpr ⟨rfl, hvalid, haligned, hothers⟩)
    exact (List.cons_prefix_cons.mp hmore).2
  · rintro ⟨rfl, hvalid, haligned, h⟩
    refine ⟨isFrames_cons.mpr ⟨rfl, hvalid, haligned, h.isFrames⟩, fun others hothers => ?_⟩
    cases others with
    | nil => exact List.nil_prefix
    | cons g others =>
      obtain ⟨rfl, -, -, hrest⟩ := isFrames_cons.mp hothers
      exact List.cons_prefix_cons.mpr ⟨rfl, h.prefix_of others hrest⟩

theorem exists_isLongest (m : Mem) (stackTop bottom frame : ℕ) :
    ∃ frames, IsLongest m stackTop bottom frame frames := by
  induction hk : stackTop - bottom using Nat.strong_induction_on generalizing bottom frame with
  | _ k ih =>
    subst hk
    by_cases hvalid : isValidFrame frame stackTop bottom = true ∧ frame % 8 = 0
    · have hbounds := isValidFrame_iff.mp hvalid.1
      obtain ⟨frames, hframes⟩ := ih (stackTop - frame) (by omega) frame (m.readLE frame 8) rfl
      exact ⟨frame :: frames, isLongest_cons.mpr ⟨rfl, hvalid.1, hvalid.2, hframes⟩⟩
    · exact ⟨[], isLongest_nil.mpr hvalid⟩

theorem IsFrames.length_le (h : IsFrames m stackTop bottom frame frames) :
    frames.length ≤ stackTop - bottom := by
  induction frames generalizing bottom frame with
  | nil => exact Nat.zero_le _
  | cons f frames ih =>
    obtain ⟨rfl, hvalid, -, hframes⟩ := isFrames_cons.mp h
    have hbounds := isValidFrame_iff.mp hvalid
    have hrest := ih hframes
    rw [List.length_cons]
    omega

/-! ## The walk -/

theorem loadWord_frame (hbottom : stackBottom ≤ bottom)
    (hvalid : isValidFrame f stackTop bottom = true) :
    loadWord m stackTop stackBottom f = .returned (m.readLE f 8) ∧
      loadWord m stackTop stackBottom (f + 8) = .returned (m.readLE (f + 8) 8) := by
  have hbounds := isValidFrame_iff.mp hvalid
  exact ⟨if_pos ⟨by omega, by omega⟩, if_pos ⟨by omega, by omega⟩⟩

variable (kPageSize pc) in
/-- The entries that some frames add to a trace. -/
def entriesOf (m : Mem) (frames : List ℕ) : List ℕ :=
  ((returnAddresses m frames).takeWhile (kPageSize ≤ ·)).filter (· ≠ pc)

theorem entriesOf_cons_of_lt (h : m.readLE (f + 8) 8 < kPageSize) (frames : List ℕ) :
    entriesOf kPageSize pc m (f :: frames) = [] := by
  unfold entriesOf returnAddresses
  rw [List.map_cons, List.takeWhile_cons_of_neg (by rw [decide_eq_true_eq]; omega)]
  rfl

theorem entriesOf_cons (h : kPageSize ≤ m.readLE (f + 8) 8) (frames : List ℕ) :
    entriesOf kPageSize pc m (f :: frames) =
      (if m.readLE (f + 8) 8 ≠ pc then [m.readLE (f + 8) 8] else []) ++
        entriesOf kPageSize pc m frames := by
  unfold entriesOf returnAddresses
  rw [List.map_cons, List.takeWhile_cons_of_pos (p := (kPageSize ≤ ·)) (decide_eq_true h),
    List.filter_cons]
  simp only [decide_eq_true_eq]
  split_ifs
  · rfl
  · rfl

/-- What the loop adds to a trace: the return addresses of the chain. -/
theorem unwindLoop_eq (hmax : maxDepth ≤ kStackTraceMax) (hbottom : stackBottom ≤ bottom)
    (h : IsLongest m stackTop bottom frame frames) {trace : List ℕ}
    (htrace : trace.length ≤ maxDepth) {fuel : ℕ} (hfuel : frames.length < fuel) :
    unwindLoop m stackTop stackBottom kPageSize pc maxDepth fuel frame bottom trace =
      .returned ((trace ++ entriesOf kPageSize pc m frames).take maxDepth) := by
  induction frames generalizing bottom frame trace fuel with
  | nil =>
    obtain ⟨fuel, rfl⟩ := Nat.exists_eq_succ_of_ne_zero (Nat.zero_lt_of_lt hfuel).ne'
    have hstop := isLongest_nil.mp h
    have hentries : entriesOf kPageSize pc m [] = [] := rfl
    rw [unwindLoop, if_neg (fun hgo => hstop ⟨hgo.1, hgo.2.1⟩), hentries, List.append_nil,
      List.take_of_length_le htrace]
    rfl
  | cons f frames ih =>
    obtain ⟨fuel, rfl⟩ := Nat.exists_eq_succ_of_ne_zero (Nat.zero_lt_of_lt hfuel).ne'
    obtain ⟨rfl, hvalid, haligned, hrest⟩ := isLongest_cons.mp h
    have hbounds := isValidFrame_iff.mp hvalid
    obtain ⟨hsaved, hreturn⟩ := loadWord_frame (m := m) hbottom hvalid
    rw [List.length_cons] at hfuel
    rcases htrace.lt_or_eq with hroom | hfull
    · rw [unwindLoop, if_pos ⟨hvalid, haligned, hroom⟩, hreturn, Outcome.returned_bind]
      rcases Nat.lt_or_ge (m.readLE (f + 8) 8) kPageSize with hzero | hpage
      · rw [if_pos hzero, entriesOf_cons_of_lt hzero, List.append_nil,
          List.take_of_length_le htrace]
        rfl
      · -- The entry is pushed unless it is `pc`, and the walk goes on above the frame.
        have hpush : pushReturn pc trace (m.readLE (f + 8) 8) = .returned (trace ++
            if m.readLE (f + 8) 8 ≠ pc then [m.readLE (f + 8) 8] else []) := by
          unfold pushReturn
          split_ifs
          · exact if_pos (hroom.trans_le hmax)
          · rw [List.append_nil]
        have hcheck : getCanonicFrame (m.readLE f 8) stackTop f = .returned (m.readLE f 8) :=
          if_pos (by omega)
        have hlength : (trace ++ if m.readLE (f + 8) 8 ≠ pc then [m.readLE (f + 8) 8]
            else []).length ≤ maxDepth := by
          rw [List.length_append]
          split_ifs
          · exact hroom
          · exact htrace
        rw [if_neg (by omega), hpush, Outcome.returned_bind, hsaved, Outcome.returned_bind, hcheck,
          Outcome.returned_bind, ih (by omega) hrest hlength (by omega), entriesOf_cons hpage,
          List.append_assoc]
    · rw [unwindLoop, if_neg (by omega), List.take_append_of_le_length hfull.ge,
        List.take_of_length_le htrace]
      rfl

/-- `UnwindFast` ends without a failed `CHECK`, reads nothing outside the stack, and leaves the
trace of the longest chain of frames. -/
theorem unwindFast_eq (m : Mem) (pc bp kPageSize : ℕ) (hstack : stackBottom < stackTop)
    (htop : 4096 ≤ stackTop) (hmin : 2 ≤ maxDepth) (hmax : maxDepth ≤ kStackTraceMax) :
    ∃ frames, IsLongest m stackTop stackBottom bp frames ∧ ∀ fuel > stackTop,
      unwindFast m stackTop stackBottom kPageSize pc maxDepth fuel bp =
        .returned (traceOf m kPageSize pc maxDepth frames) := by
  obtain ⟨frames, hframes⟩ := exists_isLongest m stackTop stackBottom bp
  have hlength := hframes.isFrames.length_le
  have hpush : push [] pc = .returned [pc] := if_pos (by decide)
  have hcheck : getCanonicFrame bp stackTop stackBottom = .returned bp := if_pos hstack
  refine ⟨frames, hframes, fun fuel hfuel => ?_⟩
  unfold unwindFast
  rw [if_neg (by omega), hpush, Outcome.returned_bind, if_neg (by omega), hcheck,
    Outcome.returned_bind, unwindLoop_eq hmax le_rfl hframes (show [pc].length ≤ maxDepth by
      rw [List.length_singleton]; omega) (by omega)]
  rfl

/-- A frame at 4000 that has saved nothing valid, with a return address behind it. -/
def oneFrame : Mem := fun a => if a = 4010 then 1 else 0

/-- It is found. -/
theorem unwindFast_eq_one :
    ∃ frames, IsLongest oneFrame 8192 1000 4000 frames ∧ ∀ fuel > 8192,
      unwindFast oneFrame 8192 1000 4096 7 10 fuel 4000 =
        .returned (traceOf oneFrame 4096 7 10 frames) :=
  unwindFast_eq oneFrame 7 4000 4096 (by decide) (by decide) (by decide) (by decide)

end Tasan.StackTrace
