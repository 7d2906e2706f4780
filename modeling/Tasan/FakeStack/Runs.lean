import Tasan.FakeStack.Model

/-!
# Runs of a fake stack

Any sequence of `Allocate`, `Deallocate` of a live frame, `HandleNoReturn` and `GC`, between which the
program writes to its memory, but not to the object's own data nor to the saved flag pointers of live
frames. The live frames are recorded by the events: a frame is live from the `Allocate` that returns it
until it is deallocated or collected as garbage.

The layout does most of the work: a store to one flag changes no other flag and no frame, and what
`Allocate` stores in a frame changes no flag and no other frame.
-/

namespace Tasan.FakeFrames

section Runs

variable (fs : FakeStack)

/-- The operations. -/
inductive Op
  | allocate (thread : Option (ℕ × ℕ)) (classId realStack : ℕ)
  | deallocate (x classId : ℕ)
  | handleNoReturn
  | gc (thread : Option (ℕ × ℕ)) (realStack : ℕ)
  | write (mem : Mem)

/-- One operation, with the frame that `Allocate` returns. -/
def FakeStack.step (s : State) : Op → Option (State × Option ℕ)
  | .allocate thread classId realStack => fs.allocate s thread classId realStack
  | .deallocate x classId => some (s.deallocate x classId, none)
  | .handleNoReturn => some (s.handleNoReturn, none)
  | .gc thread realStack => some (fs.gc s thread realStack, none)
  | .write mem => some ({ s with mem := mem }, none)

/-- The frames that stay live in a garbage collection: not those that are lower than the current frame
of the default stack. -/
def FakeStack.keep (s : State) (live : Set Frame) (thread : Option (ℕ × ℕ)) (realStack : ℕ) :
    Set Frame :=
  match thread with
  | none => live
  | some (top, bottom) =>
    if realStack < bottom ∨ realStack > top then live
    else {f ∈ live | ¬(bottom < fs.realStack s.mem f ∧ fs.realStack s.mem f < realStack)}

/-- The live frames when `Allocate` looks for a free one. -/
def FakeStack.kept (s : State) (live : Set Frame) (thread : Option (ℕ × ℕ)) (realStack : ℕ) :
    Set Frame :=
  if s.needsGc then fs.keep s live thread realStack else live

/-- The live frames after an operation with its result. -/
def FakeStack.record (s : State) (live : Set Frame) : Op → Option ℕ → Set Frame
  | .allocate thread classId realStack, some x =>
    fs.kept s live thread realStack ∪ {f | f.Valid fs ∧ f.classId = classId ∧ fs.frame f = x}
  | .allocate thread _ realStack, none => fs.kept s live thread realStack
  | .deallocate x _, _ => {f ∈ live | fs.frame f ≠ x}
  | .gc thread realStack, _ => fs.keep s live thread realStack
  | .handleNoReturn, _ => live
  | .write _, _ => live

/-- What a caller and the program may do. -/
def FakeStack.Legal (s : State) (live : Set Frame) : Op → Prop
  | .allocate _ classId realStack => classId < kNumberOfSizeClasses ∧ realStack < 2 ^ 64
  | .deallocate x classId => ∃ f ∈ live, x = fs.frame f ∧ classId = f.classId
  | .handleNoReturn => True
  | .gc _ realStack => realStack < 2 ^ 64
  | .write mem =>
    (∀ a, fs.base ≤ a → a < fs.getFrame 0 0 → mem a = s.mem a) ∧
    ∀ f ∈ live, ∀ a, savedFlagPtr (fs.frame f) f.classId ≤ a →
      a < savedFlagPtr (fs.frame f) f.classId + 8 → mem a = s.mem a

/-- A run from a fresh mapping, with the live frames. -/
inductive Run : State → Set Frame → Prop
  | init {mem : Mem} (hzero : ∀ a, fs.base ≤ a → a < fs.base + requiredSize fs.stackSizeLog →
      mem a = 0) : Run ⟨fun _ => 0, false, mem⟩ ∅
  | step {s s' : State} {live : Set Frame} {op : Op} {res : Option ℕ} :
      Run s live → fs.Legal s live op → fs.step s op = some (s', res) →
      Run s' (fs.record s live op res)

/-- The flags and the saved pointers agree with the live frames. -/
structure Inv (fs : FakeStack) (mem : Mem) (live : Set Frame) : Prop where
  valid : ∀ f ∈ live, f.Valid fs
  flag_live : ∀ f ∈ live, mem (fs.flag f) = 1
  flag_free : ∀ f, f.Valid fs → f ∉ live → mem (fs.flag f) = 0
  saved : ∀ f ∈ live, mem.readLE (savedFlagPtr (fs.frame f) f.classId) 8 = fs.flag f

end Runs

section Steps

variable {fs : FakeStack} {s : State} {live : Set Frame} {mem : Mem} {f : Frame}

/-- A memory in which some flags are cleared. -/
theorem Inv.clear {mem' : Mem} {live' : Set Frame} (hinv : Inv fs mem live) (hsub : live' ⊆ live)
    (hflags : ∀ f, f.Valid fs → mem' (fs.flag f) = mem (fs.flag f) ∧ (f ∈ live → f ∈ live') ∨
      mem' (fs.flag f) = 0 ∧ f ∉ live')
    (hrest : ∀ a, fs.getFrame 0 0 ≤ a → mem' a = mem a) : Inv fs mem' live' where
  valid := fun f hf => hinv.valid f (hsub hf)
  flag_live := by
    intro f hf
    rcases hflags f (hinv.valid f (hsub hf)) with ⟨heq, -⟩ | ⟨-, hnot⟩
    · rw [heq, hinv.flag_live f (hsub hf)]
    · exact absurd hf hnot
  flag_free := by
    intro f hf hnot
    rcases hflags f hf with ⟨heq, hlive⟩ | ⟨heq, -⟩
    · rw [heq, hinv.flag_free f hf fun hmem => hnot (hlive hmem)]
    · exact heq
  saved := by
    intro f hf
    rw [← hinv.saved f (hsub hf)]
    apply Mem.readLE_congr
    intro x hx _
    apply hrest
    have hbeg := (hinv.valid f (hsub hf)).frame_mem.1
    have hsaved := (fs.savedFlagPtr_mem f).1
    omega

theorem Inv.flag_iff (hinv : Inv fs mem live) (hf : f.Valid fs) :
    (mem (fs.flag f) = 1 ↔ f ∈ live) ∧ (mem (fs.flag f) = 0 ↔ f ∉ live) := by
  by_cases hmem : f ∈ live
  · simp [hinv.flag_live f hmem, hmem]
  · simp [hinv.flag_free f hf hmem, hmem]

/-- `GC`. -/
theorem Inv.gc (hinv : Inv fs s.mem live) (thread : Option (ℕ × ℕ)) (realStack : ℕ) :
    Inv fs (fs.gc s thread realStack).mem (fs.keep s live thread realStack) := by
  unfold FakeStack.gc FakeStack.keep
  cases thread with
  | none => exact hinv
  | some stack =>
    obtain ⟨top, bottom⟩ := stack
    dsimp only
    by_cases hout : realStack < bottom ∨ realStack > top
    · rw [if_pos hout, if_pos hout]
      exact hinv
    rw [if_neg hout, if_neg hout, FakeStack.forFrames_eq]
    obtain ⟨hflags, hrest⟩ := FakeStack.gcFrames_spec bottom realStack
      (fun f hf => FakeStack.mem_frames.mp hf) s.mem
    refine hinv.clear (fun f hf => hf.1) (fun f hf => ?_) fun a ha => hrest a fun f hf => ?_
    · dsimp only
      rw [hflags f (FakeStack.mem_frames.mpr hf)]
      split
      · rename_i hcond
        exact Or.inr ⟨rfl, fun hmem => hmem.2 hcond⟩
      · rename_i hcond
        exact Or.inl ⟨rfl, fun hmem => ⟨hmem, hcond⟩⟩
    · have := (FakeStack.mem_frames.mp hf).flag_mem.2
      omega

/-- What `Allocate` stores for a frame. -/
def FakeStack.store (fs : FakeStack) (realStack : ℕ) (mem : Mem) (f : Frame) : Mem :=
  ((mem.set (fs.flag f) 1).writeLE (fs.frame f + realStackOffset) 8 realStack).writeLE
    (savedFlagPtr (fs.frame f) f.classId) 8 (fs.flag f)

theorem FakeStack.store_of_ne {realStack a : ℕ} (hflag : a ≠ fs.flag f) (hout : ¬fs.Contains f a) :
    fs.store realStack mem f a = mem a := by
  have hsize := f.size_ge
  have hsaved := fs.savedFlagPtr_mem f
  unfold FakeStack.Contains at hout
  unfold sizeofFakeFrame at hsaved
  unfold FakeStack.store realStackOffset
  rw [Mem.writeLE_of_not_mem _ _ (by omega), Mem.writeLE_of_not_mem _ _ (by omega),
    Mem.set_of_ne _ _ hflag]

/-- A free frame becomes live. -/
theorem Inv.store (hinv : Inv fs mem live) (hf : f.Valid fs) (hfree : mem (fs.flag f) = 0)
    (realStack : ℕ) : Inv fs (fs.store realStack mem f) (insert f live) := by
  have hnot : f ∉ live := (hinv.flag_iff hf).2.mp hfree
  have hself : fs.store realStack mem f (fs.flag f) = 1 := by
    have hlt := hf.flag_lt_frame hf
    have hsaved := (fs.savedFlagPtr_mem f).1
    unfold FakeStack.store
    rw [Mem.writeLE_of_not_mem _ _ (by omega), Mem.writeLE_of_not_mem _ _ (by omega), Mem.set_self]
  have hother : ∀ g, g.Valid fs → g ≠ f → fs.store realStack mem f (fs.flag g) = mem (fs.flag g) := by
    intro g hg hne
    refine FakeStack.store_of_ne (fun heq => hne (hg.flag_inj hf heq)) fun hmem => ?_
    exact absurd hmem.1 (not_le.mpr (hg.flag_lt_frame hf))
  constructor
  · rintro g (rfl | hg)
    · exact hf
    · exact hinv.valid g hg
  · rintro g (rfl | hg)
    · exact hself
    · rw [hother g (hinv.valid g hg) fun heq => hnot (heq ▸ hg), hinv.flag_live g hg]
  · intro g hg hmem
    rw [Set.mem_insert_iff, not_or] at hmem
    rw [hother g hg hmem.1, hinv.flag_free g hg hmem.2]
  · rintro g (rfl | hg)
    · have hlt := hf.flag_mem.2
      have hmapped := fs.mapped
      have hend := fs.end_eq
      unfold FakeStack.store
      rw [Mem.readLE_writeLE]
      apply Nat.mod_eq_of_lt
      rw [show 256 ^ 8 = 2 ^ 64 by norm_num]
      omega
    · -- the word is in another frame
      have hg' := hinv.valid g hg
      have hne : g ≠ f := fun heq => hnot (heq ▸ hg)
      have hsaved := fs.savedFlagPtr_mem g
      rw [← hinv.saved g hg]
      apply Mem.readLE_congr
      intro x hx hx'
      have hgx : fs.Contains g x := ⟨by omega, by omega⟩
      apply FakeStack.store_of_ne
      · have := hf.flag_lt_frame hg'
        have := hgx.1
        omega
      · exact fun hfx => hne (FakeStack.contains_unique hg' hf hgx hfx)

/-! ## The loop of `Allocate` -/

theorem FakeStack.numberOfFrames_dvd (fs : FakeStack) (classId : ℕ) :
    numberOfFrames fs.stackSizeLog classId ∣ 2 ^ 64 := by
  have hlog : fs.stackSizeLog < 64 := by
    by_contra hge
    have hpow : 2 ^ 64 ≤ 2 ^ fs.stackSizeLog := Nat.pow_le_pow_right (by norm_num) (not_lt.mp hge)
    have := fs.mapped
    have := fs.end_eq
    omega
  rw [numberOfFrames, Nat.one_shiftLeft]
  exact pow_dvd_pow 2 (by omega)

/-- The loop returns the first free frame from the hint on. -/
theorem FakeStack.probe_spec {classId : ℕ} (hc : classId < kNumberOfSizeClasses) (realStack n : ℕ)
    (s : State) :
    (∃ f, f.Valid fs ∧ f.classId = classId ∧ s.mem (fs.flag f) = 0 ∧
      (fs.probe classId realStack n s).2 = some (fs.frame f) ∧
      (fs.probe classId realStack n s).1.mem = fs.store realStack s.mem f) ∨
    (fs.probe classId realStack n s).2 = none ∧ (fs.probe classId realStack n s).1.mem = s.mem ∧
      ∀ k < n, s.mem (fs.flag ⟨classId,
        (s.hintPosition classId + k) % numberOfFrames fs.stackSizeLog classId⟩) ≠ 0 := by
  induction n generalizing s with
  | zero => exact Or.inr ⟨rfl, rfl, by simp⟩
  | succ n ih =>
    have hpos : 0 < numberOfFrames fs.stackSizeLog classId := by
      rw [numberOfFrames_eq fs.log_ge hc]
      positivity
    unfold FakeStack.probe
    dsimp only
    rw [moduloNumberOfFrames_eq]
    by_cases hflag : s.mem (fs.getFlags classId +
        s.hintPosition classId % numberOfFrames fs.stackSizeLog classId) ≠ 0
    · rw [if_pos hflag]
      refine (ih { s with
        hintPosition := Function.update s.hintPosition classId
          ((s.hintPosition classId + 1) % 2 ^ 64) }).imp_right ?_
      rintro ⟨hres, hmem, hall⟩
      refine ⟨hres, hmem, fun k hk => ?_⟩
      cases k with
      | zero => exact hflag
      | succ k =>
        -- the counter wraps at a multiple of the number of frames
        have hk' := hall k (Nat.lt_of_succ_lt_succ hk)
        dsimp only at hk'
        rw [Function.update_self, Nat.add_mod, Nat.mod_mod_of_dvd _ (fs.numberOfFrames_dvd classId),
          ← Nat.add_mod] at hk'
        rwa [Nat.add_assoc, Nat.add_comm 1 k] at hk'
    · rw [if_neg hflag]
      rw [not_ne_iff] at hflag
      exact Or.inl ⟨⟨classId, _⟩, ⟨hc, Nat.mod_lt _ hpos⟩, rfl, hflag, rfl, rfl⟩

theorem numIter_eq {n : ℕ} (hn : n < 2 ^ 31) : numIter n = n := by
  have hmod : (BitVec.ofNat 32 n).toNat = n := Nat.mod_eq_of_lt (by omega)
  unfold numIter
  rw [BitVec.toInt_eq_toNat_of_lt (by omega), hmod, Int.toNat_natCast]

/-- Where the loop visits every frame, it fails only if all of them are live. -/
theorem Inv.all_live (hinv : Inv fs s.mem live) {classId : ℕ} {realStack : ℕ}
    (hc : classId < kNumberOfSizeClasses) (hsmall : numberOfFrames fs.stackSizeLog classId < 2 ^ 31)
    (hnone : (fs.probe classId realStack (numIter (numberOfFrames fs.stackSizeLog classId)) s).2 = none)
    (hf : f.Valid fs) (hclass : f.classId = classId) : f ∈ live := by
  rw [numIter_eq hsmall] at hnone
  rcases FakeStack.probe_spec hc realStack (numberOfFrames fs.stackSizeLog classId) s with
    ⟨g, -, -, -, hsome, -⟩ | ⟨-, -, hall⟩
  · rw [hsome] at hnone
    simp at hnone
  subst hclass
  have hpos := hf.pos_lt
  have hmod := Nat.mod_lt (s.hintPosition f.classId) (Nat.zero_lt_of_lt hpos)
  -- the round in which the loop is at this position
  have hround : ∃ k < numberOfFrames fs.stackSizeLog f.classId,
      (s.hintPosition f.classId + k) % numberOfFrames fs.stackSizeLog f.classId = f.pos := by
    rcases le_or_gt (s.hintPosition f.classId % numberOfFrames fs.stackSizeLog f.classId) f.pos
      with hle | hgt
    · refine ⟨f.pos - s.hintPosition f.classId % numberOfFrames fs.stackSizeLog f.classId,
        by omega, ?_⟩
      rw [Nat.add_mod, Nat.mod_eq_of_lt (a := f.pos - _) (by omega), Nat.add_sub_cancel' hle,
        Nat.mod_eq_of_lt hpos]
    · refine ⟨f.pos + numberOfFrames fs.stackSizeLog f.classId -
        s.hintPosition f.classId % numberOfFrames fs.stackSizeLog f.classId, by omega, ?_⟩
      rw [Nat.add_mod, Nat.mod_eq_of_lt (a := f.pos + _ - _) (by omega),
        Nat.add_sub_cancel' (by omega), Nat.add_mod_right, Nat.mod_eq_of_lt hpos]
  obtain ⟨k, hk, hkpos⟩ := hround
  have hne := hall k hk
  rw [hkpos] at hne
  by_contra hmem
  exact hne ((hinv.flag_iff hf).2.mpr hmem)

/-! ## Runs -/

theorem Inv.collect (hinv : Inv fs s.mem live) (thread : Option (ℕ × ℕ)) (realStack : ℕ) :
    Inv fs (fs.collect s thread realStack).mem (fs.kept s live thread realStack) := by
  unfold FakeStack.collect FakeStack.kept
  by_cases hgc : s.needsGc = true
  · rw [if_pos hgc, if_pos hgc]
    exact hinv.gc thread realStack
  · rw [if_neg hgc, if_neg hgc]
    exact hinv

/-- A legal operation keeps the invariant. -/
theorem Inv.step (hinv : Inv fs s.mem live) {op : Op} (hlegal : fs.Legal s live op) :
    ∃ s' res, fs.step s op = some (s', res) ∧ Inv fs s'.mem (fs.record s live op res) := by
  cases op with
  | allocate thread classId realStack =>
    have hc := hlegal.1
    have hinv' := hinv.collect thread realStack
    refine ⟨_, _, by rw [FakeStack.step, FakeStack.allocate, if_pos hc], ?_⟩
    rcases FakeStack.probe_spec hc realStack (numIter (numberOfFrames fs.stackSizeLog classId))
      (fs.collect s thread realStack) with ⟨f, hf, rfl, hfree, hres, hmem⟩ | ⟨hres, hmem, -⟩
    · rw [hres, hmem]
      have hset : insert f (fs.kept s live thread realStack) =
          fs.kept s live thread realStack ∪
            {g | g.Valid fs ∧ g.classId = f.classId ∧ fs.frame g = fs.frame f} := by
        rw [Set.insert_eq, Set.union_comm]
        congr 1
        ext g
        constructor
        · rintro rfl
          exact ⟨hf, rfl, rfl⟩
        · rintro ⟨hg, -, heq⟩
          exact hg.frame_inj hf heq
      have hstore := hinv'.store hf hfree realStack
      rw [hset] at hstore
      exact hstore
    · rw [hres, hmem]
      exact hinv'
  | deallocate x classId =>
    obtain ⟨f, hf, rfl, rfl⟩ := hlegal
    refine ⟨_, _, rfl, ?_⟩
    have hfv := hinv.valid f hf
    have hmem : (s.deallocate (fs.frame f) f.classId).mem = s.mem.set (fs.flag f) 0 := by
      rw [State.deallocate, hinv.saved f hf]
    rw [hmem]
    refine hinv.clear (fun g hg => hg.1) (fun g hg => ?_) fun a ha => Mem.set_of_ne _ _ ?_
    · by_cases hgf : g = f
      · rw [hgf]
        exact Or.inr ⟨Mem.set_self _ _ _, fun hmem => hmem.2 rfl⟩
      · refine Or.inl ⟨Mem.set_of_ne _ _ fun heq => hgf (hg.flag_inj hfv heq), fun hlive => ?_⟩
        exact ⟨hlive, fun heq => hgf (hg.frame_inj hfv heq)⟩
    · have := hfv.flag_mem.2
      omega
  | handleNoReturn => exact ⟨_, _, rfl, hinv⟩
  | gc thread realStack => exact ⟨_, _, rfl, hinv.gc thread realStack⟩
  | write mem =>
    obtain ⟨hheader, hsaved⟩ := hlegal
    have hflags : ∀ f, f.Valid fs → mem (fs.flag f) = s.mem (fs.flag f) := by
      intro f hf
      have hflag := hf.flag_mem
      exact hheader _ (by omega) hflag.2
    refine ⟨_, _, rfl, hinv.valid, ?_, ?_, ?_⟩
    · exact fun f hf => (hflags f (hinv.valid f hf)).trans (hinv.flag_live f hf)
    · exact fun f hf hnot => (hflags f hf).trans (hinv.flag_free f hf hnot)
    · exact fun f hf => (Mem.readLE_congr 8 (hsaved f hf)).trans (hinv.saved f hf)

theorem Run.inv (hrun : Run fs s live) : Inv fs s.mem live := by
  induction hrun with
  | init hzero =>
    refine ⟨by simp, by simp, fun f hf _ => ?_, by simp⟩
    have hflag := hf.flag_mem
    have hend := fs.end_eq
    exact hzero _ (by omega) (by omega)
  | step _ hlegal hstep ih =>
    obtain ⟨s', res, hstep', hinv'⟩ := ih.step hlegal
    rw [hstep] at hstep'
    obtain ⟨rfl, rfl⟩ := Prod.mk.inj (Option.some.inj hstep')
    exact hinv'

/-- `ForEachFakeFrame` calls the callback for the live frames. -/
theorem Inv.mem_forEachFakeFrame (hinv : Inv fs s.mem live) (r : ℕ × ℕ) :
    r ∈ fs.forEachFakeFrame s ↔ ∃ f ∈ live, r = (fs.frame f, fs.frame f + f.size) := by
  have hfold : ∀ (l : List Frame) (acc : List (ℕ × ℕ)),
      r ∈ l.foldl (fun acc f => if s.mem (fs.flag f) = 0 then acc
        else acc ++ [(fs.frame f, fs.frame f + f.size)]) acc ↔
      r ∈ acc ∨ ∃ f ∈ l, s.mem (fs.flag f) ≠ 0 ∧ r = (fs.frame f, fs.frame f + f.size) := by
    intro l
    induction l with
    | nil => simp
    | cons g l ih =>
      intro acc
      rw [List.foldl_cons, ih]
      by_cases hzero : s.mem (fs.flag g) = 0
      · rw [if_pos hzero]
        simp only [List.exists_mem_cons_iff, hzero, ne_eq, not_true_eq_false, false_and, false_or]
      · rw [if_neg hzero]
        simp only [List.exists_mem_cons_iff, hzero, ne_eq, not_false_eq_true, true_and,
          List.mem_append, List.mem_singleton, or_assoc]
  unfold FakeStack.forEachFakeFrame
  rw [FakeStack.forFrames_eq, hfold]
  simp only [List.not_mem_nil, false_or, FakeStack.mem_frames]
  constructor
  · rintro ⟨f, hf, hne, hr⟩
    exact ⟨f, by_contra fun hnot => hne ((hinv.flag_iff hf).2.mpr hnot), hr⟩
  · rintro ⟨f, hf, hr⟩
    have hfv := hinv.valid f hf
    exact ⟨f, hfv, fun hzero => (hinv.flag_iff hfv).2.mp hzero hf, hr⟩

/-- In every run the frames and the flags are disjoint and inside the object, a flag is set if and only
if its frame is live, and a live frame has the address of its flag. `Allocate` returns a frame that is
not live, and none only if all frames of the class are live, where there are less than `2^31` of them.
`AddrIsInFakeStack` finds the frame of each address. -/
theorem fakeStack_runs (hrun : Run fs s live) :
    (∀ f, f.Valid fs → fs.base ≤ fs.frame f ∧
      fs.frame f + f.size ≤ fs.base + requiredSize fs.stackSizeLog ∧
      fs.base ≤ fs.flag f ∧ fs.flag f < fs.base + requiredSize fs.stackSizeLog) ∧
    (∀ f g, f.Valid fs → g.Valid fs → ¬fs.Contains g (fs.flag f) ∧ (f ≠ g → fs.flag f ≠ fs.flag g ∧
      (fs.frame f + f.size ≤ fs.frame g ∨ fs.frame g + g.size ≤ fs.frame f))) ∧
    (∀ f, f.Valid fs →
      (s.mem (fs.flag f) = 1 ↔ f ∈ live) ∧ (s.mem (fs.flag f) = 0 ↔ f ∉ live)) ∧
    (∀ f ∈ live, f.Valid fs ∧
      s.mem.readLE (savedFlagPtr (fs.frame f) f.classId) 8 = fs.flag f) ∧
    (∀ thread classId realStack, classId < kNumberOfSizeClasses →
      ∃ s' res, fs.allocate s thread classId realStack = some (s', res) ∧
      (∀ x, res = some x → ∃ f, f.Valid fs ∧ f.classId = classId ∧ x = fs.frame f ∧
        f ∉ fs.kept s live thread realStack) ∧
      (res = none → numberOfFrames fs.stackSizeLog classId < 2 ^ 31 →
        ∀ f, f.Valid fs → f.classId = classId → f ∈ fs.kept s live thread realStack)) ∧
    (∀ p, ((∃! f, f.Valid fs ∧ fs.Contains f p) ↔
        fs.getFrame 0 0 ≤ p ∧ p < fs.base + requiredSize fs.stackSizeLog) ∧
      (∀ f, f.Valid fs → fs.Contains f p → fs.addrIsInFakeStack p =
        some (some (fs.frame f + sizeofFakeFrame, fs.frame f + f.size, fs.frame f))) ∧
      ((¬∃ f, f.Valid fs ∧ fs.Contains f p) → fs.addrIsInFakeStack p = some none)) := by
  have hinv := hrun.inv
  refine ⟨?_, ?_, fun f hf => hinv.flag_iff hf, fun f hf => ⟨hinv.valid f hf, hinv.saved f hf⟩, ?_, ?_⟩
  · intro f hf
    have hframe := hf.frame_mem
    have hflag := hf.flag_mem
    have hsize := f.size_ge
    omega
  · intro f g hf hg
    refine ⟨fun hmem => ?_, fun hne => ⟨fun heq => hne (hf.flag_inj hg heq), hf.disjoint hg hne⟩⟩
    exact absurd hmem.1 (not_le.mpr (hf.flag_lt_frame hg))
  · intro thread classId realStack hc
    have hinv' := hinv.collect thread realStack
    refine ⟨_, _, by rw [FakeStack.allocate, if_pos hc], ?_, ?_⟩
    · intro x hx
      rcases FakeStack.probe_spec hc realStack (numIter (numberOfFrames fs.stackSizeLog classId))
        (fs.collect s thread realStack) with ⟨f, hf, hclass, hfree, hres, -⟩ | ⟨hres, -⟩
      · rw [hres] at hx
        exact ⟨f, hf, hclass, (Option.some.inj hx).symm, (hinv'.flag_iff hf).2.mp hfree⟩
      · rw [hres] at hx
        simp at hx
    · intro hnone hsmall f hf hclass
      exact hinv'.all_live hc hsmall hnone hf hclass
  · intro p
    rcases fs.addrIsInFakeStack_eq p with ⟨f, hf, hfp, haddr⟩ | ⟨hout, haddr⟩
    · have hmem := hf.frame_mem
      refine ⟨iff_of_true ⟨f, ⟨hf, hfp⟩, fun g hg => ?_⟩ ⟨hmem.1.trans hfp.1, hfp.2.trans_le hmem.2⟩,
        fun g hg hgp => ?_, fun hnone => absurd ⟨f, hf, hfp⟩ hnone⟩
      · exact FakeStack.contains_unique hg.1 hf hg.2 hfp
      · rw [FakeStack.contains_unique hg hf hgp hfp]
        exact haddr
    · have hnone : ∀ f, f.Valid fs → ¬fs.Contains f p := by
        intro f hf hfp
        have hmem := hf.frame_mem
        have hlo := hfp.1
        have hhi := hfp.2
        omega
      refine ⟨iff_of_false ?_ (by omega), fun f hf hfp => absurd hfp (hnone f hf), fun _ => haddr⟩
      rintro ⟨f, ⟨hf, hfp⟩, -⟩
      exact hnone f hf hfp

end Steps

/-- A fresh fake stack of the smallest size. -/
theorem fakeStack_runs_fresh : ∃ fs : FakeStack, fs.stackSizeLog = 16 ∧
    Run fs ⟨fun _ => 0, false, fun _ => 0⟩ ∅ ∧
    fs.addrIsInFakeStack (fs.frame ⟨0, 0⟩) =
      some (some (fs.frame ⟨0, 0⟩ + 32, fs.frame ⟨0, 0⟩ + 64, fs.frame ⟨0, 0⟩)) := by
  have hrun : Run ⟨4096, 16, le_rfl, by decide⟩ ⟨fun _ => 0, false, fun _ => 0⟩ ∅ :=
    Run.init fun _ _ _ => rfl
  have haddr := (fakeStack_runs hrun).2.2.2.2.2
  exact ⟨_, rfl, hrun, (haddr _).2.1 ⟨0, 0⟩ ⟨by decide, by decide⟩ ⟨le_rfl, by decide⟩⟩

/-- Where a class has `2^31` frames their number is negative as an `int`, and `Allocate` returns null
although no frame is live. -/
theorem fakeStack_many_frames : ∃ (fs : FakeStack) (s s' : State), fs.stackSizeLog = 37 ∧
    Run fs s ∅ ∧ fs.allocate s none 0 0 = some (s', none) ∧ (⟨0, 0⟩ : Frame).Valid fs := by
  refine ⟨⟨4096, 37, by decide, by decide⟩, ⟨fun _ => 0, false, fun _ => 0⟩,
    ⟨fun _ => 0, false, fun _ => 0⟩, rfl, Run.init fun _ _ _ => rfl, ?_, ⟨by decide, by decide⟩⟩
  have hiter : numIter (numberOfFrames 37 0) = 0 := by decide
  unfold FakeStack.allocate
  rw [if_pos (by decide)]
  dsimp only
  rw [hiter]
  rfl

end Tasan.FakeFrames
