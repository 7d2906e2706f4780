import Tasan.FakeStack.Shadow

/-!
# The shadow of a fake stack over runs

Between the operations the program writes to its memory and to the shadow, but not to the redzone that
`OnMalloc` has put behind the bytes in use of a live frame. That redzone is what `OnFree` relies on in
a large size class, where it poisons only the bytes in use.

The run is that of `Run`, with the shadow beside the memory, and with the size for which each live
frame has been allocated.
-/

namespace Tasan.FakeFrames

open Asan

section Effects

variable {fs : FakeStack} {C : Config} {f g : Frame} {σ σ' : Mem} {a t : ℕ}

/-- The address is poisoned. -/
def Poisoned (C : Config) (σ : Mem) (a : ℕ) : Prop :=
  addressIsPoisoned C.mapping.toLayout σ a = true

/-- The shadow of a frame. -/
def shadowOf (C : Config) (fs : FakeStack) (f : Frame) : Set ℕ :=
  {t | ∃ a, fs.Contains f a ∧ t = C.mapping.MEM_TO_SHADOW a}

theorem mem_shadowOf (ha : fs.Contains f a) : C.mapping.MEM_TO_SHADOW a ∈ shadowOf C fs f :=
  ⟨a, ha, rfl⟩

theorem Placed.le (h : Placed C fs) (hf : f.Valid fs) (ha : fs.Contains f a) :
    a ≤ C.mapping.kHighMemEnd := by
  have hmem := hf.frame_mem
  have hbase := fs.getFrame_zero
  have hlo := ha.1
  have hhi := ha.2
  exact C.mapping.le_of_addrIsInMem (h.inMem a (by omega) (by omega))

theorem Granules.div_mem {p n : ℕ} (hg : Granules C fs f p n) (ha : fs.Contains f a) :
    p ≤ a / C.mapping.granularity ∧ a / C.mapping.granularity < p + n := by
  have hpos := C.mapping.granularity_pos
  have hlo := ha.1
  have hhi := ha.2
  rw [hg.frame_eq] at hlo hhi
  rw [hg.size_eq, ← Nat.mul_add] at hhi
  exact ⟨(Nat.le_div_iff_mul_le hpos).mpr (by rwa [Nat.mul_comm]),
    Nat.div_lt_of_lt_mul hhi⟩

theorem Granules.mem_shadowOf_iff {p n : ℕ} (hg : Granules C fs f p n) (h : Placed C fs)
    (hf : f.Valid fs) :
    t ∈ shadowOf C fs f ↔ p + C.mapping.offset ≤ t ∧ t < p + n + C.mapping.offset := by
  constructor
  · rintro ⟨a, ha, rfl⟩
    have hq := hg.div_mem ha
    rw [C.mapping.MEM_TO_SHADOW_of_le (h.le hf ha)]
    omega
  · rintro ⟨hlo, hhi⟩
    obtain ⟨q, rfl⟩ : ∃ q, t = q + C.mapping.offset := ⟨t - C.mapping.offset, by omega⟩
    have ha : fs.Contains f (C.mapping.granularity * q) := by
      rw [FakeStack.Contains, hg.frame_eq, hg.size_eq, ← Nat.mul_add]
      exact ⟨Nat.mul_le_mul_left _ (by omega),
        Nat.mul_lt_mul_of_pos_left (by omega) C.mapping.granularity_pos⟩
    refine ⟨_, ha, ?_⟩
    rw [C.mapping.MEM_TO_SHADOW_of_le (h.le hf ha),
      Nat.mul_div_cancel_left _ C.mapping.granularity_pos]

theorem shadowOf_disjoint (h : Placed C fs) (hf : f.Valid fs) (hg : g.Valid fs) (hne : f ≠ g)
    (ht : t ∈ shadowOf C fs f) : t ∉ shadowOf C fs g := by
  obtain ⟨p, n, hp⟩ := h.granules f
  obtain ⟨q, k, hq⟩ := h.granules g
  intro ht'
  rw [hp.mem_shadowOf_iff h hf] at ht
  rw [hq.mem_shadowOf_iff h hg] at ht'
  have hdisj := hf.disjoint hg hne
  rw [hp.frame_eq, hp.size_eq, hq.frame_eq, hq.size_eq, ← Nat.mul_add, ← Nat.mul_add] at hdisj
  rcases hdisj with hle | hle
  · have := Nat.le_of_mul_le_mul_left hle C.mapping.granularity_pos
    omega
  · have := Nat.le_of_mul_le_mul_left hle C.mapping.granularity_pos
    omega

theorem poisoned_congr (heq : σ' (C.mapping.MEM_TO_SHADOW a) = σ (C.mapping.MEM_TO_SHADOW a)) :
    Poisoned C σ' a ↔ Poisoned C σ a := by
  rw [Poisoned, Poisoned, addressIsPoisoned, addressIsPoisoned, heq]

theorem poisoned_of_neg (ha : a ≤ C.mapping.kHighMemEnd)
    (hneg : (σ (a / C.mapping.granularity + C.mapping.offset)).toInt < 0) : Poisoned C σ a := by
  rw [Poisoned, C.mapping.addressIsPoisoned_iff σ ha, Mapping.acc, prefixLen_of_neg hneg]
  exact Nat.zero_le _

theorem not_poisoned_of_zero (ha : a ≤ C.mapping.kHighMemEnd)
    (hzero : σ (a / C.mapping.granularity + C.mapping.offset) = 0) : ¬Poisoned C σ a := by
  rw [Poisoned, C.mapping.addressIsPoisoned_iff σ ha, Mapping.acc, hzero, prefixLen_zero]
  exact not_le.mpr (Nat.mod_lt _ C.mapping.granularity_pos)

theorem magic_neg : kAsanStackAfterReturnMagic.toInt < 0 ∧ kAsanStackRightRedzoneMagic.toInt < 0 := by
  decide

theorem scale_of_inlined {classId : ℕ} (h : (C.mapping.scale = 3 && classId ≤ 6 : Bool) = true) :
    C.mapping.scale = 3 := of_decide_eq_true (Bool.and_eq_true_iff.mp h).1

variable {size : ℕ}

/-- `SetShadow` of `OnMalloc`: it changes no shadow but that of the frame, of which exactly the bytes
in use are addressable afterwards. -/
theorem setShadow_zero (h : Placed C fs) (hf : f.Valid fs) (hsize : size ≤ f.size)
    (hdvd : C.mapping.granularity ∣ size) (σ : Mem) :
    ∃ σ', setShadow C σ (fs.frame f) size f.classId 0 = some σ' ∧
      (∀ t, t ∉ shadowOf C fs f → σ' t = σ t) ∧
      ∀ a, fs.Contains f a → (Poisoned C σ' a ↔ fs.frame f + size ≤ a) := by
  obtain ⟨p, n, hg⟩ := h.granules f
  obtain ⟨m, rfl⟩ := hdvd
  rw [hg.size_eq] at hsize
  have hm : m ≤ n := Nat.le_of_mul_le_mul_left hsize C.mapping.granularity_pos
  refine ⟨_, setShadowBy_zero hg h hf hm scale_of_inlined σ, fun t ht => ?_, fun a ha => ?_⟩
  · rw [hg.mem_shadowOf_iff h hf] at ht
    rw [Mem.fill_of_not_mem _ _ (by omega), Mem.fill_of_not_mem _ _ (by omega)]
  · have hq := hg.div_mem ha
    have hle := h.le hf ha
    have hgran : fs.frame f + C.mapping.granularity * m ≤ a ↔
        p + m ≤ a / C.mapping.granularity := by
      rw [hg.frame_eq, ← Nat.mul_add, Nat.le_div_iff_mul_le C.mapping.granularity_pos, Nat.mul_comm]
    rw [hgran]
    by_cases hin : p + m ≤ a / C.mapping.granularity
    · refine iff_of_true (poisoned_of_neg hle ?_) hin
      rw [Mem.fill_of_mem _ _ (by omega)]
      exact magic_neg.2
    · refine iff_of_false (not_poisoned_of_zero hle ?_) hin
      rw [Mem.fill_of_not_mem _ _ (by omega), Mem.fill_of_mem _ _ (by omega)]

/-- What either way to poison a frame leaves, when there is a redzone behind the bytes in use: it
changes no shadow but that of the frame, of which all bytes are poisoned afterwards. -/
theorem setShadowBy_poisoned (inlined : Bool) (h : Placed C fs) (hf : f.Valid fs)
    (hsize : size ≤ f.size) (hdvd : C.mapping.granularity ∣ size)
    (hscale : inlined = true → C.mapping.scale = 3)
    (hredzone : ∀ a, fs.frame f + size ≤ a → a < fs.frame f + f.size → Poisoned C σ a) :
    ∃ σ', setShadowBy inlined C σ (fs.frame f) size f.classId kMagic8 = some σ' ∧
      (∀ t, t ∉ shadowOf C fs f → σ' t = σ t) ∧ ∀ a, fs.Contains f a → Poisoned C σ' a := by
  obtain ⟨p, n, hg⟩ := h.granules f
  obtain ⟨m, rfl⟩ := hdvd
  rw [hg.size_eq] at hsize
  have hm : m ≤ n := Nat.le_of_mul_le_mul_left hsize C.mapping.granularity_pos
  refine ⟨_, setShadowBy_magic hg h hf hm hscale σ, fun t ht => ?_, fun a ha => ?_⟩
  · rw [hg.mem_shadowOf_iff h hf] at ht
    rw [Mem.fill_of_not_mem _ _ (by split <;> omega)]
  · have hq := hg.div_mem ha
    have hle := h.le hf ha
    by_cases hin : a / C.mapping.granularity < p + if inlined then n else m
    · refine poisoned_of_neg hle ?_
      rw [Mem.fill_of_mem _ _ (by omega)]
      exact magic_neg.1
    · -- `PoisonShadow` has not reached this granule, which lies in the redzone
      have hout : p + m ≤ a / C.mapping.granularity := by
        split at hin <;> omega
      have hbehind : fs.frame f + C.mapping.granularity * m ≤ a := by
        rw [hg.frame_eq, ← Nat.mul_add, Nat.mul_comm]
        exact (Nat.le_div_iff_mul_le C.mapping.granularity_pos).mp hout
      refine (poisoned_congr ?_).mpr (hredzone a hbehind ha.2)
      rw [C.mapping.MEM_TO_SHADOW_of_le hle, Mem.fill_of_not_mem _ _ (by omega)]

theorem setShadow_magic (h : Placed C fs) (hf : f.Valid fs) (hsize : size ≤ f.size)
    (hdvd : C.mapping.granularity ∣ size)
    (hredzone : ∀ a, fs.frame f + size ≤ a → a < fs.frame f + f.size → Poisoned C σ a) :
    ∃ σ', setShadow C σ (fs.frame f) size f.classId kMagic8 = some σ' ∧
      (∀ t, t ∉ shadowOf C fs f → σ' t = σ t) ∧ ∀ a, fs.Contains f a → Poisoned C σ' a :=
  setShadowBy_poisoned _ h hf hsize hdvd scale_of_inlined hredzone

theorem setShadow_gc (h : Placed C fs) (hf : f.Valid fs) (σ : Mem) :
    ∃ σ', setShadow C σ (fs.frame f) (bytesInSizeClass f.classId) f.classId kMagic8 = some σ' ∧
      (∀ t, t ∉ shadowOf C fs f → σ' t = σ t) ∧ ∀ a, fs.Contains f a → Poisoned C σ' a := by
  obtain ⟨p, n, hg⟩ := h.granules f
  exact setShadow_magic h hf le_rfl ⟨n, hg.size_eq⟩ fun a hle hlt => absurd hlt (not_lt.mpr hle)

end Effects

/-! ## Garbage collection -/

section Collect

variable {fs : FakeStack} {C : Config} {s : State} {live : Set Frame} {bottom realStack : ℕ}

/-- `GC` collects the frame. -/
def FakeStack.Collected (fs : FakeStack) (bottom realStack : ℕ) (mem : Mem) (f : Frame) : Prop :=
  mem (fs.flag f) ≠ 0 ∧ bottom < fs.realStack mem f ∧ fs.realStack mem f < realStack

theorem gcFrameShadow_spec (bottom realStack : ℕ) (h : Placed C fs) {f : Frame} (hf : f.Valid fs) (mem σ : Mem) :
    ∃ σ', fs.gcFrameShadow C bottom realStack (mem, σ) f =
        some (fs.gcFrame bottom realStack mem f, σ') ∧
      (fs.Collected bottom realStack mem f → ∀ a, fs.Contains f a → Poisoned C σ' a) ∧
      ∀ t, (fs.Collected bottom realStack mem f → t ∉ shadowOf C fs f) → σ' t = σ t := by
  unfold FakeStack.gcFrameShadow FakeStack.gcFrame FakeStack.Collected
  by_cases hzero : mem (fs.flag f) = 0
  · simp only [if_pos hzero]
    exact ⟨σ, rfl, fun hc => absurd hzero hc.1, fun _ _ => rfl⟩
  by_cases hcond : bottom < fs.realStack mem f ∧ fs.realStack mem f < realStack
  · simp only [if_neg hzero, if_pos hcond]
    obtain ⟨σ', hset, hframe, hpoisoned⟩ := setShadow_gc h hf σ
    exact ⟨σ', by rw [hset, Option.map_some], fun _ => hpoisoned,
      fun t ht => hframe t (ht ⟨hzero, hcond⟩)⟩
  · simp only [if_neg hzero, if_neg hcond]
    exact ⟨σ, rfl, fun hc => absurd hc.2 hcond, fun _ _ => rfl⟩

theorem collected_gcFrame {f g : Frame} (hf : f.Valid fs) (hg : g.Valid fs) (mem : Mem) :
    fs.Collected bottom realStack (fs.gcFrame bottom realStack mem g) f ↔
      fs.Collected bottom realStack mem f ∧ f ≠ g := by
  have hone : ∀ f ∈ [g], f.Valid fs := by simpa using hg
  obtain ⟨hflag, hrest⟩ := FakeStack.gcFrames_spec bottom realStack hone mem
  simp only [List.foldl_cons, List.foldl_nil, List.mem_singleton, forall_eq] at hflag hrest
  have hstack : fs.realStack (fs.gcFrame bottom realStack mem g) f = fs.realStack mem f := by
    refine Mem.readLE_congr _ fun x hx _ => hrest x ?_
    have := hg.flag_lt_frame hf
    omega
  rw [FakeStack.Collected, FakeStack.Collected, hstack]
  by_cases hfg : f = g
  · subst hfg
    rw [hflag]
    by_cases hcond : bottom < fs.realStack mem f ∧ fs.realStack mem f < realStack
    · simp [hcond]
    · simp [hcond]
  · rw [hrest _ fun heq => hfg (hf.flag_inj hg heq)]
    simp [hfg]

/-- The loop over frames. -/
theorem gcFramesShadow_spec (bottom realStack : ℕ) (h : Placed C fs) {l : List Frame}
    (hl : ∀ f ∈ l, f.Valid fs) (mem σ : Mem) :
    ∃ σ', l.foldl (fun m f => m.bind fun m => fs.gcFrameShadow C bottom realStack m f)
        (some (mem, σ)) = some (l.foldl (fs.gcFrame bottom realStack) mem, σ') ∧
      (∀ f ∈ l, fs.Collected bottom realStack mem f → ∀ a, fs.Contains f a → Poisoned C σ' a) ∧
      ∀ t, (∀ f ∈ l, fs.Collected bottom realStack mem f → t ∉ shadowOf C fs f) → σ' t = σ t := by
  induction l generalizing mem σ with
  | nil => exact ⟨σ, rfl, by simp, fun _ _ => rfl⟩
  | cons g l ih =>
    have hg := hl g List.mem_cons_self
    have hl' : ∀ f ∈ l, f.Valid fs := fun f hf => hl f (List.mem_cons_of_mem g hf)
    obtain ⟨σ₁, hstep, hpoisoned₁, hframe₁⟩ :=
      gcFrameShadow_spec bottom realStack h hg mem σ
    obtain ⟨σ', hrun, hpoisoned, hframe⟩ := ih hl' (fs.gcFrame bottom realStack mem g) σ₁
    refine ⟨σ', by rw [List.foldl_cons, Option.bind_some, hstep, hrun, List.foldl_cons],
      fun f hf hc a ha => ?_, fun t ht => ?_⟩
    · by_cases hfg : f = g
      · subst hfg
        -- no frame that is collected later has its shadow here
        refine (poisoned_congr (hframe _ fun f' hf' hc' => ?_)).mpr (hpoisoned₁ hc a ha)
        have hne := ((collected_gcFrame (hl' f' hf') hg mem).mp hc').2
        exact shadowOf_disjoint h hg (hl' f' hf') hne.symm (mem_shadowOf ha)
      · have hmem : f ∈ l := (List.mem_cons.mp hf).resolve_left hfg
        exact hpoisoned f hmem ((collected_gcFrame (hl' f hmem) hg mem).mpr ⟨hc, hfg⟩) a ha
    · rw [hframe t fun f hf hc =>
          ht f (List.mem_cons_of_mem g hf) ((collected_gcFrame (hl' f hf) hg mem).mp hc).1,
        hframe₁ t (ht g List.mem_cons_self)]

/-- `GC` poisons the frames that it collects, and changes no other shadow. -/
theorem gcShadow_spec (h : Placed C fs) (hinv : Inv fs s.mem live) (σ : Mem)
    (thread : Option (ℕ × ℕ)) (realStack : ℕ) :
    ∃ σ', fs.gcShadow C s σ thread realStack = some (fs.gc s thread realStack, σ') ∧
      (∀ f ∈ live, f ∉ fs.keep s live thread realStack → ∀ a, fs.Contains f a → Poisoned C σ' a) ∧
      ∀ t, (∀ f ∈ live, f ∉ fs.keep s live thread realStack → t ∉ shadowOf C fs f) → σ' t = σ t := by
  unfold FakeStack.gcShadow FakeStack.gc FakeStack.keep
  cases thread with
  | none => exact ⟨σ, rfl, fun f hf hnot => absurd hf hnot, fun _ _ => rfl⟩
  | some stack =>
    obtain ⟨top, bottom⟩ := stack
    dsimp only
    by_cases hout : realStack < bottom ∨ realStack > top
    · simp only [if_pos hout]
      exact ⟨σ, rfl, fun f hf hnot => absurd hf hnot, fun _ _ => rfl⟩
    simp only [if_neg hout, FakeStack.forFrames_eq]
    obtain ⟨σ', hrun, hpoisoned, hframe⟩ := gcFramesShadow_spec bottom
      realStack h (fun f hf => FakeStack.mem_frames.mp hf) s.mem σ
    refine ⟨σ', by rw [hrun, Option.map_some], fun f hf hnot => ?_, fun t ht => hframe t ?_⟩
    · have hfv := hinv.valid f hf
      refine hpoisoned f (FakeStack.mem_frames.mpr hfv) ⟨fun hzero => ?_, ?_⟩
      · exact (hinv.flag_iff hfv).2.mp hzero hf
      · exact not_not.mp fun hcond => hnot ⟨hf, hcond⟩
    · intro f hf hc
      have hmem : f ∈ live :=
        not_not.mp fun hnot => hc.1 ((hinv.flag_iff (FakeStack.mem_frames.mp hf)).2.mpr hnot)
      exact ht f hmem fun hkeep => hkeep.2 hc.2

theorem collectShadow_spec (h : Placed C fs) (hinv : Inv fs s.mem live) (σ : Mem)
    (thread : Option (ℕ × ℕ)) (realStack : ℕ) :
    ∃ σ', (if s.needsGc then fs.gcShadow C s σ thread realStack else some (s, σ)) =
        some (fs.collect s thread realStack, σ') ∧
      (∀ f ∈ live, f ∉ fs.kept s live thread realStack → ∀ a, fs.Contains f a → Poisoned C σ' a) ∧
      ∀ t, (∀ f ∈ live, f ∉ fs.kept s live thread realStack → t ∉ shadowOf C fs f) → σ' t = σ t := by
  unfold FakeStack.collect FakeStack.kept
  by_cases hgc : s.needsGc = true
  · simp only [if_pos hgc]
    exact gcShadow_spec h hinv σ thread realStack
  · simp only [if_neg hgc]
    exact ⟨σ, rfl, fun f hf hnot => absurd hf hnot, fun _ _ => rfl⟩

end Collect

/-! ## Runs -/

section Runs

variable (fs : FakeStack) (C : Config)

/-- The operations. -/
inductive ShadowOp
  | malloc (thread : Option (ℕ × ℕ)) (classId size realStack : ℕ)
  | free (ptr classId size : ℕ)
  | handleNoReturn
  | gc (thread : Option (ℕ × ℕ)) (realStack : ℕ)
  | write (mem σ : Mem)

/-- The operation on the memory. -/
def ShadowOp.toOp : ShadowOp → Op
  | .malloc thread classId _ realStack => .allocate thread classId realStack
  | .free ptr classId _ => .deallocate ptr classId
  | .handleNoReturn => .handleNoReturn
  | .gc thread realStack => .gc thread realStack
  | .write mem _ => .write mem

/-- One operation, with the frame that `OnMalloc` returns; `none` is a failed `CHECK`. -/
def FakeStack.shadowStep (s : State) (σ : Mem) : ShadowOp → Option (State × Mem × Option ℕ)
  | .malloc thread classId size realStack => fs.onMalloc C s σ thread classId size realStack
  | .free ptr classId size => (onFree C s σ ptr classId size).map fun m => (m.1, m.2, none)
  | .handleNoReturn => some (s.handleNoReturn, σ, none)
  | .gc thread realStack => (fs.gcShadow C s σ thread realStack).map fun m => (m.1, m.2, none)
  | .write mem σ' => some ({ s with mem := mem }, σ', none)

/-- The sizes of the live frames after an operation. -/
def FakeStack.recordSize (sizes : Frame → ℕ) : ShadowOp → Option ℕ → Frame → ℕ
  | .malloc _ _ size _, some ptr => fun f => if fs.frame f = ptr then size else sizes f
  | _, _ => sizes

/-- What callers and the program may do: ask for whole granules that fit into the class, free a frame
for the size that it was asked for, and leave the redzones of live frames alone. -/
def FakeStack.ShadowLegal (s : State) (σ : Mem) (live : Set Frame) (sizes : Frame → ℕ)
    (op : ShadowOp) : Prop :=
  fs.Legal s live op.toOp ∧
    match op with
    | .malloc _ classId size _ => size ≤ bytesInSizeClass classId ∧ C.mapping.granularity ∣ size
    | .free ptr _ size => ∀ f ∈ live, fs.frame f = ptr → sizes f = size
    | .write _ σ' => ∀ f ∈ live, ∀ a, fs.frame f + sizes f ≤ a → a < fs.frame f + f.size →
      σ' (C.mapping.MEM_TO_SHADOW a) = σ (C.mapping.MEM_TO_SHADOW a)
    | _ => True

/-- A run from a fresh mapping with any shadow. -/
inductive ShadowRun : State → Mem → Set Frame → (Frame → ℕ) → Prop
  | init {mem : Mem} (σ : Mem) (sizes : Frame → ℕ)
      (hzero : ∀ a, fs.base ≤ a → a < fs.base + requiredSize fs.stackSizeLog → mem a = 0) :
      ShadowRun ⟨fun _ => 0, false, mem⟩ σ ∅ sizes
  | step {s s' : State} {σ σ' : Mem} {live : Set Frame} {sizes : Frame → ℕ} {op : ShadowOp}
      {res : Option ℕ} : ShadowRun s σ live sizes → fs.ShadowLegal C s σ live sizes op →
      fs.shadowStep C s σ op = some (s', σ', res) →
      ShadowRun s' σ' (fs.record s live op.toOp res) (fs.recordSize sizes op res)

/-- The redzones of live frames are poisoned. -/
structure Redzones (live : Set Frame) (sizes : Frame → ℕ) (σ : Mem) : Prop where
  /-- The bytes in use fit into the frame. -/
  le : ∀ f ∈ live, sizes f ≤ f.size
  /-- They are whole granules. -/
  dvd : ∀ f ∈ live, C.mapping.granularity ∣ sizes f
  /-- The other bytes are poisoned. -/
  poisoned : ∀ f ∈ live, ∀ a, fs.frame f + sizes f ≤ a → a < fs.frame f + f.size → Poisoned C σ a

end Runs

section Steps

variable {fs : FakeStack} {C : Config} {s : State} {σ σ' : Mem} {live live' : Set Frame}
  {sizes : Frame → ℕ} {f : Frame}

theorem contains_of_redzone {size a : ℕ} (hle : fs.frame f + size ≤ a) (hlt : a < fs.frame f + f.size) :
    fs.Contains f a := ⟨(Nat.le_add_right _ _).trans hle, hlt⟩

theorem Redzones.congr (hred : Redzones fs C live sizes σ) (hsub : live' ⊆ live)
    (heq : ∀ f ∈ live', ∀ t ∈ shadowOf C fs f, σ' t = σ t) : Redzones fs C live' sizes σ' where
  le := fun f hf => hred.le f (hsub hf)
  dvd := fun f hf => hred.dvd f (hsub hf)
  poisoned := fun f hf a hle hlt =>
    (poisoned_congr (heq f hf _ (mem_shadowOf (contains_of_redzone hle hlt)))).mpr
      (hred.poisoned f (hsub hf) a hle hlt)

theorem FakeStack.keep_subset (thread : Option (ℕ × ℕ)) (realStack : ℕ) :
    fs.keep s live thread realStack ⊆ live := by
  unfold FakeStack.keep
  split
  · exact subset_rfl
  · split
    · exact subset_rfl
    · exact Set.sep_subset _ _

theorem FakeStack.kept_subset (thread : Option (ℕ × ℕ)) (realStack : ℕ) :
    fs.kept s live thread realStack ⊆ live := by
  unfold FakeStack.kept
  split
  · exact FakeStack.keep_subset thread realStack
  · exact subset_rfl

theorem Redzones.collect (hred : Redzones fs C live sizes σ) (h : Placed C fs) (hinv : Inv fs s.mem live)
    (hsub : live' ⊆ live)
    (hframe : ∀ t, (∀ f ∈ live, f ∉ live' → t ∉ shadowOf C fs f) → σ' t = σ t) :
    Redzones fs C live' sizes σ' := by
  refine hred.congr hsub fun f hf t ht => hframe t fun g hg hgnot => ?_
  have hne : f ≠ g := fun heq => hgnot (heq ▸ hf)
  exact shadowOf_disjoint h (hinv.valid f (hsub hf)) (hinv.valid g hg) hne ht

/-- What `OnMalloc` does: it fails no check, and if it returns a frame, exactly the bytes in use are
addressable. It changes no shadow but that of this frame and of the frames that it collects, which are
poisoned. -/
theorem onMalloc_spec (h : Placed C fs) (hinv : Inv fs s.mem live) (σ : Mem)
    (thread : Option (ℕ × ℕ)) (realStack : ℕ) {classId size : ℕ} (hc : classId < kNumberOfSizeClasses)
    (hsize : size ≤ bytesInSizeClass classId) (hdvd : C.mapping.granularity ∣ size) :
    ∃ s' σ' res, fs.onMalloc C s σ thread classId size realStack = some (s', σ', res) ∧
      fs.allocate s thread classId realStack = some (s', res) ∧
      (∀ f ∈ live, f ∉ fs.kept s live thread realStack → (res = some (fs.frame f) → False) →
        ∀ a, fs.Contains f a → Poisoned C σ' a) ∧
      (∀ ptr, res = some ptr → ∃ f, f.Valid fs ∧ f.classId = classId ∧ ptr = fs.frame f ∧
        f ∉ fs.kept s live thread realStack ∧
        ∀ a, fs.Contains f a → (Poisoned C σ' a ↔ ptr + size ≤ a)) ∧
      ∀ t, (∀ f ∈ live, f ∉ fs.kept s live thread realStack → t ∉ shadowOf C fs f) →
        (∀ f, f.Valid fs → res = some (fs.frame f) → t ∉ shadowOf C fs f) → σ' t = σ t := by
  obtain ⟨σ₁, hcollect, hpoisoned, hframe⟩ := collectShadow_spec h hinv σ thread realStack
  have hinv' := hinv.collect thread realStack
  rw [FakeStack.onMalloc, if_pos hc, hcollect, FakeStack.allocate, if_pos hc, Option.bind_some]
  rcases FakeStack.probe_spec hc realStack (numIter (numberOfFrames fs.stackSizeLog classId))
    (fs.collect s thread realStack) with ⟨f, hf, rfl, hfree, hres, hmem⟩ | ⟨hres, hmem, -⟩
  · obtain ⟨σ', hset, hsetframe, hexact⟩ := setShadow_zero h hf hsize hdvd σ₁
    refine ⟨_, σ', some (fs.frame f), by simp only [hres, hset]; rfl, by rw [← hres], ?_, ?_, ?_⟩
    · intro g hg hgnot hne a ha
      have hfg : g ≠ f := fun heq => hne (heq ▸ rfl)
      refine (poisoned_congr (hsetframe _ ?_)).mpr (hpoisoned g hg hgnot a ha)
      exact shadowOf_disjoint h (hinv.valid g hg) hf hfg (mem_shadowOf ha)
    · intro ptr hptr
      obtain rfl := Option.some.inj hptr
      exact ⟨f, hf, rfl, rfl, (hinv'.flag_iff hf).2.mp hfree, hexact⟩
    · intro t ht htf
      rw [hsetframe t (htf f hf rfl), hframe t ht]
  · refine ⟨_, σ₁, none, by simp only [hres]; rfl, by rw [← hres], fun f hf hnot _ => hpoisoned f hf hnot,
      fun ptr hptr => (Option.some_ne_none _ hptr.symm).elim, fun t ht _ => hframe t ht⟩

/-- What `OnFree` does to a live frame, for the size for which it was allocated: it fails no check,
poisons the frame and changes no other shadow. -/
theorem onFree_spec (h : Placed C fs) (hinv : Inv fs s.mem live) (hred : Redzones fs C live sizes σ)
    (hf : f ∈ live) :
    ∃ σ', onFree C s σ (fs.frame f) f.classId (sizes f) =
        some (s.deallocate (fs.frame f) f.classId, σ') ∧
      (∀ a, fs.Contains f a → Poisoned C σ' a) ∧ ∀ t, t ∉ shadowOf C fs f → σ' t = σ t := by
  obtain ⟨σ', hset, hframe, hpoisoned⟩ :=
    setShadow_magic h (hinv.valid f hf) (hred.le f hf) (hred.dvd f hf) (hred.poisoned f hf)
  exact ⟨σ', by rw [onFree, hset, Option.map_some], hpoisoned, hframe⟩

/-- A legal operation fails no check and keeps the redzones. -/
theorem Redzones.step (h : Placed C fs) (hinv : Inv fs s.mem live) (hred : Redzones fs C live sizes σ)
    {op : ShadowOp} (hlegal : fs.ShadowLegal C s σ live sizes op) :
    ∃ s' σ' res, fs.shadowStep C s σ op = some (s', σ', res) ∧ fs.step s op.toOp = some (s', res) ∧
      Redzones fs C (fs.record s live op.toOp res) (fs.recordSize sizes op res) σ' := by
  obtain ⟨hop, hextra⟩ := hlegal
  cases op with
  | malloc thread classId size realStack =>
    obtain ⟨s', σ', res, hmalloc, halloc, -, hexact, hframe⟩ :=
      onMalloc_spec h hinv σ thread realStack hop.1 hextra.1 hextra.2
    refine ⟨s', σ', res, hmalloc, halloc, ?_⟩
    have hsub : fs.kept s live thread realStack ⊆ live := FakeStack.kept_subset thread realStack
    have hrest : ∀ g ∈ fs.kept s live thread realStack, res ≠ some (fs.frame g) →
        ∀ t ∈ shadowOf C fs g, σ' t = σ t := by
      intro g hg hne t ht
      refine hframe t (fun f hf hnot => ?_) fun f hf hres => ?_
      · exact shadowOf_disjoint h (hinv.valid g (hsub hg)) (hinv.valid f hf) (fun heq => hnot (heq ▸ hg)) ht
      · exact shadowOf_disjoint h (hinv.valid g (hsub hg)) hf (fun heq => hne (heq ▸ hres)) ht
    cases res with
    | none =>
      exact hred.congr hsub fun g hg t ht => hrest g hg (Option.some_ne_none _).symm t ht
    | some ptr =>
      obtain ⟨f, hf, rfl, rfl, hnot, hexact⟩ := hexact ptr rfl
      -- the frame is new among the live ones
      have hcases : ∀ g ∈ fs.record s live (.allocate thread f.classId realStack) (some (fs.frame f)),
          g = f ∨ g ∈ fs.kept s live thread realStack ∧ fs.frame g ≠ fs.frame f := by
        rintro g (hg | ⟨hg, -, heq⟩)
        · refine .inr ⟨hg, fun heq => hnot ?_⟩
          exact (hinv.valid g (hsub hg)).frame_inj hf heq ▸ hg
        · exact .inl (hg.frame_inj hf heq)
      have hold : ∀ g, fs.frame g ≠ fs.frame f →
          fs.recordSize sizes (.malloc thread f.classId size realStack) (some (fs.frame f)) g = sizes g :=
        fun g hne => if_neg hne
      have hnew : fs.recordSize sizes (.malloc thread f.classId size realStack) (some (fs.frame f)) f =
          size := if_pos rfl
      constructor
      · intro g hg
        rcases hcases g hg with rfl | ⟨hg, hne⟩
        · exact hnew.symm ▸ hextra.1
        · exact hold g hne ▸ hred.le g (hsub hg)
      · intro g hg
        rcases hcases g hg with rfl | ⟨hg, hne⟩
        · exact hnew.symm ▸ hextra.2
        · exact hold g hne ▸ hred.dvd g (hsub hg)
      · intro g hg a hle hlt
        rcases hcases g hg with rfl | ⟨hg, hne⟩
        · rw [hnew] at hle
          exact (hexact a (contains_of_redzone hle hlt)).mpr hle
        · rw [hold g hne] at hle
          refine (poisoned_congr (hrest g hg (fun heq => hne (Option.some.inj heq).symm) _ ?_)).mpr
            (hred.poisoned g (hsub hg) a hle hlt)
          exact mem_shadowOf (contains_of_redzone hle hlt)
  | free ptr classId size =>
    obtain ⟨f, hf, rfl, rfl⟩ := hop
    obtain rfl := hextra f hf rfl
    obtain ⟨σ', hfree, -, hframe⟩ := onFree_spec h hinv hred hf
    refine ⟨_, σ', none, by rw [FakeStack.shadowStep, hfree, Option.map_some], rfl, ?_⟩
    refine hred.congr (fun g hg => hg.1) fun g hg t ht => hframe t ?_
    exact shadowOf_disjoint h (hinv.valid g hg.1) (hinv.valid f hf) (fun heq => hg.2 (heq ▸ rfl)) ht
  | handleNoReturn => exact ⟨_, σ, none, rfl, rfl, hred⟩
  | gc thread realStack =>
    obtain ⟨σ', hgc, -, hframe⟩ := gcShadow_spec h hinv σ thread realStack
    exact ⟨_, σ', none, by rw [FakeStack.shadowStep, hgc, Option.map_some], rfl,
      hred.collect h hinv (FakeStack.keep_subset thread realStack) hframe⟩
  | write mem σ' =>
    refine ⟨_, σ', none, rfl, rfl, hred.le, hred.dvd, fun f hf a hle hlt => ?_⟩
    exact (poisoned_congr (hextra f hf a hle hlt)).mpr (hred.poisoned f hf a hle hlt)

theorem ShadowRun.inv (h : Placed C fs) (hrun : ShadowRun fs C s σ live sizes) :
    Inv fs s.mem live ∧ Redzones fs C live sizes σ := by
  induction hrun with
  | init σ sizes hzero => exact ⟨(Run.init hzero).inv, by simp, by simp, by simp⟩
  | step _ hlegal hstep ih =>
    obtain ⟨s', σ', res, hstep', hop, hred'⟩ := Redzones.step h ih.1 ih.2 hlegal
    obtain ⟨rfl, hpair⟩ := Prod.mk.inj (Option.some.inj (hstep.symm.trans hstep'))
    obtain ⟨rfl, rfl⟩ := Prod.mk.inj hpair
    obtain ⟨s'', res', hop', hinv'⟩ := ih.1.step hlegal.1
    obtain ⟨rfl, rfl⟩ := Prod.mk.inj (Option.some.inj (hop.symm.trans hop'))
    exact ⟨hinv', hred'⟩

/-- Both ways to poison a live frame leave the same addresses poisoned. -/
theorem setShadowBy_agree (h : Placed C fs) (hscale : C.mapping.scale = 3) (hinv : Inv fs s.mem live)
    (hred : Redzones fs C live sizes σ) (hf : f ∈ live) :
    ∃ σ₁ σ₂, setShadowBy true C σ (fs.frame f) (sizes f) f.classId kMagic8 = some σ₁ ∧
      setShadowBy false C σ (fs.frame f) (sizes f) f.classId kMagic8 = some σ₂ ∧
      ∀ a ≤ C.mapping.kHighMemEnd, (Poisoned C σ₁ a ↔ Poisoned C σ₂ a) := by
  have hfv := hinv.valid f hf
  have hset (inlined : Bool) := setShadowBy_poisoned inlined h hfv (hred.le f hf)
    (hred.dvd f hf) (fun _ => hscale) (hred.poisoned f hf)
  obtain ⟨σ₁, hset₁, hframe₁, hpoisoned₁⟩ := hset true
  obtain ⟨σ₂, hset₂, hframe₂, hpoisoned₂⟩ := hset false
  refine ⟨σ₁, σ₂, hset₁, hset₂, fun a ha => ?_⟩
  obtain ⟨p, n, hg⟩ := h.granules f
  by_cases ht : C.mapping.MEM_TO_SHADOW a ∈ shadowOf C fs f
  · -- an address whose shadow is that of the frame is in the frame
    have hmem : fs.Contains f a := by
      rw [hg.mem_shadowOf_iff h hfv, C.mapping.MEM_TO_SHADOW_of_le ha] at ht
      have hpos := C.mapping.granularity_pos
      rw [FakeStack.Contains, hg.frame_eq, hg.size_eq, ← Nat.mul_add, Nat.mul_comm,
        ← Nat.le_div_iff_mul_le hpos, Nat.mul_comm _ (p + n), ← Nat.div_lt_iff_lt_mul hpos]
      omega
    exact iff_of_true (hpoisoned₁ a hmem) (hpoisoned₂ a hmem)
  · exact poisoned_congr ((hframe₁ _ ht).trans (hframe₂ _ ht).symm)

/-- In every run, where memory can be poisoned: `OnMalloc`, `OnFree` of a live frame and `GC` fail no
check. `OnMalloc` leaves exactly the bytes in use of its frame addressable, and the frames that it
collects poisoned; `OnFree` and `GC` leave every byte of their frames poisoned; none of them changes
other shadow. Storing words and calling `PoisonShadow` come to the same. -/
theorem fakeStack_shadow (h : Placed C fs) (hrun : ShadowRun fs C s σ live sizes) :
    (∀ thread classId size realStack, classId < kNumberOfSizeClasses →
      size ≤ bytesInSizeClass classId → C.mapping.granularity ∣ size →
      ∃ s' σ' res, fs.onMalloc C s σ thread classId size realStack = some (s', σ', res) ∧
        fs.allocate s thread classId realStack = some (s', res) ∧
        (∀ f ∈ live, f ∉ fs.kept s live thread realStack → (res = some (fs.frame f) → False) →
          ∀ a, fs.Contains f a → Poisoned C σ' a) ∧
        (∀ ptr, res = some ptr → ∃ f, f.Valid fs ∧ f.classId = classId ∧ ptr = fs.frame f ∧
          f ∉ fs.kept s live thread realStack ∧
          ∀ a, fs.Contains f a → (Poisoned C σ' a ↔ ptr + size ≤ a)) ∧
        ∀ t, (∀ f ∈ live, f ∉ fs.kept s live thread realStack → t ∉ shadowOf C fs f) →
          (∀ f, f.Valid fs → res = some (fs.frame f) → t ∉ shadowOf C fs f) → σ' t = σ t) ∧
    (∀ f ∈ live, ∃ σ', onFree C s σ (fs.frame f) f.classId (sizes f) =
        some (s.deallocate (fs.frame f) f.classId, σ') ∧
      (∀ a, fs.Contains f a → Poisoned C σ' a) ∧ ∀ t, t ∉ shadowOf C fs f → σ' t = σ t) ∧
    (∀ thread realStack, ∃ σ', fs.gcShadow C s σ thread realStack =
        some (fs.gc s thread realStack, σ') ∧
      (∀ f ∈ live, f ∉ fs.keep s live thread realStack →
        ∀ a, fs.Contains f a → Poisoned C σ' a) ∧
      ∀ t, (∀ f ∈ live, f ∉ fs.keep s live thread realStack → t ∉ shadowOf C fs f) →
        σ' t = σ t) ∧
    (C.mapping.scale = 3 →
      (∀ f, f.Valid fs → ∀ size ≤ f.size, C.mapping.granularity ∣ size →
        setShadowBy true C σ (fs.frame f) size f.classId 0 =
          setShadowBy false C σ (fs.frame f) size f.classId 0) ∧
      (∀ f, f.Valid fs → setShadowBy true C σ (fs.frame f) f.size f.classId kMagic8 =
        setShadowBy false C σ (fs.frame f) f.size f.classId kMagic8) ∧
      ∀ f ∈ live, ∃ σ₁ σ₂,
        setShadowBy true C σ (fs.frame f) (sizes f) f.classId kMagic8 = some σ₁ ∧
        setShadowBy false C σ (fs.frame f) (sizes f) f.classId kMagic8 = some σ₂ ∧
        ∀ a ≤ C.mapping.kHighMemEnd, (Poisoned C σ₁ a ↔ Poisoned C σ₂ a)) := by
  obtain ⟨hinv, hred⟩ := hrun.inv h
  refine ⟨fun thread classId size realStack hc hsize hdvd => onMalloc_spec h hinv σ thread realStack hc hsize hdvd,
    fun f hf => onFree_spec h hinv hred hf, gcShadow_spec h hinv σ,
    fun hscale => ⟨fun f hf size hsize hdvd => ?_, fun f hf => ?_,
      fun f hf => setShadowBy_agree h hscale hinv hred hf⟩⟩
  · obtain ⟨p, n, hg⟩ := h.granules f
    obtain ⟨m, rfl⟩ := hdvd
    rw [hg.size_eq] at hsize
    have hm : m ≤ n := Nat.le_of_mul_le_mul_left hsize C.mapping.granularity_pos
    rw [setShadowBy_zero hg h hf hm (fun _ => hscale), setShadowBy_zero hg h hf hm (fun _ => hscale)]
  · obtain ⟨p, n, hg⟩ := h.granules f
    rw [hg.size_eq, setShadowBy_magic hg h hf le_rfl (fun _ => hscale),
      setShadowBy_magic hg h hf le_rfl (fun _ => hscale), if_pos rfl, if_neg Bool.false_ne_true]

end Steps

/-! ## Instances -/

/-- A fake stack of the smallest size in low memory. -/
def smallStack : FakeStack where
  base := 0x100000
  stackSizeLog := 16
  log_ge := le_rfl
  mapped := by decide

/-- The default flags, but for `poison_heap`, which is what `CanPoisonMemory()` returns. -/
def cannotPoison : Config where
  mapping := Mapping.linuxX64
  canPoisonMemory := false
  pageLog_lt := Config.linuxX64.pageLog_lt

theorem placed_smallStack : Placed Config.linuxX64 smallStack where
  aligned := by decide
  inMem := fun a _ ha => (Mapping.linuxX64_addrIsInMem a).mpr (.inl (ha.trans (by decide)))
  scale_le := by decide
  canPoison := rfl

/-- A fresh fake stack. -/
theorem fakeStack_shadow_fresh : ∃ s' σ' res,
    smallStack.onMalloc Config.linuxX64 ⟨fun _ => 0, false, fun _ => 0⟩ (fun _ => 7) none 0 32 0 =
      some (s', σ', res) ∧
    ∀ ptr, res = some ptr → ∃ f, f.Valid smallStack ∧ f.classId = 0 ∧ ptr = smallStack.frame f ∧
      ∀ a, smallStack.Contains f a → (Poisoned Config.linuxX64 σ' a ↔ ptr + 32 ≤ a) := by
  have hrun : ShadowRun smallStack Config.linuxX64 ⟨fun _ => 0, false, fun _ => 0⟩ (fun _ => 7) ∅
      fun _ => 0 := .init _ _ fun _ _ _ => rfl
  obtain ⟨s', σ', res, hmalloc, -, -, hexact, -⟩ :=
    (fakeStack_shadow placed_smallStack hrun).1 none 0 32 0 (by decide) (by decide) (by decide)
  refine ⟨s', σ', res, hmalloc, fun ptr hptr => ?_⟩
  obtain ⟨f, hf, hclass, hframe, -, hall⟩ := hexact ptr hptr
  exact ⟨f, hf, hclass, hframe, hall⟩

/-- Where memory cannot be poisoned, the bytes behind those in use stay addressable. -/
theorem onMalloc_cannotPoison : ∃ s' σ',
    smallStack.onMalloc cannotPoison ⟨fun _ => 0, false, fun _ => 0⟩ (fun _ => 0) none 0 32 0 =
      some (s', σ', some (smallStack.frame ⟨0, 0⟩)) ∧
    smallStack.Contains ⟨0, 0⟩ (smallStack.frame ⟨0, 0⟩ + 32) ∧
    ¬Poisoned cannotPoison σ' (smallStack.frame ⟨0, 0⟩ + 32) := by
  have hset : setShadow cannotPoison (fun _ => 0) (smallStack.frame ⟨0, 0⟩) 32 0 0 =
      some fun _ => 0 := by
    have hwords : ∀ shadow, storeWords (fun _ => 0) shadow (1 <<< 0) 0 = fun _ => 0 := fun shadow => by
      rw [storeWords_eq_fill (b := 0) (by simp)]
      exact funext fun x => ite_self _
    have halign : cannotPoison.mapping.addrIsAlignedByGranularity
        (Word.add 64 (smallStack.frame ⟨0, 0⟩) 32) = true := by decide
    have hin : cannotPoison.mapping.addrIsInMem (smallStack.frame ⟨0, 0⟩) = true :=
      (Mapping.linuxX64_addrIsInMem _).mpr (.inl (by decide))
    have hskip : ∀ addr size, poisonShadow cannotPoison (fun _ => 0) addr size
        kAsanStackRightRedzoneMagic = some fun _ => 0 := fun addr size => by
      rw [poisonShadow]
      exact if_pos (by decide)
    have hshadow : cannotPoison.mapping.memToShadow (smallStack.frame ⟨0, 0⟩) =
        some (cannotPoison.mapping.MEM_TO_SHADOW (smallStack.frame ⟨0, 0⟩)) := if_pos hin
    rw [setShadow, setShadowBy, halign, hshadow]
    simp only [hwords]
    exact hskip (Word.add 64 (smallStack.frame ⟨0, 0⟩) 32) (Word.sub 64 (bytesInSizeClass 0) 32)
  set s : State := ⟨fun _ => 0, false, fun _ => 0⟩ with hs
  -- the first frame is free
  have hprobe : (smallStack.probe 0 0 (1023 + 1) s).2 = some (smallStack.frame ⟨0, 0⟩) := by
    have hpos : moduloNumberOfFrames smallStack.stackSizeLog 0 0 = 0 := by decide
    rw [FakeStack.probe]
    exact (congrArg Prod.snd (if_neg fun hne => hne rfl)).trans
      (congrArg (some ∘ smallStack.getFrame 0) hpos)
  have hiter : numIter (numberOfFrames smallStack.stackSizeLog 0) = 1023 + 1 := by decide
  refine ⟨(smallStack.probe 0 0 (1023 + 1) s).1, fun _ => 0, ?_, ⟨Nat.le_add_right _ _, by decide⟩,
    not_poisoned_of_zero (by decide) rfl⟩
  rw [FakeStack.onMalloc, if_pos (by decide), if_neg (by exact Bool.false_ne_true), Option.bind_some,
    hiter]
  simp only [hprobe, hset, Option.map_some]

end Tasan.FakeFrames
