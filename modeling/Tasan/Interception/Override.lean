import Tasan.Interception.Copy
import Tasan.Interception.Trampolines

/-!
# The overrides

Each of the three overrides that 64-bit Windows has writes its trampolines first and patches the function
last. The trampolines are in memory that was free, so that no write undoes another; the patch is in the
bytes of the function that are displaced and in the 8 bytes before it. `override_intercepts` puts this
together: the jumps from the function lead to the interceptor, and the function as it was can still be
called.
-/

namespace Tasan.Interception

variable {E : Env} {I : InstructionSet} {code : Word → Prop} {s s' : State} {oldFunc newFunc : Word}

/-- What an override leaves, when it displaces the first bytes of the function. -/
structure Intercepted (s s' : State) (oldFunc newFunc : Word) (displaced : ℕ) : Prop where
  /-- The jumps from the function lead to the interceptor. -/
  leads : Leads s'.mem oldFunc newFunc
  /-- Only the function with its padding and new trampoline space have changed. -/
  frame : ∀ x, s'.mem x ≠ s.mem x → InRange (oldFunc - 8) (8 + displaced) x ∨
    Allocated s'.regions x ∧ ¬ Allocated s.regions x

/-- At `real` are the displaced instructions, and behind them a jump to the rest of the function. -/
structure Real (I : InstructionSet) (m m' : WordMem) (oldFunc real : Word) (displaced : ℕ) : Prop where
  /-- The displaced instructions. -/
  copy : Relocated I m m' oldFunc real displaced
  /-- The jump. -/
  back : jumpTarget m' (real + BitVec.ofNat 64 displaced) =
    some (oldFunc + BitVec.ofNat 64 displaced)

/-- The function and its padding are code. -/
abbrev Covers (code : Word → Prop) (oldFunc : Word) (displaced : ℕ) : Prop :=
  ∀ x, InRange (oldFunc - 8) (8 + displaced) x → code x

theorem inRange_patched {x : Word} {k n displaced : ℕ}
    (h : InRange (oldFunc - 8 + BitVec.ofNat 64 k) n x) (hle : k + n ≤ 8 + displaced)
    (hdisplaced : displaced ≤ 2^32) : InRange (oldFunc - 8) (8 + displaced) x :=
  h.sub hle (by omega)

theorem inRange_displaced {x : Word} {n displaced : ℕ} (h : InRange oldFunc n x)
    (hle : n ≤ displaced) (hdisplaced : displaced ≤ 2^32) :
    InRange (oldFunc - 8) (8 + displaced) x := by
  refine inRange_patched (k := 8) (n := n) ?_ (by omega) hdisplaced
  rwa [show oldFunc - 8 + BitVec.ofNat 64 8 = oldFunc from sub_add_cancel oldFunc 8]

theorem Branch.direct_congr {m m' : WordMem} {a target : Word} (h : Branch m a (a + 6) target)
    (hm : ∀ x, InRange a 14 x → m' x = m x) : Branch m' a (a + 6) target :=
  h.congr fun x hx => hm x (hx.elim (fun hx => hx.mono (by norm_num))
    fun hx => InRange.sub (k := 6) hx (by norm_num) (by norm_num))

theorem writeDirectBranch_spec {m m' : WordMem} {a target : Word}
    (h : writeDirectBranch m a target = some m') :
    Branch m' a (a + 6) target ∧ ∀ x, ¬ InRange a 14 x → m' x = m x := by
  obtain ⟨hbranch, hframe⟩ := writeBranch_spec h fun x hx hcell =>
    InRange.not_start (k := 6) hcell (by norm_num) hx
  exact ⟨hbranch, fun x hx => hframe x (fun h => hx (h.mono (by norm_num)))
    fun h => hx (InRange.sub (k := 6) h (by norm_num) (by norm_num))⟩

theorem patch_spec {address length : Word} {write : WordMem → Option WordMem}
    (h : patch E s address length write = some (true, s')) :
    ∃ m, write s.mem = some m ∧ s' = { s with mem := m } := by
  unfold patch at h
  split_ifs at h
  · exact nomatch (Prod.mk.inj (Option.some.inj h)).1
  · obtain ⟨m, hwrite, heq⟩ := Option.map_eq_some_iff.mp h
    exact ⟨m, hwrite, (Prod.mk.inj heq).2.symm⟩

theorem Taken.allocated_trans {s₁ s₂ : State} {a b : Word} {n k : ℕ} (h₁ : Taken E code s s₁ a n)
    (h₂ : Taken E code s₁ s₂ b k) {x : Word} :
    Allocated s₂.regions x ∧ ¬ Allocated s.regions x ↔ InRange a n x ∨ InRange b k x := by
  rw [h₂.allocated, h₁.allocated]
  have hnew₁ := h₁.new x
  have hnew₂ := h₂.new x
  rw [h₁.allocated] at hnew₂
  tauto

theorem Taken.allocated_new {s₁ : State} {a : Word} {n : ℕ} (h₁ : Taken E code s s₁ a n) {x : Word} :
    Allocated s₁.regions x ∧ ¬ Allocated s.regions x ↔ InRange a n x := by
  rw [h₁.allocated]
  have hnew₁ := h₁.new x
  tauto

/-- The real function, with the bytes of its trampoline. -/
structure RealAt (I : InstructionSet) (m m' : WordMem) (oldFunc real : Word) (displaced : ℕ) :
    Prop where
  /-- The displaced instructions. -/
  copy : Relocated I m m' oldFunc real displaced
  /-- The branch to the rest of the function. -/
  branch : Branch m' (real + BitVec.ofNat 64 displaced) (real + BitVec.ofNat 64 displaced + 6)
    (oldFunc + BitVec.ofNat 64 displaced)

theorem RealAt.real {m m' m'' : WordMem} {real : Word} {displaced : ℕ}
    (h : RealAt I m m' oldFunc real displaced) (hle : displaced ≤ 2^32)
    (hm : ∀ x, InRange real (displaced + 14) x → m'' x = m' x) :
    Real I m m'' oldFunc real displaced where
  copy := h.copy.congr fun i hi => hm _ (inRange_add_ofNat real (by omega) (by omega))
  back := (h.branch.direct_congr fun x hx => hm x (hx.sub le_rfl (by omega))).jumpTarget_eq

/-- The trampoline of the displaced instructions. -/
theorem writeTrampoline_spec (hright : Right E I) (h : Trampolines E code s.regions)
    {displaced : ℕ} (hle : displaced ≤ 50) (hcode : ∀ x, InRange oldFunc displaced x → code x)
    (hrun : writeTrampoline E s oldFunc displaced = some (true, s')) :
    Taken E code s s' s'.origOldFunc (displaced + 14) ∧
      RealAt I s.mem s'.mem oldFunc s'.origOldFunc displaced := by
  unfold writeTrampoline at hrun
  obtain ⟨t, s₁, halloc⟩ : ∃ t s₁,
      allocateMemoryForTrampoline E s oldFunc (displaced + kDirectBranchLength) = (t, s₁) :=
    ⟨_, _, rfl⟩
  rw [halloc] at hrun
  dsimp only at hrun
  split_ifs at hrun with hzero
  · exact nomatch (Prod.mk.inj (Option.some.inj hrun)).1
  have htaken : Taken E code s s₁ t (displaced + 14) :=
    allocateMemory_spec h (show displaced + 14 ≤ 64 by omega) halloc hzero
  obtain ⟨⟨copied, m⟩, hcopy, hrest⟩ := Option.bind_eq_some_iff.mp hrun
  dsimp only at hrest
  split_ifs at hrest with hcopied
  · exact nomatch (Prod.mk.inj (Option.some.inj hrest)).1
  simp only [Bool.not_eq_true', Bool.not_eq_false] at hcopied
  subst hcopied
  obtain ⟨m', hbranch, heq⟩ := Option.map_eq_some_iff.mp hrest
  obtain ⟨-, rfl⟩ := Prod.mk.inj heq
  -- The function is not in the trampoline.
  have hdisj : ∀ x, InRange oldFunc displaced x → ¬ InRange t (displaced + 14) x :=
    fun x hx ht => htaken.not_code x ht (hcode x hx)
  have hsource : ∀ i < displaced, bytesAt s₁.mem oldFunc i = bytesAt s.mem oldFunc i :=
    fun i hi => htaken.frame _ (hdisj _ (inRange_add_ofNat oldFunc hi (by omega)))
  obtain ⟨hreloc, hframe⟩ := copyInstructions_spec hright (by omega)
    (fun x hx ht => hdisj x hx (ht.mono (by omega))) hsource hcopy
  obtain ⟨hbranch, hframe'⟩ := writeDirectBranch_spec hbranch
  constructor
  · exact
      { trampolines := htaken.trampolines
        allocated := htaken.allocated
        new := htaken.new
        not_code := htaken.not_code
        frame := fun x hx => by
          dsimp only
          rw [hframe' x fun hin => hx (hin.sub le_rfl (by omega)),
            hframe x fun hin => hx (hin.mono (by omega))]
          exact htaken.frame x hx }
  · refine ⟨hreloc.congr fun i hi => ?_, hbranch⟩
    exact hframe' _ fun hin => hin.not_start (by omega) (inRange_add_ofNat t hi (by omega))

/-- `OverrideFunctionWithRedirectJump`. -/
theorem redirectJump_spec (h : Trampolines E code s.regions) (hcode : Covers code oldFunc 5)
    (hrun : overrideFunctionWithRedirectJump E s oldFunc newFunc true = some (true, s')) :
    Intercepted s s' oldFunc newFunc 5 ∧ jumpTarget s.mem oldFunc = some s'.origOldFunc := by
  unfold overrideFunctionWithRedirectJump at hrun
  dsimp only at hrun
  rw [if_pos rfl] at hrun
  by_cases hopcode : s.mem oldFunc = 0xE9
  swap
  · rw [if_pos hopcode] at hrun
    exact nomatch (Prod.mk.inj (Option.some.inj hrun)).1
  rw [if_neg (not_not.mpr hopcode)] at hrun
  set s₀ : State := { s with origOldFunc := oldFunc + loadS32 s.mem (oldFunc + 1) + 5 } with hs₀
  have horig := allocate_origOldFunc (E := E) s₀ oldFunc kDirectBranchLength
  obtain ⟨t, s₁, halloc⟩ : ∃ t s₁,
      allocateMemoryForTrampoline E s₀ oldFunc kDirectBranchLength = (t, s₁) := ⟨_, _, rfl⟩
  rw [halloc] at hrun horig
  dsimp only at hrun horig
  split_ifs at hrun with hzero
  · exact nomatch (Prod.mk.inj (Option.some.inj hrun)).1
  have htaken : Taken E code s₀ s₁ t 14 :=
    allocateMemory_spec (s := s₀) h (show kDirectBranchLength ≤ 64 by decide) halloc hzero
  obtain ⟨m₁, hdirect, hpatch⟩ := Option.bind_eq_some_iff.mp hrun
  obtain ⟨m₂, hjump, rfl⟩ := patch_spec hpatch
  dsimp only at hjump
  obtain ⟨hbranch, hframe₁⟩ := writeDirectBranch_spec hdirect
  obtain ⟨hjump, hframe₂⟩ := writeJumpInstruction_spec hjump
  -- The patch leaves the trampoline as it is.
  have hkeep : ∀ x, InRange t 14 x → m₂ x = m₁ x := fun x hx => hframe₂ x fun hin =>
    htaken.not_code x hx (hcode x (inRange_displaced hin le_rfl (by norm_num)))
  refine ⟨⟨?_, fun x hne => ?_⟩, ?_⟩
  · exact (Leads.single hjump).tail (hbranch.direct_congr hkeep).jumpTarget_eq
  · by_contra hnot
    rw [not_or] at hnot
    have ht : ¬ InRange t 14 x := fun hx => hnot.2 (htaken.allocated_new.mpr hx)
    refine hne ?_
    dsimp only
    rw [hframe₂ x fun hin => hnot.1 (inRange_displaced hin le_rfl (by norm_num)), hframe₁ x ht]
    exact htaken.frame x ht
  · unfold jumpTarget
    dsimp only
    rw [if_pos hopcode, horig]
    congr 1
    rw [hs₀]
    ring

/-- `OverrideFunctionWithHotPatch`. -/
theorem hotPatch_spec (hright : Right E I) (h : Trampolines E code s.regions)
    (hcode : Covers code oldFunc (E.getInstructionSize s.mem oldFunc).1)
    (hrun : overrideFunctionWithHotPatch E s oldFunc newFunc true = some (true, s')) :
    Intercepted s s' oldFunc newFunc (E.getInstructionSize s.mem oldFunc).1 ∧
      Real I s.mem s'.mem oldFunc s'.origOldFunc (E.getInstructionSize s.mem oldFunc).1 := by
  unfold overrideFunctionWithHotPatch at hrun
  dsimp only at hrun
  rw [if_pos rfl] at hrun
  generalize hd : (E.getInstructionSize s.mem oldFunc).1 = displaced at hrun hcode ⊢
  by_cases hpatchable : displaced < kShortJumpInstructionLength ∨
      (!functionHasPadding s.mem oldFunc kBranchLength) = true
  · rw [if_pos hpatchable] at hrun
    exact nomatch (Prod.mk.inj (Option.some.inj hrun)).1
  rw [if_neg hpatchable] at hrun
  rw [not_or, not_lt] at hpatchable
  have hlen2 : 2 ≤ displaced := hpatchable.1
  have hlen15 : displaced ≤ 15 := by
    have hle := I.length_le (bytesAt s.mem oldFunc)
    rwa [← hright s.mem oldFunc (by omega), hd] at hle
  obtain ⟨⟨written, s₁⟩, htrampoline, hrest⟩ := Option.bind_eq_some_iff.mp hrun
  cases written with
  | false => exact nomatch (Prod.mk.inj (Option.some.inj hrest)).1
  | true =>
  dsimp only at hrest
  rw [if_neg (by decide)] at hrest
  obtain ⟨htaken₁, hreal⟩ := writeTrampoline_spec hright h (by omega)
    (fun x hx => hcode x (inRange_displaced hx le_rfl (by omega))) htrampoline
  have horig := allocate_origOldFunc (E := E) s₁ oldFunc kAddressLength
  obtain ⟨c, s₂, halloc⟩ : ∃ c s₂,
      allocateMemoryForTrampoline E s₁ oldFunc kAddressLength = (c, s₂) := ⟨_, _, rfl⟩
  rw [halloc] at hrest horig
  dsimp only at hrest horig
  split_ifs at hrest with hzero
  · exact nomatch (Prod.mk.inj (Option.some.inj hrest)).1
  have htaken₂ : Taken E code s₁ s₂ c 8 :=
    allocateMemory_spec htaken₁.trampolines (by decide) halloc hzero
  obtain ⟨m₂, hwrite, rfl⟩ := patch_spec hrest
  obtain ⟨m₁, hbranch, hshort⟩ := Option.bind_eq_some_iff.mp hwrite
  have hheader : oldFunc - 6 = oldFunc - 8 + BitVec.ofNat 64 2 := by
    rw [show (BitVec.ofNat 64 2 : Word) = 8 - 6 from rfl]
    ring
  have hold : oldFunc = oldFunc - 6 + BitVec.ofNat 64 6 := (sub_add_cancel oldFunc 6).symm
  -- The header is padding of the function, and the cell is not.
  have hpadding : ∀ x, InRange (oldFunc - 6) 6 x → InRange (oldFunc - 8) (8 + displaced) x :=
    fun x hx => inRange_patched (k := 2) (n := 6) (by rwa [← hheader]) (by omega) (by omega)
  have hshortIn : ∀ x, InRange oldFunc 2 x → InRange (oldFunc - 8) (8 + displaced) x :=
    fun x hx => inRange_displaced hx hlen2 (by omega)
  obtain ⟨hbranch, hframe₁⟩ := writeBranch_spec hbranch fun x hx hcell =>
    htaken₂.not_code x hcell (hcode x (hpadding x hx))
  obtain ⟨hshort, hframe₂⟩ := writeShortJumpInstruction_spec hshort
  have hframe : ∀ x, ¬ InRange (oldFunc - 8) (8 + displaced) x → ¬ InRange c 8 x →
      m₂ x = s₁.mem x := fun x hx hc => by
    rw [hframe₂ x fun hin => hx (hshortIn x hin), hframe₁ x (fun hin => hx (hpadding x hin)) hc]
    exact htaken₂.frame x hc
  refine ⟨⟨?_, fun x hne => ?_⟩, ?_⟩
  · refine (Leads.single hshort).tail (hbranch.congr fun x hx => ?_).jumpTarget_eq
    refine hframe₂ x fun hin => ?_
    rcases hx with hx | hx
    · rw [hold] at hin
      exact hin.not_start (by norm_num) hx
    · exact htaken₂.not_code x hx (hcode x (hshortIn x hin))
  · by_contra hnot
    rw [not_or, htaken₁.allocated_trans htaken₂, not_or] at hnot
    refine hne ?_
    dsimp only
    rw [hframe x hnot.1 hnot.2.2]
    exact htaken₁.frame x hnot.2.1
  · dsimp only
    rw [horig]
    refine hreal.real (by omega) fun x hx => hframe x (fun hin => ?_) fun hc => ?_
    · exact htaken₁.not_code x hx (hcode x hin)
    · exact htaken₂.new x hc ((htaken₁.allocated x).mpr (Or.inr hx))

theorem indirectCell_spec {s₁ s₂ : State} (h : Trampolines E code s₁.regions) {c : Word} {p : ℕ}
    (hcell : indirectCell E s₁ oldFunc = (some (c, p), s₂)) :
    s₂.origOldFunc = s₁.origOldFunc ∧ (c = oldFunc - 8 ∧ s₂ = s₁ ∨ Taken E code s₁ s₂ c 8) := by
  unfold indirectCell at hcell
  split_ifs at hcell with hpadding
  · obtain ⟨hc, rfl⟩ := Prod.mk.inj hcell
    obtain ⟨rfl, -⟩ := Prod.mk.inj (Option.some.inj hc)
    exact ⟨rfl, Or.inl ⟨rfl, rfl⟩⟩
  · have horig := allocate_origOldFunc (E := E) s₁ oldFunc kAddressLength
    obtain ⟨a, s₃, halloc⟩ : ∃ a s₃,
        allocateMemoryForTrampoline E s₁ oldFunc kAddressLength = (a, s₃) := ⟨_, _, rfl⟩
    rw [halloc] at hcell horig
    dsimp only at hcell
    split_ifs at hcell with hzero
    · exact nomatch (Prod.mk.inj hcell).1
    · obtain ⟨hc, rfl⟩ := Prod.mk.inj hcell
      obtain ⟨rfl, -⟩ := Prod.mk.inj (Option.some.inj hc)
      exact ⟨horig, Or.inr (allocateMemory_spec h (by decide) halloc hzero)⟩

/-- `OverrideFunctionWithTrampoline`. -/
theorem trampoline_spec (hright : Right E I) (h : Trampolines E code s.regions)
    (hcode : Covers code oldFunc (roundUpToInstrBoundary E s.mem kBranchLength oldFunc))
    (hrun : overrideFunctionWithTrampoline E s oldFunc newFunc true = some (true, s')) :
    Intercepted s s' oldFunc newFunc (roundUpToInstrBoundary E s.mem kBranchLength oldFunc) ∧
      Real I s.mem s'.mem oldFunc s'.origOldFunc
        (roundUpToInstrBoundary E s.mem kBranchLength oldFunc) := by
  have hbounds := roundUpLoop_spec hright s.mem kBranchLength oldFunc
    (show kBranchLength ≤ 0 + kBranchLength by decide) (by decide)
  unfold overrideFunctionWithTrampoline at hrun
  dsimp only at hrun
  rw [if_pos rfl, if_pos rfl] at hrun
  change roundUpToInstrBoundary E s.mem kBranchLength oldFunc = 0 ∨
    6 ≤ roundUpToInstrBoundary E s.mem kBranchLength oldFunc ∧
      roundUpToInstrBoundary E s.mem kBranchLength oldFunc < 21 at hbounds
  generalize roundUpToInstrBoundary E s.mem kBranchLength oldFunc = displaced
    at hrun hcode hbounds ⊢
  by_cases hzero : displaced = 0
  · rw [if_pos hzero] at hrun
    exact nomatch (Prod.mk.inj (Option.some.inj hrun)).1
  rw [if_neg hzero] at hrun
  obtain ⟨hlen6, hlen21⟩ := hbounds.resolve_left hzero
  obtain ⟨⟨written, s₁⟩, htrampoline, hrest⟩ := Option.bind_eq_some_iff.mp hrun
  cases written with
  | false => exact nomatch (Prod.mk.inj (Option.some.inj hrest)).1
  | true =>
  dsimp only at hrest
  rw [if_neg (by decide)] at hrest
  obtain ⟨htaken₁, hreal⟩ := writeTrampoline_spec hright h (by omega)
    (fun x hx => hcode x (inRange_displaced hx le_rfl (by omega))) htrampoline
  obtain ⟨cell, s₂, hcell⟩ : ∃ cell s₂, indirectCell E s₁ oldFunc = (cell, s₂) := ⟨_, _, rfl⟩
  rw [hcell] at hrest
  cases cell with
  | none => exact nomatch (Prod.mk.inj (Option.some.inj hrest)).1
  | some cp =>
    obtain ⟨c, p⟩ := cp
    obtain ⟨horig, hplace⟩ := indirectCell_spec htaken₁.trampolines hcell
    obtain ⟨m, hwrite, rfl⟩ := patch_spec hrest
    have hold : ∀ x, InRange oldFunc 6 x → InRange (oldFunc - 8) (8 + displaced) x :=
      fun x hx => inRange_displaced hx hlen6 (by omega)
    -- The cell is not in the jump.
    have hcellDisj : ∀ x, InRange oldFunc 6 x → ¬ InRange c 8 x := by
      intro x hx hc
      rcases hplace with ⟨rfl, -⟩ | htaken₂
      · rw [← sub_add_cancel oldFunc 8] at hx
        exact InRange.not_start (k := 8) hx (by norm_num) hc
      · exact htaken₂.not_code x hc (hcode x (hold x hx))
    obtain ⟨hbranch, hframe⟩ := writeBranch_spec hwrite hcellDisj
    -- What is written is the patch, or new space.
    have hchanged : ∀ x, ¬ InRange (oldFunc - 8) (8 + displaced) x →
        ¬ (Allocated s₂.regions x ∧ ¬ Allocated s₁.regions x) → m x = s₁.mem x := by
      intro x hx hnew
      have hx6 : ¬ InRange oldFunc 6 x := fun hin => hx (hold x hin)
      rcases hplace with ⟨rfl, rfl⟩ | htaken₂
      · exact hframe x hx6 fun hc => hx (hc.mono (by omega))
      · have hc : ¬ InRange c 8 x := fun hc => hnew (htaken₂.allocated_new.mpr hc)
        exact (hframe x hx6 hc).trans (htaken₂.frame x hc)
    have hgrow : ∀ x, Allocated s₁.regions x → Allocated s₂.regions x := by
      intro x hx
      rcases hplace with ⟨-, rfl⟩ | htaken₂
      · exact hx
      · exact (htaken₂.allocated x).mpr (Or.inl hx)
    refine ⟨⟨Leads.single hbranch.jumpTarget_eq, fun x hne => ?_⟩, ?_⟩
    · by_contra hnot
      rw [not_or] at hnot
      have ht : ¬ InRange s₁.origOldFunc (displaced + 14) x := fun hx =>
        hnot.2 ⟨hgrow x ((htaken₁.allocated x).mpr (Or.inr hx)), htaken₁.new x hx⟩
      refine hne ?_
      dsimp only
      rw [hchanged x hnot.1 fun hnew => hnot.2 ⟨hnew.1, fun hold =>
        hnew.2 ((htaken₁.allocated x).mpr (Or.inl hold))⟩]
      exact htaken₁.frame x ht
    · dsimp only
      rw [horig]
      refine hreal.real (by omega) fun x hx => hchanged x (fun hin => ?_) fun hnew => ?_
      · exact htaken₁.not_code x hx (hcode x hin)
      · exact hnew.2 ((htaken₁.allocated x).mpr (Or.inr hx))

theorem exists_of_fst_eq_true {r : Option (Bool × State)} (h : r.map Prod.fst = some true) :
    ∃ s', r = some (true, s') := by
  obtain ⟨⟨b, s'⟩, hr, rfl⟩ := Option.map_eq_some_iff.mp h
  exact ⟨s', hr⟩

/-- For every memory and every function and interceptor: when an override returns `true`, the jumps from
the function lead to the interceptor, `*orig_old_func` is the target of the jump that it was, or the
displaced instructions with a jump to the rest of the function, and nothing has changed but the displaced
bytes, the 8 bytes before the function and new trampoline space. -/
theorem override_intercepts (hright : Right E I) (h : Trampolines E code s.regions)
    (oldFunc newFunc : Word) :
    (∀ s', overrideFunctionWithRedirectJump E s oldFunc newFunc true = some (true, s') →
      Covers code oldFunc 5 →
      Intercepted s s' oldFunc newFunc 5 ∧ jumpTarget s.mem oldFunc = some s'.origOldFunc) ∧
    (∀ s' displaced, overrideFunctionWithHotPatch E s oldFunc newFunc true = some (true, s') →
      displaced = (E.getInstructionSize s.mem oldFunc).1 → Covers code oldFunc displaced →
      Intercepted s s' oldFunc newFunc displaced ∧
        Real I s.mem s'.mem oldFunc s'.origOldFunc displaced) ∧
    ∀ s' displaced, overrideFunctionWithTrampoline E s oldFunc newFunc true = some (true, s') →
      displaced = roundUpToInstrBoundary E s.mem kBranchLength oldFunc →
      Covers code oldFunc displaced →
      Intercepted s s' oldFunc newFunc displaced ∧
        Real I s.mem s'.mem oldFunc s'.origOldFunc displaced := by
  refine ⟨fun s' hrun hcode => redirectJump_spec h hcode hrun, ?_, ?_⟩
  · rintro s' displaced hrun rfl hcode
    exact hotPatch_spec hright h hcode hrun
  · rintro s' displaced hrun rfl hcode
    exact trampoline_spec hright h hcode hrun

/-- The instructions `mov eax, [rip + rel32]` and `mov edi, edi`. -/
def movInstructions : InstructionSet where
  decode b :=
    if b 0 = 0x8B ∧ b 1 = 0x05 then (6, 2) else if b 0 = 0x8B ∧ b 1 = 0xFF then (2, 0) else (0, 0)
  length_le b := by split_ifs <;> decide
  displacement_le b := by split_ifs <;> decide
  congr b b' := by
    intro hne hbytes
    -- Both instructions have a second byte.
    have hlen : 2 ≤ (if b 0 = 0x8B ∧ b 1 = 0x05 then (6, 2)
        else if b 0 = 0x8B ∧ b 1 = 0xFF then (2, 0) else (0, 0) : ℕ × ℕ).1 := by
      split_ifs at hne ⊢
      · decide
      · decide
      · exact absurd rfl hne
    rw [hbytes 0 (by omega), hbytes 1 (by omega)]

/-- A system that gives one region, at `0x20000`. -/
def oneRegion : Env where
  getInstructionSize m a := movInstructions.decode (bytesAt m a)
  changeMemoryProtection _ _ := true
  restoreMemoryProtection _ _ := true
  moduleInformation _ := none
  getMmapGranularity := 0x10000
  allocateTrampolineRegion rs _ _ _ := if rs.isEmpty then 0x20000 else 0

/-- A load of a global at `0x10000`, a jump at `0x11000` and a function that can be patched at `0x12000`, in
padding. -/
def threeFunctions : State where
  mem := ((WordMem.store (fun _ => 0xCC) 0x10000 7 0xC300000000058B).store 0x11000 5 0x10E9).store
    0x12000 3 0xC3FF8B
  regions := []
  origOldFunc := 0

theorem trampolines_oneRegion : Trampolines oneRegion (InRange 0xFF00 0x4000) [] where
  granularity := by decide
  allocated_le := nofun
  not_code := nofun
  pairwise := .nil
  fresh := by
    intro rs minAddr maxAddr funcAddr content hcontent hne x hx
    change (if rs.isEmpty then 0x20000 else 0) = content at hcontent
    cases rs with
    | cons r rs => exact absurd hcontent.symm hne
    | nil =>
      obtain rfl : (0x20000 : Word) = content := hcontent
      refine ⟨fun hcode => ?_, nofun⟩
      change (x - (0x20000 : BitVec 64)).toNat < 0x10000 at hx
      unfold InRange at hcode
      bv_omega

theorem covers_threeFunctions {oldFunc : Word} {displaced : ℕ} (hlen : displaced ≤ 32)
    (hlow : 0xFF08 ≤ oldFunc.toNat) (hhigh : oldFunc.toNat ≤ 0x13000) :
    Covers (InRange 0xFF00 0x4000) oldFunc displaced := by
  intro x hx
  unfold InRange at hx ⊢
  bv_omega

/-- Each of the three functions is intercepted by one of the overrides. -/
theorem override_intercepts_threeFunctions :
    (∃ s', Intercepted threeFunctions s' 0x11000 0x30000 5 ∧ s'.origOldFunc = 0x11015) ∧
    (∃ s', Intercepted threeFunctions s' 0x12000 0x30000 2 ∧
      Real movInstructions threeFunctions.mem s'.mem 0x12000 s'.origOldFunc 2) ∧
    ∃ s', Intercepted threeFunctions s' 0x10000 0x30000 6 ∧
      Real movInstructions threeFunctions.mem s'.mem 0x10000 s'.origOldFunc 6 := by
  have hright : Right oneRegion movInstructions := fun m a _ => rfl
  refine ⟨?_, ?_, ?_⟩
  · obtain ⟨s', hrun⟩ : ∃ s', overrideFunctionWithRedirectJump oneRegion threeFunctions 0x11000
        0x30000 true = some (true, s') :=
      exists_of_fst_eq_true (by decide +kernel)
    obtain ⟨hint, hjump⟩ := (override_intercepts hright trampolines_oneRegion 0x11000 0x30000).1 s'
      hrun (covers_threeFunctions (by decide) (by decide) (by decide))
    have htarget : jumpTarget threeFunctions.mem 0x11000 = some 0x11015 := by decide +kernel
    exact ⟨s', hint, Option.some.inj (hjump.symm.trans htarget)⟩
  · obtain ⟨s', hrun⟩ : ∃ s', overrideFunctionWithHotPatch oneRegion threeFunctions 0x12000
        0x30000 true = some (true, s') :=
      exists_of_fst_eq_true (by decide +kernel)
    exact ⟨s', (override_intercepts hright trampolines_oneRegion 0x12000 0x30000).2.1 s' 2 hrun
      (by decide +kernel) (covers_threeFunctions (by decide) (by decide) (by decide))⟩
  · obtain ⟨s', hrun⟩ : ∃ s', overrideFunctionWithTrampoline oneRegion threeFunctions 0x10000
        0x30000 true = some (true, s') :=
      exists_of_fst_eq_true (by decide +kernel)
    exact ⟨s', (override_intercepts hright trampolines_oneRegion 0x10000 0x30000).2.2 s' 6 hrun
      (by decide +kernel) (covers_threeFunctions (by decide) (by decide) (by decide))⟩

end Tasan.Interception
