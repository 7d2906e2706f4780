import Tasan.Interception.Decoder
import Tasan.Interception.Override

/-!
# The overrides that fail

`OverrideFunction` tries one technique after the other. Each of them stores `*orig_old_func` before the last
calls of the system that can fail, and it does not undo what it has done: so the variable can be set, or the
function be patched, although `false` is returned. `Safe` says in terms of the answers of the system when
that does not happen, and `atomic_iff` that it happens in all other cases. A function that has been patched
is not patched again by the same technique.
-/

namespace Tasan.Interception

variable {E : Env} {I : InstructionSet} {code : Word → Prop} {s s' : State} {oldFunc newFunc : Word}

/-! ## `OverrideFunction` -/

/-- The functions that `OverrideFunction` calls on 64 bits. -/
inductive Technique
  /-- `OverrideFunctionWithRedirectJump`. -/
  | redirectJump
  /-- `OverrideFunctionWithHotPatch`. -/
  | hotPatch
  /-- `OverrideFunctionWithTrampoline`. -/
  | trampoline

/-- The next technique, if the one before returned `false`. -/
def orElse (r : Option (Bool × State)) (next : State → Option (Bool × State)) : Option (Bool × State) :=
  r.bind fun (ok, s) => if ok then some (true, s) else next s

/-- `OverrideFunction`. What the system answers may change from one technique to the next. -/
def overrideFunction (E : Technique → Env) (s : State) (oldFunc newFunc : Word) (orig : Bool) :
    Option (Bool × State) :=
  orElse (overrideFunctionWithRedirectJump (E .redirectJump) s oldFunc newFunc orig) fun s =>
    orElse (overrideFunctionWithHotPatch (E .hotPatch) s oldFunc newFunc orig) fun s =>
      orElse (overrideFunctionWithTrampoline (E .trampoline) s oldFunc newFunc orig) fun s =>
        some (false, s)

/-! ## The displaced instructions -/

/-- A number of bytes is a number of instructions. -/
inductive Cut (I : InstructionSet) (m : WordMem) : Word → ℕ → Prop
  /-- No instruction. -/
  | nil (a : Word) : Cut I m a 0
  /-- An instruction before others. -/
  | cons {a : Word} {n k : ℕ} (hpos : (I.decode (bytesAt m a)).1 ≠ 0)
    (hn : n = (I.decode (bytesAt m a)).1 + k)
    (hrest : Cut I m (a + BitVec.ofNat 64 (I.decode (bytesAt m a)).1) k) : Cut I m a n

/-- `RoundUpToInstrBoundary` counts instructions. -/
theorem roundUpLoop_cut (hright : Right E I) (m : WordMem) (size : ℕ) (a : Word) {n fuel cursor : ℕ}
    (hfuel : size ≤ cursor + fuel) (hn : roundUpLoop E m size a fuel cursor = n) (hpos : n ≠ 0) :
    cursor ≤ n ∧ Cut I m (a + BitVec.ofNat 64 cursor) (n - cursor) := by
  induction fuel generalizing cursor with
  | zero =>
    rw [roundUpLoop] at hn
    subst hn
    rw [Nat.sub_self]
    exact ⟨le_rfl, .nil _⟩
  | succ fuel ih =>
    rw [roundUpLoop] at hn
    dsimp only at hn
    split_ifs at hn with hlt hzero
    · exact absurd hn.symm hpos
    · have hget := hright m (a + BitVec.ofNat 64 cursor) hzero
      rw [hget] at hn hzero
      obtain ⟨hle, hcut⟩ := ih (by omega) hn
      refine ⟨by omega, .cons hzero (Nat.add_sub_of_le (by omega)).symm ?_⟩
      rw [add_assoc, ← BitVec.ofNat_add, Nat.sub_sub]
      exact hcut
    · subst hn
      rw [Nat.sub_self]
      exact ⟨le_rfl, .nil _⟩

theorem roundUpToInstrBoundary_bounds (hright : Right E I) (m : WordMem) (a : Word) :
    roundUpToInstrBoundary E m kBranchLength a = 0 ∨
      6 ≤ roundUpToInstrBoundary E m kBranchLength a ∧ roundUpToInstrBoundary E m kBranchLength a < 21 :=
  roundUpLoop_spec hright m kBranchLength a (show kBranchLength ≤ 0 + kBranchLength by decide) (by decide)

theorem cut_first (hright : Right E I) (m : WordMem) (a : Word) :
    Cut I m a (E.getInstructionSize m a).1 := by
  by_cases hzero : (E.getInstructionSize m a).1 = 0
  · rw [hzero]
    exact .nil a
  · have hget := hright m a hzero
    rw [hget] at hzero ⊢
    exact .cons hzero rfl (.nil _)

/-- The copy loop writes only to the target, whether it succeeds or not. -/
theorem copyLoop_frame (hright : Right E I) {m₀ : WordMem} {target source : Word} {size : ℕ}
    (hsize : size ≤ 2^32) (hdisj : ∀ x, InRange source size x → ¬ InRange target size x)
    {fuel cursor : ℕ} {m : WordMem} (hfuel : size ≤ cursor + fuel) (hcursor : cursor ≤ size)
    (hcut : Cut I m₀ (source + BitVec.ofNat 64 cursor) (size - cursor))
    (hsource : ∀ i < size, bytesAt m source i = bytesAt m₀ source i) :
    ∃ ok m', copyLoop E target source size fuel m cursor = some (ok, m') ∧
      ∀ x, ¬ InRange target size x → m' x = m x := by
  induction fuel generalizing cursor m with
  | zero => exact ⟨true, m, by rw [copyLoop, if_pos (by omega)], fun _ _ => rfl⟩
  | succ fuel ih =>
    rw [copyLoop]
    split_ifs with hend
    · exact ⟨true, m, rfl, fun _ _ => rfl⟩
    obtain ⟨d, r, hdr⟩ : ∃ d r,
        E.getInstructionSize m (source + BitVec.ofNat 64 cursor) = (d, r) := ⟨_, _, rfl⟩
    rw [hdr]
    dsimp only
    by_cases hzero : d = 0
    · rw [if_pos hzero]
      exact ⟨false, m, rfl, fun _ _ => rfl⟩
    rw [if_neg hzero]
    have hget := hright m (source + BitVec.ofNat 64 cursor)
    rw [hdr] at hget
    generalize hk : size - cursor = k at hcut
    cases hcut with
    | nil => omega
    | @cons _ _ k hpos hn hrest =>
    -- The decoder finds the instruction that it found before.
    have hdecode : I.decode (bytesAt m₀ (source + BitVec.ofNat 64 cursor)) = (d, r) := by
      rw [hget hzero]
      refine (I.congr _ _ hpos fun i hi => ?_).symm
      rw [bytesAt_add, bytesAt_add]
      exact (hsource _ (by omega)).symm
    rw [hdecode] at hn hrest
    dsimp only at hn hrest
    have hd15 := I.length_le (bytesAt m₀ (source + BitVec.ofNat 64 cursor))
    have hdisp := I.displacement_le (bytesAt m₀ (source + BitVec.ofNat 64 cursor))
    rw [hdecode] at hd15 hdisp
    dsimp only at hd15 hdisp
    rw [add_assoc, ← BitVec.ofNat_add, show k = size - (cursor + d) by omega] at hrest
    have hcopy : ∀ x, ¬ InRange (target + BitVec.ofNat 64 cursor) d x →
        m.copy (target + BitVec.ofNat 64 cursor) (source + BitVec.ofNat 64 cursor) d x = m x :=
      fun x hx => by
        rw [WordMem.copy_eq m (by omega)
          (fun y hy hy' => hdisj y (hy.sub (by omega) (by omega)) (hy'.sub (by omega) (by omega))),
          if_neg hx]
    -- The rest of the loop, after a turn that has written only the instruction.
    have hnext : ∀ m₂ : WordMem, (∀ x, ¬ InRange (target + BitVec.ofNat 64 cursor) d x → m₂ x = m x) →
        ∃ ok m', copyLoop E target source size fuel m₂ (cursor + d) = some (ok, m') ∧
          ∀ x, ¬ InRange target size x → m' x = m x := by
      intro m₂ hm₂
      have hin : ∀ x, InRange (target + BitVec.ofNat 64 cursor) d x → InRange target size x :=
        fun x hx => hx.sub (by omega) (by omega)
      obtain ⟨ok, m', hrun, hframe⟩ := ih (by omega) (by omega) hrest fun i hi =>
        (hm₂ _ fun hx => hdisj _ (inRange_add_ofNat source hi (by omega)) (hin _ hx)).trans (hsource i hi)
      exact ⟨ok, m', hrun, fun x hx => (hframe x hx).trans (hm₂ x fun hx' => hx (hin x hx'))⟩
    split_ifs with hr
    · exact hnext _ hcopy
    · cases hrel : relocate (m.copy (target + BitVec.ofNat 64 cursor) (source + BitVec.ofNat 64 cursor) d)
          target source (target + BitVec.ofNat 64 cursor + BitVec.ofNat 64 r) with
      | none =>
        exact ⟨false, _, rfl, fun x hx => hcopy x fun hx' => hx (hx'.sub (by omega) (by omega))⟩
      | some m₂ =>
        refine hnext m₂ fun x hx => ?_
        rw [(relocate_spec hrel).2 x fun hin => hx (hin.sub (hdisp hr) (by omega)), hcopy x hx]

/-! ## The trampoline of the displaced instructions -/

theorem writeDirectBranch_isSome (m : WordMem) (a target : Word) :
    ∃ m', writeDirectBranch m a target = some m' := by
  have hnear : distanceIsWithin2Gig (a + 6) (a + 6) = true := by simp [distanceIsWithin2Gig]
  exact ⟨_, by rw [writeDirectBranch, writeBranch, writeIndirectJumpInstruction, hnear]; rfl⟩

theorem Taken.code_frame {a : Word} {n : ℕ} (h : Taken E code s s' a n) {x : Word} (hx : code x) :
    s'.mem x = s.mem x :=
  h.frame x fun hin => h.not_code x hin hx

/-- The code is as it was, and the regions are still disjoint. -/
structure Quiet (E : Env) (code : Word → Prop) (s s' : State) : Prop where
  /-- The code. -/
  mem : ∀ x, code x → s'.mem x = s.mem x
  /-- The regions. -/
  trampolines : Trampolines E code s'.regions

theorem allocate_quiet (h : Trampolines E code s.regions) (funcAddress : Word) {size : ℕ}
    (hsize : size ≤ 64) : Quiet E code s (allocateMemoryForTrampoline E s funcAddress size).2 := by
  have hpair : allocateMemoryForTrampoline E s funcAddress size =
    ((allocateMemoryForTrampoline E s funcAddress size).1,
      (allocateMemoryForTrampoline E s funcAddress size).2) := rfl
  rcases allocateMemory_cases h hsize hpair with htaken | ⟨-, heq⟩
  · exact ⟨fun x hx => htaken.code_frame hx, htaken.trampolines⟩
  · rw [heq]
    exact ⟨fun _ _ => rfl, h⟩

/-- The trampoline is written or it is not, and the code stays. -/
theorem writeTrampoline_total (hright : Right E I) (h : Trampolines E code s.regions) {n : ℕ} (hn : n ≤ 50)
    (hcode : ∀ x, InRange oldFunc n x → code x) (hcut : Cut I s.mem oldFunc n) :
    ∃ ok s₁, writeTrampoline E s oldFunc n = some (ok, s₁) ∧ Quiet E code s s₁ ∧
      (ok = false → s₁.origOldFunc = s.origOldFunc) := by
  have horig := allocate_origOldFunc (E := E) s oldFunc (n + kDirectBranchLength)
  have hquiet := allocate_quiet h oldFunc (show n + kDirectBranchLength ≤ 64 by
    simp only [kDirectBranchLength, kBranchLength, kIndirectJumpInstructionLength, kAddressLength]; omega)
  unfold writeTrampoline
  obtain ⟨t, s₁, halloc⟩ : ∃ t s₁,
      allocateMemoryForTrampoline E s oldFunc (n + kDirectBranchLength) = (t, s₁) := ⟨_, _, rfl⟩
  rw [halloc] at horig hquiet ⊢
  dsimp only at horig hquiet ⊢
  split_ifs with hzero
  · exact ⟨false, s₁, rfl, hquiet, fun _ => horig⟩
  have htaken : Taken E code s s₁ t (n + 14) :=
    allocateMemory_spec h (show n + 14 ≤ 64 by omega) halloc hzero
  -- The function is not in the trampoline.
  have hdisj : ∀ x, InRange oldFunc n x → ¬ InRange t (n + 14) x :=
    fun x hx ht => htaken.not_code x ht (hcode x hx)
  have hsource : ∀ i < n, bytesAt s₁.mem oldFunc i = bytesAt s.mem oldFunc i :=
    fun i hi => hquiet.mem _ (hcode _ (inRange_add_ofNat oldFunc hi (by omega)))
  have hcut' : Cut I s.mem (oldFunc + BitVec.ofNat 64 0) (n - 0) := by
    rwa [show oldFunc + BitVec.ofNat 64 0 = oldFunc from add_zero oldFunc, Nat.sub_zero]
  have hfuel : n ≤ 0 + n := by omega
  obtain ⟨copied, m, hcopy, hframe⟩ := copyLoop_frame hright (show n ≤ 2^32 by omega)
    (fun x hx ht => hdisj x hx (ht.mono (by omega))) hfuel (Nat.zero_le n) hcut' hsource
  have hcode' : ∀ x, code x → m x = s.mem x := fun x hx => by
    rw [hframe x fun hin => htaken.not_code x (hin.mono (by omega)) hx]
    exact hquiet.mem x hx
  rw [copyInstructions, hcopy, Option.bind_some]
  cases copied with
  | false => exact ⟨false, _, rfl, ⟨hcode', hquiet.trampolines⟩, fun _ => horig⟩
  | true =>
    obtain ⟨m', hbranch⟩ := writeDirectBranch_isSome m (t + BitVec.ofNat 64 n) (oldFunc + BitVec.ofNat 64 n)
    refine ⟨true, { s₁ with mem := m', origOldFunc := t }, by simp [hbranch],
      ⟨fun x hx => ?_, hquiet.trampolines⟩, nofun⟩
    dsimp only
    rw [(writeDirectBranch_spec hbranch).2 x fun hin =>
      htaken.not_code x (hin.sub le_rfl (by omega)) hx, hcode' x hx]

/-! ## The value of `*orig_old_func` before -/

theorem allocate_setOrig (E : Env) (s : State) (v funcAddress : Word) (size : ℕ) :
    allocateMemoryForTrampoline E { s with origOldFunc := v } funcAddress size =
      ((allocateMemoryForTrampoline E s funcAddress size).1,
        { (allocateMemoryForTrampoline E s funcAddress size).2 with origOldFunc := v }) := by
  unfold allocateMemoryForTrampoline
  dsimp only
  split
  · rfl
  · split_ifs <;> rfl

/-- The state after a step that may have stored `*orig_old_func`, from another value of it. -/
def setOrig (v : Word) (r : Bool × State) : Bool × State :=
  (r.1, if r.1 then r.2 else { r.2 with origOldFunc := v })

theorem writeTrampoline_setOrig (E : Env) (s : State) (v oldFunc : Word) (n : ℕ) :
    writeTrampoline E { s with origOldFunc := v } oldFunc n =
      (writeTrampoline E s oldFunc n).map (setOrig v) := by
  unfold writeTrampoline
  rw [allocate_setOrig]
  obtain ⟨t, s₁, halloc⟩ : ∃ t s₁,
      allocateMemoryForTrampoline E s oldFunc (n + kDirectBranchLength) = (t, s₁) := ⟨_, _, rfl⟩
  rw [halloc]
  dsimp only
  split_ifs
  · rfl
  · cases hcopy : copyInstructions E s₁.mem t oldFunc n with
    | none => rfl
    | some r =>
      obtain ⟨copied, m⟩ := r
      cases copied with
      | false => rfl
      | true =>
        simp only [Option.bind_some, Bool.not_true, Bool.false_eq_true, if_false, Option.map_map]
        rfl

/-! ## Functions that begin with a jump -/

theorem RejectsJumps.roundUp (h : RejectsJumps E) {m : WordMem} (hjump : IsJump m oldFunc) :
    roundUpToInstrBoundary E m kBranchLength oldFunc = 0 := by
  have hsize := h m oldFunc hjump
  rw [roundUpToInstrBoundary, show kBranchLength = 5 + 1 from rfl, roundUpLoop]
  dsimp only
  rw [show oldFunc + BitVec.ofNat 64 0 = oldFunc from add_zero oldFunc, if_pos (by norm_num), if_pos hsize]

theorem RejectsJumps.hotPatch (h : RejectsJumps E) (hjump : IsJump s.mem oldFunc) :
    overrideFunctionWithHotPatch E s oldFunc newFunc true = some (false, s) := by
  have hsize := h s.mem oldFunc hjump
  unfold overrideFunctionWithHotPatch
  dsimp only
  rw [if_pos (.inl (by rw [hsize]; decide))]

theorem RejectsJumps.trampoline (h : RejectsJumps E) (hjump : IsJump s.mem oldFunc) :
    overrideFunctionWithTrampoline E s oldFunc newFunc true = some (false, s) := by
  unfold overrideFunctionWithTrampoline
  dsimp only
  rw [if_pos rfl, h.roundUp hjump, if_pos rfl]

/-! ## The end of a technique -/

/-- The calls of the system around a patch succeed. The second one is not made if the patch does not reach
its target, as `InterceptionFailed` does not return. -/
def PatchCompletes (E : Env) (address length : Word) (reaches : Bool) : Prop :=
  E.changeMemoryProtection address length = true ∧
    (reaches = true → E.restoreMemoryProtection address length = true)

theorem patch_fails (s : State) {address length : Word} (write : WordMem → Option WordMem) {reaches : Bool}
    (hreach : (write s.mem).isSome = reaches) (h : ¬ PatchCompletes E address length reaches) :
    E.changeMemoryProtection address length = false ∧ patch E s address length write = some (false, s) ∨
      E.changeMemoryProtection address length = true ∧
        ∃ m, write s.mem = some m ∧
          patch E s address length write = some (false, { s with mem := m }) := by
  unfold patch
  unfold PatchCompletes at h
  cases hchange : E.changeMemoryProtection address length with
  | false => exact .inl ⟨rfl, rfl⟩
  | true =>
    simp only [hchange, true_and, Classical.not_imp, Bool.not_eq_true] at h
    obtain ⟨hreaches, hrestore⟩ := h
    obtain ⟨m, hm⟩ := Option.isSome_iff_exists.mp (hreach.trans hreaches)
    exact .inr ⟨rfl, m, hm, by simp [hm, hrestore]⟩

theorem patch_completes (s : State) {address length : Word} (write : WordMem → Option WordMem)
    {reaches : Bool} (hreach : (write s.mem).isSome = reaches)
    (h : PatchCompletes E address length reaches) :
    patch E s address length write ≠ some (false, s') := by
  obtain ⟨hchange, hrestore⟩ := h
  unfold patch
  rw [hchange, Bool.not_true, if_neg Bool.false_ne_true]
  cases hm : write s.mem with
  | none => exact nofun
  | some m =>
    rw [hm, Option.isSome_some] at hreach
    rw [hrestore hreach.symm]
    exact nofun

theorem writeBranch_isSome (m : WordMem) (source indirect target : Word) :
    (writeBranch m source indirect target).isSome = distanceIsWithin2Gig (source + 6) indirect := by
  rw [writeBranch, writeIndirectJumpInstruction]
  cases distanceIsWithin2Gig (source + 6) indirect <;> rfl

theorem writeJumpInstruction_isSome (m : WordMem) (source target : Word) :
    (writeJumpInstruction m source target).isSome = distanceIsWithin2Gig (source + 5) target := by
  rw [writeJumpInstruction]
  cases distanceIsWithin2Gig (source + 5) target <;> rfl

/-! ## `OverrideFunctionWithRedirectJump` -/

/-- What the system answers after the store lets `OverrideFunctionWithRedirectJump` succeed. -/
def RedirectJumpCompletes (E : Env) (s : State) (oldFunc : Word) : Prop :=
  let trampoline := (allocateMemoryForTrampoline E s oldFunc kDirectBranchLength).1
  trampoline ≠ 0 ∧ PatchCompletes E oldFunc 5 (distanceIsWithin2Gig (oldFunc + 5) trampoline)

theorem redirectJump_other (h : s.mem oldFunc ≠ 0xE9) :
    overrideFunctionWithRedirectJump E s oldFunc newFunc true = some (false, s) := by
  unfold overrideFunctionWithRedirectJump
  dsimp only
  rw [if_pos h]

theorem redirectJump_setOrig (h : s.mem oldFunc = 0xE9) (v : Word) :
    overrideFunctionWithRedirectJump E { s with origOldFunc := v } oldFunc newFunc true =
      overrideFunctionWithRedirectJump E s oldFunc newFunc true := by
  unfold overrideFunctionWithRedirectJump
  dsimp only
  rw [if_neg (not_not.mpr h), if_neg (not_not.mpr h)]
  rfl

/-- The redirection of a jump fails, and the function still begins with a jump. -/
theorem redirectJump_fails (newFunc : Word) (h : Trampolines E code s.regions)
    (hcode : Covers code oldFunc 5) (hjump : s.mem oldFunc = 0xE9)
    (hcalls : ¬ RedirectJumpCompletes E s oldFunc) :
    ∃ s', overrideFunctionWithRedirectJump E s oldFunc newFunc true = some (false, s') ∧
      s'.mem oldFunc = 0xE9 := by
  have hold : code oldFunc := hcode _ (inRange_displaced
    (show InRange oldFunc 5 oldFunc by simp [InRange]) le_rfl (by norm_num))
  unfold overrideFunctionWithRedirectJump
  dsimp only
  rw [if_neg (not_not.mpr hjump), if_pos rfl, allocate_setOrig]
  unfold RedirectJumpCompletes at hcalls
  obtain ⟨t, s₁, halloc⟩ : ∃ t s₁,
      allocateMemoryForTrampoline E s oldFunc kDirectBranchLength = (t, s₁) := ⟨_, _, rfl⟩
  have hquiet := allocate_quiet h oldFunc (show kDirectBranchLength ≤ 64 by decide)
  rw [halloc] at hcalls hquiet ⊢
  dsimp only at hcalls hquiet ⊢
  split_ifs with hzero
  · exact ⟨_, rfl, (hquiet.mem _ hold).trans hjump⟩
  have htaken : Taken E code s s₁ t 14 :=
    allocateMemory_spec h (show kDirectBranchLength ≤ 64 by decide) halloc hzero
  obtain ⟨m, hdirect⟩ := writeDirectBranch_isSome s₁.mem t newFunc
  have hm : m oldFunc = 0xE9 := by
    rw [(writeDirectBranch_spec hdirect).2 oldFunc fun hin => htaken.not_code _ hin hold,
      hquiet.mem _ hold, hjump]
  rw [hdirect, Option.bind_some]
  rcases patch_fails { s₁ with mem := m, origOldFunc := _ } (fun m => writeJumpInstruction m oldFunc t)
    (writeJumpInstruction_isSome m oldFunc t) (fun hpatch => hcalls ⟨hzero, hpatch⟩)
    with ⟨-, hrun⟩ | ⟨-, m', hwrite, hrun⟩
  · exact ⟨_, hrun, hm⟩
  · exact ⟨_, hrun, writeJumpInstruction_opcode hwrite⟩

theorem redirectJump_completes (hjump : s.mem oldFunc = 0xE9) (hcalls : RedirectJumpCompletes E s oldFunc) :
    overrideFunctionWithRedirectJump E s oldFunc newFunc true ≠ some (false, s') := by
  unfold overrideFunctionWithRedirectJump
  dsimp only
  rw [if_neg (not_not.mpr hjump), if_pos rfl, allocate_setOrig]
  obtain ⟨hzero, hpatch⟩ := hcalls
  dsimp only
  rw [if_neg hzero]
  obtain ⟨m, hdirect⟩ := writeDirectBranch_isSome
    (allocateMemoryForTrampoline E s oldFunc kDirectBranchLength).2.mem
    (allocateMemoryForTrampoline E s oldFunc kDirectBranchLength).1 newFunc
  rw [hdirect, Option.bind_some]
  exact patch_completes _ _ (writeJumpInstruction_isSome m oldFunc _) hpatch

/-! ## `OverrideFunctionWithHotPatch` -/

/-- `OverrideFunctionWithHotPatch` up to the store. -/
def hotPatchStart (E : Env) (s : State) (oldFunc : Word) : Option (Bool × State) :=
  let instructionSize := (E.getInstructionSize s.mem oldFunc).1
  if instructionSize < kShortJumpInstructionLength ∨
      !functionHasPadding s.mem oldFunc kBranchLength then some (false, s)
  else writeTrampoline E s oldFunc instructionSize

/-- `OverrideFunctionWithHotPatch` after the store. -/
def hotPatchFinish (E : Env) (s : State) (oldFunc newFunc : Word) : Option (Bool × State) :=
  let (indirectAddress, s) := allocateMemoryForTrampoline E s oldFunc kAddressLength
  if indirectAddress = 0 then some (false, s)
  else patch E s (oldFunc - 6) 8 fun m =>
    (writeBranch m (oldFunc - 6) indirectAddress newFunc).bind fun m =>
      writeShortJumpInstruction m oldFunc (oldFunc - 6)

theorem hotPatch_eq (E : Env) (s : State) (oldFunc newFunc : Word) :
    overrideFunctionWithHotPatch E s oldFunc newFunc true = (hotPatchStart E s oldFunc).bind fun (ok, s) =>
      if ok then hotPatchFinish E s oldFunc newFunc else some (false, s) := by
  unfold overrideFunctionWithHotPatch hotPatchStart
  dsimp only
  rw [if_pos rfl]
  split_ifs
  · rfl
  · cases writeTrampoline E s oldFunc (E.getInstructionSize s.mem oldFunc).1 with
    | none => rfl
    | some r =>
      obtain ⟨ok, s₁⟩ := r
      cases ok <;> rfl

/-- What the system answers after the store lets `OverrideFunctionWithHotPatch` succeed. -/
def HotPatchCompletes (E : Env) (s : State) (oldFunc : Word) : Prop :=
  let indirectAddress := (allocateMemoryForTrampoline E s oldFunc kAddressLength).1
  indirectAddress ≠ 0 ∧
    PatchCompletes E (oldFunc - 6) 8 (distanceIsWithin2Gig (oldFunc - 6 + 6) indirectAddress)

/-- `OverrideFunctionWithHotPatch` gets as far as the patch. -/
def HotPatchWrites (E : Env) (s : State) (oldFunc : Word) : Prop :=
  (allocateMemoryForTrampoline E s oldFunc kAddressLength).1 ≠ 0 ∧
    E.changeMemoryProtection (oldFunc - 6) 8 = true

theorem writeShortJumpInstruction_header (m : WordMem) (oldFunc : Word) :
    ∃ m', writeShortJumpInstruction m oldFunc (oldFunc - 6) = some m' ∧ IsJump m' oldFunc := by
  have hoffset : oldFunc - 6 - oldFunc - 2 = -8 := by ring
  have hfit : ¬ ((-8 : Word).toInt < -128 ∨ 127 < (-8 : Word).toInt) := by decide
  have hrun : writeShortJumpInstruction m oldFunc (oldFunc - 6) =
      some ((m.store oldFunc 1 0xEB).store (oldFunc + 1) 1 (-8 : Word).toNat) := by
    rw [writeShortJumpInstruction, hoffset]
    exact if_neg hfit
  refine ⟨_, hrun, .inr (.inl ⟨writeShortJumpInstruction_opcode hrun, ?_⟩)⟩
  rw [store_one]
  decide

theorem hotPatch_isSome (m : WordMem) (oldFunc newFunc indirect : Word) :
    ((writeBranch m (oldFunc - 6) indirect newFunc).bind fun m =>
      writeShortJumpInstruction m oldFunc (oldFunc - 6)).isSome =
        distanceIsWithin2Gig (oldFunc - 6 + 6) indirect := by
  rw [← writeBranch_isSome m (oldFunc - 6) indirect newFunc]
  cases writeBranch m (oldFunc - 6) indirect newFunc with
  | none => rfl
  | some m =>
    obtain ⟨m', hrun, -⟩ := writeShortJumpInstruction_header m oldFunc
    rw [Option.bind_some, hrun]
    rfl

/-- A hot patch fails after the store. If it has been written, then the function begins with a jump. -/
theorem hotPatchFinish_fails (newFunc : Word) (h : ¬ HotPatchCompletes E s oldFunc) :
    ∃ s', hotPatchFinish E s oldFunc newFunc = some (false, s') ∧
      (HotPatchWrites E s oldFunc → IsJump s'.mem oldFunc) ∧
      (¬ HotPatchWrites E s oldFunc → s' = (allocateMemoryForTrampoline E s oldFunc kAddressLength).2) := by
  unfold hotPatchFinish HotPatchWrites
  unfold HotPatchCompletes at h
  obtain ⟨c, s₁, halloc⟩ : ∃ c s₁,
      allocateMemoryForTrampoline E s oldFunc kAddressLength = (c, s₁) := ⟨_, _, rfl⟩
  rw [halloc] at h ⊢
  dsimp only at h ⊢
  split_ifs with hzero
  · exact ⟨s₁, rfl, fun hwrites => absurd hzero hwrites.1, fun _ => rfl⟩
  rcases patch_fails s₁ (fun m => (writeBranch m (oldFunc - 6) c newFunc).bind fun m =>
    writeShortJumpInstruction m oldFunc (oldFunc - 6)) (hotPatch_isSome s₁.mem oldFunc newFunc c)
    (fun hpatch => h ⟨hzero, hpatch⟩) with ⟨hchange, hrun⟩ | ⟨hchange, m, hwrite, hrun⟩
  · refine ⟨s₁, hrun, fun hwrites => ?_, fun _ => rfl⟩
    exact absurd (hchange.symm.trans hwrites.2) Bool.false_ne_true
  · refine ⟨_, hrun, fun _ => ?_, fun hnot => absurd ⟨hzero, hchange⟩ hnot⟩
    obtain ⟨m₁, -, hshort⟩ := Option.bind_eq_some_iff.mp hwrite
    obtain ⟨m₂, hheader, hjump⟩ := writeShortJumpInstruction_header m₁ oldFunc
    obtain rfl := Option.some.inj (hheader.symm.trans hshort)
    exact hjump

theorem hotPatchFinish_completes (h : HotPatchCompletes E s oldFunc) :
    hotPatchFinish E s oldFunc newFunc ≠ some (false, s') := by
  unfold hotPatchFinish
  obtain ⟨hzero, hpatch⟩ := h
  dsimp only
  rw [if_neg hzero]
  exact patch_completes _ _ (hotPatch_isSome _ oldFunc newFunc _) hpatch

/-! ## `OverrideFunctionWithTrampoline` -/

/-- `OverrideFunctionWithTrampoline` up to the store. -/
def trampolineStart (E : Env) (s : State) (oldFunc : Word) : Option (Bool × State) :=
  let instructionsLength := roundUpToInstrBoundary E s.mem kBranchLength oldFunc
  if instructionsLength = 0 then some (false, s) else writeTrampoline E s oldFunc instructionsLength

/-- `OverrideFunctionWithTrampoline` after the store. -/
def trampolineFinish (E : Env) (s : State) (oldFunc newFunc : Word) (instructionsLength : ℕ) :
    Option (Bool × State) :=
  match indirectCell E s oldFunc with
  | (none, s) => some (false, s)
  | (some (indirectAddress, paddingLength), s) =>
    patch E s (oldFunc - BitVec.ofNat 64 paddingLength)
      (BitVec.ofNat 64 (instructionsLength + paddingLength)) fun m =>
        writeBranch m oldFunc indirectAddress newFunc

theorem trampoline_eq (E : Env) (s : State) (oldFunc newFunc : Word) :
    overrideFunctionWithTrampoline E s oldFunc newFunc true =
      (trampolineStart E s oldFunc).bind fun (ok, s₁) =>
        if ok then
          trampolineFinish E s₁ oldFunc newFunc (roundUpToInstrBoundary E s.mem kBranchLength oldFunc)
        else some (false, s₁) := by
  unfold overrideFunctionWithTrampoline trampolineStart
  dsimp only
  rw [if_pos rfl, if_pos rfl]
  split_ifs
  · rfl
  · cases writeTrampoline E s oldFunc (roundUpToInstrBoundary E s.mem kBranchLength oldFunc) with
    | none => rfl
    | some r =>
      obtain ⟨ok, s₁⟩ := r
      cases ok <;> rfl

/-- What the system answers after the store lets `OverrideFunctionWithTrampoline` succeed. -/
def TrampolineCompletes (E : Env) (s : State) (oldFunc : Word) (instructionsLength : ℕ) : Prop :=
  match (indirectCell E s oldFunc).1 with
  | none => False
  | some (indirectAddress, paddingLength) =>
    PatchCompletes E (oldFunc - BitVec.ofNat 64 paddingLength)
      (BitVec.ofNat 64 (instructionsLength + paddingLength))
      (distanceIsWithin2Gig (oldFunc + 6) indirectAddress)

theorem trampolineFinish_fails (newFunc : Word) {n : ℕ} (h : ¬ TrampolineCompletes E s oldFunc n) :
    ∃ s', trampolineFinish E s oldFunc newFunc n = some (false, s') := by
  unfold trampolineFinish
  unfold TrampolineCompletes at h
  obtain ⟨cell, s₁, hcell⟩ : ∃ cell s₁, indirectCell E s oldFunc = (cell, s₁) := ⟨_, _, rfl⟩
  rw [hcell] at h ⊢
  cases cell with
  | none => exact ⟨s₁, rfl⟩
  | some cp =>
    rcases patch_fails s₁ (fun m => writeBranch m oldFunc cp.1 newFunc)
      (writeBranch_isSome s₁.mem oldFunc cp.1 newFunc) h with ⟨-, hrun⟩ | ⟨-, m, -, hrun⟩
    · exact ⟨_, hrun⟩
    · exact ⟨_, hrun⟩

theorem trampolineFinish_completes {n : ℕ} (h : TrampolineCompletes E s oldFunc n) :
    trampolineFinish E s oldFunc newFunc n ≠ some (false, s') := by
  unfold trampolineFinish
  unfold TrampolineCompletes at h
  obtain ⟨cell, s₁, hcell⟩ : ∃ cell s₁, indirectCell E s oldFunc = (cell, s₁) := ⟨_, _, rfl⟩
  rw [hcell] at h ⊢
  cases cell with
  | none => exact h.elim
  | some cp => exact patch_completes s₁ _ (writeBranch_isSome s₁.mem oldFunc cp.1 newFunc) h

/-! ## The state at the store -/

theorem hotPatchStart_setOrig (E : Env) (s : State) (v oldFunc : Word) :
    hotPatchStart E { s with origOldFunc := v } oldFunc = (hotPatchStart E s oldFunc).map (setOrig v) := by
  unfold hotPatchStart
  dsimp only
  split_ifs
  · rfl
  · exact writeTrampoline_setOrig E s v oldFunc _

theorem trampolineStart_setOrig (E : Env) (s : State) (v oldFunc : Word) :
    trampolineStart E { s with origOldFunc := v } oldFunc =
      (trampolineStart E s oldFunc).map (setOrig v) := by
  unfold trampolineStart
  dsimp only
  split_ifs
  · rfl
  · exact writeTrampoline_setOrig E s v oldFunc _

theorem hotPatchStart_total (hright : Right E I) (h : Trampolines E code s.regions)
    (hcode : Covers code oldFunc (E.getInstructionSize s.mem oldFunc).1) :
    ∃ ok s₁, hotPatchStart E s oldFunc = some (ok, s₁) ∧ Quiet E code s s₁ ∧
      (ok = false → s₁.origOldFunc = s.origOldFunc) := by
  have hlen : (E.getInstructionSize s.mem oldFunc).1 ≤ 15 := by
    by_cases hzero : (E.getInstructionSize s.mem oldFunc).1 = 0
    · omega
    · rw [hright s.mem oldFunc hzero]
      exact I.length_le _
  unfold hotPatchStart
  dsimp only
  split_ifs
  · exact ⟨false, s, rfl, ⟨fun _ _ => rfl, h⟩, fun _ => rfl⟩
  · exact writeTrampoline_total hright h (by omega)
      (fun x hx => hcode x (inRange_displaced hx le_rfl (by omega))) (cut_first hright s.mem oldFunc)

theorem trampolineStart_total (hright : Right E I) (h : Trampolines E code s.regions)
    (hcode : Covers code oldFunc (roundUpToInstrBoundary E s.mem kBranchLength oldFunc)) :
    ∃ ok s₁, trampolineStart E s oldFunc = some (ok, s₁) ∧ Quiet E code s s₁ ∧
      (ok = false → s₁.origOldFunc = s.origOldFunc) := by
  have hbounds := roundUpToInstrBoundary_bounds hright s.mem oldFunc
  unfold trampolineStart
  dsimp only
  split_ifs with hzero
  · exact ⟨false, s, rfl, ⟨fun _ _ => rfl, h⟩, fun _ => rfl⟩
  · have hcut := (roundUpLoop_cut hright s.mem kBranchLength oldFunc
      (show kBranchLength ≤ 0 + kBranchLength by decide) rfl hzero).2
    rw [show oldFunc + BitVec.ofNat 64 0 = oldFunc from add_zero oldFunc, Nat.sub_zero] at hcut
    exact writeTrampoline_total hright h (by omega)
      (fun x hx => hcode x (inRange_displaced hx le_rfl (by omega))) hcut

/-- `OverrideFunctionWithTrampoline` succeeds, as far as it depends on the decoder and the system. -/
def TrampolineSucceeds (E : Env) (s : State) (oldFunc : Word) : Prop :=
  ∃ s₁, trampolineStart E s oldFunc = some (true, s₁) ∧
    TrampolineCompletes E s₁ oldFunc (roundUpToInstrBoundary E s.mem kBranchLength oldFunc)

theorem TrampolineSucceeds.ne (h : TrampolineSucceeds E s oldFunc) :
    overrideFunctionWithTrampoline E s oldFunc newFunc true ≠ some (false, s') := by
  obtain ⟨s₁, hstart, hcalls⟩ := h
  rw [trampoline_eq, hstart, Option.bind_some]
  exact trampolineFinish_completes hcalls

theorem trampoline_fails (hright : Right E I) (h : Trampolines E code s.regions)
    (hcode : Covers code oldFunc (roundUpToInstrBoundary E s.mem kBranchLength oldFunc)) (newFunc : Word)
    (hfail : ¬ TrampolineSucceeds E s oldFunc) :
    ∃ s', overrideFunctionWithTrampoline E s oldFunc newFunc true = some (false, s') := by
  obtain ⟨ok, s₁, hstart, -, -⟩ := trampolineStart_total hright h hcode
  rw [trampoline_eq, hstart, Option.bind_some]
  cases ok with
  | false => exact ⟨s₁, rfl⟩
  | true => exact trampolineFinish_fails newFunc fun hcalls => hfail ⟨s₁, hstart, hcalls⟩

/-! ## What a failure leaves -/

/-- The function with its padding is code, as far as the techniques look at it: the jump that it begins
with, its first instruction, and the instructions that a trampoline displaces. -/
structure IsFunction (E : Technique → Env) (code : Word → Prop) (m : WordMem) (oldFunc : Word) :
    Prop where
  /-- The jump. -/
  jump : m oldFunc = 0xE9 → Covers code oldFunc 5
  /-- The first instruction. -/
  first : Covers code oldFunc ((E .hotPatch).getInstructionSize m oldFunc).1
  /-- The instructions that a trampoline displaces, in all memories with this code. -/
  boundary : ∀ m', (∀ x, code x → m' x = m x) →
    Covers code oldFunc (roundUpToInstrBoundary (E .trampoline) m' kBranchLength oldFunc)

/-- What is assumed of the decoder, of the regions and of the function. -/
structure Setting (E : Technique → Env) (I : InstructionSet) (code : Word → Prop) (s : State)
    (oldFunc : Word) : Prop where
  /-- `GetInstructionSize` is right when it succeeds. -/
  right : ∀ t, Right (E t) I
  /-- It fails at jumps. -/
  rejects : ∀ t, RejectsJumps (E t)
  /-- The regions are disjoint from the code. -/
  trampolines : ∀ t, Trampolines (E t) code s.regions
  /-- The function is code. -/
  function : IsFunction E code s.mem oldFunc

/-- A failed `OverrideFunction` leaves the program's code and `*orig_old_func` as they were, for each value
of that, and a function is not patched twice by the same technique. -/
structure Atomic (E : Technique → Env) (code : Word → Prop) (s : State) (oldFunc newFunc : Word) :
    Prop where
  /-- A failure leaves nothing. -/
  unchanged : ∀ v s', overrideFunction E { s with origOldFunc := v } oldFunc newFunc true =
    some (false, s') → (∀ x, code x → s'.mem x = s.mem x) ∧ s'.origOldFunc = v
  /-- There is no second hot patch. -/
  hotPatchOnce : ∀ s', overrideFunctionWithHotPatch (E .hotPatch) s oldFunc newFunc true =
    some (true, s') → ∀ E' newFunc',
      overrideFunctionWithHotPatch E' s' oldFunc newFunc' true = some (false, s')
  /-- There is no second trampoline. -/
  trampolineOnce : ∀ s', overrideFunctionWithTrampoline (E .trampoline) s oldFunc newFunc true =
    some (true, s') → ∀ E' newFunc', RejectsJumps E' →
      overrideFunctionWithTrampoline E' s' oldFunc newFunc' true = some (false, s')

/-- No technique fails after it has stored `*orig_old_func`, unless the next one succeeds. -/
structure Safe (E : Technique → Env) (s : State) (oldFunc : Word) : Prop where
  /-- The redirection of a jump, which stores at once. -/
  redirectJump : s.mem oldFunc = 0xE9 → RedirectJumpCompletes (E .redirectJump) s oldFunc
  /-- A hot patch that comes to the store. If it fails before it has patched the function, the trampoline
  can still succeed. -/
  hotPatch : s.mem oldFunc ≠ 0xE9 → ∀ s₁, hotPatchStart (E .hotPatch) s oldFunc = some (true, s₁) →
    HotPatchCompletes (E .hotPatch) s₁ oldFunc ∨
      ¬ HotPatchWrites (E .hotPatch) s₁ oldFunc ∧ TrampolineSucceeds (E .trampoline)
        (allocateMemoryForTrampoline (E .hotPatch) s₁ oldFunc kAddressLength).2 oldFunc
  /-- A trampoline that comes to the store, after a hot patch that has not. -/
  trampoline : s.mem oldFunc ≠ 0xE9 → ∀ s₁ s₂,
    hotPatchStart (E .hotPatch) s oldFunc = some (false, s₁) →
    trampolineStart (E .trampoline) s₁ oldFunc = some (true, s₂) →
      TrampolineCompletes (E .trampoline) s₂ oldFunc
        (roundUpToInstrBoundary (E .trampoline) s₁.mem kBranchLength oldFunc)

section

variable {E : Technique → Env}

theorem Setting.quiet (h : Setting E I code s oldFunc) {t : Technique} {s₁ : State}
    (hquiet : Quiet (E t) code s s₁) (t' : Technique) : Quiet (E t') code s s₁ :=
  ⟨hquiet.mem,
    { hquiet.trampolines with
      granularity := (h.trampolines t').granularity
      fresh := (h.trampolines t').fresh }⟩

theorem Setting.hotPatchStart (h : Setting E I code s oldFunc) :
    ∃ ok s₁, hotPatchStart (E .hotPatch) s oldFunc = some (ok, s₁) ∧
      (∀ t, Quiet (E t) code s s₁) ∧ (ok = false → s₁.origOldFunc = s.origOldFunc) := by
  obtain ⟨ok, s₁, hstart, hquiet, horig⟩ :=
    hotPatchStart_total (h.right .hotPatch) (h.trampolines .hotPatch) h.function.first
  exact ⟨ok, s₁, hstart, h.quiet hquiet, horig⟩

theorem Setting.trampoline_fails (h : Setting E I code s oldFunc) (newFunc : Word) {s₁ : State}
    (hquiet : Quiet (E .trampoline) code s s₁) (hfail : ¬ TrampolineSucceeds (E .trampoline) s₁ oldFunc) :
    ∃ s', overrideFunctionWithTrampoline (E .trampoline) s₁ oldFunc newFunc true = some (false, s') :=
  Interception.trampoline_fails (h.right .trampoline) hquiet.trampolines
    (h.function.boundary s₁.mem hquiet.mem) newFunc hfail

theorem overrideFunction_false {s₁ s₂ : State}
    (hredirect : overrideFunctionWithRedirectJump (E .redirectJump) s oldFunc newFunc true =
      some (false, s₁))
    (hhot : overrideFunctionWithHotPatch (E .hotPatch) s₁ oldFunc newFunc true = some (false, s₂))
    (htramp : overrideFunctionWithTrampoline (E .trampoline) s₂ oldFunc newFunc true = some (false, s')) :
    overrideFunction E s oldFunc newFunc true = some (false, s') := by
  have hnext : ∀ {r : Option (Bool × State)} {s next}, r = some (false, s) → orElse r next = next s :=
    fun h => by rw [h]; rfl
  rw [overrideFunction, hnext hredirect, hnext hhot, hnext htramp]

theorem orElse_false {r : Option (Bool × State)} {next : State → Option (Bool × State)}
    (h : orElse r next = some (false, s')) : ∃ s₁, r = some (false, s₁) ∧ next s₁ = some (false, s') := by
  obtain ⟨⟨ok, s₁⟩, hr, hnext⟩ := Option.bind_eq_some_iff.mp h
  cases ok with
  | false => exact ⟨s₁, hr, hnext⟩
  | true => exact nomatch (Prod.mk.inj (Option.some.inj hnext)).1

/-- `Safe` does not depend on `*orig_old_func`. -/
theorem Safe.setOrig (h : Safe E s oldFunc) (v : Word) : Safe E { s with origOldFunc := v } oldFunc where
  redirectJump hjump := by
    unfold RedirectJumpCompletes
    rw [allocate_setOrig]
    exact h.redirectJump hjump
  hotPatch hjump s₁ hstart := by
    rw [hotPatchStart_setOrig] at hstart
    obtain ⟨⟨ok, s₀⟩, hs₀, heq⟩ := Option.map_eq_some_iff.mp hstart
    cases ok with
    | false => exact nomatch (Prod.mk.inj heq).1
    | true =>
      obtain rfl : s₀ = s₁ := (Prod.mk.inj heq).2
      exact h.hotPatch hjump s₀ hs₀
  trampoline hjump s₁ s₂ hstart hstart' := by
    rw [hotPatchStart_setOrig] at hstart
    obtain ⟨⟨ok, s₀⟩, hs₀, heq⟩ := Option.map_eq_some_iff.mp hstart
    cases ok with
    | true => exact nomatch (Prod.mk.inj heq).1
    | false =>
      obtain rfl : { s₀ with origOldFunc := v } = s₁ := (Prod.mk.inj heq).2
      rw [trampolineStart_setOrig] at hstart'
      obtain ⟨⟨ok, s₃⟩, hs₃, heq'⟩ := Option.map_eq_some_iff.mp hstart'
      cases ok with
      | false => exact nomatch (Prod.mk.inj heq').1
      | true =>
        obtain rfl : s₃ = s₂ := (Prod.mk.inj heq').2
        exact h.trampoline hjump s₀ s₃ hs₀ hs₃

/-- A run that meets the condition and fails leaves nothing. -/
theorem Safe.unchanged (h : Setting E I code s oldFunc) (hsafe : Safe E s oldFunc)
    (hrun : overrideFunction E s oldFunc newFunc true = some (false, s')) :
    (∀ x, code x → s'.mem x = s.mem x) ∧ s'.origOldFunc = s.origOldFunc := by
  obtain ⟨s₀, hredirect, hrun⟩ := orElse_false hrun
  by_cases hjump : s.mem oldFunc = 0xE9
  · exact absurd hredirect (redirectJump_completes hjump (hsafe.redirectJump hjump))
  rw [redirectJump_other hjump] at hredirect
  obtain ⟨-, rfl⟩ := Prod.mk.inj (Option.some.inj hredirect)
  obtain ⟨s₁, hhot, hrun⟩ := orElse_false hrun
  obtain ⟨s₂, htramp, hrun⟩ := orElse_false hrun
  obtain ⟨-, rfl⟩ := Prod.mk.inj (Option.some.inj hrun)
  obtain ⟨ok, t₁, hstart, hquiet, horig⟩ := h.hotPatchStart
  rw [hotPatch_eq, hstart, Option.bind_some] at hhot
  cases ok with
  | true =>
    -- The hot patch has stored, so it cannot have failed for good.
    rcases hsafe.hotPatch hjump t₁ hstart with hcalls | ⟨hwrites, hsucceeds⟩
    · exact absurd hhot (hotPatchFinish_completes hcalls)
    · by_cases hcalls : HotPatchCompletes (E .hotPatch) t₁ oldFunc
      · exact absurd hhot (hotPatchFinish_completes hcalls)
      · obtain ⟨t₂, hfinish, -, hcell⟩ := hotPatchFinish_fails newFunc hcalls
        obtain ⟨-, rfl⟩ := Prod.mk.inj (Option.some.inj (hfinish.symm.trans hhot))
        rw [hcell hwrites] at htramp
        exact absurd htramp hsucceeds.ne
  | false =>
    obtain ⟨-, rfl⟩ := Prod.mk.inj (Option.some.inj hhot)
    obtain ⟨ok, t₂, hstart', hquiet', horig'⟩ := trampolineStart_total (h.right .trampoline)
      (hquiet .trampoline).trampolines (h.function.boundary _ (hquiet .trampoline).mem)
    rw [trampoline_eq, hstart', Option.bind_some] at htramp
    cases ok with
    | true =>
      exact absurd htramp (trampolineFinish_completes (hsafe.trampoline hjump _ t₂ hstart hstart'))
    | false =>
      obtain ⟨-, rfl⟩ := Prod.mk.inj (Option.some.inj htramp)
      refine ⟨fun x hx => ?_, (horig' rfl).trans (horig rfl)⟩
      exact (hquiet'.mem x hx).trans ((hquiet .trampoline).mem x hx)

theorem run_of_not_redirectJump (h : Setting E I code s oldFunc) (newFunc : Word)
    (hjump : s.mem oldFunc = 0xE9) (hcalls : ¬ RedirectJumpCompletes (E .redirectJump) s oldFunc) :
    ∃ s', ∀ v, overrideFunction E { s with origOldFunc := v } oldFunc newFunc true = some (false, s') := by
  obtain ⟨s', hrun, hstays⟩ := redirectJump_fails newFunc (h.trampolines .redirectJump)
    (h.function.jump hjump) hjump hcalls
  exact ⟨s', fun v => overrideFunction_false ((redirectJump_setOrig hjump v).trans hrun)
    ((h.rejects .hotPatch).hotPatch (.inl hstays)) ((h.rejects .trampoline).trampoline (.inl hstays))⟩

/-- So does a run whose hot patch stores and fails, if the trampoline does not succeed after that. -/
theorem run_of_not_hotPatch (h : Setting E I code s oldFunc) (newFunc : Word)
    (hjump : s.mem oldFunc ≠ 0xE9) {s₁ : State}
    (hstart : hotPatchStart (E .hotPatch) s oldFunc = some (true, s₁))
    (hcalls : ¬ HotPatchCompletes (E .hotPatch) s₁ oldFunc)
    (hnext : HotPatchWrites (E .hotPatch) s₁ oldFunc ∨ ¬ TrampolineSucceeds (E .trampoline)
      (allocateMemoryForTrampoline (E .hotPatch) s₁ oldFunc kAddressLength).2 oldFunc) :
    ∃ s', ∀ v, overrideFunction E { s with origOldFunc := v } oldFunc newFunc true = some (false, s') := by
  obtain ⟨s₂, hfinish, hwrites, hcell⟩ := hotPatchFinish_fails newFunc hcalls
  have hhot : ∀ v, overrideFunctionWithHotPatch (E .hotPatch) { s with origOldFunc := v } oldFunc newFunc
      true = some (false, s₂) := fun v => by
    rw [hotPatch_eq, hotPatchStart_setOrig, hstart]
    exact hfinish
  have hfail : ∃ s', overrideFunctionWithTrampoline (E .trampoline) s₂ oldFunc newFunc true =
      some (false, s') := by
    by_cases hw : HotPatchWrites (E .hotPatch) s₁ oldFunc
    · exact ⟨s₂, (h.rejects .trampoline).trampoline (hwrites hw)⟩
    · obtain ⟨ok, t₁, hstart', hquiet, -⟩ := h.hotPatchStart
      obtain ⟨-, rfl⟩ := Prod.mk.inj (Option.some.inj (hstart'.symm.trans hstart))
      have hcellQuiet := allocate_quiet (hquiet .hotPatch).trampolines oldFunc
        (show kAddressLength ≤ 64 by decide)
      rw [hcell hw]
      exact h.trampoline_fails newFunc (h.quiet (t := .hotPatch)
        ⟨fun x hx => (hcellQuiet.mem x hx).trans ((hquiet .hotPatch).mem x hx), hcellQuiet.trampolines⟩ _)
        (hnext.resolve_left hw)
  obtain ⟨s', htramp⟩ := hfail
  exact ⟨s', fun v => overrideFunction_false (redirectJump_other hjump) (hhot v) htramp⟩

theorem run_of_not_trampoline (newFunc : Word) (hjump : s.mem oldFunc ≠ 0xE9) {s₁ s₂ : State}
    (hstart : hotPatchStart (E .hotPatch) s oldFunc = some (false, s₁))
    (hstart' : trampolineStart (E .trampoline) s₁ oldFunc = some (true, s₂))
    (hcalls : ¬ TrampolineCompletes (E .trampoline) s₂ oldFunc
      (roundUpToInstrBoundary (E .trampoline) s₁.mem kBranchLength oldFunc)) :
    ∃ s', ∀ v, overrideFunction E { s with origOldFunc := v } oldFunc newFunc true = some (false, s') := by
  obtain ⟨s', hfinish⟩ := trampolineFinish_fails newFunc hcalls
  refine ⟨s', fun v => ?_⟩
  have hhot : overrideFunctionWithHotPatch (E .hotPatch) { s with origOldFunc := v } oldFunc newFunc
      true = some (false, { s₁ with origOldFunc := v }) := by
    rw [hotPatch_eq, hotPatchStart_setOrig, hstart]
    rfl
  have htramp : overrideFunctionWithTrampoline (E .trampoline) { s₁ with origOldFunc := v } oldFunc newFunc
      true = some (false, s') := by
    rw [trampoline_eq, trampolineStart_setOrig, hstart']
    exact hfinish
  exact overrideFunction_false (redirectJump_other hjump) hhot htramp

/-! ## A second time -/

/-- A jump in the header is no padding. -/
theorem functionHasPadding_header {m : WordMem} (h : m (oldFunc - 6) = 0xFF) :
    functionHasPadding m oldFunc kBranchLength = false := by
  have hfirst : oldFunc - BitVec.ofNat 64 kBranchLength + BitVec.ofNat 64 0 = oldFunc - 6 :=
    add_zero (oldFunc - 6)
  have hthird : oldFunc - BitVec.ofNat 64 kHintNop8Bytes.length + BitVec.ofNat 64 2 = oldFunc - 6 := by
    rw [show BitVec.ofNat 64 kHintNop8Bytes.length = (8 : Word) from rfl,
      show (BitVec.ofNat 64 2 : Word) = 8 - 6 from rfl]
    ring
  rw [functionHasPadding, Bool.or_eq_false_iff]
  constructor
  · rw [isMemoryPadding, List.all_eq_false]
    refine ⟨0, by decide, ?_⟩
    rw [hfirst, h]
    decide
  · rw [Bool.and_eq_false_iff]
    refine .inr (beq_eq_false_iff_ne.mpr fun heq => ?_)
    have hbyte := congrArg (fun l : List Byte => l.getD 2 0) heq
    have hget : ((List.range kHintNop8Bytes.length).map fun i =>
        m (oldFunc - BitVec.ofNat 64 kHintNop8Bytes.length + BitVec.ofNat 64 i)).getD 2 0 =
          m (oldFunc - BitVec.ofNat 64 kHintNop8Bytes.length + BitVec.ofNat 64 2) := rfl
    rw [hget, hthird, h] at hbyte
    exact absurd hbyte (by decide)

/-- After a hot patch there is a jump in the header. -/
theorem hotPatch_header (h : Setting E I code s oldFunc)
    (hrun : overrideFunctionWithHotPatch (E .hotPatch) s oldFunc newFunc true = some (true, s')) :
    s'.mem (oldFunc - 6) = 0xFF := by
  obtain ⟨ok, s₁, hstart, hquiet, -⟩ := h.hotPatchStart
  rw [hotPatch_eq, hstart, Option.bind_some] at hrun
  cases ok with
  | false => exact nomatch (Prod.mk.inj (Option.some.inj hrun)).1
  | true =>
  change hotPatchFinish (E .hotPatch) s₁ oldFunc newFunc = some (true, s') at hrun
  unfold hotPatchFinish at hrun
  obtain ⟨c, s₂, halloc⟩ : ∃ c s₂,
      allocateMemoryForTrampoline (E .hotPatch) s₁ oldFunc kAddressLength = (c, s₂) := ⟨_, _, rfl⟩
  rw [halloc] at hrun
  dsimp only at hrun
  split_ifs at hrun with hzero
  · exact nomatch (Prod.mk.inj (Option.some.inj hrun)).1
  have htaken : Taken (E .hotPatch) code s₁ s₂ c 8 :=
    allocateMemory_spec (hquiet .hotPatch).trampolines (by decide) halloc hzero
  obtain ⟨m, hwrite, rfl⟩ := patch_spec hrun
  obtain ⟨m₁, hbranch, hshort⟩ := Option.bind_eq_some_iff.mp hwrite
  -- The header is code, and the cell is not.
  have hheader : ∀ x, InRange (oldFunc - 6) 6 x → code x := by
    intro x hx
    have hpadding : InRange (oldFunc - 8) 8 x := by
      refine InRange.sub (k := 2) (n := 6) ?_ (by norm_num) (by norm_num)
      rwa [show oldFunc - 8 + BitVec.ofNat 64 2 = oldFunc - 6 by
        rw [show (BitVec.ofNat 64 2 : Word) = 8 - 6 from rfl]; ring]
    exact h.function.first x (hpadding.mono (Nat.le_add_right _ _))
  have hopcode := (writeBranch_spec hbranch fun x hx hcell => htaken.not_code x hcell (hheader x hx)).1.fst
  rw [← hopcode]
  refine (writeShortJumpInstruction_spec hshort).2 _ fun hin => ?_
  rw [InRange, show oldFunc - 6 - oldFunc = -6 by ring] at hin
  exact absurd hin (by decide)

/-- After a trampoline the function begins with a jump. -/
theorem trampoline_isJump (h : Setting E I code s oldFunc)
    (hrun : overrideFunctionWithTrampoline (E .trampoline) s oldFunc newFunc true = some (true, s')) :
    IsJump s'.mem oldFunc := by
  have hcode := h.function.boundary s.mem fun _ _ => rfl
  obtain ⟨ok, s₁, hstart, hquiet, -⟩ :=
    trampolineStart_total (h.right .trampoline) (h.trampolines .trampoline) hcode
  rw [trampoline_eq, hstart, Option.bind_some] at hrun
  cases ok with
  | false => exact nomatch (Prod.mk.inj (Option.some.inj hrun)).1
  | true =>
  change trampolineFinish (E .trampoline) s₁ oldFunc newFunc _ = some (true, s') at hrun
  unfold trampolineFinish at hrun
  obtain ⟨cell, s₂, hcell⟩ : ∃ cell s₂, indirectCell (E .trampoline) s₁ oldFunc = (cell, s₂) := ⟨_, _, rfl⟩
  rw [hcell] at hrun
  cases cell with
  | none => exact nomatch (Prod.mk.inj (Option.some.inj hrun)).1
  | some cp =>
    obtain ⟨c, p⟩ := cp
    obtain ⟨-, hplace⟩ := indirectCell_spec hquiet.trampolines hcell
    obtain ⟨m, hwrite, rfl⟩ := patch_spec hrun
    -- The displaced instructions are as long as the jump.
    have hlen : 6 ≤ roundUpToInstrBoundary (E .trampoline) s.mem kBranchLength oldFunc ∧
        roundUpToInstrBoundary (E .trampoline) s.mem kBranchLength oldFunc < 21 := by
      have hbounds := roundUpToInstrBoundary_bounds (h.right .trampoline) s.mem oldFunc
      refine hbounds.resolve_left fun hzero => ?_
      rw [trampolineStart, if_pos hzero] at hstart
      exact nomatch (Prod.mk.inj (Option.some.inj hstart)).1
    have hdisj : ∀ x, InRange oldFunc 6 x → ¬ InRange c 8 x := by
      intro x hx hc
      rcases hplace with ⟨rfl, -⟩ | htaken
      · rw [← sub_add_cancel oldFunc 8] at hx
        exact InRange.not_start (k := 8) hx (by norm_num) hc
      · exact htaken.not_code x hc (hcode x (inRange_displaced hx hlen.1 (by omega)))
    have hbranch := (writeBranch_spec hwrite hdisj).1
    exact .inr (.inr ⟨hbranch.fst, hbranch.snd⟩)

/-! ## The result -/

/-- A failed `OverrideFunction` leaves nothing, if and only if no technique fails after it has stored
`*orig_old_func`, unless the next one succeeds. There is no second hot patch and no second trampoline. -/
theorem atomic_iff (h : Setting E I code s oldFunc) (newFunc : Word) :
    Atomic E code s oldFunc newFunc ↔ Safe E s oldFunc := by
  constructor
  · intro hatomic
    -- A run that stores and fails ends with one value, which cannot be all that there were before.
    have hnot : ¬ ∃ s', ∀ v, overrideFunction E { s with origOldFunc := v } oldFunc newFunc true =
        some (false, s') := by
      rintro ⟨s', hrun⟩
      have horig := (hatomic.unchanged _ s' (hrun (s'.origOldFunc + 1))).2
      exact absurd (left_eq_add.mp horig) (by decide)
    constructor
    case redirectJump =>
      intro hjump
      by_contra hcalls
      exact hnot (run_of_not_redirectJump h newFunc hjump hcalls)
    case hotPatch =>
      intro hjump s₁ hstart
      by_contra hcalls
      rw [not_or, not_and_or, not_not] at hcalls
      exact hnot (run_of_not_hotPatch h newFunc hjump hstart hcalls.1 hcalls.2)
    case trampoline =>
      intro hjump s₁ s₂ hstart hstart'
      by_contra hcalls
      exact hnot (run_of_not_trampoline newFunc hjump hstart hstart' hcalls)
  · intro hsafe
    constructor
    case unchanged =>
      intro v s' hrun
      have h' : Setting E I code { s with origOldFunc := v } oldFunc :=
        ⟨h.right, h.rejects, h.trampolines, h.function⟩
      exact (hsafe.setOrig v).unchanged h' hrun
    case hotPatchOnce =>
      intro s' hrun E' newFunc'
      have hpadding := functionHasPadding_header (hotPatch_header h hrun)
      unfold overrideFunctionWithHotPatch
      dsimp only
      rw [if_pos (.inr (by rw [hpadding]; rfl))]
    case trampolineOnce =>
      intro s' hrun E' newFunc' hrejects
      exact hrejects.trampoline (trampoline_isJump h hrun)

end

/-- A system with the decoder of the source that gives one region, at `0x20000`. -/
def windows : Env := { oneRegion with getInstructionSize := getInstructionSize }

/-- The same system, if it does not restore the protection of memory. -/
def noRestore : Env := { windows with restoreMemoryProtection := fun _ _ => false }

/-- The three functions can be patched in either system. -/
theorem setting_threeFunctions {E : Env} (hE : E = windows ∨ E = noRestore) {oldFunc : Word}
    (hlow : 0xFF08 ≤ oldFunc.toNat) (hhigh : oldFunc.toNat ≤ 0x13000) :
    Setting (fun _ => E) knownInstructions (InRange 0xFF00 0x4000) threeFunctions oldFunc := by
  have hdecoder : E.getInstructionSize = getInstructionSize := by rcases hE with rfl | rfl <;> rfl
  have hright := right_getInstructionSize hdecoder
  refine ⟨fun _ => hright, fun _ => rejectsJumps_getInstructionSize hdecoder, fun _ => ?_, ?_⟩
  · rcases hE with rfl | rfl <;>
      exact ⟨trampolines_oneRegion.granularity, nofun, nofun, .nil, trampolines_oneRegion.fresh⟩
  · constructor
    case jump => exact fun _ => covers_threeFunctions (by norm_num) hlow hhigh
    case first =>
      refine covers_threeFunctions ?_ hlow hhigh
      by_cases hzero : (E.getInstructionSize threeFunctions.mem oldFunc).1 = 0
      · omega
      · rw [hright _ _ hzero]
        exact (knownInstructions.length_le _).trans (by norm_num)
    case boundary =>
      intro m _
      refine covers_threeFunctions ?_ hlow hhigh
      have hbounds := roundUpToInstrBoundary_bounds hright m oldFunc
      omega

/-- A function that is hot patched. -/
theorem atomic_iff_threeFunctions :
    Atomic (fun _ => windows) (InRange 0xFF00 0x4000) threeFunctions 0x12000 0x30000 := by
  refine (atomic_iff (setting_threeFunctions (.inl rfl) (by decide) (by decide)) 0x30000).mpr ?_
  have hstart : (hotPatchStart windows threeFunctions 0x12000).map (fun r =>
      (r.1, decide ((allocateMemoryForTrampoline windows r.2 0x12000 kAddressLength).1 = 0))) =
        some (true, false) := by
    decide +kernel
  constructor
  case redirectJump => exact fun hjump => absurd hjump (by decide +kernel)
  case hotPatch =>
    intro _ s₁ hs₁
    rw [hs₁, Option.map_some, Option.some.injEq, Prod.mk.injEq, decide_eq_false_iff_not] at hstart
    exact .inl ⟨hstart.2, rfl, fun _ => rfl⟩
  case trampoline =>
    intro _ s₁ s₂ hs₁
    rw [hs₁, Option.map_some, Option.some.injEq, Prod.mk.injEq] at hstart
    exact absurd hstart.1 Bool.false_ne_true

/-- The protection of the memory cannot be restored after a hot patch: `false` is returned, and the function
begins with the short jump. -/
theorem overrideFunction_noRestore :
    ¬ Atomic (fun _ => noRestore) (InRange 0xFF00 0x4000) threeFunctions 0x12000 0x30000 := by
  intro hatomic
  have hrun : (overrideFunction (fun _ => noRestore) threeFunctions 0x12000 0x30000 true).map (fun r =>
      (r.1, r.2.mem 0x12000)) = some (false, 0xEB) := by
    decide +kernel
  obtain ⟨⟨ok, s'⟩, hrun, heq⟩ := Option.map_eq_some_iff.mp hrun
  obtain ⟨rfl, hbyte⟩ := Prod.mk.inj heq
  have hsame := (hatomic.unchanged 0 s' hrun).1 0x12000 (by decide)
  rw [hbyte] at hsame
  exact absurd hsame (by decide +kernel)

end Tasan.Interception
