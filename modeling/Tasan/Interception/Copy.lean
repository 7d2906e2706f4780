import Tasan.Interception.Jumps

/-!
# The copy of the displaced instructions

`InstructionSet` is what matters here of the instructions of the processor: how long they are, and where a
displacement relative to `rip` is in them. A range of memory is `Relocated` when it holds the instructions of
another range, byte for byte, but for the displacements, which denote the same addresses. That is what
`CopyInstructions` leaves, when `GetInstructionSize` is right.
-/

namespace Tasan.Interception

/-- The instructions of a processor, by the bytes from their start on. -/
structure InstructionSet where
  /-- The length of an instruction, and the offset of its displacement relative to `rip`; the length is
  zero where there is no instruction, and the offset where there is no displacement. -/
  decode : (ℕ → Byte) → ℕ × ℕ
  /-- No instruction is longer than 15 bytes. -/
  length_le : ∀ b, (decode b).1 ≤ 15
  /-- A displacement has 32 bits, which are in the instruction. -/
  displacement_le : ∀ b, (decode b).2 ≠ 0 → (decode b).2 + 4 ≤ (decode b).1
  /-- The bytes of an instruction determine it. -/
  congr : ∀ b b', (decode b).1 ≠ 0 → (∀ i < (decode b).1, b i = b' i) → decode b' = decode b

/-- The bytes from an address on. -/
def bytesAt (m : WordMem) (a : Word) (i : ℕ) : Byte := m (a + BitVec.ofNat 64 i)

/-- `GetInstructionSize` reports the size of an instruction and the offset of its displacement, unless
it fails. -/
def Right (E : Env) (I : InstructionSet) : Prop :=
  ∀ m a, (E.getInstructionSize m a).1 ≠ 0 → E.getInstructionSize m a = I.decode (bytesAt m a)

/-- The `n` bytes from `target` in `m'` hold the instructions of the `n` bytes from `source` in `m`. -/
inductive Relocated (I : InstructionSet) (m m' : WordMem) : (source target : Word) → ℕ → Prop
  /-- No instruction. -/
  | nil (source target : Word) : Relocated I m m' source target 0
  /-- An instruction before others. -/
  | cons {source target : Word} {s r n : ℕ} (hdecode : I.decode (bytesAt m source) = (s, r))
      (hpos : s ≠ 0)
      (hbytes : ∀ i < s, (r = 0 ∨ i < r ∨ r + 4 ≤ i) → bytesAt m' target i = bytesAt m source i)
      (hdisp : r ≠ 0 →
        target + BitVec.ofNat 64 s + loadS32 m' (target + BitVec.ofNat 64 r) =
          source + BitVec.ofNat 64 s + loadS32 m (source + BitVec.ofNat 64 r))
      (hrest : Relocated I m m' (source + BitVec.ofNat 64 s) (target + BitVec.ofNat 64 s) n) :
      Relocated I m m' source target (s + n)

variable {E : Env} {I : InstructionSet}

theorem bytesAt_add (m : WordMem) (a : Word) (k i : ℕ) :
    bytesAt m (a + BitVec.ofNat 64 k) i = bytesAt m a (k + i) := by
  unfold bytesAt
  rw [BitVec.ofNat_add, add_assoc]

theorem Relocated.congr {m m' m'' : WordMem} {source target : Word} {n : ℕ}
    (h : Relocated I m m' source target n)
    (hm : ∀ i < n, bytesAt m'' target i = bytesAt m' target i) :
    Relocated I m m'' source target n := by
  induction h with
  | nil source target => exact .nil source target
  | @cons source target s r n hdecode hpos hbytes hdisp hrest ih =>
    refine .cons hdecode hpos (fun i hi hr => ?_) (fun hr => ?_) (ih fun i hi => ?_)
    · rw [hm i (by omega)]
      exact hbytes i hi hr
    · have hle := I.displacement_le (bytesAt m source)
      rw [hdecode] at hle
      rw [← hdisp hr]
      congr 1
      refine loadS32_congr fun i hi => ?_
      have := hm (r + i) (by have := hle hr; dsimp only at this; omega)
      rwa [← bytesAt_add, ← bytesAt_add] at this
    · rw [bytesAt_add, bytesAt_add]
      exact hm (s + i) (by omega)

theorem copyLoop_past {target source : Word} {size fuel cursor : ℕ} {m m' : WordMem}
    (h : size < cursor) : copyLoop E target source size fuel m cursor ≠ some (true, m') := by
  induction fuel generalizing cursor m with
  | zero =>
    rw [copyLoop, if_neg (by omega)]
    exact nofun
  | succ fuel ih =>
    rw [copyLoop, if_neg (by omega)]
    dsimp only
    split_ifs
    · exact nofun
    · exact ih (by omega)
    · cases relocate _ target source _ with
      | none => exact nofun
      | some m => exact ih (by omega)

theorem relocate_spec {m m' : WordMem} {target source displacement : Word}
    (h : relocate m target source displacement = some m') :
    loadS32 m' displacement + target = loadS32 m displacement + source ∧
      ∀ x, ¬ InRange displacement 4 x → m' x = m x := by
  unfold relocate at h
  dsimp only at h
  split_ifs at h with hfit
  obtain rfl := Option.some.inj h
  rw [not_or, not_lt, not_lt] at hfit
  refine ⟨?_, fun x hx => WordMem.store_of_not_inRange _ _ hx⟩
  rw [loadS32_store _ _ _ hfit.1 (lt_of_le_of_lt hfit.2 (by norm_num))]
  ring

/-- One instruction copied, with its displacement relocated. -/
theorem copy_one_spec {m m₁ m₂ : WordMem} {target source t f : Word} {s r : ℕ}
    (hs : s ≤ 15) (hr : r ≠ 0 → r + 4 ≤ s)
    (hdisj : ∀ x, InRange f s x → ¬ InRange t s x) (hoffset : t - target = f - source)
    (h₁ : m₁ = m.copy t f s)
    (h₂ : if r = 0 then m₂ = m₁
      else relocate m₁ target source (t + BitVec.ofNat 64 r) = some m₂) :
    (∀ i < s, (r = 0 ∨ i < r ∨ r + 4 ≤ i) → bytesAt m₂ t i = bytesAt m f i) ∧
      (r ≠ 0 → t + BitVec.ofNat 64 s + loadS32 m₂ (t + BitVec.ofNat 64 r) =
        f + BitVec.ofNat 64 s + loadS32 m (f + BitVec.ofNat 64 r)) ∧
      ∀ x, ¬ InRange t s x → m₂ x = m x := by
  have hcopy : ∀ i < s, bytesAt m₁ t i = bytesAt m f i := fun i hi => by
    unfold bytesAt
    rw [h₁, WordMem.copy_eq m (by omega) hdisj, if_pos (inRange_add_ofNat t hi (by omega)),
      toNat_add_ofNat_sub t (by omega)]
  have hframe : ∀ x, ¬ InRange t s x → m₁ x = m x := fun x hx => by
    rw [h₁, WordMem.copy_eq m (by omega) hdisj, if_neg hx]
  rcases eq_or_ne r 0 with h0 | h0
  · rw [if_pos h0] at h₂
    subst h₂
    exact ⟨fun i hi _ => hcopy i hi, fun hne => absurd h0 hne, hframe⟩
  · rw [if_neg h0] at h₂
    obtain ⟨hdisp, hother⟩ := relocate_spec h₂
    have hle := hr h0
    refine ⟨fun i hi hout => ?_, fun _ => ?_, fun x hx => ?_⟩
    · rw [← hcopy i hi]
      refine hother _ fun hin => ?_
      -- The byte is before or behind the displacement.
      have hdist := toNat_sub_eq_add hin (by omega)
      rw [toNat_add_ofNat_sub t (by omega)] at hdist
      have hlt : _ < 4 := hin
      omega
    · have hload : loadS32 m₁ (t + BitVec.ofNat 64 r) = loadS32 m (f + BitVec.ofNat 64 r) :=
        loadS32_congr fun i hi => by
          have := hcopy (r + i) (by omega)
          rwa [← bytesAt_add, ← bytesAt_add] at this
      rw [hload] at hdisp
      have heq : loadS32 m₂ (t + BitVec.ofNat 64 r) =
          loadS32 m (f + BitVec.ofNat 64 r) + source - target := by
        rw [← hdisp]
        ring
      rw [heq, show t = f - source + target by rw [← hoffset]; ring]
      ring
    · rw [hother x fun hin => hx (hin.sub hle (by omega)), hframe x hx]

/-- A turn of a copy loop that returns `true`. -/
theorem copyLoop_succ {target source : Word} {size fuel cursor : ℕ} {m m' : WordMem}
    (h : copyLoop E target source size (fuel + 1) m cursor = some (true, m')) :
    cursor = size ∧ m' = m ∨
      ∃ s r m₂, E.getInstructionSize m (source + BitVec.ofNat 64 cursor) = (s, r) ∧ s ≠ 0 ∧
        (if r = 0 then
          m₂ = m.copy (target + BitVec.ofNat 64 cursor) (source + BitVec.ofNat 64 cursor) s
        else
          relocate (m.copy (target + BitVec.ofNat 64 cursor) (source + BitVec.ofNat 64 cursor) s)
            target source (target + BitVec.ofNat 64 cursor + BitVec.ofNat 64 r) = some m₂) ∧
        copyLoop E target source size fuel m₂ (cursor + s) = some (true, m') := by
  rw [copyLoop] at h
  split_ifs at h with hend
  · obtain ⟨-, rfl⟩ := Prod.mk.inj (Option.some.inj h)
    exact Or.inl ⟨hend, rfl⟩
  obtain ⟨s, r, hsr⟩ : ∃ s r,
      E.getInstructionSize m (source + BitVec.ofNat 64 cursor) = (s, r) := ⟨_, _, rfl⟩
  rw [hsr] at h
  dsimp only at h
  split_ifs at h with hzero hr
  · exact nomatch (Prod.mk.inj (Option.some.inj h)).1
  · exact Or.inr ⟨s, r, _, hsr, hzero, by rw [if_pos hr], h⟩
  · cases hrel : relocate (m.copy (target + BitVec.ofNat 64 cursor)
        (source + BitVec.ofNat 64 cursor) s) target source
        (target + BitVec.ofNat 64 cursor + BitVec.ofNat 64 r) with
    | none =>
      rw [hrel] at h
      exact nomatch (Prod.mk.inj (Option.some.inj h)).1
    | some m₂ =>
      rw [hrel] at h
      exact Or.inr ⟨s, r, m₂, hsr, hzero, by rw [if_neg hr, hrel], h⟩

/-- The copy loop from a cursor on. -/
theorem copyLoop_spec (hright : Right E I) {m₀ : WordMem} {target source : Word} {size : ℕ}
    (hsize : size ≤ 2^32) (hdisj : ∀ x, InRange source size x → ¬ InRange target size x)
    {fuel cursor : ℕ} {m m' : WordMem}
    (hrun : copyLoop E target source size fuel m cursor = some (true, m'))
    (hsource : ∀ i < size, bytesAt m source i = bytesAt m₀ source i) (hcursor : cursor ≤ size) :
    Relocated I m₀ m' (source + BitVec.ofNat 64 cursor) (target + BitVec.ofNat 64 cursor)
        (size - cursor) ∧
      ∀ x, ¬ InRange (target + BitVec.ofNat 64 cursor) (size - cursor) x → m' x = m x := by
  induction fuel generalizing cursor m with
  | zero =>
    rw [copyLoop] at hrun
    split_ifs at hrun with hend
    obtain ⟨-, rfl⟩ := Prod.mk.inj (Option.some.inj hrun)
    rw [hend, Nat.sub_self]
    exact ⟨.nil _ _, fun _ _ => rfl⟩
  | succ fuel ih =>
    rcases copyLoop_succ hrun with ⟨hend, rfl⟩ | ⟨s, r, m₂, hsr, hpos, hturn, hrest⟩
    · rw [hend, Nat.sub_self]
      exact ⟨.nil _ _, fun _ _ => rfl⟩
    have hfit : cursor + s ≤ size := by
      by_contra hlt
      exact copyLoop_past (not_le.mp hlt) hrest
    have hdecode : I.decode (bytesAt m₀ (source + BitVec.ofNat 64 cursor)) = (s, r) := by
      have hget := hright m (source + BitVec.ofNat 64 cursor)
      rw [hsr] at hget
      have hdec := (hget hpos).symm
      rw [← hdec]
      refine I.congr _ _ (by rw [hdec]; exact hpos) fun i hi => ?_
      rw [hdec] at hi
      rw [bytesAt_add, bytesAt_add]
      exact hsource _ (by dsimp only at hi; omega)
    have hs15 := I.length_le (bytesAt m₀ (source + BitVec.ofNat 64 cursor))
    have hdispLe := I.displacement_le (bytesAt m₀ (source + BitVec.ofNat 64 cursor))
    rw [hdecode] at hs15 hdispLe
    obtain ⟨hbytes, hdisp, hframe⟩ := copy_one_spec hs15 hdispLe
      (fun x hx hx' => hdisj x (hx.sub hfit (by omega)) (hx'.sub hfit (by omega))) (by ring) rfl hturn
    have hsource₂ : ∀ i < size, bytesAt m₂ source i = bytesAt m source i := fun i hi =>
      hframe _ fun hin => hdisj _ (inRange_add_ofNat source hi (by omega)) (hin.sub hfit (by omega))
    obtain ⟨hreloc, hframe'⟩ := ih hrest
      (fun i hi => (hsource₂ i hi).trans (hsource i hi)) hfit
    have hadd : ∀ a : Word, a + BitVec.ofNat 64 (cursor + s) =
        a + BitVec.ofNat 64 cursor + BitVec.ofNat 64 s := fun a => by
      rw [BitVec.ofNat_add, add_assoc]
    rw [hadd, hadd] at hreloc
    rw [hadd] at hframe'
    -- The rest of the loop leaves the instruction as it is.
    have hkeep : ∀ i < s, bytesAt m' (target + BitVec.ofNat 64 cursor) i =
        bytesAt m₂ (target + BitVec.ofNat 64 cursor) i := fun i hi =>
      hframe' _ fun hin => hin.not_start (by omega) (inRange_add_ofNat _ hi (by omega))
    have hlen : size - cursor = s + (size - (cursor + s)) := by omega
    rw [hlen]
    constructor
    · refine .cons hdecode hpos (fun i hi hout => ?_) (fun hr => ?_) hreloc
      · rw [hkeep i hi, hbytes i hi hout, bytesAt_add, bytesAt_add]
        exact hsource _ (by omega)
      · have hle := hdispLe hr
        have h1 : loadS32 m' (target + BitVec.ofNat 64 cursor + BitVec.ofNat 64 r) =
            loadS32 m₂ (target + BitVec.ofNat 64 cursor + BitVec.ofNat 64 r) :=
          loadS32_congr fun i hi => by
            have := hkeep (r + i) (by dsimp only at hle; omega)
            rwa [← bytesAt_add, ← bytesAt_add] at this
        have h2 : loadS32 m (source + BitVec.ofNat 64 cursor + BitVec.ofNat 64 r) =
            loadS32 m₀ (source + BitVec.ofNat 64 cursor + BitVec.ofNat 64 r) :=
          loadS32_congr fun i hi => by
            have := hsource (cursor + (r + i)) (by dsimp only at hle; omega)
            rwa [← bytesAt_add, ← bytesAt_add, ← bytesAt_add, ← bytesAt_add] at this
        rw [h1, ← h2]
        exact hdisp hr
    · intro x hx
      rw [hframe' x fun hin => hx (hin.sub le_rfl (by omega)),
        hframe x fun hin => hx (hin.mono (by omega))]

theorem copyInstructions_spec (hright : Right E I) {m₀ m m' : WordMem} {target source : Word}
    {size : ℕ} (hsize : size ≤ 2^32)
    (hdisj : ∀ x, InRange source size x → ¬ InRange target size x)
    (hsource : ∀ i < size, bytesAt m source i = bytesAt m₀ source i)
    (h : copyInstructions E m target source size = some (true, m')) :
    Relocated I m₀ m' source target size ∧ ∀ x, ¬ InRange target size x → m' x = m x := by
  have hspec := copyLoop_spec hright hsize hdisj h hsource (Nat.zero_le size)
  rwa [show source + BitVec.ofNat 64 0 = source from add_zero source,
    show target + BitVec.ofNat 64 0 = target from add_zero target, Nat.sub_zero] at hspec

theorem roundUpLoop_spec (hright : Right E I) (m : WordMem) (size : ℕ) (address : Word)
    {fuel cursor : ℕ} (hfuel : size ≤ cursor + fuel) (hcursor : cursor < size + 15) :
    roundUpLoop E m size address fuel cursor = 0 ∨
      size ≤ roundUpLoop E m size address fuel cursor ∧
        roundUpLoop E m size address fuel cursor < size + 15 := by
  induction fuel generalizing cursor with
  | zero =>
    rw [roundUpLoop]
    omega
  | succ fuel ih =>
    rw [roundUpLoop]
    dsimp only
    split_ifs with hlt hzero
    · exact Or.inl rfl
    · have hget := hright m (address + BitVec.ofNat 64 cursor) hzero
      have hle := I.length_le (bytesAt m (address + BitVec.ofNat 64 cursor))
      rw [← hget] at hle
      exact ih (by omega) (by omega)
    · exact Or.inr ⟨by omega, hcursor⟩

end Tasan.Interception
