import Tasan.MutexCheck.Init

/-!
# The invariant of a detector

The types that a detector holds have different sequence numbers, and the type with the smaller number comes
before the other in the transitive closure of `can_lock` (`Valid`). `Lock` compares the new type with the last
one only, which is enough: the others come before the last one. A type that is held already can only be the
last one, with the mark `MutexMulti`, since the relation has no cycle. `Unlock` takes a type out of the chain
wherever it is, which leaves a chain.
-/

namespace Tasan.MutexCheck

open Relation

variable (mutexMeta : MetaTable)

/-- The types that are checked: those of the table, but for `MutexInvalid`. An empty table checks nothing. -/
def IsChecked (t : ℕ) : Prop := 0 < t ∧ t < typeCount mutexMeta

/-- The invariant of a detector. -/
structure Valid (d : Detector) : Prop where
  /-- Only checked types are held. -/
  checked : ∀ t, (d.locked t).seq ≠ 0 → IsChecked mutexMeta t
  /-- The sequence numbers have been given out. -/
  le : ∀ t, (d.locked t).seq ≤ d.sequence
  /-- The sequence numbers are different. -/
  inj : ∀ t z, (d.locked t).seq ≠ 0 → (d.locked t).seq = (d.locked z).seq → t = z
  /-- A type is held when it is locked at least once. -/
  recursion : ∀ t, (d.locked t).seq = 0 ↔ (d.locked t).recursion = 0
  /-- The types form a chain. -/
  chain : ∀ t z, (d.locked t).seq ≠ 0 → (d.locked t).seq < (d.locked z).seq →
    TransGen (CanLock mutexMeta) t z
  /-- A type without the mark `MutexMulti` is locked once. -/
  once : ∀ t, ¬ IsMulti mutexMeta t → (d.locked t).recursion ≤ 1

variable {mutexMeta}

theorem valid_zero : Valid mutexMeta .zero where
  checked _ h := absurd rfl h
  le _ := le_rfl
  inj _ _ h := absurd rfl h
  recursion _ := Iff.rfl
  chain _ _ h := absurd rfl h
  once _ _ := Nat.zero_le 1

/-- What the loop over the types finds. -/
theorem findLast_spec {locked : ℕ → LockDesc} {is : List ℕ} {maxSeq maxIdx last lastIdx : ℕ}
    (h : findLast locked is (maxSeq, maxIdx) = .ok (last, lastIdx)) :
    maxSeq ≤ last ∧ (∀ i ∈ is, (locked i).seq ≤ last) ∧
      (last = maxSeq ∧ lastIdx = maxIdx ∨ (locked lastIdx).seq = last ∧ last ≠ 0) := by
  induction is generalizing maxSeq maxIdx with
  | nil =>
    obtain ⟨rfl, rfl⟩ := Prod.mk.inj (Except.ok.inj h)
    exact ⟨le_rfl, nofun, Or.inl ⟨rfl, rfl⟩⟩
  | cons i is ih =>
    rw [findLast] at h
    split_ifs at h with hzero heq hlt
    · obtain ⟨hle, hall, hlast⟩ := ih h
      refine ⟨hle, fun j hj => ?_, hlast⟩
      rcases List.mem_cons.mp hj with rfl | hj
      · omega
      · exact hall j hj
    · obtain ⟨hle, hall, hlast⟩ := ih h
      refine ⟨by omega, fun j hj => ?_, Or.inr ?_⟩
      · rcases List.mem_cons.mp hj with rfl | hj
        · exact hle
        · exact hall j hj
      · rcases hlast with ⟨rfl, rfl⟩ | hlast
        · exact ⟨rfl, hzero⟩
        · exact hlast
    · obtain ⟨hle, hall, hlast⟩ := ih h
      refine ⟨hle, fun j hj => ?_, hlast⟩
      rcases List.mem_cons.mp hj with rfl | hj
      · omega
      · exact hall j hj

theorem exists_of_checkLt {type : ℤ} {n : ℕ} (h : ¬ (!checkLt type n) = true) :
    ∃ t : ℕ, type = t ∧ t < n := by
  simp only [checkLt, Bool.not_eq_true, Bool.not_eq_false', Bool.and_eq_true,
    decide_eq_true_eq] at h
  exact ⟨type.toNat, by omega, by omega⟩

/-- The detector with another description of one type. -/
def Detector.setLocked (d : Detector) (t : ℕ) (desc : LockDesc) : Detector :=
  { d with locked := Function.update d.locked t desc }

@[simp] theorem Detector.setLocked_self (d : Detector) (t : ℕ) (desc : LockDesc) :
    (d.setLocked t desc).locked t = desc := Function.update_self _ _ _

theorem Detector.setLocked_of_ne (d : Detector) {t i : ℕ} (desc : LockDesc) (h : i ≠ t) :
    (d.setLocked t desc).locked i = d.locked i := Function.update_of_ne h _ _

section Operations

variable {T : Tables} {d d' : Detector} {type : ℤ} {pc : ℕ}

theorem lockChecked_cases (h : lockChecked T d type pc = .ok d') :
    ∃ t last lastIdx : ℕ, type = t ∧ t < T.count ∧
      findLast d.locked (List.range T.count) (0, 0) = .ok (last, lastIdx) ∧
      ((lastIdx = t ∧ T.multi t = true ∧ d' = d.setLocked t
          { d.locked t with recursion := (d.locked t).recursion + 1 }) ∨
        (¬ (lastIdx = t ∧ T.multi t = true) ∧ (lastIdx = 0 ∨ T.canLock lastIdx t = true) ∧
          d' = { d with sequence := d.sequence + 1 }.setLocked t ⟨d.sequence + 1, pc, 1⟩)) := by
  rw [lockChecked] at h
  split_ifs at h with hlt
  obtain ⟨t, rfl, hcount⟩ := exists_of_checkLt hlt
  obtain ⟨⟨last, lastIdx⟩, hfind, h⟩ := bind_eq_ok.mp h
  simp only [Int.toNat_natCast] at h
  refine ⟨t, last, lastIdx, rfl, hcount, hfind, ?_⟩
  split_ifs at h with hrec hseq hpc hcan
  · exact Or.inl ⟨hrec.1, hrec.2, (Except.ok.inj h).symm⟩
  · refine Or.inr ⟨hrec, ?_, (Except.ok.inj h).symm⟩
    rcases eq_or_ne lastIdx 0 with h0 | h0
    · exact Or.inl h0
    · exact Or.inr (not_not.mp fun hnot => hcan ⟨h0, hnot⟩)

theorem unlockChecked_cases (h : unlockChecked T d type = .ok d') :
    ∃ t : ℕ, type = t ∧ t < T.count ∧ (d.locked t).seq ≠ 0 ∧
      (((d.locked t).recursion > 1 ∧ d' = d.setLocked t
          { d.locked t with recursion := (d.locked t).recursion - 1 }) ∨
        ((d.locked t).recursion = 1 ∧ d' = d.setLocked t ⟨0, 0, 0⟩)) := by
  rw [unlockChecked] at h
  split_ifs at h with hlt
  obtain ⟨t, rfl, hcount⟩ := exists_of_checkLt hlt
  simp only [Int.toNat_natCast] at h
  split_ifs at h with hseq hrec hone
  · exact ⟨t, rfl, hcount, hseq, Or.inl ⟨by omega, (Except.ok.inj h).symm⟩⟩
  · exact ⟨t, rfl, hcount, hseq, Or.inr ⟨by omega, (Except.ok.inj h).symm⟩⟩

/-- The recursion count of a type that is held already goes up or down, but not to zero. -/
theorem Valid.setRecursion (hd : Valid mutexMeta d) {t n : ℕ} (hseq : (d.locked t).seq ≠ 0) (hn : n ≠ 0)
    (honce : ¬ IsMulti mutexMeta t → n ≤ 1) :
    Valid mutexMeta (d.setLocked t { d.locked t with recursion := n }) := by
  have hsame : ∀ i, ((d.setLocked t { d.locked t with recursion := n }).locked i).seq =
      (d.locked i).seq := by
    intro i
    rcases eq_or_ne i t with rfl | hi
    · rw [Detector.setLocked_self]
    · rw [Detector.setLocked_of_ne d _ hi]
  constructor
  · intro i
    rw [hsame]
    exact hd.checked i
  · intro i
    rw [hsame]
    exact hd.le i
  · intro i j
    rw [hsame, hsame]
    exact hd.inj i j
  · intro i
    rw [hsame]
    rcases eq_or_ne i t with rfl | hi
    · rw [Detector.setLocked_self]
      exact iff_of_false hseq hn
    · rw [Detector.setLocked_of_ne d _ hi]
      exact hd.recursion i
  · intro i j
    rw [hsame, hsame]
    exact hd.chain i j
  · intro i hi
    rcases eq_or_ne i t with rfl | hit
    · rw [Detector.setLocked_self]
      exact honce hi
    · rw [Detector.setLocked_of_ne d _ hit]
      exact hd.once i hi

/-- A type is added behind all that are held. -/
theorem Valid.push (hd : Valid mutexMeta d) {t : ℕ} (ht : IsChecked mutexMeta t)
    (hlast : ∀ i, (d.locked i).seq ≠ 0 → TransGen (CanLock mutexMeta) i t) :
    Valid mutexMeta ({ d with sequence := d.sequence + 1 }.setLocked t ⟨d.sequence + 1, pc, 1⟩) := by
  have hself := Detector.setLocked_self { d with sequence := d.sequence + 1 } t ⟨d.sequence + 1, pc, 1⟩
  have hother : ∀ i, i ≠ t → ({ d with sequence := d.sequence + 1 }.setLocked t
      ⟨d.sequence + 1, pc, 1⟩).locked i = d.locked i := fun i hi =>
    Detector.setLocked_of_ne { d with sequence := d.sequence + 1 } _ hi
  constructor
  · intro i hi
    rcases eq_or_ne i t with rfl | hit
    · exact ht
    · rw [hother i hit] at hi
      exact hd.checked i hi
  · intro i
    rcases eq_or_ne i t with rfl | hit
    · rw [hself]
      exact le_rfl
    · rw [hother i hit]
      exact (hd.le i).trans (Nat.le_succ _)
  · intro i j hi hij
    rcases eq_or_ne t i with rfl | hit <;> rcases eq_or_ne t j with rfl | hjt
    · rfl
    · rw [hself, hother j hjt.symm] at hij
      have := hd.le j
      dsimp only at hij
      omega
    · rw [hself, hother i hit.symm] at hij
      have := hd.le i
      dsimp only at hij
      omega
    · rw [hother i hit.symm, hother j hjt.symm] at hij
      rw [hother i hit.symm] at hi
      exact hd.inj i j hi hij
  · intro i
    rcases eq_or_ne i t with rfl | hit
    · rw [hself]
      exact iff_of_false (Nat.succ_ne_zero _) one_ne_zero
    · rw [hother i hit]
      exact hd.recursion i
  · intro i j hi hij
    rcases eq_or_ne t i with rfl | hit <;> rcases eq_or_ne t j with rfl | hjt
    · exact absurd hij (lt_irrefl _)
    · -- The new type is behind all others.
      rw [hself, hother j hjt.symm] at hij
      have := hd.le j
      dsimp only at hij
      omega
    · rw [hother i hit.symm] at hi
      exact hlast i hi
    · rw [hother i hit.symm] at hi
      rw [hother i hit.symm, hother j hjt.symm] at hij
      exact hd.chain i j hi hij
  · intro i hi
    rcases eq_or_ne i t with rfl | hit
    · rw [hself]
    · rw [hother i hit]
      exact hd.once i hi

/-- A type is taken out of the chain. -/
theorem Valid.remove (hd : Valid mutexMeta d) (t : ℕ) :
    Valid mutexMeta (d.setLocked t ⟨0, 0, 0⟩) := by
  have hother : ∀ i, ((d.setLocked t ⟨0, 0, 0⟩).locked i).seq ≠ 0 →
      i ≠ t ∧ (d.setLocked t ⟨0, 0, 0⟩).locked i = d.locked i := by
    intro i hi
    have hit : i ≠ t := by
      rintro rfl
      exact hi (by rw [Detector.setLocked_self])
    exact ⟨hit, Detector.setLocked_of_ne d _ hit⟩
  constructor
  · intro i hi
    exact hd.checked i ((hother i hi).2 ▸ hi)
  · intro i
    rcases eq_or_ne ((d.setLocked t ⟨0, 0, 0⟩).locked i).seq 0 with h0 | h0
    · rw [h0]
      exact Nat.zero_le _
    · rw [(hother i h0).2]
      exact hd.le i
  · intro i j hi hij
    have hi' := (hother i hi).2
    have hj' := (hother j (hij ▸ hi)).2
    rw [hi', hj'] at hij
    exact hd.inj i j (hi' ▸ hi) hij
  · intro i
    rcases eq_or_ne i t with rfl | hit
    · rw [Detector.setLocked_self]
    · rw [Detector.setLocked_of_ne d _ hit]
      exact hd.recursion i
  · intro i j hi hij
    have hi' := (hother i hi).2
    have hj' := (hother j (by omega)).2
    rw [hi', hj'] at hij
    exact hd.chain i j (hi' ▸ hi) hij
  · intro i hi
    rcases eq_or_ne i t with rfl | hit
    · rw [Detector.setLocked_self]
      exact Nat.zero_le 1
    · rw [Detector.setLocked_of_ne d _ hit]
      exact hd.once i hi

/-- `Lock` of a checked type: the detector stays valid, the type is locked once more, and it is the last one
afterwards. -/
theorem lockChecked_spec (hT : Accepted mutexMeta T) (hd : Valid mutexMeta d) (htype : type ≠ mutexInvalid)
    (h : lockChecked T d type pc = .ok d') : Valid mutexMeta d' ∧ d'.initialized = d.initialized ∧
      (∀ z : ℕ, (d'.locked z).recursion = (d.locked z).recursion + if type = z then 1 else 0) ∧
      ∀ z : ℕ, type = z → ∀ i, (d'.locked i).seq ≤ (d'.locked z).seq := by
  obtain ⟨t, last, lastIdx, rfl, hcount, hfind, h⟩ := lockChecked_cases h
  have hpos : t ≠ 0 := fun h0 => htype (by rw [h0]; rfl)
  have ht : IsChecked mutexMeta t := ⟨by omega, hT.count ▸ hcount⟩
  obtain ⟨-, hall, hlast⟩ := findLast_spec hfind
  -- The loop sees all types that are held.
  have hmax : ∀ i, (d.locked i).seq ≤ last := by
    intro i
    rcases eq_or_ne (d.locked i).seq 0 with h0 | h0
    · omega
    · exact hall i (List.mem_range.mpr (hT.count ▸ (hd.checked i h0).2))
  simp only [Nat.cast_inj]
  rcases h with ⟨rfl, hmulti, rfl⟩ | ⟨hnot, hcan, rfl⟩
  · -- The recursive lock of a type with the mark `MutexMulti`.
    obtain ⟨hseq, hne⟩ := hlast.resolve_left fun h => hpos h.2
    have hheld : (d.locked lastIdx).seq ≠ 0 := hseq ▸ hne
    have hism : IsMulti mutexMeta lastIdx := (hT.multi lastIdx hcount).mp hmulti
    refine ⟨hd.setRecursion hheld (Nat.succ_ne_zero _) fun h => absurd hism h, rfl, fun z => ?_, ?_⟩
    · rcases eq_or_ne lastIdx z with rfl | hz
      · rw [Detector.setLocked_self, if_pos rfl]
      · rw [Detector.setLocked_of_ne d _ hz.symm, if_neg hz, Nat.add_zero]
    · rintro z rfl i
      rw [Detector.setLocked_self]
      rcases eq_or_ne lastIdx i with rfl | hi
      · rw [Detector.setLocked_self]
      · rw [Detector.setLocked_of_ne d _ hi.symm]
        exact hseq ▸ hmax i
  · -- All types that are held come before the last one, and so before the new one.
    have hbefore : ∀ i, (d.locked i).seq ≠ 0 → TransGen (CanLock mutexMeta) i t := by
      intro i hi
      have hne : last ≠ 0 := by
        have := hmax i
        omega
      obtain ⟨hseq, -⟩ : (d.locked lastIdx).seq = last ∧ last ≠ 0 :=
        hlast.resolve_left fun h => hne h.1
      have hheld : (d.locked lastIdx).seq ≠ 0 := hseq ▸ hne
      have hchecked := hd.checked lastIdx hheld
      have hedge : CanLock mutexMeta lastIdx t :=
        (hT.canLock lastIdx t (hT.count ▸ hchecked.2) hcount).mp
          (hcan.resolve_left (Nat.pos_iff_ne_zero.mp hchecked.1))
      rcases eq_or_ne (d.locked i).seq last with heq | hlt
      · obtain rfl := hd.inj i lastIdx hi (heq.trans hseq.symm)
        exact TransGen.single hedge
      · refine (hd.chain i lastIdx hi ?_).tail hedge
        have := hmax i
        omega
    -- The new type is not held, since it would come before itself.
    have hfree : (d.locked t).seq = 0 := by
      by_contra hne
      exact hT.acyclic t (hbefore t hne)
    refine ⟨hd.push ht hbefore, rfl, fun z => ?_, ?_⟩
    · rcases eq_or_ne t z with rfl | hz
      · rw [Detector.setLocked_self, if_pos rfl, (hd.recursion t).mp hfree]
      · rw [Detector.setLocked_of_ne _ _ hz.symm, if_neg hz, Nat.add_zero]
        rfl
    · rintro z rfl i
      rw [Detector.setLocked_self]
      rcases eq_or_ne t i with rfl | hi
      · rw [Detector.setLocked_self]
      · rw [Detector.setLocked_of_ne _ _ hi.symm]
        exact (hd.le i).trans (Nat.le_succ _)

theorem unlockChecked_spec (hd : Valid mutexMeta d) (h : unlockChecked T d type = .ok d') :
    Valid mutexMeta d' ∧ d'.initialized = d.initialized ∧
      ∀ z : ℕ, (d.locked z).recursion = (d'.locked z).recursion + if type = z then 1 else 0 := by
  obtain ⟨t, rfl, -, hseq, h⟩ := unlockChecked_cases h
  simp only [Nat.cast_inj]
  rcases h with ⟨hrec, rfl⟩ | ⟨hrec, rfl⟩
  · have honce : ¬ IsMulti mutexMeta t → (d.locked t).recursion - 1 ≤ 1 := fun hm => by
      have := hd.once t hm
      omega
    refine ⟨hd.setRecursion hseq (by omega) honce, rfl, fun z => ?_⟩
    rcases eq_or_ne t z with rfl | hz
    · rw [Detector.setLocked_self, if_pos rfl]
      exact (Nat.sub_add_cancel (by omega)).symm
    · rw [Detector.setLocked_of_ne d _ hz.symm, if_neg hz, Nat.add_zero]
  · refine ⟨hd.remove t, rfl, fun z => ?_⟩
    rcases eq_or_ne t z with rfl | hz
    · rw [Detector.setLocked_self, if_pos rfl, hrec]
    · rw [Detector.setLocked_of_ne d _ hz.symm, if_neg hz, Nat.add_zero]

end Operations

/-! ## Chains and cycles -/

/-- The types that a detector holds, by increasing sequence number. -/
def heldTypes (d : Detector) : List ℕ :=
  ((List.range kMutexTypeMax).filter fun t => (d.locked t).seq ≠ 0).insertionSort
    fun t z => (d.locked t).seq ≤ (d.locked z).seq

theorem typeCount_lt (mutexMeta : MetaTable) : typeCount mutexMeta < kMutexTypeMax := by
  have hle := (List.takeWhile_sublist (l := List.range (kMutexTypeMax - 1))
    (isNamed mutexMeta)).length_le
  rw [List.length_range] at hle
  exact Nat.lt_of_le_pred (by decide) hle

theorem mem_heldTypes {d : Detector} (hd : Valid mutexMeta d) {t : ℕ} :
    t ∈ heldTypes d ↔ (d.locked t).seq ≠ 0 := by
  unfold heldTypes
  rw [List.mem_insertionSort, List.mem_filter, List.mem_range, decide_eq_true_eq]
  refine and_iff_right_of_imp fun h => ?_
  exact (hd.checked t h).2.trans (typeCount_lt mutexMeta)

theorem isChain_heldTypes {d : Detector} (hd : Valid mutexMeta d) :
    (heldTypes d).IsChain (TransGen (CanLock mutexMeta)) := by
  have htotal : Std.Total fun t z => (d.locked t).seq ≤ (d.locked z).seq :=
    ⟨fun t z => le_total _ _⟩
  have htrans : IsTrans ℕ fun t z => (d.locked t).seq ≤ (d.locked z).seq :=
    ⟨fun _ _ _ => le_trans⟩
  have hsorted := List.pairwise_insertionSort (fun t z => (d.locked t).seq ≤ (d.locked z).seq)
    ((List.range kMutexTypeMax).filter fun t => (d.locked t).seq ≠ 0)
  have hnodup : (heldTypes d).Nodup :=
    (List.perm_insertionSort _ _).nodup_iff.mpr (List.nodup_range.filter _)
  refine List.Pairwise.isChain ((hsorted.and hnodup).imp_of_mem ?_)
  rintro t z ht - ⟨hle, hne⟩
  have hheld := (mem_heldTypes hd).mp ht
  exact hd.chain t z hheld (lt_of_le_of_ne hle fun heq => hne (hd.inj t z hheld heq))

/-- Types that come before each other all the way round are one type with the mark `MutexMulti`. -/
theorem multi_of_cycle (hacyclic : ∀ t, ¬ TransGen (CanLock mutexMeta) t t) {n : ℕ} (hn : 0 < n)
    {z : ℕ → ℕ} (hround : z n = z 0) (hnext : ∀ i < n,
      TransGen (CanLock mutexMeta) (z i) (z (i + 1)) ∨ z i = z (i + 1) ∧ IsMulti mutexMeta (z (i + 1))) :
    IsMulti mutexMeta (z 0) ∧ ∀ i < n, z i = z 0 := by
  -- From the start to any place there is a path, or the type has been the same all the time.
  have hpath : ∀ i ≤ n, TransGen (CanLock mutexMeta) (z 0) (z i) ∨ ∀ j ≤ i, z j = z 0 := by
    intro i
    induction i with
    | zero => exact fun _ => Or.inr fun j hj => by rw [Nat.le_zero.mp hj]
    | succ i ih =>
      intro hi
      rcases ih (by omega) with hpath | hsame <;> rcases hnext i hi with hstep | ⟨heq, -⟩
      · exact Or.inl (hpath.trans hstep)
      · exact Or.inl (heq ▸ hpath)
      · exact Or.inl (hsame i le_rfl ▸ hstep)
      · refine Or.inr fun j hj => ?_
        rcases Nat.of_le_succ hj with hj | rfl
        · exact hsame j hj
        · rw [← heq, hsame i le_rfl]
  have hsame := (hpath n le_rfl).resolve_left (hround ▸ hacyclic (z 0))
  refine ⟨?_, fun i hi => hsame i hi.le⟩
  rcases hnext 0 hn with hstep | ⟨-, hmulti⟩
  · rw [hsame 1 hn] at hstep
    exact absurd hstep (hacyclic _)
  · rwa [hsame 1 hn] at hmulti

end Tasan.MutexCheck
