import Tasan.Interception.Model

/-!
# The memory for trampolines

`AllocateMemoryForTrampoline` takes space from the first region that has room within the limits, or from a
new region. `Trampolines` says that the regions are disjoint from each other and from the code, now and
after every call of the system for a new one; then so is the space that is taken, and it is disjoint from
all that was taken before (`allocateMemory_spec`).
-/

namespace Tasan.Interception

/-- The bytes that have been taken from the regions. -/
def Allocated (regions : List TrampolineMemoryRegion) (x : Word) : Prop :=
  ∃ r ∈ regions, InRange r.content r.allocatedSize.toNat x

/-- Two regions have no byte in common. -/
def DisjointRegions (r r' : TrampolineMemoryRegion) : Prop :=
  ∀ x, InRange r.content r.maxSize.toNat x → ¬ InRange r'.content r'.maxSize.toNat x

/-- The regions are disjoint from each other and from the code, and new ones will be. -/
structure Trampolines (E : Env) (code : Word → Prop) (regions : List TrampolineMemoryRegion) :
    Prop where
  /-- A new region has room for a trampoline. -/
  granularity : 64 ≤ E.getMmapGranularity.toNat
  /-- What has been taken from a region is in it. -/
  allocated_le : ∀ r ∈ regions, r.allocatedSize.toNat ≤ r.maxSize.toNat
  /-- The regions hold no code. -/
  not_code : ∀ r ∈ regions, ∀ x, InRange r.content r.maxSize.toNat x → ¬ code x
  /-- The regions are disjoint. -/
  pairwise : regions.Pairwise DisjointRegions
  /-- The system gives memory that is free. -/
  fresh : ∀ rs minAddr maxAddr funcAddr content,
    E.allocateTrampolineRegion rs minAddr maxAddr funcAddr = content → content ≠ 0 →
    ∀ x, InRange content E.getMmapGranularity.toNat x →
      ¬ code x ∧ ∀ r ∈ rs, ¬ InRange r.content r.maxSize.toNat x

variable {E : Env} {code : Word → Prop}

theorem takeRoom_spec {minAddr maxAddr size a : Word} {rs rs' : List TrampolineMemoryRegion}
    (h : takeRoom minAddr maxAddr size rs = some (a, rs')) :
    ∃ before r after, rs = before ++ r :: after ∧ r.hasRoom minAddr maxAddr size = true ∧
      a = r.content + r.allocatedSize ∧
      rs' = before ++ { r with allocatedSize := r.allocatedSize + size } :: after := by
  induction rs generalizing rs' with
  | nil => exact nomatch h
  | cons r rs ih =>
    rw [takeRoom] at h
    split_ifs at h with hroom
    · obtain ⟨rfl, rfl⟩ := Prod.mk.inj (Option.some.inj h)
      exact ⟨[], r, rs, rfl, hroom, rfl, rfl⟩
    · obtain ⟨⟨b, rs₁⟩, htake, heq⟩ := Option.map_eq_some_iff.mp h
      obtain ⟨rfl, rfl⟩ := Prod.mk.inj heq
      obtain ⟨before, r', after, rfl, hroom', ha, rfl⟩ := ih htake
      exact ⟨r :: before, r', after, rfl, hroom', ha, rfl⟩

theorem TrampolineMemoryRegion.room {r : TrampolineMemoryRegion} {minAddr maxAddr size : Word}
    (hle : r.allocatedSize.toNat ≤ r.maxSize.toNat) (h : r.hasRoom minAddr maxAddr size = true) :
    r.allocatedSize.toNat + size.toNat < r.maxSize.toNat := by
  unfold TrampolineMemoryRegion.hasRoom at h
  simp only [Bool.and_eq_true, decide_eq_true_eq, BitVec.lt_def, BitVec.toNat_sub] at h
  have hmax := r.maxSize.isLt
  have hlt := h.1
  omega

/-- What a call of `AllocateMemoryForTrampoline` gives. -/
structure Taken (E : Env) (code : Word → Prop) (s s' : State) (a : Word) (size : ℕ) : Prop where
  /-- The regions are still disjoint. -/
  trampolines : Trampolines E code s'.regions
  /-- The space is counted as taken. -/
  allocated : ∀ x, Allocated s'.regions x ↔ Allocated s.regions x ∨ InRange a size x
  /-- It was not taken before. -/
  new : ∀ x, InRange a size x → ¬ Allocated s.regions x
  /-- It holds no code. -/
  not_code : ∀ x, InRange a size x → ¬ code x
  /-- Only the space has been written. -/
  frame : ∀ x, ¬ InRange a size x → s'.mem x = s.mem x

theorem allocated_append_cons (before after : List TrampolineMemoryRegion)
    (r : TrampolineMemoryRegion) (x : Word) :
    Allocated (before ++ r :: after) x ↔
      InRange r.content r.allocatedSize.toNat x ∨ Allocated before x ∨ Allocated after x := by
  unfold Allocated
  simp only [List.mem_append, List.mem_cons, or_and_right, exists_or, exists_eq_left]
  exact or_left_comm

/-- The regions after space has been taken from one of them. -/
theorem Trampolines.take {before after : List TrampolineMemoryRegion} {r : TrampolineMemoryRegion}
    (h : Trampolines E code (before ++ r :: after)) {allocatedSize : Word}
    (hle : allocatedSize.toNat ≤ r.maxSize.toNat) :
    Trampolines E code (before ++ { r with allocatedSize := allocatedSize } :: after) where
  granularity := h.granularity
  allocated_le q hq := by
    rw [List.mem_append, List.mem_cons] at hq
    rcases hq with hq | rfl | hq
    · exact h.allocated_le q (List.mem_append_left _ hq)
    · exact hle
    · exact h.allocated_le q (List.mem_append_right _ (List.mem_cons_of_mem r hq))
  not_code q hq := by
    rw [List.mem_append, List.mem_cons] at hq
    rcases hq with hq | rfl | hq
    · exact h.not_code q (List.mem_append_left _ hq)
    · exact h.not_code r (List.mem_append_right _ (List.mem_cons_self ..))
    · exact h.not_code q (List.mem_append_right _ (List.mem_cons_of_mem r hq))
  pairwise := by
    -- The bounds of the regions are as they were.
    have hp := h.pairwise
    rw [List.pairwise_append, List.pairwise_cons] at hp ⊢
    obtain ⟨hbefore, ⟨hr, hafter⟩, hcross⟩ := hp
    refine ⟨hbefore, ⟨hr, hafter⟩, fun p hp q hq => ?_⟩
    rcases List.mem_cons.mp hq with rfl | hq
    · exact hcross p hp r (List.mem_cons_self ..)
    · exact hcross p hp q (List.mem_cons_of_mem r hq)
  fresh := h.fresh

theorem Trampolines.not_allocated {before after : List TrampolineMemoryRegion}
    {r : TrampolineMemoryRegion} (h : Trampolines E code (before ++ r :: after)) {x : Word}
    (hx : InRange r.content r.maxSize.toNat x) : ¬ Allocated before x ∧ ¬ Allocated after x := by
  have hp := h.pairwise
  rw [List.pairwise_append, List.pairwise_cons] at hp
  obtain ⟨-, ⟨hr, -⟩, hcross⟩ := hp
  constructor
  · rintro ⟨q, hq, hqx⟩
    have hle := h.allocated_le q (List.mem_append_left _ hq)
    exact hcross q hq r (List.mem_cons_self ..) x (hqx.mono hle) hx
  · rintro ⟨q, hq, hqx⟩
    have hle := h.allocated_le q (List.mem_append_right _ (List.mem_cons_of_mem r hq))
    exact hr q hq x hx (hqx.mono hle)

/-- Space that is taken from a region with room. -/
theorem taken_of_room {s : State} (h : Trampolines E code s.regions) {before after}
    {r : TrampolineMemoryRegion} {size : ℕ} (hs : s.regions = before ++ r :: after)
    (hroom : r.allocatedSize.toNat + size < r.maxSize.toNat) :
    Taken E code s
      { s with
        regions := before ++
          { r with allocatedSize := r.allocatedSize + BitVec.ofNat 64 size } :: after
        mem := writePadding s.mem (r.content + r.allocatedSize) size }
      (r.content + r.allocatedSize) size := by
  have hmax := r.maxSize.isLt
  rw [hs] at h
  have hsum : (r.allocatedSize + BitVec.ofNat 64 size).toNat = r.allocatedSize.toNat + size := by
    rw [BitVec.toNat_add, BitVec.toNat_ofNat, Nat.mod_eq_of_lt (show size < 2^64 by omega),
      Nat.mod_eq_of_lt (by omega)]
  -- The space is in the region, behind what has been taken.
  have hspace : ∀ x, InRange (r.content + r.allocatedSize) size x →
      InRange r.content r.maxSize.toNat x ∧ ¬ InRange r.content r.allocatedSize.toNat x ∧
        InRange r.content (r.allocatedSize.toNat + size) x := by
    intro x hx
    have hofNat : r.allocatedSize = BitVec.ofNat 64 r.allocatedSize.toNat := by
      rw [BitVec.ofNat_toNat, BitVec.setWidth_eq]
    rw [hofNat] at hx
    exact ⟨hx.sub (by omega) (by omega), hx.not_start (by omega), hx.sub le_rfl (by omega)⟩
  refine
    { trampolines := h.take (by rw [hsum]; omega)
      allocated := fun x => ?_
      new := fun x hx => ?_
      not_code := fun x hx => ?_
      frame := fun x hx => WordMem.fill_of_not_inRange _ _ hx }
  · rw [hs, allocated_append_cons, allocated_append_cons]
    dsimp only
    rw [hsum]
    have hsplit : InRange r.content (r.allocatedSize.toNat + size) x ↔
        InRange r.content r.allocatedSize.toNat x ∨ InRange (r.content + r.allocatedSize) size x := by
      refine ⟨fun hx => ?_, fun hx => hx.elim (fun hx => hx.mono (by omega))
        fun hx => (hspace x hx).2.2⟩
      by_contra hnot
      rw [not_or] at hnot
      unfold InRange at hx hnot
      rw [← sub_sub, BitVec.toNat_sub (x - r.content)] at hnot
      have hlt := (x - r.content).isLt
      omega
    rw [hsplit]
    tauto
  · obtain ⟨hin, hnot, -⟩ := hspace x hx
    obtain ⟨hbefore, hafter⟩ := h.not_allocated hin
    rw [hs, allocated_append_cons]
    tauto
  · exact h.not_code r (List.mem_append_right _ (List.mem_cons_self ..)) x (hspace x hx).1

/-- Space that is taken from a new region. -/
theorem taken_of_new {s : State} (h : Trampolines E code s.regions) {content : Word} {size : ℕ}
    (hsize : size ≤ 64)
    (hfresh : ∀ x, InRange content E.getMmapGranularity.toNat x →
      ¬ code x ∧ ∀ r ∈ s.regions, ¬ InRange r.content r.maxSize.toNat x) :
    Taken E code s
      { s with
        regions := s.regions ++ [⟨content, BitVec.ofNat 64 size, E.getMmapGranularity⟩]
        mem := writePadding s.mem content size }
      content size := by
  have hgran := h.granularity
  have hsum : (BitVec.ofNat 64 size).toNat = size := by
    rw [BitVec.toNat_ofNat, Nat.mod_eq_of_lt (by omega)]
  refine
    { trampolines :=
        { granularity := hgran
          allocated_le := fun r hr => ?_
          not_code := fun r hr => ?_
          pairwise := ?_
          fresh := h.fresh }
      allocated := fun x => ?_
      new := fun x hx => ?_
      not_code := fun x hx => (hfresh x (hx.mono (by omega))).1
      frame := fun x hx => WordMem.fill_of_not_inRange _ _ hx }
  · rcases List.mem_append.mp hr with hr | hr
    · exact h.allocated_le r hr
    · rw [List.mem_singleton.mp hr]
      dsimp only
      omega
  · rcases List.mem_append.mp hr with hr | hr
    · exact h.not_code r hr
    · rw [List.mem_singleton.mp hr]
      exact fun x hx => (hfresh x hx).1
  · rw [List.pairwise_append]
    refine ⟨h.pairwise, List.pairwise_singleton _ _, fun p hp q hq x hx hx' => ?_⟩
    rw [List.mem_singleton.mp hq] at hx'
    exact (hfresh x hx').2 p hp hx
  · rw [allocated_append_cons]
    dsimp only
    rw [hsum]
    have hnil : ¬ Allocated [] x := fun ⟨_, hr, _⟩ => nomatch hr
    tauto
  · rintro ⟨r, hr, hrx⟩
    exact (hfresh x (hx.mono (by omega))).2 r hr (hrx.mono (h.allocated_le r hr))

theorem allocate_origOldFunc (s : State) (funcAddress : Word) (size : ℕ) :
    (allocateMemoryForTrampoline E s funcAddress size).2.origOldFunc = s.origOldFunc := by
  unfold allocateMemoryForTrampoline
  dsimp only
  split
  · rfl
  · split_ifs <;> rfl

/-- `AllocateMemoryForTrampoline` takes space that is free, or fails and changes nothing. -/
theorem allocateMemory_cases {s s' : State} (h : Trampolines E code s.regions) {funcAddress a : Word}
    {size : ℕ} (hsize : size ≤ 64)
    (hrun : allocateMemoryForTrampoline E s funcAddress size = (a, s')) :
    Taken E code s s' a size ∨ a = 0 ∧ s' = s := by
  unfold allocateMemoryForTrampoline at hrun
  dsimp only at hrun
  have hnat : (BitVec.ofNat 64 size).toNat = size := by
    rw [BitVec.toNat_ofNat, Nat.mod_eq_of_lt (by omega)]
  cases htake : takeRoom (trampolineLimits E funcAddress (BitVec.ofNat 64 size)).1
      (trampolineLimits E funcAddress (BitVec.ofNat 64 size)).2 (BitVec.ofNat 64 size)
      s.regions with
  | some p =>
    obtain ⟨b, rs⟩ := p
    rw [htake] at hrun
    obtain ⟨before, r, after, hs, hroom, rfl, rfl⟩ := takeRoom_spec htake
    obtain ⟨rfl, rfl⟩ := Prod.mk.inj hrun
    have hle := h.allocated_le r (by rw [hs]; exact List.mem_append_right _ (List.mem_cons_self ..))
    have hfit := TrampolineMemoryRegion.room hle hroom
    rw [hnat] at hfit
    exact .inl (taken_of_room h hs hfit)
  | none =>
    rw [htake] at hrun
    dsimp only at hrun
    split_ifs at hrun with hlen hzero
    · obtain ⟨rfl, rfl⟩ := Prod.mk.inj hrun
      exact .inr ⟨rfl, rfl⟩
    · obtain ⟨rfl, rfl⟩ := Prod.mk.inj hrun
      exact .inl (taken_of_new h hsize (h.fresh _ _ _ _ _ rfl hzero))
    · obtain ⟨rfl, rfl⟩ := Prod.mk.inj hrun
      exact .inr ⟨rfl, rfl⟩

theorem allocateMemory_spec {s s' : State} (h : Trampolines E code s.regions) {funcAddress a : Word}
    {size : ℕ} (hsize : size ≤ 64)
    (hrun : allocateMemoryForTrampoline E s funcAddress size = (a, s')) (ha : a ≠ 0) :
    Taken E code s s' a size :=
  (allocateMemory_cases h hsize hrun).resolve_right fun hfail => ha hfail.1

end Tasan.Interception
