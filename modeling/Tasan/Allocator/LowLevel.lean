import Tasan.Word

/-!
# The low-level allocator

`LowLevelAllocator` cuts its blocks off the front of an area that it has mapped, and rounds their sizes up to
the minimum alignment. `SetLowLevelAllocateMinAlignment` raises that, but it leaves `allocated_current_` where
it is. So the blocks lie in mapped areas and apart from each other in every run, and they are aligned in a run
that raises the minimum alignment only while `allocated_current_` is a multiple of the new one
(`reachable_spec`).
-/

namespace Tasan.LowLevel

def kLowLevelAllocatorDefaultAlignment : ℕ := 8

def kMinNumPagesRounded : ℕ := 16

def kMinRoundedSize : ℕ := 65536

/-- The page size: sixteen pages are representable. -/
structure Platform where
  /-- The logarithm of the page size. -/
  pageLog : ℕ
  /-- The bounds. -/
  pageLog_mem : 3 ≤ pageLog ∧ pageLog < 60

/-- `GetPageSizeCached()`. -/
def Platform.page (P : Platform) : ℕ := 2^P.pageLog

/-- Some bytes. -/
structure Range where
  /-- The address. -/
  beg : ℕ
  /-- The number of bytes. -/
  size : ℕ

/-- A byte of them. -/
def Range.Holds (r : Range) (x : ℕ) : Prop := r.beg ≤ x ∧ x < r.beg + r.size

/-- A block, with the minimum alignment when it was allocated. -/
structure Block extends Range where
  /-- The minimum alignment. -/
  alignment : ℕ

/-- The allocator, what it has mapped and what it has returned. -/
structure State where
  allocatedEnd : ℕ := 0
  allocatedCurrent : ℕ := 0
  /-- `low_level_alloc_min_alignment`. -/
  minAlignment : ℕ := kLowLevelAllocatorDefaultAlignment
  /-- The areas that were mapped. -/
  areas : List Range := []
  /-- The blocks that were returned. -/
  blocks : List Block := []

/-- A call. -/
inductive Op
  /-- `Allocate`, and the address that `mmap` returns if it is asked. -/
  | allocate (size mmap : ℕ)
  /-- `SetLowLevelAllocateMinAlignment`. -/
  | setMinAlignment (alignment : ℕ)

/-- The conversion to `sptr`. -/
def sptr (x : ℕ) : ℤ := if x < 2^63 then x else x - 2^64

/-- `size_to_allocate`. -/
def sizeToAllocate (P : Platform) (size : ℕ) : ℕ :=
  Word.roundUpTo 64 size (min (P.page * kMinNumPagesRounded % 2^64) kMinRoundedSize)

/-- What `MmapOrDie` maps for a block: whole pages. -/
def mapping (P : Platform) (size mmap : ℕ) : Range :=
  ⟨mmap, Word.roundUpTo 64 (sizeToAllocate P size) P.page⟩

namespace State

variable (P : Platform) (s : State)

/-- The aligned size of a block. -/
def aligned (size : ℕ) : ℕ := Word.roundUpTo 64 size s.minAlignment

/-- The block is too large for the area. -/
def Full (size : ℕ) : Prop := (s.allocatedEnd : ℤ) - s.allocatedCurrent < sptr size

instance (size : ℕ) : Decidable (s.Full size) := inferInstanceAs (Decidable (_ < _))

/-- A new area, at the beginning of a new mapping. -/
def refill (areaSize : ℕ) (area : Range) : State where
  allocatedEnd := area.beg + areaSize
  allocatedCurrent := area.beg
  minAlignment := s.minAlignment
  areas := area :: s.areas
  blocks := s.blocks

/-- The block at `allocated_current_`, which is then behind its aligned size. -/
def cut (size alignedSize : ℕ) : State :=
  { s with
    allocatedCurrent := s.allocatedCurrent + alignedSize
    blocks := ⟨⟨s.allocatedCurrent, size⟩, s.minAlignment⟩ :: s.blocks }

/-- Another minimum alignment, unless it is lower. -/
def raise (alignment : ℕ) : State := { s with minAlignment := max alignment s.minAlignment }

/-- A call. It fails when a `CHECK` does. -/
def step : Op → Option State
  | .allocate size mmap =>
    let alignedSize := s.aligned size
    let s :=
      if s.Full alignedSize then s.refill (sizeToAllocate P alignedSize) (mapping P alignedSize mmap) else s
    if s.Full alignedSize then none else some (s.cut size alignedSize)
  | .setMinAlignment alignment =>
    if Word.isPowerOfTwo 64 alignment then some (s.raise alignment) else none

/-- The calls: sizes are below `2^62`, `mmap` returns a page from which on nothing is mapped, and alignments
are powers of two up to the page size. -/
def Allows : Op → Prop
  | .allocate size mmap => size < 2^62 ∧ (s.Full (s.aligned size) → P.page ∣ mmap ∧
      ∀ r ∈ s.areas, ∀ x, r.Holds x → ¬(mapping P (s.aligned size) mmap).Holds x)
  | .setMinAlignment alignment => ∃ k ≤ P.pageLog, alignment = 2^k

/-- A call does not raise the minimum alignment, unless `allocated_current_` is a multiple of it. -/
def Steady : Op → Prop
  | .allocate _ _ => True
  | .setMinAlignment alignment => alignment ≤ s.minAlignment ∨ alignment ∣ s.allocatedCurrent

/-- The states that calls lead to. -/
inductive Reachable (ok : State → Op → Prop) : State → Prop
  | init : Reachable ok {}
  | step {s s' op} (h : Reachable ok s) (hop : ok s op) (hstep : s.step P op = some s') : Reachable ok s'

end State

open State

/-- What holds in every state: what is left of the area is mapped, and no block has a byte of it. -/
structure Inv (P : Platform) (s : State) : Prop where
  min : ∃ k ≤ P.pageLog, s.minAlignment = 2^k
  le : s.allocatedCurrent ≤ s.allocatedEnd
  rest : ∀ x, s.allocatedCurrent ≤ x → x < s.allocatedEnd → ∃ r ∈ s.areas, r.Holds x
  inside : ∀ b ∈ s.blocks, ∀ x, b.Holds x → ∃ r ∈ s.areas, r.Holds x
  apart : ∀ b ∈ s.blocks, ∀ x, b.Holds x → ¬(s.allocatedCurrent ≤ x ∧ x < s.allocatedEnd)
  disjoint : s.blocks.Pairwise fun b c => ∀ x, ¬(b.Holds x ∧ c.Holds x)

variable {P : Platform} {s s' : State} {size mmap n : ℕ}

theorem inv_init : Inv P {} where
  min := ⟨3, P.pageLog_mem.1, rfl⟩
  le := le_rfl
  rest _ _ hx := absurd hx (Nat.not_lt_zero _)
  inside _ hb := absurd hb List.not_mem_nil
  apart _ hb := absurd hb List.not_mem_nil
  disjoint := List.Pairwise.nil

/-- The area is large enough for the block, and in the mapping. -/
theorem sizeToAllocate_spec (P : Platform) (mmap : ℕ) (hn : n < 2^63) :
    n ≤ sizeToAllocate P n ∧ sizeToAllocate P n ≤ (mapping P n mmap).size := by
  obtain ⟨-, hlog⟩ := P.pageLog_mem
  have hboundary : min (P.page * kMinNumPagesRounded % 2^64) kMinRoundedSize = 2^min (P.pageLog + 4) 16 := by
    have hpages : P.page * kMinNumPagesRounded = 2^(P.pageLog + 4) := (Nat.pow_add 2 P.pageLog 4).symm
    have hlt : 2^(P.pageLog + 4) < 2^64 := Nat.pow_lt_pow_right (by norm_num) (by omega)
    have hsmall : kMinRoundedSize = 2^16 := by decide
    rw [hpages, Nat.mod_eq_of_lt hlt, hsmall]
    rcases le_total (P.pageLog + 4) 16 with h | h
    · rw [min_eq_left h, min_eq_left (Nat.pow_le_pow_right (by norm_num) h)]
    · rw [min_eq_right h, min_eq_right (Nat.pow_le_pow_right (by norm_num) h)]
  have hsmall : 2^min (P.pageLog + 4) 16 ≤ 2^16 := Nat.pow_le_pow_right (by norm_num) (min_le_right _ _)
  have hpage : P.page < 2^60 := Nat.pow_lt_pow_right (by norm_num) hlog
  have hlower : n ≤ sizeToAllocate P n := by
    rw [sizeToAllocate, hboundary]
    exact Word.le_roundUpTo (by omega) (by omega)
  have hupper : sizeToAllocate P n < n + 2^min (P.pageLog + 4) 16 := by
    rw [sizeToAllocate, hboundary]
    exact Word.roundUpTo_lt (by omega) (by omega)
  refine ⟨hlower, Word.le_roundUpTo (by omega) ?_⟩
  rw [← Platform.page]
  omega

theorem sptr_of_lt (hn : n < 2^63) : sptr n = n := if_pos hn

/-- The aligned size is a multiple of the minimum alignment, and an `sptr`. -/
theorem aligned_spec (h : Inv P s) (hsize : size < 2^62) :
    s.minAlignment ∣ s.aligned size ∧ size ≤ s.aligned size ∧ s.aligned size < 2^63 := by
  obtain ⟨k, hk, hmin⟩ := h.min
  have hlog := P.pageLog_mem.2
  have hpow : 2^k < 2^60 := Nat.pow_lt_pow_right (by norm_num) (by omega)
  unfold aligned
  rw [hmin]
  have hlt := Word.roundUpTo_lt (w := 64) (x := size) (show k < 64 by omega) (by omega)
  exact ⟨Word.dvd_roundUpTo (by omega), Word.le_roundUpTo (by omega) (by omega), by omega⟩

/-- A new area, in a mapping that has no byte of another. -/
theorem Inv.refill {area : Range} (h : Inv P s) (hle : n ≤ area.size)
    (hfresh : ∀ r ∈ s.areas, ∀ x, r.Holds x → ¬area.Holds x) : Inv P (s.refill n area) where
  min := h.min
  le := Nat.le_add_right _ _
  rest x h1 h2 := ⟨area, List.mem_cons_self, h1, h2.trans_le (Nat.add_le_add_left hle _)⟩
  inside b hb x hx := by
    obtain ⟨r, hr, hrx⟩ := h.inside b hb x hx
    exact ⟨r, List.mem_cons_of_mem _ hr, hrx⟩
  apart b hb x hx hrest := by
    obtain ⟨r, hr, hrx⟩ := h.inside b hb x hx
    exact hfresh r hr x hrx ⟨hrest.1, hrest.2.trans_le (Nat.add_le_add_left hle _)⟩
  disjoint := h.disjoint

/-- A block is cut off. -/
theorem Inv.cut (h : Inv P s) (hle : size ≤ n) (hfits : s.allocatedCurrent + n ≤ s.allocatedEnd) :
    Inv P (s.cut size n) where
  min := h.min
  le := hfits
  rest x h1 h2 := h.rest x ((Nat.le_add_right _ _).trans h1) h2
  inside b hb x hx := by
    rcases List.mem_cons.mp hb with rfl | hb
    · exact h.rest x hx.1 (hx.2.trans_le ((Nat.add_le_add_left hle _).trans hfits))
    · exact h.inside b hb x hx
  apart b hb x hx hrest := by
    rcases List.mem_cons.mp hb with rfl | hb
    · exact absurd (hx.2.trans_le (Nat.add_le_add_left hle _)) (not_lt.mpr hrest.1)
    · exact h.apart b hb x hx ⟨(Nat.le_add_right _ _).trans hrest.1, hrest.2⟩
  disjoint := List.pairwise_cons.mpr ⟨fun b hb x hx => h.apart b hb x hx.2
    ⟨hx.1.1, hx.1.2.trans_le ((Nat.add_le_add_left hle _).trans hfits)⟩, h.disjoint⟩

/-- There is room for a block, in the area or in a new one. -/
theorem Inv.room {area : Range} {areaSize : ℕ} (h : Inv P s) (hn : n < 2^63) (hlower : n ≤ areaSize)
    (hupper : areaSize ≤ area.size) (hbeg : s.Full n → P.page ∣ area.beg)
    (hfresh : s.Full n → ∀ r ∈ s.areas, ∀ x, r.Holds x → ¬area.Holds x) :
    ∃ t, (if s.Full n then s.refill areaSize area else s) = t ∧ Inv P t ∧ ¬t.Full n ∧
      t.minAlignment = s.minAlignment ∧ t.blocks = s.blocks ∧
      (s.minAlignment ∣ s.allocatedCurrent → s.minAlignment ∣ t.allocatedCurrent) := by
  by_cases hfull : s.Full n
  · have hfits : ¬(s.refill areaSize area).Full n := by
      change ¬((area.beg + areaSize : ℕ) : ℤ) - area.beg < sptr n
      rw [sptr_of_lt hn]
      omega
    have hdvd : s.minAlignment ∣ area.beg := by
      obtain ⟨k, hk, hmin⟩ := h.min
      rw [hmin]
      exact (Nat.pow_dvd_pow 2 hk).trans (hbeg hfull)
    exact ⟨_, if_pos hfull, h.refill hupper (hfresh hfull), hfits, rfl, rfl, fun _ => hdvd⟩
  · exact ⟨s, if_neg hfull, h, hfull, rfl, rfl, id⟩

/-- A block of an aligned size is aligned, and so is what is left. -/
theorem cut_aligned (hcurrent : s.minAlignment ∣ s.allocatedCurrent) (hn : s.minAlignment ∣ n) :
    (s.cut size n).minAlignment ∣ (s.cut size n).allocatedCurrent ∧
      ∀ b ∈ (s.cut size n).blocks, b ∈ s.blocks ∨ b.alignment ∣ b.beg := by
  refine ⟨dvd_add hcurrent hn, fun b hb => ?_⟩
  rcases List.mem_cons.mp hb with rfl | hb
  · exact .inr hcurrent
  · exact .inl hb

/-- What a call does: no `CHECK` fails, and in a steady run a new block is aligned. -/
theorem Inv.step {op : Op} (h : Inv P s) (hop : s.Allows P op) :
    ∃ s', s.step P op = some s' ∧ Inv P s' ∧ (s.minAlignment ∣ s.allocatedCurrent → s.Steady op →
      s'.minAlignment ∣ s'.allocatedCurrent ∧ ∀ b ∈ s'.blocks, b ∈ s.blocks ∨ b.alignment ∣ b.beg) := by
  cases op with
  | allocate size mmap =>
    obtain ⟨hsize, hmap⟩ := hop
    obtain ⟨hdvd, hle, hlt⟩ := aligned_spec h hsize
    obtain ⟨hlower, hupper⟩ := sizeToAllocate_spec P mmap hlt
    obtain ⟨t, ht, hinv, hfits, hmin, hblocks, haligned⟩ :=
      h.room hlt hlower hupper (fun hfull => (hmap hfull).1) fun hfull => (hmap hfull).2
    have hstep : s.step P (.allocate size mmap) = some (t.cut size (s.aligned size)) := by
      rw [State.step, ht, if_neg hfits]
    clear hmap hlower hupper ht
    generalize s.aligned size = n at *
    have hend : t.allocatedCurrent + n ≤ t.allocatedEnd := by
      rw [Full, sptr_of_lt hlt] at hfits
      omega
    refine ⟨t.cut size n, hstep, hinv.cut hle hend, fun hcurrent _ => ?_⟩
    rw [← hmin] at haligned hcurrent hdvd
    rw [← hblocks]
    exact cut_aligned (hmin ▸ haligned (hmin ▸ hcurrent)) hdvd
  | setMinAlignment alignment =>
    obtain ⟨k, hk, rfl⟩ := hop
    have hlog := P.pageLog_mem.2
    have hpow : Word.isPowerOfTwo 64 (2^k) = true :=
      (Word.isPowerOfTwo_iff (Nat.pow_lt_pow_right (by norm_num) (by omega))).mpr (.inr ⟨k, by omega, rfl⟩)
    have hmax : (s.raise (2^k)).minAlignment = 2^k ∨ (s.raise (2^k)).minAlignment = s.minAlignment :=
      max_choice _ _
    refine ⟨s.raise (2^k), if_pos hpow, ⟨?_, h.le, h.rest, h.inside, h.apart, h.disjoint⟩,
      fun hcurrent hsteady => ⟨?_, fun b hb => .inl hb⟩⟩
    · rcases hmax with hmax | hmax
      · exact ⟨k, hk, hmax⟩
      · rw [hmax]
        exact h.min
    · change (s.raise (2^k)).minAlignment ∣ s.allocatedCurrent
      rcases hsteady with hle | hdvd
      · rwa [show (s.raise (2^k)).minAlignment = s.minAlignment from max_eq_right hle]
      · rcases hmax with hmax | hmax
        · rwa [hmax]
        · rwa [hmax]

theorem inv_of_reachable (h : Reachable P (·.Allows P) s) : Inv P s := by
  induction h with
  | init => exact inv_init
  | step _ hop hstep ih =>
    obtain ⟨s', hs', hinv, -⟩ := ih.step hop
    exact Option.some.inj (hs'.symm.trans hstep) ▸ hinv

theorem aligned_of_reachable (h : Reachable P (fun s op => s.Allows P op ∧ s.Steady op) s) :
    Inv P s ∧ s.minAlignment ∣ s.allocatedCurrent ∧ ∀ b ∈ s.blocks, b.alignment ∣ b.beg := by
  induction h with
  | init => exact ⟨inv_init, Nat.dvd_zero _, fun b hb => absurd hb List.not_mem_nil⟩
  | step _ hop hstep ih =>
    obtain ⟨hinv, hcurrent, haligned⟩ := ih
    obtain ⟨s', hs', hinv', hsteady⟩ := hinv.step hop.1
    obtain rfl := Option.some.inj (hs'.symm.trans hstep)
    obtain ⟨hcurrent', hblocks⟩ := hsteady hcurrent hop.2
    exact ⟨hinv', hcurrent', fun b hb => (hblocks b hb).elim (haligned b) id⟩

theorem aligned_zero (h : Inv P s) : s.aligned 0 = 0 := by
  obtain ⟨k, hk, hmin⟩ := h.min
  have hlog := P.pageLog_mem.2
  have hpos := Nat.two_pow_pos k
  have hlt : 2^k - 1 < 2^64 :=
    (Nat.sub_le _ _).trans_lt (Nat.pow_lt_pow_right (by norm_num) (by omega))
  rw [aligned, hmin, Word.roundUpTo_of_lt (by omega) (by omega), Nat.zero_add, Nat.div_eq_of_lt (by omega),
    Nat.zero_mul]

/-- After a call that is not steady the next block, if it is empty, is not aligned. -/
theorem misaligned_of_not_steady {op : Op} (h : Reachable P (·.Allows P) s) (hop : s.Allows P op)
    (hsteady : ¬s.Steady op) (hstep : s.step P op = some s') :
    ∃ t, s'.step P (.allocate 0 0) = some t ∧ Reachable P (·.Allows P) t ∧
      ∃ b ∈ t.blocks, ¬b.alignment ∣ b.beg := by
  have h' := h.step hop hstep
  have hinv := inv_of_reachable h'
  have hfits : ¬s'.Full (s'.aligned 0) := by
    have hle := hinv.le
    rw [aligned_zero hinv, Full, sptr_of_lt (by norm_num)]
    omega
  have hnext : s'.step P (.allocate 0 0) = some (s'.cut 0 (s'.aligned 0)) := by
    rw [State.step, if_neg hfits, if_neg hfits]
  have hallows : s'.Allows P (.allocate 0 0) := ⟨by norm_num, fun hfull => absurd hfull hfits⟩
  refine ⟨_, hnext, h'.step hallows hnext, _, List.mem_cons_self, ?_⟩
  cases op with
  | allocate => exact absurd trivial hsteady
  | setMinAlignment alignment =>
    obtain ⟨hlt, hdvd⟩ := not_or.mp hsteady
    obtain ⟨-, hraised⟩ := Option.ite_none_right_eq_some.mp hstep
    obtain rfl := Option.some.inj hraised
    change ¬max alignment s.minAlignment ∣ s.allocatedCurrent
    rwa [max_eq_left (by omega)]

/-- In every run no `CHECK` fails and the blocks are apart, in mapped areas. In a run of steady calls they are
aligned, and behind a call that is not steady the next block need not be. -/
theorem reachable_spec (P : Platform) :
    (∀ s, Reachable P (·.Allows P) s →
      (∀ op, s.Allows P op → s.step P op ≠ none) ∧
      (s.blocks.Pairwise fun b c => ∀ x, ¬(b.Holds x ∧ c.Holds x)) ∧
      ∀ b ∈ s.blocks, ∀ x, b.Holds x → ∃ r ∈ s.areas, r.Holds x) ∧
    (∀ s, Reachable P (fun s op => s.Allows P op ∧ s.Steady op) s → ∀ b ∈ s.blocks, b.alignment ∣ b.beg) ∧
    ∀ s s' op, Reachable P (·.Allows P) s → s.Allows P op → ¬s.Steady op → s.step P op = some s' →
      ∃ t, s'.step P (.allocate 0 0) = some t ∧ Reachable P (·.Allows P) t ∧
        ∃ b ∈ t.blocks, ¬b.alignment ∣ b.beg := by
  refine ⟨fun s h => ⟨fun op hop => ?_, (inv_of_reachable h).disjoint, (inv_of_reachable h).inside⟩,
    fun s h => (aligned_of_reachable h).2.2,
    fun s s' op h hop hsteady hstep => misaligned_of_not_steady h hop hsteady hstep⟩
  obtain ⟨s', hs', -⟩ := (inv_of_reachable h).step hop
  exact hs' ▸ Option.some_ne_none s'

/-- Pages of 4096 bytes. -/
def fourKiB : Platform := ⟨12, by decide⟩

/-- One byte is allocated, then the minimum alignment is raised to a page: the next block begins 8 bytes behind
the beginning of the area. -/
theorem misaligned_after_raise : ¬∀ s, Reachable fourKiB (·.Allows fourKiB) s →
    ∀ b ∈ s.blocks, b.alignment ∣ b.beg := by
  intro h
  have hallows : State.Allows fourKiB {} (.allocate 1 65536) :=
    ⟨by decide, fun _ => ⟨by decide, fun _ hr => absurd hr List.not_mem_nil⟩⟩
  obtain ⟨s, hs, -⟩ := inv_init.step hallows
  have hcurrent : s.allocatedCurrent = 65544 ∧ s.minAlignment = 8 := by
    have hstep : (State.step fourKiB {} (.allocate 1 65536)).map
        (fun s => (s.allocatedCurrent, s.minAlignment)) = some (65544, 8) := by decide +kernel
    rw [hs] at hstep
    exact Prod.mk.inj (Option.some.inj hstep)
  have hraise : s.Allows fourKiB (.setMinAlignment 4096) := ⟨12, by decide, rfl⟩
  have hsteady : ¬s.Steady (.setMinAlignment 4096) := by
    rw [Steady, hcurrent.1, hcurrent.2]
    decide
  obtain ⟨t, -, ht, b, hb, hmisaligned⟩ :=
    misaligned_of_not_steady (Reachable.init.step hallows hs) hraise hsteady rfl
  exact hmisaligned (h t ht b hb)

end Tasan.LowLevel
