import Tasan.Asan.Shadow

/-!
# Checking a region

`__asan_region_is_poisoned`, with the word-wise `mem_is_zero` that its fast check calls, and the
bodies of the fixed-size access callbacks, with `__asan_loadN` and `__asan_storeN`.

The fast check looks at the first byte, at the last byte and at the shadow from the first granule
boundary at or above the start. It does not look at the rest of the granule that the region starts
in, and `asanRegionIsPoisoned_correct_iff` says exactly on which inputs the function meets its
contract. An access of a fixed size never spans the end of the granule that it starts in unless it
starts at a granule boundary, so that the callbacks are exact.
-/

namespace Tasan.Asan

/-- The ways in which the runtime ends the process. -/
inductive Fatal where
  /-- A failed `CHECK`. -/
  | check
  | unreachable
  deriving DecidableEq, Repr

/-- A computation in which a `CHECK` may fail. -/
def orDie {α : Type} : Option α → Except Fatal α
  | some x => .ok x
  | none => .error .check

theorem orDie_some_bind {α β : Type} (x : α) (f : α → Except Fatal β) :
    (orDie (some x) >>= f) = f x := rfl

theorem orDie_none_bind {α β : Type} (f : α → Except Fatal β) :
    (orDie none >>= f) = .error .check := rfl

/-- One step of the byte loops of `mem_is_zero`: `all |= *mem`, with `*mem` a signed `char`. -/
def orByte (m : Mem) (all : BitVec 64) (mem : ℕ) : BitVec 64 := all ||| (m mem).signExtend 64

/-- One step of the word loop of `mem_is_zero`. -/
def orWord (m : Mem) (all : BitVec 64) (mem : ℕ) : BitVec 64 :=
  all ||| BitVec.ofNat 64 (m.readLE mem 8)

/-- `mem_is_zero`, for 64-bit words. -/
def memIsZero (m : Mem) (beg size : ℕ) : Option Bool := do
  check (size ≤ 2^40)
  let «end» := Word.add 64 beg size
  let alignedBeg := Word.roundUpTo 64 beg 8
  let alignedEnd := Word.roundDownTo 64 «end» 8
  -- Prologue.
  let all := (List.range' beg (min alignedBeg «end» - beg)).foldl (orByte m) 0
  -- Aligned loop.
  let all := (List.range' alignedBeg ((alignedEnd - alignedBeg) / 8) 8).foldl (orWord m) all
  -- Epilogue.
  let all :=
    if beg ≤ alignedEnd then (List.range' alignedEnd («end» - alignedEnd)).foldl (orByte m) all
    else all
  return all == 0

/-- The bytes that the prologue reads. -/
def prologue (beg size : ℕ) : List ℕ :=
  List.range' beg (min (Word.roundUpTo 64 beg 8) (Word.add 64 beg size) - beg)

/-- The words that the aligned loop reads. -/
def alignedLoop (beg size : ℕ) : List ℕ :=
  List.range' (Word.roundUpTo 64 beg 8)
    ((Word.roundDownTo 64 (Word.add 64 beg size) 8 - Word.roundUpTo 64 beg 8) / 8) 8

/-- The bytes that the epilogue reads. -/
def epilogue (beg size : ℕ) : List ℕ :=
  let alignedEnd := Word.roundDownTo 64 (Word.add 64 beg size) 8
  if beg ≤ alignedEnd then List.range' alignedEnd (Word.add 64 beg size - alignedEnd) else []

/-- All bytes that `mem_is_zero` reads. -/
def memIsZeroReads (beg size : ℕ) : List ℕ :=
  prologue beg size ++ (alignedLoop beg size).flatMap (List.range' · 8) ++ epilogue beg size

/-- The slow scan of `__asan_region_is_poisoned` over `size` bytes from `beg`. -/
def scanRegion (L : Layout) (σ : Mem) (beg size : ℕ) : Except Fatal ℕ :=
  match (List.range' beg size).find? (addressIsPoisoned L σ) with
  | some x => .ok x
  | none => .error .unreachable

/-- The fast check of `__asan_region_is_poisoned`: first the first and the last application bytes, then
`mem_is_zero` on the shadow of the aligned region. -/
def fastCheck (L : Layout) (σ : Mem) (beg «end» shadowBeg shadowEnd : ℕ) : Option Bool :=
  if !addressIsPoisoned L σ beg && !addressIsPoisoned L σ («end» - 1) then
    if shadowEnd ≤ shadowBeg then some true else memIsZero σ shadowBeg (shadowEnd - shadowBeg)
  else some false

/-- `__asan_region_is_poisoned`. -/
def asanRegionIsPoisoned (L : Layout) (σ : Mem) (beg size : ℕ) : Except Fatal ℕ :=
  if size = 0 then .ok 0
  else
    let «end» := Word.add 64 beg size
    if !L.addrIsInMem beg then .ok beg
    else if !L.addrIsInMem «end» then .ok «end»
    else do
      orDie (check (beg < «end»))
      let alignedB := Word.roundUpTo 64 beg L.granularity
      let alignedE := Word.roundDownTo 64 «end» L.granularity
      let shadowBeg ← orDie (L.memToShadow alignedB)
      let shadowEnd ← orDie (L.memToShadow alignedE)
      let clean ← orDie (fastCheck L σ beg «end» shadowBeg shadowEnd)
      if clean then return 0
      -- The fast check failed, so we have a poisoned byte somewhere.
      else scanRegion L σ beg («end» - beg)

/-- `ASAN_MEMORY_ACCESS_CALLBACK_BODY`: whether it reports an access of `size` bytes. -/
def asanMemoryAccessCallbackBody (L : Layout) (σ : Mem) (size addr : ℕ) : Bool :=
  let sp := L.MEM_TO_SHADOW addr
  let s := if size ≤ L.granularity then σ.readLE sp 1 else σ.readLE sp 2
  if s ≠ 0 then
    L.granularity ≤ size ||
      (BitVec.ofNat 8 s).toInt ≤
        (BitVec.ofNat 8 ((addr &&& (L.granularity - 1)) + size - 1)).toInt
  else false

/-- `__asan_loadN` and `__asan_storeN`: whether they report an access. -/
def asanAccessN (L : Layout) (σ : Mem) (addr size : ℕ) : Except Fatal Bool := do
  let bad ← asanRegionIsPoisoned L σ addr size
  return bad != 0

/-! ## `mem_is_zero` -/

theorem foldl_or_eq_zero_iff {f : BitVec 64 → ℕ → BitVec 64} {v : ℕ → BitVec 64}
    (hf : ∀ all x, f all x = all ||| v x) (l : List ℕ) (all : BitVec 64) :
    l.foldl f all = 0 ↔ all = 0 ∧ ∀ x ∈ l, v x = 0 := by
  induction l generalizing all with
  | nil => simp
  | cons x l ih =>
    rw [List.foldl_cons, ih, hf, List.forall_mem_cons, ← and_assoc]
    exact and_congr_left fun _ => BitVec.or_eq_zero_iff

theorem signExtend_eq_zero_iff (v : Byte) : v.signExtend 64 = 0 ↔ v = 0 := by
  revert v
  decide

theorem memIsZero_eq (m : Mem) {beg size : ℕ} (hs : size ≤ 2^40) : memIsZero m beg size =
    some ((epilogue beg size).foldl (orByte m) ((alignedLoop beg size).foldl (orWord m)
      ((prologue beg size).foldl (orByte m) 0)) == 0) := by
  unfold memIsZero epilogue alignedLoop prologue
  simp only [check, hs, decide_true, if_true, Option.bind_eq_bind, Option.bind_some]
  split_ifs
  · rfl
  · rw [List.foldl_nil]
    rfl

theorem orWord_value (m : Mem) (b : ℕ) :
    BitVec.ofNat 64 (m.readLE b 8) = 0 ↔ ∀ x ∈ List.range' b 8, m x = 0 := by
  have hlt : m.readLE b 8 < 2^64 := by simpa using m.readLE_lt b 8
  have hzero : BitVec.ofNat 64 (m.readLE b 8) = 0 ↔ m.readLE b 8 = 0 := by
    rw [← BitVec.toNat_inj, BitVec.toNat_ofNat, Nat.mod_eq_of_lt hlt]
    rfl
  rw [hzero, m.readLE_eq_zero_iff]
  simp only [List.mem_range'_1, and_imp]

/-- It looks whether all bytes are zero that it reads. -/
theorem memIsZero_reads (m : Mem) (beg : ℕ) {size : ℕ} (hs : size ≤ 2^40) :
    ∃ b, memIsZero m beg size = some b ∧ (b = true ↔ ∀ x ∈ memIsZeroReads beg size, m x = 0) := by
  have hbyte : ∀ (l : List ℕ) (all : BitVec 64),
      l.foldl (orByte m) all = 0 ↔ all = 0 ∧ ∀ x ∈ l, m x = 0 := by
    intro l all
    rw [foldl_or_eq_zero_iff (f := orByte m) (v := fun x => (m x).signExtend 64) (fun _ _ => rfl)]
    simp only [signExtend_eq_zero_iff]
  have hword : ∀ (l : List ℕ) (all : BitVec 64),
      l.foldl (orWord m) all = 0 ↔ all = 0 ∧ ∀ b ∈ l, ∀ x ∈ List.range' b 8, m x = 0 := by
    intro l all
    rw [foldl_or_eq_zero_iff (f := orWord m) (v := fun b => BitVec.ofNat 64 (m.readLE b 8))
      (fun _ _ => rfl)]
    simp only [orWord_value]
  refine ⟨_, memIsZero_eq m hs, ?_⟩
  rw [beq_iff_eq, hbyte, hword, hbyte]
  unfold memIsZeroReads
  simp only [List.mem_append, List.mem_flatMap]
  constructor
  · rintro ⟨⟨⟨-, hpro⟩, hloop⟩, hepi⟩ x ((hx | ⟨b, hb, hx⟩) | hx)
    · exact hpro x hx
    · exact hloop b hb x hx
    · exact hepi x hx
  · intro h
    exact ⟨⟨⟨trivial, fun x hx => h x (.inl (.inl hx))⟩, fun b hb x hx => h x (.inl (.inr ⟨b, hb, hx⟩))⟩,
      fun x hx => h x (.inr hx)⟩

/-- Below the last word of the address space, it reads the range. -/
theorem mem_memIsZeroReads {beg size x : ℕ} (hbeg : beg + 7 < 2^64) (hend : beg + size < 2^64) :
    x ∈ memIsZeroReads beg size ↔ beg ≤ x ∧ x < beg + size := by
  have hup : Word.roundUpTo 64 beg 8 = (beg + 8 - 1) / 8 * 8 :=
    Word.roundUpTo_of_lt (a := 3) (by norm_num) (by omega)
  have hdown : Word.roundDownTo 64 (beg + size) 8 = (beg + size) / 8 * 8 :=
    Word.roundDownTo_two_pow (a := 3) (by norm_num) (by omega)
  have hpro : x ∈ prologue beg size ↔ beg ≤ x ∧ x < min ((beg + 8 - 1) / 8 * 8) (beg + size) := by
    rw [prologue, hup, Word.add_of_lt hend, List.mem_range'_1]
    omega
  have hloop : (∃ b ∈ alignedLoop beg size, x ∈ List.range' b 8) ↔
      (beg + 8 - 1) / 8 * 8 ≤ x ∧ x < (beg + size) / 8 * 8 := by
    rw [alignedLoop, hup, Word.add_of_lt hend, hdown]
    simp only [List.mem_range'_1]
    simp only [List.mem_range']
    constructor
    · rintro ⟨b, ⟨i, hi, rfl⟩, h1, h2⟩
      omega
    · intro h
      refine ⟨_, ⟨(x - (beg + 8 - 1) / 8 * 8) / 8, ?_, rfl⟩, ?_, ?_⟩
      · omega
      · omega
      · omega
  have hepi : x ∈ epilogue beg size ↔
      beg ≤ (beg + size) / 8 * 8 ∧ (beg + size) / 8 * 8 ≤ x ∧ x < beg + size := by
    unfold epilogue
    dsimp only
    rw [Word.add_of_lt hend, hdown]
    split_ifs with hle
    · rw [List.mem_range'_1]
      omega
    · exact iff_of_false List.not_mem_nil fun h => hle h.1
  rw [memIsZeroReads, List.mem_append, List.mem_append, List.mem_flatMap, hpro, hloop, hepi]
  -- A range within one word is read by the prologue.
  omega

theorem memIsZeroReads_top {beg size : ℕ} (hs : size ≤ 2^40) (hend : beg + size = 2^64) :
    memIsZeroReads beg size = [] := by
  have hadd : Word.add 64 beg size = 0 := by
    rw [Word.add, hend, Nat.mod_self]
  have hdown : Word.roundDownTo 64 0 8 = 0 := Nat.zero_and _
  rw [memIsZeroReads, prologue, alignedLoop, epilogue, hadd, hdown, if_neg (by omega), Nat.min_zero,
    Nat.zero_sub, Nat.zero_sub]
  rfl

theorem zero_mem_memIsZeroReads {beg size : ℕ} (hbeg : 2^64 ≤ beg + 7) (hend : beg + size < 2^64) :
    0 ∈ memIsZeroReads beg size := by
  have hup : Word.roundUpTo 64 beg 8 = 0 := by
    rw [show 8 = 2^3 from rfl, Word.roundUpTo_two_pow (by norm_num)]
    omega
  have hdown : Word.roundDownTo 64 (beg + size) 8 = (beg + size) / 8 * 8 :=
    Word.roundDownTo_two_pow (a := 3) (by norm_num) (by omega)
  rw [memIsZeroReads, alignedLoop, hup, Word.add_of_lt hend, hdown, List.mem_append, List.mem_append,
    List.mem_flatMap]
  exact .inl (.inr ⟨0, List.mem_range'.mpr ⟨0, by omega, rfl⟩, by decide⟩)

/-- `mem_is_zero` is exact, and reads only the range, just when the range begins below the last word of the
address space and ends in it. -/
theorem memIsZero_exact_iff {beg size : ℕ} (hs : size ≤ 2^40) (hend : beg + size ≤ 2^64) (hbeg : beg < 2^64) :
    ((∀ m : Mem, ∃ b, memIsZero m beg size = some b ∧
        (b = true ↔ ∀ x, beg ≤ x → x < beg + size → m x = 0)) ∧
      ∀ x ∈ memIsZeroReads beg size, beg ≤ x ∧ x < beg + size) ↔
    beg + 7 < 2^64 ∧ beg + size < 2^64 := by
  constructor
  · rintro ⟨hexact, hreads⟩
    have hlt : beg + size < 2^64 := by
      -- Otherwise the end is the null pointer, and nothing is read.
      refine lt_of_le_of_ne hend fun htop => ?_
      obtain ⟨b, hb, hiff⟩ := hexact fun _ => 1
      obtain ⟨b', hb', hiff'⟩ := memIsZero_reads (fun _ => 1) beg hs
      obtain rfl := Option.some.inj (hb.symm.trans hb')
      rw [memIsZeroReads_top hs htop] at hiff'
      have hone := hiff.mp (hiff'.mpr fun x hx => absurd hx List.not_mem_nil) beg le_rfl (by omega)
      exact absurd hone (by decide)
    refine ⟨Nat.lt_of_not_le fun hle => ?_, hlt⟩
    have hzero := hreads 0 (zero_mem_memIsZeroReads hle hlt)
    omega
  · rintro ⟨hbeg, hend⟩
    refine ⟨fun m => ?_, fun x => (mem_memIsZeroReads hbeg hend).mp⟩
    obtain ⟨b, hb, hiff⟩ := memIsZero_reads m beg hs
    refine ⟨b, hb, hiff.trans ⟨fun h x h1 h2 => h x ((mem_memIsZeroReads hbeg hend).mpr ⟨h1, h2⟩),
      fun h x hx => ?_⟩⟩
    obtain ⟨h1, h2⟩ := (mem_memIsZeroReads hbeg hend).mp hx
    exact h x h1 h2
/-- `mem_is_zero` at the end of the address space: it reads the first word of the memory. -/
theorem zero_mem_memIsZeroReads_top : ¬∀ x ∈ memIsZeroReads 0xFFFFFFFFFFFFFFFB 2,
    0xFFFFFFFFFFFFFFFB ≤ x ∧ x < 0xFFFFFFFFFFFFFFFB + 2 := by
  intro h
  have hzero := h 0 (zero_mem_memIsZeroReads (by norm_num) (by norm_num))
  exact absurd hzero.1 (by norm_num)

/-- Five bytes in the middle of two words. -/
theorem memIsZero_exact_iff_five :
    ((∀ m : Mem, ∃ b, memIsZero m 0x1005 5 = some b ∧
        (b = true ↔ ∀ x, 0x1005 ≤ x → x < 0x1005 + 5 → m x = 0)) ∧
      ∀ x ∈ memIsZeroReads 0x1005 5, 0x1005 ≤ x ∧ x < 0x1005 + 5) ↔
    0x1005 + 7 < 2^64 ∧ 0x1005 + 5 < 2^64 :=
  memIsZero_exact_iff (by norm_num) (by norm_num) (by norm_num)

theorem memIsZero_spec (m : Mem) {beg size : ℕ} (hs : size ≤ 2^40) (hlt : beg + size < 2^63) :
    ∃ b, memIsZero m beg size = some b ∧
      (b = true ↔ ∀ x, beg ≤ x → x < beg + size → m x = 0) := by
  obtain ⟨b, hb, hiff⟩ := memIsZero_reads m beg hs
  have hreads : ∀ x, x ∈ memIsZeroReads beg size ↔ beg ≤ x ∧ x < beg + size :=
    fun x => mem_memIsZeroReads (by omega) (by omega)
  simp only [hreads, and_imp] at hiff
  exact ⟨b, hb, hiff⟩

theorem memIsZero_eq_none (m : Mem) {beg size : ℕ} (hs : 2^40 < size) :
    memIsZero m beg size = none := by
  unfold memIsZero check
  rw [if_neg (by simpa using hs)]
  rfl

/-! ## The fast check -/

theorem WellFormed.eq_zero_iff {M : Mapping} {σ : Mem} (hwf : WellFormed M.toLayout σ) (q : ℕ) :
    σ (q + M.offset) = 0 ↔ M.acc σ q = M.granularity := by
  constructor
  · intro h
    unfold Mapping.acc
    rw [h, prefixLen_zero]
  · intro h
    by_contra hne
    have := (hwf (q + M.offset)).prefixLen_lt M.granularity_pos hne
    exact absurd h this.ne

theorem Mapping.roundUpTo_eq (M : Mapping) {a : ℕ} (h : a ≤ M.kHighMemEnd) :
    Word.roundUpTo 64 a M.granularity = (a + M.granularity - 1) / M.granularity * M.granularity := by
  have hs := M.scale_mem
  have hg := M.granularity_le
  have hlt := M.kHighMemEnd_lt
  exact Word.roundUpTo_of_lt (by omega) (by unfold Layout.granularity at hg; omega)

theorem Mapping.roundDownTo_eq (M : Mapping) {a : ℕ} (h : a ≤ M.kHighMemEnd) :
    Word.roundDownTo 64 a M.granularity = a / M.granularity * M.granularity := by
  have hs := M.scale_mem
  have hlt := M.kHighMemEnd_lt
  exact Word.roundDownTo_two_pow (by omega) (by omega)

/-- What the fast check tests: the first byte, the last byte, and the shadow between the granule
boundaries that the ends are rounded to. -/
def FastClean (M : Mapping) (σ : Mem) (beg «end» : ℕ) : Prop :=
  addressIsPoisoned M.toLayout σ beg = false ∧ addressIsPoisoned M.toLayout σ («end» - 1) = false ∧
    ∀ q, (beg + M.granularity - 1) / M.granularity ≤ q → q < «end» / M.granularity →
      M.acc σ q = M.granularity

/-- The region starts inside a granule with addressable bytes at its start and poisoned bytes at its
end, goes past that granule, and is addressable from the next granule on. -/
def FirstGranuleMissed (M : Mapping) (σ : Mem) (beg «end» : ℕ) : Prop :=
  beg < Word.roundUpTo 64 beg M.granularity ∧ Word.roundUpTo 64 beg M.granularity < «end» ∧
    addressIsPoisoned M.toLayout σ beg = false ∧
    addressIsPoisoned M.toLayout σ (Word.roundUpTo 64 beg M.granularity - 1) = true ∧
    ∀ x, Word.roundUpTo 64 beg M.granularity ≤ x → x < «end» →
      addressIsPoisoned M.toLayout σ x = false

section Region

variable {M : Mapping} {σ : Mem} {beg size : ℕ}

/-- A region without poisoned bytes passes the fast check. -/
theorem fastClean_of_clean (hs : 0 < size) (hle : beg + size ≤ M.kHighMemEnd)
    (h : ∀ x, beg ≤ x → x < beg + size → addressIsPoisoned M.toLayout σ x = false) :
    FastClean M σ beg (beg + size) := by
  have hg0 := M.granularity_pos
  refine ⟨h _ le_rfl (by omega), h _ (by omega) (by omega), fun q h1 h2 => ?_⟩
  -- The last byte of granule `q` is in the region.
  have hbeg : beg ≤ q * M.granularity := by
    have := Nat.div_add_mod (beg + M.granularity - 1) M.granularity
    have := Nat.mod_lt (beg + M.granularity - 1) hg0
    have := Nat.mul_le_mul_left M.granularity h1
    rw [Nat.mul_comm q]
    omega
  have hend : q * M.granularity + M.granularity ≤ beg + size := by
    have := Nat.mul_le_mul_right M.granularity (Nat.succ_le_of_lt h2)
    rw [Nat.succ_mul] at this
    exact this.trans (Nat.div_mul_le_self _ _)
  have hlast := h (q * M.granularity + (M.granularity - 1)) (by omega) (by omega)
  rw [M.addressIsPoisoned_eq_false_iff σ (by omega), Nat.mul_comm q, Nat.mul_add_div hg0,
    Nat.mul_add_mod, Nat.div_eq_of_lt (by omega), Nat.mod_eq_of_lt (by omega)] at hlast
  have := M.acc_le σ q
  rw [Nat.add_zero] at hlast
  omega

/-- A region that passes the fast check is addressable from the first granule boundary on, and as a
whole if it does not go past that boundary. -/
theorem FastClean.eq_false (h : FastClean M σ beg (beg + size)) (hle : beg + size ≤ M.kHighMemEnd)
    {x : ℕ} (h1 : beg ≤ x) (h2 : x < beg + size)
    (hx : (beg + M.granularity - 1) / M.granularity * M.granularity ≤ x ∨
      beg + size ≤ (beg + M.granularity - 1) / M.granularity * M.granularity) :
    addressIsPoisoned M.toLayout σ x = false := by
  obtain ⟨-, hlast, hmid⟩ := h
  have hg0 := M.granularity_pos
  have hu : (beg + M.granularity - 1) / M.granularity ≤ beg / M.granularity + 1 := by
    rw [← Nat.add_div_right _ hg0]
    exact Nat.div_le_div_right (by omega)
  have hbx : beg / M.granularity ≤ x / M.granularity := Nat.div_le_div_right h1
  have hle' : (beg + size - 1) / M.granularity ≤ (beg + size) / M.granularity :=
    Nat.div_le_div_right (by omega)
  have hxr := Nat.mod_lt x hg0
  rw [M.addressIsPoisoned_eq_false_iff σ (by omega)] at hlast ⊢
  rcases lt_or_ge (x / M.granularity) ((beg + size - 1) / M.granularity) with hq | hq
  · -- A granule before the last one.
    rw [hmid (x / M.granularity) ?_ (by omega)]
    · exact hxr
    · rcases hx with hx | hx
      · exact (Nat.le_div_iff_mul_le hg0).mpr hx
      · have : (beg + size - 1) / M.granularity < (beg + M.granularity - 1) / M.granularity :=
          (Nat.div_lt_iff_lt_mul hg0).mpr (by omega)
        omega
  · -- The granule of the last byte, which is addressable up to it.
    have hle2 : x / M.granularity ≤ (beg + size - 1) / M.granularity :=
      Nat.div_le_div_right (by omega)
    have heq : x / M.granularity = (beg + size - 1) / M.granularity := by omega
    have hx1 := Nat.div_add_mod x M.granularity
    have hx2 := Nat.div_add_mod (beg + size - 1) M.granularity
    rw [heq] at hx1 ⊢
    omega

/-- A region that passes the fast check and has a poisoned byte is one that the check misses. -/
theorem FastClean.firstGranuleMissed (h : FastClean M σ beg (beg + size))
    (hle : beg + size ≤ M.kHighMemEnd) {x : ℕ} (h1 : beg ≤ x) (h2 : x < beg + size)
    (hx : addressIsPoisoned M.toLayout σ x = true) :
    FirstGranuleMissed M σ beg (beg + size) := by
  have hg0 := M.granularity_pos
  have hnot : ¬ ((beg + M.granularity - 1) / M.granularity * M.granularity ≤ x ∨
      beg + size ≤ (beg + M.granularity - 1) / M.granularity * M.granularity) := by
    intro hor
    rw [h.eq_false hle h1 h2 hor] at hx
    exact absurd hx (by decide)
  unfold FirstGranuleMissed
  rw [M.roundUpTo_eq (by omega)]
  refine ⟨by omega, by omega, h.1, ?_, fun y hy1 hy2 => ?_⟩
  · -- The last byte of the granule of `x`.
    rw [M.addressIsPoisoned_iff σ (by omega)] at hx ⊢
    have hU := Nat.div_mul_le_self (beg + M.granularity - 1) M.granularity
    have hq1 : x / M.granularity < (beg + M.granularity - 1) / M.granularity :=
      (Nat.div_lt_iff_lt_mul hg0).mpr (by omega)
    have hq2 : (beg + M.granularity - 1) / M.granularity ≤ beg / M.granularity + 1 := by
      rw [← Nat.add_div_right _ hg0]
      exact Nat.div_le_div_right (by omega)
    have hq3 : beg / M.granularity ≤ x / M.granularity := Nat.div_le_div_right h1
    have hlast : (beg + M.granularity - 1) / M.granularity * M.granularity - 1 =
        M.granularity * (x / M.granularity) + (M.granularity - 1) := by
      rw [show (beg + M.granularity - 1) / M.granularity = x / M.granularity + 1 by omega,
        Nat.succ_mul, Nat.mul_comm]
      omega
    have hxr := Nat.mod_lt x hg0
    have hlt : M.granularity - 1 < M.granularity := by omega
    rw [hlast, Nat.mul_add_div hg0, Nat.mul_add_mod, Nat.div_eq_of_lt hlt, Nat.mod_eq_of_lt hlt,
      Nat.add_zero]
    omega
  · exact h.eq_false hle (by omega) hy2 (Or.inl hy1)

theorem FirstGranuleMissed.fastClean (h : FirstGranuleMissed M σ beg (beg + size))
    (hle : beg + size ≤ M.kHighMemEnd) : FastClean M σ beg (beg + size) := by
  obtain ⟨-, h2, h3, -, h5⟩ := h
  have hg0 := M.granularity_pos
  rw [M.roundUpTo_eq (by omega)] at h2 h5
  set U := (beg + M.granularity - 1) / M.granularity * M.granularity with hU
  have hclean : FastClean M σ U (U + (beg + size - U)) :=
    fastClean_of_clean (by omega) (by omega) (fun x hx1 hx2 => h5 x hx1 (by omega))
  rw [show U + (beg + size - U) = beg + size by omega] at hclean
  have hdiv : (U + M.granularity - 1) / M.granularity =
      (beg + M.granularity - 1) / M.granularity := by
    have hlt : M.granularity - 1 < M.granularity := by omega
    rw [hU, Nat.mul_comm, Nat.add_sub_assoc hg0, Nat.mul_add_div hg0, Nat.div_eq_of_lt hlt,
      Nat.add_zero]
  refine ⟨h3, hclean.2.1, fun q hq1 hq2 => hclean.2.2 q (hdiv ▸ hq1) hq2⟩

/-- The contract of `__asan_region_is_poisoned`: it returns zero exactly when no byte of the region
is poisoned, and otherwise the first poisoned byte. -/
def RegionContract (L : Layout) (σ : Mem) (beg size : ℕ) (r : Except Fatal ℕ) : Prop :=
  ∃ a, r = .ok a ∧
    (a = 0 ↔ ∀ x, beg ≤ x → x < beg + size → addressIsPoisoned L σ x = false) ∧
    ((∃ x, beg ≤ x ∧ x < beg + size ∧ addressIsPoisoned L σ x = true) →
      beg ≤ a ∧ a < beg + size ∧ addressIsPoisoned L σ a = true ∧
        ∀ y, beg ≤ y → y < a → addressIsPoisoned L σ y = false)

theorem scanRegion_spec {L : Layout} {x : ℕ} (h1 : beg ≤ x) (h2 : x < beg + size)
    (hx : addressIsPoisoned L σ x = true) :
    ∃ a, scanRegion L σ beg size = .ok a ∧ beg ≤ a ∧ a < beg + size ∧
      addressIsPoisoned L σ a = true ∧
      ∀ y, beg ≤ y → y < a → addressIsPoisoned L σ y = false := by
  unfold scanRegion
  cases hfind : (List.range' beg size).find? (addressIsPoisoned L σ) with
  | none =>
    have := List.find?_eq_none.mp hfind x (List.mem_range'_1.mpr ⟨h1, h2⟩)
    exact absurd hx this
  | some a =>
    obtain ⟨hp, hmem, hleast⟩ := List.find?_range'_eq_some.mp hfind
    have hmem := List.mem_range'_1.mp hmem
    exact ⟨a, rfl, hmem.1, hmem.2, hp, fun y hy1 hy2 => by simpa using hleast y hy1 hy2⟩

/-- `__asan_region_is_poisoned` past its tests on the region's ends. -/
theorem asanRegionIsPoisoned_eq (hs : 0 < size) (h1 : M.addrIsInMem beg = true)
    (h2 : M.addrIsInMem (beg + size) = true) :
    asanRegionIsPoisoned M.toLayout σ beg size = (do
      let shadowBeg ← orDie (M.memToShadow (Word.roundUpTo 64 beg M.granularity))
      let clean ← orDie (fastCheck M.toLayout σ beg (beg + size) shadowBeg
        ((beg + size) / M.granularity + M.offset))
      if clean then return 0 else scanRegion M.toLayout σ beg size) := by
  have hlt := M.kHighMemEnd_lt
  have hle := M.le_of_addrIsInMem h2
  have hg0 := M.granularity_pos
  have hend : M.memToShadow (Word.roundDownTo 64 (beg + size) M.granularity) =
      some ((beg + size) / M.granularity + M.offset) := by
    rw [M.roundDownTo_eq hle]
    have hdiv : (beg + size) / M.granularity * M.granularity / M.granularity =
        (beg + size) / M.granularity := Nat.mul_div_cancel _ hg0
    have hmem : M.addrIsInMem ((beg + size) / M.granularity * M.granularity) = true := by
      rw [M.addrIsInMem_congr hdiv, h2]
    rw [M.memToShadow_eq_some hmem, hdiv]
  have hsum : Word.add 64 beg size = beg + size := Word.add_of_lt (by omega)
  have hcheck : check (decide (beg < beg + size)) = some () := by
    rw [decide_eq_true (by omega)]
    rfl
  unfold asanRegionIsPoisoned
  rw [if_neg hs.ne', hsum]
  dsimp only
  rw [h1, h2, hcheck, hend, Nat.add_sub_cancel_left, if_neg (by decide), if_neg (by decide),
    orDie_some_bind]
  refine bind_congr fun shadowBeg => ?_
  rw [orDie_some_bind]

/-- The region is addressable at both ends and too long for `mem_is_zero`. -/
def TooLong (M : Mapping) (σ : Mem) (beg «end» : ℕ) : Prop :=
  addressIsPoisoned M.toLayout σ beg = false ∧ addressIsPoisoned M.toLayout σ («end» - 1) = false ∧
    M.granularity * 2^40 <
      Word.roundDownTo 64 «end» M.granularity - Word.roundUpTo 64 beg M.granularity

theorem tooLong_iff (hle : beg + size ≤ M.kHighMemEnd) :
    TooLong M σ beg (beg + size) ↔
      addressIsPoisoned M.toLayout σ beg = false ∧
        addressIsPoisoned M.toLayout σ (beg + size - 1) = false ∧
        2^40 < (beg + size) / M.granularity - (beg + M.granularity - 1) / M.granularity := by
  unfold TooLong
  rw [M.roundDownTo_eq hle, M.roundUpTo_eq (by omega), ← Nat.sub_mul, Nat.mul_comm,
    Nat.mul_lt_mul_right M.granularity_pos]

/-- With the shadow of the first boundary at hand, the fast check fails on a region that is too long,
and else decides `FastClean`. -/
theorem fastCheck_spec (hwf : WellFormed M.toLayout σ) (hle : beg + size ≤ M.kHighMemEnd) :
    (TooLong M σ beg (beg + size) → fastCheck M.toLayout σ beg (beg + size)
      ((beg + M.granularity - 1) / M.granularity + M.offset)
      ((beg + size) / M.granularity + M.offset) = none) ∧
    (¬ TooLong M σ beg (beg + size) → ∃ clean, fastCheck M.toLayout σ beg (beg + size)
      ((beg + M.granularity - 1) / M.granularity + M.offset)
      ((beg + size) / M.granularity + M.offset) = some clean ∧
        (clean = true ↔ FastClean M σ beg (beg + size))) := by
  have hend := M.MEM_TO_SHADOW_mem hle
  rw [M.MEM_TO_SHADOW_of_le hle] at hend
  have hlt := M.kHighMemEnd_lt
  have hzero := hwf.eq_zero_iff
  rw [tooLong_iff hle]
  unfold fastCheck FastClean
  generalize (beg + M.granularity - 1) / M.granularity = u at *
  generalize (beg + size) / M.granularity = qe at *
  cases hb : addressIsPoisoned M.toLayout σ beg with
  | true => simp
  | false =>
    cases he : addressIsPoisoned M.toLayout σ (beg + size - 1) with
    | true => simp
    | false =>
      simp only [Bool.not_false, Bool.and_self, if_true, true_and]
      by_cases hq : qe ≤ u
      · rw [if_pos (by omega)]
        refine ⟨fun h => by omega, fun _ => ⟨true, rfl, ?_⟩⟩
        simp only [true_iff]
        intro q h1 h2
        omega
      · rw [if_neg (by omega), show qe + M.offset - (u + M.offset) = qe - u by omega]
        refine ⟨fun h => memIsZero_eq_none σ h, fun h => ?_⟩
        obtain ⟨clean, hclean, hiff⟩ :=
          memIsZero_spec σ (show qe - u ≤ 2^40 by omega)
            (show u + M.offset + (qe - u) < 2^63 by omega)
        refine ⟨clean, hclean, hiff.trans ⟨fun h q h1 h2 => ?_, fun h x h1 h2 => ?_⟩⟩
        · exact (hzero q).mp (h _ (by omega) (by omega))
        · rw [show x = x - M.offset + M.offset by omega]
          exact (hzero _).mpr (h _ (by omega) (by omega))

theorem asanRegionIsPoisoned_of_boundary (hs : 0 < size) (h1 : M.addrIsInMem beg = true)
    (h2 : M.addrIsInMem (beg + size) = true)
    (hb : M.addrIsInMem (Word.roundUpTo 64 beg M.granularity) = false) :
    asanRegionIsPoisoned M.toLayout σ beg size = .error .check := by
  rw [asanRegionIsPoisoned_eq hs h1 h2, M.memToShadow_eq_none hb, orDie_none_bind]

/-- When the first granule boundary is application memory, the function fails on a region that is too
long, returns zero on one that passes the fast check, and else scans it. -/
theorem asanRegionIsPoisoned_cases (hwf : WellFormed M.toLayout σ) (hs : 0 < size)
    (h1 : M.addrIsInMem beg = true) (h2 : M.addrIsInMem (beg + size) = true)
    (hb : M.addrIsInMem (Word.roundUpTo 64 beg M.granularity) = true) :
    TooLong M σ beg (beg + size) ∧
        asanRegionIsPoisoned M.toLayout σ beg size = .error .check ∨
      ¬ TooLong M σ beg (beg + size) ∧ FastClean M σ beg (beg + size) ∧
        asanRegionIsPoisoned M.toLayout σ beg size = .ok 0 ∨
      ¬ TooLong M σ beg (beg + size) ∧ ¬ FastClean M σ beg (beg + size) ∧
        asanRegionIsPoisoned M.toLayout σ beg size = scanRegion M.toLayout σ beg size := by
  have hle := M.le_of_addrIsInMem h2
  have hshadow := M.memToShadow_eq_some hb
  rw [M.roundUpTo_eq (by omega), Nat.mul_div_cancel _ M.granularity_pos] at hshadow
  obtain ⟨hlong, hshort⟩ := fastCheck_spec hwf hle
  rw [asanRegionIsPoisoned_eq hs h1 h2, M.roundUpTo_eq (by omega), hshadow, orDie_some_bind]
  by_cases h : TooLong M σ beg (beg + size)
  · rw [hlong h, orDie_none_bind]
    exact Or.inl ⟨h, rfl⟩
  · obtain ⟨clean, hclean, hiff⟩ := hshort h
    rw [hclean, orDie_some_bind]
    cases clean with
    | true => exact Or.inr (Or.inl ⟨h, hiff.mp rfl, if_pos rfl⟩)
    | false => exact Or.inr (Or.inr ⟨h, fun hc => absurd (hiff.mpr hc) (by decide), if_neg (by decide)⟩)

theorem exists_poisoned_of_not_fastClean (hs : 0 < size) (hle : beg + size ≤ M.kHighMemEnd)
    (h : ¬ FastClean M σ beg (beg + size)) :
    ∃ x, beg ≤ x ∧ x < beg + size ∧ addressIsPoisoned M.toLayout σ x = true := by
  by_contra hno
  push Not at hno
  refine h (fastClean_of_clean hs hle fun x h1 h2 => ?_)
  simpa using hno x h1 h2

/-- The contract of `__asan_region_is_poisoned` holds exactly outside the four kinds of inputs on
which the fast check, a `CHECK` or the return value zero breaks it. -/
theorem regionContract_iff (hwf : WellFormed M.toLayout σ) (hs : 0 < size)
    (h1 : M.addrIsInMem beg = true) (h2 : M.addrIsInMem (beg + size) = true) :
    RegionContract M.toLayout σ beg size (asanRegionIsPoisoned M.toLayout σ beg size) ↔
      M.addrIsInMem (Word.roundUpTo 64 beg M.granularity) = true ∧
        ¬ TooLong M σ beg (beg + size) ∧ ¬ FirstGranuleMissed M σ beg (beg + size) ∧
        ¬ (beg = 0 ∧ addressIsPoisoned M.toLayout σ 0 = true) := by
  have hle := M.le_of_addrIsInMem h2
  cases hb : M.addrIsInMem (Word.roundUpTo 64 beg M.granularity) with
  | false =>
    rw [asanRegionIsPoisoned_of_boundary hs h1 h2 hb]
    simp [RegionContract]
  | true =>
    rcases asanRegionIsPoisoned_cases hwf hs h1 h2 hb with
      ⟨hlong, hf⟩ | ⟨hshort, hclean, hf⟩ | ⟨hshort, hclean, hf⟩
    · rw [hf]
      simp [RegionContract, hlong]
    · -- The function returns zero: right unless the fast check missed a poisoned byte.
      rw [hf]
      constructor
      · rintro ⟨a, ha, hzero, -⟩
        obtain rfl := Except.ok.inj ha
        have hno := hzero.mp rfl
        refine ⟨rfl, hshort, fun ⟨hm1, hm2, _, hm4, _⟩ => ?_, fun ⟨h0, hp⟩ => ?_⟩
        · rw [hno _ (by omega) (by omega)] at hm4
          exact absurd hm4 (by decide)
        · rw [hno 0 (by omega) (by omega)] at hp
          exact absurd hp (by decide)
      · rintro ⟨-, -, hmiss, -⟩
        have hno : ∀ x, beg ≤ x → x < beg + size → addressIsPoisoned M.toLayout σ x = false :=
          fun x hx1 hx2 => by
            by_contra hx
            exact hmiss (hclean.firstGranuleMissed hle hx1 hx2 (by simpa using hx))
        refine ⟨0, rfl, by simpa using hno, ?_⟩
        rintro ⟨x, hx1, hx2, hx⟩
        rw [hno x hx1 hx2] at hx
        exact absurd hx (by decide)
    · -- The scan finds the first poisoned byte.
      obtain ⟨x, hx1, hx2, hx⟩ := exists_poisoned_of_not_fastClean hs hle hclean
      obtain ⟨a, hscan, ha1, ha2, hap, hleast⟩ := scanRegion_spec hx1 hx2 hx
      rw [hf, hscan]
      constructor
      · rintro ⟨b, hb', hzero, -⟩
        obtain rfl := Except.ok.inj hb'
        refine ⟨rfl, hshort, fun hm => hclean (hm.fastClean hle), fun ⟨h0, hp⟩ => ?_⟩
        have ha0 : a = 0 := by
          by_contra hne
          rw [hleast 0 (by omega) (by omega)] at hp
          exact absurd hp (by decide)
        rw [hzero.mp ha0 a ha1 ha2] at hap
        exact absurd hap (by decide)
      · rintro ⟨-, -, -, hzero⟩
        refine ⟨a, rfl, ⟨fun h0 => ?_, fun hno => ?_⟩, fun _ => ⟨ha1, ha2, hap, hleast⟩⟩
        · exact absurd ⟨by omega, h0 ▸ hap⟩ hzero
        · rw [hno a ha1 ha2] at hap
          exact absurd hap (by decide)

theorem asanRegionIsPoisoned_ne_unreachable (hwf : WellFormed M.toLayout σ) (hs : 0 < size)
    (h1 : M.addrIsInMem beg = true) (h2 : M.addrIsInMem (beg + size) = true) :
    asanRegionIsPoisoned M.toLayout σ beg size ≠ .error .unreachable := by
  have hle := M.le_of_addrIsInMem h2
  cases hb : M.addrIsInMem (Word.roundUpTo 64 beg M.granularity) with
  | false =>
    rw [asanRegionIsPoisoned_of_boundary hs h1 h2 hb]
    simp
  | true =>
    rcases asanRegionIsPoisoned_cases hwf hs h1 h2 hb with ⟨-, hf⟩ | ⟨-, -, hf⟩ | ⟨-, hclean, hf⟩
    · simp [hf]
    · simp [hf]
    · obtain ⟨x, hx1, hx2, hx⟩ := exists_poisoned_of_not_fastClean hs hle hclean
      obtain ⟨a, hscan, -⟩ := scanRegion_spec hx1 hx2 hx
      simp [hf, hscan]

end Region

/-- A region that is application memory with the byte after it, in a well-formed shadow:
`__asan_region_is_poisoned` meets its contract exactly when the granule boundary at or above its
start is application memory, the fast check neither reads too long a shadow nor misses the granule
that the region starts in, and the first poisoned byte is not address zero. It never reaches its
`UNREACHABLE`. -/
theorem asanRegionIsPoisoned_correct_iff (M : Mapping) (σ : Mem) (hwf : WellFormed M.toLayout σ)
    (beg size : ℕ) (hs : 0 < size)
    (hmem : ∀ a, beg ≤ a → a ≤ beg + size → M.addrIsInMem a = true) :
    (RegionContract M.toLayout σ beg size (asanRegionIsPoisoned M.toLayout σ beg size) ↔
      M.addrIsInMem (Word.roundUpTo 64 beg M.granularity) = true ∧
        ¬ TooLong M σ beg (beg + size) ∧ ¬ FirstGranuleMissed M σ beg (beg + size) ∧
        ¬ (beg = 0 ∧ addressIsPoisoned M.toLayout σ 0 = true)) ∧
    asanRegionIsPoisoned M.toLayout σ beg size ≠ .error .unreachable := by
  have h1 := hmem beg le_rfl (by omega)
  have h2 := hmem (beg + size) (by omega) le_rfl
  exact ⟨regionContract_iff hwf hs h1 h2, asanRegionIsPoisoned_ne_unreachable hwf hs h1 h2⟩

/-- A shadow in which the granule at `0x1000` has five addressable bytes and all others eight. -/
def partialGranule : Mem := Mem.set (fun _ => 0) (Mapping.linuxX64.MEM_TO_SHADOW 0x1000) 5

theorem partialGranule_wellFormed : WellFormed Mapping.linuxX64.toLayout partialGranule :=
  (wellFormed_zero _).set _ (Or.inr (Or.inl (by decide)))

theorem linuxX64_lowMem {a : ℕ} (h : a ≤ 0x7fff7fff) : Mapping.linuxX64.addrIsInMem a = true :=
  (Mapping.linuxX64_addrIsInMem a).mpr (Or.inl h)

/-- A region that ends in the partial granule meets the contract. -/
theorem asanRegionIsPoisoned_correct_partialGranule :
    RegionContract Mapping.linuxX64.toLayout partialGranule 0xff8 15
      (asanRegionIsPoisoned Mapping.linuxX64.toLayout partialGranule 0xff8 15) := by
  refine (asanRegionIsPoisoned_correct_iff Mapping.linuxX64 partialGranule partialGranule_wellFormed
    0xff8 15 (by decide) (fun a _ h => linuxX64_lowMem (by omega))).1.mpr ⟨by decide, ?_, ?_, ?_⟩
  · exact fun h => absurd h.2.1 (by decide)
  · exact fun h => absurd h.1 (by decide)
  · exact fun h => absurd h.1 (by decide)

/-- A region that starts in the partial granule and goes past it: byte `0x1005` is poisoned, and the
function returns zero. -/
theorem asanRegionIsPoisoned_misses_partialGranule :
    (∀ a, 0x1002 ≤ a → a ≤ 0x1002 + 14 → Mapping.linuxX64.addrIsInMem a = true) ∧
    WellFormed Mapping.linuxX64.toLayout partialGranule ∧
    asanRegionIsPoisoned Mapping.linuxX64.toLayout partialGranule 0x1002 14 = .ok 0 ∧
    addressIsPoisoned Mapping.linuxX64.toLayout partialGranule 0x1005 = true ∧
    ¬ RegionContract Mapping.linuxX64.toLayout partialGranule 0x1002 14
      (asanRegionIsPoisoned Mapping.linuxX64.toLayout partialGranule 0x1002 14) := by
  have hf : asanRegionIsPoisoned Mapping.linuxX64.toLayout partialGranule 0x1002 14 = .ok 0 := by
    decide
  have hp : addressIsPoisoned Mapping.linuxX64.toLayout partialGranule 0x1005 = true := by decide
  refine ⟨fun a _ h => linuxX64_lowMem (by omega), partialGranule_wellFormed, hf, hp, ?_⟩
  rw [hf]
  rintro ⟨a, ha, hzero, -⟩
  obtain rfl := Except.ok.inj ha
  rw [hzero.mp rfl 0x1005 (by decide) (by decide)] at hp
  exact absurd hp (by decide)

/-! ## Accesses of a fixed size -/

section Access

variable {M : Mapping} {σ : Mem} {addr size : ℕ}

theorem size_dvd_granularity (hsize : size ∈ ({1, 2, 4, 8, 16} : Finset ℕ))
    (h : size ≤ M.granularity) : size ∣ M.granularity := by
  obtain ⟨j, rfl⟩ : ∃ j, size = 2^j := by
    simp only [Finset.mem_insert, Finset.mem_singleton] at hsize
    rcases hsize with rfl | rfl | rfl | rfl | rfl
    exacts [⟨0, rfl⟩, ⟨1, rfl⟩, ⟨2, rfl⟩, ⟨3, rfl⟩, ⟨4, rfl⟩]
  exact Nat.pow_dvd_pow 2 ((Nat.pow_le_pow_iff_right (by norm_num)).mp h)

theorem mod_add_size_le (hsize : size ∈ ({1, 2, 4, 8, 16} : Finset ℕ)) (h : size ≤ M.granularity)
    (hal : addr % size = 0) : addr % M.granularity + size ≤ M.granularity := by
  have hr := Nat.mod_lt addr M.granularity_pos
  have hdvd := size_dvd_granularity hsize h
  have hmod : addr % M.granularity % size = 0 := by rw [Nat.mod_mod_of_dvd _ hdvd, hal]
  obtain ⟨b, hb⟩ := hdvd
  obtain ⟨a, ha⟩ := Nat.dvd_of_mod_eq_zero hmod
  rw [ha, hb] at hr ⊢
  have hab : a < b := Nat.lt_of_mul_lt_mul_left hr
  calc size * a + size = size * (a + 1) := by rw [Nat.mul_succ]
    _ ≤ size * b := Nat.mul_le_mul_left _ hab

/-- Some byte of an access within one granule is poisoned exactly when its last byte is. -/
theorem exists_poisoned_iff_acc (hs : 0 < size) (hle : addr + size ≤ M.kHighMemEnd)
    (h : addr % M.granularity + size ≤ M.granularity) :
    (∃ x, addr ≤ x ∧ x < addr + size ∧ addressIsPoisoned M.toLayout σ x = true) ↔
      M.acc σ (addr / M.granularity) ≤ addr % M.granularity + size - 1 := by
  have hg0 := M.granularity_pos
  have hcoord : ∀ i < size, (addr + i) / M.granularity = addr / M.granularity ∧
      (addr + i) % M.granularity = addr % M.granularity + i := by
    intro i hi
    have hsum : addr + i = M.granularity * (addr / M.granularity) + (addr % M.granularity + i) := by
      rw [← Nat.add_assoc, Nat.div_add_mod]
    have hlt : addr % M.granularity + i < M.granularity := by omega
    constructor
    · rw [hsum, Nat.mul_add_div hg0, Nat.div_eq_of_lt hlt, Nat.add_zero]
    · rw [hsum, Nat.mul_add_mod, Nat.mod_eq_of_lt hlt]
  constructor
  · rintro ⟨x, h1, h2, hx⟩
    obtain ⟨i, rfl⟩ := Nat.exists_eq_add_of_le h1
    obtain ⟨hq, hr⟩ := hcoord i (by omega)
    rw [M.addressIsPoisoned_iff σ (by omega), hq, hr] at hx
    omega
  · intro hacc
    obtain ⟨hq, hr⟩ := hcoord (size - 1) (by omega)
    refine ⟨addr + (size - 1), by omega, by omega, ?_⟩
    rw [M.addressIsPoisoned_iff σ (by omega), hq, hr]
    omega

theorem exists_poisoned_granule_iff (hwf : WellFormed M.toLayout σ)
    (hle : addr + M.granularity ≤ M.kHighMemEnd) (hal : addr % M.granularity = 0) :
    (∃ x, addr ≤ x ∧ x < addr + M.granularity ∧ addressIsPoisoned M.toLayout σ x = true) ↔
      σ (addr / M.granularity + M.offset) ≠ 0 := by
  have hacc := M.acc_le σ (addr / M.granularity)
  have hg0 := M.granularity_pos
  rw [exists_poisoned_iff_acc hg0 hle (by omega), ne_eq, hwf.eq_zero_iff]
  omega

/-- The callback body on an access of less than a granule: the shadow value is not past the last byte
accessed. -/
theorem callbackBody_iff_of_lt (hwf : WellFormed M.toLayout σ)
    (hle : addr + size ≤ M.kHighMemEnd) (hs : 0 < size) (hlt : size < M.granularity)
    (h : addr % M.granularity + size ≤ M.granularity) :
    asanMemoryAccessCallbackBody M.toLayout σ size addr = true ↔
      M.acc σ (addr / M.granularity) ≤ addr % M.granularity + size - 1 := by
  have hg := M.granularity_le
  have hcases := (hwf (addr / M.granularity + M.offset)).prefixLen_cases
  have hacc : M.acc σ (addr / M.granularity) =
    prefixLen M.granularity (σ (addr / M.granularity + M.offset)) := rfl
  unfold asanMemoryAccessCallbackBody
  dsimp only
  rw [M.MEM_TO_SHADOW_of_le (by omega), M.and_granularity, if_pos hlt.le, Mem.readLE, Mem.readLE,
    Nat.mul_zero, Nat.add_zero, BitVec.ofNat_toNat, BitVec.setWidth_eq, toInt_ofNat_of_lt (by omega),
    hacc]
  split_ifs with h0
  · rw [ne_eq, toNat_eq_zero_iff] at h0
    simp only [Bool.or_eq_true, decide_eq_true_eq]
    omega
  · rw [ne_eq, toNat_eq_zero_iff, not_not] at h0
    simp only [false_iff]
    omega

theorem callbackBody_iff_of_eq (hle : addr ≤ M.kHighMemEnd) :
    asanMemoryAccessCallbackBody M.toLayout σ M.granularity addr = true ↔
      σ (addr / M.granularity + M.offset) ≠ 0 := by
  unfold asanMemoryAccessCallbackBody
  dsimp only
  rw [M.MEM_TO_SHADOW_of_le hle, if_pos le_rfl, Mem.readLE, Mem.readLE, Nat.mul_zero, Nat.add_zero,
    ← BitVec.toNat_inj.ne]
  split_ifs with h0
  · simpa using h0
  · simpa using h0

theorem callbackBody_iff_of_gt (hle : addr ≤ M.kHighMemEnd) (hgt : M.granularity < size) :
    asanMemoryAccessCallbackBody M.toLayout σ size addr = true ↔
      σ (addr / M.granularity + M.offset) ≠ 0 ∨ σ (addr / M.granularity + 1 + M.offset) ≠ 0 := by
  have hread := σ.readLE_eq_zero_iff (addr / M.granularity + M.offset) 2
  unfold asanMemoryAccessCallbackBody
  dsimp only
  rw [M.MEM_TO_SHADOW_of_le hle, if_neg (not_le.mpr hgt)]
  have hiff : (∀ x, addr / M.granularity + M.offset ≤ x →
      x < addr / M.granularity + M.offset + 2 → σ x = 0) ↔
      σ (addr / M.granularity + M.offset) = 0 ∧ σ (addr / M.granularity + 1 + M.offset) = 0 := by
    generalize addr / M.granularity = q
    refine ⟨fun h => ⟨h _ (by omega) (by omega), h _ (by omega) (by omega)⟩, fun h x h1 h2 => ?_⟩
    rcases show x = q + M.offset ∨ x = q + 1 + M.offset by omega with rfl | rfl
    exacts [h.1, h.2]
  rw [hiff] at hread
  split_ifs with h0
  · simp only [hgt.le, decide_true, Bool.true_or, true_iff]
    tauto
  · simp only [false_iff]
    tauto

theorem exists_poisoned_two_granules_iff (hwf : WellFormed M.toLayout σ)
    (hle : addr + 2 * M.granularity ≤ M.kHighMemEnd) (hal : addr % M.granularity = 0) :
    (∃ x, addr ≤ x ∧ x < addr + 2 * M.granularity ∧ addressIsPoisoned M.toLayout σ x = true) ↔
      σ (addr / M.granularity + M.offset) ≠ 0 ∨ σ (addr / M.granularity + 1 + M.offset) ≠ 0 := by
  have hg0 := M.granularity_pos
  have h1 := exists_poisoned_granule_iff hwf (show addr + M.granularity ≤ _ by omega) hal
  have h2 := exists_poisoned_granule_iff hwf
    (show addr + M.granularity + M.granularity ≤ _ by omega) (by rw [Nat.add_mod_right, hal])
  rw [Nat.add_div_right _ hg0] at h2
  rw [← h1, ← h2]
  constructor
  · rintro ⟨x, hx1, hx2, hx⟩
    rcases lt_or_ge x (addr + M.granularity) with h | h
    · exact Or.inl ⟨x, hx1, h, hx⟩
    · exact Or.inr ⟨x, h, by omega, hx⟩
  · rintro (⟨x, hx1, hx2, hx⟩ | ⟨x, hx1, hx2, hx⟩)
    · exact ⟨x, hx1, by omega, hx⟩
    · exact ⟨x, by omega, by omega, hx⟩

/-- The callback body reports an aligned access exactly when one of its bytes is poisoned. -/
theorem callbackBody_iff (hwf : WellFormed M.toLayout σ)
    (hsize : size ∈ ({1, 2, 4, 8, 16} : Finset ℕ)) (hal : addr % min size M.granularity = 0)
    (hle : addr + size ≤ M.kHighMemEnd) :
    asanMemoryAccessCallbackBody M.toLayout σ size addr = true ↔
      ∃ x, addr ≤ x ∧ x < addr + size ∧ addressIsPoisoned M.toLayout σ x = true := by
  have hg := M.granularity_ge
  have hs : 0 < size := by
    simp only [Finset.mem_insert, Finset.mem_singleton] at hsize
    omega
  rcases lt_trichotomy size M.granularity with hlt | rfl | hgt
  · rw [min_eq_left hlt.le] at hal
    have hin := mod_add_size_le hsize hlt.le hal
    rw [callbackBody_iff_of_lt hwf hle hs hlt hin, exists_poisoned_iff_acc hs hle hin]
  · rw [min_self] at hal
    rw [callbackBody_iff_of_eq (by omega), exists_poisoned_granule_iff hwf hle hal]
  · -- The only access of more than a granule is one of 16 bytes with granules of 8.
    obtain ⟨rfl, h8⟩ : size = 2 * M.granularity ∧ M.granularity = 8 := by
      have hpow : M.granularity = 2^M.scale := rfl
      have h3 := M.scale_mem.1
      simp only [Finset.mem_insert, Finset.mem_singleton] at hsize
      rcases Nat.lt_or_ge M.scale 4 with h | h
      · have : M.granularity = 8 := M.granularity_eq_eight (by omega)
        omega
      · have : 2^4 ≤ M.granularity := Nat.pow_le_pow_right (by norm_num) h
        omega
    rw [min_eq_right hgt.le] at hal
    rw [callbackBody_iff_of_gt (by omega) hgt, exists_poisoned_two_granules_iff hwf hle hal]

/-- The region check on an aligned access of a fixed size is exact, unless the next granule is not
application memory or the poisoned byte is address zero. -/
theorem regionContract_of_access (hwf : WellFormed M.toLayout σ)
    (hsize : size ∈ ({1, 2, 4, 8, 16} : Finset ℕ)) (hal : addr % min size M.granularity = 0)
    (h1 : M.addrIsInMem addr = true) (h2 : M.addrIsInMem (addr + size) = true)
    (hb : M.addrIsInMem (Word.roundUpTo 64 addr M.granularity) = true)
    (h0 : ¬ (addr = 0 ∧ addressIsPoisoned M.toLayout σ 0 = true)) :
    RegionContract M.toLayout σ addr size (asanRegionIsPoisoned M.toLayout σ addr size) := by
  have hle := M.le_of_addrIsInMem h2
  have hg0 := M.granularity_pos
  have hs : 0 < size ∧ size ≤ 16 := by
    simp only [Finset.mem_insert, Finset.mem_singleton] at hsize
    omega
  refine (regionContract_iff hwf hs.1 h1 h2).mpr ⟨hb, fun h => ?_, fun h => ?_, h0⟩
  · -- The access is far shorter than what `mem_is_zero` accepts.
    have hlong := h.2.2
    rw [M.roundDownTo_eq hle, M.roundUpTo_eq (by omega)] at hlong
    have hup : addr ≤ (addr + M.granularity - 1) / M.granularity * M.granularity := by
      have := Nat.div_add_mod (addr + M.granularity - 1) M.granularity
      have := Nat.mod_lt (addr + M.granularity - 1) hg0
      rw [Nat.mul_comm]
      omega
    have hdown := Nat.div_mul_le_self (addr + size) M.granularity
    omega
  · -- An access that does not start at a granule boundary does not reach the next one.
    obtain ⟨hm1, hm2, -⟩ := h
    rw [M.roundUpTo_eq (by omega)] at hm1 hm2
    have haddr := Nat.div_add_mod addr M.granularity
    have hupper : (addr + M.granularity - 1) / M.granularity * M.granularity ≤
        addr + M.granularity - 1 := Nat.div_mul_le_self _ _
    rcases le_or_gt M.granularity size with hge | hlt
    · rw [min_eq_right hge] at hal
      rw [hal] at haddr
      have hlt' : M.granularity - 1 < M.granularity := by omega
      rw [← haddr, Nat.add_zero, Nat.add_sub_assoc hg0, Nat.mul_add_div hg0, Nat.div_eq_of_lt hlt',
        Nat.add_zero, Nat.mul_comm] at hm1
      omega
    · rw [min_eq_left hlt.le] at hal
      have hin := mod_add_size_le hsize hlt.le hal
      have hq : addr / M.granularity + 1 ≤ (addr + M.granularity - 1) / M.granularity := by
        rw [Nat.succ_le_iff, Nat.div_lt_iff_lt_mul hg0]
        exact hm1
      have := Nat.mul_le_mul_right M.granularity hq
      rw [Nat.succ_mul, Nat.mul_comm] at this
      omega

end Access

/-- An access of 1, 2, 4, 8 or 16 bytes, aligned by its size or by the granularity, in application
memory with the byte after it: the body of the fixed-size callback reports it exactly when one of its
bytes is poisoned. If also the granule boundary at or above its start is application memory and it is
not an access to a poisoned byte at address zero, then `__asan_region_is_poisoned` returns a nonzero
address exactly then, and the callback of variable size accepts and rejects the same accesses. -/
theorem access_callbacks_agree (M : Mapping) (σ : Mem) (hwf : WellFormed M.toLayout σ) (size : ℕ)
    (hsize : size ∈ ({1, 2, 4, 8, 16} : Finset ℕ)) (addr : ℕ)
    (hal : addr % min size M.granularity = 0)
    (hmem : ∀ a, addr ≤ a → a ≤ addr + size → M.addrIsInMem a = true) :
    (asanMemoryAccessCallbackBody M.toLayout σ size addr = true ↔
      ∃ x, addr ≤ x ∧ x < addr + size ∧ addressIsPoisoned M.toLayout σ x = true) ∧
    (M.addrIsInMem (Word.roundUpTo 64 addr M.granularity) = true →
      ¬ (addr = 0 ∧ addressIsPoisoned M.toLayout σ 0 = true) →
      (∃ bad, asanRegionIsPoisoned M.toLayout σ addr size = .ok bad ∧
        (bad ≠ 0 ↔ ∃ x, addr ≤ x ∧ x < addr + size ∧ addressIsPoisoned M.toLayout σ x = true)) ∧
      asanAccessN M.toLayout σ addr size =
        .ok (asanMemoryAccessCallbackBody M.toLayout σ size addr)) := by
  have h1 := hmem addr le_rfl (by omega)
  have h2 := hmem (addr + size) (by omega) le_rfl
  have hbody := callbackBody_iff hwf hsize hal (M.le_of_addrIsInMem h2)
  refine ⟨hbody, fun hb h0 => ?_⟩
  obtain ⟨bad, hrun, hzero, -⟩ := regionContract_of_access hwf hsize hal h1 h2 hb h0
  have hbad : bad ≠ 0 ↔
      ∃ x, addr ≤ x ∧ x < addr + size ∧ addressIsPoisoned M.toLayout σ x = true := by
    rw [ne_eq, hzero]
    push Not
    simp only [Bool.not_eq_false]
  refine ⟨⟨bad, hrun, hbad⟩, ?_⟩
  unfold asanAccessN
  rw [hrun]
  refine congrArg Except.ok (Bool.eq_iff_iff.mpr ?_)
  rw [hbody, ← hbad, bne_iff_ne]

/-- A four-byte access to the end of the partial granule is reported by either callback. -/
theorem access_callbacks_agree_partialGranule :
    (∃ x, 0x1004 ≤ x ∧ x < 0x1004 + 4 ∧
      addressIsPoisoned Mapping.linuxX64.toLayout partialGranule x = true) ∧
    asanAccessN Mapping.linuxX64.toLayout partialGranule 0x1004 4 =
      .ok (asanMemoryAccessCallbackBody Mapping.linuxX64.toLayout partialGranule 4 0x1004) := by
  obtain ⟨hbody, hregion⟩ := access_callbacks_agree Mapping.linuxX64 partialGranule
    partialGranule_wellFormed 4 (by decide) 0x1004 (by decide)
    (fun a _ h => linuxX64_lowMem (by omega))
  exact ⟨hbody.mp (by decide), (hregion (by decide) (by decide)).2⟩

/-- The callbacks of fixed and of variable size disagree on a poisoned byte at address zero, and the
one of variable size fails on a byte of the last granule of low memory. -/
theorem access_callbacks_disagree :
    (∀ a, 0 ≤ a → a ≤ 0 + 1 → Mapping.linuxX64.addrIsInMem a = true) ∧
    asanMemoryAccessCallbackBody Mapping.linuxX64.toLayout
      (Mem.set (fun _ => 0) (Mapping.linuxX64.MEM_TO_SHADOW 0) kAsanUserPoisonedMemoryMagic) 1 0 =
        true ∧
    asanAccessN Mapping.linuxX64.toLayout
      (Mem.set (fun _ => 0) (Mapping.linuxX64.MEM_TO_SHADOW 0) kAsanUserPoisonedMemoryMagic) 0 1 =
        .ok false ∧
    (∀ a, 0x7fff7ff9 ≤ a → a ≤ 0x7fff7ff9 + 1 → Mapping.linuxX64.addrIsInMem a = true) ∧
    asanMemoryAccessCallbackBody Mapping.linuxX64.toLayout (fun _ => 0) 1 0x7fff7ff9 = false ∧
    asanAccessN Mapping.linuxX64.toLayout (fun _ => 0) 0x7fff7ff9 1 = .error .check := by
  refine ⟨fun a _ h => linuxX64_lowMem (by omega), by decide, by decide,
    fun a _ h => linuxX64_lowMem (by omega), by decide, by decide⟩

end Tasan.Asan
