import Tasan.Asan.Shadow

/-!
# Contiguous containers

`__sanitizer_annotate_contiguous_container` with `FixUnalignedStorage`, and
`__sanitizer_verify_contiguous_container` with `FindBadAddress`, of `asan_poisoning.cpp`.

The invariant `Annotated` gives the access map of each granule of a storage that holds a container
`[beg, end)`: a granule with live bytes is addressable up to the end of the container, a granule
without is addressable up to the start of the storage, and a granule outside the annotated part of the
storage is as it was. It serves the double-ended containers as well. The part of each function after
`FixUnalignedStorage` has one formula for the access map, and the step lemmas compare the formula with
the invariant, granule by granule, for granules of 8 bytes.
-/

namespace Tasan.Asan

/-- The bounds of the old and of the new container. -/
@[ext]
structure Bounds where
  oldBeg : ℕ
  oldEnd : ℕ
  newBeg : ℕ
  newEnd : ℕ

/-- The four bounds clipped by one function. -/
def Bounds.map (f : ℕ → ℕ) (b : Bounds) : Bounds where
  oldBeg := f b.oldBeg
  oldEnd := f b.oldEnd
  newBeg := f b.newBeg
  newEnd := f b.newEnd

/-- The first half of `FixUnalignedStorage`: the last unaligned granule is ignored if the storage is
followed by an unpoisoned byte, because its prefix cannot be poisoned. -/
def fixUnalignedEnd (L : Layout) (σ : Mem) (storageEnd : ℕ) (b : Bounds) : Bounds :=
  if L.addrIsAlignedByGranularity storageEnd then b
  else
    let endDown := Word.roundDownTo 64 storageEnd L.granularity
    if (b.oldEnd ≠ b.newEnd ∧ endDown < max b.oldEnd b.newEnd ∨
        b.oldBeg ≠ b.newBeg ∧ endDown < max b.oldBeg b.newBeg) ∧
        addressIsPoisoned L σ storageEnd = false then
      b.map (min endDown)
    else b

/-- The second half of `FixUnalignedStorage`: the first unaligned granule needs special handling only
if we had bytes there before and will have none after. -/
def fixUnalignedBeg (L : Layout) (σ : Mem) (storageBeg : ℕ) (b : Bounds) : Option (Mem × Bounds) :=
  if L.addrIsAlignedByGranularity storageBeg then some (σ, b)
  else
    let begUp := Word.roundUpTo 64 storageBeg L.granularity
    if (b.newBeg = b.newEnd ∨ begUp ≤ b.newBeg) ∧ b.oldBeg ≠ b.oldEnd ∧ b.oldBeg < begUp then do
      -- Keep granule prefix outside of the storage unpoisoned.
      let begDown := Word.roundDownTo 64 storageBeg L.granularity
      let shadow ← L.memToShadow begDown
      return (σ.set shadow (BitVec.ofNat 8 (storageBeg - begDown)), b.map (max begUp))
    else some (σ, b)

/-- `FixUnalignedStorage`. -/
def fixUnalignedStorage (L : Layout) (σ : Mem) (storageBeg storageEnd : ℕ) (b : Bounds) :
    Option (Mem × Bounds) :=
  fixUnalignedBeg L σ storageBeg (fixUnalignedEnd L σ storageEnd b)

/-- The whole granules of the new state: `[a, b1)` is good, `[b2, c)` is bad. -/
def annotateGranules (C : Config) (σ : Mem) (a b1 b2 c : ℕ) : Option Mem :=
  if a < b1 then poisonShadow C σ a (b1 - a) 0
  else if b2 < c then poisonShadow C σ b2 (c - b2) kAsanContiguousContainerOOBMagic
  else some σ

/-- `__sanitizer_annotate_contiguous_container` after `FixUnalignedStorage`, without its `DCHECK`. -/
def annotateEnd (C : Config) (σ : Mem) (oldEnd newEnd : ℕ) : Option Mem := do
  let L := C.mapping.toLayout
  let a := Word.roundDownTo 64 (min oldEnd newEnd) L.granularity
  let c := Word.roundUpTo 64 (max oldEnd newEnd) L.granularity
  let b1 := Word.roundDownTo 64 newEnd L.granularity
  let b2 := Word.roundUpTo 64 newEnd L.granularity
  let σ ← annotateGranules C σ a b1 b2 c
  if b1 = b2 then return σ
  else do
    -- `[b1, b2)` is partially good.
    check (b2 - b1 == L.granularity)
    let shadow ← L.memToShadow b1
    return σ.set shadow (BitVec.ofNat 8 (newEnd - b1))

/-- `__sanitizer_annotate_contiguous_container`. -/
def annotateContiguousContainer (C : Config) (σ : Mem) (storageBeg storageEnd oldMid newMid : ℕ) :
    Option Mem :=
  if !C.detectContainerOverflow then some σ
  else do
    -- `ReportBadParamsToAnnotateContiguousContainer` does not return.
    check (storageBeg ≤ oldMid && storageBeg ≤ newMid && oldMid ≤ storageEnd && newMid ≤ storageEnd)
    check (storageEnd - storageBeg ≤ 2^40)
    if oldMid = newMid then return σ
    else do
      let (σ, b) ← fixUnalignedStorage C.mapping.toLayout σ storageBeg storageEnd
        ⟨storageBeg, oldMid, storageBeg, newMid⟩
      annotateEnd C σ b.oldEnd b.newEnd

/-- `FindBadAddress`, with zero for the null pointer. -/
def findBadAddress (L : Layout) (σ : Mem) (begin «end» : ℕ) (poisoned : Bool) : Option ℕ :=
  if «end» < begin then none
  else
    let scan := ((List.range' begin («end» - begin)).find?
      (fun i => addressIsPoisoned L σ i != poisoned)).getD 0
    if 32 * 2 < «end» - begin then do
      let bad ← findBadAddress L σ begin (begin + 32) poisoned
      if bad ≠ 0 then return bad
      else do
        let bad ← findBadAddress L σ («end» - 32) «end» poisoned
        if bad ≠ 0 then return bad else return scan
    else some scan
termination_by «end» - begin

/-- The part of a storage that annotations can describe: without its last unaligned granule if the
byte after the storage is unpoisoned. -/
def annotationsEnd (L : Layout) (σ : Mem) («end» : ℕ) : ℕ :=
  if !L.addrIsAlignedByGranularity «end» && !addressIsPoisoned L σ «end» then
    Word.roundDownTo 64 «end» L.granularity
  else «end»

/-- `__sanitizer_contiguous_container_find_bad_address`. -/
def contiguousContainerFindBadAddress (C : Config) (σ : Mem) (beg mid «end» : ℕ) : Option ℕ :=
  let L := C.mapping.toLayout
  if !C.detectContainerOverflow then some 0
  else do
    check (beg ≤ mid)
    check (mid ≤ «end»)
    let annotationsEnd := annotationsEnd L σ «end»
    let beg := min beg annotationsEnd
    let mid := min mid annotationsEnd
    let bad ← findBadAddress L σ beg mid false
    if bad ≠ 0 then return bad
    else do
      let bad ← findBadAddress L σ mid annotationsEnd true
      if bad ≠ 0 then return bad
      else findBadAddress L σ annotationsEnd «end» false

/-- `__sanitizer_verify_contiguous_container`. -/
def verifyContiguousContainer (C : Config) (σ : Mem) (beg mid «end» : ℕ) : Option Bool := do
  let bad ← contiguousContainerFindBadAddress C σ beg mid «end»
  return bad == 0

/-- A storage in application memory. -/
structure Storage (M : Mapping) where
  /-- The first byte. -/
  beg : ℕ
  /-- The byte after the last one. -/
  «end» : ℕ
  /-- The bounds are in order. -/
  beg_le : beg ≤ «end»
  /-- The storage starts in application memory, also when it is empty. -/
  beg_mem : M.addrIsInMem beg = true
  /-- Every byte is application memory. -/
  inMem : ∀ a, beg ≤ a → a < «end» → M.addrIsInMem a = true

/-! ## `FindBadAddress` -/

theorem findBadAddress_eq_zero (L : Layout) (σ : Mem) {begin «end» : ℕ} (poisoned : Bool)
    (hle : begin ≤ «end»)
    (h : ∀ x, begin ≤ x → x < «end» → addressIsPoisoned L σ x = poisoned) :
    findBadAddress L σ begin «end» poisoned = some 0 := by
  induction hn : «end» - begin using Nat.strong_induction_on generalizing begin «end» with
  | _ n ih =>
    have hscan : (List.range' begin («end» - begin)).find?
        (fun i => addressIsPoisoned L σ i != poisoned) = none := by
      refine List.find?_eq_none.mpr fun x hx => ?_
      obtain ⟨h1, h2⟩ := List.mem_range'_1.mp hx
      simp [h x h1 (by omega)]
    rw [findBadAddress, if_neg (by omega), hscan]
    split_ifs with hlong
    · -- The two ends are checked first.
      rw [ih 32 (by omega) (by omega) (fun x h1 h2 => h x h1 (by omega)) (by omega),
        ih 32 (by omega) (by omega) (fun x h1 h2 => h x (by omega) h2) (by omega)]
      rfl
    · rfl

/-! ## Granules of 8 bytes -/

theorem roundDownTo_eight {x : ℕ} (h : x < 2^64) : Word.roundDownTo 64 x 8 = x / 8 * 8 :=
  Word.roundDownTo_two_pow (a := 3) (by norm_num) h

theorem roundUpTo_eight {x : ℕ} (h : x + 7 < 2^64) : Word.roundUpTo 64 x 8 = (x + 7) / 8 * 8 :=
  Word.roundUpTo_of_lt (a := 3) (by norm_num) h

section Eight

variable {C : Config} (h8 : C.mapping.granularity = 8)

include h8

theorem poisonShadow_eight (hc : C.canPoisonMemory = true) (σ : Mem) {p r : ℕ} (value : Byte)
    (hr : p ≤ r) (h0 : 0 < r) (h1 : C.mapping.addrIsInMem (8 * p) = true)
    (h2 : C.mapping.addrIsInMem (8 * (r - 1)) = true) :
    poisonShadow C σ (p * 8) (r * 8 - p * 8) value =
      some (σ.fill (p + C.mapping.offset) (r - p) value) := by
  have h := poisonShadow_eq_some C hc σ p (r - p) value (by omega) (by rw [h8]; exact h1)
    (by rw [h8, show p + (r - p) - 1 = r - 1 by omega]; exact h2)
  rw [h8] at h
  rw [← h, ← Nat.sub_mul, Nat.mul_comm, Nat.mul_comm 8 (r - p)]

theorem memToShadow_eight {q : ℕ} (h : C.mapping.addrIsInMem (8 * q) = true) :
    C.mapping.memToShadow (q * 8) = some (q + C.mapping.offset) := by
  have hs := C.mapping.memToShadow_eq_some h
  rw [h8, Nat.mul_div_cancel_left _ (by norm_num)] at hs
  rw [Nat.mul_comm, hs]

theorem addrIsAligned_eight (a : ℕ) :
    C.mapping.addrIsAlignedByGranularity a = true ↔ a % 8 = 0 := by
  rw [C.mapping.addrIsAlignedByGranularity_iff, h8]

theorem acc_set_eight (σ : Mem) (q₀ q : ℕ) {k : ℕ} (h0 : 0 < k) (hk : k < 8) :
    C.mapping.acc (σ.set (q₀ + C.mapping.offset) (BitVec.ofNat 8 k)) q =
      if q = q₀ then k else C.mapping.acc σ q := by
  rw [C.mapping.acc_set, h8, prefixLen_ofNat h0 hk.le (by omega)]

/-- The access map after the end of a container moves from `old` to `new`. -/
theorem annotateEnd_acc (hc : C.canPoisonMemory = true) {σ : Mem}
    (hwf : WellFormed C.mapping.toLayout σ) {old new : ℕ} (hlt : max old new ≤ 2^63)
    (hmem : ∀ q, min old new / 8 ≤ q → 8 * q < max old new →
      C.mapping.addrIsInMem (8 * q) = true) :
    ∃ σ', annotateEnd C σ old new = some σ' ∧ WellFormed C.mapping.toLayout σ' ∧
      ∀ q, C.mapping.acc σ' q =
        if new % 8 ≠ 0 ∧ q = new / 8 then new % 8
        else if old / 8 ≤ q ∧ q < new / 8 then 8
        else if new ≤ 8 * q ∧ 8 * q < old then 0
        else C.mapping.acc σ q := by
  have hneg : kAsanContiguousContainerOOBMagic.toInt < 0 := by decide
  -- The whole granules.
  obtain ⟨σ₁, hrun₁, hwf₁, hacc₁⟩ : ∃ σ₁, annotateGranules C σ (min old new / 8 * 8) (new / 8 * 8)
      ((new + 7) / 8 * 8) ((max old new + 7) / 8 * 8) = some σ₁ ∧
      WellFormed C.mapping.toLayout σ₁ ∧ ∀ q, C.mapping.acc σ₁ q =
        if old / 8 ≤ q ∧ q < new / 8 then 8
        else if new ≤ 8 * q ∧ 8 * q < old then 0
        else C.mapping.acc σ q := by
    unfold annotateGranules
    split_ifs with hgrow hshrink
    · rw [poisonShadow_eight h8 hc σ 0 (by omega) (by omega) (hmem _ (by omega) (by omega))
        (hmem _ (by omega) (by omega))]
      refine ⟨_, rfl, hwf.fill _ _ (Or.inl rfl), fun q => ?_⟩
      rw [C.mapping.acc_fill, prefixLen_zero, h8]
      split_ifs <;> first | rfl | omega
    · rw [poisonShadow_eight h8 hc σ _ (by omega) (by omega) (hmem _ (by omega) (by omega))
        (hmem _ (by omega) (by omega))]
      refine ⟨_, rfl, hwf.fill _ _ (wellFormedByte_of_neg hneg), fun q => ?_⟩
      rw [C.mapping.acc_fill, prefixLen_of_neg hneg]
      split_ifs <;> first | rfl | omega
    · refine ⟨σ, rfl, hwf, fun q => ?_⟩
      rw [if_neg (by omega), if_neg (by omega)]
  unfold annotateEnd
  dsimp only
  rw [h8, roundDownTo_eight (by omega), roundUpTo_eight (by omega), roundDownTo_eight (by omega),
    roundUpTo_eight (by omega), hrun₁]
  simp only [Option.bind_eq_bind, Option.bind_some]
  split_ifs with hal
  · refine ⟨σ₁, rfl, hwf₁, fun q => ?_⟩
    rw [hacc₁, if_neg (show ¬ (new % 8 ≠ 0 ∧ q = new / 8) by omega)]
  · -- The granule of the new end.
    have hk : new - new / 8 * 8 = new % 8 := by omega
    rw [memToShadow_eight h8 (hmem _ (by omega) (by omega)),
      show (new + 7) / 8 * 8 - new / 8 * 8 = 8 by omega, hk]
    have hwfk : WellFormedByte C.mapping.granularity (BitVec.ofNat 8 (new % 8)) :=
      wellFormedByte_ofNat (by omega) (by omega)
    refine ⟨_, rfl, hwf₁.set _ hwfk, fun q => ?_⟩
    rw [acc_set_eight h8 _ _ _ (by omega) (by omega), hacc₁]
    split_ifs <;> first | rfl | omega

theorem fixUnalignedEnd_eight (σ : Mem) {storageEnd : ℕ} (hlt : storageEnd < 2^64) (b : Bounds) :
    fixUnalignedEnd C.mapping.toLayout σ storageEnd b =
      if storageEnd % 8 ≠ 0 ∧
          (b.oldEnd ≠ b.newEnd ∧ storageEnd / 8 * 8 < max b.oldEnd b.newEnd ∨
            b.oldBeg ≠ b.newBeg ∧ storageEnd / 8 * 8 < max b.oldBeg b.newBeg) ∧
          addressIsPoisoned C.mapping.toLayout σ storageEnd = false then
        b.map (min (storageEnd / 8 * 8))
      else b := by
  unfold fixUnalignedEnd
  simp only [h8, roundDownTo_eight hlt, addrIsAligned_eight h8]
  by_cases h : storageEnd % 8 = 0
  · simp [h]
  · simp [h]

theorem fixUnalignedBeg_eight (σ : Mem) {storageBeg : ℕ} (hlt : storageBeg + 7 < 2^64)
    (hmem : C.mapping.addrIsInMem storageBeg = true) (b : Bounds) :
    fixUnalignedBeg C.mapping.toLayout σ storageBeg b =
      if storageBeg % 8 ≠ 0 ∧ (b.newBeg = b.newEnd ∨ (storageBeg + 7) / 8 * 8 ≤ b.newBeg) ∧
          b.oldBeg ≠ b.oldEnd ∧ b.oldBeg < (storageBeg + 7) / 8 * 8 then
        some (σ.set (storageBeg / 8 + C.mapping.offset) (BitVec.ofNat 8 (storageBeg % 8)),
          b.map (max ((storageBeg + 7) / 8 * 8)))
      else some (σ, b) := by
  have hdown : C.mapping.addrIsInMem (8 * (storageBeg / 8)) = true := by
    rw [C.mapping.addrIsInMem_congr (b := storageBeg) (by rw [h8]; omega), hmem]
  unfold fixUnalignedBeg
  have hlt' : storageBeg < 2^64 := by omega
  simp only [h8, roundDownTo_eight hlt', roundUpTo_eight hlt, addrIsAligned_eight h8]
  by_cases h : storageBeg % 8 = 0
  · simp [h]
  · simp only [memToShadow_eight h8 hdown, h, if_false, ne_eq, not_false_eq_true, true_and,
      show storageBeg - storageBeg / 8 * 8 = storageBeg % 8 by omega]
    rfl

end Eight

/-! ## The invariant -/

/-- Granule `q` holds bytes of the container `[beg, end)`. -/
abbrev Live (beg «end» q : ℕ) : Prop := beg < «end» ∧ 8 * q < «end» ∧ beg < 8 * q + 8

/-- The access map of a storage that holds the container `[beg, end)`, from the one before the storage
was annotated. -/
def containerAcc (sb annEnd : ℕ) (A : ℕ → ℕ) (beg «end» q : ℕ) : ℕ :=
  if sb / 8 ≤ q ∧ 8 * q < annEnd then
    if Live beg «end» q then min 8 («end» - 8 * q) else sb - 8 * q
  else A q

theorem containerAcc_min {sb se annEnd : ℕ} (A : ℕ → ℕ) {«end» : ℕ} (hsb : sb ≤ se)
    (hE : annEnd = se / 8 * 8 ∨ annEnd = se) (he : «end» ≤ se) (q : ℕ) :
    containerAcc sb annEnd A sb «end» q = containerAcc sb annEnd A sb (min annEnd «end») q := by
  unfold containerAcc
  split_ifs <;> omega

theorem containerAcc_annotateEnd {sb annEnd old new q : ℕ} {A : ℕ → ℕ} (ho : old ≤ annEnd)
    (hn : new ≤ annEnd)
    (hb : sb ≤ old ∧ sb ≤ new ∨ old = annEnd ∧ new = annEnd ∧ annEnd % 8 = 0)
    (hclip : sb % 8 = 0 ∨ new ≠ sb ∨ old = sb) :
    (if new % 8 ≠ 0 ∧ q = new / 8 then new % 8
      else if old / 8 ≤ q ∧ q < new / 8 then 8
      else if new ≤ 8 * q ∧ 8 * q < old then 0
      else containerAcc sb annEnd A sb old q) = containerAcc sb annEnd A sb new q := by
  unfold containerAcc
  split_ifs <;> omega

theorem containerAcc_annotateEnd_cut {sb annEnd old up q : ℕ} {A : ℕ → ℕ} (ho : old ≤ annEnd)
    (hb : sb < old) (hup : up = (sb + 7) / 8 * 8) :
    (if up % 8 ≠ 0 ∧ q = up / 8 then up % 8
      else if max up old / 8 ≤ q ∧ q < up / 8 then 8
      else if up ≤ 8 * q ∧ 8 * q < max up old then 0
      else if q = sb / 8 then sb % 8
      else containerAcc sb annEnd A sb old q) = containerAcc sb annEnd A sb sb q := by
  unfold containerAcc
  split_ifs <;> omega

/-- The shadow `σ` annotates the container `[beg, end)` of a storage that was addressable in `σ₀`. -/
structure Annotated (M : Mapping) (S : Storage M) (σ₀ σ : Mem) (beg «end» : ℕ) : Prop where
  /-- The shadow is well formed. -/
  wellFormed : WellFormed M.toLayout σ
  /-- The access map of each granule. -/
  acc_eq : ∀ q, M.acc σ q =
    containerAcc S.beg (annotationsEnd M.toLayout σ₀ S.end) (M.acc σ₀) beg «end» q

namespace Storage

variable {M : Mapping} (S : Storage M)

theorem end_le : S.end ≤ M.kHighMemEnd + 1 := by
  rcases eq_or_lt_of_le S.beg_le with h | h
  · have := M.le_of_addrIsInMem S.beg_mem
    omega
  · have := M.le_of_addrIsInMem (S.inMem (S.end - 1) (by omega) (by omega))
    omega

theorem end_le_of_mod (h8 : M.granularity = 8) (h : S.end % 8 ≠ 0) : S.end ≤ M.kHighMemEnd := by
  rcases eq_or_lt_of_le S.beg_le with he | hlt
  · rw [← he]
    exact M.le_of_addrIsInMem S.beg_mem
  · have hlast := S.inMem (S.end - 1) (by omega) (by omega)
    rw [M.addrIsInMem_congr (b := S.end) (by rw [h8]; omega)] at hlast
    exact M.le_of_addrIsInMem hlast

theorem granule_inMem (h8 : M.granularity = 8) {q : ℕ} (h1 : S.beg / 8 ≤ q) (h2 : 8 * q < S.end) :
    M.addrIsInMem (8 * q) = true := by
  rcases Nat.lt_or_ge (8 * q) S.beg with h | h
  · rw [M.addrIsInMem_congr (b := S.beg) (by rw [h8]; omega)]
    exact S.beg_mem
  · exact S.inMem _ h h2

theorem annotationsEnd_eight (h8 : M.granularity = 8) (σ : Mem) :
    annotationsEnd M.toLayout σ S.end =
      if S.end % 8 ≠ 0 ∧ addressIsPoisoned M.toLayout σ S.end = false then S.end / 8 * 8
      else S.end := by
  have hle := S.end_le
  have hlt := M.kHighMemEnd_lt
  unfold annotationsEnd
  rw [h8, roundDownTo_eight (by omega)]
  simp only [Bool.and_eq_true, Bool.not_eq_true', ← Bool.not_eq_true,
    M.addrIsAlignedByGranularity_iff, h8, ne_eq]

theorem annotationsEnd_cases (h8 : M.granularity = 8) (σ : Mem) :
    S.end % 8 ≠ 0 ∧ addressIsPoisoned M.toLayout σ S.end = false ∧
        annotationsEnd M.toLayout σ S.end = S.end / 8 * 8 ∨
      (S.end % 8 ≠ 0 → addressIsPoisoned M.toLayout σ S.end = true) ∧
        annotationsEnd M.toLayout σ S.end = S.end := by
  rw [S.annotationsEnd_eight h8]
  by_cases h : S.end % 8 ≠ 0 ∧ addressIsPoisoned M.toLayout σ S.end = false
  · exact Or.inl ⟨h.1, h.2, if_pos h⟩
  · exact Or.inr ⟨fun hmod => by simpa [hmod] using h, if_neg h⟩

theorem annotationsEnd_tail (h8 : M.granularity = 8) (σ : Mem) (x : ℕ)
    (h1 : annotationsEnd M.toLayout σ S.end ≤ x) (h2 : x < S.end) :
    addressIsPoisoned M.toLayout σ x = false := by
  rcases S.annotationsEnd_cases h8 σ with ⟨hmod, hp, hE⟩ | ⟨-, hE⟩
  · have hend := S.end_le_of_mod h8 hmod
    rw [M.addressIsPoisoned_eq_false_iff σ (by omega), h8] at hp ⊢
    rw [show x / 8 = S.end / 8 by omega]
    omega
  · omega

theorem acc_of_addressable (h8 : M.granularity = 8) {σ : Mem}
    (h : ∀ x, S.beg ≤ x → x < S.end → addressIsPoisoned M.toLayout σ x = false) {q : ℕ}
    (h1 : S.beg / 8 ≤ q) (h2 : 8 * q + 8 ≤ S.end) : M.acc σ q = 8 := by
  have hle := S.end_le
  have hacc := M.acc_le σ q
  have hlast := h (8 * q + 7) (by omega) (by omega)
  rw [M.addressIsPoisoned_eq_false_iff σ (by omega), h8, show (8 * q + 7) / 8 = q by omega] at hlast
  omega

theorem acc_of_end_poisoned (h8 : M.granularity = 8) {σ : Mem} (hlt : S.beg < S.end)
    (h : ∀ x, S.beg ≤ x → x < S.end → addressIsPoisoned M.toLayout σ x = false)
    (hmod : S.end % 8 ≠ 0) (hp : addressIsPoisoned M.toLayout σ S.end = true) :
    M.acc σ (S.end / 8) = S.end % 8 := by
  have hle := S.end_le_of_mod h8 hmod
  have hlast := h (S.end - 1) (by omega) (by omega)
  rw [M.addressIsPoisoned_eq_false_iff σ (by omega), h8,
    show (S.end - 1) / 8 = S.end / 8 by omega] at hlast
  rw [M.addressIsPoisoned_iff σ hle, h8] at hp
  omega

end Storage

theorem Annotated.init {M : Mapping} (h8 : M.granularity = 8) (S : Storage M) (hlt : S.beg < S.end)
    {σ : Mem} (hwf : WellFormed M.toLayout σ)
    (h : ∀ x, S.beg ≤ x → x < S.end → addressIsPoisoned M.toLayout σ x = false) :
    Annotated M S σ σ S.beg S.end := by
  refine ⟨hwf, fun q => ?_⟩
  unfold containerAcc
  by_cases hfull : S.beg / 8 ≤ q ∧ 8 * q + 8 ≤ S.end
  · rw [S.acc_of_addressable h8 h hfull.1 hfull.2]
    split_ifs <;> omega
  · rcases S.annotationsEnd_cases h8 σ with ⟨-, -, hE⟩ | ⟨hp, hE⟩ <;> rw [hE]
    · rw [if_neg (by omega)]
    · by_cases hlast : S.beg / 8 ≤ q ∧ 8 * q < S.end
      · -- The last granule, which a poisoned byte follows.
        have hmod : S.end % 8 ≠ 0 := by omega
        rw [if_pos hlast, if_pos (by omega), show q = S.end / 8 by omega,
          S.acc_of_end_poisoned h8 hlt h hmod (hp hmod)]
        omega
      · rw [if_neg hlast]

namespace Annotated

variable {M : Mapping} {S : Storage M} {σ₀ σ : Mem} {beg «end» : ℕ}

theorem end_eq (h : Annotated M S σ₀ σ beg «end») (h8 : M.granularity = 8) (hle : «end» ≤ S.end)
    (hmod : S.end % 8 ≠ 0) :
    addressIsPoisoned M.toLayout σ S.end = addressIsPoisoned M.toLayout σ₀ S.end := by
  have hend := S.end_le_of_mod h8 hmod
  have hb := S.beg_le
  have hacc := h.acc_eq (S.end / 8)
  unfold containerAcc at hacc
  apply Bool.eq_iff_iff.mpr
  rw [M.addressIsPoisoned_iff σ hend, M.addressIsPoisoned_iff σ₀ hend, h8]
  rcases S.annotationsEnd_cases h8 σ₀ with ⟨-, -, hE⟩ | ⟨hp, hE⟩
  · rw [hE, if_neg (by omega)] at hacc
    rw [hacc]
  · have hp := hp hmod
    rw [M.addressIsPoisoned_iff σ₀ hend, h8] at hp
    rw [hE, if_pos (by omega)] at hacc
    split_ifs at hacc <;> omega

theorem eq_false (h : Annotated M S σ₀ σ beg «end») (h8 : M.granularity = 8) (hb : S.beg ≤ beg)
    (he : «end» ≤ S.end)
    (h₀ : ∀ x, S.beg ≤ x → x < S.end → addressIsPoisoned M.toLayout σ₀ x = false) {x : ℕ}
    (h1 : beg ≤ x) (h2 : x < «end») : addressIsPoisoned M.toLayout σ x = false := by
  have hle := S.end_le
  have hx := h₀ x (by omega) (by omega)
  rw [M.addressIsPoisoned_eq_false_iff _ (by omega), h8] at hx ⊢
  rw [h.acc_eq]
  unfold containerAcc
  split_ifs <;> omega

theorem eq_true (h : Annotated M S σ₀ σ beg «end») (h8 : M.granularity = 8) {x : ℕ}
    (h1 : S.beg ≤ x) (h2 : x < annotationsEnd M.toLayout σ₀ S.end)
    (hx : ¬ Live beg «end» (x / 8) ∨ «end» ≤ x) : addressIsPoisoned M.toLayout σ x = true := by
  have hle := S.end_le
  have hE := S.annotationsEnd_cases h8 σ₀
  rw [M.addressIsPoisoned_iff _ (by omega), h8, h.acc_eq]
  unfold containerAcc
  split_ifs <;> omega

theorem annotationsEnd_eq (h : Annotated M S σ₀ σ beg «end») (h8 : M.granularity = 8)
    (hle : «end» ≤ S.end) :
    annotationsEnd M.toLayout σ S.end = annotationsEnd M.toLayout σ₀ S.end := by
  rw [S.annotationsEnd_eight h8, S.annotationsEnd_eight h8]
  by_cases hmod : S.end % 8 = 0
  · simp [hmod]
  · rw [h.end_eq h8 hle hmod]

/-- Annotations change no byte outside the storage. -/
theorem frame (h : Annotated M S σ₀ σ beg «end») (h8 : M.granularity = 8) (hlt : S.beg < S.end)
    (hb : S.beg ≤ beg) (he : «end» ≤ S.end)
    (h₀ : ∀ x, S.beg ≤ x → x < S.end → addressIsPoisoned M.toLayout σ₀ x = false) {x : ℕ}
    (hx : x ≤ M.kHighMemEnd) (hout : x < S.beg ∨ S.end ≤ x) :
    addressIsPoisoned M.toLayout σ x = addressIsPoisoned M.toLayout σ₀ x := by
  have hle := S.end_le
  apply Bool.eq_iff_iff.mpr
  rw [M.addressIsPoisoned_iff σ hx, M.addressIsPoisoned_iff σ₀ hx, h8, h.acc_eq]
  unfold containerAcc
  split_ifs with hin hlive
  all_goals try rfl
  all_goals rcases hout with hout | hout
  -- The granule of the first byte, which is addressable up to that byte.
  any_goals
    have hfirst := h₀ S.beg le_rfl hlt
    rw [M.addressIsPoisoned_eq_false_iff σ₀ (by omega), h8, show S.beg / 8 = x / 8 by omega] at hfirst
    omega
  -- The granule of the byte after the storage, which is poisoned.
  all_goals
    rcases S.annotationsEnd_cases h8 σ₀ with ⟨-, -, hE⟩ | ⟨hp, hE⟩ <;> rw [hE] at hin
    · omega
    · have hp := hp (by omega)
      rw [M.addressIsPoisoned_iff σ₀ (by omega), h8, show S.end / 8 = x / 8 by omega] at hp
      omega

end Annotated

/-! ## One-ended containers -/

section Contiguous

variable {C : Config} (h8 : C.mapping.granularity = 8) (hc : C.canPoisonMemory = true)
  (hd : C.detectContainerOverflow = true) {S : Storage C.mapping} (hlen : S.end - S.beg ≤ 2^40)
  {σ₀ : Mem}

include h8 hc hd hlen

/-- Moving the end of a container from `old` to `new`. -/
theorem annotateContiguousContainer_step {σ : Mem} {old new : ℕ}
    (h : Annotated C.mapping S σ₀ σ S.beg old) (ho1 : S.beg ≤ old) (ho2 : old ≤ S.end)
    (hn1 : S.beg ≤ new) (hn2 : new ≤ S.end) :
    ∃ σ', annotateContiguousContainer C σ S.beg S.end old new = some σ' ∧
      Annotated C.mapping S σ₀ σ' S.beg new := by
  have hle := S.end_le
  have hlt := C.mapping.kHighMemEnd_lt
  have hmem := fun q => S.granule_inMem h8 (q := q)
  have hend := h.end_eq h8 ho2
  unfold annotateContiguousContainer
  simp only [hd, Bool.not_true, Bool.false_eq_true, if_false, check, ho1, ho2, hn1, hn2, hlen,
    decide_true, Bool.and_self, if_true, Option.bind_eq_bind, Option.bind_some]
  split_ifs with heq
  · subst heq
    exact ⟨σ, rfl, h⟩
  · -- The bounds are clipped to the annotated part.
    have hEle : annotationsEnd C.mapping.toLayout σ₀ S.end = S.end / 8 * 8 ∨
        annotationsEnd C.mapping.toLayout σ₀ S.end = S.end := by
      have := S.annotationsEnd_cases h8 σ₀
      omega
    obtain ⟨b, hb, hfix⟩ : ∃ b, (b = S.beg ∨ b = min (annotationsEnd C.mapping.toLayout σ₀ S.end) S.beg) ∧
        fixUnalignedEnd C.mapping.toLayout σ S.end ⟨S.beg, old, S.beg, new⟩ =
          ⟨b, min (annotationsEnd C.mapping.toLayout σ₀ S.end) old, b,
            min (annotationsEnd C.mapping.toLayout σ₀ S.end) new⟩ := by
      rw [fixUnalignedEnd_eight h8 σ (by omega)]
      rcases S.annotationsEnd_cases h8 σ₀ with ⟨hmod, hp, hE⟩ | ⟨hp, hE⟩ <;> rw [hE]
      · by_cases hmax : S.end / 8 * 8 < max old new
        · exact ⟨_, Or.inr rfl, if_pos ⟨hmod, Or.inl ⟨heq, hmax⟩, by rw [hend hmod, hp]⟩⟩
        · refine ⟨_, Or.inl rfl, ?_⟩
          rw [if_neg (by simp only; omega), min_eq_right (by omega), min_eq_right (by omega)]
      · refine ⟨_, Or.inl rfl, ?_⟩
        rw [if_neg, min_eq_right ho2, min_eq_right hn2]
        rintro ⟨hmod, -, hne⟩
        rw [hend hmod, hp hmod] at hne
        exact absurd hne (by decide)
    have hacc : ∀ q, C.mapping.acc σ q = _ := fun q =>
      (h.acc_eq q).trans (containerAcc_min _ S.beg_le hEle ho2 q)
    have hnew := containerAcc_min (C.mapping.acc σ₀) S.beg_le hEle hn2
    unfold fixUnalignedStorage
    rw [hfix, fixUnalignedBeg_eight h8 σ (by omega) S.beg_mem]
    generalize hE : annotationsEnd C.mapping.toLayout σ₀ S.end = E at hEle hb hacc hnew ⊢
    have ho := min_le_left E old
    have hn := min_le_left E new
    have hbn : S.beg ≤ min E old ∧ S.beg ≤ min E new ∨ min E old = E ∧ min E new = E ∧ E % 8 = 0 := by
      omega
    generalize min E old = o at hacc ho hbn ⊢
    generalize min E new = n at hnew hn hbn ⊢
    split_ifs with hclip
    · -- The container becomes empty, and the granule of the start gets its final value.
      simp only [Bounds.map, Option.bind_some] at hclip ⊢
      obtain ⟨hsb, hbo, rfl⟩ : S.beg % 8 ≠ 0 ∧ S.beg < o ∧ n = S.beg := by omega
      have hwf₁ : WellFormed C.mapping.toLayout
          (σ.set (S.beg / 8 + C.mapping.offset) (BitVec.ofNat 8 (S.beg % 8))) :=
        h.wellFormed.set _ (wellFormedByte_ofNat (by omega) (by omega))
      rw [max_eq_left (show S.beg ≤ (S.beg + 7) / 8 * 8 by omega)]
      obtain ⟨σ', hrun, hwf', hacc'⟩ := annotateEnd_acc h8 hc hwf₁
        (show max (max ((S.beg + 7) / 8 * 8) o) ((S.beg + 7) / 8 * 8) ≤ 2^63 by omega)
        (fun q h1 h2 => hmem q (by omega) (by omega))
      refine ⟨σ', hrun, hwf', fun q => ?_⟩
      rw [hE, hnew, hacc', acc_set_eight h8 _ _ _ (by omega) (by omega), hacc]
      exact containerAcc_annotateEnd_cut ho hbo rfl
    · obtain ⟨σ', hrun, hwf', hacc'⟩ := annotateEnd_acc h8 hc h.wellFormed
        (show max o n ≤ 2^63 by omega) (fun q h1 h2 => hmem q (by omega) (by omega))
      refine ⟨σ', hrun, hwf', fun q => ?_⟩
      rw [hE, hnew, hacc', hacc]
      exact containerAcc_annotateEnd ho hn hbn (by simp only at hclip; omega)

omit hc hlen in
/-- The verifier accepts a storage whose bytes are addressable before `mid` and poisoned from there to
the end of the annotated part. -/
theorem verifyContiguousContainer_eq_true {σ : Mem} {mid : ℕ} (h1 : S.beg ≤ mid) (h2 : mid ≤ S.end)
    (hgood : ∀ x, S.beg ≤ x → x < mid → addressIsPoisoned C.mapping.toLayout σ x = false)
    (hbad : ∀ x, mid ≤ x → x < annotationsEnd C.mapping.toLayout σ S.end →
      addressIsPoisoned C.mapping.toLayout σ x = true) :
    verifyContiguousContainer C σ S.beg mid S.end = some true := by
  have hcases := S.annotationsEnd_cases h8 σ
  have htail := S.annotationsEnd_tail h8 σ
  unfold verifyContiguousContainer contiguousContainerFindBadAddress
  simp only [hd, Bool.not_true, Bool.false_eq_true, if_false, check, h1, h2, decide_true, if_true,
    Option.bind_eq_bind, Option.bind_some]
  generalize annotationsEnd C.mapping.toLayout σ S.end = E at *
  rw [findBadAddress_eq_zero _ _ false (by omega) fun x hx1 hx2 => hgood x (by omega) (by omega),
    findBadAddress_eq_zero _ _ true (by omega) fun x hx1 hx2 => hbad x (by omega) hx2,
    findBadAddress_eq_zero _ _ false (by omega) htail]
  rfl

end Contiguous

/-- The calls that move the end of a container through a list of positions. -/
def annotateRun (C : Config) (storageBeg storageEnd : ℕ) (σ : Mem) (old : ℕ) : List ℕ → Option Mem
  | [] => some σ
  | new :: mids => do
    let σ ← annotateContiguousContainer C σ storageBeg storageEnd old new
    annotateRun C storageBeg storageEnd σ new mids

theorem annotateRun_empty (C : Config) {sb : ℕ} (σ : Mem) (mids : List ℕ)
    (hm : ∀ m ∈ mids, sb ≤ m ∧ m ≤ sb) : annotateRun C sb sb σ sb mids = some σ := by
  induction mids with
  | nil => rfl
  | cons m mids ih =>
    obtain rfl : m = sb := by
      have := hm m (by simp)
      omega
    have hone : annotateContiguousContainer C σ m m m m = some σ := by
      unfold annotateContiguousContainer
      simp [check]
    rw [annotateRun, hone]
    exact ih fun m' h => hm m' (by simp [h])

theorem annotateRun_annotated {C : Config} (h8 : C.mapping.granularity = 8)
    (hc : C.canPoisonMemory = true) (hd : C.detectContainerOverflow = true) {S : Storage C.mapping}
    (hlen : S.end - S.beg ≤ 2^40) {σ₀ σ : Mem} {old : ℕ} (mids : List ℕ)
    (h : Annotated C.mapping S σ₀ σ S.beg old) (ho1 : S.beg ≤ old) (ho2 : old ≤ S.end)
    (hm : ∀ m ∈ mids, S.beg ≤ m ∧ m ≤ S.end) :
    ∃ σ', annotateRun C S.beg S.end σ old mids = some σ' ∧
      Annotated C.mapping S σ₀ σ' S.beg (mids.getLastD old) := by
  induction mids generalizing σ old with
  | nil => exact ⟨σ, rfl, h⟩
  | cons m mids ih =>
    obtain ⟨hm1, hm2⟩ := hm m (by simp)
    obtain ⟨σ₁, hrun, h₁⟩ := annotateContiguousContainer_step h8 hc hd hlen h ho1 ho2 hm1 hm2
    obtain ⟨σ', hrun', h'⟩ := ih h₁ hm1 hm2 fun m' hm' => hm m' (by simp [hm'])
    refine ⟨σ', ?_, ?_⟩
    · rw [annotateRun, hrun]
      exact hrun'
    · rw [List.getLastD_cons]
      exact h'

/-- From a well-formed shadow in which a storage of at most `2^40` bytes is addressable, every sequence
of calls of `__sanitizer_annotate_contiguous_container` that move the end of the container within the
storage returns, and then the bytes before the end are addressable, those from the end to the end of
the annotated part are poisoned, no byte outside the storage has changed, and
`__sanitizer_verify_contiguous_container` returns true. -/
theorem contiguous_container_annotated (C : Config) (h8 : C.mapping.scale = 3)
    (hc : C.canPoisonMemory = true) (hd : C.detectContainerOverflow = true) (S : Storage C.mapping)
    (hlen : S.end - S.beg ≤ 2^40) (σ₀ : Mem) (hwf : WellFormed C.mapping.toLayout σ₀)
    (h₀ : ∀ x, S.beg ≤ x → x < S.end → addressIsPoisoned C.mapping.toLayout σ₀ x = false)
    (mids : List ℕ) (hm : ∀ m ∈ mids, S.beg ≤ m ∧ m ≤ S.end) :
    ∃ σ, annotateRun C S.beg S.end σ₀ S.end mids = some σ ∧
      (∀ x, S.beg ≤ x → x < mids.getLastD S.end →
        addressIsPoisoned C.mapping.toLayout σ x = false) ∧
      (∀ x, mids.getLastD S.end ≤ x →
        x < (if S.end % 8 = 0 ∨ addressIsPoisoned C.mapping.toLayout σ₀ S.end = true then S.end
          else S.end / 8 * 8) →
        addressIsPoisoned C.mapping.toLayout σ x = true) ∧
      (∀ x ≤ C.mapping.kHighMemEnd, x < S.beg ∨ S.end ≤ x →
        addressIsPoisoned C.mapping.toLayout σ x = addressIsPoisoned C.mapping.toLayout σ₀ x) ∧
      verifyContiguousContainer C σ S.beg (mids.getLastD S.end) S.end = some true := by
  have h8 := C.mapping.granularity_eq_eight h8
  have hE : annotationsEnd C.mapping.toLayout σ₀ S.end =
      if S.end % 8 = 0 ∨ addressIsPoisoned C.mapping.toLayout σ₀ S.end = true then S.end
      else S.end / 8 * 8 := by
    rw [S.annotationsEnd_eight h8]
    by_cases hmod : S.end % 8 = 0 <;> cases addressIsPoisoned C.mapping.toLayout σ₀ S.end <;>
      simp [hmod]
  have hlast : S.beg ≤ mids.getLastD S.end ∧ mids.getLastD S.end ≤ S.end := by
    rw [List.getLastD_eq_getLast?]
    cases hl : mids.getLast? with
    | none => exact ⟨S.beg_le, le_rfl⟩
    | some m => exact hm m (List.mem_of_getLast? hl)
  rw [← hE]
  rcases eq_or_lt_of_le S.beg_le with heq | hlt
  · -- An empty storage.
    have hcases := S.annotationsEnd_cases h8 σ₀
    refine ⟨σ₀, ?_, fun x h1 h2 => h₀ x h1 (by omega), fun x h1 h2 => by omega, fun _ _ _ => rfl,
      verifyContiguousContainer_eq_true h8 hd hlast.1 hlast.2 (fun x h1 h2 => h₀ x h1 (by omega))
        (fun x h1 h2 => by omega)⟩
    rw [← heq] at hm ⊢
    exact annotateRun_empty C σ₀ mids hm
  · have hinit := Annotated.init h8 S hlt hwf h₀
    obtain ⟨σ, hrun, h⟩ := annotateRun_annotated h8 hc hd hlen mids hinit S.beg_le le_rfl hm
    have hgood := fun x => h.eq_false (x := x) h8 le_rfl hlast.2 h₀
    have hbad : ∀ x, mids.getLastD S.end ≤ x → x < annotationsEnd C.mapping.toLayout σ₀ S.end →
        addressIsPoisoned C.mapping.toLayout σ x = true :=
      fun x h1 h2 => h.eq_true h8 (by omega) h2 (Or.inr h1)
    refine ⟨σ, hrun, hgood, hbad, fun x hx hout => h.frame h8 hlt le_rfl hlast.2 h₀ hx hout,
      verifyContiguousContainer_eq_true h8 hd hlast.1 hlast.2 hgood ?_⟩
    rw [h.annotationsEnd_eq h8 hlast.2]
    exact hbad

/-- A storage of 20 bytes from `0x1003` on x86-64 Linux. -/
def smallStorage : Storage Mapping.linuxX64 where
  beg := 0x1003
  «end» := 0x1017
  beg_le := by decide
  beg_mem := by decide
  inMem := fun a _ h => (Mapping.linuxX64_addrIsInMem a).mpr (by omega)

/-- A container that shrinks to nothing and grows again. -/
theorem contiguous_container_annotated_linuxX64 :
    ∃ σ, annotateRun Config.linuxX64 0x1003 0x1017 (fun _ => 0) 0x1017 [0x100d, 0x1003, 0x1011] =
        some σ ∧
      verifyContiguousContainer Config.linuxX64 σ 0x1003 0x1011 0x1017 = some true := by
  obtain ⟨σ, hrun, -, -, -, hverify⟩ := contiguous_container_annotated Config.linuxX64 rfl rfl rfl
    smallStorage (by decide) (fun _ => 0) (wellFormed_zero _) (fun _ _ _ => by rfl)
    [0x100d, 0x1003, 0x1011] (by decide)
  exact ⟨σ, hrun, hverify⟩

/-- The sanity check on the length fails for a storage of more than `2^40` bytes. -/
theorem contiguous_container_too_long :
    (∀ a, 0x10007fff8000 ≤ a → a < 0x10007fff8000 + 2^40 + 8 →
      Mapping.linuxX64.addrIsInMem a = true ∧
        addressIsPoisoned Mapping.linuxX64.toLayout (fun _ => 0) a = false) ∧
    annotateRun Config.linuxX64 0x10007fff8000 (0x10007fff8000 + 2^40 + 8) (fun _ => 0)
      (0x10007fff8000 + 2^40 + 8) [0x10007fff8000] = none := by
  refine ⟨fun a h1 h2 => ⟨(Mapping.linuxX64_addrIsInMem a).mpr (by omega), rfl⟩, by decide⟩

end Tasan.Asan
