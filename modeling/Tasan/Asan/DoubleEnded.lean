import Tasan.Asan.Container

/-!
# Double-ended contiguous containers

`__sanitizer_annotate_double_ended_contiguous_container` and its verifier, of `asan_poisoning.cpp`.
After `FixUnalignedStorage` the function either poisons the old container and unpoisons the new one,
when the two do not intersect, or moves the two ends one after the other. `annotateBounds_acc` is one
formula for both branches: a granule with live bytes of the new container is addressable up to its
end, a granule that had live bytes and has none any more is poisoned, and no other granule is written.

`PoisonShadow` of no granules checks the granule before its start, so that a storage needs a granule
of application memory on either side.
-/

namespace Tasan.Asan

/-- Poisoning the old container. -/
def poisonOldContainer (C : Config) (σ : Mem) (oldBeg oldEnd : ℕ) : Option Mem :=
  if oldBeg ≠ oldEnd then
    let a := Word.roundDownTo 64 oldBeg C.mapping.granularity
    let b := Word.roundUpTo 64 oldEnd C.mapping.granularity
    poisonShadow C σ a (b - a) kAsanContiguousContainerOOBMagic
  else some σ

/-- The shadow value of the last granule of the new container, if that is a partial one. -/
def storeRemainder (C : Config) (σ : Mem) (newEnd : ℕ) : Option Mem :=
  if C.mapping.addrIsAlignedByGranularity newEnd then some σ
  else do
    let a := Word.roundDownTo 64 newEnd C.mapping.granularity
    let shadow ← C.mapping.memToShadow a
    return σ.set shadow (BitVec.ofNat 8 (newEnd - a))

/-- Unpoisoning the new container. -/
def unpoisonNewContainer (C : Config) (σ : Mem) (newBeg newEnd : ℕ) : Option Mem :=
  if newBeg ≠ newEnd then do
    let a := Word.roundDownTo 64 newBeg C.mapping.granularity
    let b := Word.roundDownTo 64 newEnd C.mapping.granularity
    let σ ← poisonShadow C σ a (b - a) 0
    storeRemainder C σ newEnd
  else some σ

/-- Moving the start of a container that intersects the old one. -/
def moveContainerBeg (C : Config) (σ : Mem) (oldBeg newBeg : ℕ) : Option Mem :=
  let old := Word.roundDownTo 64 oldBeg C.mapping.granularity
  let new := Word.roundDownTo 64 newBeg C.mapping.granularity
  if newBeg < oldBeg then
    -- Round down because we can't poison prefixes.
    poisonShadow C σ new (old - new) 0
  else if oldBeg < newBeg then
    -- Round down and poison `[a, old_beg)` because it was unpoisoned only as a prefix.
    poisonShadow C σ old (new - old) kAsanContiguousContainerOOBMagic
  else some σ

/-- Moving the end of a container that intersects the old one. -/
def moveContainerEnd (C : Config) (σ : Mem) (oldEnd newEnd : ℕ) : Option Mem :=
  if oldEnd < newEnd then do
    let a := Word.roundDownTo 64 oldEnd C.mapping.granularity
    let c := Word.roundDownTo 64 newEnd C.mapping.granularity
    let σ ← poisonShadow C σ a (c - a) 0
    storeRemainder C σ newEnd
  else if newEnd < oldEnd then do
    let a2 := Word.roundUpTo 64 newEnd C.mapping.granularity
    -- Round up to poison entire granule as we had nothing in `[old_end, c2)`.
    let c2 := Word.roundUpTo 64 oldEnd C.mapping.granularity
    let σ ← poisonShadow C σ a2 (c2 - a2) kAsanContiguousContainerOOBMagic
    storeRemainder C σ newEnd
  else some σ

/-- `__sanitizer_annotate_double_ended_contiguous_container` after `FixUnalignedStorage`. -/
def annotateBounds (C : Config) (σ : Mem) (b : Bounds) : Option Mem :=
  if b.oldBeg = b.oldEnd ∨ b.newBeg = b.newEnd ∨ b.newEnd ≤ b.oldBeg ∨ b.oldEnd ≤ b.newBeg then do
    let σ ← poisonOldContainer C σ b.oldBeg b.oldEnd
    unpoisonNewContainer C σ b.newBeg b.newEnd
  else do
    -- Intersection of old and new containers is not empty.
    check (b.newBeg < b.oldEnd)
    check (b.oldBeg < b.newEnd)
    let σ ← moveContainerBeg C σ b.oldBeg b.newBeg
    moveContainerEnd C σ b.oldEnd b.newEnd

/-- `__sanitizer_annotate_double_ended_contiguous_container`. -/
def annotateDoubleEndedContiguousContainer (C : Config) (σ : Mem) (storageBeg storageEnd : ℕ)
    (b : Bounds) : Option Mem :=
  if !C.detectContainerOverflow then some σ
  else do
    -- `ReportBadParamsToAnnotateDoubleEndedContiguousContainer` does not return.
    check (b.oldBeg ≤ b.oldEnd && b.newBeg ≤ b.newEnd && storageBeg ≤ b.newBeg &&
      b.newEnd ≤ storageEnd && storageBeg ≤ b.oldBeg && b.oldEnd ≤ storageEnd)
    check (storageEnd - storageBeg ≤ 2^40)
    if b.oldBeg = b.oldEnd ∧ b.newBeg = b.newEnd ∨ b.oldBeg = b.newBeg ∧ b.oldEnd = b.newEnd then
      return σ
    else do
      let (σ, b) ← fixUnalignedStorage C.mapping.toLayout σ storageBeg storageEnd b
      annotateBounds C σ b

/-- `__sanitizer_double_ended_contiguous_container_find_bad_address`. -/
def doubleEndedContiguousContainerFindBadAddress (C : Config) (σ : Mem)
    (storageBeg containerBeg containerEnd storageEnd : ℕ) : Option ℕ :=
  let L := C.mapping.toLayout
  if !C.detectContainerOverflow then some 0
  else do
    -- The prefix of the first granule of the container is unpoisoned.
    let beg :=
      if containerBeg ≠ containerEnd then
        max storageBeg (Word.roundDownTo 64 containerBeg L.granularity)
      else containerBeg
    let annotationsEnd := annotationsEnd L σ storageEnd
    let storageBeg := min storageBeg annotationsEnd
    let beg := min beg annotationsEnd
    let «end» := min containerEnd annotationsEnd
    let bad ← findBadAddress L σ storageBeg beg true
    if bad ≠ 0 then return bad
    else do
      let bad ← findBadAddress L σ beg «end» false
      if bad ≠ 0 then return bad
      else do
        let bad ← findBadAddress L σ «end» annotationsEnd true
        if bad ≠ 0 then return bad
        else findBadAddress L σ annotationsEnd storageEnd false

/-- `__sanitizer_verify_double_ended_contiguous_container`. -/
def verifyDoubleEndedContiguousContainer (C : Config) (σ : Mem)
    (storageBeg containerBeg containerEnd storageEnd : ℕ) : Option Bool := do
  let bad ←
    doubleEndedContiguousContainerFindBadAddress C σ storageBeg containerBeg containerEnd storageEnd
  return bad == 0

/-! ## The access map after `annotateBounds` -/

/-- The access map of granule `q` after the container changes from `[ob, oe)` to `[nb, ne)`, from its
value `a` before. -/
def boundsAcc (ob oe nb ne a q : ℕ) : ℕ :=
  if Live nb ne q then
    if Live ob oe q ∧ min 8 (oe - 8 * q) = min 8 (ne - 8 * q) then a else min 8 (ne - 8 * q)
  else if Live ob oe q then 0
  else a

theorem boundsAcc_of_disjoint {ob oe nb ne : ℕ} (a q : ℕ)
    (h : ob = oe ∨ nb = ne ∨ ne ≤ ob ∨ oe ≤ nb) :
    (if Live nb ne q then min 8 (ne - 8 * q) else if Live ob oe q then 0 else a) =
      boundsAcc ob oe nb ne a q := by
  unfold boundsAcc
  split_ifs <;> first | rfl | omega

theorem boundsAcc_of_intersect {ob oe nb ne : ℕ} (a q : ℕ) (h1 : nb < oe) (h2 : ob < ne)
    (ho : ob < oe) (hn : nb < ne) :
    (if oe ≠ ne ∧ ne % 8 ≠ 0 ∧ q = ne / 8 then ne % 8
      else if oe / 8 ≤ q ∧ q < ne / 8 then 8
      else if ne ≤ 8 * q ∧ 8 * q < oe then 0
      else if nb / 8 ≤ q ∧ q < ob / 8 then 8
      else if ob / 8 ≤ q ∧ q < nb / 8 then 0
      else a) = boundsAcc ob oe nb ne a q := by
  unfold boundsAcc
  split_ifs <;> first | rfl | omega

section Bounds

variable {C : Config} (h8 : C.mapping.granularity = 8) (hc : C.canPoisonMemory = true) {lo hi : ℕ}
  (hlo : 0 < lo) (hhi : 8 * hi ≤ 2^63)
  (hmem : ∀ q, lo ≤ q + 1 → q ≤ hi → C.mapping.addrIsInMem (8 * q) = true)
  {σ : Mem} (hwf : WellFormed C.mapping.toLayout σ)

include h8 hlo hhi hmem hwf

omit hlo in
theorem storeRemainder_acc {new : ℕ} (h1 : lo ≤ new / 8) (h2 : new ≤ 8 * hi) :
    ∃ σ', storeRemainder C σ new = some σ' ∧ WellFormed C.mapping.toLayout σ' ∧
      ∀ q, C.mapping.acc σ' q =
        if new % 8 ≠ 0 ∧ q = new / 8 then new % 8 else C.mapping.acc σ q := by
  unfold storeRemainder
  simp only [h8, addrIsAligned_eight h8, roundDownTo_eight (show new < 2^64 by omega)]
  split_ifs with hal
  · refine ⟨σ, rfl, hwf, fun q => ?_⟩
    rw [if_neg (by omega)]
  · rw [memToShadow_eight h8 (hmem _ (by omega) (by omega)),
      show new - new / 8 * 8 = new % 8 by omega]
    refine ⟨_, rfl, hwf.set _ (wellFormedByte_ofNat (by omega) (by omega)), fun q => ?_⟩
    rw [acc_set_eight h8 _ _ _ (by omega) (by omega)]
    split_ifs <;> first | rfl | omega

include hc

omit hhi in
theorem poisonShadow_acc (value : Byte) {p r : ℕ} (h1 : lo ≤ p) (h2 : p ≤ r) (h3 : r ≤ hi)
    (hv : WellFormedByte 8 value) :
    ∃ σ', poisonShadow C σ (p * 8) (r * 8 - p * 8) value = some σ' ∧
      WellFormed C.mapping.toLayout σ' ∧
      ∀ q, C.mapping.acc σ' q =
        if p ≤ q ∧ q < r then prefixLen 8 value else C.mapping.acc σ q := by
  refine ⟨_, poisonShadow_eight h8 hc σ value h2 (by omega) (hmem _ (by omega) (by omega))
    (hmem _ (by omega) (by omega)), hwf.fill _ _ (by rw [h8]; exact hv), fun q => ?_⟩
  rw [C.mapping.acc_fill, h8]
  split_ifs <;> first | rfl | omega

theorem poisonOldContainer_acc {beg «end» : ℕ} (hle : beg ≤ «end») (h1 : lo ≤ beg / 8)
    (h2 : «end» ≤ 8 * hi) :
    ∃ σ', poisonOldContainer C σ beg «end» = some σ' ∧ WellFormed C.mapping.toLayout σ' ∧
      ∀ q, C.mapping.acc σ' q = if Live beg «end» q then 0 else C.mapping.acc σ q := by
  have hneg : kAsanContiguousContainerOOBMagic.toInt < 0 := by decide
  unfold poisonOldContainer
  simp only [h8, roundDownTo_eight (show beg < 2^64 by omega),
    roundUpTo_eight (show «end» + 7 < 2^64 by omega)]
  split_ifs with hne
  · obtain ⟨σ', hrun, hwf', hacc⟩ := poisonShadow_acc h8 hc hlo hmem hwf
      kAsanContiguousContainerOOBMagic h1 (show beg / 8 ≤ («end» + 7) / 8 by omega) (by omega)
      (wellFormedByte_of_neg hneg)
    refine ⟨σ', hrun, hwf', fun q => ?_⟩
    rw [hacc, prefixLen_of_neg hneg]
    split_ifs <;> first | rfl | omega
  · refine ⟨σ, rfl, hwf, fun q => ?_⟩
    rw [if_neg (by omega)]

theorem unpoisonNewContainer_acc {beg «end» : ℕ} (hle : beg ≤ «end») (h1 : lo ≤ beg / 8)
    (h2 : «end» ≤ 8 * hi) :
    ∃ σ', unpoisonNewContainer C σ beg «end» = some σ' ∧ WellFormed C.mapping.toLayout σ' ∧
      ∀ q, C.mapping.acc σ' q =
        if Live beg «end» q then min 8 («end» - 8 * q) else C.mapping.acc σ q := by
  unfold unpoisonNewContainer
  simp only [h8, roundDownTo_eight (show beg < 2^64 by omega),
    roundDownTo_eight (show «end» < 2^64 by omega)]
  split_ifs with hne
  · obtain ⟨σ₁, hrun₁, hwf₁, hacc₁⟩ := poisonShadow_acc h8 hc hlo hmem hwf
      0 h1 (show beg / 8 ≤ «end» / 8 by omega) (by omega) (Or.inl rfl)
    obtain ⟨σ', hrun', hwf', hacc'⟩ :=
      storeRemainder_acc h8 hhi hmem hwf₁ (show lo ≤ «end» / 8 by omega) h2
    refine ⟨σ', by rw [hrun₁]; exact hrun', hwf', fun q => ?_⟩
    rw [hacc', hacc₁, prefixLen_zero]
    split_ifs <;> first | rfl | omega
  · refine ⟨σ, rfl, hwf, fun q => ?_⟩
    rw [if_neg (by omega)]

/-- The start of the container moved. -/
theorem moveContainerBeg_acc {old new : ℕ} (h1 : lo ≤ old / 8) (h2 : lo ≤ new / 8)
    (h3 : old ≤ 8 * hi) (h4 : new ≤ 8 * hi) :
    ∃ σ', moveContainerBeg C σ old new = some σ' ∧ WellFormed C.mapping.toLayout σ' ∧
      ∀ q, C.mapping.acc σ' q =
        if new / 8 ≤ q ∧ q < old / 8 then 8
        else if old / 8 ≤ q ∧ q < new / 8 then 0
        else C.mapping.acc σ q := by
  have hneg : kAsanContiguousContainerOOBMagic.toInt < 0 := by decide
  unfold moveContainerBeg
  simp only [h8, roundDownTo_eight (show old < 2^64 by omega),
    roundDownTo_eight (show new < 2^64 by omega)]
  split_ifs with hlt hgt
  · obtain ⟨σ', hrun, hwf', hacc⟩ := poisonShadow_acc h8 hc hlo hmem hwf
      0 h2 (show new / 8 ≤ old / 8 by omega) (by omega) (Or.inl rfl)
    refine ⟨σ', hrun, hwf', fun q => ?_⟩
    rw [hacc, prefixLen_zero]
    split_ifs <;> first | rfl | omega
  · obtain ⟨σ', hrun, hwf', hacc⟩ := poisonShadow_acc h8 hc hlo hmem hwf
      kAsanContiguousContainerOOBMagic h1 (show old / 8 ≤ new / 8 by omega) (by omega)
      (wellFormedByte_of_neg hneg)
    refine ⟨σ', hrun, hwf', fun q => ?_⟩
    rw [hacc, prefixLen_of_neg hneg]
    split_ifs <;> first | rfl | omega
  · refine ⟨σ, rfl, hwf, fun q => ?_⟩
    rw [if_neg (by omega), if_neg (by omega)]

/-- The end of the container moved. -/
theorem moveContainerEnd_acc {old new : ℕ} (h1 : lo ≤ old / 8) (h2 : lo ≤ new / 8)
    (h3 : old ≤ 8 * hi) (h4 : new ≤ 8 * hi) :
    ∃ σ', moveContainerEnd C σ old new = some σ' ∧ WellFormed C.mapping.toLayout σ' ∧
      ∀ q, C.mapping.acc σ' q =
        if old ≠ new ∧ new % 8 ≠ 0 ∧ q = new / 8 then new % 8
        else if old / 8 ≤ q ∧ q < new / 8 then 8
        else if new ≤ 8 * q ∧ 8 * q < old then 0
        else C.mapping.acc σ q := by
  have hneg : kAsanContiguousContainerOOBMagic.toInt < 0 := by decide
  unfold moveContainerEnd
  simp only [h8, roundDownTo_eight (show old < 2^64 by omega),
    roundDownTo_eight (show new < 2^64 by omega), roundUpTo_eight (show old + 7 < 2^64 by omega),
    roundUpTo_eight (show new + 7 < 2^64 by omega)]
  split_ifs with hlt hgt
  · obtain ⟨σ₁, hrun₁, hwf₁, hacc₁⟩ := poisonShadow_acc h8 hc hlo hmem hwf
      0 h1 (show old / 8 ≤ new / 8 by omega) (by omega) (Or.inl rfl)
    obtain ⟨σ', hrun', hwf', hacc'⟩ := storeRemainder_acc h8 hhi hmem hwf₁ h2 h4
    refine ⟨σ', by rw [hrun₁]; exact hrun', hwf', fun q => ?_⟩
    rw [hacc', hacc₁, prefixLen_zero]
    split_ifs <;> first | rfl | omega
  · obtain ⟨σ₁, hrun₁, hwf₁, hacc₁⟩ := poisonShadow_acc h8 hc hlo hmem hwf
      kAsanContiguousContainerOOBMagic (show lo ≤ (new + 7) / 8 by omega)
      (show (new + 7) / 8 ≤ (old + 7) / 8 by omega) (by omega) (wellFormedByte_of_neg hneg)
    obtain ⟨σ', hrun', hwf', hacc'⟩ := storeRemainder_acc h8 hhi hmem hwf₁ h2 h4
    refine ⟨σ', by rw [hrun₁]; exact hrun', hwf', fun q => ?_⟩
    rw [hacc', hacc₁, prefixLen_of_neg hneg]
    split_ifs <;> first | rfl | omega
  · refine ⟨σ, rfl, hwf, fun q => ?_⟩
    rw [if_neg (by omega), if_neg (by omega), if_neg (by omega)]

/-- The function after `FixUnalignedStorage`: both branches write the same granules. -/
theorem annotateBounds_acc {ob oe nb ne : ℕ} (ho : ob ≤ oe) (hn : nb ≤ ne) (ho1 : lo ≤ ob / 8)
    (hn1 : lo ≤ nb / 8) (ho2 : oe ≤ 8 * hi) (hn2 : ne ≤ 8 * hi) :
    ∃ σ', annotateBounds C σ ⟨ob, oe, nb, ne⟩ = some σ' ∧ WellFormed C.mapping.toLayout σ' ∧
      ∀ q, C.mapping.acc σ' q = boundsAcc ob oe nb ne (C.mapping.acc σ q) q := by
  unfold annotateBounds
  dsimp only
  split_ifs with hdis
  · obtain ⟨σ₁, hrun₁, hwf₁, hacc₁⟩ := poisonOldContainer_acc h8 hc hlo hhi hmem hwf ho ho1 ho2
    obtain ⟨σ', hrun', hwf', hacc'⟩ := unpoisonNewContainer_acc h8 hc hlo hhi hmem hwf₁ hn hn1 hn2
    refine ⟨σ', by rw [hrun₁]; exact hrun', hwf', fun q => ?_⟩
    rw [hacc', hacc₁]
    exact boundsAcc_of_disjoint _ _ hdis
  · obtain ⟨σ₁, hrun₁, hwf₁, hacc₁⟩ := moveContainerBeg_acc h8 hc hlo hhi hmem hwf ho1 hn1
      (show ob ≤ 8 * hi by omega) (show nb ≤ 8 * hi by omega)
    obtain ⟨σ', hrun', hwf', hacc'⟩ := moveContainerEnd_acc h8 hc hlo hhi hmem hwf₁
      (show lo ≤ oe / 8 by omega) (show lo ≤ ne / 8 by omega) ho2 hn2
    have hc1 : check (decide (nb < oe)) = some () := by
      rw [decide_eq_true (by omega), check_true]
    have hc2 : check (decide (ob < ne)) = some () := by
      rw [decide_eq_true (by omega), check_true]
    refine ⟨σ', by rw [hc1, hc2, hrun₁]; exact hrun', hwf', fun q => ?_⟩
    rw [hacc', hacc₁]
    exact boundsAcc_of_intersect _ _ (by omega) (by omega) (by omega) (by omega)

end Bounds

/-! ## The step and the run -/

theorem containerAcc_min_min {sb se annEnd : ℕ} (A : ℕ → ℕ) {beg «end» : ℕ} (hb : sb ≤ beg)
    (hle : beg ≤ «end») (hE : annEnd = se / 8 * 8 ∨ annEnd = se) (he : «end» ≤ se) (q : ℕ) :
    containerAcc sb annEnd A beg «end» q =
      containerAcc sb annEnd A (min annEnd beg) (min annEnd «end») q := by
  unfold containerAcc
  split_ifs <;> omega

/-- The change of the bounds on a granule of a storage, when no bound is past the annotated part and
the granule of the start is not cut off. -/
theorem containerAcc_boundsAcc {sb annEnd ob oe nb ne q : ℕ} {A : ℕ → ℕ} (ho : oe ≤ annEnd)
    (hn : ne ≤ annEnd) (hnb : nb ≤ ne)
    (hb : sb ≤ ob ∧ sb ≤ nb ∨ ob = annEnd ∧ nb = annEnd)
    (hclip : sb % 8 = 0 ∨ nb ≠ ne ∧ nb < (sb + 7) / 8 * 8 ∨ ob = oe ∨ (sb + 7) / 8 * 8 ≤ ob) :
    boundsAcc ob oe nb ne (containerAcc sb annEnd A ob oe q) q =
      containerAcc sb annEnd A nb ne q := by
  unfold boundsAcc containerAcc
  by_cases hscope : sb / 8 ≤ q ∧ 8 * q < annEnd
  · rw [if_pos hscope, if_pos hscope]
    by_cases hl : Live nb ne q
    · rw [if_pos hl, if_pos hl]
      by_cases hl' : Live ob oe q
      · rw [if_pos hl']
        split_ifs with h
        · exact h.2
        · rfl
      · rw [if_neg (fun h => hl' h.1)]
    · rw [if_neg hl, if_neg hl]
      by_cases hl' : Live ob oe q
      · rw [if_pos hl']
        omega
      · rw [if_neg hl', if_neg hl']
  · rw [if_neg hscope, if_neg hscope, if_neg (by omega), if_neg (by omega)]

theorem containerAcc_boundsAcc_cut {sb annEnd up ob oe nb ne q : ℕ} {A : ℕ → ℕ} (ho : oe ≤ annEnd)
    (hn : ne ≤ annEnd) (hob : ob < oe) (hnb : nb ≤ ne) (hsb : sb ≤ ob ∧ sb ≤ nb)
    (hup : up = (sb + 7) / 8 * 8) (hclip : nb = ne ∨ up ≤ nb) (hobu : ob < up) :
    boundsAcc (max up ob) (max up oe) (max up nb) (max up ne)
        (if q = sb / 8 then sb % 8 else containerAcc sb annEnd A ob oe q) q =
      containerAcc sb annEnd A nb ne q := by
  have hnew : Live (max up nb) (max up ne) q ↔ Live nb ne q := by omega
  unfold boundsAcc
  by_cases hl : Live nb ne q
  · rw [if_pos (hnew.mpr hl)]
    unfold containerAcc
    split_ifs <;> omega
  · rw [if_neg (hnew.not.mpr hl)]
    unfold containerAcc
    rw [if_neg hl]
    split_ifs <;> omega

theorem containerAcc_boundsAcc_tail {sb annEnd ob nb e q : ℕ} {A : ℕ → ℕ} (hE : annEnd % 8 = 0)
    (he : annEnd < e) (hob : ob ≤ annEnd) (hnb : nb ≤ annEnd) (hb : sb ≤ ob ∧ sb ≤ nb)
    (hclip : sb % 8 = 0 ∨ nb < (sb + 7) / 8 * 8 ∨ (sb + 7) / 8 * 8 ≤ ob) :
    boundsAcc ob e nb e (containerAcc sb annEnd A ob e q) q = containerAcc sb annEnd A nb e q := by
  unfold boundsAcc containerAcc
  split_ifs <;> first | rfl | omega

theorem containerAcc_boundsAcc_tail_cut {sb annEnd up ob nb e q : ℕ} {A : ℕ → ℕ}
    (hE : annEnd % 8 = 0) (he : annEnd < e) (hnb : nb ≤ annEnd) (hb : sb ≤ ob)
    (hup : up = (sb + 7) / 8 * 8) (hclip : up ≤ nb) (hobu : ob < up) :
    boundsAcc (max up ob) (max up e) (max up nb) (max up e)
        (if q = sb / 8 then sb % 8 else containerAcc sb annEnd A ob e q) q =
      containerAcc sb annEnd A nb e q := by
  rw [max_eq_left hobu.le, max_eq_right (by omega), max_eq_right hclip]
  unfold boundsAcc containerAcc
  split_ifs <;> first | rfl | omega

/-- A granule of application memory lies on either side of the storage. -/
def Storage.Guarded {M : Mapping} (S : Storage M) : Prop :=
  8 ≤ S.beg ∧
    ∀ a, S.beg / 8 * 8 - 8 ≤ a → a < (S.end + 7) / 8 * 8 + 8 → M.addrIsInMem a = true

section DoubleEnded

variable {C : Config} (h8 : C.mapping.granularity = 8) (hc : C.canPoisonMemory = true)
  (hd : C.detectContainerOverflow = true) {S : Storage C.mapping} (hlen : S.end - S.beg ≤ 2^40)
  (hS : S.Guarded) {σ₀ σ : Mem}

theorem Storage.Guarded.granule_inMem (hS : S.Guarded) (q : ℕ) (h1 : S.beg / 8 ≤ q + 1)
    (h2 : q ≤ (S.end + 7) / 8) : C.mapping.addrIsInMem (8 * q) = true := by
  have := hS.1
  exact hS.2 _ (by omega) (by omega)

theorem Storage.Guarded.end_le (hS : S.Guarded) : 8 * ((S.end + 7) / 8) ≤ 2^63 := by
  have hle := S.beg_le
  have hlt := C.mapping.kHighMemEnd_lt
  have := C.mapping.le_of_addrIsInMem (hS.granule_inMem ((S.end + 7) / 8) (by omega) le_rfl)
  omega

include h8

/-- `FixUnalignedStorage` clips the bounds to the annotated part, unless the end is past it and does
not change. -/
theorem fixUnalignedEnd_cases {ob oe nb ne : ℕ} (h : Annotated C.mapping S σ₀ σ ob oe)
    (ho : ob ≤ oe) (ho2 : oe ≤ S.end) (hn : nb ≤ ne) (hn2 : ne ≤ S.end)
    (hne : ¬ (ob = nb ∧ oe = ne)) :
    fixUnalignedEnd C.mapping.toLayout σ S.end ⟨ob, oe, nb, ne⟩ =
        Bounds.map (min (annotationsEnd C.mapping.toLayout σ₀ S.end)) ⟨ob, oe, nb, ne⟩ ∨
      fixUnalignedEnd C.mapping.toLayout σ S.end ⟨ob, oe, nb, ne⟩ = ⟨ob, oe, nb, oe⟩ ∧ ne = oe ∧
        annotationsEnd C.mapping.toLayout σ₀ S.end % 8 = 0 ∧
        annotationsEnd C.mapping.toLayout σ₀ S.end < oe ∧
        ob ≤ annotationsEnd C.mapping.toLayout σ₀ S.end ∧
        nb ≤ annotationsEnd C.mapping.toLayout σ₀ S.end := by
  have hle := S.end_le
  have hlt := C.mapping.kHighMemEnd_lt
  have hend := h.end_eq h8 ho2
  rw [fixUnalignedEnd_eight h8 σ (by omega)]
  rcases S.annotationsEnd_cases h8 σ₀ with ⟨hmod, hp, hE⟩ | ⟨hp, hE⟩ <;> rw [hE]
  · by_cases hclip : oe ≠ ne ∧ S.end / 8 * 8 < max oe ne ∨ ob ≠ nb ∧ S.end / 8 * 8 < max ob nb
    · exact Or.inl (if_pos ⟨hmod, hclip, by rw [hend hmod, hp]⟩)
    · rw [if_neg (by tauto)]
      by_cases htail : S.end / 8 * 8 < oe
      · obtain rfl : ne = oe := by omega
        exact Or.inr ⟨rfl, rfl, by omega, htail, by omega, by omega⟩
      · refine Or.inl ?_
        simp only [Bounds.map, Bounds.mk.injEq]
        omega
  · refine Or.inl ?_
    rw [if_neg]
    · simp only [Bounds.map, Bounds.mk.injEq]
      omega
    · rintro ⟨hmod, -, hno⟩
      rw [hend hmod, hp hmod] at hno
      exact absurd hno (by decide)

include hc hS

omit σ₀ in
/-- The second half of `FixUnalignedStorage` and the rest of the function: the granule of the start of
the storage is either cut off, with its final value stored, or changed with the others. -/
theorem fixUnalignedBeg_annotateBounds (hwf : WellFormed C.mapping.toLayout σ) {ob oe nb ne : ℕ}
    (ho : ob ≤ oe) (hn : nb ≤ ne) (ho1 : S.beg / 8 ≤ ob / 8) (hn1 : S.beg / 8 ≤ nb / 8)
    (ho2 : oe ≤ S.end) (hn2 : ne ≤ S.end) :
    ∃ σ', (fixUnalignedBeg C.mapping.toLayout σ S.beg ⟨ob, oe, nb, ne⟩).bind
        (fun p => annotateBounds C p.1 p.2) = some σ' ∧ WellFormed C.mapping.toLayout σ' ∧
      ((S.beg % 8 ≠ 0 ∧ (nb = ne ∨ (S.beg + 7) / 8 * 8 ≤ nb) ∧ ob ≠ oe ∧
          ob < (S.beg + 7) / 8 * 8) ∧
        (∀ q, C.mapping.acc σ' q =
          boundsAcc (max ((S.beg + 7) / 8 * 8) ob) (max ((S.beg + 7) / 8 * 8) oe)
            (max ((S.beg + 7) / 8 * 8) nb) (max ((S.beg + 7) / 8 * 8) ne)
            (if q = S.beg / 8 then S.beg % 8 else C.mapping.acc σ q) q) ∨
      ¬ (S.beg % 8 ≠ 0 ∧ (nb = ne ∨ (S.beg + 7) / 8 * 8 ≤ nb) ∧ ob ≠ oe ∧
          ob < (S.beg + 7) / 8 * 8) ∧
        ∀ q, C.mapping.acc σ' q = boundsAcc ob oe nb ne (C.mapping.acc σ q) q) := by
  have hlo : 0 < S.beg / 8 := by
    have := hS.1
    omega
  have hhi := hS.end_le
  have hle := S.beg_le
  rw [fixUnalignedBeg_eight h8 σ (by omega) S.beg_mem]
  split_ifs with hclip
  · have hwfb : WellFormedByte C.mapping.granularity (BitVec.ofNat 8 (S.beg % 8)) :=
      wellFormedByte_ofNat (by omega) (by omega)
    simp only at hclip
    obtain ⟨σ', hrun, hwf', hacc'⟩ := annotateBounds_acc h8 hc hlo hhi hS.granule_inMem
      (hwf.set _ hwfb) (max_le_max_left ((S.beg + 7) / 8 * 8) ho)
      (max_le_max_left ((S.beg + 7) / 8 * 8) hn) (by omega) (by omega) (by omega) (by omega)
    refine ⟨σ', hrun, hwf', Or.inl ⟨hclip, fun q => ?_⟩⟩
    rw [hacc', acc_set_eight h8 _ _ _ (by omega) (by omega)]
  · obtain ⟨σ', hrun, hwf', hacc'⟩ := annotateBounds_acc h8 hc hlo hhi hS.granule_inMem hwf ho hn
      (by omega) (by omega) (show oe ≤ 8 * ((S.end + 7) / 8) by omega) (by omega)
    exact ⟨σ', hrun, hwf', Or.inr ⟨hclip, hacc'⟩⟩

include hd hlen

/-- A call that changes the container from `[ob, oe)` to `[nb, ne)`. -/
theorem annotateDoubleEnded_step {ob oe nb ne : ℕ} (h : Annotated C.mapping S σ₀ σ ob oe)
    (ho1 : S.beg ≤ ob) (ho : ob ≤ oe) (ho2 : oe ≤ S.end) (hn1 : S.beg ≤ nb) (hn : nb ≤ ne)
    (hn2 : ne ≤ S.end) :
    ∃ σ', annotateDoubleEndedContiguousContainer C σ S.beg S.end ⟨ob, oe, nb, ne⟩ = some σ' ∧
      Annotated C.mapping S σ₀ σ' nb ne := by
  unfold annotateDoubleEndedContiguousContainer
  simp only [hd, Bool.not_true, Bool.false_eq_true, if_false, check, ho1, ho, ho2, hn1, hn, hn2, hlen,
    decide_true, Bool.and_self, if_true, Option.bind_eq_bind, Option.bind_some]
  split_ifs with hnop
  · refine ⟨σ, rfl, h.wellFormed, fun q => (h.acc_eq q).trans ?_⟩
    unfold containerAcc
    split_ifs <;> omega
  · have hEle : annotationsEnd C.mapping.toLayout σ₀ S.end = S.end / 8 * 8 ∨
        annotationsEnd C.mapping.toLayout σ₀ S.end = S.end := by
      have := S.annotationsEnd_cases h8 σ₀
      omega
    have hacc := h.acc_eq
    have hSle := S.beg_le
    unfold fixUnalignedStorage
    rcases fixUnalignedEnd_cases h8 h ho ho2 hn hn2 (by tauto) with
      hfix | ⟨hfix, rfl, hEmod, hEe, hobE, hnbE⟩ <;> rw [hfix]
    · -- All bounds are clipped to the annotated part.
      have hold := containerAcc_min_min (C.mapping.acc σ₀) ho1 ho hEle ho2
      have hnew := containerAcc_min_min (C.mapping.acc σ₀) hn1 hn hEle hn2
      simp only [Bounds.map]
      generalize hE : annotationsEnd C.mapping.toLayout σ₀ S.end = E at hEle hacc hold hnew ⊢
      have h1 : min E oe ≤ E := min_le_left _ _
      have h2 : min E ne ≤ E := min_le_left _ _
      have h3 : min E ob ≤ min E oe := by omega
      have h4 : min E nb ≤ min E ne := by omega
      have h5 : S.beg ≤ min E ob ∧ S.beg ≤ min E nb ∨ min E ob = E ∧ min E nb = E := by omega
      have h6 : S.beg / 8 * 8 ≤ E ∧ E ≤ S.end := by omega
      generalize min E ob = ob' at hold h3 h5 ⊢
      generalize min E oe = oe' at hold h1 h3 ⊢
      generalize min E nb = nb' at hnew h4 h5 ⊢
      generalize min E ne = ne' at hnew h2 h4 ⊢
      obtain ⟨σ', hrun, hwf', hcases⟩ := fixUnalignedBeg_annotateBounds h8 hc hS h.wellFormed h3 h4
        (by omega) (by omega) (by omega) (by omega)
      refine ⟨σ', hrun, hwf', fun q => ?_⟩
      rcases hcases with ⟨hclip, hacc'⟩ | ⟨hclip, hacc'⟩ <;> rw [hE, hnew, hacc', hacc, hold]
      · exact containerAcc_boundsAcc_cut h1 h2 (by omega) h4 (by omega) rfl hclip.2.1 hclip.2.2.2
      · exact containerAcc_boundsAcc h1 h2 h4 h5 (by omega)
    · -- The end is in the ignored granule and does not change.
      generalize hE : annotationsEnd C.mapping.toLayout σ₀ S.end = E at *
      obtain ⟨σ', hrun, hwf', hcases⟩ := fixUnalignedBeg_annotateBounds h8 hc hS h.wellFormed ho hn
        (by omega) (by omega) ho2 hn2
      refine ⟨σ', hrun, hwf', fun q => ?_⟩
      rcases hcases with ⟨hclip, hacc'⟩ | ⟨hclip, hacc'⟩ <;> rw [hE, hacc', hacc]
      · exact containerAcc_boundsAcc_tail_cut hEmod hEe hnbE ho1 rfl (by omega) hclip.2.2.2
      · exact containerAcc_boundsAcc_tail hEmod hEe hobE hnbE ⟨ho1, hn1⟩ (by omega)

omit hc hS hlen in
/-- The verifier accepts a storage with the container's bytes, and the prefix of its first granule,
addressable and the rest of the annotated part poisoned. -/
theorem verifyDoubleEnded_eq_true {beg beg' «end» : ℕ} (h1 : S.beg ≤ beg) (h2 : beg ≤ «end»)
    (h3 : «end» ≤ S.end)
    (hbeg' : beg' = if beg ≠ «end» then max S.beg (beg / 8 * 8) else beg)
    (hbefore : ∀ x, S.beg ≤ x → x < beg' → x < annotationsEnd C.mapping.toLayout σ S.end →
      addressIsPoisoned C.mapping.toLayout σ x = true)
    (hgood : ∀ x, beg' ≤ x → x < «end» → x < annotationsEnd C.mapping.toLayout σ S.end →
      addressIsPoisoned C.mapping.toLayout σ x = false)
    (hafter : ∀ x, «end» ≤ x → x < annotationsEnd C.mapping.toLayout σ S.end →
      addressIsPoisoned C.mapping.toLayout σ x = true) :
    verifyDoubleEndedContiguousContainer C σ S.beg beg «end» S.end = some true := by
  have hle := S.end_le
  have hlt := C.mapping.kHighMemEnd_lt
  have hcases := S.annotationsEnd_cases h8 σ
  have htail := S.annotationsEnd_tail h8 σ
  have hb' : S.beg ≤ beg' ∧ beg' ≤ «end» := by
    rw [hbeg']
    split_ifs <;> omega
  unfold verifyDoubleEndedContiguousContainer doubleEndedContiguousContainerFindBadAddress
  simp only [hd, h8, Bool.not_true, Bool.false_eq_true, if_false, Option.bind_eq_bind,
    roundDownTo_eight (show beg < 2^64 by omega), ← hbeg']
  generalize annotationsEnd C.mapping.toLayout σ S.end = E at *
  rw [findBadAddress_eq_zero _ _ true (by omega) fun x hx1 hx2 =>
      hbefore x (by omega) (by omega) (by omega),
    Option.bind_some, if_neg (by decide), findBadAddress_eq_zero _ _ false (by omega)
      fun x hx1 hx2 => hgood x (by omega) (by omega) (by omega),
    Option.bind_some, if_neg (by decide), findBadAddress_eq_zero _ _ true (by omega)
      fun x hx1 hx2 => hafter x (by omega) hx2,
    Option.bind_some, if_neg (by decide), findBadAddress_eq_zero _ _ false (by omega) htail]
  rfl

end DoubleEnded

/-- The calls that move a container through a list of bounds. -/
def annotateDoubleEndedRun (C : Config) (storageBeg storageEnd : ℕ) (σ : Mem) (old : ℕ × ℕ) :
    List (ℕ × ℕ) → Option Mem
  | [] => some σ
  | new :: news => do
    let σ ← annotateDoubleEndedContiguousContainer C σ storageBeg storageEnd
      ⟨old.1, old.2, new.1, new.2⟩
    annotateDoubleEndedRun C storageBeg storageEnd σ new news

theorem annotateDoubleEndedRun_empty (C : Config) {sb : ℕ} (σ : Mem) (news : List (ℕ × ℕ))
    (hm : ∀ n ∈ news, sb ≤ n.1 ∧ n.1 ≤ n.2 ∧ n.2 ≤ sb) :
    annotateDoubleEndedRun C sb sb σ (sb, sb) news = some σ := by
  induction news with
  | nil => rfl
  | cons n news ih =>
    obtain rfl : n = (sb, sb) := by
      have := hm n (by simp)
      exact Prod.ext (by simp only; omega) (by simp only; omega)
    have hone : annotateDoubleEndedContiguousContainer C σ sb sb ⟨sb, sb, sb, sb⟩ = some σ := by
      unfold annotateDoubleEndedContiguousContainer
      simp [check]
    rw [annotateDoubleEndedRun, hone]
    exact ih fun n' h => hm n' (by simp [h])

theorem annotateDoubleEndedRun_annotated {C : Config} (h8 : C.mapping.granularity = 8)
    (hc : C.canPoisonMemory = true) (hd : C.detectContainerOverflow = true) {S : Storage C.mapping}
    (hlen : S.end - S.beg ≤ 2^40) (hS : S.Guarded) {σ₀ σ : Mem} {old : ℕ × ℕ}
    (news : List (ℕ × ℕ)) (h : Annotated C.mapping S σ₀ σ old.1 old.2) (ho1 : S.beg ≤ old.1)
    (ho : old.1 ≤ old.2) (ho2 : old.2 ≤ S.end)
    (hm : ∀ n ∈ news, S.beg ≤ n.1 ∧ n.1 ≤ n.2 ∧ n.2 ≤ S.end) :
    ∃ σ', annotateDoubleEndedRun C S.beg S.end σ old news = some σ' ∧
      Annotated C.mapping S σ₀ σ' (news.getLastD old).1 (news.getLastD old).2 := by
  induction news generalizing σ old with
  | nil => exact ⟨σ, rfl, h⟩
  | cons n news ih =>
    obtain ⟨hn1, hn, hn2⟩ := hm n (by simp)
    obtain ⟨σ₁, hrun, h₁⟩ :=
      annotateDoubleEnded_step h8 hc hd hlen hS h ho1 ho ho2 hn1 hn hn2
    obtain ⟨σ', hrun', h'⟩ := ih h₁ hn1 hn hn2 fun n' hn' => hm n' (by simp [hn'])
    refine ⟨σ', ?_, ?_⟩
    · rw [annotateDoubleEndedRun, hrun]
      exact hrun'
    · rw [List.getLastD_cons]
      exact h'

/-- From a well-formed shadow in which a storage is addressable, of at most `2^40` bytes and with a
granule of application memory on either side, every sequence of calls of
`__sanitizer_annotate_double_ended_contiguous_container` that move the container within the storage
returns. Then the container is addressable; the storage before the granule of its start, and all of
the annotated part if the container is empty, is poisoned; the annotated part after its end is
poisoned; no byte outside the storage has changed; and the verifier returns true. -/
theorem double_ended_container_annotated (C : Config) (h8 : C.mapping.scale = 3)
    (hc : C.canPoisonMemory = true) (hd : C.detectContainerOverflow = true) (S : Storage C.mapping)
    (hlen : S.end - S.beg ≤ 2^40) (hS : S.Guarded) (σ₀ : Mem)
    (hwf : WellFormed C.mapping.toLayout σ₀)
    (h₀ : ∀ x, S.beg ≤ x → x < S.end → addressIsPoisoned C.mapping.toLayout σ₀ x = false)
    (news : List (ℕ × ℕ)) (hm : ∀ n ∈ news, S.beg ≤ n.1 ∧ n.1 ≤ n.2 ∧ n.2 ≤ S.end)
    (beg «end» E : ℕ) (hlast : news.getLastD (S.beg, S.end) = (beg, «end»))
    (hE : E = if S.end % 8 ≠ 0 ∧ addressIsPoisoned C.mapping.toLayout σ₀ S.end = false then
      S.end / 8 * 8 else S.end) :
    ∃ σ, annotateDoubleEndedRun C S.beg S.end σ₀ (S.beg, S.end) news = some σ ∧
      (∀ x, beg ≤ x → x < «end» → addressIsPoisoned C.mapping.toLayout σ x = false) ∧
      (∀ x, S.beg ≤ x → x < (if beg = «end» then E else beg / 8 * 8) →
        addressIsPoisoned C.mapping.toLayout σ x = true) ∧
      (∀ x, «end» ≤ x → x < E → addressIsPoisoned C.mapping.toLayout σ x = true) ∧
      (∀ x ≤ C.mapping.kHighMemEnd, x < S.beg ∨ S.end ≤ x →
        addressIsPoisoned C.mapping.toLayout σ x = addressIsPoisoned C.mapping.toLayout σ₀ x) ∧
      verifyDoubleEndedContiguousContainer C σ S.beg beg «end» S.end = some true := by
  have h8 := C.mapping.granularity_eq_eight h8
  rw [← S.annotationsEnd_eight h8] at hE
  have hEcases := S.annotationsEnd_cases h8 σ₀
  have hle := S.end_le
  obtain ⟨hb, hbe, he⟩ : S.beg ≤ beg ∧ beg ≤ «end» ∧ «end» ≤ S.end := by
    rw [List.getLastD_eq_getLast?] at hlast
    cases hl : news.getLast? with
    | none =>
      rw [hl] at hlast
      obtain ⟨rfl, rfl⟩ := Prod.mk.inj hlast
      exact ⟨le_rfl, S.beg_le, le_rfl⟩
    | some n =>
      rw [hl] at hlast
      obtain rfl : n = (beg, «end») := hlast
      exact hm _ (List.mem_of_getLast? hl)
  rcases eq_or_lt_of_le S.beg_le with heq | hlt
  · -- An empty storage.
    refine ⟨σ₀, ?_, fun x h1 h2 => by omega, fun x h1 h2 => ?_, fun x h1 h2 => by omega,
      fun _ _ _ => rfl, ?_⟩
    · rw [← heq] at hm ⊢
      exact annotateDoubleEndedRun_empty C σ₀ news hm
    · split_ifs at h2 <;> omega
    · refine verifyDoubleEnded_eq_true h8 hd hb hbe he rfl (fun x h1 h2 h3 => by omega)
        (fun x h1 h2 h3 => ?_) (fun x h1 h2 => by omega)
      rw [if_neg (by omega)] at h1
      omega
  · have hinit := Annotated.init h8 S hlt hwf h₀
    obtain ⟨σ, hrun, h⟩ := annotateDoubleEndedRun_annotated h8 hc hd hlen hS news
      (show Annotated C.mapping S σ₀ σ₀ (S.beg, S.end).1 (S.beg, S.end).2 from hinit) le_rfl S.beg_le
      le_rfl hm
    rw [hlast] at h
    have hbad : ∀ x, S.beg ≤ x → x < annotationsEnd C.mapping.toLayout σ₀ S.end →
        ¬ Live beg «end» (x / 8) ∨ «end» ≤ x → addressIsPoisoned C.mapping.toLayout σ x = true :=
      fun x h1 h2 h3 => h.eq_true h8 h1 h2 h3
    have hEσ := h.annotationsEnd_eq h8 he
    rw [← hE] at hbad hEσ hEcases
    refine ⟨σ, hrun, fun x => h.eq_false h8 hb he h₀, fun x h1 h2 => ?_,
      fun x h1 h2 => hbad x (by omega) h2 (Or.inr h1),
      fun x hx hout => h.frame h8 hlt hb he h₀ hx hout, ?_⟩
    · split_ifs at h2 <;> exact hbad x h1 (by omega) (by omega)
    · refine verifyDoubleEnded_eq_true h8 hd hb hbe he rfl (fun x h1 h2 h3 => ?_)
        (fun x h1 h2 h3 => ?_) (fun x h1 h2 => hbad x (by omega) (by omega) (Or.inr h1))
      · rw [hEσ] at h3
        split_ifs at h2 <;> exact hbad x h1 h3 (by omega)
      · -- The prefix of the first granule is addressable as well.
        rw [hEσ] at h3
        rw [C.mapping.addressIsPoisoned_eq_false_iff σ (by omega), h8, h.acc_eq, ← hE]
        unfold containerAcc
        split_ifs at h1 ⊢ <;> omega

/-- A deque's chunk that is emptied from both ends and filled again. -/
theorem double_ended_container_annotated_linuxX64 :
    ∃ σ, annotateDoubleEndedRun Config.linuxX64 0x1003 0x1017 (fun _ => 0) (0x1003, 0x1017)
        [(0x1009, 0x1015), (0x1009, 0x1009), (0x1004, 0x100b)] = some σ ∧
      verifyDoubleEndedContiguousContainer Config.linuxX64 σ 0x1003 0x1004 0x100b 0x1017 =
        some true := by
  have hS : smallStorage.Guarded :=
    ⟨by decide, fun a h1 h2 => (Mapping.linuxX64_addrIsInMem a).mpr (by
      simp only [smallStorage] at h2
      omega)⟩
  obtain ⟨σ, hrun, -, -, -, -, hverify⟩ := double_ended_container_annotated Config.linuxX64 rfl rfl rfl
    smallStorage (by decide) hS (fun _ => 0) (wellFormed_zero _) (fun _ _ _ => by rfl)
    [(0x1009, 0x1015), (0x1009, 0x1009), (0x1004, 0x100b)] (by decide) 0x1004 0x100b 0x1010 rfl
    (by decide)
  exact ⟨σ, hrun, hverify⟩

/-- A storage at the start of high memory: moving the start of the container within its first granule
fails, as `PoisonShadow` of no granules checks the granule before. -/
theorem double_ended_container_fails_at_region_start :
    (∀ a, 0x10007fff8000 ≤ a → a < 0x10007fff8010 → Mapping.linuxX64.addrIsInMem a = true ∧
      addressIsPoisoned Mapping.linuxX64.toLayout (fun _ => 0) a = false) ∧
    annotateDoubleEndedRun Config.linuxX64 0x10007fff8000 0x10007fff8010 (fun _ => 0)
      (0x10007fff8000, 0x10007fff8010) [(0x10007fff8004, 0x10007fff8010)] = none := by
  refine ⟨fun a h1 h2 => ⟨(Mapping.linuxX64_addrIsInMem a).mpr (by omega), rfl⟩, by decide⟩

end Tasan.Asan
