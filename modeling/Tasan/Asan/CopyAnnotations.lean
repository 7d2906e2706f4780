import Tasan.Asan.Region
import Tasan.Asan.Container

/-!
# Copied container annotations

`__sanitizer_copy_contiguous_container_annotations` of `asan_poisoning.cpp`. A shadow byte can only
describe a prefix of its granule, so what is stored for a granule is the position after the last of its
bytes that should be addressable, `Top`. Each of the three paths finds that position for the granules
of the destination one after the other: the slow paths by a scan over the bytes of the source, the fast
path from the shadow of the source. `Scanned` says what both have in common, and `turnValue` what
becomes of the granule then, with the special cases for the bytes of the granule before and after the
destination. What remains for each path is that it reads the shadow of the source and of the granule
before it overwrites them.
-/

namespace Tasan.Asan

/-- `SetContainerGranule`. -/
def setContainerGranule (L : Layout) (σ : Mem) (ptr : ℕ) (n : Byte) : Option Mem := do
  let s := if n.toNat = L.granularity then 0
    else if n ≠ 0 then n else kAsanContiguousContainerOOBMagic
  let shadow ← L.memToShadow ptr
  return σ.set shadow s

/-- The loop over the bytes of a granule in `SlowCopyContainerAnnotations`: `count` bytes from
`srcPtr` and `dstPtr` on. -/
def scanBytes (L : Layout) (σ : Mem) (granuleBeg : ℕ) :
    (count srcPtr dstPtr unpoisonedBytes : ℕ) → ℕ
  | 0, _, _, unpoisonedBytes => unpoisonedBytes
  | count + 1, srcPtr, dstPtr, unpoisonedBytes =>
    scanBytes L σ granuleBeg count (srcPtr + 1) (dstPtr + 1)
      (if addressIsPoisoned L σ srcPtr then unpoisonedBytes else dstPtr - granuleBeg + 1)

/-- The loop over the bytes of a granule in `SlowReversedCopyContainerAnnotations`: `count` bytes
down from `srcPtr` and `dstPtr`. -/
def scanBytesReversed (L : Layout) (σ : Mem) (granuleBeg : ℕ) :
    (count srcPtr dstPtr unpoisonedBytes : ℕ) → ℕ
  | 0, _, _, unpoisonedBytes => unpoisonedBytes
  | count + 1, srcPtr, dstPtr, unpoisonedBytes =>
    scanBytesReversed L σ granuleBeg count (srcPtr - 1) (dstPtr - 1)
      (if unpoisonedBytes = 0 ∧ addressIsPoisoned L σ (srcPtr - 1) = false then dstPtr - granuleBeg
      else unpoisonedBytes)

/-- The end of a turn of the loop of `SlowCopyContainerAnnotations`, with `dstPtr` the end of the
scanned bytes. -/
def slowCopyGranule (L : Layout) (σ : Mem) (dstBeg dstEnd granuleBeg dstPtr unpoisonedBytes : ℕ) :
    Option Mem :=
  if dstPtr = dstEnd ∧ dstEnd ≠ Word.roundDownTo 64 dstEnd L.granularity ∧
      addressIsPoisoned L σ dstEnd = false then some σ
  else if unpoisonedBytes ≠ 0 ∨ dstBeg ≤ granuleBeg then
    setContainerGranule L σ granuleBeg (BitVec.ofNat 8 unpoisonedBytes)
  else if addressIsPoisoned L σ dstBeg = false then
    setContainerGranule L σ granuleBeg (BitVec.ofNat 8 (dstBeg - granuleBeg))
  else some σ

/-- The loop of `SlowCopyContainerAnnotations`; `none` when `fuel` runs out. -/
def slowCopyLoop (L : Layout) (dstBeg dstEnd : ℕ) :
    (fuel : ℕ) → (σ : Mem) → (srcPtr dstPtr : ℕ) → Option Mem
  | 0, σ, _, dstPtr => if dstPtr < dstEnd then none else some σ
  | fuel + 1, σ, srcPtr, dstPtr =>
    if dstPtr < dstEnd then
      let granuleBeg := Word.roundDownTo 64 dstPtr L.granularity
      let granuleEnd := granuleBeg + L.granularity
      let «end» := min granuleEnd dstEnd
      let unpoisonedBytes := scanBytes L σ granuleBeg («end» - dstPtr) srcPtr dstPtr 0
      (slowCopyGranule L σ dstBeg dstEnd granuleBeg «end» unpoisonedBytes).bind fun σ =>
        slowCopyLoop L dstBeg dstEnd fuel σ (srcPtr + («end» - dstPtr)) «end»
    else some σ

/-- `SlowCopyContainerAnnotations`; each turn of the loop copies at least one byte. -/
def slowCopyContainerAnnotations (L : Layout) (σ : Mem) (srcBeg dstBeg dstEnd : ℕ) : Option Mem :=
  slowCopyLoop L dstBeg dstEnd (dstEnd - dstBeg) σ srcBeg dstBeg

/-- The end of a turn of the loop of `SlowReversedCopyContainerAnnotations`, with `dstPtr` the start
of the scanned bytes. -/
def slowReversedCopyGranule (L : Layout) (σ : Mem)
    (dstBeg dstEnd granuleBeg dstPtr unpoisonedBytes : ℕ) : Option Mem :=
  if Word.roundDownTo 64 dstEnd L.granularity ≤ dstPtr ∧ addressIsPoisoned L σ dstEnd = false then
    some σ
  else if granuleBeg = dstPtr ∨ unpoisonedBytes ≠ 0 then
    setContainerGranule L σ granuleBeg (BitVec.ofNat 8 unpoisonedBytes)
  else if addressIsPoisoned L σ dstBeg = false then
    setContainerGranule L σ granuleBeg (BitVec.ofNat 8 (dstBeg - granuleBeg))
  else some σ

/-- The loop of `SlowReversedCopyContainerAnnotations`; `none` when `fuel` runs out. -/
def slowReversedCopyLoop (L : Layout) (dstBeg dstEnd : ℕ) :
    (fuel : ℕ) → (σ : Mem) → (srcPtr dstPtr : ℕ) → Option Mem
  | 0, σ, _, dstPtr => if dstBeg < dstPtr then none else some σ
  | fuel + 1, σ, srcPtr, dstPtr =>
    if dstBeg < dstPtr then
      let granuleBeg := Word.roundDownTo 64 (dstPtr - 1) L.granularity
      let «end» := max granuleBeg dstBeg
      let unpoisonedBytes := scanBytesReversed L σ granuleBeg (dstPtr - «end») srcPtr dstPtr 0
      (slowReversedCopyGranule L σ dstBeg dstEnd granuleBeg «end» unpoisonedBytes).bind fun σ =>
        slowReversedCopyLoop L dstBeg dstEnd fuel σ (srcPtr - (dstPtr - «end»)) «end»
    else some σ

/-- `SlowReversedCopyContainerAnnotations`; each turn of the loop copies at least one byte. -/
def slowReversedCopyContainerAnnotations (L : Layout) (σ : Mem) (srcEnd dstBeg dstEnd : ℕ) :
    Option Mem :=
  slowReversedCopyLoop L dstBeg dstEnd (dstEnd - dstBeg) σ srcEnd dstEnd

/-- `*(u8 *)MemToShadow(dst) = *(u8 *)MemToShadow(src)`. -/
def copyShadowByte (L : Layout) (σ : Mem) (dst src : ℕ) : Option Mem := do
  let dstShadow ← L.memToShadow dst
  let srcShadow ← L.memToShadow src
  return σ.set dstShadow (σ srcShadow)

/-- `CopyContainerFirstGranuleAnnotation`. -/
def copyContainerFirstGranuleAnnotation (L : Layout) (σ : Mem) (srcBeg dstBeg : ℕ) : Option Mem :=
  let srcBegDown := Word.roundDownTo 64 srcBeg L.granularity
  let dstBegDown := Word.roundDownTo 64 dstBeg L.granularity
  if dstBegDown = dstBeg then some σ
  else if addressIsPoisoned L σ srcBeg = false then copyShadowByte L σ dstBegDown srcBegDown
  else if addressIsPoisoned L σ dstBeg = false then
    setContainerGranule L σ dstBegDown (BitVec.ofNat 8 (dstBeg - dstBegDown))
  else some σ

/-- `CopyContainerLastGranuleAnnotation`. -/
def copyContainerLastGranuleAnnotation (L : Layout) (σ : Mem) (srcEnd dstEnd : ℕ) : Option Mem :=
  let srcEndDown := Word.roundDownTo 64 srcEnd L.granularity
  let dstEndDown := Word.roundDownTo 64 dstEnd L.granularity
  if dstEndDown = dstEnd ∨ addressIsPoisoned L σ dstEnd = false then some σ
  else if addressIsPoisoned L σ srcEnd then copyShadowByte L σ dstEndDown srcEndDown
  else setContainerGranule L σ dstEndDown (BitVec.ofNat 8 (srcEnd - srcEndDown))

/-- The granules between the first and the last one, with `internal_memmove`. -/
def copyMiddleGranules (L : Layout) (σ : Mem) (srcBeg dstBeg dstEnd : ℕ) : Option Mem :=
  let srcBegUp := Word.roundUpTo 64 srcBeg L.granularity
  let dstBegUp := Word.roundUpTo 64 dstBeg L.granularity
  let dstEndDown := Word.roundDownTo 64 dstEnd L.granularity
  if dstBegUp < dstEndDown then do
    let dstShadow ← L.memToShadow dstBegUp
    let srcShadow ← L.memToShadow srcBegUp
    return σ.move dstShadow srcShadow ((dstEndDown - dstBegUp) / L.granularity)
  else some σ

/-- `copy_in_reversed_order`. -/
def copyInReversedOrder (L : Layout) (srcBeg srcEnd dstBeg : ℕ) : Bool :=
  srcBeg < dstBeg && dstBeg ≤ Word.roundUpTo 64 srcEnd L.granularity

/-- The byte-wise path in the order that the position of the two buffers asks for. -/
def copyByBytes (L : Layout) (σ : Mem) (srcBeg srcEnd dstBeg dstEnd : ℕ) : Option Mem :=
  if copyInReversedOrder L srcBeg srcEnd dstBeg then
    slowReversedCopyContainerAnnotations L σ srcEnd dstBeg dstEnd
  else slowCopyContainerAnnotations L σ srcBeg dstBeg dstEnd

/-- The granule-wise path, from the end of the source that the destination does not overwrite. -/
def copyByGranules (L : Layout) (σ : Mem) (srcBeg srcEnd dstBeg dstEnd : ℕ) : Option Mem :=
  if copyInReversedOrder L srcBeg srcEnd dstBeg then do
    let σ ← copyContainerLastGranuleAnnotation L σ srcEnd dstEnd
    let σ ← copyMiddleGranules L σ srcBeg dstBeg dstEnd
    copyContainerFirstGranuleAnnotation L σ srcBeg dstBeg
  else do
    let σ ← copyContainerFirstGranuleAnnotation L σ srcBeg dstBeg
    let σ ← copyMiddleGranules L σ srcBeg dstBeg dstEnd
    copyContainerLastGranuleAnnotation L σ srcEnd dstEnd

/-- `__sanitizer_copy_contiguous_container_annotations`. -/
def copyContiguousContainerAnnotations (C : Config) (σ : Mem)
    (srcBeg srcEnd dstBeg dstEnd : ℕ) : Option Mem :=
  let L := C.mapping.toLayout
  if !C.detectContainerOverflow then some σ
  -- `ReportBadParamsToCopyContiguousContainerAnnotations` does not return.
  else if srcEnd < srcBeg ∨ Word.sub 64 dstEnd dstBeg ≠ Word.sub 64 srcEnd srcBeg then none
  else if srcBeg = srcEnd ∨ srcBeg = dstBeg then some σ
  else if srcBeg % L.granularity ≠ dstBeg % L.granularity ∨
      Word.roundDownTo 64 (dstEnd - 1) L.granularity ≤ dstBeg then
    copyByBytes L σ srcBeg srcEnd dstBeg dstEnd
  else copyByGranules L σ srcBeg srcEnd dstBeg dstEnd

/-! ## The addressable bytes to copy -/

section Copied

/-- Byte `x` is addressable under the access map `A`. -/
def Addressable (A : ℕ → ℕ) (x : ℕ) : Prop := x % 8 < A (x / 8)

instance (A : ℕ → ℕ) (x : ℕ) : Decidable (Addressable A x) :=
  inferInstanceAs (Decidable (x % 8 < A (x / 8)))

/-- Byte `x` should be addressable after `[srcBeg, srcBeg + n)` is copied to `dstBeg`. -/
def Copied (A : ℕ → ℕ) (srcBeg dstBeg n x : ℕ) : Prop :=
  if dstBeg ≤ x ∧ x < dstBeg + n then Addressable A (srcBeg + (x - dstBeg)) else Addressable A x

/-- The bytes of granule `q` that satisfy `P` end at position `a`. -/
def Top (P : ℕ → Prop) (q a : ℕ) : Prop :=
  a ≤ 8 ∧ (∀ x, 8 * q + a ≤ x → x < 8 * q + 8 → ¬ P x) ∧ (a = 0 ∨ P (8 * q + (a - 1)))

theorem Top.lt_iff {P : ℕ → Prop} {x a : ℕ} (h : Top P (x / 8) a) :
    x % 8 < a ↔ ∃ y, x ≤ y ∧ y / 8 = x / 8 ∧ P y := by
  obtain ⟨hle, hafter, hlast⟩ := h
  constructor
  · intro hlt
    exact ⟨_, by omega, by omega, hlast.resolve_left (by omega)⟩
  · rintro ⟨y, hxy, hq, hy⟩
    by_contra hge
    exact hafter y (by omega) (by omega) hy

/-- The last byte of the scanned bytes `[lo, hi)` of granule `q` that satisfies `S` is before position
`u`, which is zero when there is none. -/
def Scanned (S : ℕ → Prop) (q lo hi u : ℕ) : Prop :=
  (∀ x, lo ≤ x → x < hi → 8 * q + u ≤ x → ¬ S x) ∧
    (u = 0 ∨ lo < 8 * q + u ∧ 8 * q + u ≤ hi ∧ S (8 * q + (u - 1)))

/-- What becomes of granule `q` of the destination `[dstBeg, dstEnd)` after a scan with result `u`. -/
def turnValue (A : ℕ → ℕ) (dstBeg dstEnd q u : ℕ) : ℕ :=
  if q = dstEnd / 8 ∧ dstEnd % 8 ≠ 0 ∧ Addressable A dstEnd then A q
  else if u ≠ 0 ∨ dstBeg ≤ 8 * q then u
  else if Addressable A dstBeg then dstBeg - 8 * q
  else A q

variable {A : ℕ → ℕ} {srcBeg dstBeg n q : ℕ}

theorem top_of_unchanged (hA : A q ≤ 8)
    (h : ∀ x, x / 8 = q → (Copied A srcBeg dstBeg n x ↔ Addressable A x)) :
    Top (Copied A srcBeg dstBeg n) q (A q) := by
  have hiff : ∀ x, x / 8 = q → (Copied A srcBeg dstBeg n x ↔ x % 8 < A q) := fun x hx => by
    rw [h x hx, ← hx]
    rfl
  refine ⟨hA, fun x h1 h2 => ?_, ?_⟩
  · rw [hiff x (by omega)]
    omega
  · rw [hiff _ (by omega)]
    omega

theorem top_of_outside (hA : A q ≤ 8) (h : 8 * q + 8 ≤ dstBeg ∨ dstBeg + n ≤ 8 * q) :
    Top (Copied A srcBeg dstBeg n) q (A q) :=
  top_of_unchanged hA fun x hx => by
    unfold Copied
    rw [if_neg (by omega)]

theorem top_of_after {B : ℕ → ℕ} (hA : ∀ q, A q ≤ 8) (h : dstBeg + n ≤ 8 * q)
    (hdone : ∀ r < q, Top (Copied A srcBeg dstBeg n) r (B r)) (hrest : ∀ r, q ≤ r → B r = A r)
    (r : ℕ) : Top (Copied A srcBeg dstBeg n) r (B r) := by
  rcases Nat.lt_or_ge r q with hr | hr
  · exact hdone r hr
  · rw [hrest r hr]
    exact top_of_outside (hA r) (Or.inr (by omega))

theorem top_of_before {B : ℕ → ℕ} (hA : ∀ q, A q ≤ 8) (h : 8 * q ≤ dstBeg)
    (hdone : ∀ r, q ≤ r → Top (Copied A srcBeg dstBeg n) r (B r)) (hrest : ∀ r < q, B r = A r)
    (r : ℕ) : Top (Copied A srcBeg dstBeg n) r (B r) := by
  rcases Nat.lt_or_ge r q with hr | hr
  · rw [hrest r hr]
    exact top_of_outside (hA r) (Or.inl (by omega))
  · exact hdone r hr

/-- The value of a granule after the scan of its bytes of the destination. -/
theorem top_turnValue (hA : A q ≤ 8) {u : ℕ} (h1 : 8 * q < dstBeg + n) (h2 : dstBeg < 8 * q + 8)
    (hscan : Scanned (fun x => Addressable A (srcBeg + (x - dstBeg))) q (max dstBeg (8 * q))
      (min (dstBeg + n) (8 * q + 8)) u) :
    Top (Copied A srcBeg dstBeg n) q (turnValue A dstBeg (dstBeg + n) q u) := by
  obtain ⟨hafter, hlast⟩ := hscan
  -- The bytes of the granule that are not in the destination keep their state.
  have hkeep : ∀ x, 8 * q ≤ x → x < 8 * q + 8 → ¬ (dstBeg ≤ x ∧ x < dstBeg + n) →
      (Copied A srcBeg dstBeg n x ↔ x - 8 * q < A q) := by
    intro x hx1 hx2 hout
    unfold Copied Addressable
    rw [if_neg hout, show x / 8 = q by omega]
    omega
  have hcopy : ∀ x, dstBeg ≤ x ∧ x < dstBeg + n →
      (Copied A srcBeg dstBeg n x ↔ Addressable A (srcBeg + (x - dstBeg))) := fun x hx => by
    unfold Copied
    rw [if_pos hx]
  unfold turnValue
  split_ifs with hend hu hbeg
  · -- The byte after the destination is addressable, and so the granule keeps its value.
    obtain ⟨hq, hpos, haddr⟩ := hend
    unfold Addressable at haddr
    rw [← hq] at haddr
    refine ⟨hA, fun x hx1 hx2 => ?_, Or.inr ?_⟩
    · rw [hkeep x (by omega) hx2 (by omega)]
      omega
    · rw [hkeep _ (by omega) (by omega) (by omega)]
      omega
  all_goals
    -- The bytes after the destination are poisoned.
    have hafterEnd : ∀ x, dstBeg + n ≤ x → x < 8 * q + 8 → ¬ Copied A srcBeg dstBeg n x := by
      intro x hx1 hx2
      rw [hkeep x (by omega) hx2 (by omega)]
      have hq : q = (dstBeg + n) / 8 := by omega
      have := not_and.mp (not_and.mp hend hq) (by omega)
      unfold Addressable at this
      rw [← hq] at this
      omega
  · refine ⟨by omega, fun x hx1 hx2 => ?_, ?_⟩
    · rcases Nat.lt_or_ge x (dstBeg + n) with hx | hx
      · rw [hcopy x (by omega)]
        exact hafter x (by omega) (by omega) hx1
      · exact hafterEnd x hx hx2
    · refine hlast.imp_right fun ⟨h3, h4, h5⟩ => ?_
      rw [hcopy _ (by omega)]
      exact h5
  all_goals
    -- No byte of the destination in the granule is to be addressable.
    have hnone : ∀ x, dstBeg ≤ x → x < 8 * q + 8 → ¬ Copied A srcBeg dstBeg n x := by
      intro x hx1 hx2
      rcases Nat.lt_or_ge x (dstBeg + n) with hx | hx
      · rw [hcopy x ⟨hx1, hx⟩]
        exact hafter x (by omega) (by omega) (by omega)
      · exact hafterEnd x hx hx2
    unfold Addressable at hbeg
    rw [show dstBeg / 8 = q by omega] at hbeg
  · refine ⟨by omega, fun x hx1 hx2 => hnone x (by omega) hx2, Or.inr ?_⟩
    rw [hkeep _ (by omega) (by omega) (by omega)]
    omega
  · refine ⟨hA, fun x hx1 hx2 => ?_, ?_⟩
    · rcases Nat.lt_or_ge x dstBeg with hx | hx
      · rw [hkeep x (by omega) hx2 (by omega)]
        omega
      · exact hnone x hx hx2
    · rcases Nat.eq_zero_or_pos (A q) with h0 | h0
      · exact Or.inl h0
      · right
        rw [hkeep _ (by omega) (by omega) (by omega)]
        omega

theorem turnValue_congr {B : ℕ → ℕ} {dstEnd u : ℕ} (h : B q = A q) (h2 : dstBeg < 8 * q + 8) :
    turnValue B dstBeg dstEnd q u = turnValue A dstBeg dstEnd q u := by
  have hend : (q = dstEnd / 8 ∧ dstEnd % 8 ≠ 0 ∧ Addressable B dstEnd) ↔
      q = dstEnd / 8 ∧ dstEnd % 8 ≠ 0 ∧ Addressable A dstEnd := by
    refine and_congr_right fun hq => ?_
    unfold Addressable
    rw [← hq, h]
  have hbeg : ¬ dstBeg ≤ 8 * q → (Addressable B dstBeg ↔ Addressable A dstBeg) := by
    intro hlt
    unfold Addressable
    rw [show dstBeg / 8 = q by omega, h]
  unfold turnValue
  refine ite_congr (propext hend) (fun _ => h) fun _ => ?_
  refine ite_congr rfl (fun _ => rfl) fun hlow => ?_
  exact ite_congr (propext (hbeg (not_or.mp hlow).2)) (fun _ => rfl) fun _ => h

theorem Scanned.le {S : ℕ → Prop} {lo hi u : ℕ} (h : Scanned S q lo hi u) (hhi : hi ≤ 8 * q + 8) :
    u ≤ 8 := by
  rcases h.2 with h0 | h
  · omega
  · omega

/-- When source and destination have the same alignment, the scan of a granule is the value of the
granule of the source, clipped to the bytes of the destination. -/
theorem scanned_granule {lo hi s : ℕ} (hal : srcBeg % 8 = dstBeg % 8) (hlo : dstBeg ≤ lo)
    (hlohi : lo < hi) (hq1 : 8 * q ≤ lo) (hq2 : hi ≤ 8 * q + 8)
    (hs : 8 * s + dstBeg = srcBeg + 8 * q) :
    Scanned (fun x => Addressable A (srcBeg + (x - dstBeg))) q lo hi
      (if 8 * q + A s ≤ lo then 0 else min (A s) (hi - 8 * q)) := by
  have hsource : ∀ x, lo ≤ x → x < hi →
      (Addressable A (srcBeg + (x - dstBeg)) ↔ x - 8 * q < A s) := by
    intro x hx1 hx2
    unfold Addressable
    rw [show (srcBeg + (x - dstBeg)) / 8 = s by omega]
    omega
  refine ⟨fun x h1 h2 h3 => ?_, ?_⟩
  · dsimp only
    rw [hsource x h1 h2]
    split_ifs at h3 <;> omega
  · dsimp only
    split_ifs with h
    · exact Or.inl rfl
    · refine Or.inr ⟨by omega, by omega, ?_⟩
      rw [hsource _ (by omega) (by omega)]
      omega

/-- The granule of the source that goes to granule `q` of the destination. -/
def srcGranule (srcBeg dstBeg q : ℕ) : ℕ := (srcBeg + 8 * q - dstBeg) / 8

/-- What becomes of granule `q` of the destination when its value comes from the granule of the
source. -/
def granuleValue (A : ℕ → ℕ) (srcBeg dstBeg n q : ℕ) : ℕ :=
  turnValue A dstBeg (dstBeg + n) q
    (if 8 * q + A (srcGranule srcBeg dstBeg q) ≤ max dstBeg (8 * q) then 0
    else min (A (srcGranule srcBeg dstBeg q)) (min (dstBeg + n) (8 * q + 8) - 8 * q))

section Granule

variable (hal : srcBeg % 8 = dstBeg % 8) (h2 : dstBeg < 8 * q + 8)

include hal h2

theorem srcGranule_spec : 8 * srcGranule srcBeg dstBeg q + dstBeg = srcBeg + 8 * q := by
  unfold srcGranule
  omega

theorem top_granuleValue (hA : A q ≤ 8) (hn : 0 < n) (h1 : 8 * q < dstBeg + n) :
    Top (Copied A srcBeg dstBeg n) q (granuleValue A srcBeg dstBeg n q) :=
  top_turnValue hA h1 h2 (scanned_granule hal (by omega) (by omega) (by omega) (by omega)
    (srcGranule_spec hal h2))

omit hal in
theorem granuleValue_congr {B : ℕ → ℕ} (h : B q = A q)
    (hs : B (srcGranule srcBeg dstBeg q) = A (srcGranule srcBeg dstBeg q)) :
    granuleValue B srcBeg dstBeg n q = granuleValue A srcBeg dstBeg n q := by
  unfold granuleValue
  rw [hs]
  exact turnValue_congr h h2

omit hal h2 in
theorem granuleValue_middle (hA : A (srcGranule srcBeg dstBeg q) ≤ 8) (h1 : dstBeg ≤ 8 * q)
    (h2 : 8 * q + 8 ≤ dstBeg + n) :
    granuleValue A srcBeg dstBeg n q = A (srcGranule srcBeg dstBeg q) := by
  unfold granuleValue turnValue
  rw [if_neg (by omega), if_pos (Or.inr h1)]
  split_ifs <;> omega

end Granule

end Copied

/-! ## The scans -/

section Scans

variable {L : Layout} {σ : Mem} {S : ℕ → Prop} {q : ℕ}

theorem scanned_self (S : ℕ → Prop) (q lo : ℕ) : Scanned S q lo lo 0 :=
  ⟨fun _ h1 h2 => absurd h2 (not_lt.mpr h1), Or.inl rfl⟩

/-- The forward scan, after the bytes `[lo, dstPtr)`. -/
theorem scanBytes_scanned (count srcPtr : ℕ) {lo dstPtr u : ℕ} (hq : 8 * q ≤ lo) (hlo : lo ≤ dstPtr)
    (h : ∀ i < count, addressIsPoisoned L σ (srcPtr + i) = false ↔ S (dstPtr + i))
    (hu : Scanned S q lo dstPtr u) :
    Scanned S q lo (dstPtr + count) (scanBytes L σ (q * 8) count srcPtr dstPtr u) := by
  induction count generalizing srcPtr dstPtr u with
  | zero => exact hu
  | succ count ih =>
    have hnext : Scanned S q lo (dstPtr + 1)
        (if addressIsPoisoned L σ srcPtr then u else dstPtr - q * 8 + 1) := by
      have h0 := h 0 (by omega)
      rw [Nat.add_zero, Nat.add_zero] at h0
      obtain ⟨hafter, hlast⟩ := hu
      split_ifs with hp
      · have hS : ¬ S dstPtr := fun hS => by rw [h0.mpr hS] at hp; exact absurd hp (by decide)
        refine ⟨fun x h1 h2 h3 => ?_, hlast.imp_right fun ⟨h1, h2, h3⟩ => ⟨h1, by omega, h3⟩⟩
        rcases Nat.eq_or_lt_of_le (Nat.lt_succ_iff.mp h2) with rfl | hlt
        · exact hS
        · exact hafter x h1 hlt h3
      · refine ⟨fun x h1 h2 h3 => by omega, Or.inr ⟨by omega, by omega, ?_⟩⟩
        rw [show 8 * q + (dstPtr - q * 8 + 1 - 1) = dstPtr by omega]
        exact h0.mp (Bool.eq_false_of_not_eq_true hp)
    have hrest : ∀ i < count,
        addressIsPoisoned L σ (srcPtr + 1 + i) = false ↔ S (dstPtr + 1 + i) := fun i hi => by
      rw [Nat.add_right_comm, Nat.add_right_comm dstPtr]
      exact h (i + 1) (by omega)
    rw [scanBytes, show dstPtr + (count + 1) = dstPtr + 1 + count by omega]
    exact ih _ (by omega) hrest hnext

/-- The backward scan, after the bytes `[dstPtr, hi)`. -/
theorem scanBytesReversed_scanned (count srcPtr : ℕ) {hi dstPtr u : ℕ}
    (hq : 8 * q + count ≤ dstPtr) (hhi : dstPtr ≤ hi)
    (h : ∀ i < count, addressIsPoisoned L σ (srcPtr - (i + 1)) = false ↔ S (dstPtr - (i + 1)))
    (hu : Scanned S q dstPtr hi u) :
    Scanned S q (dstPtr - count) hi (scanBytesReversed L σ (q * 8) count srcPtr dstPtr u) := by
  induction count generalizing srcPtr dstPtr u with
  | zero => exact hu
  | succ count ih =>
    have hnext : Scanned S q (dstPtr - 1) hi
        (if u = 0 ∧ addressIsPoisoned L σ (srcPtr - 1) = false then dstPtr - q * 8 else u) := by
      have h0 := h 0 (by omega)
      rw [Nat.zero_add] at h0
      obtain ⟨hafter, hlast⟩ := hu
      split_ifs with hp
      · refine ⟨fun x h1 h2 h3 => hafter x (by omega) h2 (by omega), Or.inr ⟨by omega, by omega, ?_⟩⟩
        rw [show 8 * q + (dstPtr - q * 8 - 1) = dstPtr - 1 by omega]
        exact h0.mp hp.2
      · refine ⟨fun x h1 h2 h3 => ?_, hlast.imp_right fun ⟨h1, h2, h3⟩ => ⟨by omega, h2, h3⟩⟩
        rcases Nat.lt_or_ge x dstPtr with hlt | hge
        · -- The byte before `dstPtr` is scanned last, so that nothing was found before it.
          have hzero : u = 0 := by omega
          rw [show x = dstPtr - 1 by omega, ← h0]
          exact fun hfalse => hp ⟨hzero, hfalse⟩
        · exact hafter x hge h2 h3
    have hrest : ∀ i < count,
        addressIsPoisoned L σ (srcPtr - 1 - (i + 1)) = false ↔ S (dstPtr - 1 - (i + 1)) := by
      intro i hi
      rw [Nat.sub_sub, Nat.sub_sub, Nat.add_comm 1]
      exact h (i + 1) (by omega)
    rw [scanBytesReversed, show dstPtr - (count + 1) = dstPtr - 1 - count by omega]
    exact ih _ (by omega) (by omega) hrest hnext

end Scans

/-! ## One granule -/

section Granules

variable {C : Config} (h8 : C.mapping.granularity = 8)

include h8

theorem addressable_iff (σ : Mem) {x : ℕ} (hx : x ≤ C.mapping.kHighMemEnd) :
    addressIsPoisoned C.mapping.toLayout σ x = false ↔ Addressable (C.mapping.acc σ) x := by
  have h := C.mapping.addressIsPoisoned_eq_false_iff σ hx
  rw [h8] at h
  exact h

/-- The access map after `SetContainerGranule`. -/
theorem setContainerGranule_acc (σ : Mem) {q n : ℕ} (hmem : C.mapping.addrIsInMem (8 * q) = true)
    (hn : n ≤ 8) :
    ∃ σ', setContainerGranule C.mapping.toLayout σ (q * 8) (BitVec.ofNat 8 n) = some σ' ∧
      ∀ r, C.mapping.acc σ' r = if r = q then n else C.mapping.acc σ r := by
  have hnat : (BitVec.ofNat 8 n).toNat = n := by
    rw [BitVec.toNat_ofNat]
    omega
  have hzero : BitVec.ofNat 8 n ≠ 0 ↔ n ≠ 0 := by
    rw [ne_eq, ← BitVec.toNat_inj, hnat]
    rfl
  unfold setContainerGranule
  rw [memToShadow_eight h8 hmem, hnat, h8]
  refine ⟨_, rfl, fun r => ?_⟩
  rw [C.mapping.acc_set, h8]
  refine if_congr Iff.rfl ?_ rfl
  simp only [hzero]
  split_ifs with hall hpos
  · rw [prefixLen_zero, hall]
  · exact prefixLen_ofNat (by omega) hn (by omega)
  · rw [prefixLen_of_neg (by decide)]
    omega

theorem copyShadowByte_acc (σ : Mem) {q s : ℕ} (hq : C.mapping.addrIsInMem (8 * q) = true)
    (hs : C.mapping.addrIsInMem (8 * s) = true) :
    ∃ σ', copyShadowByte C.mapping.toLayout σ (q * 8) (s * 8) = some σ' ∧
      ∀ r, C.mapping.acc σ' r = if r = q then C.mapping.acc σ s else C.mapping.acc σ r := by
  unfold copyShadowByte
  rw [memToShadow_eight h8 hq, memToShadow_eight h8 hs]
  exact ⟨_, rfl, fun r => C.mapping.acc_set σ q _ r⟩

theorem granule_mem {x q : ℕ} (hx : C.mapping.addrIsInMem x = true) (hq : x / 8 = q) :
    C.mapping.addrIsInMem (8 * q) = true := by
  rw [← hx]
  exact C.mapping.addrIsInMem_congr (by rw [h8]; omega)

omit h8 in
theorem acc_self (σ : Mem) (q r : ℕ) :
    C.mapping.acc σ r = if r = q then C.mapping.acc σ q else C.mapping.acc σ r := by
  split_ifs with h
  · rw [h]
  · rfl

/-- The branches at the end of a turn, with `keep` and `store` for the conditions of either path. -/
theorem turn_acc (σ : Mem) {dstBeg dstEnd q u : ℕ} {keep store : Prop} [Decidable keep]
    [Decidable store]
    (hkeep : keep ↔ q = dstEnd / 8 ∧ dstEnd % 8 ≠ 0 ∧ Addressable (C.mapping.acc σ) dstEnd)
    (hstore : store ↔ u ≠ 0 ∨ dstBeg ≤ 8 * q) (hbeg : C.mapping.addrIsInMem dstBeg = true)
    (hq : C.mapping.addrIsInMem (8 * q) = true) (h2 : dstBeg < 8 * q + 8) (hu : u ≤ 8) :
    ∃ σ', (if keep then some σ
        else if store then
          setContainerGranule C.mapping.toLayout σ (q * 8) (BitVec.ofNat 8 u)
        else if addressIsPoisoned C.mapping.toLayout σ dstBeg = false then
          setContainerGranule C.mapping.toLayout σ (q * 8) (BitVec.ofNat 8 (dstBeg - q * 8))
        else some σ) = some σ' ∧
      ∀ r, C.mapping.acc σ' r =
        if r = q then turnValue (C.mapping.acc σ) dstBeg dstEnd q u else C.mapping.acc σ r := by
  have haddr := addressable_iff h8 σ (C.mapping.le_of_addrIsInMem hbeg)
  unfold turnValue
  by_cases hk : keep
  · simp only [if_pos hk, if_pos (hkeep.mp hk)]
    exact ⟨σ, rfl, acc_self σ q⟩
  simp only [if_neg hk, if_neg (mt hkeep.mpr hk)]
  by_cases hs : store
  · simp only [if_pos hs, if_pos (hstore.mp hs)]
    exact setContainerGranule_acc h8 σ hq hu
  simp only [if_neg hs, if_neg (mt hstore.mpr hs)]
  by_cases hb : addressIsPoisoned C.mapping.toLayout σ dstBeg = false
  · simp only [if_pos hb, if_pos (haddr.mp hb), Nat.mul_comm 8 q]
    exact setContainerGranule_acc h8 σ hq (by omega)
  · simp only [if_neg hb, if_neg (mt haddr.mpr hb)]
    exact ⟨σ, rfl, acc_self σ q⟩

section Turns

variable {dstBeg dstEnd : ℕ} (hlt : dstBeg < dstEnd)
  (hdst : ∀ x, dstBeg ≤ x → x < dstEnd → C.mapping.addrIsInMem x = true)

include hdst

omit h8 in
theorem dstEnd_le (hlt : dstBeg < dstEnd) : dstEnd ≤ C.mapping.kHighMemEnd + 1 := by
  have := C.mapping.le_of_addrIsInMem (hdst (dstEnd - 1) (by omega) (by omega))
  omega

include hlt

theorem dst_granule_mem {q : ℕ} (h1 : 8 * q < dstEnd) (h2 : dstBeg < 8 * q + 8) :
    C.mapping.addrIsInMem (8 * q) = true :=
  granule_mem h8 (hdst (max dstBeg (8 * q)) (by omega) (by omega)) (by omega)

theorem dstEnd_addressable_iff (σ : Mem) (hpos : dstEnd % 8 ≠ 0) :
    addressIsPoisoned C.mapping.toLayout σ dstEnd = false ↔
      Addressable (C.mapping.acc σ) dstEnd := by
  have hmem := hdst (dstEnd - 1) (by omega) (by omega)
  rw [C.mapping.addrIsInMem_congr (b := dstEnd) (by rw [h8]; omega)] at hmem
  exact addressable_iff h8 σ (C.mapping.le_of_addrIsInMem hmem)

theorem slowCopyGranule_acc (σ : Mem) {q u : ℕ} (h1 : 8 * q < dstEnd) (h2 : dstBeg < 8 * q + 8)
    (hu : u ≤ 8) :
    ∃ σ', slowCopyGranule C.mapping.toLayout σ dstBeg dstEnd (q * 8) (min (q * 8 + 8) dstEnd) u =
        some σ' ∧
      ∀ r, C.mapping.acc σ' r =
        if r = q then turnValue (C.mapping.acc σ) dstBeg dstEnd q u else C.mapping.acc σ r := by
  have hle := dstEnd_le hdst hlt
  have hhigh := C.mapping.kHighMemEnd_lt
  unfold slowCopyGranule
  rw [h8, roundDownTo_eight (by omega)]
  refine turn_acc h8 σ ?_ (by rw [Nat.mul_comm 8 q]) (hdst _ le_rfl hlt)
    (dst_granule_mem h8 hlt hdst h1 h2) h2 hu
  constructor
  · rintro ⟨hend, hpos, hp⟩
    exact ⟨by omega, by omega, (dstEnd_addressable_iff h8 hlt hdst σ (by omega)).mp hp⟩
  · rintro ⟨hq, hpos, haddr⟩
    exact ⟨by omega, by omega, (dstEnd_addressable_iff h8 hlt hdst σ hpos).mpr haddr⟩

theorem slowReversedCopyGranule_acc (σ : Mem) {q u : ℕ} (h1 : 8 * q < dstEnd)
    (h2 : dstBeg < 8 * q + 8) (hu : u ≤ 8) :
    ∃ σ', slowReversedCopyGranule C.mapping.toLayout σ dstBeg dstEnd (q * 8) (max (q * 8) dstBeg) u =
        some σ' ∧
      ∀ r, C.mapping.acc σ' r =
        if r = q then turnValue (C.mapping.acc σ) dstBeg dstEnd q u else C.mapping.acc σ r := by
  have hle := dstEnd_le hdst hlt
  have hhigh := C.mapping.kHighMemEnd_lt
  unfold slowReversedCopyGranule
  rw [h8, roundDownTo_eight (by omega)]
  refine turn_acc h8 σ ?_ (by omega) (hdst _ le_rfl hlt) (dst_granule_mem h8 hlt hdst h1 h2) h2 hu
  constructor
  · rintro ⟨hend, hp⟩
    exact ⟨by omega, by omega, (dstEnd_addressable_iff h8 hlt hdst σ (by omega)).mp hp⟩
  · rintro ⟨hq, hpos, haddr⟩
    exact ⟨by omega, (dstEnd_addressable_iff h8 hlt hdst σ hpos).mpr haddr⟩

end Turns

/-! ## The slow paths -/

section Slow

variable {A : ℕ → ℕ} {srcBeg dstBeg n : ℕ} (hA : ∀ q, A q ≤ 8) (hn : 0 < n)
  (hsrc : ∀ x, srcBeg ≤ x → x < srcBeg + n → C.mapping.addrIsInMem x = true)
  (hdst : ∀ x, dstBeg ≤ x → x < dstBeg + n → C.mapping.addrIsInMem x = true)

include hA hn hsrc hdst

/-- The forward loop from granule `q` on, when the granules before are done and the granules of the
bytes that are still to be read are not. -/
theorem slowCopyLoop_top {fuel srcPtr dstPtr q : ℕ} {σ : Mem}
    (horder : dstBeg ≤ srcBeg ∨ ∀ x, srcBeg ≤ x → x < srcBeg + n → x / 8 < dstBeg / 8)
    (hfuel : dstBeg + n ≤ dstPtr + fuel) (hptr : dstPtr = min (dstBeg + n) (max dstBeg (8 * q)))
    (hsrcPtr : srcPtr = srcBeg + (dstPtr - dstBeg)) (hq : dstBeg / 8 ≤ q)
    (hdone : ∀ r < q, Top (Copied A srcBeg dstBeg n) r (C.mapping.acc σ r))
    (hrest : ∀ r, q ≤ r ∨ r < dstBeg / 8 → C.mapping.acc σ r = A r) :
    ∃ σ', slowCopyLoop C.mapping.toLayout dstBeg (dstBeg + n) fuel σ srcPtr dstPtr = some σ' ∧
      ∀ r, Top (Copied A srcBeg dstBeg n) r (C.mapping.acc σ' r) := by
  have hle := dstEnd_le hdst (by omega)
  have hhigh := C.mapping.kHighMemEnd_lt
  induction fuel generalizing srcPtr dstPtr q σ with
  | zero =>
    rw [slowCopyLoop, if_neg (by omega)]
    exact ⟨σ, rfl, top_of_after hA (by omega) hdone fun r hr => hrest r (Or.inl hr)⟩
  | succ fuel ih =>
    rw [slowCopyLoop]
    split_ifs with hlt
    · have hdown : Word.roundDownTo 64 dstPtr 8 = q * 8 := by
        rw [roundDownTo_eight (by omega)]
        omega
      simp only [h8, hdown]
      -- The scan reads bytes of the source whose granules are as they were.
      have hscan := scanBytes_scanned (L := C.mapping.toLayout) (σ := σ)
        (S := fun x => Addressable A (srcBeg + (x - dstBeg))) (q := q)
        (min (q * 8 + 8) (dstBeg + n) - dstPtr) srcPtr (by omega) (le_refl dstPtr)
        (fun i hi => ?_) (scanned_self _ q dstPtr)
      swap
      · have hx : srcPtr + i = srcBeg + (dstPtr + i - dstBeg) := by omega
        have hmem := hsrc (srcPtr + i) (by omega) (by omega)
        rw [addressable_iff h8 σ (C.mapping.le_of_addrIsInMem hmem), ← hx]
        unfold Addressable
        rw [hrest]
        rcases horder with h | h
        · exact Or.inl (by omega)
        · exact Or.inr (h _ (by omega) (by omega))
      rw [Nat.add_sub_cancel' (by omega)] at hscan
      generalize scanBytes C.mapping.toLayout σ (q * 8) _ srcPtr dstPtr 0 = u at hscan ⊢
      have hu := hscan.le (by omega)
      obtain ⟨σ', hrun, hacc⟩ := slowCopyGranule_acc h8 (show dstBeg < dstBeg + n by omega) hdst σ
        (q := q) (by omega) (by omega) hu
      have htop := top_turnValue (hA q) (by omega) (by omega)
        (show Scanned _ q (max dstBeg (8 * q)) (min (dstBeg + n) (8 * q + 8)) u by
          convert hscan using 1 <;> omega)
      rw [hrun, Option.bind_some]
      refine ih (q := q + 1) (by omega) (by omega) (by omega) (by omega) (fun r hr => ?_)
        (fun r hr => ?_)
      · rw [hacc]
        split_ifs with heq
        · rw [turnValue_congr (hrest q (Or.inl le_rfl)) (by omega), heq]
          exact htop
        · exact hdone r (by omega)
      · rw [hacc, if_neg (by omega)]
        exact hrest r (by omega)
    · exact ⟨σ, rfl, top_of_after hA (by omega) hdone fun r hr => hrest r (Or.inl hr)⟩

/-- The backward loop from granule `q` down, when that granule and those after it are done and the
granules of the bytes that are still to be read are not. -/
theorem slowReversedCopyLoop_top {fuel srcPtr dstPtr q : ℕ} {σ : Mem}
    (horder : srcBeg ≤ dstBeg ∨
      ∀ x, srcBeg ≤ x → x < srcBeg + n → (dstBeg + n - 1) / 8 < x / 8)
    (hfuel : dstPtr ≤ dstBeg + fuel) (hptr : dstPtr = max dstBeg (min (dstBeg + n) (8 * q)))
    (hsrcPtr : srcPtr = srcBeg + (dstPtr - dstBeg)) (hq : 8 * q < dstBeg + n + 8)
    (hdone : ∀ r, q ≤ r → Top (Copied A srcBeg dstBeg n) r (C.mapping.acc σ r))
    (hrest : ∀ r, r < q ∨ (dstBeg + n - 1) / 8 < r → C.mapping.acc σ r = A r) :
    ∃ σ', slowReversedCopyLoop C.mapping.toLayout dstBeg (dstBeg + n) fuel σ srcPtr dstPtr =
        some σ' ∧
      ∀ r, Top (Copied A srcBeg dstBeg n) r (C.mapping.acc σ' r) := by
  have hle := dstEnd_le hdst (by omega)
  have hhigh := C.mapping.kHighMemEnd_lt
  induction fuel generalizing srcPtr dstPtr q σ with
  | zero =>
    rw [slowReversedCopyLoop, if_neg (by omega)]
    exact ⟨σ, rfl, top_of_before hA (by omega) hdone fun r hr => hrest r (Or.inl hr)⟩
  | succ fuel ih =>
    rw [slowReversedCopyLoop]
    split_ifs with hlt
    · obtain ⟨q, rfl⟩ : ∃ p, q = p + 1 := ⟨q - 1, by omega⟩
      have hdown : Word.roundDownTo 64 (dstPtr - 1) 8 = q * 8 := by
        rw [roundDownTo_eight (by omega)]
        omega
      simp only [h8, hdown]
      -- The scan reads bytes of the source whose granules are as they were.
      have hscan := scanBytesReversed_scanned (L := C.mapping.toLayout) (σ := σ)
        (S := fun x => Addressable A (srcBeg + (x - dstBeg))) (q := q)
        (dstPtr - max (q * 8) dstBeg) srcPtr (by omega) (le_refl dstPtr)
        (fun i hi => ?_) (scanned_self _ q dstPtr)
      swap
      · have hx : srcPtr - (i + 1) = srcBeg + (dstPtr - (i + 1) - dstBeg) := by omega
        have hmem := hsrc (srcPtr - (i + 1)) (by omega) (by omega)
        rw [addressable_iff h8 σ (C.mapping.le_of_addrIsInMem hmem), ← hx]
        unfold Addressable
        rw [hrest]
        rcases horder with h | h
        · exact Or.inl (by omega)
        · exact Or.inr (h _ (by omega) (by omega))
      rw [Nat.sub_sub_self (by omega)] at hscan
      generalize scanBytesReversed C.mapping.toLayout σ (q * 8) _ srcPtr dstPtr 0 = u at hscan ⊢
      have hu := hscan.le (by omega)
      obtain ⟨σ', hrun, hacc⟩ :=
        slowReversedCopyGranule_acc h8 (show dstBeg < dstBeg + n by omega) hdst σ
          (q := q) (by omega) (by omega) hu
      have htop := top_turnValue (hA q) (by omega) (by omega)
        (show Scanned _ q (max dstBeg (8 * q)) (min (dstBeg + n) (8 * q + 8)) u by
          convert hscan using 1 <;> omega)
      rw [hrun, Option.bind_some]
      refine ih (q := q) (by omega) (by omega) (by omega) (by omega) (fun r hr => ?_)
        (fun r hr => ?_)
      · rw [hacc]
        split_ifs with heq
        · rw [turnValue_congr (hrest q (Or.inl (by omega))) (by omega), heq]
          exact htop
        · exact hdone r (by omega)
      · rw [hacc, if_neg (by omega)]
        exact hrest r (by omega)
    · exact ⟨σ, rfl, top_of_before hA (by omega) hdone fun r hr => hrest r (Or.inl hr)⟩

end Slow

/-! ## The fast path -/

section Fast

variable {srcBeg dstBeg n : ℕ} (hal : srcBeg % 8 = dstBeg % 8)
  (hlong : dstBeg / 8 < (dstBeg + n - 1) / 8)
  (hsrc : ∀ x, srcBeg ≤ x → x < srcBeg + n → C.mapping.addrIsInMem x = true)
  (hdst : ∀ x, dstBeg ≤ x → x < dstBeg + n → C.mapping.addrIsInMem x = true)

omit h8 in
theorem eq_ite_of_update {B B' V : ℕ → ℕ} {q v : ℕ} {p : Prop} [Decidable p] (hp : p)
    (hv : V q = v) (h : ∀ r, B' r = if r = q then v else B r) (r : ℕ) :
    B' r = if r = q ∧ p then V r else B r := by
  rw [h]
  by_cases hr : r = q
  · rw [if_pos hr, if_pos ⟨hr, hp⟩, hr, hv]
  · rw [if_neg hr, if_neg fun h => hr h.1]

omit h8 in
theorem acc_move (σ : Mem) (q s k r : ℕ) :
    C.mapping.acc (σ.move (q + C.mapping.offset) (s + C.mapping.offset) k) r =
      if q ≤ r ∧ r < q + k then C.mapping.acc σ (s + (r - q)) else C.mapping.acc σ r := by
  unfold Mapping.acc Mem.move
  split_ifs with h1 h2 h2
  · rw [show s + C.mapping.offset + (r + C.mapping.offset - (q + C.mapping.offset)) =
      s + (r - q) + C.mapping.offset by omega]
  all_goals first | rfl | omega

include hal hlong hsrc hdst

/-- The access map after `CopyContainerFirstGranuleAnnotation`. -/
theorem copyFirst_acc (σ : Mem) :
    ∃ σ', copyContainerFirstGranuleAnnotation C.mapping.toLayout σ srcBeg dstBeg = some σ' ∧
      ∀ r, C.mapping.acc σ' r =
        if r = dstBeg / 8 ∧ dstBeg % 8 ≠ 0 then granuleValue (C.mapping.acc σ) srcBeg dstBeg n r
        else C.mapping.acc σ r := by
  have hle := dstEnd_le hdst (by omega)
  have hsle := dstEnd_le hsrc (by omega)
  have hhigh := C.mapping.kHighMemEnd_lt
  have hsmem := hsrc srcBeg le_rfl (by omega)
  have hdmem := hdst dstBeg le_rfl (by omega)
  have hsq := granule_mem h8 hsmem rfl
  have hdq := granule_mem h8 hdmem rfl
  have hAs := C.mapping.acc_le σ (srcBeg / 8)
  rw [h8] at hAs
  have hs : srcGranule srcBeg dstBeg (dstBeg / 8) = srcBeg / 8 := by
    unfold srcGranule
    omega
  unfold copyContainerFirstGranuleAnnotation
  rw [h8, roundDownTo_eight (by omega), roundDownTo_eight (by omega)]
  simp only [addressable_iff h8 σ (C.mapping.le_of_addrIsInMem hsmem),
    addressable_iff h8 σ (C.mapping.le_of_addrIsInMem hdmem)]
  by_cases hdown : dstBeg / 8 * 8 = dstBeg
  · rw [if_pos hdown]
    exact ⟨σ, rfl, fun r => (if_neg (by omega)).symm⟩
  rw [if_neg hdown]
  -- The first granule ends inside the destination.
  have hvalue : granuleValue (C.mapping.acc σ) srcBeg dstBeg n (dstBeg / 8) =
      if Addressable (C.mapping.acc σ) srcBeg then C.mapping.acc σ (srcBeg / 8)
      else if Addressable (C.mapping.acc σ) dstBeg then dstBeg - dstBeg / 8 * 8
      else C.mapping.acc σ (dstBeg / 8) := by
    unfold granuleValue turnValue
    rw [hs, if_neg (by omega)]
    by_cases haddr : Addressable (C.mapping.acc σ) srcBeg
    · have hlast : srcBeg % 8 < C.mapping.acc σ (srcBeg / 8) := haddr
      rw [if_pos haddr, if_neg (show ¬ 8 * (dstBeg / 8) + C.mapping.acc σ (srcBeg / 8) ≤
        max dstBeg (8 * (dstBeg / 8)) by omega), if_pos (Or.inl (by omega))]
      omega
    · have hlast : ¬ srcBeg % 8 < C.mapping.acc σ (srcBeg / 8) := haddr
      rw [if_neg haddr, if_pos (show 8 * (dstBeg / 8) + C.mapping.acc σ (srcBeg / 8) ≤
        max dstBeg (8 * (dstBeg / 8)) by omega), if_neg (by omega), Nat.mul_comm 8]
  have hpos : dstBeg % 8 ≠ 0 := by omega
  split_ifs with haddr hbeg
  · rw [if_pos haddr] at hvalue
    obtain ⟨σ', hrun, hacc⟩ := copyShadowByte_acc h8 σ hdq hsq
    exact ⟨σ', hrun, eq_ite_of_update hpos hvalue hacc⟩
  · rw [if_neg haddr, if_pos hbeg] at hvalue
    obtain ⟨σ', hrun, hacc⟩ := setContainerGranule_acc h8 σ hdq
      (show dstBeg - dstBeg / 8 * 8 ≤ 8 by omega)
    exact ⟨σ', hrun, eq_ite_of_update hpos hvalue hacc⟩
  · rw [if_neg haddr, if_neg hbeg] at hvalue
    exact ⟨σ, rfl, eq_ite_of_update hpos hvalue (acc_self σ _)⟩

/-- The access map after `CopyContainerLastGranuleAnnotation`. -/
theorem copyLast_acc (σ : Mem) :
    ∃ σ', copyContainerLastGranuleAnnotation C.mapping.toLayout σ (srcBeg + n) (dstBeg + n) =
        some σ' ∧
      ∀ r, C.mapping.acc σ' r =
        if r = (dstBeg + n) / 8 ∧ (dstBeg + n) % 8 ≠ 0 then
          granuleValue (C.mapping.acc σ) srcBeg dstBeg n r
        else C.mapping.acc σ r := by
  have hle := dstEnd_le hdst (by omega)
  have hsle := dstEnd_le hsrc (by omega)
  have hhigh := C.mapping.kHighMemEnd_lt
  unfold copyContainerLastGranuleAnnotation
  rw [h8, roundDownTo_eight (by omega), roundDownTo_eight (by omega)]
  by_cases hdown : (dstBeg + n) / 8 * 8 = dstBeg + n
  · rw [if_pos (Or.inl hdown)]
    exact ⟨σ, rfl, fun r => (if_neg (by omega)).symm⟩
  have hdmem := hdst (dstBeg + n - 1) (by omega) (by omega)
  have hsmem := hsrc (srcBeg + n - 1) (by omega) (by omega)
  have hdq := granule_mem h8 hdmem (q := (dstBeg + n) / 8) (by omega)
  have hsq := granule_mem h8 hsmem (q := (srcBeg + n) / 8) (by omega)
  have hs : srcGranule srcBeg dstBeg ((dstBeg + n) / 8) = (srcBeg + n) / 8 := by
    unfold srcGranule
    omega
  simp only [← Bool.not_eq_false, dstEnd_addressable_iff h8 (show dstBeg < dstBeg + n by omega) hdst σ (by omega),
    dstEnd_addressable_iff h8 (show srcBeg < srcBeg + n by omega) hsrc σ (by omega)]
  -- The last granule starts inside the destination.
  have hvalue : granuleValue (C.mapping.acc σ) srcBeg dstBeg n ((dstBeg + n) / 8) =
      if Addressable (C.mapping.acc σ) (dstBeg + n) then C.mapping.acc σ ((dstBeg + n) / 8)
      else if Addressable (C.mapping.acc σ) (srcBeg + n) then
        srcBeg + n - (srcBeg + n) / 8 * 8
      else C.mapping.acc σ ((srcBeg + n) / 8) := by
    unfold granuleValue turnValue
    rw [hs]
    by_cases hend : Addressable (C.mapping.acc σ) (dstBeg + n)
    · rw [if_pos hend, if_pos ⟨rfl, by omega, hend⟩]
    · rw [if_neg hend, if_neg (fun h => hend h.2.2), if_pos (Or.inr (by omega))]
      by_cases haddr : Addressable (C.mapping.acc σ) (srcBeg + n)
      · have hlast : (srcBeg + n) % 8 < C.mapping.acc σ ((srcBeg + n) / 8) := haddr
        rw [if_pos haddr]
        split_ifs <;> omega
      · have hlast : ¬ (srcBeg + n) % 8 < C.mapping.acc σ ((srcBeg + n) / 8) := haddr
        rw [if_neg haddr]
        split_ifs <;> omega
  have hpos : (dstBeg + n) % 8 ≠ 0 := by omega
  by_cases hend : Addressable (C.mapping.acc σ) (dstBeg + n)
  · rw [if_pos hend] at hvalue
    rw [if_pos (Or.inr hend)]
    exact ⟨σ, rfl, eq_ite_of_update hpos hvalue (acc_self σ _)⟩
  rw [if_neg hend] at hvalue
  rw [if_neg (not_or.mpr ⟨hdown, hend⟩)]
  split_ifs with haddr
  · rw [if_pos haddr] at hvalue
    obtain ⟨σ', hrun, hacc⟩ := setContainerGranule_acc h8 σ hdq
      (show srcBeg + n - (srcBeg + n) / 8 * 8 ≤ 8 by omega)
    exact ⟨σ', hrun, eq_ite_of_update hpos hvalue hacc⟩
  · rw [if_neg haddr] at hvalue
    obtain ⟨σ', hrun, hacc⟩ := copyShadowByte_acc h8 σ hdq hsq
    exact ⟨σ', hrun, eq_ite_of_update hpos hvalue hacc⟩

/-- The access map after the granules in the middle are moved. -/
theorem copyMiddle_acc (σ : Mem) :
    ∃ σ', copyMiddleGranules C.mapping.toLayout σ srcBeg dstBeg (dstBeg + n) = some σ' ∧
      ∀ r, C.mapping.acc σ' r =
        if dstBeg ≤ 8 * r ∧ 8 * r + 8 ≤ dstBeg + n then
          granuleValue (C.mapping.acc σ) srcBeg dstBeg n r
        else C.mapping.acc σ r := by
  have hle := dstEnd_le hdst (by omega)
  have hsle := dstEnd_le hsrc (by omega)
  have hhigh := C.mapping.kHighMemEnd_lt
  unfold copyMiddleGranules
  rw [h8, roundDownTo_eight (by omega), roundUpTo_eight (by omega), roundUpTo_eight (by omega)]
  dsimp only
  split_ifs with hlt
  · have hdq := granule_mem h8 (hdst ((dstBeg + 7) / 8 * 8) (by omega) (by omega))
      (q := (dstBeg + 7) / 8) (by omega)
    have hsq := granule_mem h8 (hsrc ((srcBeg + 7) / 8 * 8) (by omega) (by omega))
      (q := (srcBeg + 7) / 8) (by omega)
    rw [memToShadow_eight h8 hdq, memToShadow_eight h8 hsq]
    refine ⟨_, rfl, fun r => ?_⟩
    rw [acc_move]
    by_cases hr : dstBeg ≤ 8 * r ∧ 8 * r + 8 ≤ dstBeg + n
    · have hA := C.mapping.acc_le σ (srcGranule srcBeg dstBeg r)
      rw [h8] at hA
      rw [if_pos hr, if_pos (by omega), granuleValue_middle hA hr.1 hr.2]
      have hs := srcGranule_spec hal (show dstBeg < 8 * r + 8 by omega)
      congr 1
      omega
    · rw [if_neg hr, if_neg (by omega)]
  · exact ⟨σ, rfl, fun r => (if_neg (by omega)).symm⟩

/-- The fast path when the destination does not start in the source: the first granule, the granules in
the middle, the last granule. -/
theorem copyForward_top (σ : Mem)
    (horder : dstBeg ≤ srcBeg ∨ ∀ x, srcBeg ≤ x → x < srcBeg + n → x / 8 < dstBeg / 8) :
    ∃ σ', (do
        let σ ← copyContainerFirstGranuleAnnotation C.mapping.toLayout σ srcBeg dstBeg
        let σ ← copyMiddleGranules C.mapping.toLayout σ srcBeg dstBeg (dstBeg + n)
        copyContainerLastGranuleAnnotation C.mapping.toLayout σ (srcBeg + n) (dstBeg + n)) =
          some σ' ∧
      ∀ r, Top (Copied (C.mapping.acc σ) srcBeg dstBeg n) r (C.mapping.acc σ' r) := by
  obtain ⟨σ₁, hrun₁, hacc₁⟩ := copyFirst_acc h8 hal hlong hsrc hdst σ
  obtain ⟨σ₂, hrun₂, hacc₂⟩ := copyMiddle_acc h8 hal hlong hsrc hdst σ₁
  obtain ⟨σ₃, hrun₃, hacc₃⟩ := copyLast_acc h8 hal hlong hsrc hdst σ₂
  refine ⟨σ₃, Option.bind_eq_some_iff.mpr
    ⟨σ₁, hrun₁, Option.bind_eq_some_iff.mpr ⟨σ₂, hrun₂, hrun₃⟩⟩, fun r => ?_⟩
  have hA : ∀ q, C.mapping.acc σ q ≤ 8 := fun q => h8 ▸ C.mapping.acc_le σ q
  by_cases hin : 8 * r < dstBeg + n ∧ dstBeg < 8 * r + 8
  · -- A granule of the source is read before it is overwritten.
    have hs := srcGranule_spec hal hin.2
    have hread : r ≤ srcGranule srcBeg dstBeg r ∨
        (dstBeg ≤ 8 * r → srcGranule srcBeg dstBeg r < dstBeg / 8) := by
      rcases horder with h | h
      · exact Or.inl (by omega)
      · refine Or.inr fun hle => ?_
        have := h (srcBeg + (8 * r - dstBeg)) (by omega) (by omega)
        omega
    have htop := top_granuleValue hal hin.2 (hA r) (by omega) hin.1
    rw [hacc₃]
    split_ifs with hlast
    · rw [granuleValue_congr (A := C.mapping.acc σ) hin.2]
      · exact htop
      · rw [hacc₂, if_neg (by omega), hacc₁, if_neg (by omega)]
      · rw [hacc₂, if_neg (by omega), hacc₁, if_neg (by omega)]
    · rw [hacc₂]
      split_ifs with hmiddle
      · rw [granuleValue_congr (A := C.mapping.acc σ) hin.2]
        · exact htop
        · rw [hacc₁, if_neg (by omega)]
        · rw [hacc₁, if_neg (by omega)]
      · rw [hacc₁, if_pos (by omega)]
        exact htop
  · rw [hacc₃, if_neg (by omega), hacc₂, if_neg (by omega), hacc₁, if_neg (by omega)]
    exact top_of_outside (hA r) (by omega)

/-- The fast path when the source does not start after the destination: the last granule, the granules
in the middle, the first granule. -/
theorem copyBackward_top (σ : Mem) (horder : srcBeg ≤ dstBeg) :
    ∃ σ', (do
        let σ ← copyContainerLastGranuleAnnotation C.mapping.toLayout σ (srcBeg + n) (dstBeg + n)
        let σ ← copyMiddleGranules C.mapping.toLayout σ srcBeg dstBeg (dstBeg + n)
        copyContainerFirstGranuleAnnotation C.mapping.toLayout σ srcBeg dstBeg) = some σ' ∧
      ∀ r, Top (Copied (C.mapping.acc σ) srcBeg dstBeg n) r (C.mapping.acc σ' r) := by
  obtain ⟨σ₁, hrun₁, hacc₁⟩ := copyLast_acc h8 hal hlong hsrc hdst σ
  obtain ⟨σ₂, hrun₂, hacc₂⟩ := copyMiddle_acc h8 hal hlong hsrc hdst σ₁
  obtain ⟨σ₃, hrun₃, hacc₃⟩ := copyFirst_acc h8 hal hlong hsrc hdst σ₂
  refine ⟨σ₃, Option.bind_eq_some_iff.mpr
    ⟨σ₁, hrun₁, Option.bind_eq_some_iff.mpr ⟨σ₂, hrun₂, hrun₃⟩⟩, fun r => ?_⟩
  have hA : ∀ q, C.mapping.acc σ q ≤ 8 := fun q => h8 ▸ C.mapping.acc_le σ q
  by_cases hin : 8 * r < dstBeg + n ∧ dstBeg < 8 * r + 8
  · -- A granule of the source is not after that of the destination.
    have hs := srcGranule_spec hal hin.2
    have htop := top_granuleValue hal hin.2 (hA r) (by omega) hin.1
    rw [hacc₃]
    split_ifs with hfirst
    · rw [granuleValue_congr (A := C.mapping.acc σ) hin.2]
      · exact htop
      · rw [hacc₂, if_neg (by omega), hacc₁, if_neg (by omega)]
      · rw [hacc₂, if_neg (by omega), hacc₁, if_neg (by omega)]
    · rw [hacc₂]
      split_ifs with hmiddle
      · rw [granuleValue_congr (A := C.mapping.acc σ) hin.2]
        · exact htop
        · rw [hacc₁, if_neg (by omega)]
        · rw [hacc₁, if_neg (by omega)]
      · rw [hacc₁, if_pos (by omega)]
        exact htop
  · rw [hacc₃, if_neg (by omega), hacc₂, if_neg (by omega), hacc₁, if_neg (by omega)]
    exact top_of_outside (hA r) (by omega)

end Fast

end Granules

/-! ## The copy -/

/-- The poison bit of byte `x` in the ideal state after the copy. -/
def idealIsPoisoned (L : Layout) (σ : Mem) (srcBeg dstBeg n x : ℕ) : Bool :=
  if dstBeg ≤ x ∧ x < dstBeg + n then addressIsPoisoned L σ (srcBeg + (x - dstBeg))
  else addressIsPoisoned L σ x

/-- `σ'` is as close to the ideal state as a shadow of prefixes can be without a false positive. -/
def IsCopy (M : Mapping) (σ σ' : Mem) (srcBeg dstBeg n : ℕ) : Prop :=
  ∀ x, M.addrIsInMem x = true →
    (addressIsPoisoned M.toLayout σ' x = false ↔
      ∃ y, x ≤ y ∧ y / 8 = x / 8 ∧ idealIsPoisoned M.toLayout σ srcBeg dstBeg n y = false)

section Copy

variable {C : Config} (h8 : C.mapping.granularity = 8) {srcBeg dstBeg n : ℕ}
  (hsrc : ∀ x, srcBeg ≤ x → x < srcBeg + n → C.mapping.addrIsInMem x = true)
  (hdst : ∀ x, dstBeg ≤ x → x < dstBeg + n → C.mapping.addrIsInMem x = true)

include h8 hsrc

theorem isCopy_of_top {σ σ' : Mem}
    (h : ∀ r, Top (Copied (C.mapping.acc σ) srcBeg dstBeg n) r (C.mapping.acc σ' r)) :
    IsCopy C.mapping σ σ' srcBeg dstBeg n := by
  intro x hx
  rw [addressable_iff h8 σ' (C.mapping.le_of_addrIsInMem hx)]
  refine (h (x / 8)).lt_iff.trans (exists_congr fun y => ?_)
  refine and_congr_right fun _ => and_congr_right fun hy => ?_
  have hmem : C.mapping.addrIsInMem y = true := by
    rw [← hx]
    exact C.mapping.addrIsInMem_congr (by rw [h8, hy])
  unfold Copied idealIsPoisoned
  split_ifs with hin
  · exact (addressable_iff h8 σ
      (C.mapping.le_of_addrIsInMem (hsrc _ (by omega) (by omega)))).symm
  · exact (addressable_iff h8 σ (C.mapping.le_of_addrIsInMem hmem)).symm

theorem isCopy_self (σ : Mem) (h : n = 0 ∨ srcBeg = dstBeg) :
    IsCopy C.mapping σ σ srcBeg dstBeg n := by
  refine isCopy_of_top h8 hsrc fun r => ?_
  have hA := C.mapping.acc_le σ r
  rw [h8] at hA
  refine top_of_unchanged hA fun x _ => ?_
  unfold Copied
  split_ifs with hin
  · rw [show srcBeg + (x - dstBeg) = x by omega]
  · exact Iff.rfl

include hdst

theorem slowCopy_isCopy (σ : Mem)
    (horder : dstBeg ≤ srcBeg ∨ ∀ x, srcBeg ≤ x → x < srcBeg + n → x / 8 < dstBeg / 8) :
    ∃ σ', slowCopyContainerAnnotations C.mapping.toLayout σ srcBeg dstBeg (dstBeg + n) = some σ' ∧
      IsCopy C.mapping σ σ' srcBeg dstBeg n := by
  unfold slowCopyContainerAnnotations
  rcases Nat.eq_zero_or_pos n with rfl | hn
  · rw [Nat.add_zero, Nat.sub_self, slowCopyLoop, if_neg (lt_irrefl _)]
    exact ⟨σ, rfl, isCopy_self h8 hsrc σ (Or.inl rfl)⟩
  have hA : ∀ q, C.mapping.acc σ q ≤ 8 := fun q => h8 ▸ C.mapping.acc_le σ q
  obtain ⟨σ', hrun, htop⟩ := slowCopyLoop_top h8 hA hn hsrc hdst (σ := σ) (q := dstBeg / 8) horder
    (show dstBeg + n ≤ dstBeg + (dstBeg + n - dstBeg) by omega) (by omega)
    (show srcBeg = srcBeg + (dstBeg - dstBeg) by omega) le_rfl
    (fun r hr => top_of_outside (hA r) (Or.inl (by omega))) (fun _ _ => rfl)
  exact ⟨σ', hrun, isCopy_of_top h8 hsrc htop⟩

theorem slowReversedCopy_isCopy (σ : Mem)
    (horder : srcBeg ≤ dstBeg ∨
      ∀ x, srcBeg ≤ x → x < srcBeg + n → (dstBeg + n - 1) / 8 < x / 8) :
    ∃ σ', slowReversedCopyContainerAnnotations C.mapping.toLayout σ (srcBeg + n) dstBeg
        (dstBeg + n) = some σ' ∧ IsCopy C.mapping σ σ' srcBeg dstBeg n := by
  unfold slowReversedCopyContainerAnnotations
  rcases Nat.eq_zero_or_pos n with rfl | hn
  · rw [Nat.add_zero, Nat.add_zero, Nat.sub_self, slowReversedCopyLoop, if_neg (lt_irrefl _)]
    exact ⟨σ, rfl, isCopy_self h8 hsrc σ (Or.inl rfl)⟩
  have hA : ∀ q, C.mapping.acc σ q ≤ 8 := fun q => h8 ▸ C.mapping.acc_le σ q
  obtain ⟨σ', hrun, htop⟩ := slowReversedCopyLoop_top h8 hA hn hsrc hdst (σ := σ)
    (q := (dstBeg + n + 7) / 8) horder
    (show dstBeg + n ≤ dstBeg + (dstBeg + n - dstBeg) by omega) (by omega)
    (show srcBeg + n = srcBeg + (dstBeg + n - dstBeg) by omega) (by omega)
    (fun r hr => top_of_outside (hA r) (Or.inr (by omega))) (fun _ _ => rfl)
  exact ⟨σ', hrun, isCopy_of_top h8 hsrc htop⟩

omit hdst in
theorem copyInReversedOrder_spec (dstBeg : ℕ) (hn : 0 < n) :
    if copyInReversedOrder C.mapping.toLayout srcBeg (srcBeg + n) dstBeg then srcBeg ≤ dstBeg
    else dstBeg ≤ srcBeg ∨ ∀ x, srcBeg ≤ x → x < srcBeg + n → x / 8 < dstBeg / 8 := by
  have hsle := dstEnd_le hsrc (by omega)
  have hhigh := C.mapping.kHighMemEnd_lt
  unfold copyInReversedOrder
  rw [h8, roundUpTo_eight (by omega)]
  split_ifs with h <;> simp only [Bool.and_eq_true, decide_eq_true_eq] at h
  · exact h.1.le
  · refine (Nat.lt_or_ge srcBeg dstBeg).symm.imp_right fun hlt x h1 h2 => ?_
    have hafter := not_and.mp h hlt
    omega

theorem copyByBytes_isCopy (σ : Mem) (hn : 0 < n) :
    ∃ σ', copyByBytes C.mapping.toLayout σ srcBeg (srcBeg + n) dstBeg (dstBeg + n) = some σ' ∧
      IsCopy C.mapping σ σ' srcBeg dstBeg n := by
  have horder := copyInReversedOrder_spec h8 hsrc dstBeg hn
  unfold copyByBytes
  split_ifs at horder ⊢
  · exact slowReversedCopy_isCopy h8 hsrc hdst σ (Or.inl horder)
  · exact slowCopy_isCopy h8 hsrc hdst σ horder

theorem copyByGranules_isCopy (σ : Mem) (hal : srcBeg % 8 = dstBeg % 8)
    (hlong : dstBeg / 8 < (dstBeg + n - 1) / 8) :
    ∃ σ', copyByGranules C.mapping.toLayout σ srcBeg (srcBeg + n) dstBeg (dstBeg + n) = some σ' ∧
      IsCopy C.mapping σ σ' srcBeg dstBeg n := by
  have horder := copyInReversedOrder_spec h8 hsrc dstBeg (by omega)
  unfold copyByGranules
  split_ifs at horder ⊢
  · obtain ⟨σ', hrun, htop⟩ := copyBackward_top h8 hal hlong hsrc hdst σ horder
    exact ⟨σ', hrun, isCopy_of_top h8 hsrc htop⟩
  · obtain ⟨σ', hrun, htop⟩ := copyForward_top h8 hal hlong hsrc hdst σ horder
    exact ⟨σ', hrun, isCopy_of_top h8 hsrc htop⟩

end Copy

/-- For every shadow and every two buffers of the same length in application memory, at any distance:
the annotations are copied, so that a byte is addressable exactly when it or a later byte of its granule
is addressable in the ideal state. The slow paths agree: the forward one unless the destination starts
after the source and shares a granule with it, the backward one unless the source starts after the
destination and shares a granule with it. -/
theorem copyAnnotations_ideal (C : Config) (hscale : C.mapping.scale = 3)
    (hflag : C.detectContainerOverflow = true) (σ : Mem) (srcBeg dstBeg n : ℕ)
    (hsrc : ∀ x, srcBeg ≤ x → x < srcBeg + n → C.mapping.addrIsInMem x = true)
    (hdst : ∀ x, dstBeg ≤ x → x < dstBeg + n → C.mapping.addrIsInMem x = true) :
    (∃ σ', copyContiguousContainerAnnotations C σ srcBeg (srcBeg + n) dstBeg (dstBeg + n) =
        some σ' ∧ IsCopy C.mapping σ σ' srcBeg dstBeg n) ∧
    (dstBeg ≤ srcBeg ∨ (∀ x, srcBeg ≤ x → x < srcBeg + n → x / 8 < dstBeg / 8) →
      ∃ σ', slowCopyContainerAnnotations C.mapping.toLayout σ srcBeg dstBeg (dstBeg + n) =
        some σ' ∧ IsCopy C.mapping σ σ' srcBeg dstBeg n) ∧
    (srcBeg ≤ dstBeg ∨ (∀ x, srcBeg ≤ x → x < srcBeg + n → (dstBeg + n - 1) / 8 < x / 8) →
      ∃ σ', slowReversedCopyContainerAnnotations C.mapping.toLayout σ (srcBeg + n) dstBeg
        (dstBeg + n) = some σ' ∧ IsCopy C.mapping σ σ' srcBeg dstBeg n) := by
  have h8 := C.mapping.granularity_eq_eight hscale
  refine ⟨?_, slowCopy_isCopy h8 hsrc hdst σ, slowReversedCopy_isCopy h8 hsrc hdst σ⟩
  have hsub : ∀ a, Word.sub 64 (a + n) a = n % 2^64 := fun a => by
    unfold Word.sub
    rw [show a + n + 2^64 - a = n + 2^64 by omega, Nat.add_mod_right]
  unfold copyContiguousContainerAnnotations
  simp only [hflag, h8, hsub, Bool.not_true, Bool.false_eq_true, if_false, ne_eq,
    not_true_eq_false, or_false]
  rw [if_neg (by omega)]
  split_ifs with hsame hslow
  · exact ⟨σ, rfl, isCopy_self h8 hsrc σ (by omega)⟩
  · exact copyByBytes_isCopy h8 hsrc hdst σ (by omega)
  · have hle := dstEnd_le hdst (by omega)
    have hhigh := C.mapping.kHighMemEnd_lt
    rw [roundDownTo_eight (by omega)] at hslow
    exact copyByGranules_isCopy h8 hsrc hdst σ (by omega) (by omega)

/-- Buffers that share a granule and overlap by less than one: each byte of the source goes one byte
further. -/
theorem copyAnnotations_ideal_shifted :
    ∃ σ', copyContiguousContainerAnnotations Config.linuxX64 partialGranule 0xff9 (0xff9 + 12) 0xffa
        (0xffa + 12) = some σ' ∧ IsCopy Mapping.linuxX64 partialGranule σ' 0xff9 0xffa 12 :=
  (copyAnnotations_ideal Config.linuxX64 rfl rfl partialGranule 0xff9 0xffa 12
    (fun x _ h => linuxX64_lowMem (show x ≤ 0x7fff7fff by omega))
    (fun x _ h => linuxX64_lowMem (show x ≤ 0x7fff7fff by omega))).1

end Tasan.Asan
