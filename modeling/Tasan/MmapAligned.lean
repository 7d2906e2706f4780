import Tasan.Word

/-!
# Aligned mappings

`MmapAlignedOrDieOnFatalError` maps the size and the alignment together, and then unmaps what is before the
first multiple of the alignment and what is behind the end. What the kernel answers is a parameter. It puts a
mapping at a page and below the last address (`Kernel.Maps`).

The end, rounded up to a page, is not behind the end of the mapping, because that is a page
(`Word.roundUpTo_le_iff`). Then only the pages from the result to the rounded end stay mapped
(`mmapAlignedOrDieOnFatalError_spec`).
-/

namespace Tasan.Mmap

/-- The ways in which the process ends. -/
inductive Death
  /-- A failed `CHECK`. -/
  | check
  /-- `ReportMmapFailureAndDie`. -/
  | mmapFailure
  /-- `ReportMunmapFailureAndDie`. -/
  | munmapFailure
  deriving DecidableEq

/-- What `mmap` answers. -/
inductive MmapResult
  /-- The address of the mapping. -/
  | mapped (addr : ℕ)
  /-- An error. -/
  | error (errno : ℕ)

/-- The kernel. -/
structure Kernel where
  /-- The logarithm of the page size. -/
  pageLog : ℕ
  /-- The answer to a request for a mapping of some size. -/
  mmap : ℕ → MmapResult
  /-- Whether it unmaps a range. -/
  munmap : ℕ → ℕ → Bool

namespace Kernel

/-- `GetPageSizeCached()`. -/
def page (K : Kernel) : ℕ := 2^K.pageLog

/-- A mapping starts at a page, and its end is an address. -/
def Maps (K : Kernel) : Prop := ∀ size p, K.mmap size = .mapped p → K.page ∣ p ∧ p + size < 2^64

end Kernel

/-- The error that is not fatal. -/
def ENOMEM : ℕ := 12

/-- A mapping, and the ranges in the order in which they were passed to `munmap`. -/
structure Mapping where
  /-- Its address. -/
  beg : ℕ
  /-- Its size. -/
  size : ℕ
  /-- The addresses and sizes. -/
  unmapped : List (ℕ × ℕ)

/-- A byte of it is still mapped: `munmap` takes all pages that have a byte in the range. -/
def Mapping.Mapped (K : Kernel) (M : Mapping) (x : ℕ) : Prop :=
  M.beg ≤ x ∧ x < M.beg + M.size ∧
    ∀ r ∈ M.unmapped, ¬(r.1 / K.page * K.page ≤ x ∧ x < Word.roundUpTo 64 (r.1 + r.2) K.page)

/-- `CHECK`. -/
def check (c : Bool) : Except Death Unit := if c then .ok () else .error .check

/-- `MmapOrDieOnFatalError`: the address, or null. -/
def mmapOrDieOnFatalError (K : Kernel) (size : ℕ) : Except Death ℕ :=
  match K.mmap (Word.roundUpTo 64 size K.page) with
  | .mapped res => .ok res
  | .error errno => if errno = ENOMEM then .ok 0 else .error .mmapFailure

/-- `UnmapOrDie`, with the ranges that have been unmapped. -/
def unmapOrDie (K : Kernel) (addr size : ℕ) (unmapped : List (ℕ × ℕ)) : Except Death (List (ℕ × ℕ)) :=
  if addr = 0 ∨ size = 0 then .ok unmapped
  else if K.munmap addr size then .ok (unmapped ++ [(addr, size)])
  else .error .munmapFailure

/-- `MmapAlignedOrDieOnFatalError`: the address and what has become of the mapping, or null. -/
def mmapAlignedOrDieOnFatalError (K : Kernel) (size alignment : ℕ) : Except Death (Option (ℕ × Mapping)) := do
  check (Word.isPowerOfTwo 64 size)
  check (Word.isPowerOfTwo 64 alignment)
  let mapSize := Word.roundUpTo 64 (Word.add 64 size alignment) K.page
  let mapRes ← mmapOrDieOnFatalError K mapSize
  if mapRes = 0 then return none
  let res :=
    if Word.isAligned 64 mapRes alignment then mapRes
    else Word.sub 64 (Word.add 64 mapRes alignment) 1 &&& Word.compl 64 (Word.sub 64 alignment 1)
  let unmapped ←
    (if Word.isAligned 64 mapRes alignment then pure []
    else unmapOrDie K mapRes (Word.sub 64 res mapRes) [])
  let mapEnd := Word.add 64 mapRes mapSize
  let «end» := Word.roundUpTo 64 (Word.add 64 res size) K.page
  let unmapped ←
    (if «end» ≠ mapEnd then do
      check («end» < mapEnd)
      unmapOrDie K «end» (Word.sub 64 mapEnd «end») unmapped
    else pure unmapped)
  return some (res, ⟨mapRes, mapSize, unmapped⟩)

/-! ## Where the result lies -/

section Bounds

variable {a b c p M res x y : ℕ}

theorem add_le_of_dvd (hx : 2^c ∣ x) (hy : 2^c ∣ y) (hlt : x < y) : x + 2^c ≤ y := by
  have hle := Nat.le_of_dvd (Nat.sub_pos_of_lt hlt) (Nat.dvd_sub hy hx)
  omega

/-- A multiple of the page size is not rounded. -/
theorem roundUpTo_of_dvd (hc : c < 64) (hx : 2^c ∣ x) (hlt : x < 2^64) : Word.roundUpTo 64 x (2^c) = x := by
  have hle := add_le_of_dvd hx (Nat.pow_dvd_pow 2 hc.le) hlt
  have hsum : x + 2^c - 1 < 2^64 := by
    have hpos := Nat.two_pow_pos c
    omega
  exact le_antisymm ((Word.roundUpTo_le_iff hc hsum hx).mpr le_rfl) (Word.le_roundUpTo hc hsum)

/-- The first multiple of the alignment in a mapping that is large enough. -/
theorem res_spec (hb : b < 64) (hp : 2^c ∣ p) (hle : 2^a + 2^b ≤ M) (hend : p + M < 2^64)
    (hres : res = if Word.isAligned 64 p (2^b) then p else Word.roundUpTo 64 p (2^b)) :
    2^b ∣ res ∧ 2^c ∣ res ∧ p ≤ res ∧ res + 2^a ≤ p + M := by
  have hapos := Nat.two_pow_pos a
  have hbpos := Nat.two_pow_pos b
  subst hres
  split_ifs with haligned
  · have hdvd := Nat.dvd_of_mod_eq_zero ((Word.isAligned_two_pow hb).mp haligned)
    exact ⟨hdvd, hp, le_rfl, by omega⟩
  · -- An alignment that is not above the page size would divide the address.
    have hcb : c ≤ b := by
      by_contra hbc
      have hdvd := (Nat.pow_dvd_pow 2 (Nat.le_of_not_le hbc)).trans hp
      exact haligned ((Word.isAligned_two_pow hb).mpr (Nat.mod_eq_zero_of_dvd hdvd))
    have hdvd := Word.dvd_roundUpTo (w := 64) (x := p) hb
    have hlower := Word.le_roundUpTo (w := 64) (x := p) hb (by omega)
    have hupper := Word.roundUpTo_lt (w := 64) (x := p) hb (by omega)
    exact ⟨hdvd, (Nat.pow_dvd_pow 2 hcb).trans hdvd, hlower, by omega⟩

/-- The end of what stays mapped. -/
theorem end_spec (hc : c < 64) (hp : 2^c ∣ p) (hM : 2^c ∣ M) (hend : p + M < 2^64) (hle : res + 2^a ≤ p + M) :
    2^c ∣ Word.roundUpTo 64 (res + 2^a) (2^c) ∧ res + 2^a ≤ Word.roundUpTo 64 (res + 2^a) (2^c) ∧
      Word.roundUpTo 64 (res + 2^a) (2^c) ≤ p + M := by
  have hpage := add_le_of_dvd (hp.add hM) (Nat.pow_dvd_pow 2 hc.le) hend
  have hsum : res + 2^a + 2^c - 1 < 2^64 := by
    have hpos := Nat.two_pow_pos c
    omega
  exact ⟨Word.dvd_roundUpTo hc, Word.le_roundUpTo hc hsum, (Word.roundUpTo_le_iff hc hsum (hp.add hM)).mpr hle⟩

end Bounds

/-! ## What is unmapped -/

variable {K : Kernel} {a b : ℕ}

/-- `UnmapOrDie` of nothing does nothing, and otherwise it returns when the kernel unmaps the range. -/
theorem unmapOrDie_cases {addr : ℕ} (haddr : addr ≠ 0) (size : ℕ) (unmapped : List (ℕ × ℕ)) :
    (unmapOrDie K addr size unmapped = .error .munmapFailure ∧ K.munmap addr size = false) ∨
      unmapOrDie K addr size unmapped = .ok (if size = 0 then unmapped else unmapped ++ [(addr, size)]) := by
  unfold unmapOrDie
  by_cases hsize : size = 0
  · rw [if_pos (.inr hsize), if_pos hsize]
    exact .inr rfl
  · rw [if_neg (not_or.mpr ⟨haddr, hsize⟩), if_neg hsize]
    split_ifs with hunmapped
    · exact .inr rfl
    · exact .inl ⟨rfl, Bool.eq_false_of_not_eq_true hunmapped⟩

theorem ok_bind {β γ : Type} (x : β) (f : β → Except Death γ) : (Except.ok x >>= f) = f x := rfl

theorem error_bind {β γ : Type} (d : Death) (f : β → Except Death γ) : (Except.error d >>= f) = .error d := rfl

/-- The bounds that make all sums representable. -/
theorem exponents_lt (hsum : 2^a + 2^b + K.page < 2^64) : a < 64 ∧ b < 64 ∧ K.pageLog < 64 := by
  have hpow : ∀ {k : ℕ}, 2^k < 2^64 → k < 64 := (Nat.pow_lt_pow_iff_right (by norm_num)).mp
  have hapos := Nat.two_pow_pos a
  have hbpos := Nat.two_pow_pos b
  have hpage : K.page = 2^K.pageLog := rfl
  exact ⟨hpow (by omega), hpow (by omega), hpow (by omega)⟩

theorem check_two_pow (ha : a < 64) : check (Word.isPowerOfTwo 64 (2^a)) = .ok () :=
  if_pos ((Word.isPowerOfTwo_iff (Nat.pow_lt_pow_right (by norm_num) ha)).mpr (.inr ⟨a, ha, rfl⟩))

/-- The mapping is as large as the size and the alignment, and its size is a multiple of the page size. -/
theorem mapSize_spec {M : ℕ} (hsum : 2^a + 2^b + K.page < 2^64)
    (hM : M = Word.roundUpTo 64 (2^a + 2^b) K.page) :
    K.page ∣ M ∧ 2^a + 2^b ≤ M ∧ Word.roundUpTo 64 M K.page = M := by
  obtain ⟨-, -, hc⟩ := exponents_lt hsum
  have hpage : K.page = 2^K.pageLog := rfl
  have hcpos := Nat.two_pow_pos K.pageLog
  have hdvd : K.page ∣ M := hM ▸ Word.dvd_roundUpTo hc
  have hle : 2^a + 2^b ≤ M := hM ▸ Word.le_roundUpTo hc (by omega)
  have hlt : M < 2^a + 2^b + K.page := hM ▸ Word.roundUpTo_lt hc (by omega)
  exact ⟨hdvd, hle, roundUpTo_of_dvd hc hdvd (by omega)⟩

/-- What the function does when there is no mapping. -/
theorem mmapAligned_of_not_mapped {M : ℕ} (hsum : 2^a + 2^b + K.page < 2^64)
    (hM : M = Word.roundUpTo 64 (2^a + 2^b) K.page) :
    (mmapOrDieOnFatalError K M = .error .mmapFailure →
      mmapAlignedOrDieOnFatalError K (2^a) (2^b) = .error .mmapFailure) ∧
    (mmapOrDieOnFatalError K M = .ok 0 → mmapAlignedOrDieOnFatalError K (2^a) (2^b) = .ok none) := by
  obtain ⟨ha, hb, -⟩ := exponents_lt hsum
  unfold mmapAlignedOrDieOnFatalError
  rw [check_two_pow ha, ok_bind, check_two_pow hb, ok_bind, Word.add_of_lt (by omega), ← hM]
  dsimp only
  constructor
  · intro h
    rw [h]
    rfl
  · intro h
    rw [h]
    rfl

/-- What the function does once the kernel has returned a mapping. -/
theorem mmapAligned_eq {p M : ℕ} (hK : K.Maps) (hsum : 2^a + 2^b + K.page < 2^64)
    (hM : M = Word.roundUpTo 64 (2^a + 2^b) K.page) (hmap : K.mmap M = .mapped p) (hpos : p ≠ 0) :
    ∃ res e, (2^b ∣ res ∧ K.page ∣ res ∧ p ≤ res ∧ res < e) ∧
      (e = Word.roundUpTo 64 (res + 2^a) K.page ∧ K.page ∣ e ∧ e ≤ p + M) ∧
      mmapAlignedOrDieOnFatalError K (2^a) (2^b) = (do
        let unmapped ← unmapOrDie K p (res - p) []
        let unmapped ← unmapOrDie K e (p + M - e) unmapped
        return some (res, ⟨p, M, unmapped⟩)) := by
  have hapos := Nat.two_pow_pos a
  obtain ⟨ha, hb, hc⟩ := exponents_lt hsum
  obtain ⟨hMdvd, hMle, hMround⟩ := mapSize_spec hsum hM
  obtain ⟨hp, hend⟩ := hK M p hmap
  obtain ⟨hbres, hcres, hpres, hfits⟩ := res_spec (a := a) hb hp hMle hend rfl
  generalize hres : (if Word.isAligned 64 p (2^b) = true then p else Word.roundUpTo 64 p (2^b)) = res at *
  obtain ⟨e, he⟩ : ∃ e, e = Word.roundUpTo 64 (res + 2^a) K.page := ⟨_, rfl⟩
  obtain ⟨hedvd, hlow, hhigh⟩ : K.page ∣ e ∧ res + 2^a ≤ e ∧ e ≤ p + M :=
    he ▸ end_spec hc hp hMdvd hend hfits
  refine ⟨res, e, ⟨hbres, hcres, hpres, by omega⟩, ⟨he, hedvd, hhigh⟩, ?_⟩
  have hhead : (if Word.isAligned 64 p (2^b) = true then pure [] else
      unmapOrDie K p (Word.sub 64 res p) [] : Except Death (List (ℕ × ℕ))) = unmapOrDie K p (res - p) [] := by
    rw [Word.sub_of_le hpres (by omega)]
    split_ifs at hres ⊢
    · rw [unmapOrDie, if_pos (.inr (by omega))]
      rfl
    · rfl
  have htail : ∀ unmapped, (if e ≠ p + M then do
        check (e < p + M)
        unmapOrDie K e (Word.sub 64 (p + M) e) unmapped
      else pure unmapped : Except Death (List (ℕ × ℕ))) = unmapOrDie K e (p + M - e) unmapped := by
    intro unmapped
    rw [Word.sub_of_le hhigh hend]
    split_ifs with hne
    · rw [check, decide_eq_true (lt_of_le_of_ne hhigh hne), if_pos rfl, ok_bind]
    · rw [unmapOrDie, if_pos (.inr (by omega))]
      rfl
  have hmmap : mmapOrDieOnFatalError K M = .ok p := by
    rw [mmapOrDieOnFatalError, hMround, hmap]
  -- The rounding of the address is `RoundUpTo`, written out.
  have hresult : (if Word.isAligned 64 p (2^b) = true then p else
      Word.sub 64 (Word.add 64 p (2^b)) 1 &&& Word.compl 64 (Word.sub 64 (2^b) 1)) = res := hres
  unfold mmapAlignedOrDieOnFatalError
  rw [check_two_pow ha, ok_bind, check_two_pow hb, ok_bind, Word.add_of_lt (by omega), ← hM]
  dsimp only
  rw [hmmap, ok_bind, if_neg hpos, hresult, hhead, Word.add_of_lt hend, Word.add_of_lt (by omega), ← he]
  simp only [htail]

/-- The result is a multiple of the alignment, and the mapping from it to the rounded end is what stays mapped.
What is unmapped are pages of the mapping. -/
structure Aligned (K : Kernel) (size alignment : ℕ) (r : ℕ × Mapping) : Prop where
  /-- The address. -/
  dvd : alignment ∣ r.1
  /-- What stays mapped. -/
  mapped : ∀ x, r.2.Mapped K x ↔ r.1 ≤ x ∧ x < Word.roundUpTo 64 (r.1 + size) K.page
  /-- What is passed to `munmap`. -/
  pages : ∀ u ∈ r.2.unmapped, K.page ∣ u.1 ∧ K.page ∣ u.2 ∧ 0 < u.2 ∧
    r.2.beg ≤ u.1 ∧ u.1 + u.2 ≤ r.2.beg + r.2.size
  /-- The mapping is a new one. -/
  new : K.mmap r.2.size = .mapped r.2.beg

/-- The pages before the result and behind the end are what is unmapped. -/
theorem aligned_of_unmapped {p M res e alignment size : ℕ} {unmapped : List (ℕ × ℕ)} (hc : K.pageLog < 64)
    (hp : K.page ∣ p) (hM : K.page ∣ M) (hend : p + M < 2^64) (hmap : K.mmap M = .mapped p)
    (hres : alignment ∣ res ∧ K.page ∣ res ∧ p ≤ res ∧ res < e)
    (he : e = Word.roundUpTo 64 (res + size) K.page ∧ K.page ∣ e ∧ e ≤ p + M)
    (hunmapped : ∀ r, r ∈ unmapped ↔ (r = (p, res - p) ∧ res - p ≠ 0) ∨ (r = (e, p + M - e) ∧ p + M - e ≠ 0)) :
    Aligned K size alignment (res, ⟨p, M, unmapped⟩) where
  dvd := hres.1
  mapped x := by
    obtain ⟨-, hrespage, hle, hlt⟩ := hres
    obtain ⟨he, hepage, hhigh⟩ := he
    have hround : ∀ {y}, K.page ∣ y → y < 2^64 → Word.roundUpTo 64 y K.page = y := roundUpTo_of_dvd hc
    rw [← he]
    unfold Mapping.Mapped
    simp only [hunmapped, or_imp, forall_and, and_imp, forall_eq, Nat.div_mul_cancel hp,
      Nat.div_mul_cancel hepage, Nat.add_sub_of_le hle, Nat.add_sub_of_le hhigh,
      hround hrespage (by omega), hround (hp.add hM) hend]
    omega
  pages u hu := by
    obtain ⟨-, hrespage, hle, hlt⟩ := hres
    obtain ⟨he, hepage, hhigh⟩ := he
    dsimp only
    rcases (hunmapped u).mp hu with ⟨rfl, hne⟩ | ⟨rfl, hne⟩
    · exact ⟨hp, Nat.dvd_sub hrespage hp, by omega, le_rfl, by dsimp only; omega⟩
    · exact ⟨hepage, Nat.dvd_sub (hp.add hM) hepage, by dsimp only; omega, by dsimp only; omega,
        by dsimp only; omega⟩
  new := hmap

/-- No `CHECK` of `MmapAlignedOrDieOnFatalError` fails, and when it returns an address this is as it should
be. It returns null or dies only when the kernel does not do what it is asked for. -/
theorem mmapAlignedOrDieOnFatalError_spec (hK : K.Maps) (hsum : 2^a + 2^b + K.page < 2^64) :
    mmapAlignedOrDieOnFatalError K (2^a) (2^b) ≠ .error .check ∧
      (∀ r, mmapAlignedOrDieOnFatalError K (2^a) (2^b) = .ok (some r) → Aligned K (2^a) (2^b) r) ∧
      ((∃ p ≠ 0, K.mmap (Word.roundUpTo 64 (2^a + 2^b) K.page) = .mapped p) →
        (∀ addr size, K.munmap addr size = true) →
        ∃ r, mmapAlignedOrDieOnFatalError K (2^a) (2^b) = .ok (some r)) := by
  obtain ⟨M, hM⟩ : ∃ M, M = Word.roundUpTo 64 (2^a + 2^b) K.page := ⟨_, rfl⟩
  obtain ⟨-, -, hMround⟩ := mapSize_spec hsum hM
  obtain ⟨hfailed, hnull⟩ := mmapAligned_of_not_mapped hsum hM
  rw [← hM]
  have hmmap : mmapOrDieOnFatalError K M = match K.mmap M with
      | .mapped res => .ok res
      | .error errno => if errno = ENOMEM then .ok 0 else .error .mmapFailure := by
    rw [mmapOrDieOnFatalError, hMround]
  rcases hmap : K.mmap M with p | errno
  · rw [hmap] at hmmap
    by_cases hpos : p = 0
    · have hnone := hnull (hmmap.trans (congrArg Except.ok hpos))
      rw [hnone]
      exact ⟨nofun, nofun, fun ⟨q, hq, hmapped⟩ _ => absurd ((MmapResult.mapped.inj hmapped).symm.trans hpos) hq⟩
    obtain ⟨res, e, ⟨hdvd, hpage, hle, hlt⟩, ⟨he, hepage, hhigh⟩, heq⟩ := mmapAligned_eq hK hsum hM hmap hpos
    rw [heq]
    obtain ⟨hp, hend⟩ := hK M p hmap
    obtain ⟨-, -, hc⟩ := exponents_lt hsum
    obtain ⟨hMdvd, -, -⟩ := mapSize_spec hsum hM
    rcases unmapOrDie_cases hpos (res - p) [] with ⟨hhead, hfalse⟩ | hhead
    · rw [hhead, error_bind]
      exact ⟨nofun, nofun, fun _ hall => absurd (hall _ _) (by rw [hfalse]; decide)⟩
    rw [hhead, ok_bind]
    rcases unmapOrDie_cases (show e ≠ 0 by omega) (p + M - e)
      (if res - p = 0 then [] else [] ++ [(p, res - p)]) with ⟨htail, hfalse⟩ | htail
    · rw [htail, error_bind]
      exact ⟨nofun, nofun, fun _ hall => absurd (hall _ _) (by rw [hfalse]; decide)⟩
    rw [htail, ok_bind]
    refine ⟨nofun, fun r hr => ?_, fun _ _ => ⟨_, rfl⟩⟩
    obtain rfl := Option.some.inj (Except.ok.inj hr)
    refine aligned_of_unmapped hc hp hMdvd hend hmap ⟨hdvd, hpage, hle, hlt⟩ ⟨he, hepage, hhigh⟩ fun r => ?_
    split_ifs with htail hhead hhead <;> simp [htail, hhead]
  · rw [hmap] at hmmap
    dsimp only at hmmap
    split_ifs at hmmap
    · rw [hnull hmmap]
      exact ⟨nofun, nofun, fun ⟨_, _, h⟩ => nomatch h⟩
    · rw [hfailed hmmap]
      exact ⟨nofun, nofun, fun ⟨_, _, h⟩ => nomatch h⟩

/-- A kernel that maps up to a megabyte, at `0x7000`. -/
def lowKernel : Kernel where
  pageLog := 12
  mmap size := if size ≤ 0x100000 then .mapped 0x7000 else .error ENOMEM
  munmap _ _ := true

theorem maps_lowKernel : lowKernel.Maps := by
  intro size p h
  change (if size ≤ 0x100000 then MmapResult.mapped 0x7000 else .error ENOMEM) = .mapped p at h
  split_ifs at h with hsize
  obtain rfl := MmapResult.mapped.inj h
  exact ⟨by decide, by omega⟩

/-- A page with an alignment of four pages. -/
theorem mmapAlignedOrDieOnFatalError_spec_four :
    mmapAlignedOrDieOnFatalError lowKernel (2^12) (2^14) ≠ .error .check ∧
      (∀ r, mmapAlignedOrDieOnFatalError lowKernel (2^12) (2^14) = .ok (some r) →
        Aligned lowKernel (2^12) (2^14) r) ∧
      ((∃ p ≠ 0, lowKernel.mmap (Word.roundUpTo 64 (2^12 + 2^14) lowKernel.page) = .mapped p) →
        (∀ addr size, lowKernel.munmap addr size = true) →
        ∃ r, mmapAlignedOrDieOnFatalError lowKernel (2^12) (2^14) = .ok (some r)) :=
  mmapAlignedOrDieOnFatalError_spec maps_lowKernel (by decide)

end Tasan.Mmap
