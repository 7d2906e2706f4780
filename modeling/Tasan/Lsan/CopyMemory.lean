import Tasan.Word
import Tasan.WordMemory

/-!
# Copying memory that may not be readable

`MemCpyAccessible` of `sanitizer_common_libcdep.cpp`, which cuts the range at the boundaries of its pages
when `TryMemCpy` cannot read all of it, and the accessor of `lsan_common.cpp` that scans such a copy.

The head goes up to the first boundary at or after the start, and the tail begins at the last one at or
before the end. `memCpyAccessible_iff` says that the copy is right just when a boundary lies between them;
a range inside one page has none, and then both the head and the tail are more than the range.
-/

namespace Tasan.Lsan

/-! ## The model -/

/-- `TryMemCpy(dest, src, n)`: whether it succeeds, and the memory afterwards. -/
abbrev TryMemCpy := WordMem → BitVec 64 → BitVec 64 → ℕ → Bool × WordMem

section

variable (logPageSize : ℕ) (tryMemCpy : TryMemCpy)

/-- `copy_or_zero`. -/
def copyOrZero (m : WordMem) (dest src beg last : BitVec 64) : WordMem :=
  let d := dest + (beg - src)
  let size := (last - beg).toNat
  let r := tryMemCpy m d beg size
  if r.1 then r.2 else r.2.fill d size 0

/-- `RoundUpTo(x, page_size)`. -/
def pageUp (x : BitVec 64) : BitVec 64 := BitVec.ofNat 64 (Word.roundUpTo 64 x.toNat (2^logPageSize))

/-- `RoundDownTo(x, page_size)`. -/
def pageDown (x : BitVec 64) : BitVec 64 :=
  BitVec.ofNat 64 (Word.roundDownTo 64 x.toNat (2^logPageSize))

/-- The loop over the whole pages. -/
def copyPages (dest src eDown : BitVec 64) : ℕ → WordMem → BitVec 64 → Option WordMem
  | 0, _, _ => none
  | fuel + 1, m, p =>
    if p < eDown then
      let next := p + BitVec.ofNat 64 (2^logPageSize)
      copyPages dest src eDown fuel (copyOrZero tryMemCpy m dest src p next) next
    else some m

/-- `MemCpyAccessible`. -/
def memCpyAccessible (fuel : ℕ) (m : WordMem) (dest src n : BitVec 64) : Option WordMem :=
  let r := tryMemCpy m dest src n.toNat
  if r.1 then some r.2
  else do
    let b := src
    let bUp := pageUp logPageSize b
    let e := src + n
    let eDown := pageDown logPageSize e
    let m := copyOrZero tryMemCpy r.2 dest src b bUp
    let m ← copyPages logPageSize tryMemCpy dest src eDown fuel m bUp
    some (copyOrZero tryMemCpy m dest src eDown e)

/-- `CopyMemoryAccessor::Init`, when `buffer.resize` puts the data at that address. -/
def copyMemoryAccessorInit (fuel : ℕ) (m : WordMem) (data first last : BitVec 64) : Option WordMem :=
  let size := last - first
  memCpyAccessible logPageSize tryMemCpy fuel (m.fill data size.toNat 0) data first size

end

/-! ## What they are for -/

/-- The page of an address is readable. -/
def Accessible (logPageSize : ℕ) (readable : ℕ → Bool) (a : BitVec 64) : Prop :=
  readable (a.toNat / 2^logPageSize) = true

instance (logPageSize : ℕ) (readable : ℕ → Bool) (a : BitVec 64) :
    Decidable (Accessible logPageSize readable a) :=
  inferInstanceAs (Decidable (_ = _))

/-- No address is in both ranges. -/
def Apart (a b : BitVec 64) (n : ℕ) : Prop := ∀ x, InRange a n x → ¬ InRange b n x

section

variable (logPageSize : ℕ) (readable : ℕ → Bool)

/-- What is assumed of `TryMemCpy`. -/
structure TryMemCpy.Spec (tryMemCpy : TryMemCpy) : Prop where
  /-- It succeeds when all bytes can be read. -/
  succeeds : ∀ m d s n, (∀ i < n, Accessible logPageSize readable (s + BitVec.ofNat 64 i)) →
    (tryMemCpy m d s n).1 = true
  /-- It has copied them then. -/
  copies : ∀ m d s n, (∀ i < n, Accessible logPageSize readable (s + BitVec.ofNat 64 i)) →
    Apart s d n → ∀ i < n, (tryMemCpy m d s n).2 (d + BitVec.ofNat 64 i) = m (s + BitVec.ofNat 64 i)
  /-- It fails otherwise. -/
  fails : ∀ m d s n, (¬ ∀ i < n, Accessible logPageSize readable (s + BitVec.ofNat 64 i)) →
    (tryMemCpy m d s n).1 = false
  /-- It writes to the destination only. -/
  frame : ∀ m d s n x, ¬ InRange d n x → (tryMemCpy m d s n).2 x = m x

/-- The byte that a copy should have at an index. -/
def expected (m : WordMem) (src : BitVec 64) (i : ℕ) : Byte :=
  if Accessible logPageSize readable (src + BitVec.ofNat 64 i) then m (src + BitVec.ofNat 64 i) else 0

/-- A copy that has come as far as `c` of `n` bytes. -/
structure Copied (dest src : BitVec 64) (n : ℕ) (m m' : WordMem) (c : ℕ) : Prop where
  /-- These bytes are right. -/
  bytes : ∀ i < c, m' (dest + BitVec.ofNat 64 i) = expected logPageSize readable m src i
  /-- Nothing else is written. -/
  frame : ∀ x, ¬ InRange dest n x → m' x = m x

end

/-! ## One piece of the copy -/

section

variable {logPageSize : ℕ} {readable : ℕ → Bool} {tryMemCpy : TryMemCpy} {dest src : BitVec 64}
  {n c k : ℕ} {m m' : WordMem}

theorem copyOrZero_frame (hspec : tryMemCpy.Spec logPageSize readable) (m : WordMem)
    (dest src beg last x : BitVec 64) (hx : ¬ InRange (dest + (beg - src)) (last - beg).toNat x) :
    copyOrZero tryMemCpy m dest src beg last x = m x := by
  unfold copyOrZero
  split_ifs
  · exact hspec.frame m _ beg _ x hx
  · rw [WordMem.fill_of_not_inRange _ _ hx, hspec.frame m _ beg _ x hx]

theorem copyOrZero_bytes (hspec : tryMemCpy.Spec logPageSize readable) (m : WordMem)
    {beg last : BitVec 64} (hk : (last - beg).toNat = k)
    (hpage : ∀ i < k, ∀ j < k, Accessible logPageSize readable (beg + BitVec.ofNat 64 i) →
      Accessible logPageSize readable (beg + BitVec.ofNat 64 j))
    (hapart : Apart beg (dest + (beg - src)) k) {i : ℕ} (hi : i < k) :
    copyOrZero tryMemCpy m dest src beg last (dest + (beg - src) + BitVec.ofNat 64 i) =
      expected logPageSize readable m beg i := by
  have hk64 : k < 2^64 := hk ▸ BitVec.isLt _
  unfold copyOrZero expected
  rw [hk]
  by_cases hall : ∀ j < k, Accessible logPageSize readable (beg + BitVec.ofNat 64 j)
  · rw [if_pos (hall i hi), if_pos (hspec.succeeds m _ beg k hall)]
    exact hspec.copies m _ beg k hall hapart i hi
  · have hnot : ¬ Accessible logPageSize readable (beg + BitVec.ofNat 64 i) := fun h =>
      hall fun j hj => hpage i hi j hj h
    rw [if_neg hnot, if_neg (Bool.eq_false_iff.mp (hspec.fails m _ beg k hall))]
    exact if_pos (inRange_add_ofNat _ hi hk64.le)

/-- A piece inside a page takes the copy further. -/
theorem Copied.piece (hspec : tryMemCpy.Spec logPageSize readable) (hn : n < 2^64)
    (hapart : Apart src dest n) (h : Copied logPageSize readable dest src n m m' c) (hck : c + k ≤ n)
    (hpage : ∀ i < k, ∀ j < k, Accessible logPageSize readable (src + BitVec.ofNat 64 (c + i)) →
      Accessible logPageSize readable (src + BitVec.ofNat 64 (c + j))) :
    Copied logPageSize readable dest src n m
      (copyOrZero tryMemCpy m' dest src (src + BitVec.ofNat 64 c) (src + BitVec.ofNat 64 (c + k)))
      (c + k) := by
  have hadd : ∀ (a : BitVec 64) i,
      a + BitVec.ofNat 64 c + BitVec.ofNat 64 i = a + BitVec.ofNat 64 (c + i) := fun a i => by
    rw [BitVec.ofNat_add, BitVec.add_assoc]
  have hsize : (src + BitVec.ofNat 64 (c + k) - (src + BitVec.ofNat 64 c)).toNat = k := by
    rw [← hadd, toNat_add_ofNat_sub _ (by omega)]
  have hd : dest + (src + BitVec.ofNat 64 c - src) = dest + BitVec.ofNat 64 c := by
    rw [add_sub_cancel_left]
  have hbytes : ∀ {i}, i < k → copyOrZero tryMemCpy m' dest src (src + BitVec.ofNat 64 c)
      (src + BitVec.ofNat 64 (c + k)) (dest + BitVec.ofNat 64 (c + i)) =
        expected logPageSize readable m' src (c + i) := by
    intro i hi
    have happiece : Apart (src + BitVec.ofNat 64 c) (dest + (src + BitVec.ofNat 64 c - src)) k := by
      rw [hd]
      exact fun x hx hx' => hapart x (hx.sub hck hn.le) (hx'.sub hck hn.le)
    have := copyOrZero_bytes hspec m' hsize (by simpa only [hadd] using hpage) happiece hi
    rw [hd, hadd] at this
    rw [this, expected, expected, hadd]
  have hframe : ∀ {x}, ¬ InRange (dest + BitVec.ofNat 64 c) k x →
      copyOrZero tryMemCpy m' dest src (src + BitVec.ofNat 64 c) (src + BitVec.ofNat 64 (c + k)) x =
        m' x := by
    intro x hx
    refine copyOrZero_frame hspec m' dest src _ _ x ?_
    rwa [hd, hsize]
  constructor
  · intro i hi
    by_cases hic : i < c
    · rw [hframe fun hx => hx.not_start (by omega) (inRange_add_ofNat dest hic (by omega)), h.bytes i hic]
    · obtain ⟨j, rfl⟩ := Nat.exists_eq_add_of_le (Nat.not_lt.mp hic)
      -- The source is as it was, since only the destination was written.
      have hsame : m' (src + BitVec.ofNat 64 (c + j)) = m (src + BitVec.ofNat 64 (c + j)) :=
        h.frame _ (hapart _ (inRange_add_ofNat src (by omega) hn.le))
      rw [hbytes (by omega), expected, expected, hsame]
  · intro x hx
    rw [hframe fun hx' => hx (hx'.sub hck hn.le), h.frame x hx]

/-! ## The boundaries of the pages -/

theorem two_pow_split (hpage : logPageSize < 64) : 2^64 = 2^logPageSize * 2^(64 - logPageSize) := by
  rw [← pow_add, Nat.add_sub_cancel' hpage.le]

theorem pageUp_eq (hpage : logPageSize < 64) (x : BitVec 64) : pageUp logPageSize x =
    BitVec.ofNat 64 ((x.toNat + 2^logPageSize - 1) / 2^logPageSize * 2^logPageSize) := by
  refine BitVec.eq_of_toNat_eq ?_
  rw [pageUp, Word.roundUpTo_two_pow hpage, BitVec.toNat_ofNat, BitVec.toNat_ofNat, two_pow_split hpage,
    Nat.mod_mul_right_div_self, Nat.mul_comm (2^logPageSize) (2^(64 - logPageSize)), Nat.mul_mod_mul_right,
    Nat.mul_mod_mul_right, Nat.mod_mod]

theorem pageDown_eq (hpage : logPageSize < 64) (x : BitVec 64) :
    pageDown logPageSize x = BitVec.ofNat 64 (x.toNat / 2^logPageSize * 2^logPageSize) := by
  rw [pageDown, Word.roundDownTo_two_pow hpage x.isLt]

theorem add_ofNat_eq (x : BitVec 64) (c : ℕ) : x + BitVec.ofNat 64 c = BitVec.ofNat 64 (x.toNat + c) := by
  rw [BitVec.ofNat_add, BitVec.ofNat_toNat, BitVec.setWidth_eq]

theorem toNat_add_ofNat {x : BitVec 64} (h : x.toNat + c < 2^64) :
    (x + BitVec.ofNat 64 c).toNat = x.toNat + c := by
  rw [add_ofNat_eq, BitVec.toNat_ofNat, Nat.mod_eq_of_lt h]

theorem pageUp_sub (hpage : logPageSize < 64) (x : BitVec 64) :
    ∃ u, pageUp logPageSize x = BitVec.ofNat 64 (u * 2^logPageSize) ∧
      (pageUp logPageSize x - x).toNat = u * 2^logPageSize - x.toNat ∧
      x.toNat ≤ u * 2^logPageSize ∧ u * 2^logPageSize < x.toNat + 2^logPageSize := by
  have hpos : 0 < 2^logPageSize := Nat.two_pow_pos _
  have hP : 2^logPageSize < 2^64 := Nat.pow_lt_pow_right (by decide) hpage
  have hup := pageUp_eq hpage x
  generalize hu : (x.toNat + 2^logPageSize - 1) / 2^logPageSize = u at hup
  have hu1 : u * 2^logPageSize ≤ x.toNat + 2^logPageSize - 1 := hu ▸ Nat.div_mul_le_self _ _
  have hu2 : x.toNat + 2^logPageSize - 1 < u * 2^logPageSize + 2^logPageSize :=
    hu ▸ Nat.lt_div_mul_add hpos
  refine ⟨u, hup, ?_, by omega, by omega⟩
  rw [hup, ← toNat_add_ofNat_sub x (show u * 2^logPageSize - x.toNat < 2^64 by omega), add_ofNat_eq,
    Nat.add_sub_cancel' (by omega)]

theorem accessible_congr {i j : ℕ} (hi : src.toNat + i < 2^64) (hj : src.toNat + j < 2^64)
    (hpage : (src.toNat + i) / 2^logPageSize = (src.toNat + j) / 2^logPageSize) :
    Accessible logPageSize readable (src + BitVec.ofNat 64 i) ↔
      Accessible logPageSize readable (src + BitVec.ofNat 64 j) := by
  rw [Accessible, Accessible, toNat_add_ofNat hi, toNat_add_ofNat hj, hpage]

theorem div_of_boundary {P a i : ℕ} (ha : a % P = 0) (hi : i < P) : (a + i) / P = a / P := by
  obtain ⟨w, rfl⟩ := Nat.dvd_of_mod_eq_zero ha
  rw [Nat.mul_add_div (by omega), Nat.div_eq_of_lt hi, Nat.add_zero, Nat.mul_div_cancel_left w (by omega)]

theorem div_of_before {P a c i : ℕ} (ha : (a + c) % P = 0) (hc : c < P) (hi : i < c) :
    (a + i) / P = a / P := by
  obtain ⟨w, hw⟩ := Nat.dvd_of_mod_eq_zero ha
  rcases w with _ | w
  · rw [Nat.mul_zero] at hw
    omega
  have hmul : P * (w + 1) = P * w + P := Nat.mul_succ P w
  have hdiv : ∀ x, P * w ≤ x → x < P * w + P → x / P = w := fun x h1 h2 => by
    refine Nat.div_eq_of_lt_le ?_ ?_
    · rwa [Nat.mul_comm]
    · rwa [Nat.mul_comm, hmul]
  rw [hdiv (a + i) (by omega) (by omega), hdiv a (by omega) (by omega)]

/-! ## A range with a boundary -/

/-- There is a boundary of the pages in the range, or at one of its ends. -/
def HasBoundary (logPageSize : ℕ) (src : BitVec 64) (n : ℕ) : Prop :=
  ∃ q, src.toNat ≤ q * 2^logPageSize ∧ q * 2^logPageSize ≤ src.toNat + n

/-- How the range is cut: a head, whole pages and a tail. -/
structure Cuts (logPageSize : ℕ) (src : BitVec 64) (n c q : ℕ) : Prop where
  /-- The pages begin at the end of the head. -/
  up : pageUp logPageSize src = src + BitVec.ofNat 64 c
  /-- The tail begins at the end of the pages. -/
  down : pageDown logPageSize (src + BitVec.ofNat 64 n) = src + BitVec.ofNat 64 (c + q * 2^logPageSize)
  /-- The end of the head is a boundary. -/
  boundary : (src.toNat + c) % 2^logPageSize = 0
  /-- The head is less than a page. -/
  head_lt : c < 2^logPageSize
  /-- The pages are in the range. -/
  le : c + q * 2^logPageSize ≤ n
  /-- The tail is less than a page. -/
  tail_lt : n < c + q * 2^logPageSize + 2^logPageSize
  /-- The loop sees its end. -/
  visible : q = 0 ∨ src.toNat + c + q * 2^logPageSize < 2^64

/-- A range with a boundary is cut so, unless it has more than one page at the end of the address space. -/
theorem exists_cuts (hpage : logPageSize < 64) (hrange : src.toNat + n ≤ 2^64)
    (hbound : HasBoundary logPageSize src n)
    (hend : src.toNat + n = 2^64 → 2^64 < src.toNat + 2^logPageSize) :
    ∃ c q, Cuts logPageSize src n c q := by
  have hsplit := two_pow_split hpage
  have hup := pageUp_eq hpage src
  have hdown := pageDown_eq hpage (src + BitVec.ofNat 64 n)
  obtain ⟨r, hr, hr'⟩ := hbound
  obtain ⟨P, hP⟩ : ∃ P, 2^logPageSize = P := ⟨_, rfl⟩
  have hpos : 0 < P := hP ▸ Nat.two_pow_pos _
  rw [hP] at hsplit hup hdown hr hr' hend
  generalize hu : (src.toNat + P - 1) / P = u at hup
  have hu1 : u * P ≤ src.toNat + P - 1 := hu ▸ Nat.div_mul_le_self _ _
  have hu2 : src.toNat + P - 1 < u * P + P := hu ▸ Nat.lt_div_mul_add hpos
  -- The first boundary is not after the one that the range has.
  have hur : u ≤ r := by
    rw [← hu]
    refine Nat.le_of_lt_succ ((Nat.div_lt_iff_lt_mul hpos).mpr ?_)
    rw [Nat.succ_mul]
    omega
  have hsum : src + BitVec.ofNat 64 (u * P - src.toNat) = BitVec.ofNat 64 (u * P) := by
    rw [add_ofNat_eq, Nat.add_sub_cancel' (by omega)]
  have hmod : (src.toNat + (u * P - src.toNat)) % P = 0 := by
    rw [Nat.add_sub_cancel' (by omega), Nat.mul_mod_left]
  have hle : u * P ≤ r * P := Nat.mul_le_mul_right P hur
  rcases Nat.lt_or_eq_of_le hrange with hlt | heq
  · rw [toNat_add_ofNat hlt] at hdown
    generalize hv : (src.toNat + n) / P = v at hdown
    have hv1 : v * P ≤ src.toNat + n := hv ▸ Nat.div_mul_le_self _ _
    have hv2 : src.toNat + n < v * P + P := hv ▸ Nat.lt_div_mul_add hpos
    have huv : u ≤ v := hur.trans (hv ▸ (Nat.le_div_iff_mul_le hpos).mpr hr')
    have hmul : (v - u) * P = v * P - u * P := Nat.sub_mul v u P
    have huvP : u * P ≤ v * P := Nat.mul_le_mul_right P huv
    refine ⟨u * P - src.toNat, v - u, hup.trans hsum.symm, ?_, ?_, ?_, ?_, ?_, ?_⟩
    · rw [hdown, add_ofNat_eq, hP]
      congr 1
      omega
    · rwa [hP]
    · rw [hP]
      omega
    · rw [hP]
      omega
    · rw [hP]
      omega
    · rw [hP]
      exact .inr (by omega)
  · -- The only boundary that is left is the end of the address space.
    have hend := hend heq
    have hlast : u * P = 2^64 := by
      rw [hsplit, Nat.mul_comm P]
      rw [hsplit, Nat.mul_comm P] at hend heq
      refine congrArg (· * P) (Nat.le_antisymm ?_ (Nat.le_of_lt_succ ?_))
      · refine Nat.le_of_mul_le_mul_right ?_ hpos
        omega
      · refine Nat.lt_of_mul_lt_mul_right (a := P) ?_
        rw [Nat.succ_mul]
        omega
    have hzero : src + BitVec.ofNat 64 n = 0 := by
      rw [add_ofNat_eq, heq]
      rfl
    rw [hzero, show ((0 : BitVec 64).toNat / P * P) = 0 by simp] at hdown
    have hc : u * P - src.toNat = n := by omega
    rw [hc] at hsum hmod
    refine ⟨n, 0, hup.trans hsum.symm, ?_, ?_, ?_, ?_, ?_, .inl rfl⟩
    · rw [hzero, hdown, Nat.zero_mul, Nat.add_zero, hzero]
      rfl
    · rwa [hP]
    · rw [hP]
      omega
    · omega
    · rw [hP]
      omega

/-- The loop over the pages takes the copy to its end. -/
theorem copyPages_copied (hspec : tryMemCpy.Spec logPageSize readable) (hn : n < 2^64)
    (hapart : Apart src dest n) (q : ℕ)
    (h : Copied logPageSize readable dest src n m m' c) (hbound : (src.toNat + c) % 2^logPageSize = 0)
    (hle : c + q * 2^logPageSize ≤ n) (hvisible : q = 0 ∨ src.toNat + c + q * 2^logPageSize < 2^64) :
    ∃ m'', Copied logPageSize readable dest src n m m'' (c + q * 2^logPageSize) ∧
      ∀ fuel > q, copyPages logPageSize tryMemCpy dest src
        (src + BitVec.ofNat 64 (c + q * 2^logPageSize)) fuel m' (src + BitVec.ofNat 64 c) = some m'' := by
  induction q generalizing c m' with
  | zero =>
    rw [Nat.zero_mul, Nat.add_zero]
    refine ⟨m', h, fun fuel hfuel => ?_⟩
    obtain ⟨f, rfl⟩ := Nat.exists_eq_add_of_lt hfuel
    rw [copyPages, if_neg (BitVec.lt_irrefl _)]
  | succ q ih =>
    have hpos : 0 < 2^logPageSize := Nat.two_pow_pos _
    have hmul : (q + 1) * 2^logPageSize = 2^logPageSize + q * 2^logPageSize := by
      rw [Nat.succ_mul, Nat.add_comm]
    have hvisible := hvisible.resolve_left (Nat.succ_ne_zero q)
    rw [hmul, ← Nat.add_assoc] at hle hvisible ⊢
    have hstep := h.piece hspec hn hapart (k := 2^logPageSize) (by omega) fun i hi j hj hacc => by
      refine (accessible_congr (by omega) (by omega) ?_).mp hacc
      rw [← Nat.add_assoc, ← Nat.add_assoc, div_of_boundary hbound hi, div_of_boundary hbound hj]
    obtain ⟨m'', hcopied, hrun⟩ := ih hstep (by rw [← Nat.add_assoc, Nat.add_mod_right, hbound]) (by omega)
      (.inr (by omega))
    refine ⟨m'', hcopied, fun fuel hfuel => ?_⟩
    obtain ⟨f, rfl⟩ : ∃ f, fuel = f + 1 := ⟨fuel - 1, by omega⟩
    have hlt : src + BitVec.ofNat 64 c < src + BitVec.ofNat 64 (c + 2^logPageSize + q * 2^logPageSize) := by
      rw [BitVec.lt_def, toNat_add_ofNat (by omega), toNat_add_ofNat (by omega)]
      omega
    have hnext : src + BitVec.ofNat 64 c + BitVec.ofNat 64 (2^logPageSize) =
        src + BitVec.ofNat 64 (c + 2^logPageSize) := by
      rw [BitVec.ofNat_add, BitVec.add_assoc]
    rw [copyPages, if_pos hlt, hnext]
    exact hrun f (by omega)

/-- What the copy should do: the destination gets the bytes that can be read, and zeros for the others, and
nothing else changes. -/
def Correct (logPageSize : ℕ) (readable : ℕ → Bool) (m : WordMem) (dest src : BitVec 64) (n : ℕ)
    (run : ℕ → Option WordMem) : Prop :=
  ∃ m', (∃ k, ∀ fuel ≥ k, run fuel = some m') ∧ Copied logPageSize readable dest src n m m' n

/-- The copy of a range that has a boundary is correct. -/
theorem memCpyAccessible_correct (hspec : tryMemCpy.Spec logPageSize readable) (hpage : logPageSize < 64)
    {n : BitVec 64} (hrange : src.toNat + n.toNat ≤ 2^64) (hapart : Apart src dest n.toNat)
    (h : (∀ i < n.toNat, Accessible logPageSize readable (src + BitVec.ofNat 64 i)) ∨
      HasBoundary logPageSize src n.toNat ∧
        (src.toNat + n.toNat = 2^64 → 2^64 < src.toNat + 2^logPageSize)) (m : WordMem) :
    Correct logPageSize readable m dest src n.toNat
      fun fuel => memCpyAccessible logPageSize tryMemCpy fuel m dest src n := by
  have hn : n.toNat < 2^64 := n.isLt
  by_cases hall : ∀ i < n.toNat, Accessible logPageSize readable (src + BitVec.ofNat 64 i)
  · refine ⟨(tryMemCpy m dest src n.toNat).2, ⟨0, fun fuel _ => ?_⟩, fun i hi => ?_, fun x hx => ?_⟩
    · exact if_pos (hspec.succeeds m dest src _ hall)
    · rw [hspec.copies m dest src _ hall hapart i hi, expected, if_pos (hall i hi)]
    · exact hspec.frame m dest src _ x hx
  obtain ⟨hbound, hend⟩ := h.resolve_left hall
  obtain ⟨c, q, hcuts⟩ := exists_cuts hpage hrange hbound hend
  have hstart : Copied logPageSize readable dest src n.toNat m (tryMemCpy m dest src n.toNat).2 0 :=
    ⟨fun i hi => absurd hi (Nat.not_lt_zero i), hspec.frame m dest src _⟩
  have hle := hcuts.le
  have hhead := hstart.piece hspec hn hapart (k := c) (by omega) fun i hi j hj hacc => by
    refine (accessible_congr (by omega) (by omega) ?_).mp hacc
    rw [Nat.zero_add, Nat.zero_add, div_of_before hcuts.boundary hcuts.head_lt hi,
      div_of_before hcuts.boundary hcuts.head_lt hj]
  rw [Nat.zero_add] at hhead
  obtain ⟨m₁, hpages, hrun⟩ := copyPages_copied hspec hn hapart q hhead hcuts.boundary hcuts.le
    hcuts.visible
  have htail := hpages.piece hspec hn hapart (k := n.toNat - (c + q * 2^logPageSize)) (by omega)
    fun i hi j hj hacc => by
      have hlt := hcuts.tail_lt
      have hmod : (src.toNat + (c + q * 2^logPageSize)) % 2^logPageSize = 0 := by
        rw [← Nat.add_assoc, Nat.add_mul_mod_self_right, hcuts.boundary]
      refine (accessible_congr (by omega) (by omega) ?_).mp hacc
      rw [← Nat.add_assoc src.toNat _ i, ← Nat.add_assoc src.toNat _ j, div_of_boundary hmod (by omega),
        div_of_boundary hmod (by omega)]
  rw [Nat.add_sub_cancel' hle] at htail
  have hsrc : src + BitVec.ofNat 64 n.toNat = src + n := by
    rw [BitVec.ofNat_toNat, BitVec.setWidth_eq]
  have hdown := hcuts.down
  rw [hsrc] at htail hdown
  refine ⟨_, ⟨q + 1, fun fuel hfuel => ?_⟩, htail⟩
  have hzero : src + BitVec.ofNat 64 0 = src := by
    rw [add_ofNat_eq, Nat.add_zero, BitVec.ofNat_toNat, BitVec.setWidth_eq]
  rw [hzero, ← hcuts.up, ← hdown] at hrun
  refine (if_neg (Bool.eq_false_iff.mp (hspec.fails m dest src _ hall))).trans ?_
  rw [hrun fuel hfuel, hdown]
  rfl

/-! ## A range without one -/

/-- A `TryMemCpy` that writes nothing when it fails. -/
def tryMemCpyOf (logPageSize : ℕ) (readable : ℕ → Bool) : TryMemCpy := fun m d s n =>
  if ∀ i < n, Accessible logPageSize readable (s + BitVec.ofNat 64 i) then (true, m.copy d s n)
  else (false, m)

theorem copy_frame (m : WordMem) (d s : BitVec 64) (n : ℕ) {x : BitVec 64} (hx : ¬ InRange d n x) :
    m.copy d s n x = m x := by
  induction n with
  | zero => rfl
  | succ n ih =>
    rw [WordMem.copy]
    dsimp only
    rw [if_neg, ih fun h => hx (h.mono (Nat.le_succ n))]
    rintro rfl
    refine hx ?_
    rw [InRange, add_sub_cancel_left, BitVec.toNat_ofNat]
    exact Nat.lt_succ_of_le (Nat.mod_le n _)

theorem tryMemCpyOf_spec : (tryMemCpyOf logPageSize readable).Spec logPageSize readable where
  succeeds m d s n hall := by rw [tryMemCpyOf, if_pos hall]
  copies m d s n hall hapart i hi := by
    have hn : n ≤ 2^64 := Nat.not_lt.mp fun h =>
      hapart s ((BitVec.isLt _).trans h) ((BitVec.isLt _).trans h)
    rw [tryMemCpyOf, if_pos hall]
    dsimp only
    rw [WordMem.copy_eq m hn hapart, if_pos (inRange_add_ofNat d hi hn),
      toNat_add_ofNat_sub d (by omega)]
  fails m d s n hall := by rw [tryMemCpyOf, if_neg hall]
  frame m d s n x hx := by
    unfold tryMemCpyOf
    split_ifs
    · exact copy_frame m d s n hx
    · rfl

/-- The loop over the pages writes to their places only. -/
theorem copyPages_frame (hspec : tryMemCpy.Spec logPageSize readable) (hpage : logPageSize < 64)
    {eDown x : BitVec 64} (he : eDown.toNat % 2^logPageSize = 0) (fuel : ℕ) {p : BitVec 64}
    (hp : p.toNat % 2^logPageSize = 0) (hx : eDown.toNat ≤ (src + (x - dest)).toNat)
    (h : copyPages logPageSize tryMemCpy dest src eDown fuel m p = some m') : m' x = m x := by
  induction fuel generalizing m p with
  | zero => cases h
  | succ fuel ih =>
    rw [copyPages] at h
    split_ifs at h with hlt
    · have hP : 2^logPageSize < 2^64 := Nat.pow_lt_pow_right (by decide) hpage
      rw [BitVec.lt_def] at hlt
      -- Another page has room before the end.
      have hroom : p.toNat + 2^logPageSize ≤ eDown.toNat := by
        obtain ⟨i, hi⟩ := Nat.dvd_of_mod_eq_zero hp
        obtain ⟨j, hj⟩ := Nat.dvd_of_mod_eq_zero he
        have hij : i + 1 ≤ j := Nat.lt_of_mul_lt_mul_left (hi ▸ hj ▸ hlt)
        have hmul := Nat.mul_le_mul_left (2^logPageSize) hij
        rw [Nat.mul_succ] at hmul
        omega
      have hlast := eDown.isLt
      have hnext : (p + BitVec.ofNat 64 (2^logPageSize)).toNat = p.toNat + 2^logPageSize :=
        toNat_add_ofNat (by omega)
      refine (ih (p := p + BitVec.ofNat 64 (2^logPageSize)) ?_ h).trans ?_
      · rw [hnext, Nat.add_mod_right, hp]
      · refine copyOrZero_frame hspec m dest src p _ x ?_
        have hdist : x - (dest + (p - src)) = src + (x - dest) - p := by ring
        rw [add_sub_cancel_left, BitVec.toNat_ofNat, Nat.mod_eq_of_lt hP, InRange, hdist,
          BitVec.toNat_sub_of_le (BitVec.le_def.mpr (by omega))]
        omega
    · cases h
      rfl

theorem memCpyAccessible_parts {n : BitVec 64} {fuel : ℕ}
    (hall : ¬ ∀ i < n.toNat, Accessible logPageSize readable (src + BitVec.ofNat 64 i))
    (h : memCpyAccessible logPageSize (tryMemCpyOf logPageSize readable) fuel m dest src n = some m') :
    ∃ m₂, copyPages logPageSize (tryMemCpyOf logPageSize readable) dest src
        (pageDown logPageSize (src + n)) fuel
        (copyOrZero (tryMemCpyOf logPageSize readable) m dest src src (pageUp logPageSize src))
        (pageUp logPageSize src) = some m₂ ∧
      m' = copyOrZero (tryMemCpyOf logPageSize readable) m₂ dest src (pageDown logPageSize (src + n))
        (src + n) := by
  have hfail : tryMemCpyOf logPageSize readable m dest src n.toNat = (false, m) := if_neg hall
  rw [memCpyAccessible, hfail, if_neg Bool.false_ne_true] at h
  obtain ⟨m₂, hpages, hm⟩ := Option.bind_eq_some_iff.mp h
  exact ⟨m₂, hpages, (Option.some.inj hm).symm⟩

/-- A range inside a page that cannot be read: the byte behind the destination is cleared. -/
theorem not_correct_of_not_hasBoundary (hpage : logPageSize < 64) {n : BitVec 64}
    (hall : ¬ ∀ i < n.toNat, Accessible logPageSize readable (src + BitVec.ofNat 64 i))
    (hbound : ¬ HasBoundary logPageSize src n.toNat) :
    ¬ Correct logPageSize readable (fun _ => 1) dest src n.toNat
      fun fuel => memCpyAccessible logPageSize (tryMemCpyOf logPageSize readable) fuel (fun _ => 1) dest
        src n := by
  rintro ⟨m', ⟨k, hk⟩, hcopied⟩
  obtain ⟨m₂, hpages, hm'⟩ := memCpyAccessible_parts hall (hk k le_rfl)
  have hspec : (tryMemCpyOf logPageSize readable).Spec logPageSize readable := tryMemCpyOf_spec
  have hdown := pageDown_eq hpage (src + n)
  obtain ⟨u, hup, hsize, hu1, hu2⟩ := pageUp_sub hpage src
  have hu3 : src.toNat + n.toNat < u * 2^logPageSize := Nat.not_le.mp fun h => hbound ⟨u, hu1, h⟩
  have hdist : src + (dest + n - dest) = src + n := by ring
  -- The head clears the byte behind the destination.
  have hhead : copyOrZero (tryMemCpyOf logPageSize readable) (fun _ => 1) dest src src
      (pageUp logPageSize src) (dest + n) = 0 := by
    have hnot : ¬ ∀ i < u * 2^logPageSize - src.toNat,
        Accessible logPageSize readable (src + BitVec.ofNat 64 i) := fun h =>
      hall fun i hi => h i (by omega)
    unfold copyOrZero
    rw [hsize, if_neg (Bool.eq_false_iff.mp (hspec.fails _ _ src _ hnot))]
    refine if_pos ?_
    rw [InRange, show dest + n - (dest + (src - src)) = n by ring]
    omega
  -- The pages and the tail are at other places.
  have hboundary : ∀ w, (BitVec.ofNat 64 (w * 2^logPageSize)).toNat % 2^logPageSize = 0 := fun w => by
    rw [BitVec.toNat_ofNat, two_pow_split hpage, Nat.mod_mul_right_mod, Nat.mul_mod_left]
  have hle : (pageDown logPageSize (src + n)).toNat ≤ (src + (dest + n - dest)).toNat := by
    rw [hdist, hdown, BitVec.toNat_ofNat]
    exact (Nat.mod_le _ _).trans (Nat.div_mul_le_self _ _)
  have hframe := copyPages_frame hspec hpage (hdown ▸ hboundary _) k (hup ▸ hboundary _) hle hpages
  have htail : m' (dest + n) = m₂ (dest + n) := by
    rw [hm']
    refine copyOrZero_frame hspec m₂ dest src _ _ _ ?_
    rw [InRange, show dest + n - (dest + (pageDown logPageSize (src + n) - src)) =
      src + n - pageDown logPageSize (src + n) by ring]
    exact Nat.lt_irrefl _
  have hout : ¬ InRange dest n.toNat (dest + n) := by
    rw [InRange, add_sub_cancel_left]
    exact Nat.lt_irrefl _
  have hone := hcopied.frame _ hout
  rw [htail, hframe, hhead] at hone
  exact absurd hone (by decide)

/-- A range of more than a page at the end of the address space: its last byte is left out. -/
theorem not_correct_of_end (hpage : logPageSize < 64) {n : BitVec 64}
    (hapart : Apart src dest n.toNat)
    (hall : ¬ ∀ i < n.toNat, Accessible logPageSize readable (src + BitVec.ofNat 64 i))
    (hend : src.toNat + n.toNat = 2^64) (hfar : src.toNat + 2^logPageSize ≤ 2^64) :
    ∃ m, ¬ Correct logPageSize readable m dest src n.toNat
      fun fuel => memCpyAccessible logPageSize (tryMemCpyOf logPageSize readable) fuel m dest src n := by
  have hlast : src.toNat < 2^64 := src.isLt
  have hdist : dest + BitVec.ofNat 64 (n.toNat - 1) - dest = BitVec.ofNat 64 (n.toNat - 1) :=
    add_sub_cancel_left _ _
  have hn1 : (BitVec.ofNat 64 (n.toNat - 1)).toNat = n.toNat - 1 := by
    rw [BitVec.toNat_ofNat, Nat.mod_eq_of_lt (by have := n.isLt; omega)]
  have hzero : src + n = 0 := BitVec.eq_of_toNat_eq (by rw [BitVec.toNat_add, hend]; rfl)
  have hdown : pageDown logPageSize 0 = 0 := by
    rw [pageDown_eq hpage, show (0 : BitVec 64).toNat = 0 from rfl, Nat.zero_div, Nat.zero_mul]
    rfl
  have hspec : (tryMemCpyOf logPageSize readable).Spec logPageSize readable := tryMemCpyOf_spec
  generalize hx : dest + BitVec.ofNat 64 (n.toNat - 1) = x at hdist
  refine ⟨fun z => if z = x then 1 else 0, ?_⟩
  rintro ⟨m', ⟨k, hk⟩, hcopied⟩
  obtain ⟨m₂, hpages, hm'⟩ := memCpyAccessible_parts hall (hk k le_rfl)
  rw [hzero, hdown] at hpages hm'
  -- The head ends before the last byte.
  have hhead : copyOrZero (tryMemCpyOf logPageSize readable) (fun z => if z = x then 1 else 0) dest src src
      (pageUp logPageSize src) x = 1 := by
    obtain ⟨u, -, hsize, hu1, hu2⟩ := pageUp_sub hpage src
    refine (copyOrZero_frame hspec _ dest src src _ x ?_).trans (if_pos rfl)
    rw [InRange, show x - (dest + (src - src)) = x - dest by ring, hdist, hn1, hsize]
    omega
  -- The loop sees no page, and the tail is empty.
  have hloop : m₂ x = 1 := by
    cases k with
    | zero => cases hpages
    | succ k =>
      have hlt : ¬ pageUp logPageSize src < 0 := BitVec.not_lt_zero
      rw [copyPages, if_neg hlt] at hpages
      rw [← Option.some.inj hpages, hhead]
  have htail : m' x = 1 := by
    rw [hm', ← hloop]
    exact copyOrZero_frame hspec m₂ dest src 0 0 x (Nat.not_lt_zero _)
  have hbyte := hcopied.bytes (n.toNat - 1) (by omega)
  rw [hx, htail, expected] at hbyte
  split_ifs at hbyte with hacc hsame
  · exact hapart x (hsame ▸ inRange_add_ofNat src (by omega) n.isLt.le)
      (hx ▸ inRange_add_ofNat dest (by omega) n.isLt.le)
  · exact absurd hbyte (by decide)
  · exact absurd hbyte (by decide)

end

/-! ## The result -/

/-- Whatever `TryMemCpy` is, the copy is correct, and so is the buffer of an accessor that has its data
there. -/
def CopiesAccessible (logPageSize : ℕ) (readable : ℕ → Bool) (dest src n : BitVec 64) : Prop :=
  ∀ tryMemCpy : TryMemCpy, tryMemCpy.Spec logPageSize readable → ∀ m,
    (Correct logPageSize readable m dest src n.toNat
      fun fuel => memCpyAccessible logPageSize tryMemCpy fuel m dest src n) ∧
    ∃ m', (∃ k, ∀ fuel ≥ k,
        copyMemoryAccessorInit logPageSize tryMemCpy fuel m dest src (src + n) = some m') ∧
      ∀ i < n.toNat, m' (dest + BitVec.ofNat 64 i) = expected logPageSize readable m src i

/-- The copy is right just when all of the range can be read, or there is a boundary of the pages between
its ends, and not more than a page of it when it ends with the address space. -/
theorem memCpyAccessible_iff (logPageSize : ℕ) (readable : ℕ → Bool) (dest src n : BitVec 64)
    (hpage : logPageSize < 64) (hrange : src.toNat + n.toNat ≤ 2^64) (hapart : Apart src dest n.toNat) :
    CopiesAccessible logPageSize readable dest src n ↔
      (∀ i < n.toNat, Accessible logPageSize readable (src + BitVec.ofNat 64 i)) ∨
        HasBoundary logPageSize src n.toNat ∧
          (src.toNat + n.toNat = 2^64 → 2^64 < src.toNat + 2^logPageSize) := by
  constructor
  · intro h
    have hof := fun m => (h _ tryMemCpyOf_spec m).1
    by_cases hall : ∀ i < n.toNat, Accessible logPageSize readable (src + BitVec.ofNat 64 i)
    · exact .inl hall
    refine .inr ⟨?_, fun hend => ?_⟩
    · by_contra hbound
      exact not_correct_of_not_hasBoundary hpage hall hbound (hof _)
    · by_contra hfar
      obtain ⟨m, hm⟩ := not_correct_of_end hpage hapart hall hend (Nat.not_lt.mp hfar)
      exact hm (hof m)
  · intro h tryMemCpy hspec m
    refine ⟨memCpyAccessible_correct hspec hpage hrange hapart h m, ?_⟩
    -- The accessor makes its copy over a buffer of zeros.
    have hsize : src + n - src = n := add_sub_cancel_left src n
    obtain ⟨m', ⟨k, hk⟩, hcopied⟩ := memCpyAccessible_correct hspec hpage hrange hapart h
      (m.fill dest n.toNat 0)
    refine ⟨m', ⟨k, fun fuel hfuel => ?_⟩, fun i hi => ?_⟩
    · rw [copyMemoryAccessorInit, hsize]
      exact hk fuel hfuel
    · rw [hcopied.bytes i hi, expected, expected, WordMem.fill_of_not_inRange _ _
        (hapart _ (inRange_add_ofNat src hi n.isLt.le))]

theorem apart_of_le {a b : BitVec 64} {n : ℕ} (h : a.toNat + n ≤ b.toNat) (hb : b.toNat + n ≤ 2^64) :
    Apart a b n := by
  intro x ha hx
  unfold InRange at ha hx
  rw [BitVec.toNat_sub] at ha hx
  have hx' := x.isLt
  omega

/-- The last bytes of a page that cannot be read and the first ones of a page that can. -/
theorem memCpyAccessible_iff_boundary : CopiesAccessible 12 (· == 2) 0x10000 0x1ff0 0x20 :=
  (memCpyAccessible_iff 12 (· == 2) 0x10000 0x1ff0 0x20 (by decide) (by decide)
    (apart_of_le (by decide) (by decide))).mpr (.inr ⟨⟨2, by decide, by decide⟩, by decide⟩)

/-- One byte inside a page that cannot be read: more than one byte is written. -/
theorem memCpyAccessible_inside : ¬ CopiesAccessible 12 (fun _ => false) 0x10000 0x1001 1 := by
  intro h
  refine not_correct_of_not_hasBoundary (by decide) (fun hall => ?_) ?_ (h _ tryMemCpyOf_spec _).1
  · exact absurd (hall 0 (by decide)) (by decide)
  · rintro ⟨q, hq, hq'⟩
    have hsrc : (0x1001 : BitVec 64).toNat = 4097 := rfl
    have hn : (1 : BitVec 64).toNat = 1 := rfl
    rw [hsrc] at hq hq'
    rw [hn] at hq'
    omega

end Tasan.Lsan
