import Tasan.CString
import Tasan.Fuel
import Tasan.Libc.Memset

/-!
# The bounded copies of `sanitizer_libc.cpp`

`internal_strlcat`, `internal_strlcpy`, `internal_strncat`, `internal_strncpy`, `internal_wcscpy`
and `internal_wcsncpy` next to the functions of BSD and ISO C. A function runs with rights to
memory, and
a load or a store without the right to it is an outcome of its own: the rights that a specification
gives are those to the elements that it allows to be read and written, and no others. An element has
`w` bytes, which is one for a `char`.

Five of the functions do what they are there for (`strlcpy_meets` and the like). `internal_wcscpy`
copies the first element before it looks at it, and stops in front of the NUL: it never writes the
NUL of a string that is not empty, and reads behind the NUL of one that is (`wcscpy_iff`).
-/

namespace Tasan.Libc

/-- The rights to memory. -/
structure Rights where
  /-- The bytes that may be read. -/
  read : ℕ → Bool
  /-- The bytes that may be written. -/
  write : ℕ → Bool

/-- The ways in which a copy stops. -/
inductive CopyFault
  /-- Not a death: a byte is read without a right to it. -/
  | read
  /-- Not a death: a byte is written without a right to it. -/
  | write
  /-- A `CHECK` fails. -/
  | check
  deriving DecidableEq

variable (R : Rights)

/-- An element is read. -/
def load (m : Mem) (a w : ℕ) : Outcome CopyFault ℕ :=
  if ∀ i < w, R.read (a + i) = true then .returned (m.readLE a w) else .stopped .read

/-- An element is written. -/
def store (m : Mem) (a w v : ℕ) : Outcome CopyFault Mem :=
  if ∀ i < w, R.write (a + i) = true then .returned (m.writeLE a w v) else .stopped .write

/-! ## The functions -/

/-- The loop of `internal_strlen`. -/
def strlenLoop (m : Mem) (s : ℕ) : ℕ → ℕ → Outcome CopyFault ℕ
  | 0, _ => .unfinished
  | fuel + 1, i => do
    let c ← load R m (s + i) 1
    if c ≠ 0 then strlenLoop m s fuel (i + 1) else return i

/-- The loop of `internal_strnlen`, with `n` characters left. -/
def strnlenLoop (m : Mem) (s : ℕ) : ℕ → ℕ → Outcome CopyFault ℕ
  | 0, i => .returned i
  | n + 1, i => do
    let c ← load R m (s + i) 1
    if c ≠ 0 then strnlenLoop m s n (i + 1) else return i

/-- The first loop of `internal_memmove`, with `n` bytes left. -/
def moveUp (d s : ℕ) : ℕ → ℕ → Mem → Outcome CopyFault Mem
  | 0, _, m => .returned m
  | n + 1, i, m => do
    let c ← load R m (s + i) 1
    let m ← store R m (d + i) 1 c
    moveUp d s n (i + 1) m

/-- The second loop of `internal_memmove`, with `i` bytes left. -/
def moveDown (d s : ℕ) : ℕ → Mem → Outcome CopyFault Mem
  | 0, m => .returned m
  | i + 1, m => do
    let c ← load R m (s + i) 1
    let m ← store R m (d + i) 1 c
    moveDown d s i m

/-- `internal_memmove`. -/
def internalMemmove (m : Mem) (d s n : ℕ) : Outcome CopyFault Mem :=
  if 2^63 ≤ n then .stopped .check
  else if d < s then moveUp R d s n 0 m
  else if s < d then moveDown R d s n m
  else .returned m

/-- `internal_memset` with zero. It writes its block. -/
def memsetZero (m : Mem) (s n : ℕ) : Outcome CopyFault Mem :=
  if ∀ i < n, R.write (s + i) = true then .returned (internalMemset m s 0 n) else .stopped .write

/-- `internal_strlcat`: the result, and the memory. -/
def internalStrlcat (fuel : ℕ) (m : Mem) (dst src maxlen : ℕ) : Outcome CopyFault (ℕ × Mem) := do
  let srclen ← strlenLoop R m src fuel 0
  let dstlen ← strnlenLoop R m dst maxlen 0
  if dstlen = maxlen then return (maxlen + srclen, m)
  else if srclen < maxlen - dstlen then do
    let m ← internalMemmove R m (dst + dstlen) src (srclen + 1)
    return (dstlen + srclen, m)
  else do
    let m ← internalMemmove R m (dst + dstlen) src (maxlen - dstlen - 1)
    let m ← store R m (dst + (maxlen - 1)) 1 0
    return (dstlen + srclen, m)

/-- `internal_strlcpy`. -/
def internalStrlcpy (fuel : ℕ) (m : Mem) (dst src maxlen : ℕ) : Outcome CopyFault (ℕ × Mem) := do
  let srclen ← strlenLoop R m src fuel 0
  if srclen < maxlen then do
    let m ← internalMemmove R m dst src (srclen + 1)
    return (srclen, m)
  else if maxlen ≠ 0 then do
    let m ← internalMemmove R m dst src (maxlen - 1)
    let m ← store R m (dst + (maxlen - 1)) 1 0
    return (srclen, m)
  else return (srclen, m)

/-- The loop `for (; i < n && src[i]; i++) dst[i] = src[i]` with `n` elements left: where it
ends. -/
def copyLoop (w dst src : ℕ) : ℕ → ℕ → Mem → Outcome CopyFault (ℕ × Mem)
  | 0, i, m => .returned (i, m)
  | n + 1, i, m => do
    let c ← load R m (src + w * i) w
    if c ≠ 0 then do
      let m ← store R m (dst + w * i) w c
      copyLoop w dst src n (i + 1) m
    else return (i, m)

/-- `internal_strncat`. -/
def internalStrncat (fuel : ℕ) (m : Mem) (dst src n : ℕ) : Outcome CopyFault (ℕ × Mem) := do
  let len ← strlenLoop R m dst fuel 0
  let (i, m) ← copyLoop R 1 (dst + len) src n 0 m
  let m ← store R m (dst + len + i) 1 0
  return (dst, m)

/-- `internal_strncpy` and `internal_wcsncpy`, for elements of `w` bytes. -/
def ncpy (w : ℕ) (m : Mem) (dst src n : ℕ) : Outcome CopyFault (ℕ × Mem) := do
  let (i, m) ← copyLoop R w dst src n 0 m
  let m ← memsetZero R m (dst + w * i) (w * (n - i))
  return (dst, m)

/-- `internal_strncpy`. -/
def internalStrncpy (m : Mem) (dst src n : ℕ) : Outcome CopyFault (ℕ × Mem) := ncpy R 1 m dst src n

/-- `internal_wcsncpy`. -/
def internalWcsncpy (sizeofWchar : ℕ) (m : Mem) (dst src n : ℕ) : Outcome CopyFault (ℕ × Mem) :=
  ncpy R sizeofWchar m dst src n

/-- The loop of `internal_wcscpy`. -/
def wcscpyLoop (w : ℕ) : ℕ → ℕ → ℕ → Mem → Outcome CopyFault Mem
  | 0, _, _, _ => .unfinished
  | fuel + 1, dstIt, src, m => do
    let c ← load R m src w
    let m ← store R m dstIt w c
    let c ← load R m (src + w) w
    if c ≠ 0 then wcscpyLoop w fuel (dstIt + w) (src + w) m else return m

/-- `internal_wcscpy`. -/
def internalWcscpy (sizeofWchar fuel : ℕ) (m : Mem) (dst src : ℕ) :
    Outcome CopyFault (ℕ × Mem) := do
  let m ← wcscpyLoop R sizeofWchar fuel dst src m
  return (dst, m)

/-! ## Strings and blocks -/

/-- A string of `len` elements, which is an object of an address space. -/
structure IsString (w : ℕ) (m : Mem) (s len : ℕ) : Prop where
  /-- The elements are not NUL. -/
  element : ∀ i < len, m.readLE (s + w * i) w ≠ 0
  /-- Then comes the NUL. -/
  nul : m.readLE (s + w * len) w = 0
  /-- An object is smaller than half of the address space. -/
  length_lt : len + 1 < 2^63

/-- A byte of the block of `n` bytes from `a` on. -/
def inBlock (a n x : ℕ) : Bool := a ≤ x && x < a + n

/-- Two blocks do not overlap. -/
def Apart (a n b k : ℕ) : Prop := a + n ≤ b ∨ b + k ≤ a

variable {R} {m : Mem} {w s d n len i a : ℕ}

theorem inBlock_iff {x : ℕ} : inBlock a n x = true ↔ a ≤ x ∧ x < a + n := by
  unfold inBlock
  rw [Bool.and_eq_true, decide_eq_true_eq, decide_eq_true_eq]

theorem load_of (h : ∀ i < w, R.read (a + i) = true) : load R m a w = .returned (m.readLE a w) :=
  if_pos h

theorem store_of (h : ∀ i < w, R.write (a + i) = true) (v : ℕ) :
    store R m a w v = .returned (m.writeLE a w v) := if_pos h

theorem load_byte (h : R.read a = true) : load R m a 1 = .returned (m a).toNat := by
  refine (load_of fun i hi => ?_).trans ?_
  · rw [Nat.lt_one_iff.mp hi]
    exact h
  · rfl

theorem store_byte (h : R.write a = true) (v : ℕ) :
    store R m a 1 v = .returned (m.set a (BitVec.ofNat 8 v)) := by
  refine (store_of (fun i hi => ?_) v).trans rfl
  rw [Nat.lt_one_iff.mp hi]
  exact h

theorem writeLE_readLE (m m' : Mem) (a b w : ℕ) (x : ℕ) :
    m.writeLE a w (m'.readLE b w) x = if a ≤ x ∧ x < a + w then m' (b + (x - a)) else m x := by
  induction w generalizing m a b with
  | zero => rw [if_neg (by omega)]; rfl
  | succ w ih =>
    have hbyte : BitVec.ofNat 8 ((m' b).toNat + 256 * m'.readLE (b + 1) w) = m' b := by
      apply BitVec.eq_of_toNat_eq
      have := (m' b).isLt
      rw [BitVec.toNat_ofNat]
      omega
    have hrest : ((m' b).toNat + 256 * m'.readLE (b + 1) w) / 256 = m'.readLE (b + 1) w := by
      have := (m' b).isLt
      omega
    rw [Mem.readLE, Mem.writeLE, hbyte, hrest, ih]
    rcases eq_or_ne x a with rfl | hne
    · rw [if_neg (by omega), if_pos (by omega), Mem.set_self, Nat.sub_self, Nat.add_zero]
    · rw [Mem.set_of_ne _ _ hne]
      by_cases hin : a ≤ x ∧ x < a + (w + 1)
      · rw [if_pos (by omega), if_pos hin, show b + 1 + (x - (a + 1)) = b + (x - a) by omega]
      · rw [if_neg (by omega), if_neg hin]

theorem move_zero (m : Mem) (d s : ℕ) : m.move d s 0 = m := by
  funext x
  exact if_neg (by omega)

theorem move_add (m : Mem) (d s k w : ℕ) :
    (m.move d s k).writeLE (d + k) w (m.readLE (s + k) w) = m.move d s (k + w) := by
  funext x
  rw [writeLE_readLE]
  unfold Mem.move
  by_cases hnew : d + k ≤ x ∧ x < d + k + w
  · rw [if_pos hnew, if_pos (by omega), show s + k + (x - (d + k)) = s + (x - d) by omega]
  · rw [if_neg hnew]
    exact if_congr (by omega) rfl rfl

theorem readLE_move {b : ℕ} (h : Apart b w d n) : (m.move d s n).readLE b w = m.readLE b w :=
  Mem.readLE_congr w fun x h1 h2 => if_neg (by unfold Apart at h; omega)

/-! ## The loops -/

/-- There is a right to read the block of `n` bytes from `a` on. -/
def Rights.Reads (R : Rights) (a n : ℕ) : Prop := ∀ x, a ≤ x → x < a + n → R.read x = true

/-- There is a right to write it. -/
def Rights.Writes (R : Rights) (a n : ℕ) : Prop := ∀ x, a ≤ x → x < a + n → R.write x = true

theorem IsString.char_ne (h : IsString 1 m s len) (hi : i < len) : (m (s + i)).toNat ≠ 0 := by
  have hchar := h.element i hi
  rw [Nat.one_mul] at hchar
  exact hchar

theorem IsString.char_nul (h : IsString 1 m s len) : (m (s + len)).toNat = 0 := by
  have hnul := h.nul
  rw [Nat.one_mul] at hnul
  exact hnul

theorem strlenLoop_eq (h : IsString 1 m s len) (hR : R.Reads s (len + 1)) {fuel : ℕ}
    (hi : i ≤ len) (hfuel : len - i < fuel) : strlenLoop R m s fuel i = .returned len := by
  induction fuel generalizing i with
  | zero => omega
  | succ fuel ih =>
    have hread : R.read (s + i) = true := hR _ (by omega) (by omega)
    rw [strlenLoop, load_byte hread, Outcome.returned_bind]
    rcases hi.lt_or_eq with hlt | rfl
    · rw [if_pos (h.char_ne hlt), ih (by omega) (by omega)]
    · rw [if_neg (not_not.mpr h.char_nul)]
      rfl

theorem strnlenLoop_eq (h : CString.IsLength m s n len) (hR : R.Reads s (min (len + 1) n))
    (hi : i ≤ len) : strnlenLoop R m s (n - i) i = .returned len := by
  have hle : len ≤ n := Nat.cast_le.mp h.le
  induction hk : n - i generalizing i with
  | zero =>
    rw [strnlenLoop, show i = len by omega]
  | succ k ih =>
    have hread : R.read (s + i) = true := hR _ (by omega) (by omega)
    rw [strnlenLoop, load_byte hread, Outcome.returned_bind]
    rcases hi.lt_or_eq with hlt | rfl
    · have hchar : (m (s + i)).toNat ≠ 0 :=
        fun hzero => h.char i hlt (BitVec.eq_of_toNat_eq hzero)
      rw [if_pos hchar, ih (by omega) (by omega)]
    · have hnul : (m (s + i)).toNat = 0 := by
        rw [h.stop (Nat.cast_lt.mpr (by omega))]
        rfl
      rw [if_neg (not_not.mpr hnul)]
      rfl

theorem moveUp_eq (hapart : Apart s n d n) (hread : R.Reads s n) (hwrite : R.Writes d n)
    (hi : i ≤ n) : moveUp R d s (n - i) i (m.move d s i) = .returned (m.move d s n) := by
  induction hk : n - i generalizing i with
  | zero =>
    rw [moveUp, show i = n by omega]
  | succ k ih =>
    have hbyte : (m.move d s i) (s + i) = m (s + i) := if_neg (by unfold Apart at hapart; omega)
    have hstep := move_add m d s i 1
    rw [moveUp, load_byte (hread _ (by omega) (by omega)), Outcome.returned_bind, hbyte,
      store_byte (hwrite _ (by omega) (by omega)), Outcome.returned_bind]
    exact (congrArg _ hstep).trans (ih (by omega) (by omega))

/-- The second one. -/
theorem moveDown_eq (hapart : Apart s n d n) (hread : R.Reads s n) (hwrite : R.Writes d n)
    (hi : i ≤ n) :
    moveDown R d s i (m.move (d + i) (s + i) (n - i)) = .returned (m.move d s n) := by
  induction i with
  | zero => rfl
  | succ i ih =>
    have hbyte : (m.move (d + (i + 1)) (s + (i + 1)) (n - (i + 1))) (s + i) = m (s + i) :=
      if_neg (by unfold Apart at hapart; omega)
    have hstep : (m.move (d + (i + 1)) (s + (i + 1)) (n - (i + 1))).set (d + i)
        (BitVec.ofNat 8 (m (s + i)).toNat) = m.move (d + i) (s + i) (n - i) := by
      funext x
      rw [BitVec.ofNat_toNat, BitVec.setWidth_eq]
      unfold Mem.set Mem.move
      rcases eq_or_ne x (d + i) with rfl | hne
      · rw [if_pos rfl, if_pos (by omega), Nat.sub_self, Nat.add_zero]
      · rw [if_neg hne]
        by_cases hin : d + i ≤ x ∧ x < d + i + (n - i)
        · rw [if_pos (by omega), if_pos hin,
            show s + (i + 1) + (x - (d + (i + 1))) = s + i + (x - (d + i)) by omega]
        · rw [if_neg (by omega), if_neg hin]
    rw [moveDown, load_byte (hread _ (by omega) (by omega)), Outcome.returned_bind, hbyte,
      store_byte (hwrite _ (by omega) (by omega)), Outcome.returned_bind, hstep]
    exact ih (by omega)

theorem internalMemmove_eq (hn : n < 2^63) (hapart : Apart s n d n) (hread : R.Reads s n)
    (hwrite : R.Writes d n) (m : Mem) : internalMemmove R m d s n = .returned (m.move d s n) := by
  unfold internalMemmove
  rw [if_neg (by omega)]
  rcases lt_trichotomy d s with hlt | rfl | hlt
  · have hup := moveUp_eq (m := m) hapart hread hwrite (Nat.zero_le n)
    rw [move_zero, Nat.sub_zero] at hup
    rw [if_pos hlt, hup]
  · obtain rfl : n = 0 := by unfold Apart at hapart; omega
    rw [if_neg (lt_irrefl _), if_neg (lt_irrefl _), move_zero]
  · have hdown := moveDown_eq (m := m) hapart hread hwrite le_rfl
    rw [Nat.sub_self, move_zero] at hdown
    rw [if_neg (by omega), if_pos hlt, hdown]

theorem memsetZero_eq (hwrite : R.Writes s n) (m : Mem) :
    memsetZero R m s n = .returned (m.fill s n 0) := by
  have hrights : ∀ i < n, R.write (s + i) = true := fun i hi => hwrite _ (by omega) (by omega)
  unfold memsetZero
  rw [if_pos hrights]
  congr 1
  unfold internalMemset
  split_ifs with hfast
  · have hzero : (replicated 0).toNat = 0 := rfl
    funext x
    rw [hzero, storeWords_apply (by omega) (by omega)]
    unfold Mem.fill
    split_ifs with h1 h2 h2
    · rw [Nat.zero_div]
      rfl
    · omega
    · omega
    · rfl
  · exact storeBytes_eq _ m

/-- The loop that copies a string, at most `n` elements of it. -/
theorem copyLoop_eq (h : IsString w m s len)
    (hapart : Apart s (w * min (len + 1) n) d (w * min len n))
    (hread : R.Reads s (w * min (len + 1) n)) (hwrite : R.Writes d (w * min len n))
    (hi : i ≤ min len n) :
    copyLoop R w d s (n - i) i (m.move d s (w * i)) =
      .returned (min len n, m.move d s (w * min len n)) := by
  induction hk : n - i generalizing i with
  | zero =>
    rw [copyLoop, show i = min len n by omega]
  | succ k ih =>
    have hnext : w * i + w ≤ w * min (len + 1) n := by
      rw [← Nat.mul_succ]
      exact Nat.mul_le_mul_left w (by omega)
    have hkeep : (m.move d s (w * i)).readLE (s + w * i) w = m.readLE (s + w * i) w := by
      have hmul : w * i ≤ w * min len n := Nat.mul_le_mul_left w hi
      exact readLE_move (by unfold Apart at hapart ⊢; omega)
    rw [copyLoop, load_of (fun j hj => hread _ (by omega) (by omega)), Outcome.returned_bind, hkeep]
    rcases (show i ≤ len by omega).lt_or_eq with hlt | rfl
    · have hwidth : w * i + w ≤ w * min len n := by
        rw [← Nat.mul_succ]
        exact Nat.mul_le_mul_left w (by omega)
      rw [if_pos (h.element i hlt), store_of (fun j hj => hwrite _ (by omega) (by omega)),
        Outcome.returned_bind, move_add, ← Nat.mul_succ]
      exact ih (by omega) (by omega)
    · rw [if_neg (not_not.mpr h.nul), min_eq_left (by omega)]
      rfl

/-! ## What BSD and ISO C specify -/

/-- The rights to two blocks for reading and one for writing. -/
def rights (a n b k c l : ℕ) : Rights := ⟨fun x => inBlock a n x || inBlock b k x, inBlock c l⟩

/-- The first `k` characters of a string and a NUL. -/
def terminated (m : Mem) (dst src k : ℕ) : Mem := (m.move dst src k).set (dst + k) 0

/-- The first `k` elements of a string, and zeros up to `n` elements. -/
def padded (w : ℕ) (m : Mem) (dst src k n : ℕ) : Mem :=
  (m.move dst src (w * k)).fill (dst + w * k) (w * (n - k)) 0

/-- `strlcpy`: as much of the string as fits, and a NUL unless the size is zero. -/
def StrlcpyMeets (m : Mem) (dst src size : ℕ) : Prop :=
  ∀ len, IsString 1 m src len → Apart src (len + 1) dst (min (len + 1) size) → ∀ fuel > len,
    internalStrlcpy (rights src (len + 1) 0 0 dst (min (len + 1) size)) fuel m dst src size =
      .returned (len, if size = 0 then m else terminated m dst src (min len (size - 1)))

/-- `strlcat`: as much of the string as fits behind the one in the destination, and a NUL, unless
the destination has none. -/
def StrlcatMeets (m : Mem) (dst src size : ℕ) : Prop :=
  ∀ len dstLen, IsString 1 m src len → CString.IsLength m dst size dstLen →
    Apart src (len + 1) (dst + dstLen) (min (len + 1) (size - dstLen)) → ∀ fuel > len,
    internalStrlcat (rights src (len + 1) dst (min (dstLen + 1) size) (dst + dstLen)
        (min (len + 1) (size - dstLen))) fuel m dst src size =
      .returned (dstLen + len, if dstLen = size then m
        else terminated m (dst + dstLen) src (min len (size - dstLen - 1)))

/-- `strncat`: at most `n` characters behind the string in the destination, and a NUL. -/
def StrncatMeets (m : Mem) (dst src n : ℕ) : Prop :=
  ∀ len dstLen, IsString 1 m src len → IsString 1 m dst dstLen →
    Apart src (min (len + 1) n) (dst + dstLen) (min len n + 1) → ∀ fuel > dstLen,
    internalStrncat (rights src (min (len + 1) n) dst (dstLen + 1) (dst + dstLen)
        (min len n + 1)) fuel m dst src n =
      .returned (dst, terminated m (dst + dstLen) src (min len n))

/-- `strncpy`: at most `n` characters, and zeros up to `n`. -/
def StrncpyMeets (m : Mem) (dst src n : ℕ) : Prop :=
  ∀ len, IsString 1 m src len → Apart src (min (len + 1) n) dst n →
    internalStrncpy (rights src (min (len + 1) n) 0 0 dst n) m dst src n =
      .returned (dst, padded 1 m dst src (min len n) n)

/-- `wcsncpy`: the same with wide characters. -/
def WcsncpyMeets (w : ℕ) (m : Mem) (dst src n : ℕ) : Prop :=
  ∀ len, IsString w m src len → Apart src (w * min (len + 1) n) dst (w * n) →
    internalWcsncpy (rights src (w * min (len + 1) n) 0 0 dst (w * n)) w m dst src n =
      .returned (dst, padded w m dst src (min len n) n)

/-- `wcscpy`: the string with its NUL. -/
def WcscpyMeets (w : ℕ) (m : Mem) (dst src len : ℕ) : Prop :=
  ∀ fuel > len,
    internalWcscpy (rights src (w * (len + 1)) 0 0 dst (w * (len + 1))) w fuel m dst src =
      .returned (dst, m.move dst src (w * (len + 1)))

/-! ## The functions and their specifications -/

section

variable {b k c l : ℕ}

theorem rights_reads_fst {x y : ℕ} (h1 : a ≤ x) (h2 : x + y ≤ a + n) :
    (rights a n b k c l).Reads x y := fun z hz1 hz2 =>
  Bool.or_eq_true_iff.mpr (Or.inl (inBlock_iff.mpr ⟨by omega, by omega⟩))

theorem rights_reads_snd : (rights a n b k c l).Reads b k := fun _ hz1 hz2 =>
  Bool.or_eq_true_iff.mpr (Or.inr (inBlock_iff.mpr ⟨hz1, hz2⟩))

theorem rights_writes {x y : ℕ} (h1 : c ≤ x) (h2 : x + y ≤ c + l) :
    (rights a n b k c l).Writes x y := fun z hz1 hz2 => inBlock_iff.mpr ⟨by omega, by omega⟩

end

theorem move_succ_eq_terminated (h : IsString 1 m s len) :
    m.move d s (len + 1) = terminated m d s len := by
  have hnul : m (s + len) = 0 := BitVec.eq_of_toNat_eq h.char_nul
  have hstep := move_add m d s len 1
  have hbyte : BitVec.ofNat 8 (m.readLE (s + len) 1) = 0 := by
    have hread : m.readLE (s + len) 1 = 0 := h.char_nul
    rw [hread]
    rfl
  rw [← hstep]
  exact congrArg ((m.move d s len).set (d + len)) hbyte

/-- `internal_strlcpy` does what BSD specifies. -/
theorem strlcpy_meets (m : Mem) (dst src size : ℕ) : StrlcpyMeets m dst src size := by
  intro len h hapart fuel hfuel
  have hlt := h.length_lt
  unfold internalStrlcpy
  rw [strlenLoop_eq h (rights_reads_fst le_rfl le_rfl) (Nat.zero_le _) (by omega),
    Outcome.returned_bind]
  rcases Nat.lt_or_ge len size with hfits | hfull
  · rw [if_pos hfits, if_neg (by omega), internalMemmove_eq (by omega)
      (by unfold Apart at hapart ⊢; omega) (rights_reads_fst le_rfl le_rfl)
      (rights_writes le_rfl (by omega)), Outcome.returned_bind, move_succ_eq_terminated h,
      min_eq_left (by omega)]
    rfl
  · rw [if_neg (by omega)]
    rcases eq_or_ne size 0 with rfl | hne
    · rfl
    · have hwrite : (rights src (len + 1) 0 0 dst (min (len + 1) size)).write (dst + (size - 1)) =
          true := inBlock_iff.mpr ⟨by omega, by omega⟩
      rw [if_pos hne, if_neg hne, internalMemmove_eq (by omega)
        (by unfold Apart at hapart ⊢; omega) (rights_reads_fst le_rfl (by omega))
        (rights_writes le_rfl (by omega)), Outcome.returned_bind, store_byte hwrite,
        Outcome.returned_bind, min_eq_right (by omega)]
      rfl

/-- `internal_strlcat` does what BSD specifies. -/
theorem strlcat_meets (m : Mem) (dst src size : ℕ) : StrlcatMeets m dst src size := by
  intro len dstLen h hdst hapart fuel hfuel
  have hlt := h.length_lt
  have hle : dstLen ≤ size := Nat.cast_le.mp hdst.le
  have hstrn := strnlenLoop_eq (R := rights src (len + 1) dst (min (dstLen + 1) size)
    (dst + dstLen) (min (len + 1) (size - dstLen))) hdst rights_reads_snd (Nat.zero_le _)
  rw [Nat.sub_zero] at hstrn
  unfold internalStrlcat
  rw [strlenLoop_eq h (rights_reads_fst le_rfl le_rfl) (Nat.zero_le _) (by omega),
    Outcome.returned_bind, hstrn, Outcome.returned_bind]
  rcases hle.eq_or_lt with rfl | hroom
  · rw [if_pos rfl, if_pos rfl]
    rfl
  · rw [if_neg hroom.ne, if_neg hroom.ne]
    rcases Nat.lt_or_ge len (size - dstLen) with hfits | hfull
    · rw [if_pos hfits, internalMemmove_eq (by omega) (by unfold Apart at hapart ⊢; omega)
        (rights_reads_fst le_rfl le_rfl) (rights_writes le_rfl (by omega)), Outcome.returned_bind,
        move_succ_eq_terminated h, min_eq_left (by omega)]
      rfl
    · have hend : dst + (size - 1) = dst + dstLen + (size - dstLen - 1) := by omega
      have hwrite : (rights src (len + 1) dst (min (dstLen + 1) size) (dst + dstLen)
          (min (len + 1) (size - dstLen))).write (dst + dstLen + (size - dstLen - 1)) = true :=
        inBlock_iff.mpr ⟨by omega, by omega⟩
      rw [if_neg (by omega), internalMemmove_eq (by omega) (by unfold Apart at hapart ⊢; omega)
        (rights_reads_fst le_rfl (by omega)) (rights_writes le_rfl (by omega)),
        Outcome.returned_bind, hend, store_byte hwrite, Outcome.returned_bind,
        min_eq_right (by omega)]
      rfl

theorem strncat_meets (m : Mem) (dst src n : ℕ) : StrncatMeets m dst src n := by
  intro len dstLen h hdst hapart fuel hfuel
  have hcopy := copyLoop_eq (R := rights src (min (len + 1) n) dst (dstLen + 1) (dst + dstLen)
    (min len n + 1)) (n := n) (d := dst + dstLen) h (by unfold Apart at hapart ⊢; omega)
    (rights_reads_fst le_rfl (by omega)) (rights_writes le_rfl (by omega)) (Nat.zero_le _)
  have hwrite : (rights src (min (len + 1) n) dst (dstLen + 1) (dst + dstLen)
      (min len n + 1)).write (dst + dstLen + min len n) = true :=
    inBlock_iff.mpr ⟨by omega, by omega⟩
  rw [Nat.sub_zero, Nat.mul_zero, move_zero, Nat.one_mul] at hcopy
  unfold internalStrncat
  rw [strlenLoop_eq hdst rights_reads_snd (Nat.zero_le _) (by omega), Outcome.returned_bind, hcopy,
    Outcome.returned_bind]
  dsimp only
  rw [store_byte hwrite]
  rfl

theorem ncpy_eq (h : IsString w m s len)
    (hapart : Apart s (w * min (len + 1) n) d (w * n)) :
    ncpy (rights s (w * min (len + 1) n) 0 0 d (w * n)) w m d s n =
      .returned (d, padded w m d s (min len n) n) := by
  have hmul : w * min len n + w * (n - min len n) = w * n := by
    rw [← Nat.mul_add]
    congr 1
    omega
  have hcopy := copyLoop_eq (R := rights s (w * min (len + 1) n) 0 0 d (w * n)) (n := n)
    (d := d) h (by unfold Apart at hapart ⊢; omega) (rights_reads_fst le_rfl le_rfl)
    (rights_writes le_rfl (by omega)) (Nat.zero_le _)
  rw [Nat.sub_zero, Nat.mul_zero, move_zero] at hcopy
  unfold ncpy
  rw [hcopy, Outcome.returned_bind]
  dsimp only
  rw [memsetZero_eq (rights_writes (by omega) (by omega))]
  rfl

theorem strncpy_meets (m : Mem) (dst src n : ℕ) : StrncpyMeets m dst src n := by
  intro len h hapart
  have hcopy := ncpy_eq (n := n) (d := dst) h (by rwa [Nat.one_mul, Nat.one_mul])
  rw [Nat.one_mul, Nat.one_mul] at hcopy
  exact hcopy

theorem wcsncpy_meets (w : ℕ) (m : Mem) (dst src n : ℕ) : WcsncpyMeets w m dst src n :=
  fun _ h hapart => ncpy_eq h hapart

/-! ## `internal_wcscpy` -/

/-- The loop stops in front of the NUL of a string that is not empty. -/
theorem wcscpyLoop_eq (h : IsString w m s len) (hapart : Apart s (w * (len + 1)) d (w * len))
    (hread : R.Reads s (w * (len + 1))) (hwrite : R.Writes d (w * len)) (hi : i < len)
    {fuel : ℕ} (hfuel : len - i ≤ fuel) :
    wcscpyLoop R w fuel (d + w * i) (s + w * i) (m.move d s (w * i)) =
      .returned (m.move d s (w * len)) := by
  induction fuel generalizing i with
  | zero => omega
  | succ fuel ih =>
    have hthis : w * i + w ≤ w * len := by
      rw [← Nat.mul_succ]
      exact Nat.mul_le_mul_left w hi
    have hall : w * (len + 1) = w * len + w := Nat.mul_succ w len
    have hload : (m.move d s (w * i)).readLE (s + w * i) w = m.readLE (s + w * i) w :=
      readLE_move (by unfold Apart at hapart ⊢; omega)
    have hnext : (m.move d s (w * (i + 1))).readLE (s + w * (i + 1)) w =
        m.readLE (s + w * (i + 1)) w :=
      readLE_move (by rw [Nat.mul_succ]; unfold Apart at hapart ⊢; omega)
    rw [wcscpyLoop, load_of (fun j hj => hread _ (by omega) (by omega)), Outcome.returned_bind,
      hload, store_of (fun j hj => hwrite _ (by omega) (by omega)), Outcome.returned_bind, move_add,
      ← Nat.mul_succ, Nat.add_assoc s, Nat.add_assoc d, ← Nat.mul_succ,
      load_of (fun j hj => hread _ (by omega) (by rw [Nat.mul_succ]; omega)),
      Outcome.returned_bind, hnext]
    rcases (show i + 1 ≤ len from hi).lt_or_eq with hlt | heq
    · rw [if_pos (h.element _ hlt)]
      exact ih hlt (by omega)
    · rw [heq, if_neg (not_not.mpr h.nul), ← heq]
      rfl

theorem move_mul_succ_eq_iff (h : IsString w m s len) :
    m.move d s (w * len) = m.move d s (w * (len + 1)) ↔ m.readLE (d + w * len) w = 0 := by
  have hlast : (m.move d s (w * len)).writeLE (d + w * len) w 0 = m.move d s (w * (len + 1)) := by
    rw [← h.nul, move_add, ← Nat.mul_succ]
  have hkeep : (m.move d s (w * len)).readLE (d + w * len) w = m.readLE (d + w * len) w :=
    readLE_move (Or.inr le_rfl)
  rw [← hlast, ← hkeep]
  constructor <;> intro heq
  · rw [heq, Mem.readLE_writeLE, Nat.zero_mod]
  · funext x
    have hself := writeLE_readLE (m.move d s (w * len)) (m.move d s (w * len)) (d + w * len)
      (d + w * len) w x
    rw [heq] at hself
    rw [hself]
    split_ifs with hin
    · rw [Nat.add_sub_cancel' hin.1]
    · rfl

/-- `internal_wcscpy` does what ISO C specifies for a string that is not empty, when the destination
has a NUL already where the string's NUL belongs. -/
theorem wcscpy_iff (hw : 0 < w) (h : IsString w m s len)
    (hapart : Apart s (w * (len + 1)) d (w * (len + 1))) :
    WcscpyMeets w m d s len ↔ len ≠ 0 ∧ m.readLE (d + w * len) w = 0 := by
  have hall : w * (len + 1) = w * len + w := Nat.mul_succ w len
  rcases eq_or_ne len 0 with rfl | hne
  · -- The element behind the NUL is read, and there is no right to it.
    refine iff_of_false (fun hmeets => ?_) (fun hcond => hcond.1 rfl)
    have hreads : ∀ j < w, (rights s (w * (0 + 1)) 0 0 d (w * (0 + 1))).read (s + j) = true :=
      fun j hj => rights_reads_fst (x := s) (y := w) le_rfl (by omega) _ (by omega) (by omega)
    have hwrites : ∀ j < w, (rights s (w * (0 + 1)) 0 0 d (w * (0 + 1))).write (d + j) = true :=
      fun j hj => rights_writes (x := d) (y := w) le_rfl (by omega) _ (by omega) (by omega)
    have hfault : ¬ ∀ j < w,
        (rights s (w * (0 + 1)) 0 0 d (w * (0 + 1))).read (s + w + j) = true := by
      intro hread
      rcases Bool.or_eq_true_iff.mp (hread 0 hw) with hin | hin
      · have := inBlock_iff.mp hin
        omega
      · have := inBlock_iff.mp hin
        omega
    have hrun := hmeets 1 Nat.one_pos
    rw [internalWcscpy, wcscpyLoop, load_of hreads, Outcome.returned_bind, store_of hwrites,
      Outcome.returned_bind, load, if_neg hfault] at hrun
    cases hrun
  · have hrun : ∀ fuel > len, internalWcscpy (rights s (w * (len + 1)) 0 0 d (w * (len + 1))) w fuel
        m d s = .returned (d, m.move d s (w * len)) := by
      intro fuel hfuel
      have hloop := wcscpyLoop_eq (R := rights s (w * (len + 1)) 0 0 d (w * (len + 1))) (d := d) h
        (by unfold Apart at hapart ⊢; omega) (rights_reads_fst le_rfl le_rfl)
        (rights_writes le_rfl (by omega)) (Nat.pos_of_ne_zero hne) (show len - 0 ≤ fuel by omega)
      rw [Nat.mul_zero, move_zero, Nat.add_zero d, Nat.add_zero s] at hloop
      unfold internalWcscpy
      rw [hloop, Outcome.returned_bind]
      rfl
    rw [and_iff_right hne, ← move_mul_succ_eq_iff h]
    constructor
    · intro hmeets
      have heq := (hrun (len + 1) (by omega)).symm.trans (hmeets (len + 1) (by omega))
      exact congrArg Prod.snd (Outcome.returned.inj heq)
    · intro heq fuel hfuel
      rw [hrun fuel hfuel, heq]

/-- Five of the functions do what BSD and ISO C specify, and `internal_wcscpy` does for a string
that is not empty and a destination that has a NUL where the string's NUL belongs. -/
theorem copies_iff (m : Mem) (dst src : ℕ) :
    (∀ size, StrlcatMeets m dst src size) ∧
      (∀ size, StrlcpyMeets m dst src size) ∧
      (∀ n, StrncatMeets m dst src n) ∧
      (∀ n, StrncpyMeets m dst src n) ∧
      (∀ w n, WcsncpyMeets w m dst src n) ∧
      ∀ w len, 0 < w → IsString w m src len → Apart src (w * (len + 1)) dst (w * (len + 1)) →
        (WcscpyMeets w m dst src len ↔ len ≠ 0 ∧ m.readLE (dst + w * len) w = 0) :=
  ⟨strlcat_meets m dst src, strlcpy_meets m dst src, strncat_meets m dst src, strncpy_meets m dst src,
    fun w n => wcsncpy_meets w m dst src n, fun _ _ hw h hapart => wcscpy_iff hw h hapart⟩

/-- The one character "a" at 0, in memory that is zero elsewhere. -/
def zeroedWide : Mem := fun x => if x = 0 then 97 else 0

theorem isString_zeroedWide : IsString 4 zeroedWide 0 1 where
  element := fun i hi => by
    rw [Nat.lt_one_iff.mp hi]
    decide
  nul := by decide
  length_lt := by norm_num

/-- A copy to where it finds a NUL is right. -/
theorem copies_iff_zeroed : WcscpyMeets 4 zeroedWide 16 0 1 :=
  ((copies_iff zeroedWide 16 0).2.2.2.2.2 4 1 (by decide) isString_zeroedWide (Or.inl (by decide))).mpr
    ⟨by decide, by decide⟩

/-- The one character "a" at 0, and a destination at 16 that holds other characters. -/
def oneWide : Mem := fun x => if x = 0 then 97 else if 16 ≤ x then 1 else 0

theorem isString_oneWide : IsString 4 oneWide 0 1 where
  element := fun i hi => by
    rw [Nat.lt_one_iff.mp hi]
    decide
  nul := by decide
  length_lt := by norm_num

/-- Its copy has no NUL. -/
theorem wcscpy_unterminated :
    IsString 4 oneWide 0 1 ∧ Apart 0 (4 * 2) 16 (4 * 2) ∧ ¬ WcscpyMeets 4 oneWide 16 0 1 := by
  have hapart : Apart 0 (4 * 2) 16 (4 * 2) := Or.inl (by decide)
  refine ⟨isString_oneWide, hapart, fun hmeets => ?_⟩
  have hlast := ((wcscpy_iff (by decide) isString_oneWide hapart).mp hmeets).2
  exact absurd hlast (by decide)

end Tasan.Libc
