import Tasan.CString
import Tasan.Word

/-!
# The interceptors of `strcat`, `strncat`, `strcpy` and `strncpy`

Before it calls the C function, an interceptor checks the ranges that the function is going to access, and
that the string that is copied does not overlap with the destination. The checks of a call are a list; what
`ACCESS_MEMORY_RANGE` finds in the shadow of a range and how an error is reported is not described here, and
neither is that a report may end the program. Lengths are words, and so are the ends of the ranges that
`RangesOverlap` compares.

The bytes that the C function reads and writes (`StringFunction.reads`, `StringFunction.area`) are those of
the strings as they are at the call. `StringFunction.run_eq` connects them to the loops of
`sanitizer_libc.cpp`, which see what they have written themselves: without an overlap they access the same
bytes. With an overlap the C functions have no defined behaviour.

The checks are exact but for two cases (`exact_iff`). `strncat` counts the new terminator twice when the
NUL of `from` is within the limit, so that it reports the adjacent string at the end of its destination.
`strncpy` compares only the characters that are copied, and misses a string that its zero padding overwrites.
-/

namespace Tasan.Asan.Strings

open CString

/-! ## The interceptors -/

/-- A check of an interceptor. -/
inductive Check
  /-- `ACCESS_MEMORY_RANGE`. -/
  | range (offset size : ℕ) (isWrite : Bool)
  /-- `CHECK_RANGES_OVERLAP`. -/
  | overlap (offset1 length1 offset2 length2 : ℕ)

/-- The flags that the interceptors read. -/
structure Flags where
  replaceStr : Bool
  strictStringChecks : Bool

/-- `RangesOverlap`. -/
def rangesOverlap (offset1 length1 offset2 length2 : ℕ) : Bool :=
  !(Word.add 64 offset1 length1 ≤ offset2 || Word.add 64 offset2 length2 ≤ offset1)

/-- Whether `CHECK_RANGES_OVERLAP` reports an error. -/
def Check.reportsOverlap (suppressed : Bool) : Check → Bool
  | .range .. => false
  | .overlap offset1 length1 offset2 length2 =>
    rangesOverlap offset1 length1 offset2 length2 && !suppressed

/-- `internal_strlen`; there are no characters behind the end of the address space. -/
def internalStrlen (m : Mem) (s : ℕ) : ℕ := strnlen m s (2^64 - s)

/-- `ASAN_READ_STRING_OF_LEN`. -/
def readStringOfLen (flags : Flags) (s len n : ℕ) : Check :=
  .range s (if flags.strictStringChecks then Word.add 64 len 1 else n) false

variable (flags : Flags) (m : Mem) (dst src : ℕ)

/-- The checks of `strcat`. The arguments `to` and `from` are called `dst` and `src`. -/
def strcat : List Check :=
  if flags.replaceStr then
    let fromLength := internalStrlen m src
    let toLength := internalStrlen m dst
    [.range src (Word.add 64 fromLength 1) false,
      readStringOfLen flags dst toLength toLength,
      .range (Word.add 64 dst toLength) (Word.add 64 fromLength 1) true] ++
      if fromLength > 0 then
        [.overlap dst (Word.add 64 (Word.add 64 fromLength toLength) 1) src (Word.add 64 fromLength 1)]
      else []
  else []

/-- The checks of `strncat`. -/
def strncat (size : ℕ) : List Check :=
  if flags.replaceStr then
    let fromLength := strnlen m src size
    let copyLength := min size (Word.add 64 fromLength 1)
    let toLength := internalStrlen m dst
    [.range src copyLength false,
      readStringOfLen flags dst toLength toLength,
      .range (Word.add 64 dst toLength) (Word.add 64 fromLength 1) true] ++
      if fromLength > 0 then
        [.overlap dst (Word.add 64 (Word.add 64 toLength copyLength) 1) src copyLength]
      else []
  else []

/-- The checks of `strcpy`. -/
def strcpy : List Check :=
  if flags.replaceStr then
    let fromSize := Word.add 64 (internalStrlen m src) 1
    [.overlap dst fromSize src fromSize, .range src fromSize false, .range dst fromSize true]
  else []

/-- The checks of `strncpy`. -/
def strncpy (size : ℕ) : List Check :=
  if flags.replaceStr then
    let fromSize := min size (Word.add 64 (strnlen m src size) 1)
    [.overlap dst fromSize src fromSize, .range src fromSize false, .range dst size true]
  else []

/-- The functions, with the limit of those that have one. -/
inductive StringFunction
  | strcat
  | strncat (size : ℕ)
  | strcpy
  | strncpy (size : ℕ)

/-- The checks of a call. -/
def StringFunction.checks : StringFunction → List Check
  | .strcat => Strings.strcat flags m dst src
  | .strncat size => Strings.strncat flags m dst src size
  | .strcpy => Strings.strcpy flags m dst src
  | .strncpy size => Strings.strncpy flags m dst src size

/-- The bytes of the ranges that are checked. -/
def checkedBytes (checks : List Check) : Set ℕ :=
  {b | ∃ offset size isWrite, Check.range offset size isWrite ∈ checks ∧ offset ≤ b ∧
    b < offset + size}

/-! ## The C functions -/

namespace StringFunction

/-- How many characters of `from` are looked at at most. -/
def limit : StringFunction → ℕ∞
  | .strcat | .strcpy => ⊤
  | .strncat size | .strncpy size => size

/-- The bytes of `from` that the C function reads. -/
def reads (f : StringFunction) : Set ℕ := CString.reads m src f.limit

/-- The destination string area that the C function reads or writes: from `to` through the new terminator,
or the bytes that are written, with the padding. -/
def area : StringFunction → Set ℕ
  | .strcat => {b | ∃ t n, IsLength m dst ⊤ t ∧ IsLength m src ⊤ n ∧ dst ≤ b ∧ b ≤ dst + (t + n)}
  | .strncat size =>
    {b | ∃ t n, IsLength m dst ⊤ t ∧ IsLength m src size n ∧ dst ≤ b ∧ b ≤ dst + (t + n)}
  | .strcpy => {b | ∃ i, b = dst + i ∧ src + i ∈ CString.reads m src ⊤}
  | .strncpy size => {b | dst ≤ b ∧ b < dst + size}

/-- At least one character is copied. `strcpy` and `strncpy` copy the NUL as well, and the other two only
append one. -/
def copies (f : StringFunction) : Prop :=
  match f with
  | .strcat | .strncat _ => ∃ b ∈ f.reads m src, m b ≠ 0
  | .strcpy | .strncpy _ => (f.reads m src).Nonempty

/-- The characters that the function looks at or copies are in memory, which ends before `memEnd`. This says
nothing of the padding. -/
structure InMemory (f : StringFunction) (memEnd : ℕ) : Prop where
  /-- `to` is a word. -/
  dst_lt : dst < 2^64
  /-- `from` is a word. -/
  src_lt : src < 2^64
  /-- What is read of `from`. -/
  read : ∀ b ∈ f.reads m src, b < memEnd
  /-- What is copied, and the string that it is appended to. -/
  written : match f with
    | .strcat | .strncat _ =>
      (∀ b ∈ CString.reads m dst ⊤, b < memEnd) ∧ ∀ b ∈ f.area m dst src, b < memEnd
    | .strcpy | .strncpy _ => ∀ i, src + i ∈ f.reads m src → dst + i < memEnd

/-- The bytes that the loops of the C functions access, one after the other. Where a function has no limit,
there are not more characters than addresses. -/
def run : StringFunction → List ℕ
  | .strcat =>
    let len := internalStrlen m dst
    let r := copyLoop m (dst + len) src (2^64)
    List.range' dst (len + 1) ++ r.read ++ r.written ++ [dst + len + r.count]
  | .strncat size =>
    let len := internalStrlen m dst
    let r := copyLoop m (dst + len) src size
    List.range' dst (len + 1) ++ r.read ++ r.written ++ [dst + len + r.count]
  | .strcpy =>
    let r := copyLoop m dst src (2^64)
    r.read ++ r.written ++ [dst + r.count]
  | .strncpy size =>
    let r := copyLoop m dst src size
    r.read ++ r.written ++ List.range' (dst + r.count) (size - r.count)

/-- What the checks of a call are meant to find, with `replace_str` and without `strict_string_checks`: an
overlap is reported when a character is copied and a byte of `from` that is read is in the destination area,
and the ranges are the bytes that the function accesses. -/
structure Exact (f : StringFunction) : Prop where
  /-- The overlap. -/
  overlap : (f.checks ⟨true, false⟩ m dst src).any (Check.reportsOverlap false) = true ↔
    f.copies m src ∧ ∃ b ∈ f.reads m src, b ∈ f.area m dst src
  /-- The ranges. -/
  bytes : checkedBytes (f.checks ⟨true, false⟩ m dst src) = f.reads m src ∪ f.area m dst src

/-- The calls that are not one of the two cases: `from` is not the string right behind what `strncat` makes,
with its NUL within the limit, and it does not begin in the padding of `strncpy`. -/
def Accurate : StringFunction → Prop
  | .strcat | .strcpy => True
  | .strncat size =>
    ¬ (0 < strnlen m src size ∧ strnlen m src size < size ∧
      src = dst + internalStrlen m dst + strnlen m src size + 1)
  | .strncpy size => ¬ (dst + min size (strnlen m src size + 1) ≤ src ∧ src < dst + size)

end StringFunction

/-! ## The checks are exact -/

variable {m dst src}

theorem rangesOverlap_iff {offset1 length1 offset2 length2 : ℕ} (h1 : offset1 + length1 < 2^64)
    (h2 : offset2 + length2 < 2^64) : rangesOverlap offset1 length1 offset2 length2 = true ↔
      offset2 < offset1 + length1 ∧ offset1 < offset2 + length2 := by
  unfold rangesOverlap
  rw [Word.add_of_lt h1, Word.add_of_lt h2]
  simp only [Bool.not_or, Bool.and_eq_true, Bool.not_eq_true', decide_eq_false_iff_not, not_le]

theorem isLength_internalStrlen {memEnd p : ℕ} (hend : memEnd < 2^64)
    (h : ∀ b ∈ CString.reads m p ⊤, b < memEnd) : IsLength m p ⊤ (internalStrlen m p) :=
  isLength_top_strnlen h (by omega)

theorem add_lt_of_reads {memEnd p n : ℕ} {size : ℕ∞} (hlen : IsLength m p size n) (hn : (n : ℕ∞) < size)
    (h : ∀ b ∈ CString.reads m p size, b < memEnd) : p + n < memEnd :=
  h _ ⟨n, rfl, hn, hlen.char⟩

theorem exists_char_iff {n : ℕ} {size : ℕ∞} (hlen : IsLength m src size n) :
    (∃ b ∈ CString.reads m src size, m b ≠ 0) ↔ 0 < n := by
  constructor
  · rintro ⟨b, hb, hchar⟩
    obtain ⟨hle, hbn, hsize⟩ := (mem_reads_iff hlen).mp hb
    by_contra hn
    obtain rfl : b = src + n := by omega
    rw [Nat.add_sub_cancel_left] at hsize
    exact hchar (hlen.stop hsize)
  · intro hn
    have hpos : ((0 : ℕ) : ℕ∞) < size := (Nat.cast_lt.mpr hn).trans_le hlen.le
    exact ⟨src + 0, ⟨0, rfl, hpos, fun j hj => absurd hj (Nat.not_lt_zero j)⟩, hlen.char 0 hn⟩

section Cat

variable {t n copyLength areaLength : ℕ}

/-- The checks of the two functions that append. -/
def catChecks (dst src t n copyLength areaLength : ℕ) : List Check :=
  [.range src copyLength false, .range dst t false, .range (dst + t) (n + 1) true] ++
    if n > 0 then [.overlap dst areaLength src copyLength] else []

theorem catChecks_reports (h1 : dst + areaLength < 2^64) (h2 : src + copyLength < 2^64) :
    (catChecks dst src t n copyLength areaLength).any (Check.reportsOverlap false) = true ↔
      0 < n ∧ src < dst + areaLength ∧ dst < src + copyLength := by
  unfold catChecks
  rcases Nat.eq_zero_or_pos n with rfl | hn
  · exact iff_of_false (by simp [Check.reportsOverlap]) (by omega)
  · rw [if_pos hn, and_iff_right hn, ← rangesOverlap_iff h1 h2]
    simp [Check.reportsOverlap]

/-- What they cover. -/
theorem mem_catChecks {b : ℕ} : b ∈ checkedBytes (catChecks dst src t n copyLength areaLength) ↔
    (src ≤ b ∧ b < src + copyLength) ∨ (dst ≤ b ∧ b ≤ dst + (t + n)) := by
  have hranges : b ∈ checkedBytes (catChecks dst src t n copyLength areaLength) ↔
      (src ≤ b ∧ b < src + copyLength) ∨ (dst ≤ b ∧ b < dst + t) ∨
        (dst + t ≤ b ∧ b < dst + t + (n + 1)) := by
    constructor
    · rintro ⟨offset, size, isWrite, hmem, hb⟩
      rcases List.mem_append.mp hmem with hmem | hmem
      · simp only [List.mem_cons, Check.range.injEq, List.not_mem_nil, or_false] at hmem
        rcases hmem with ⟨rfl, rfl, -⟩ | ⟨rfl, rfl, -⟩ | ⟨rfl, rfl, -⟩
        · exact Or.inl hb
        · exact Or.inr (Or.inl hb)
        · exact Or.inr (Or.inr hb)
      · split_ifs at hmem
        · cases List.mem_singleton.mp hmem
        · exact absurd hmem List.not_mem_nil
    · rintro (h | h | h)
      · exact ⟨_, _, _, List.mem_append_left _ List.mem_cons_self, h⟩
      · exact ⟨_, _, _, List.mem_append_left _ (List.mem_cons_of_mem _ List.mem_cons_self), h⟩
      · exact ⟨_, _, _, List.mem_append_left _
          (List.mem_cons_of_mem _ (List.mem_cons_of_mem _ List.mem_cons_self)), h⟩
  rw [hranges]
  omega

theorem strcat_eq (ht : internalStrlen m dst = t) (hn : internalStrlen m src = n)
    (hdst : dst + (t + n) + 1 < 2^64) :
    strcat ⟨true, false⟩ m dst src = catChecks dst src t n (n + 1) (n + t + 1) := by
  simp only [strcat, readStringOfLen, catChecks, ht, hn, if_true, Bool.false_eq_true, if_false]
  rw [Word.add_of_lt (show n + 1 < 2^64 by omega), Word.add_of_lt (show dst + t < 2^64 by omega),
    Word.add_of_lt (show n + t < 2^64 by omega), Word.add_of_lt (show n + t + 1 < 2^64 by omega)]

theorem strncat_eq {size : ℕ} (ht : internalStrlen m dst = t) (hn : strnlen m src size = n)
    (hdst : dst + (t + n) + 2 < 2^64) :
    strncat ⟨true, false⟩ m dst src size =
      catChecks dst src t n (min size (n + 1)) (t + min size (n + 1) + 1) := by
  simp only [strncat, readStringOfLen, catChecks, ht, hn, if_true, Bool.false_eq_true, if_false]
  rw [Word.add_of_lt (show n + 1 < 2^64 by omega), Word.add_of_lt (show dst + t < 2^64 by omega),
    Word.add_of_lt (show t + min size (n + 1) < 2^64 by omega),
    Word.add_of_lt (show t + min size (n + 1) + 1 < 2^64 by omega)]

end Cat

section Copy

variable {fromSize size : ℕ}

/-- The checks of the two functions that copy. -/
def copyChecks (dst src fromSize size : ℕ) : List Check :=
  [.overlap dst fromSize src fromSize, .range src fromSize false, .range dst size true]

theorem copyChecks_reports (h1 : dst + fromSize < 2^64) (h2 : src + fromSize < 2^64) :
    (copyChecks dst src fromSize size).any (Check.reportsOverlap false) = true ↔
      src < dst + fromSize ∧ dst < src + fromSize := by
  rw [← rangesOverlap_iff h1 h2]
  simp [copyChecks, Check.reportsOverlap]

theorem mem_copyChecks {b : ℕ} : b ∈ checkedBytes (copyChecks dst src fromSize size) ↔
    (src ≤ b ∧ b < src + fromSize) ∨ (dst ≤ b ∧ b < dst + size) := by
  constructor
  · rintro ⟨offset, size', isWrite, hmem, hb⟩
    simp only [copyChecks, List.mem_cons, Check.range.injEq, List.not_mem_nil, or_false,
      reduceCtorEq, false_or] at hmem
    rcases hmem with ⟨rfl, rfl, -⟩ | ⟨rfl, rfl, -⟩
    · exact Or.inl hb
    · exact Or.inr hb
  · rintro (h | h)
    · exact ⟨_, _, _, List.mem_cons_of_mem _ List.mem_cons_self, h⟩
    · exact ⟨_, _, _, List.mem_cons_of_mem _ (List.mem_cons_of_mem _ List.mem_cons_self), h⟩

theorem strcpy_eq {n : ℕ} (hn : internalStrlen m src = n) (hsrc : n + 1 < 2^64) :
    strcpy ⟨true, false⟩ m dst src = copyChecks dst src (n + 1) (n + 1) := by
  simp only [strcpy, copyChecks, hn, if_true]
  rw [Word.add_of_lt hsrc]

theorem strncpy_eq {n : ℕ} (hn : strnlen m src size = n) (hsrc : n + 1 < 2^64) :
    strncpy ⟨true, false⟩ m dst src size = copyChecks dst src (min size (n + 1)) size := by
  simp only [strncpy, copyChecks, hn, if_true]
  rw [Word.add_of_lt hsrc]

end Copy

namespace StringFunction

variable {memEnd : ℕ}

/-- A function is exact when what its checks report and cover is what is read and the destination area, both
given by bounds. -/
theorem exact_of_bounds {f : StringFunction} {readEnd areaEnd : ℕ} {reports copied : Prop}
    (hreads : ∀ b, b ∈ f.reads m src ↔ src ≤ b ∧ b < readEnd)
    (harea : ∀ b, b ∈ f.area m dst src ↔ dst ≤ b ∧ b < areaEnd)
    (hcopies : f.copies m src ↔ copied)
    (hreports : (f.checks ⟨true, false⟩ m dst src).any (Check.reportsOverlap false) = true ↔ reports)
    (hbytes : ∀ b, b ∈ checkedBytes (f.checks ⟨true, false⟩ m dst src) ↔
      (src ≤ b ∧ b < readEnd) ∨ (dst ≤ b ∧ b < areaEnd)) :
    f.Exact m dst src ↔ (reports ↔ copied ∧ max src dst < min readEnd areaEnd) := by
  have hoverlap : (∃ b ∈ f.reads m src, b ∈ f.area m dst src) ↔ max src dst < min readEnd areaEnd := by
    constructor
    · rintro ⟨b, hb, hb'⟩
      have h1 := (hreads b).mp hb
      have h2 := (harea b).mp hb'
      omega
    · intro h
      exact ⟨max src dst, (hreads _).mpr (by omega), (harea _).mpr (by omega)⟩
  have hall : checkedBytes (f.checks ⟨true, false⟩ m dst src) = f.reads m src ∪ f.area m dst src := by
    ext b
    rw [hbytes, Set.mem_union, hreads, harea]
  constructor
  · intro h
    rw [← hreports, h.overlap, hcopies, hoverlap]
  · intro h
    exact ⟨by rw [hreports, h, hcopies, hoverlap], hall⟩

theorem mem_cat_area {t n : ℕ} {size : ℕ∞} (ht : IsLength m dst ⊤ t) (hn : IsLength m src size n)
    (b : ℕ) : (∃ t n, IsLength m dst ⊤ t ∧ IsLength m src size n ∧ dst ≤ b ∧ b ≤ dst + (t + n)) ↔
      dst ≤ b ∧ b < dst + (t + n) + 1 := by
  constructor
  · rintro ⟨t', n', ht', hn', hb⟩
    obtain rfl := ht.unique ht'
    obtain rfl := hn.unique hn'
    omega
  · intro hb
    exact ⟨t, n, ht, hn, by omega⟩

theorem strcat_exact (hend : memEnd + 1 < 2^64)
    (hmem : StringFunction.strcat.InMemory m dst src memEnd) :
    StringFunction.strcat.Exact m dst src := by
  have hn := isLength_internalStrlen (by omega) hmem.read
  have ht := isLength_internalStrlen (by omega) hmem.written.1
  have hdst : dst + (internalStrlen m dst + internalStrlen m src) < memEnd :=
    hmem.written.2 _ ((mem_cat_area ht hn _).mpr (by omega))
  have hsrc := add_lt_of_reads hn (ENat.natCast_lt_top _) hmem.read
  have hchecks : StringFunction.strcat.checks ⟨true, false⟩ m dst src = _ :=
    strcat_eq rfl rfl (by omega)
  rw [exact_of_bounds (f := .strcat) (fun b => mem_reads_top_iff hn)
    (fun b => mem_cat_area ht hn b) (exists_char_iff hn) (hchecks ▸ catChecks_reports (by omega) (by omega))
    (fun b => hchecks ▸ mem_catChecks.trans (by omega))]
  omega

/-- The checks of `strncat` are exact when `from` is not the string right behind the new one, with its NUL
within the limit. -/
theorem strncat_exact_iff {size : ℕ} (hend : memEnd + 1 < 2^64)
    (hmem : (StringFunction.strncat size).InMemory m dst src memEnd) :
    (StringFunction.strncat size).Exact m dst src ↔
      (StringFunction.strncat size).Accurate m dst src := by
  have hn := isLength_strnlen m src size
  have ht := isLength_internalStrlen (by omega) hmem.written.1
  have hdst : dst + (internalStrlen m dst + strnlen m src size) < memEnd :=
    hmem.written.2 _ ((mem_cat_area ht hn _).mpr (by omega))
  have hread : ∀ b, b ∈ (StringFunction.strncat size).reads m src ↔
      src ≤ b ∧ b < src + min size (strnlen m src size + 1) := fun b => mem_reads_coe_iff hn
  have hsrc : src + min size (strnlen m src size + 1) < 2^64 := by
    have hlast := hmem.read (src + min size (strnlen m src size + 1) - 1)
    have hword := hmem.src_lt
    rw [hread] at hlast
    omega
  have hle : strnlen m src size ≤ size := Nat.cast_le.mp hn.le
  have hchecks : (StringFunction.strncat size).checks ⟨true, false⟩ m dst src = _ :=
    strncat_eq rfl rfl (by omega)
  rw [exact_of_bounds hread (fun b => mem_cat_area ht hn b) (exists_char_iff hn)
    (hchecks ▸ catChecks_reports (by omega) hsrc)
    (fun b => hchecks ▸ mem_catChecks.trans (by omega))]
  unfold Accurate
  omega

theorem reads_nonempty_iff {p : ℕ} {size : ℕ∞} :
    (CString.reads m p size).Nonempty ↔ 0 < size := by
  constructor
  · rintro ⟨b, i, -, hi, -⟩
    exact (bot_le : (0 : ℕ∞) ≤ i).trans_lt hi
  · intro h
    exact ⟨p, 0, rfl, h, fun j hj => absurd hj (Nat.not_lt_zero j)⟩

theorem mem_strcpy_area {n : ℕ} (hn : IsLength m src ⊤ n) (b : ℕ) :
    b ∈ StringFunction.strcpy.area m dst src ↔ dst ≤ b ∧ b < dst + (n + 1) := by
  constructor
  · rintro ⟨i, rfl, hi⟩
    have := (mem_reads_top_iff hn).mp hi
    omega
  · intro hb
    exact ⟨b - dst, by omega, (mem_reads_top_iff hn).mpr (by omega)⟩

theorem strcpy_exact (hend : memEnd + 1 < 2^64)
    (hmem : StringFunction.strcpy.InMemory m dst src memEnd) :
    StringFunction.strcpy.Exact m dst src := by
  have hn := isLength_internalStrlen (by omega) hmem.read
  have hread : ∀ b, b ∈ StringFunction.strcpy.reads m src ↔
      src ≤ b ∧ b < src + (internalStrlen m src + 1) := fun b => mem_reads_top_iff hn
  have hsrc := add_lt_of_reads hn (ENat.natCast_lt_top _) hmem.read
  have hdst := hmem.written (internalStrlen m src) ((hread _).mpr (by omega))
  have hchecks : StringFunction.strcpy.checks ⟨true, false⟩ m dst src =
      copyChecks dst src (internalStrlen m src + 1) (internalStrlen m src + 1) :=
    strcpy_eq rfl (by omega)
  rw [exact_of_bounds hread (mem_strcpy_area hn) reads_nonempty_iff
    (hchecks ▸ copyChecks_reports (by omega) (by omega)) (fun b => hchecks ▸ mem_copyChecks)]
  have hpos : (0 : ℕ∞) < StringFunction.strcpy.limit := ENat.natCast_lt_top 0
  rw [and_iff_right hpos]
  omega

/-- The checks of `strncpy` are exact when `from` does not begin in the padding. -/
theorem strncpy_exact_iff {size : ℕ} (hend : memEnd + 1 < 2^64)
    (hmem : (StringFunction.strncpy size).InMemory m dst src memEnd) :
    (StringFunction.strncpy size).Exact m dst src ↔
      (StringFunction.strncpy size).Accurate m dst src := by
  have hn := isLength_strnlen m src size
  have hread : ∀ b, b ∈ (StringFunction.strncpy size).reads m src ↔
      src ≤ b ∧ b < src + min size (strnlen m src size + 1) := fun b => mem_reads_coe_iff hn
  have hsrc : src + min size (strnlen m src size + 1) < 2^64 := by
    have hlast := hmem.read (src + min size (strnlen m src size + 1) - 1)
    have hword := hmem.src_lt
    rw [hread] at hlast
    omega
  have hdst : dst + min size (strnlen m src size + 1) < 2^64 := by
    have hlast := hmem.written (min size (strnlen m src size + 1) - 1)
    have hword := hmem.dst_lt
    rw [hread] at hlast
    omega
  have hle : strnlen m src size ≤ size := Nat.cast_le.mp hn.le
  have hchecks : (StringFunction.strncpy size).checks ⟨true, false⟩ m dst src =
      copyChecks dst src (min size (strnlen m src size + 1)) size := by
    refine strncpy_eq rfl ?_
    have hlast := hmem.read (src + min size (strnlen m src size + 1) - 1)
    rw [hread] at hlast
    omega
  rw [exact_of_bounds hread (fun b => Iff.rfl) reads_nonempty_iff
    (hchecks ▸ copyChecks_reports hdst hsrc) (fun b => hchecks ▸ mem_copyChecks)]
  have hpos : 0 < (StringFunction.strncpy size).limit ↔ 0 < size := Nat.cast_pos
  unfold Accurate
  rw [hpos]
  omega

/-- The checks of a call are exact when it is neither of the two cases. -/
theorem exact_iff (f : StringFunction) (hend : memEnd + 1 < 2^64)
    (hmem : f.InMemory m dst src memEnd) : f.Exact m dst src ↔ f.Accurate m dst src := by
  cases f with
  | strcat => exact iff_of_true (strcat_exact hend hmem) trivial
  | strncat size => exact strncat_exact_iff hend hmem
  | strcpy => exact iff_of_true (strcpy_exact hend hmem) trivial
  | strncpy size => exact strncpy_exact_iff hend hmem

theorem mem_cat_run {t n size : ℕ} (hn : IsLength m src size n)
    (hoverlap : 0 < n → ∀ b, src ≤ b → b < src + min size (n + 1) → ¬ (dst ≤ b ∧ b < dst + (t + n) + 1))
    (b : ℕ) : b ∈ List.range' dst (t + 1) ++ (copyLoop m (dst + t) src size).read ++
        (copyLoop m (dst + t) src size).written ++ [dst + t + (copyLoop m (dst + t) src size).count] ↔
      (src ≤ b ∧ b < src + min size (n + 1)) ∨ (dst ≤ b ∧ b < dst + (t + n) + 1) := by
  have hlater : ∀ j i, j < i → i ≤ n → i < size → dst + t + j ≠ src + i := by
    intro j i hj hi hsize heq
    exact hoverlap (by omega) (src + i) (by omega) (by omega) ⟨by omega, by omega⟩
  obtain ⟨hcount, hread, hwritten⟩ := copyLoop_spec hn hlater
  simp only [List.mem_append, List.mem_singleton, List.mem_range'_1, hread, hwritten, hcount]
  omega

theorem mem_copy_run {n size area : ℕ} (rest : ℕ → List ℕ) (hn : IsLength m src size n)
    (hrest : ∀ b, b ∈ rest n ↔ dst + n ≤ b ∧ b < dst + area) (harea : n ≤ area)
    (hoverlap : ∀ b, src ≤ b → b < src + min size (n + 1) → ¬ (dst ≤ b ∧ b < dst + area))
    (b : ℕ) : b ∈ (copyLoop m dst src size).read ++ (copyLoop m dst src size).written ++
        rest (copyLoop m dst src size).count ↔
      (src ≤ b ∧ b < src + min size (n + 1)) ∨ (dst ≤ b ∧ b < dst + area) := by
  have hlater : ∀ j i, j < i → i ≤ n → i < size → dst + j ≠ src + i := by
    intro j i hj hi hsize heq
    exact hoverlap (src + i) (by omega) (by omega) ⟨by omega, by omega⟩
  obtain ⟨hcount, hread, hwritten⟩ := copyLoop_spec hn hlater
  rw [hcount]
  simp only [List.mem_append, hread, hwritten, hrest]
  omega

/-- Without an overlap, the loops of the C functions access the bytes of the strings that are there at the
call. -/
theorem run_eq (f : StringFunction) (hend : memEnd < 2^64) (hmem : f.InMemory m dst src memEnd)
    (hoverlap : f.copies m src → ∀ b ∈ f.reads m src, b ∉ f.area m dst src) :
    {b | b ∈ f.run m dst src} = f.reads m src ∪ f.area m dst src := by
  ext b
  cases f with
  | strcat =>
    have hn := isLength_internalStrlen hend hmem.read
    have ht := isLength_internalStrlen hend hmem.written.1
    have hsrc := add_lt_of_reads hn (ENat.natCast_lt_top _) hmem.read
    have hlimit := hn.of_top (show internalStrlen m src ≤ 2^64 by omega)
    have hreads : ∀ b, b ∈ StringFunction.strcat.reads m src ↔
        src ≤ b ∧ b < src + min (2^64) (internalStrlen m src + 1) := fun b =>
      (mem_reads_top_iff hn).trans (by omega)
    refine (mem_cat_run hlimit (fun hpos b h1 h2 harea => ?_) b).trans
      (or_congr (hreads b) (mem_cat_area ht hn b)).symm
    exact hoverlap ((exists_char_iff hn).mpr hpos) b ((hreads b).mpr ⟨h1, h2⟩)
      ((mem_cat_area ht hn b).mpr harea)
  | strncat size =>
    have hn := isLength_strnlen m src size
    have ht := isLength_internalStrlen hend hmem.written.1
    have hreads : ∀ b, b ∈ (StringFunction.strncat size).reads m src ↔
        src ≤ b ∧ b < src + min size (strnlen m src size + 1) := fun b => mem_reads_coe_iff hn
    refine (mem_cat_run hn (fun hpos b h1 h2 harea => ?_) b).trans
      (or_congr (hreads b) (mem_cat_area ht hn b)).symm
    exact hoverlap ((exists_char_iff hn).mpr hpos) b ((hreads b).mpr ⟨h1, h2⟩)
      ((mem_cat_area ht hn b).mpr harea)
  | strcpy =>
    have hn := isLength_internalStrlen hend hmem.read
    have hsrc := add_lt_of_reads hn (ENat.natCast_lt_top _) hmem.read
    have hlimit := hn.of_top (show internalStrlen m src ≤ 2^64 by omega)
    have hreads : ∀ b, b ∈ StringFunction.strcpy.reads m src ↔
        src ≤ b ∧ b < src + min (2^64) (internalStrlen m src + 1) := fun b =>
      (mem_reads_top_iff hn).trans (by omega)
    have hno : ∀ b, src ≤ b → b < src + min (2^64) (internalStrlen m src + 1) →
        ¬ (dst ≤ b ∧ b < dst + (internalStrlen m src + 1)) := fun b h1 h2 harea =>
      hoverlap ⟨b, (hreads b).mpr ⟨h1, h2⟩⟩ b ((hreads b).mpr ⟨h1, h2⟩)
        ((mem_strcpy_area hn b).mpr harea)
    exact (mem_copy_run (fun count => [dst + count]) hlimit
      (fun b => by rw [List.mem_singleton]; omega) (Nat.le_succ _) hno b).trans (or_congr (hreads b) (mem_strcpy_area hn b)).symm
  | strncpy size =>
    have hn := isLength_strnlen m src size
    have hle : strnlen m src size ≤ size := Nat.cast_le.mp hn.le
    have hreads : ∀ b, b ∈ (StringFunction.strncpy size).reads m src ↔
        src ≤ b ∧ b < src + min size (strnlen m src size + 1) := fun b => mem_reads_coe_iff hn
    have hno : ∀ b, src ≤ b → b < src + min size (strnlen m src size + 1) →
        ¬ (dst ≤ b ∧ b < dst + size) := fun b h1 h2 harea =>
      hoverlap ⟨b, (hreads b).mpr ⟨h1, h2⟩⟩ b ((hreads b).mpr ⟨h1, h2⟩) harea
    exact (mem_copy_run (fun count => List.range' (dst + count) (size - count)) hn
      (fun b => by rw [List.mem_range'_1]; omega) hle hno b).trans (or_congr (hreads b) Iff.rfl).symm

/-- A memory that is zero but for the string `a` at 16. -/
def oneString : Mem := fun a => if a = 16 then 97 else 0

theorem strncpy_inMemory (size : ℕ) :
    (StringFunction.strncpy size).InMemory oneString 14 16 (2^47) where
  dst_lt := by omega
  src_lt := by omega
  read b hb := by
    have := le_of_mem_reads (k := 1) hb rfl
    omega
  written i hi := by
    have := le_of_mem_reads (k := 1) hi rfl
    omega

theorem strncat_inMemory (size : ℕ) :
    (StringFunction.strncat size).InMemory oneString 14 16 (2^47) where
  dst_lt := by omega
  src_lt := by omega
  read b hb := by
    have := le_of_mem_reads (k := 1) hb rfl
    omega
  written := by
    refine ⟨fun b hb => ?_, ?_⟩
    · have := le_of_mem_reads (k := 0) hb rfl
      omega
    · rintro b ⟨t, n, ht, hn, hb⟩
      have := ht.le_of_nul (k := 0) rfl
      have := hn.le_of_nul (k := 1) rfl
      omega

/-- The limit of this call of `strncpy` is the size of the string. -/
theorem exact_iff_strncpy :
    (StringFunction.strncpy 2).InMemory oneString 14 16 (2^47) ∧
      ((StringFunction.strncpy 2).Exact oneString 14 16 ↔
        (StringFunction.strncpy 2).Accurate oneString 14 16) :=
  ⟨strncpy_inMemory 2, exact_iff (.strncpy 2) (by norm_num) (strncpy_inMemory 2)⟩

/-- `strncat(to, from, 5)` makes `a` at 14, and `from` is the `a` right behind it, at 16: an overlap is
reported. `strncpy(to, from, 10)` overwrites `from` with its padding: nothing is reported. -/
theorem not_exact_adjacent :
    ((StringFunction.strncat 5).checks ⟨true, false⟩ oneString 14 16).any (Check.reportsOverlap false) =
      true ∧
    ((StringFunction.strncpy 10).checks ⟨true, false⟩ oneString 14 16).any (Check.reportsOverlap false) =
      false ∧
    ¬ (StringFunction.strncat 5).Exact oneString 14 16 ∧
    ¬ (StringFunction.strncpy 10).Exact oneString 14 16 := by
  refine ⟨by decide +kernel, by decide +kernel, fun h => ?_, fun h => ?_⟩
  · exact (strncat_exact_iff (by norm_num) (strncat_inMemory 5)).mp h
      ⟨by decide, by decide, by decide +kernel⟩
  · exact (strncpy_exact_iff (by norm_num) (strncpy_inMemory 10)).mp h ⟨by decide, by decide⟩

end StringFunction

end Tasan.Asan.Strings
