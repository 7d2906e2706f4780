import Tasan.ProcMaps.Profile

/-!
# The mappings of a process

`MemoryMappingLayout::Next` of `sanitizer_procmaps_linux.cpp` reads one line of `/proc/self/maps`
after another into a segment. `nexts_lines` says that it gives every line once, with its file name
cut to the array for it, and then nothing for ever. Blanks in front of the file name are skipped, so
that one at the start of a name would be lost (`blank_name`).
-/

namespace Tasan.ProcMaps

open FlagParser (nul)
open Buffer (read write writeBlock scan scan_eq scanWithin scanWithin_eq scanWithin_all read_eq
  drop_add drop_succ)

/-- `MemoryMappedSegment`. -/
structure Segment where
  start : ℕ
  /-- `end`. -/
  stop : ℕ
  offset : ℕ
  protection : ℕ
  /-- The array `filename`, of `filename_size` characters, or null. -/
  filename : Option (List Char)

/-- `MemoryMappingLayoutData`: the text, and `current`, which is null when there is no text. -/
structure Layout where
  /-- `proc_self_maps.data`, or null. -/
  data : Option (List Char)
  current : Option ℕ

/-- `MemoryMappingLayout::Reset`. -/
def Layout.reset (L : Layout) : Layout := { L with current := L.data.map fun _ => 0 }

/-- `CHECK_EQ(*current++, c)`. -/
def expect (b : List Char) (pos : ℕ) (c : Char) : Outcome Fault ℕ := do
  if (← read .buffer b pos) = c then return pos + 1 else .stopped .check

/-- `CHECK(IsOneOf(*current, no, yes))`, and whether `*current++` is the second of them. -/
def permission (b : List Char) (pos : ℕ) (no yes : Char) : Outcome Fault (Bool × ℕ) := do
  let c ← read .buffer b pos
  if c = no ∨ c = yes then return (c = yes, pos + 1) else .stopped .check

/-- The bits of `protection`: `kProtectionRead`, `kProtectionWrite`, `kProtectionExecute` and
`kProtectionShared`. -/
def protectionBits (r w x s : Bool) : ℕ :=
  (if r then 1 else 0) ||| (if w then 2 else 0) ||| (if x then 4 else 0) ||| (if s then 8 else 0)

/-- The loop of `internal_strncpy`, with `n` characters left: the characters up to a NUL. -/
def copyString (b : List Char) : ℕ → ℕ → Outcome Fault (List Char)
  | 0, _ => .returned []
  | n + 1, pos => do
    let c ← read .buffer b pos
    if c = nul then return [] else return c :: (← copyString b n (pos + 1))

/-- The file name is stored: `internal_strncpy` with zeros up to `len`, and the NUL. -/
def fillFilename (b : List Char) (pos rest : ℕ) :
    Option (List Char) → Outcome Fault (Option (List Char))
  | none => .returned none
  | some filename => do
    let len := min rest (filename.length - 1)
    let text ← copyString b len pos
    let filename ← writeBlock .filename filename 0 (text ++ List.replicate (len - text.length) nul)
    return some (← write .filename filename len nul)

/-- What `Next` reads of a line, up to the number of the inode: the segment, and the cursor. -/
def parseLine (w : ℕ) (b : List Char) (pos : ℕ) (filename : Option (List Char)) :
    Outcome Fault (Segment × ℕ) := do
  let (start, pos) ← parseHex w b pos
  let pos ← expect b pos '-'
  let (stop, pos) ← parseHex w b pos
  let pos ← expect b pos ' '
  let (canRead, pos) ← permission b pos '-' 'r'
  let (canWrite, pos) ← permission b pos '-' 'w'
  let (canExecute, pos) ← permission b pos '-' 'x'
  let (isShared, pos) ← permission b pos 'p' 's'
  let pos ← expect b pos ' '
  let (offset, pos) ← parseHex w b pos
  let pos ← expect b pos ' '
  let (_, pos) ← parseHex w b pos
  let pos ← expect b pos ':'
  let (_, pos) ← parseHex w b pos
  let pos ← expect b pos ' '
  let pos ← scan .buffer isDecimal b pos
  return (⟨start, stop, offset, protectionBits canRead canWrite canExecute isShared, filename⟩, pos)

/-- `MemoryMappingLayout::Next`. -/
def next (w : ℕ) (L : Layout) (segment : Segment) : Outcome Fault (Bool × Layout × Segment) :=
  match L.current with
  | none => .returned (false, L, segment)
  | some current => do
    let b := L.data.getD []
    let last := b.length
    if last ≤ current then return (false, L, segment)
    else
      -- `internal_memchr` finds the newline, or `next_line` is `last`.
      let nextLine ← scanWithin .buffer (· ≠ newline) b (last - current) current
      let (segment, pos) ← parseLine w b current segment.filename
      let pos ← scanWithin .buffer (· = ' ') b (nextLine - pos) pos
      let filename ← fillFilename b pos (nextLine - pos) segment.filename
      return (true, { L with current := some (nextLine + 1) },
        { segment with filename := filename })

/-- Calls of `Next` with one segment: what each of them returns, and the segment then. -/
def nexts (w : ℕ) : ℕ → Layout → Segment → Outcome Fault (List (Bool × Segment))
  | 0, _, _ => .returned []
  | n + 1, L, segment => do
    let (ret, L, segment) ← next w L segment
    let rest ← nexts w n L segment
    return (ret, segment) :: rest

/-! ## Lines -/

/-- A line of `/proc/self/maps`. -/
structure MapsLine where
  /-- The start, in hexadecimal digits. -/
  start : List Char
  /-- The end. -/
  stop : List Char
  /-- `r`. -/
  canRead : Bool
  /-- `w`. -/
  canWrite : Bool
  /-- `x`. -/
  canExecute : Bool
  /-- `s`, and not `p`. -/
  isShared : Bool
  /-- The offset, in hexadecimal digits. -/
  offset : List Char
  /-- The major number of the device. -/
  major : List Char
  /-- The minor number. -/
  minor : List Char
  /-- The inode, in decimal digits. -/
  inode : List Char
  /-- The blanks in front of the file name. -/
  blanks : ℕ
  /-- The file name. -/
  name : List Char

/-- A letter for a permission. -/
def letter (b : Bool) (no yes : Char) : Char := if b then yes else no

/-- The file name, behind its blanks. -/
def MapsLine.tail (l : MapsLine) : List Char := List.replicate l.blanks ' ' ++ l.name

/-- The text of a line. -/
def MapsLine.text (l : MapsLine) : List Char :=
  l.start ++ '-' :: (l.stop ++ ' ' :: letter l.canRead '-' 'r' :: letter l.canWrite '-' 'w' ::
    letter l.canExecute '-' 'x' :: letter l.isShared 'p' 's' :: ' ' :: (l.offset ++ ' ' ::
      (l.major ++ ':' :: (l.minor ++ ' ' :: (l.inode ++ l.tail)))))

/-- The line is one of `/proc/self/maps`. -/
structure MapsLine.Ok (w : ℕ) (l : MapsLine) : Prop where
  /-- The numbers are hexadecimal, but for the inode. -/
  digits_ok : (∀ c ∈ l.start, isHex c = true) ∧ (∀ c ∈ l.stop, isHex c = true) ∧
    (∀ c ∈ l.offset, isHex c = true) ∧ (∀ c ∈ l.major, isHex c = true) ∧
    (∀ c ∈ l.minor, isHex c = true) ∧ ∀ c ∈ l.inode, isDecimal c = true
  /-- They fit in a word. -/
  value_lt : valueOf 16 l.start < 2^w ∧ valueOf 16 l.stop < 2^w ∧ valueOf 16 l.offset < 2^w
  /-- There is a blank in front of a file name. -/
  blanks_ok : l.name ≠ [] → 0 < l.blanks
  /-- The file name does not start with a blank. -/
  name_ok : l.name.head? ≠ some ' '
  /-- It is on one line. -/
  newline_ok : newline ∉ l.name

variable {w : ℕ} {b tail : List Char} {pos : ℕ} {l : MapsLine}

theorem LineAt.expect {c : Char} {rest : List Char} (h : LineAt b pos (c :: rest) tail) :
    expect b pos c = .returned (pos + 1) ∧ LineAt b (pos + 1) rest tail := by
  refine ⟨?_, drop_succ h.drop_eq, fun hmem => h.newline_notMem (List.mem_cons_of_mem c hmem)⟩
  unfold ProcMaps.expect
  rw [read_eq h.drop_eq, Outcome.returned_bind, if_pos rfl]
  rfl

theorem LineAt.permission {yes no : Char} (hne : yes ≠ no) (set : Bool) {rest : List Char}
    (h : LineAt b pos (letter set no yes :: rest) tail) :
    permission b pos no yes = .returned (set, pos + 1) ∧ LineAt b (pos + 1) rest tail := by
  refine ⟨?_, drop_succ h.drop_eq, fun hmem => h.newline_notMem (List.mem_cons_of_mem _ hmem)⟩
  unfold ProcMaps.permission
  rw [read_eq h.drop_eq, Outcome.returned_bind]
  cases set with
  | true =>
    have hyes : letter true no yes = yes := rfl
    rw [hyes, if_pos (Or.inr rfl), decide_eq_true rfl]
    rfl
  | false =>
    have hno : letter false no yes = no := rfl
    rw [hno, if_pos (Or.inl rfl), decide_eq_false hne.symm]
    rfl

theorem LineAt.parseHex {digits rest : List Char} {c : Char}
    (h : LineAt b pos (digits ++ c :: rest) tail) (hdigits : ∀ d ∈ digits, isHex d = true)
    (hc : isHex c = false) :
    parseHex w b pos = .returned (valueOf 16 digits % 2^w, pos + digits.length) :=
  LineAt.parseNumber h hdigits fun d hd => by rwa [← Option.some.inj (Option.mem_def.mp hd)]

theorem MapsLine.Ok.head?_tail (h : l.Ok w) : ∀ c ∈ l.tail.head?, isDecimal c = false := by
  intro c hc
  unfold MapsLine.tail at hc
  cases hblanks : l.blanks with
  | zero =>
    have hname : l.name = [] := by
      by_contra hne
      exact absurd (h.blanks_ok hne) (by omega)
    rw [hblanks, hname] at hc
    cases hc
  | succ n =>
    rw [hblanks] at hc
    obtain rfl := Option.some.inj (Option.mem_def.mp hc)
    decide

/-- The line is read up to the inode. -/
theorem parseLine_eq (h : l.Ok w) (hat : LineAt b pos l.text tail) (filename : Option (List Char)) :
    ∃ next, parseLine w b pos filename = .returned (⟨valueOf 16 l.start, valueOf 16 l.stop,
        valueOf 16 l.offset, protectionBits l.canRead l.canWrite l.canExecute l.isShared, filename⟩,
        next) ∧
      LineAt b next l.tail tail ∧ next + l.tail.length = pos + l.text.length := by
  obtain ⟨hstart, hstop, hoffset, hmajor, hminor, hinode⟩ := h.digits_ok
  have hlength : l.text.length = l.start.length + 1 + l.stop.length + 1 + 4 + 1 + l.offset.length +
      1 + l.major.length + 1 + l.minor.length + 1 + l.inode.length + l.tail.length := by
    unfold MapsLine.text
    simp only [List.length_append, List.length_cons]
    omega
  unfold MapsLine.text at hat
  have hnumber₁ := hat.parseHex (w := w) hstart (by decide)
  obtain ⟨hdash, hat⟩ := hat.skip.expect
  have hnumber₂ := hat.parseHex (w := w) hstop (by decide)
  obtain ⟨hblank₁, hat⟩ := hat.skip.expect
  obtain ⟨hread, hat⟩ := hat.permission (by decide) l.canRead
  obtain ⟨hwrite, hat⟩ := hat.permission (by decide) l.canWrite
  obtain ⟨hexecute, hat⟩ := hat.permission (by decide) l.canExecute
  obtain ⟨hshared, hat⟩ := hat.permission (by decide) l.isShared
  obtain ⟨hblank₂, hat⟩ := hat.expect
  have hnumber₃ := hat.parseHex (w := w) hoffset (by decide)
  obtain ⟨hblank₃, hat⟩ := hat.skip.expect
  have hnumber₄ := hat.parseHex (w := w) hmajor (by decide)
  obtain ⟨hcolon, hat⟩ := hat.skip.expect
  have hnumber₅ := hat.parseHex (w := w) hminor (by decide)
  obtain ⟨hblank₄, hat⟩ := hat.skip.expect
  obtain ⟨c, rest, hdrop, hc⟩ := hat.skip.exists_cons
  have hscan := scan_eq (e := Fault.buffer) (p := isDecimal) (hat.drop_part hdrop) hinode (by
    rcases hc with ⟨-, rfl⟩ | hhead
    · decide
    · exact h.head?_tail c hhead)
  refine ⟨_, ?_, hat.skip, by omega⟩
  unfold parseLine
  rw [hnumber₁, Outcome.returned_bind]
  dsimp only
  rw [hdash, Outcome.returned_bind, hnumber₂, Outcome.returned_bind]
  dsimp only
  rw [hblank₁, Outcome.returned_bind, hread, Outcome.returned_bind]
  dsimp only
  rw [hwrite, Outcome.returned_bind]
  dsimp only
  rw [hexecute, Outcome.returned_bind]
  dsimp only
  rw [hshared, Outcome.returned_bind]
  dsimp only
  rw [hblank₂, Outcome.returned_bind, hnumber₃, Outcome.returned_bind]
  dsimp only
  rw [hblank₃, Outcome.returned_bind, hnumber₄, Outcome.returned_bind]
  dsimp only
  rw [hcolon, Outcome.returned_bind, hnumber₅, Outcome.returned_bind]
  dsimp only
  rw [hblank₄, Outcome.returned_bind, hscan, Nat.mod_eq_of_lt h.value_lt.1,
    Nat.mod_eq_of_lt h.value_lt.2.1, Nat.mod_eq_of_lt h.value_lt.2.2]
  rfl

/-! ## The file name -/

/-- The string in an array: up to the NUL. -/
def stringIn (array : List Char) : List Char := array.takeWhile (· ≠ nul)

/-- The file name in the array for it. -/
def cutName (size : ℕ) (name : List Char) : List Char := stringIn (name.take (size - 1))

theorem stringIn_nul (array : List Char) : stringIn (nul :: array) = [] := rfl

theorem stringIn_cons {c : Char} (hc : c ≠ nul) (array : List Char) :
    stringIn (c :: array) = c :: stringIn array :=
  List.takeWhile_cons_of_pos (p := (· ≠ nul)) (decide_eq_true hc)

theorem nul_notMem_stringIn (array : List Char) : nul ∉ stringIn array := fun hmem =>
  of_decide_eq_true (List.mem_takeWhile_imp (p := (· ≠ nul)) hmem) rfl

theorem stringIn_append {text : List Char} (h : nul ∉ text) (array : List Char) :
    stringIn (text ++ nul :: array) = text := by
  induction text with
  | nil => rfl
  | cons c text ih =>
    rw [List.mem_cons, not_or] at h
    rw [List.cons_append, stringIn_cons (Ne.symm h.1), ih h.2]

theorem copyString_eq {text rest : List Char} (h : b.drop pos = text ++ rest) {n : ℕ}
    (hn : n ≤ text.length) : copyString b n pos = .returned (stringIn (text.take n)) := by
  induction n generalizing pos text with
  | zero => rfl
  | succ n ih =>
    cases text with
    | nil => exact absurd hn (by rw [List.length_nil]; omega)
    | cons c text =>
      rw [copyString, read_eq h, Outcome.returned_bind, List.take_succ_cons]
      rcases eq_or_ne c nul with rfl | hne
      · rw [if_pos rfl, stringIn_nul]
        rfl
      · rw [if_neg hne, ih (drop_succ h) (Nat.le_of_succ_le_succ hn), stringIn_cons hne]
        rfl

/-- The array holds the file name as far as there is room for it. -/
theorem fillFilename_eq {name rest filename : List Char} (h : b.drop pos = name ++ rest)
    (hsize : 0 < filename.length) :
    ∃ filled, fillFilename b pos name.length (some filename) = .returned (some filled) ∧
      filled.length = filename.length ∧ stringIn filled = cutName filename.length name := by
  have htake : name.take (min name.length (filename.length - 1)) =
      name.take (filename.length - 1) := by
    rw [← List.take_take]
    exact List.take_of_length_le (List.length_take_le' _ _)
  have htext : (cutName filename.length name).length ≤ min name.length (filename.length - 1) := by
    unfold cutName stringIn
    rw [Nat.min_comm, ← List.length_take]
    exact (List.takeWhile_sublist _).length_le
  have hcopy := copyString_eq h (min_le_left name.length (filename.length - 1))
  rw [htake] at hcopy
  generalize hlen : min name.length (filename.length - 1) = len at htext hcopy
  have hroom : len < filename.length := by omega
  obtain ⟨x, hx⟩ := Buffer.exists_drop_eq hroom
  have hpad : (cutName filename.length name ++
      List.replicate (len - (cutName filename.length name).length) nul).length = len := by
    rw [List.length_append, List.length_replicate]
    omega
  have hblock : writeBlock Fault.filename filename 0 (cutName filename.length name ++
      List.replicate (len - (cutName filename.length name).length) nul) =
      .returned (cutName filename.length name ++
        List.replicate (len - (cutName filename.length name).length) nul ++
          x :: filename.drop (len + 1)) := by
    unfold writeBlock
    rw [Nat.zero_add, hpad, if_pos hroom.le, hx]
    rfl
  have hlength : (cutName filename.length name ++
      List.replicate (len - (cutName filename.length name).length) nul ++
        nul :: filename.drop (len + 1)).length = filename.length := by
    rw [List.length_append, hpad, List.length_cons, List.length_drop]
    omega
  have hwrite : write Fault.filename (cutName filename.length name ++
      List.replicate (len - (cutName filename.length name).length) nul ++
        x :: filename.drop (len + 1)) len nul =
      .returned (cutName filename.length name ++
        List.replicate (len - (cutName filename.length name).length) nul ++
          nul :: filename.drop (len + 1)) := by
    unfold write
    rw [if_pos (by rw [List.length_append, hpad, List.length_cons]; omega),
      List.set_append_right _ _ hpad.le, hpad, Nat.sub_self]
    rfl
  refine ⟨_, ?_, hlength, ?_⟩
  · unfold fillFilename
    dsimp only
    rw [hlen, hcopy, Outcome.returned_bind]
    unfold cutName at hblock hwrite
    rw [hblock, Outcome.returned_bind, hwrite]
    rfl
  · rw [List.append_assoc]
    have hnul : nul ∉ cutName filename.length name := nul_notMem_stringIn _
    cases len - (cutName filename.length name).length with
    | zero => exact stringIn_append hnul _
    | succ k => exact stringIn_append hnul _

/-! ## Calls of `Next` -/

/-- A segment shows a line, with a file name that has been cut to `size - 1` characters. -/
structure Segment.Shows (s : Segment) (size : ℕ) (l : MapsLine) : Prop where
  /-- The start. -/
  start_eq : s.start = valueOf 16 l.start
  /-- The end. -/
  stop_eq : s.stop = valueOf 16 l.stop
  /-- The offset. -/
  offset_eq : s.offset = valueOf 16 l.offset
  /-- The protection. -/
  protection_eq : s.protection = protectionBits l.canRead l.canWrite l.canExecute l.isShared
  /-- The file name. -/
  filename_eq : ∃ array, s.filename = some array ∧ array.length = size ∧
    stringIn array = cutName size l.name

/-- The text of some lines. -/
def renderMaps (lines : List MapsLine) : List Char := lines.flatMap fun l => l.text ++ [newline]

theorem scan_blanks (h : l.Ok w) (hat : LineAt b pos l.tail tail) :
    scanWithin Fault.buffer (· = ' ') b l.tail.length pos = .returned (pos + l.blanks) := by
  have hblanks : ∀ c ∈ List.replicate l.blanks ' ', decide (c = ' ') = true := fun c hc =>
    decide_eq_true (List.eq_of_mem_replicate hc)
  have hdrop := hat.drop_eq
  unfold MapsLine.tail at hdrop ⊢
  cases hname : l.name with
  | nil =>
    rw [hname, List.append_nil] at hdrop
    have hall := scanWithin_all (e := Fault.buffer) (p := (· = ' ')) hdrop hblanks
    rwa [List.append_nil, List.length_replicate] at *
  | cons c name =>
    have hc : c ≠ ' ' := by
      rintro rfl
      exact h.name_ok (by rw [hname]; rfl)
    rw [hname, List.append_assoc] at hdrop
    have hstop := scanWithin_eq (e := Fault.buffer) (p := (· = ' '))
      (n := (List.replicate l.blanks ' ' ++ c :: name).length) hdrop hblanks
      (decide_eq_false hc) (by rw [List.length_append, List.length_cons]; omega)
    rwa [List.length_replicate] at hstop

theorem LineAt.scan_newline {line : List Char} (h : LineAt b pos line tail) :
    scanWithin Fault.buffer (· ≠ newline) b (b.length - pos) pos =
      .returned (pos + line.length) := by
  have hlength := congrArg List.length h.drop_eq
  rw [List.length_drop, List.length_append, List.length_cons] at hlength
  exact scanWithin_eq h.drop_eq
    (fun c hc => decide_eq_true fun heq => h.newline_notMem (heq ▸ hc)) (by decide) (by omega)

/-- A call at a line. -/
theorem next_line (h : l.Ok w) (hat : LineAt b pos l.text tail) {segment : Segment}
    {filename : List Char} (hfilename : segment.filename = some filename)
    (hsize : 0 < filename.length) :
    ∃ segment', next w ⟨some b, some pos⟩ segment =
        .returned (true, ⟨some b, some (pos + l.text.length + 1)⟩, segment') ∧
      segment'.Shows filename.length l := by
  have hpos := Buffer.lt_of_drop_eq (i := pos + l.text.length) (drop_add hat.drop_eq)
  obtain ⟨q, hline, hq, hend⟩ := parseLine_eq h hat segment.filename
  have htail : l.tail.length = l.blanks + l.name.length := by
    unfold MapsLine.tail
    rw [List.length_append, List.length_replicate]
  have hname : LineAt b (q + l.blanks) l.name tail := by
    have hskip : LineAt b (q + (List.replicate l.blanks ' ').length) l.name tail := hq.skip
    rwa [List.length_replicate] at hskip
  obtain ⟨filled, hfill, hlength, hstring⟩ := fillFilename_eq hname.drop_eq hsize
  refine ⟨⟨valueOf 16 l.start, valueOf 16 l.stop, valueOf 16 l.offset,
    protectionBits l.canRead l.canWrite l.canExecute l.isShared, some filled⟩, ?_,
    ⟨rfl, rfl, rfl, rfl, filled, rfl, hlength, hstring⟩⟩
  unfold next
  dsimp only
  rw [Option.getD_some, if_neg (by omega), hat.scan_newline, Outcome.returned_bind, hline,
    Outcome.returned_bind]
  dsimp only
  rw [show pos + l.text.length - q = l.tail.length by omega, scan_blanks h hq,
    Outcome.returned_bind, show pos + l.text.length - (q + l.blanks) = l.name.length by omega,
    hfilename, hfill]
  rfl

theorem next_end (w : ℕ) {L : Layout} (h : ∀ pos ∈ L.current, (L.data.getD []).length ≤ pos)
    (segment : Segment) : next w L segment = .returned (false, L, segment) := by
  unfold next
  cases hcurrent : L.current with
  | none => rfl
  | some pos =>
    dsimp only
    rw [if_pos (h pos hcurrent)]
    rfl

theorem nexts_end (w : ℕ) {L : Layout} (h : ∀ pos ∈ L.current, (L.data.getD []).length ≤ pos)
    (segment : Segment) (n : ℕ) :
    nexts w n L segment = .returned (List.replicate n (false, segment)) := by
  induction n with
  | zero => rfl
  | succ n ih =>
    rw [nexts, next_end w h, Outcome.returned_bind]
    dsimp only
    rw [ih]
    rfl

/-- What the calls return: true and a line for each line, and false then. -/
structure Results (size : ℕ) (lines : List MapsLine) (results : List (Bool × Segment)) : Prop where
  /-- The calls for the lines, in order. -/
  line : ∀ (i : ℕ) (l : MapsLine) (r : Bool × Segment), lines[i]? = some l →
    results[i]? = some r → r.1 = true ∧ r.2.Shows size l
  /-- The others. -/
  stop : ∀ (i : ℕ) (r : Bool × Segment), lines.length ≤ i → results[i]? = some r → r.1 = false

theorem results_nil (size n : ℕ) (segment : Segment) :
    Results size [] (List.replicate n (false, segment)) where
  line := fun _ _ _ hl _ => absurd hl.symm (Option.some_ne_none _)
  stop := fun i r _ hr => by rw [List.eq_of_mem_replicate (List.mem_of_getElem? hr)]

theorem newline_notMem_of_isHex {digits : List Char} (h : ∀ c ∈ digits, isHex c = true) :
    newline ∉ digits := fun hmem => absurd (h newline hmem) (by decide)

/-- A line has none. -/
theorem MapsLine.Ok.newline_notMem (h : l.Ok w) : newline ∉ l.text := by
  obtain ⟨hstart, hstop, hoffset, hmajor, hminor, hinode⟩ := h.digits_ok
  have hletter : ∀ set no yes, newline ≠ no → newline ≠ yes → newline ≠ letter set no yes := by
    intro set no yes hno hyes
    cases set with
    | true => exact hyes
    | false => exact hno
  have hinode' : newline ∉ l.inode := fun hmem => absurd (hinode newline hmem) (by decide)
  have htail : newline ∉ l.tail := by
    intro hmem
    rcases List.mem_append.mp hmem with hmem | hmem
    · exact absurd (List.eq_of_mem_replicate hmem) (by decide)
    · exact h.newline_ok hmem
  have hread := hletter l.canRead '-' 'r' (by decide) (by decide)
  have hwrite := hletter l.canWrite '-' 'w' (by decide) (by decide)
  have hexecute := hletter l.canExecute '-' 'x' (by decide) (by decide)
  have hshared := hletter l.isShared 'p' 's' (by decide) (by decide)
  have hblank : newline ≠ ' ' := by decide
  have hdash : newline ≠ '-' := by decide
  have hcolon : newline ≠ ':' := by decide
  unfold MapsLine.text
  simp only [List.mem_append, List.mem_cons, not_or]
  exact ⟨newline_notMem_of_isHex hstart, hdash, newline_notMem_of_isHex hstop, hblank, hread,
    hwrite, hexecute, hshared, hblank, newline_notMem_of_isHex hoffset, hblank,
    newline_notMem_of_isHex hmajor, hcolon, newline_notMem_of_isHex hminor, hblank, hinode', htail⟩

/-- The calls from a line on. -/
theorem nexts_at {lines : List MapsLine} (h : ∀ l ∈ lines, l.Ok w)
    (hdrop : b.drop pos = renderMaps lines) {segment : Segment} {filename : List Char}
    (hfilename : segment.filename = some filename) (hsize : 0 < filename.length) (n : ℕ) :
    ∃ results, nexts w n ⟨some b, some pos⟩ segment = .returned results ∧ results.length = n ∧
      Results filename.length lines results := by
  induction lines generalizing pos segment filename n with
  | nil =>
    have hend : b.length ≤ pos := List.drop_eq_nil_iff.mp hdrop
    refine ⟨List.replicate n (false, segment), nexts_end w ?_ segment n, List.length_replicate,
      results_nil _ n segment⟩
    intro p hp
    obtain rfl := Option.some.inj hp
    exact hend
  | cons l lines ih =>
    cases n with
    | zero =>
      refine ⟨[], rfl, rfl, ?_⟩
      constructor
      · exact fun i l r _ hr => absurd hr.symm (Option.some_ne_none _)
      · exact fun i r _ hr => absurd hr.symm (Option.some_ne_none _)
    | succ n =>
      have hl := h l List.mem_cons_self
      have hat : LineAt b pos l.text (renderMaps lines) := by
        refine ⟨hdrop.trans ?_, hl.newline_notMem⟩
        unfold renderMaps
        rw [List.flatMap_cons, List.append_assoc]
        rfl
      obtain ⟨segment', hnext, hshows⟩ := next_line hl hat hfilename hsize
      obtain ⟨array, harray, hlength, -⟩ := hshows.filename_eq
      obtain ⟨results, hrest, hcount, hresults⟩ :=
        ih (fun m hm => h m (List.mem_cons_of_mem l hm)) (drop_succ (drop_add hat.drop_eq)) harray
          (hlength ▸ hsize) n
      refine ⟨(true, segment') :: results, ?_, by rw [List.length_cons, hcount], ?_⟩
      · rw [nexts, hnext, Outcome.returned_bind]
        dsimp only
        rw [hrest]
        rfl
      · rw [hlength] at hresults
        constructor
        · intro i m r hm hr
          cases i with
          | zero =>
            obtain rfl := Option.some.inj hm
            obtain rfl := Option.some.inj hr
            exact ⟨rfl, hshows⟩
          | succ i => exact hresults.line i m r hm hr
        · intro i r hi hr
          cases i with
          | zero => exact absurd hi (by rw [List.length_cons]; omega)
          | succ i => exact hresults.stop i r (Nat.le_of_succ_le_succ hi) hr

/-- After a reset the calls of `Next` give every line once, in order, with the file name as far as
there is room for it, and then nothing for ever. No `CHECK` fails, and nothing outside the text and
the array for the file name is accessed. -/
theorem nexts_lines {lines : List MapsLine} (h : ∀ l ∈ lines, l.Ok w) {L : Layout}
    (hdata : L.data.getD [] = renderMaps lines) {segment : Segment} {filename : List Char}
    (hfilename : segment.filename = some filename) (hsize : 0 < filename.length) (n : ℕ) :
    ∃ results, nexts w n L.reset segment = .returned results ∧ results.length = n ∧
      Results filename.length lines results := by
  obtain ⟨data, current⟩ := L
  cases data with
  | some b =>
    have hdrop : b.drop 0 = renderMaps lines := hdata
    exact nexts_at h hdrop hfilename hsize n
  | none =>
    -- Without a text there is no line.
    have hnil : lines = [] := by
      cases lines with
      | nil => rfl
      | cons l lines =>
        refine absurd hdata.symm ?_
        unfold renderMaps
        rw [List.flatMap_cons, List.append_assoc]
        exact List.append_ne_nil_of_right_ne_nil _ (List.cons_ne_nil _ _)
    subst hnil
    exact ⟨_, nexts_end w (fun _ hp => absurd hp.symm (Option.some_ne_none _)) segment n,
      List.length_replicate, results_nil _ n segment⟩

/-- A line with a file name. -/
def codeLine (name : List Char) : MapsLine :=
  ⟨['8'], ['9'], true, false, true, false, ['0'], ['3'], ['c'], ['7'], 1, name⟩

theorem codeLine_ok : (codeLine ['/', 'a']).Ok 64 where
  digits_ok := ⟨List.all_eq_true.mp (by decide), List.all_eq_true.mp (by decide),
    List.all_eq_true.mp (by decide), List.all_eq_true.mp (by decide), List.all_eq_true.mp (by decide),
    List.all_eq_true.mp (by decide)⟩
  value_lt := by
    have hstart : valueOf 16 (codeLine ['/', 'a']).start = 8 := by decide
    have hstop : valueOf 16 (codeLine ['/', 'a']).stop = 9 := by decide
    have hoffset : valueOf 16 (codeLine ['/', 'a']).offset = 0 := by decide
    rw [hstart, hstop, hoffset]
    norm_num
  blanks_ok := fun _ => Nat.one_pos
  name_ok := by decide
  newline_ok := by decide

/-- A segment with room for two characters of a file name. -/
def smallSegment : Segment := ⟨0, 0, 0, 0, some [nul, nul, nul]⟩

/-- The line is given, and then nothing. -/
theorem nexts_lines_one : ∃ results, nexts 64 3
      (Layout.reset ⟨some (renderMaps [codeLine ['/', 'a']]), none⟩) smallSegment =
        .returned results ∧
    results.length = 3 ∧ Results 3 [codeLine ['/', 'a']] results :=
  have hfilename : smallSegment.filename = some [nul, nul, nul] := rfl
  nexts_lines (List.forall_mem_singleton.mpr codeLine_ok) rfl hfilename (Nat.succ_pos 2) 3

/-- A blank at the start of a file name is skipped. -/
theorem blank_name : ∃ segment array, nexts 64 1
      (Layout.reset ⟨some (renderMaps [codeLine [' ', 'a']]), none⟩) smallSegment =
        .returned [(true, segment)] ∧
    segment.filename = some array ∧ stringIn array = ['a'] ∧
      (codeLine [' ', 'a']).name.take 2 = [' ', 'a'] :=
  ⟨_, _, rfl, rfl, by decide, rfl⟩

end Tasan.ProcMaps
