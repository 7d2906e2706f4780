import Mathlib.Data.List.TakeWhile
import Tasan.FlagParser.Model
import Tasan.ProcMaps.Numbers

/-!
# The memory profile of a process

`ParseUnixMemoryProfile` of `sanitizer_procmaps_common.cpp` reads the text of `/proc/self/smaps`.
The function stores a newline and a NUL at the end of the text first, since none of its loops looks
for the end: `parseUnixMemoryProfile_returned` says that it finishes on any buffer, inside it. What
it makes of a line of a well-formed text is `LineEffect` (`profileLine_eq`). The search for a slash
in the header ends at the first character that is not above the newline, so that the header of a
mapping is that of a file if there is a slash in front of such a character.
-/

namespace Tasan.ProcMaps

open FlagParser (nul)
open Buffer (read write scan scan_eq scan_of_stop scanWithin scanWithin_eq scanWithin_le read_eq
  drop_add drop_succ)

variable (w : ℕ) (signed : Bool)

/-- `c > '\n'`, where a `char` may be signed. -/
def isAbove (c : Char) : Bool := 10 < c.toNat && (!signed || c.toNat < 128)

/-- `*pos != '/' && *pos > '\n'`. -/
def beforeSlash (c : Char) : Bool := c ≠ '/' && isAbove signed c

/-- `internal_strncmp(pos, text, n) == 0`, for the `n` characters of a text. -/
def startsWith (b : List Char) (pos : ℕ) : List Char → Outcome Fault Bool
  | [] => .returned true
  | c :: text => do
    let d ← read .buffer b pos
    if d = c then startsWith b (pos + 1) text else return false

/-- The field with the size of what is resident. -/
def rssField : List Char := ['R', 's', 's', ':']

/-- What is known about the mapping that is read: `start` and `file`. -/
structure Mapping where
  start : ℕ
  file : Bool
  deriving DecidableEq

/-- A call of `cb`: `start`, `rss` and `file`. -/
abbrev Call := ℕ × ℕ × Bool

/-- What a turn of the loop makes of the line at `pos`: the mapping, its calls of `cb`, and where it
is in the line then. -/
def profileLine (b : List Char) (last pos : ℕ) (s : Mapping) :
    Outcome Fault (Mapping × List Call × ℕ) := do
  if isHex (← read .buffer b pos) then
    let (start, pos) ← parseHex w b pos
    let pos ← scan .buffer (beforeSlash signed) b pos
    let c ← read .buffer b pos
    return (⟨start, c = '/'⟩, [], pos)
  else if ← startsWith b pos rssField then
    let pos ← scanWithin .buffer (!isDecimal ·) b (last - pos) pos
    let (n, pos) ← parseDecimal w b pos
    return (s, [(s.start, n * 1024 % 2^w, s.file)], pos)
  else return (s, [], pos)

/-- The loop of `ParseUnixMemoryProfile`. -/
def profileLoop (b : List Char) (last : ℕ) :
    ℕ → ℕ → Mapping → List Call → Outcome Fault (List Call)
  | 0, _, _, _ => .unfinished
  | fuel + 1, pos, s, calls =>
    if pos < last then do
      let (s, new, pos) ← profileLine w signed b last pos s
      let pos ← scan .buffer (· ≠ newline) b pos
      profileLoop b last fuel (pos + 1) s (calls ++ new)
    else .returned calls

/-- `ParseUnixMemoryProfile`: the calls of `cb`. -/
def parseUnixMemoryProfile (fuel : ℕ) (smaps : List Char) : Outcome Fault (List Call) :=
  if smaps.length < 2 then .returned []
  else do
    let smaps ← write .buffer smaps (smaps.length - 1) nul
    let smaps ← write .buffer smaps (smaps.length - 2) newline
    profileLoop w signed smaps (smaps.length - 2) fuel 0 ⟨0, false⟩ []

/-! ## Any buffer -/

variable {w signed} {b : List Char} {last pos : ℕ}

theorem exists_append_two {l : List Char} (h : 2 ≤ l.length) : ∃ t x y, l = t ++ [x, y] := by
  obtain ⟨x, y, hxy⟩ := List.length_eq_two.mp (show (l.drop (l.length - 2)).length = 2 by
    rw [List.length_drop]; omega)
  exact ⟨l.take (l.length - 2), x, y, by rw [← hxy, List.take_append_drop]⟩

theorem parseUnixMemoryProfile_append (fuel : ℕ) (t : List Char) (x y : Char) :
    parseUnixMemoryProfile w signed fuel (t ++ [x, y]) =
      profileLoop w signed (t ++ [newline, nul]) t.length fuel 0 ⟨0, false⟩ [] := by
  have hlength : ∀ x y : Char, (t ++ [x, y]).length = t.length + 2 := fun _ _ => List.length_append
  have hnul : write Fault.buffer (t ++ [x, y]) (t.length + 1) nul = .returned (t ++ [x, nul]) := by
    unfold write
    rw [if_pos (by rw [hlength]; omega), List.set_append_right _ _ (by omega),
      Nat.add_sub_cancel_left]
    rfl
  have hnewline : write Fault.buffer (t ++ [x, nul]) t.length newline =
      .returned (t ++ [newline, nul]) := by
    unfold write
    rw [if_pos (by rw [hlength]; omega), List.set_append_right _ _ le_rfl, Nat.sub_self]
    rfl
  unfold parseUnixMemoryProfile
  rw [if_neg (by rw [hlength]; omega), hlength, show t.length + 2 - 1 = t.length + 1 by omega, hnul,
    Outcome.returned_bind, hlength, Nat.add_sub_cancel, hnewline, Outcome.returned_bind, hlength,
    Nat.add_sub_cancel]

theorem startsWith_of_newline {text : List Char} (hpos : pos ≤ last) (h : b[last]? = some newline)
    (htext : newline ∉ text) : ∃ same, startsWith b pos text = .returned same := by
  induction text generalizing pos with
  | nil => exact ⟨true, rfl⟩
  | cons c text ih =>
    have hlt : last < b.length := (List.getElem?_eq_some_iff.mp h).1
    obtain ⟨d, hd⟩ := Buffer.exists_drop_eq (show pos < b.length by omega)
    rw [startsWith, read_eq hd, Outcome.returned_bind]
    rcases eq_or_ne d c with rfl | hne
    · have hne : pos ≠ last := by
        rintro rfl
        have hget := Option.some.inj ((Buffer.getElem?_of_drop_eq hd).symm.trans h)
        exact htext (hget ▸ List.mem_cons_self)
      rw [if_pos rfl]
      exact ih (by omega) fun hmem => htext (List.mem_cons_of_mem _ hmem)
    · rw [if_neg hne]
      exact ⟨false, rfl⟩

variable (w signed) in
/-- A line is read within the buffer. -/
theorem profileLine_returned (hpos : pos < last) (h : b[last]? = some newline) (s : Mapping) :
    ∃ s' new q, profileLine w signed b last pos s = .returned (s', new, q) ∧
      pos ≤ q ∧ q ≤ last := by
  have hlt : last < b.length := (List.getElem?_eq_some_iff.mp h).1
  obtain ⟨c, hc⟩ := Buffer.exists_drop_eq (show pos < b.length by omega)
  unfold profileLine
  rw [read_eq hc, Outcome.returned_bind]
  cases isHex c with
  | true =>
    obtain ⟨start, q, hparse, h1, h2⟩ :=
      parseNumber_of_newline w 16 hpos.le h
    obtain ⟨q', hscan, h3, h4⟩ := scan_of_stop (e := Fault.buffer)
      (p := beforeSlash signed) h2 ⟨newline, h, by cases signed <;> decide⟩
    obtain ⟨d, hd⟩ := Buffer.exists_drop_eq (show q' < b.length by omega)
    rw [if_pos rfl, parseHex, hparse, Outcome.returned_bind]
    dsimp only
    rw [hscan, Outcome.returned_bind, read_eq hd]
    exact ⟨_, _, q', rfl, by omega, h4⟩
  | false =>
    obtain ⟨same, hsame⟩ := startsWith_of_newline hpos.le h (show newline ∉ rssField by decide)
    rw [if_neg Bool.false_ne_true, hsame, Outcome.returned_bind]
    cases same with
    | true =>
      obtain ⟨q, hskip, h1, h2⟩ := scanWithin_le (e := Fault.buffer) (p := (!isDecimal ·))
        (show pos + (last - pos) ≤ b.length by omega)
      obtain ⟨n, q', hparse, h3, h4⟩ :=
        parseNumber_of_newline w 10 (show q ≤ last by omega) h
      rw [if_pos rfl, hskip, Outcome.returned_bind, parseDecimal, hparse]
      exact ⟨_, _, q', rfl, by omega, h4⟩
    | false => exact ⟨s, [], pos, rfl, le_rfl, hpos.le⟩

variable (w signed) in
/-- The loop finishes. -/
theorem profileLoop_returned (h : b[last]? = some newline) (hpos : pos ≤ last + 1) (s : Mapping)
    (calls : List Call) :
    ∃ calls', ∀ fuel > last - pos + 1,
      profileLoop w signed b last fuel pos s calls = .returned calls' := by
  induction hk : last - pos using Nat.strong_induction_on generalizing pos s calls with
  | _ k ih =>
    subst hk
    rcases Nat.lt_or_ge pos last with hlt | hge
    · obtain ⟨s', new, q, hline, h1, h2⟩ :=
        profileLine_returned w signed hlt h s
      obtain ⟨q', hscan, h3, h4⟩ := scan_of_stop (e := Fault.buffer) (p := (· ≠ newline)) h2
        ⟨newline, h, by decide⟩
      obtain ⟨calls', hrest⟩ := ih (last - (q' + 1)) (by omega) (by omega) s' (calls ++ new) rfl
      refine ⟨calls', fun fuel hfuel => ?_⟩
      obtain ⟨fuel, rfl⟩ := Nat.exists_eq_succ_of_ne_zero (Nat.zero_lt_of_lt hfuel).ne'
      rw [profileLoop, if_pos hlt, hline, Outcome.returned_bind]
      dsimp only
      rw [hscan, Outcome.returned_bind, hrest fuel (by omega)]
    · refine ⟨calls, fun fuel hfuel => ?_⟩
      obtain ⟨fuel, rfl⟩ := Nat.exists_eq_succ_of_ne_zero (Nat.zero_lt_of_lt hfuel).ne'
      rw [profileLoop, if_neg (by omega)]

theorem parseUnixMemoryProfile_returned (w : ℕ) (signed : Bool) (smaps : List Char) :
    ∃ calls, ∀ fuel > smaps.length,
      parseUnixMemoryProfile w signed fuel smaps = .returned calls := by
  rcases Nat.lt_or_ge smaps.length 2 with hlt | hge
  · refine ⟨[], fun fuel _ => ?_⟩
    unfold parseUnixMemoryProfile
    rw [if_pos hlt]
  · obtain ⟨t, x, y, rfl⟩ := exists_append_two hge
    have hnewline : (t ++ [newline, nul])[t.length]? = some newline := by
      rw [List.getElem?_append_right le_rfl, Nat.sub_self]
      rfl
    obtain ⟨calls, hcalls⟩ := profileLoop_returned w signed hnewline
      (Nat.zero_le _) ⟨0, false⟩ []
    refine ⟨calls, fun fuel hfuel => ?_⟩
    have hlength : (t ++ [x, y]).length = t.length + 2 := List.length_append
    rw [parseUnixMemoryProfile_append, hcalls fuel (by omega)]

/-! ## Lines -/

variable {line tail : List Char} {s s' : Mapping} {new : List Call}

/-- The header of a mapping has a slash, in front of every character that is not above a newline. -/
def hasSlash (signed : Bool) (header : List Char) : Bool :=
  (header.takeWhile (isAbove signed)).contains '/'

variable (w signed) in
/-- What a line of a well-formed text changes, and the calls of `cb` for it. -/
inductive LineEffect : Mapping → List Char → Mapping → List Call → Prop
  /-- A line that starts with hexadecimal digits. -/
  | header {s : Mapping} {address rest : List Char} (hne : address ≠ [])
    (hhex : ∀ c ∈ address, isHex c = true) (hrest : ∀ c ∈ rest.head?, isHex c = false) :
    LineEffect s (address ++ rest)
      ⟨valueOf 16 address % 2^w, hasSlash signed (address ++ rest)⟩ []
  /-- The size of what is resident, and what is behind it. -/
  | rss {s : Mapping} (blanks : ℕ) {digits unit : List Char} (hne : digits ≠ [])
    (hdecimal : ∀ c ∈ digits, isDecimal c = true) (hunit : ∀ c ∈ unit.head?, isDecimal c = false) :
    LineEffect s (rssField ++ (List.replicate blanks ' ' ++ (digits ++ unit))) s
      [(s.start, valueOf 10 digits * 1024 % 2^w, s.file)]
  /-- Another line. -/
  | other {s : Mapping} {line : List Char} (hhex : ∀ c ∈ line.head?, isHex c = false)
    (hrss : ¬ rssField <+: line) : LineEffect s line s []

/-- A line is in front of the cursor. -/
structure LineAt (b : List Char) (pos : ℕ) (line tail : List Char) : Prop where
  /-- The line, and its newline. -/
  drop_eq : b.drop pos = line ++ newline :: tail
  /-- There is no other newline. -/
  newline_notMem : newline ∉ line

theorem LineAt.skip {part rest : List Char} (h : LineAt b pos (part ++ rest) tail) :
    LineAt b (pos + part.length) rest tail where
  drop_eq := drop_add (h.drop_eq.trans (List.append_assoc ..))
  newline_notMem := fun hmem => h.newline_notMem (List.mem_append_right _ hmem)

theorem LineAt.exists_cons (h : LineAt b pos line tail) :
    ∃ c rest, b.drop pos = c :: rest ∧ (line = [] ∧ c = newline ∨ line.head? = some c) := by
  cases line with
  | nil => exact ⟨newline, tail, h.drop_eq, Or.inl ⟨rfl, rfl⟩⟩
  | cons c line => exact ⟨c, line ++ newline :: tail, h.drop_eq, Or.inr rfl⟩

theorem LineAt.drop_part {part rest behind : List Char} (h : LineAt b pos (part ++ rest) tail)
    (hbehind : b.drop (pos + part.length) = behind) : b.drop pos = part ++ behind := by
  rw [← hbehind, ← List.drop_drop, h.drop_eq, List.append_assoc, List.drop_left]

theorem LineAt.parseNumber {base : ℕ} {digits rest : List Char}
    (h : LineAt b pos (digits ++ rest) tail) (hdigits : ∀ c ∈ digits, isDigitOf base c = true)
    (hrest : ∀ c ∈ rest.head?, isDigitOf base c = false) :
    parseNumber w base b pos = .returned (valueOf base digits % 2^w, pos + digits.length) := by
  obtain ⟨c, behind, hdrop, hc⟩ := h.skip.exists_cons
  refine parseNumber_eq (h.drop_part hdrop) hdigits ?_
  rcases hc with ⟨-, rfl⟩ | hhead
  · unfold isDigitOf
    rw [show translateDigit newline = -1 by decide]
    rfl
  · exact hrest c hhead

/-- What the search for a slash stops at. -/
theorem hasSlash_eq (signed : Bool) (line : List Char) : hasSlash signed line =
    ((line.dropWhile (beforeSlash signed)).head? == some '/') := by
  induction line with
  | nil => rfl
  | cons c line ih =>
    unfold hasSlash
    cases habove : isAbove signed c with
    | false =>
      -- Neither is a character that is not above the newline the slash.
      have hne : c ≠ '/' := by
        rintro rfl
        cases signed <;> exact absurd habove (by decide)
      have hstop : ¬ beforeSlash signed c = true := by
        unfold beforeSlash
        rw [habove, Bool.and_false]
        exact Bool.false_ne_true
      rw [List.takeWhile_cons_of_neg (by rw [habove]; exact Bool.false_ne_true),
        List.dropWhile_cons_of_neg hstop, List.head?_cons]
      exact (beq_eq_false_iff_ne.mpr fun heq => hne (Option.some.inj heq)).symm
    | true =>
      rw [List.takeWhile_cons_of_pos habove, List.contains_cons]
      rcases eq_or_ne c '/' with rfl | hne
      · have hstop : ¬ beforeSlash signed '/' = true := Bool.false_ne_true
        rw [List.dropWhile_cons_of_neg hstop]
        rfl
      · have hgo : beforeSlash signed c = true := by
          unfold beforeSlash
          rw [habove, decide_eq_true hne, Bool.and_self]
        rw [List.dropWhile_cons_of_pos hgo, ← ih, beq_eq_false_iff_ne.mpr hne.symm, Bool.false_or]
        rfl

variable (signed) in
/-- The search for a slash ends within the line. -/
theorem LineAt.scan_slash (h : LineAt b pos line tail) :
    ∃ q c rest left, scan Fault.buffer (beforeSlash signed) b pos = .returned q ∧
      b.drop q = c :: rest ∧ LineAt b q left tail ∧ decide (c = '/') = hasSlash signed line := by
  have hsplit : line = line.takeWhile (beforeSlash signed) ++ line.dropWhile (beforeSlash signed) :=
    List.takeWhile_append_dropWhile.symm
  have hpart : LineAt b pos (line.takeWhile (beforeSlash signed) ++
      line.dropWhile (beforeSlash signed)) tail := hsplit ▸ h
  obtain ⟨c, rest, hdrop, hc⟩ := hpart.skip.exists_cons
  have hstop : beforeSlash signed c = false := by
    rcases hc with ⟨-, rfl⟩ | hhead
    · cases signed <;> decide
    · have hnot := List.head?_dropWhile_not (beforeSlash signed) line
      rw [hhead] at hnot
      simpa using hnot
  refine ⟨_, c, rest, _, scan_eq (hpart.drop_part hdrop) (fun d hd => List.mem_takeWhile_imp hd)
    hstop, hdrop, hpart.skip, ?_⟩
  rw [hasSlash_eq]
  rcases hc with ⟨hnil, rfl⟩ | hhead
  · rw [hnil]
    decide
  · rw [hhead]
    exact (Bool.beq_eq_decide_eq _ _).symm

theorem LineAt.startsWith_self {text rest : List Char} (h : LineAt b pos (text ++ rest) tail) :
    startsWith b pos text = .returned true := by
  induction text generalizing pos with
  | nil => rfl
  | cons c text ih =>
    have hnext : LineAt b (pos + 1) (text ++ rest) tail :=
      ⟨drop_succ h.drop_eq, fun hmem => h.newline_notMem (List.mem_cons_of_mem c hmem)⟩
    rw [startsWith, read_eq h.drop_eq, Outcome.returned_bind, if_pos rfl, ih hnext]

/-- A comparison with what it does not start with. -/
theorem LineAt.startsWith_ne {text : List Char} (h : LineAt b pos line tail)
    (hnewline : newline ∉ text) (htext : ¬ text <+: line) :
    startsWith b pos text = .returned false := by
  induction text generalizing pos line with
  | nil => exact absurd List.nil_prefix htext
  | cons c text ih =>
    cases line with
    | nil =>
      have hne : newline ≠ c := fun heq => hnewline (heq ▸ List.mem_cons_self)
      rw [startsWith, read_eq h.drop_eq, Outcome.returned_bind, if_neg hne]
      rfl
    | cons d line =>
      rw [startsWith, read_eq h.drop_eq, Outcome.returned_bind]
      rcases eq_or_ne d c with rfl | hne
      · have hnext : LineAt b (pos + 1) line tail :=
          ⟨drop_succ h.drop_eq, fun hmem => h.newline_notMem (List.mem_cons_of_mem d hmem)⟩
        rw [if_pos rfl]
        exact ih hnext (fun hmem => hnewline (List.mem_cons_of_mem d hmem))
          fun hpre => htext (List.cons_prefix_cons.mpr ⟨rfl, hpre⟩)
      · rw [if_neg hne]
        rfl

theorem beforeSlash_of_isHex (signed : Bool) {c : Char} (h : isHex c = true) :
    beforeSlash signed c = true := by
  have hle : ∀ a d : Char, a ≤ d → a.toNat ≤ d.toNat := fun _ _ h => Char.le_def.mp h
  have hrange : 47 < c.toNat ∧ c.toNat < 128 := by
    unfold isHex translateDigit at h
    split_ifs at h with h0 h1 h2
    · exact ⟨(by decide : 47 < '0'.toNat).trans_le (hle _ _ h0.1),
        (hle _ _ h0.2).trans_lt (by decide)⟩
    · exact ⟨(by decide : 47 < 'a'.toNat).trans_le (hle _ _ h1.1),
        (hle _ _ h1.2).trans_lt (by decide)⟩
    · exact ⟨(by decide : 47 < 'A'.toNat).trans_le (hle _ _ h2.1),
        (hle _ _ h2.2).trans_lt (by decide)⟩
    · exact absurd h (by decide)
  have hne : c ≠ '/' := by
    rintro rfl
    exact absurd hrange.1 (by decide)
  unfold beforeSlash isAbove
  rw [decide_eq_true hne, decide_eq_true (show 10 < c.toNat by omega), decide_eq_true hrange.2,
    Bool.or_true]
  rfl

theorem hasSlash_append (signed : Bool) {address : List Char} (h : ∀ c ∈ address, isHex c = true)
    (rest : List Char) : hasSlash signed (address ++ rest) = hasSlash signed rest := by
  rw [hasSlash_eq, hasSlash_eq,
    List.dropWhile_append_of_pos fun c hc => beforeSlash_of_isHex signed (h c hc)]

/-- A line is read as it stands, and its newline is still ahead. -/
theorem profileLine_eq (heffect : LineEffect w signed s line s' new) (h : LineAt b pos line tail)
    (hlast : pos + line.length ≤ last) :
    ∃ q left, profileLine w signed b last pos s = .returned (s', new, q) ∧
      LineAt b q left tail := by
  cases heffect with
  | @header address rest hne hhex hrest =>
    have hnumber : parseHex w b pos = _ := h.parseNumber hhex hrest
    obtain ⟨q, d, behind, left, hscan, hdrop, hleft, hslash⟩ := h.skip.scan_slash signed
    obtain ⟨c, more, rfl⟩ := List.exists_cons_of_ne_nil hne
    refine ⟨q, left, ?_, hleft⟩
    unfold profileLine
    rw [read_eq h.drop_eq, Outcome.returned_bind, if_pos (hhex c List.mem_cons_self), hnumber,
      Outcome.returned_bind]
    dsimp only
    rw [hscan, Outcome.returned_bind, read_eq hdrop, Outcome.returned_bind, hslash,
      hasSlash_append signed hhex]
    rfl
  | @rss blanks digits unit hne hdecimal hunit =>
    obtain ⟨c, more, rfl⟩ := List.exists_cons_of_ne_nil hne
    have hfield : ∀ d ∈ rssField, isDecimal d = false := fun d hd =>
      Bool.eq_false_iff.mpr (List.any_eq_false.mp (by decide) d hd)
    have hpart : ∀ d ∈ rssField ++ List.replicate blanks ' ', isDecimal d = false := by
      intro d hd
      rcases List.mem_append.mp hd with hd | hd
      · exact hfield d hd
      · rw [List.eq_of_mem_replicate hd]
        decide
    have hassoc : LineAt b pos (rssField ++ List.replicate blanks ' ' ++ (c :: more ++ unit))
        tail := by
      rwa [List.append_assoc]
    rw [← List.append_assoc, List.length_append, @List.length_append _ (c :: more)] at hlast
    have hskip := scanWithin_eq (e := Fault.buffer) (p := (!isDecimal ·)) (n := last - pos)
      (hassoc.drop_eq.trans (List.append_assoc ..)) (fun d hd => by rw [hpart d hd]; rfl)
      (by rw [hdecimal c List.mem_cons_self]; rfl) (by rw [List.length_cons] at hlast; omega)
    refine ⟨_, unit, ?_, hassoc.skip.skip⟩
    unfold profileLine
    rw [read_eq h.drop_eq, Outcome.returned_bind, if_neg (by decide), h.startsWith_self,
      Outcome.returned_bind, if_pos rfl, hskip, Outcome.returned_bind, parseDecimal,
      hassoc.skip.parseNumber hdecimal hunit, Outcome.returned_bind]
    dsimp only
    rw [Nat.mod_mul_mod]
    rfl
  | other hhex hrss =>
    obtain ⟨c, rest, hdrop, hc⟩ := h.exists_cons
    have hnothex : isHex c = false := by
      rcases hc with ⟨-, rfl⟩ | hhead
      · decide
      · exact hhex c hhead
    refine ⟨pos, line, ?_, h⟩
    unfold profileLine
    rw [read_eq hdrop, Outcome.returned_bind, hnothex, if_neg Bool.false_ne_true,
      h.startsWith_ne (by decide) hrss, Outcome.returned_bind]
    rfl

end Tasan.ProcMaps
