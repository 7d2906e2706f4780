import Tasan.Symbolizer.OutputBounds

/-!
# The frames of a symbolizer's output are read back

Two lines for each frame, and an empty line at the end: `parseSymbolizePCOutput_render` says that
`ParseSymbolizePCOutput` makes these frames of them. A file name may have colons and digits in it, as
long as it does not end in a colon and a number. The frames behind the first one get its address and
the name, the offset and the architecture of its module, and no UUID.
-/

namespace Tasan.Symbolizer

open FlagParser (nul)
open Format (isDigit)
open Libc (internalSimpleStrtoll internalSimpleStrtoll_toDigits isDigit_of_mem_toDigits)
open Buffer (read)

/-- A frame as a symbolizer knows it. -/
structure FrameText where
  /-- The function. -/
  function : List Char
  /-- The file. -/
  file : List Char
  /-- The line. -/
  line : ℕ
  /-- The column. -/
  column : Option ℕ

/-- A colon and a number. -/
def number (n : ℕ) : List Char := ':' :: Nat.toDigits 10 n

/-- The line of the file. -/
def FrameText.fileLine (f : FrameText) : List Char :=
  f.file ++ number f.line ++ match f.column with
    | some column => number column
    | none => []

/-- The two lines of a frame. -/
def FrameText.render (f : FrameText) : List Char :=
  f.function ++ newline :: (f.fileLine ++ [newline])

/-- The output for some frames. -/
def renderFrames (frames : List FrameText) : List Char := frames.flatMap FrameText.render ++ [newline]

/-- The names are such as there can be, and the numbers are those of an `int`. -/
structure FrameText.Ok (f : FrameText) : Prop where
  /-- The function has a name. -/
  function_ne : f.function ≠ []
  /-- It is on one line. -/
  function_ok : newline ∉ f.function ∧ nul ∉ f.function
  /-- The file has a name. -/
  file_ne : f.file ≠ []
  /-- It is on one line. -/
  file_ok : newline ∉ f.file ∧ nul ∉ f.file
  /-- It does not look like one with a line. -/
  file_end : ¬ EndsInNumber f.file
  /-- The line is that of an `int`. -/
  line_lt : f.line < 2^31
  /-- So is the column. -/
  column_lt : ∀ column ∈ f.column, column < 2^31

/-- The name in an `AddressInfo`: null when it is not known. -/
def nameOf (text : List Char) : Option (List Char) :=
  if text = unknownName then none else some (text ++ [nul])

/-- The frame in an `AddressInfo`. -/
def FrameText.info (f : FrameText) (cur : AddressInfo) : AddressInfo :=
  { cur with
    function := nameOf f.function
    file := nameOf f.file
    line := f.line
    column := (f.column.getD 0 : ℕ) }

/-- What a frame behind the first one has of it. -/
def AddressInfo.later (res : AddressInfo) : AddressInfo :=
  (AddressInfo.new res.address).fillModuleInfo res.module res.moduleOffset res.moduleArch

variable {str junk rest : List Char} {pos : ℕ} {f : FrameText}

theorem upTo_append {delims text : List Char} {c : Char} (hc : delims.contains c = true)
    (h : ∀ d ∈ text, delims.contains d = false) (rest : List Char) :
    upTo delims (text ++ c :: rest) = text ∧ after delims (text ++ c :: rest) = rest := by
  have hpos : ∀ d ∈ text, (!delims.contains d) = true := fun d hd => by rw [h d hd]; rfl
  have hneg : ¬ (!delims.contains c) = true := by rw [hc]; exact Bool.false_ne_true
  constructor
  · unfold upTo
    rw [List.takeWhile_append_of_pos hpos, List.takeWhile_cons_of_neg (p := (!delims.contains ·)) hneg, List.append_nil]
  · unfold after
    rw [List.dropWhile_append_of_pos hpos, List.dropWhile_cons_of_neg (p := (!delims.contains ·)) hneg]
    rfl

theorem upTo_newline {text : List Char} (h : newline ∉ text) (rest : List Char) :
    upTo [newline] (text ++ newline :: rest) = text ∧
      after [newline] (text ++ newline :: rest) = rest := by
  refine upTo_append (List.elem_cons_self) (fun d hd => ?_) rest
  rw [List.contains_eq_mem, decide_eq_false_iff_not, List.mem_singleton]
  exact fun heq => h (heq ▸ hd)

theorem upTo_nil (text : List Char) : upTo [] text = text :=
  List.takeWhile_eq_self_iff.mpr fun _ _ => rfl

theorem shift_toDigits {n : ℕ} (hn : n < 2^31) (info : AddressInfo) :
    info.shift (Nat.toDigits 10 n) = { info with column := info.line, line := n } := by
  have hread := @internalSimpleStrtoll_toDigits n (by omega) [] rfl
  rw [List.append_nil] at hread
  have hint : toInt (n : ℤ) = n := by
    unfold toInt
    rw [BitVec.toInt_ofInt]
    exact Int.bmod_eq_of_le (by omega) (by omega)
  unfold AddressInfo.shift
  rw [hread, hint]

theorem notMem_number (n : ℕ) : newline ∉ number n ∧ nul ∉ number n := by
  have hne : ∀ c, isDigit c = false → c ≠ ':' → c ∉ number n := by
    intro c hc hcolon hmem
    rcases List.mem_cons.mp hmem with heq | hmem
    · exact hcolon heq
    · rw [isDigit_of_mem_toDigits hmem] at hc
      cases hc
  exact ⟨hne newline (by decide) (by decide), hne nul (by decide) (by decide)⟩

theorem FrameText.Ok.fileLine_ok (h : f.Ok) : newline ∉ f.fileLine ∧ nul ∉ f.fileLine := by
  have hcolumn : ∀ c, (∀ n, c ∉ number n) → c ∉ f.file → c ∉ f.fileLine := by
    intro c hnumber hfile hmem
    unfold fileLine at hmem
    rcases List.mem_append.mp hmem with hmem | hmem
    · rcases List.mem_append.mp hmem with hmem | hmem
      · exact hfile hmem
      · exact hnumber f.line hmem
    · cases hcol : f.column with
      | none => rw [hcol] at hmem; exact List.not_mem_nil hmem
      | some column => rw [hcol] at hmem; exact hnumber column hmem
  exact ⟨hcolumn newline (fun n => (notMem_number n).1) h.file_ok.1,
    hcolumn nul (fun n => (notMem_number n).2) h.file_ok.2⟩

theorem splitRounds_fileLine (h : f.Ok) {info : AddressInfo} (hinfo : info.line = 0) :
    ∃ junk, splitRounds 2 (f.fileLine ++ [nul]) (f.fileLine.length - 1) info =
      .returned (f.file ++ nul :: junk,
        { info with line := f.line, column := (f.column.getD 0 : ℕ) }) := by
  have hdigits : ∀ n, ∀ d ∈ Nat.toDigits 10 n, isDigit d = true := fun _ _ => isDigit_of_mem_toDigits
  have hnul : ∀ n, nul ∉ Nat.toDigits 10 n := fun n hmem =>
    (notMem_number n).2 (List.mem_cons_of_mem _ hmem)
  unfold FrameText.fileLine number
  cases hcolumn : f.column with
  | none =>
    rw [List.append_nil, splitRounds_number 1 (hnul _) Nat.toDigits_ne_nil (hdigits _),
      splitRounds_stop 0 h.file_ne h.file_end, shift_toDigits h.line_lt, hinfo]
    exact ⟨_, rfl⟩
  | some column =>
    have hlt := h.column_lt column hcolumn
    rw [splitRounds_number 1 (hnul _) Nat.toDigits_ne_nil (hdigits _),
      splitRounds_number 0 (hnul _) Nat.toDigits_ne_nil (hdigits _), shift_toDigits hlt,
      shift_toDigits h.line_lt]
    exact ⟨_, rfl⟩

/-- The line of a file is read. -/
theorem parseFileLineInfo_fileLine (h : f.Ok)
    (hahead : Ahead str pos (f.fileLine ++ newline :: rest) junk) (info : AddressInfo)
    (hinfo : info.line = 0) :
    ∃ next, parseFileLineInfo str pos info = .returned ({ info with
        file := some (f.file ++ [nul]), line := f.line, column := (f.column.getD 0 : ℕ) }, next) ∧
      Ahead str next rest junk := by
  have hline := h.fileLine_ok
  have hne : f.fileLine ≠ [] := by
    unfold FrameText.fileLine
    rw [List.append_assoc]
    exact List.append_ne_nil_of_left_ne_nil h.file_ne _
  obtain ⟨hupTo, hafter⟩ := upTo_newline hline.1 rest
  obtain ⟨next, hrun, hnext⟩ := extractToken_eq (e := .output) hahead [newline]
  obtain ⟨junk', hsplit⟩ := splitRounds_fileLine h hinfo
  have hcopy : Ahead (f.file ++ nul :: junk') 0 f.file junk' := ⟨rfl, h.file_ok.2⟩
  obtain ⟨_, htoken, -⟩ := extractToken_eq (e := .token) hcopy []
  rw [hupTo] at hrun
  rw [hafter] at hnext
  rw [upTo_nil] at htoken
  refine ⟨next, ?_, hnext⟩
  unfold parseFileLineInfo
  rw [hrun, Outcome.returned_bind]
  dsimp only
  rw [cString_eq (ahead_zero hline.2), Outcome.returned_bind,
    if_pos (List.length_pos_of_ne_nil hne).ne', hsplit, Outcome.returned_bind]
  dsimp only
  rw [htoken]
  rfl

/-- A turn of the loop reads a frame. -/
theorem parsePCLoop_frame (h : f.Ok) (hahead : Ahead str pos (f.render ++ rest) junk)
    {res : AddressInfo} (hres : res.line = 0) (done : List AddressInfo) :
    ∃ next, (∀ fuel, parsePCLoop str res (fuel + 1) pos done = parsePCLoop str res fuel next
        (done ++ [f.info (if done.isEmpty then res else res.later)])) ∧
      Ahead str next rest junk := by
  have htext : f.render ++ rest = f.function ++ newline :: (f.fileLine ++ newline :: rest) := by
    unfold FrameText.render
    rw [List.append_assoc, List.cons_append, List.append_assoc]
    rfl
  obtain ⟨hupTo, hafter⟩ := upTo_newline h.function_ok.1 (f.fileLine ++ newline :: rest)
  rw [htext] at hahead
  obtain ⟨next, hrun, hnext⟩ := extractToken_eq (e := .output) hahead [newline]
  rw [hafter] at hnext
  rw [hupTo] at hrun
  obtain ⟨c, hread, hc⟩ := read_token h.function_ok.2
  have hcur : (if done.isEmpty then res else res.later).line = 0 := by
    split_ifs
    · exact hres
    · rfl
  obtain ⟨next', hparse, hnext'⟩ := parseFileLineInfo_fileLine h hnext
    { (if done.isEmpty then res else res.later) with function := some (f.function ++ [nul]) } hcur
  refine ⟨next', fun fuel => ?_, hnext'⟩
  rw [parsePCLoop, hrun, Outcome.returned_bind]
  dsimp only
  rw [hread, Outcome.returned_bind, if_neg fun heq => h.function_ne (hc.mp heq)]
  unfold AddressInfo.later at hparse ⊢
  rw [hparse, Outcome.returned_bind]
  dsimp only
  rw [dropUnknown_some h.function_ok.2, Outcome.returned_bind, dropUnknown_some h.file_ok.2]
  rfl

/-- The loop reads the frames that are left. -/
theorem parsePCLoop_frames {res : AddressInfo} (hres : res.line = 0) {frames : List FrameText}
    (h : ∀ f ∈ frames, f.Ok) {done : List AddressInfo} (hdone : done ≠ [])
    (hahead : Ahead str pos (renderFrames frames) junk) {fuel : ℕ} (hfuel : frames.length < fuel) :
    parsePCLoop str res fuel pos done =
      .returned (done ++ frames.map fun f => f.info res.later) := by
  induction frames generalizing pos done fuel with
  | nil =>
    obtain ⟨fuel, rfl⟩ := Nat.exists_eq_succ_of_ne_zero (Nat.zero_lt_of_lt hfuel).ne'
    rw [List.map_nil, List.append_nil]
    exact parsePCLoop_end hahead rfl res fuel done
  | cons f frames ih =>
    obtain ⟨fuel, rfl⟩ := Nat.exists_eq_succ_of_ne_zero (Nat.zero_lt_of_lt hfuel).ne'
    have htext : renderFrames (f :: frames) = f.render ++ renderFrames frames := by
      unfold renderFrames
      rw [List.flatMap_cons, List.append_assoc]
    rw [htext] at hahead
    rw [List.length_cons] at hfuel
    obtain ⟨next, hturn, hnext⟩ := parsePCLoop_frame (h f List.mem_cons_self) hahead hres done
    have hempty : done.isEmpty = false := List.isEmpty_eq_false_iff.mpr hdone
    rw [hturn, hempty, if_neg Bool.false_ne_true,
      ih (fun g hg => h g (List.mem_cons_of_mem _ hg)) (List.append_ne_nil_of_left_ne_nil hdone _)
        hnext (by omega), List.append_assoc]
    rfl

theorem nul_notMem_renderFrames {frames : List FrameText} (h : ∀ f ∈ frames, f.Ok) :
    nul ∉ renderFrames frames := by
  intro hmem
  rcases List.mem_append.mp hmem with hmem | hmem
  · obtain ⟨f, hf, hmem⟩ := List.mem_flatMap.mp hmem
    rcases List.mem_append.mp hmem with hmem | hmem
    · exact (h f hf).function_ok.2 hmem
    · rcases List.mem_cons.mp hmem with heq | hmem
      · exact absurd heq (by decide)
      · rcases List.mem_append.mp hmem with hmem | hmem
        · exact (h f hf).fileLine_ok.2 hmem
        · exact absurd hmem (by decide)
  · exact absurd hmem (by decide)

theorem parseSymbolizePCOutput_frames {frames : List FrameText} (h : ∀ g ∈ f :: frames, g.Ok)
    {res : AddressInfo} (hres : res.line = 0) {fuel : ℕ} (hfuel : (f :: frames).length < fuel) :
    parseSymbolizePCOutput fuel (renderFrames (f :: frames) ++ [nul]) res =
      .returned (f.info res :: frames.map fun g => g.info res.later) := by
  obtain ⟨fuel, rfl⟩ := Nat.exists_eq_succ_of_ne_zero (Nat.zero_lt_of_lt hfuel).ne'
  have hahead := ahead_zero (nul_notMem_renderFrames h)
  have htext : renderFrames (f :: frames) = f.render ++ renderFrames frames := by
    unfold renderFrames
    rw [List.flatMap_cons, List.append_assoc]
  rw [List.length_cons] at hfuel
  rw [htext] at hahead ⊢
  obtain ⟨next, hturn, hnext⟩ := parsePCLoop_frame (h f List.mem_cons_self) hahead hres []
  unfold parseSymbolizePCOutput
  rw [hturn, parsePCLoop_frames hres (fun g hg => h g (List.mem_cons_of_mem _ hg))
    (List.append_ne_nil_of_right_ne_nil _ (List.cons_ne_nil _ _)) hnext (by omega)]
  rfl

/-- The frames of an output are read back in order, with null for a name that is not known and zero
for a column that there is not. They have the address of the first one, and the name, the offset and
the architecture of its module. -/
theorem parseSymbolizePCOutput_render {frames : List FrameText} (h : ∀ g ∈ f :: frames, g.Ok)
    {res : AddressInfo} (hres : res.line = 0) :
    (∀ fuel > (f :: frames).length,
      parseSymbolizePCOutput fuel (renderFrames (f :: frames) ++ [nul]) res =
        .returned (f.info res :: frames.map fun g => g.info res.later)) ∧
    ∀ info ∈ f.info res :: frames.map fun g => g.info res.later,
      info.address = res.address ∧ info.module = res.module ∧
        info.moduleOffset = res.moduleOffset ∧ info.moduleArch = res.moduleArch := by
  refine ⟨fun fuel hfuel => parseSymbolizePCOutput_frames h hres hfuel, fun info hinfo => ?_⟩
  rcases List.mem_cons.mp hinfo with rfl | hinfo
  · exact ⟨rfl, rfl, rfl, rfl⟩
  · obtain ⟨g, -, rfl⟩ := List.mem_map.mp hinfo
    exact ⟨rfl, rfl, rfl, rfl⟩

/-- A function in a file with a colon in its name, with a column. -/
def inlinedFrame : FrameText := ⟨['f'], ['c', ':', '1', 'x'], 7, some 3⟩

/-- Its caller, of which nothing but the file is known. -/
def outerFrame : FrameText := ⟨['?', '?'], ['d'], 9, none⟩

theorem not_endsInNumber (text : List Char) {c : Char} (hc : isDigit c = false) :
    ¬ EndsInNumber (text ++ [c]) := by
  rintro ⟨pre, digits, heq, hne, hdigits⟩
  have hlast := congrArg List.getLast? heq
  rw [List.getLast?_concat, List.getLast?_append_of_ne_nil _ (List.cons_ne_nil _ _),
    List.getLast?_cons_of_ne_nil hne] at hlast
  rw [hdigits c (List.mem_of_getLast? hlast.symm)] at hc
  cases hc

theorem frames_ok : ∀ g ∈ [inlinedFrame, outerFrame], g.Ok := by
  have hinlined : inlinedFrame.Ok := {
    function_ne := List.cons_ne_nil _ _
    function_ok := by decide
    file_ne := List.cons_ne_nil _ _
    file_ok := by decide
    file_end := not_endsInNumber ['c', ':', '1'] (by decide)
    line_lt := by decide
    column_lt := by decide }
  have houter : outerFrame.Ok := {
    function_ne := List.cons_ne_nil _ _
    function_ok := by decide
    file_ne := List.cons_ne_nil _ _
    file_ok := by decide
    file_end := not_endsInNumber [] (by decide)
    line_lt := by decide
    column_lt := by decide }
  exact List.forall_mem_cons.mpr ⟨hinlined, List.forall_mem_singleton.mpr houter⟩

/-- What is known about the address before: a module with a UUID. -/
def withUuid : AddressInfo :=
  { AddressInfo.new 0x1234 with module := ['m', nul], moduleOffset := 0x34, uuid := [0xab#8] }

/-- The second frame does not have the UUID of the first one. -/
theorem outerFrame_uuid : ∃ first second,
    (∀ fuel > 2, parseSymbolizePCOutput fuel (renderFrames [inlinedFrame, outerFrame] ++ [nul])
      withUuid = .returned [first, second]) ∧ first.uuid = [0xab#8] ∧ second.uuid = [] :=
  ⟨_, _, fun _ hfuel => parseSymbolizePCOutput_frames frames_ok rfl hfuel, rfl, rfl⟩

/-- The two frames are read back. -/
theorem parseSymbolizePCOutput_render_two :
    (∀ fuel > 2, parseSymbolizePCOutput fuel (renderFrames [inlinedFrame, outerFrame] ++ [nul])
        withUuid =
      .returned [inlinedFrame.info withUuid, outerFrame.info withUuid.later]) ∧
    ∀ info ∈ [inlinedFrame.info withUuid, outerFrame.info withUuid.later],
      info.address = 0x1234 ∧ info.module = ['m', nul] ∧
        info.moduleOffset = 0x34 ∧ info.moduleArch = .unknown :=
  parseSymbolizePCOutput_render frames_ok rfl

end Tasan.Symbolizer
