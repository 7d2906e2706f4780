import Tasan.Libc.Strtoll

/-!
# Descriptions of stack frames

`ParseFrameDescription` of `asan_report.cpp` reads the description of the variables in a frame, which
the compiler has written. A name may hold digits and blanks, so that nothing but its length says
where it ends, and the colon before a line number is looked for in all of the rest of the string.
`parseFrameDescription_render` says that the variables are read back as they were written.
-/

namespace Tasan.Asan

open FlagParser (nul)
open Format (Pointer Fault peek isDigit advance)
open Libc (internalSimpleStrtoll internalSimpleStrtoll_toDigits internalSimpleStrtoll_space)

/-- `StackVarDescr`. -/
structure StackVarDescr where
  beg : ℕ
  size : ℕ
  /-- `name_pos`: the string from there on. -/
  namePos : List Char
  nameLen : ℕ
  line : ℕ

/-- An `s64` as a `uptr`. -/
def toUptr (n : ℤ) : ℕ := (n % 2^64).toNat

/-- `internal_simple_strtoll(p, &p, 10)`. -/
def readNumber : Pointer → Except Fault (ℕ × Pointer)
  | .at p =>
    let (n, p) := internalSimpleStrtoll p
    .ok (toUptr n, .at p)
  | .behind => .error .overrun

/-- `p += len`. -/
def skip (p : List Char) (len : ℕ) : Pointer := if len ≤ p.length then .at (p.drop len) else .behind

/-- The name of a variable and its line: `p` is at the name. -/
def readName (beg size len : ℕ) (p : List Char) : StackVarDescr :=
  let colonPos := (p.takeWhile (· ≠ ':')).length
  if ':' ∈ p ∧ colonPos < len then
    ⟨beg, size, p, colonPos, toUptr (internalSimpleStrtoll (p.drop (colonPos + 1))).1⟩
  else ⟨beg, size, p, len, 0⟩

/-- One turn of the loop of `ParseFrameDescription`, which may return false. -/
def parseVar (p : Pointer) : Except Fault (Option (StackVarDescr × Pointer)) := do
  let (beg, p) ← readNumber p
  let (size, p) ← readNumber p
  let (len, p) ← readNumber p
  let c ← p.peek
  if beg = 0 ∨ size = 0 ∨ c ≠ ' ' then return none
  else
    match p with
    | .at p => return some (readName beg size len p.tail, skip p.tail len)
    | .behind => .error .overrun

/-- The loop of `ParseFrameDescription`. -/
def parseVars : ℕ → Pointer → List StackVarDescr → Except Fault (Bool × List StackVarDescr)
  | 0, _, vars => .ok (true, vars)
  | n + 1, p, vars => do
    match ← parseVar p with
    | none => return (false, vars)
    | some (var, p) => parseVars n p (vars ++ [var])

/-- `ParseFrameDescription`. -/
def parseFrameDescription (frameDescr : List Char) (vars : List StackVarDescr) :
    Except Fault (Bool × List StackVarDescr) := do
  let (nObjects, p) ← readNumber (.at frameDescr)
  if nObjects = 0 then return (false, vars) else parseVars nObjects p vars

/-! ## What the compiler writes -/

/-- A variable of a frame. -/
structure StackVar where
  /-- Where it is. -/
  offset : ℕ
  /-- How large it is. -/
  size : ℕ
  /-- Its name. -/
  name : List Char
  /-- The line of its declaration. -/
  line : Option ℕ

/-- The name with the line. -/
def StackVar.text (v : StackVar) : List Char :=
  v.name ++ match v.line with
    | some line => ':' :: Nat.toDigits 10 line
    | none => []

/-- A variable in the description, behind a blank. -/
def StackVar.render (v : StackVar) : List Char :=
  ' ' :: (Nat.toDigits 10 v.offset ++ ' ' :: (Nat.toDigits 10 v.size ++ ' ' ::
    (Nat.toDigits 10 v.text.length ++ ' ' :: v.text)))

/-- The description of a frame. -/
def renderFrame (vars : List StackVar) : List Char :=
  Nat.toDigits 10 vars.length ++ vars.flatMap StackVar.render

/-- The numbers are such as there can be, and the name is one. -/
structure StackVar.Ok (v : StackVar) : Prop where
  /-- The offset is not zero, and below `2^63`. -/
  offset_ok : 0 < v.offset ∧ v.offset < 2^63
  /-- So is the size. -/
  size_ok : 0 < v.size ∧ v.size < 2^63
  /-- The length is below `2^63`. -/
  length_lt : v.text.length < 2^63
  /-- So is the line, which is not zero. -/
  line_ok : ∀ line ∈ v.line, 0 < line ∧ line < 2^63
  /-- The name has no colon and no NUL. -/
  name_ok : ':' ∉ v.name ∧ nul ∉ v.name

/-- What has been read for a variable. -/
structure StackVarDescr.Describes (d : StackVarDescr) (v : StackVar) : Prop where
  /-- The offset. -/
  beg_eq : d.beg = v.offset
  /-- The size. -/
  size_eq : d.size = v.size
  /-- The length of the name. -/
  nameLen_eq : d.nameLen = v.name.length
  /-- The name. -/
  name_eq : d.namePos.take d.nameLen = v.name
  /-- The line, or zero. -/
  line_eq : d.line = v.line.getD 0

/-! ## Reading back -/

variable {v : StackVar} {rest : List Char}

/-- What comes behind a variable: nothing, or the next one behind a blank. -/
def AtBlank (rest : List Char) : Prop := rest = [] ∨ peek rest = ' '

theorem AtBlank.not_isDigit (h : AtBlank rest) : isDigit (peek rest) = false := by
  rcases h with rfl | h
  · rfl
  · rw [h]
    rfl

theorem except_ok_bind {α β : Type} (a : α) (f : α → Except Fault β) :
    (Except.ok a >>= f) = f a := rfl

theorem toUptr_natCast {n : ℕ} (hn : n < 2^63) : toUptr n = n := by
  unfold toUptr
  omega

theorem readNumber_toDigits {n : ℕ} (hn : n < 2^63) (hrest : isDigit (peek rest) = false) :
    readNumber (.at (Nat.toDigits 10 n ++ rest)) = .ok (n, .at rest) := by
  unfold readNumber
  dsimp only
  rw [internalSimpleStrtoll_toDigits hn hrest]
  dsimp only
  rw [toUptr_natCast hn]

theorem readNumber_blank {n : ℕ} (hn : n < 2^63) (hrest : isDigit (peek rest) = false) :
    readNumber (.at (' ' :: (Nat.toDigits 10 n ++ rest))) = .ok (n, .at rest) := by
  rw [← readNumber_toDigits hn hrest]
  unfold readNumber
  dsimp only
  rw [internalSimpleStrtoll_space]

theorem takeWhile_name {name : List Char} (hname : ':' ∉ name) (rest : List Char) :
    (name ++ rest).takeWhile (· ≠ ':') = name ++ rest.takeWhile (· ≠ ':') :=
  List.takeWhile_append_of_pos fun _ hc => decide_eq_true fun h => hname (h ▸ hc)

/-- The name and the line are read back. -/
theorem readName_describes (h : v.Ok) (hrest : AtBlank rest) :
    (readName v.offset v.size v.text.length (v.text ++ rest)).Describes v := by
  have hcolon := h.name_ok.1
  unfold readName
  cases hline : v.line with
  | none =>
    -- a colon can only be behind the name
    have htext : v.text = v.name := by
      unfold StackVar.text
      rw [hline]
      exact List.append_nil _
    have hfar : ¬ (':' ∈ v.name ++ rest ∧
        ((v.name ++ rest).takeWhile (· ≠ ':')).length < v.name.length) := by
      rw [takeWhile_name hcolon, List.length_append]
      omega
    rw [htext, if_neg hfar]
    exact ⟨rfl, rfl, rfl, List.take_left' rfl, by rw [hline]; rfl⟩
  | some line =>
    have htext : v.text ++ rest = v.name ++ ':' :: (Nat.toDigits 10 line ++ rest) := by
      unfold StackVar.text
      rw [hline, List.append_assoc]
      rfl
    have hlen : v.name.length < v.text.length := by
      unfold StackVar.text
      rw [hline, List.length_append]
      exact Nat.lt_add_of_pos_right (Nat.succ_pos _)
    have hpos : ((v.text ++ rest).takeWhile (· ≠ ':')).length = v.name.length := by
      rw [htext, takeWhile_name hcolon, List.takeWhile_cons_of_neg (by decide), List.append_nil]
    have hdrop : (v.text ++ rest).drop (v.name.length + 1) = Nat.toDigits 10 line ++ rest := by
      rw [htext, ← List.drop_drop, List.drop_left]
      rfl
    have hmem : ':' ∈ v.text ++ rest := by
      rw [htext]
      exact List.mem_append_right _ List.mem_cons_self
    dsimp only
    rw [hpos, if_pos ⟨hmem, hlen⟩, hdrop,
      internalSimpleStrtoll_toDigits (h.line_ok line hline).2 hrest.not_isDigit]
    refine ⟨rfl, rfl, rfl, ?_, ?_⟩
    · rw [htext]
      exact List.take_left' rfl
    · rw [hline]
      exact toUptr_natCast (h.line_ok line hline).2

/-- A variable is read back, and the next one is behind it. -/
theorem parseVar_render (h : v.Ok) (rest : List Char) :
    parseVar (.at (v.render ++ rest)) =
      .ok (some (readName v.offset v.size v.text.length (v.text ++ rest), .at rest)) := by
  have hrender : v.render ++ rest =
      ' ' :: (Nat.toDigits 10 v.offset ++ ' ' :: (Nat.toDigits 10 v.size ++ ' ' ::
        (Nat.toDigits 10 v.text.length ++ ' ' :: (v.text ++ rest)))) := by
    unfold StackVar.render
    simp only [List.cons_append, List.append_assoc]
  have hskip : skip (v.text ++ rest) v.text.length = .at rest := by
    unfold skip
    rw [if_pos (by rw [List.length_append]; omega), List.drop_left]
  have hpeek : (Pointer.at (' ' :: (v.text ++ rest))).peek = .ok ' ' := rfl
  have hpositive : ¬ (v.offset = 0 ∨ v.size = 0 ∨ ' ' ≠ ' ') := by
    have hoffset := h.offset_ok.1
    have hsize := h.size_ok.1
    simp only [ne_eq, not_true_eq_false, or_false]
    omega
  unfold parseVar
  rw [hrender, readNumber_blank h.offset_ok.2 rfl, except_ok_bind]
  dsimp only
  rw [readNumber_blank h.size_ok.2 rfl, except_ok_bind]
  dsimp only
  rw [readNumber_blank h.length_lt rfl, except_ok_bind]
  dsimp only
  rw [hpeek, except_ok_bind, if_neg hpositive, List.tail_cons, hskip]
  rfl

theorem parseVars_render {vars : List StackVar} (h : ∀ v ∈ vars, v.Ok) (acc : List StackVarDescr) :
    ∃ descrs, parseVars vars.length (.at (vars.flatMap StackVar.render)) acc =
        .ok (true, acc ++ descrs) ∧
      List.Forall₂ StackVarDescr.Describes descrs vars := by
  induction vars generalizing acc with
  | nil => exact ⟨[], by rw [List.append_nil]; rfl, .nil⟩
  | cons v vars ih =>
    have hv : v.Ok := h v List.mem_cons_self
    have hblank : AtBlank (vars.flatMap StackVar.render) := by
      cases vars with
      | nil => exact Or.inl rfl
      | cons w vars => exact Or.inr rfl
    obtain ⟨descrs, hrun, hall⟩ := ih (fun w hw => h w (List.mem_cons_of_mem v hw))
      (acc ++ [readName v.offset v.size v.text.length
        (v.text ++ vars.flatMap StackVar.render)])
    refine ⟨_ :: descrs, ?_, .cons (readName_describes hv hblank) hall⟩
    rw [List.flatMap_cons, List.length_cons, parseVars, parseVar_render hv, except_ok_bind]
    dsimp only
    rw [hrun, List.append_assoc, List.singleton_append]

/-- `ParseFrameDescription` reads the variables of a frame back as they were written. -/
theorem parseFrameDescription_render {vars : List StackVar} (hne : vars ≠ [])
    (hcount : vars.length < 2^63) (h : ∀ v ∈ vars, v.Ok) (acc : List StackVarDescr) :
    ∃ descrs, parseFrameDescription (renderFrame vars) acc = .ok (true, acc ++ descrs) ∧
      List.Forall₂ StackVarDescr.Describes descrs vars := by
  obtain ⟨descrs, hrun, hall⟩ := parseVars_render h acc
  have hfirst : isDigit (peek (vars.flatMap StackVar.render)) = false := by
    obtain ⟨v, rest, rfl⟩ := List.exists_cons_of_ne_nil hne
    rfl
  refine ⟨descrs, ?_, hall⟩
  unfold parseFrameDescription renderFrame
  rw [readNumber_toDigits hcount hfirst, except_ok_bind]
  dsimp only
  rw [if_neg fun hzero => hne (List.length_eq_zero_iff.mp hzero), hrun]

/-- Two variables, of which the second one has a line: `2 32 4 1 i 48 8 5 s p:7`. -/
theorem parseFrameDescription_render_two :
    ∃ descrs, parseFrameDescription
        (renderFrame [⟨32, 4, ['i'], none⟩, ⟨48, 8, ['s', ' ', 'p'], some 7⟩]) [] =
          .ok (true, [] ++ descrs) ∧
      List.Forall₂ StackVarDescr.Describes descrs
        [⟨32, 4, ['i'], none⟩, ⟨48, 8, ['s', ' ', 'p'], some 7⟩] := by
  refine parseFrameDescription_render (List.cons_ne_nil _ _) (by decide) ?_ []
  have hfirst : StackVar.Ok ⟨32, 4, ['i'], none⟩ :=
    ⟨by decide, by decide, by decide, nofun, by decide⟩
  have hsecond : StackVar.Ok ⟨48, 8, ['s', ' ', 'p'], some 7⟩ := by
    refine ⟨by decide, by decide, by decide, ?_, by decide⟩
    rintro line ⟨⟩
    decide
  exact List.forall_mem_cons.mpr ⟨hfirst, List.forall_mem_singleton.mpr hsecond⟩

end Tasan.Asan
