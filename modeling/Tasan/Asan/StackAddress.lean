import Tasan.Asan.FrameDescription
import Tasan.Word

/-!
# The variable that a stack access is nearest to

`StackAddressDescription::Print` lists the variables of a frame and marks those that the access meets or
is nearest to. Each variable is compared with its two neighbours; at the ends of the frame stand 0 and the
largest address in their place. So an access that is nearer to the start of the frame than to the first
variable has no mark at all. `stackAddress_iff` says that this, and its counterpart at the end of the
address space, is all that goes wrong.
-/

namespace Tasan.Asan

/-! ## The model -/

/-- `pos_descr`. -/
inductive Position
  /-- `"is inside"`. -/
  | inside
  /-- `"partially overflows"`. -/
  | partiallyOverflows
  /-- `"overflows"`. -/
  | overflows
  /-- `"partially underflows"`. -/
  | partiallyUnderflows
  /-- `"underflows"`. -/
  | underflows
  deriving DecidableEq

/-- The words of the report. -/
def Position.text : Position → String
  | inside => "is inside"
  | partiallyOverflows => "partially overflows"
  | overflows => "overflows"
  | partiallyUnderflows => "partially underflows"
  | underflows => "underflows"

/-- `var_end`. -/
def StackVarDescr.varEnd (var : StackVarDescr) : ℕ := Word.add 64 var.beg var.size

/-- The choice of `pos_descr` in `PrintAccessAndVarIntersection`. -/
def posDescr (var : StackVarDescr) (addr accessSize prevVarEnd nextVarBeg : ℕ) : Option Position :=
  let varEnd := var.varEnd
  let addrEnd := Word.add 64 addr accessSize
  if var.beg ≤ addr then
    if addrEnd ≤ varEnd then some .inside
    else if addr < varEnd then some .partiallyOverflows
    else if addrEnd ≤ nextVarBeg ∧ Word.sub 64 addr varEnd ≤ Word.sub 64 nextVarBeg addrEnd then
      some .overflows
    else none
  else if var.beg < addrEnd then some .partiallyUnderflows
  else if prevVarEnd ≤ addr ∧ Word.sub 64 var.beg addrEnd ≤ Word.sub 64 addr prevVarEnd then
    some .underflows
  else none

/-- `%zd`. -/
def formatZd (n : ℕ) : String := toString (BitVec.ofNat 64 n).toInt

/-- `PrintAccessAndVarIntersection`, with the codes of the two colours. -/
def printAccessAndVarIntersection (location dflt : String) (var : StackVarDescr)
    (addr accessSize prevVarEnd nextVarBeg : ℕ) : String :=
  "    [" ++ formatZd var.beg ++ ", " ++ formatZd var.varEnd ++ ")" ++
    " '" ++ String.ofList (var.namePos.take var.nameLen) ++ "'" ++
    (if 0 < var.line then " (line " ++ formatZd var.line ++ ")" else "") ++
    (match posDescr var addr accessSize prevVarEnd nextVarBeg with
    | some p => location ++ " <== Memory access at offset " ++ formatZd addr ++ " " ++ p.text ++
      " this variable" ++ dflt ++ "\n"
    | none => "\n")

section

variable (vars : List StackVarDescr)

/-- `vars[i]`. -/
def varAt (i : ℕ) : StackVarDescr := vars.getD i ⟨0, 0, [], 0, 0⟩

/-- `prev_var_end`. -/
def prevVarEnd (i : ℕ) : ℕ := if i ≠ 0 then (varAt vars (i - 1)).varEnd else 0

/-- `next_var_beg`. -/
def nextVarBeg (i : ℕ) : ℕ := if i + 1 < vars.length then (varAt vars (i + 1)).beg else 2^64 - 1

/-- The mark of a variable in the report, if it has one. -/
def mark (offset accessSize i : ℕ) : Option Position :=
  posDescr (varAt vars i) offset accessSize (prevVarEnd vars i) (nextVarBeg vars i)

/-- The part of `StackAddressDescription::Print` about the variables. -/
def printVars (location dflt : String) (offset accessSize : ℕ) : String :=
  "  This frame has " ++ toString vars.length ++ " object(s):\n" ++
    String.join ((List.range vars.length).map fun i =>
      printAccessAndVarIntersection location dflt (varAt vars i) offset accessSize (prevVarEnd vars i)
        (nextVarBeg vars i))

end

/-! ## What is asked for -/

/-- How an access lies to a variable. -/
def Position.Holds (addr addrEnd beg varEnd : ℕ) : Position → Prop
  | inside => beg ≤ addr ∧ addrEnd ≤ varEnd
  | partiallyOverflows => beg ≤ addr ∧ addr < varEnd ∧ varEnd < addrEnd
  | overflows => varEnd ≤ addr
  | partiallyUnderflows => addr < beg ∧ beg < addrEnd
  | underflows => addrEnd ≤ beg

/-- The access meets the variable. -/
def StackVarDescr.Meets (var : StackVarDescr) (addr addrEnd : ℕ) : Prop :=
  addr < var.beg + var.size ∧ var.beg < addrEnd

/-- The number of bytes between the access and the variable. -/
def StackVarDescr.dist (var : StackVarDescr) (addr addrEnd : ℕ) : ℕ :=
  max (addr - (var.beg + var.size)) (var.beg - addrEnd)

/-- The variables of a frame: none is empty, they are in order, and in the address space. -/
structure IsFrame (vars : List StackVarDescr) : Prop where
  /-- There are variables. -/
  ne_nil : vars ≠ []
  /-- None is empty, as `ParseFrameDescription` checks. -/
  size_pos : ∀ v ∈ vars, 0 < v.size
  /-- They are in the address space. -/
  lt : ∀ v ∈ vars, v.beg + v.size < 2^64
  /-- They are disjoint and in order. -/
  sorted : vars.Pairwise fun v w => v.beg + v.size ≤ w.beg

/-- The marks are right: there is one, a variable has one when the access meets it or meets none and has
none nearer, and it says how the access lies to the variable. -/
structure MarksNearest (vars : List StackVarDescr) (offset accessSize : ℕ) : Prop where
  /-- Some variable has a mark. -/
  exists_mark : ∃ i < vars.length, mark vars offset accessSize i ≠ none
  /-- Which variables have a mark. -/
  mark_iff : ∀ i < vars.length, mark vars offset accessSize i ≠ none ↔
    (varAt vars i).Meets offset (offset + accessSize) ∨
      (∀ j < vars.length, ¬ (varAt vars j).Meets offset (offset + accessSize)) ∧
        ∀ j < vars.length, ¬ (varAt vars j).dist offset (offset + accessSize) <
          (varAt vars i).dist offset (offset + accessSize)
  /-- What the mark says. -/
  holds : ∀ i < vars.length, ∀ p, mark vars offset accessSize i = some p →
    p.Holds offset (offset + accessSize) (varAt vars i).beg ((varAt vars i).beg + (varAt vars i).size)

/-! ## One variable -/

section

variable {vars : List StackVarDescr} {offset accessSize i j : ℕ}

theorem varAt_mem (hi : i < vars.length) : varAt vars i ∈ vars := by
  rw [varAt, List.getD_eq_getElem _ _ hi]
  exact List.getElem_mem hi

theorem IsFrame.le (h : IsFrame vars) (hij : i < j) (hj : j < vars.length) :
    (varAt vars i).beg + (varAt vars i).size ≤ (varAt vars j).beg := by
  rw [varAt, varAt, List.getD_eq_getElem _ _ (hij.trans hj), List.getD_eq_getElem _ _ hj]
  exact List.pairwise_iff_getElem.mp h.sorted i j (hij.trans hj) hj hij

theorem IsFrame.varEnd_eq (h : IsFrame vars) (hi : i < vars.length) :
    (varAt vars i).varEnd = (varAt vars i).beg + (varAt vars i).size :=
  Word.add_of_lt (h.lt _ (varAt_mem hi))

theorem IsFrame.le_nextVarBeg (h : IsFrame vars) (hi : i < vars.length) :
    (varAt vars i).beg + (varAt vars i).size ≤ nextVarBeg vars i ∧ nextVarBeg vars i < 2^64 := by
  unfold nextVarBeg
  have hlt := h.lt _ (varAt_mem hi)
  split_ifs with hlast
  · have := h.lt _ (varAt_mem hlast)
    exact ⟨h.le (Nat.lt_succ_self i) hlast, by omega⟩
  · omega

theorem mark_of_meets (h : IsFrame vars) (hi : i < vars.length) (hoffset : offset + accessSize < 2^64)
    (hmeets : (varAt vars i).Meets offset (offset + accessSize)) :
    ∃ p, mark vars offset accessSize i = some p ∧
      p.Holds offset (offset + accessSize) (varAt vars i).beg 
        ((varAt vars i).beg + (varAt vars i).size) := by
  obtain ⟨hend, hbeg⟩ := hmeets
  unfold mark posDescr
  rw [h.varEnd_eq hi, Word.add_of_lt hoffset]
  dsimp only
  by_cases hstart : (varAt vars i).beg ≤ offset
  · rw [if_pos hstart]
    by_cases hin : offset + accessSize ≤ (varAt vars i).beg + (varAt vars i).size
    · exact ⟨.inside, if_pos hin, hstart, hin⟩
    · rw [if_neg hin, if_pos hend]
      exact ⟨.partiallyOverflows, rfl, hstart, hend, Nat.not_le.mp hin⟩
  · rw [if_neg hstart, if_pos hbeg]
    exact ⟨.partiallyUnderflows, rfl, Nat.not_le.mp hstart, hbeg⟩

theorem mark_of_overflows (h : IsFrame vars) (hi : i < vars.length) (hpos : 0 < accessSize)
    (hoffset : offset + accessSize < 2^64)
    (hover : (varAt vars i).beg + (varAt vars i).size ≤ offset) :
    mark vars offset accessSize i = if offset + accessSize ≤ nextVarBeg vars i ∧
      offset - ((varAt vars i).beg + (varAt vars i).size) ≤ nextVarBeg vars i - (offset + accessSize)
      then some .overflows else none := by
  obtain ⟨-, hnext⟩ := h.le_nextVarBeg hi
  unfold mark posDescr
  rw [h.varEnd_eq hi, Word.add_of_lt hoffset]
  dsimp only
  rw [if_pos (by omega), if_neg (by omega), if_neg (by omega), Word.sub_of_le hover (by omega)]
  by_cases hle : offset + accessSize ≤ nextVarBeg vars i
  · rw [Word.sub_of_le hle hnext]
  · rw [if_neg fun h => hle h.1, if_neg fun h => hle h.1]

theorem mark_of_underflows (h : IsFrame vars) (hi : i < vars.length) (hpos : 0 < accessSize)
    (hoffset : offset + accessSize < 2^64) (hunder : offset + accessSize ≤ (varAt vars i).beg) :
    mark vars offset accessSize i = if prevVarEnd vars i ≤ offset ∧
      (varAt vars i).beg - (offset + accessSize) ≤ offset - prevVarEnd vars i
      then some .underflows else none := by
  have hlt := h.lt _ (varAt_mem hi)
  unfold mark posDescr
  rw [h.varEnd_eq hi, Word.add_of_lt hoffset]
  dsimp only
  rw [if_neg (by omega), if_neg (by omega), Word.sub_of_le hunder (by omega)]
  by_cases hle : prevVarEnd vars i ≤ offset
  · rw [Word.sub_of_le hle (by omega)]
  · rw [if_neg fun h => hle h.1, if_neg fun h => hle h.1]

/-! ## All variables -/

theorem IsFrame.before (h : IsFrame vars) (hi : i < vars.length)
    (hover : (varAt vars i).beg + (varAt vars i).size ≤ offset) (hij : j ≤ i) :
    ¬ (varAt vars j).Meets offset (offset + accessSize) ∧
      (varAt vars i).dist offset (offset + accessSize) ≤
        (varAt vars j).dist offset (offset + accessSize) := by
  unfold StackVarDescr.Meets StackVarDescr.dist
  rcases Nat.lt_or_eq_of_le hij with hlt | rfl
  · have := h.le hlt hi
    omega
  · omega

theorem IsFrame.behind (h : IsFrame vars) (hj : j < vars.length)
    (hunder : offset + accessSize ≤ (varAt vars i).beg) (hij : i ≤ j) :
    ¬ (varAt vars j).Meets offset (offset + accessSize) ∧
      (varAt vars i).dist offset (offset + accessSize) ≤
        (varAt vars j).dist offset (offset + accessSize) := by
  unfold StackVarDescr.Meets StackVarDescr.dist
  rcases Nat.lt_or_eq_of_le hij with hlt | rfl
  · have := h.le hlt hj
    omega
  · omega

variable (vars offset accessSize) in
/-- An access before the first variable is not nearer to the start of the frame than to the variable, and
one behind the last variable not nearer to the end of the address space. -/
structure EndsFar : Prop where
  /-- The access is before the first variable. -/
  first : offset + accessSize ≤ (varAt vars 0).beg → (varAt vars 0).beg - (offset + accessSize) ≤ offset
  /-- The access is behind the last variable. -/
  last : (varAt vars (vars.length - 1)).beg + (varAt vars (vars.length - 1)).size ≤ offset →
    offset - ((varAt vars (vars.length - 1)).beg + (varAt vars (vars.length - 1)).size) ≤
      2^64 - 1 - (offset + accessSize)

variable (vars offset accessSize i) in
/-- The access meets no variable, and none is nearer than this one. -/
def Nearest : Prop :=
  (∀ j < vars.length, ¬ (varAt vars j).Meets offset (offset + accessSize)) ∧
    ∀ j < vars.length, ¬ (varAt vars j).dist offset (offset + accessSize) <
      (varAt vars i).dist offset (offset + accessSize)

/-- A variable before the access is the nearest when it is nearer than the next one. -/
theorem IsFrame.nearest_before (h : IsFrame vars) (hi : i < vars.length)
    (hover : (varAt vars i).beg + (varAt vars i).size ≤ offset) :
    Nearest vars offset accessSize i ↔ (i + 1 < vars.length →
      offset + accessSize ≤ (varAt vars (i + 1)).beg ∧
        offset - ((varAt vars i).beg + (varAt vars i).size) ≤
          (varAt vars (i + 1)).beg - (offset + accessSize)) := by
  constructor
  · rintro ⟨hmeets, hdist⟩ hnext
    have hmeets := hmeets (i + 1) hnext
    have hdist := hdist (i + 1) hnext
    have hle := h.le (show i < i + 1 by omega) hnext
    have hsize := h.size_pos _ (varAt_mem hnext)
    unfold StackVarDescr.Meets at hmeets
    unfold StackVarDescr.dist at hdist
    omega
  · intro hgap
    -- The others are on one side of this one or of the next one.
    have hall : ∀ j < vars.length, ¬ (varAt vars j).Meets offset (offset + accessSize) ∧
        (varAt vars i).dist offset (offset + accessSize) ≤
          (varAt vars j).dist offset (offset + accessSize) := by
      intro j hj
      rcases Nat.lt_or_ge i j with hlt | hge
      · obtain ⟨hend, hnear⟩ := hgap (by omega)
        obtain ⟨hmeets, hdist⟩ := h.behind hj hend hlt
        refine ⟨hmeets, le_trans ?_ hdist⟩
        unfold StackVarDescr.dist
        omega
      · exact h.before hi hover hge
    exact ⟨fun j hj => (hall j hj).1, fun j hj => Nat.not_lt.mpr (hall j hj).2⟩

/-- A variable behind the access is the nearest when it is nearer than the one before it. -/
theorem IsFrame.nearest_behind (h : IsFrame vars) (hi : i < vars.length)
    (hunder : offset + accessSize ≤ (varAt vars i).beg) :
    Nearest vars offset accessSize i ↔ (i ≠ 0 →
      (varAt vars (i - 1)).beg + (varAt vars (i - 1)).size ≤ offset ∧
        (varAt vars i).beg - (offset + accessSize) ≤
          offset - ((varAt vars (i - 1)).beg + (varAt vars (i - 1)).size)) := by
  constructor
  · rintro ⟨hmeets, hdist⟩ h0
    have hprev : i - 1 < vars.length := by omega
    have hmeets := hmeets (i - 1) hprev
    have hdist := hdist (i - 1) hprev
    have hle := h.le (show i - 1 < i by omega) hi
    have hsize := h.size_pos _ (varAt_mem hi)
    have hsize' := h.size_pos _ (varAt_mem hprev)
    unfold StackVarDescr.Meets at hmeets
    unfold StackVarDescr.dist at hdist
    omega
  · intro hgap
    have hall : ∀ j < vars.length, ¬ (varAt vars j).Meets offset (offset + accessSize) ∧
        (varAt vars i).dist offset (offset + accessSize) ≤
          (varAt vars j).dist offset (offset + accessSize) := by
      intro j hj
      rcases Nat.lt_or_ge j i with hlt | hge
      · obtain ⟨hend, hnear⟩ := hgap (by omega)
        obtain ⟨hmeets, hdist⟩ : ¬ (varAt vars j).Meets offset (offset + accessSize) ∧
            (varAt vars (i - 1)).dist offset (offset + accessSize) ≤
              (varAt vars j).dist offset (offset + accessSize) :=
          h.before (by omega) hend (Nat.le_sub_one_of_lt hlt)
        refine ⟨hmeets, le_trans ?_ hdist⟩
        unfold StackVarDescr.dist
        omega
      · exact h.behind hj hunder hge
    exact ⟨fun j hj => (hall j hj).1, fun j hj => Nat.not_lt.mpr (hall j hj).2⟩

/-- The marks of the variables that the access does not meet. -/
theorem mark_iff_of_not_meets (h : IsFrame vars) (hi : i < vars.length) (hpos : 0 < accessSize)
    (hoffset : offset + accessSize < 2^64) (hfar : EndsFar vars offset accessSize)
    (hmeets : ¬ (varAt vars i).Meets offset (offset + accessSize)) :
    mark vars offset accessSize i ≠ none ↔ Nearest vars offset accessSize i := by
  unfold StackVarDescr.Meets at hmeets
  rcases Nat.lt_or_ge offset ((varAt vars i).beg + (varAt vars i).size) with hlt | hover
  · have hunder : offset + accessSize ≤ (varAt vars i).beg := by omega
    rw [mark_of_underflows h hi hpos hoffset hunder, h.nearest_behind hi hunder, prevVarEnd]
    rcases Nat.eq_zero_or_pos i with rfl | h0
    · have := hfar.first hunder
      simp [this]
    · have h0 : i ≠ 0 := h0.ne'
      rw [if_pos h0, h.varEnd_eq (by omega)]
      simp [h0]
  · rw [mark_of_overflows h hi hpos hoffset hover, h.nearest_before hi hover, nextVarBeg]
    by_cases hnext : i + 1 < vars.length
    · rw [if_pos hnext]
      simp [hnext]
    · obtain rfl : i = vars.length - 1 := by omega
      have := hfar.last hover
      rw [if_neg hnext]
      simp [hnext]
      omega

theorem holds_of_not_meets (h : IsFrame vars) (hi : i < vars.length) (hpos : 0 < accessSize)
    (hoffset : offset + accessSize < 2^64)
    (hmeets : ¬ (varAt vars i).Meets offset (offset + accessSize)) {p : Position}
    (hp : mark vars offset accessSize i = some p) :
    p.Holds offset (offset + accessSize) (varAt vars i).beg ((varAt vars i).beg + (varAt vars i).size) := by
  unfold StackVarDescr.Meets at hmeets
  rcases Nat.lt_or_ge offset ((varAt vars i).beg + (varAt vars i).size) with hlt | hover
  · have hunder : offset + accessSize ≤ (varAt vars i).beg := by omega
    rw [mark_of_underflows h hi hpos hoffset hunder] at hp
    split_ifs at hp
    cases hp
    exact hunder
  · rw [mark_of_overflows h hi hpos hoffset hover] at hp
    split_ifs at hp
    cases hp
    exact hover

end

/-! ## The result -/

/-- The marks are right just when the access is not nearer to the start of the frame than to a first
variable behind it, and the same at the end of the address space. -/
theorem stackAddress_iff (vars : List StackVarDescr) (offset accessSize : ℕ) (h : IsFrame vars)
    (hpos : 0 < accessSize) (hoffset : offset + accessSize < 2^64) :
    MarksNearest vars offset accessSize ↔ EndsFar vars offset accessSize := by
  have hlen : 0 < vars.length := List.length_pos_iff.mpr h.ne_nil
  constructor
  · intro hmarks
    refine ⟨fun hunder => ?_, fun hover => ?_⟩
    · have hmark := (hmarks.mark_iff 0 hlen).mpr
        (.inr ((h.nearest_behind hlen hunder).mpr fun h0 => absurd rfl h0))
      rw [mark_of_underflows h hlen hpos hoffset hunder] at hmark
      rw [prevVarEnd, if_neg (not_not.mpr rfl), ite_ne_right_iff] at hmark
      exact hmark.1.2
    · have hlast : vars.length - 1 < vars.length := by omega
      have hmark := (hmarks.mark_iff _ hlast).mpr
        (.inr ((h.nearest_before hlast hover).mpr fun hnext => absurd hnext (by omega)))
      rw [mark_of_overflows h hlast hpos hoffset hover, nextVarBeg,
        if_neg (show ¬ vars.length - 1 + 1 < vars.length by omega), ite_ne_right_iff] at hmark
      exact hmark.1.2
  · intro hfar
    refine ⟨?_, fun i hi => ?_, fun i hi p hp => ?_⟩
    · -- A variable that the access meets, or one that is nearest to it.
      by_cases hmeets : ∃ i < vars.length, (varAt vars i).Meets offset (offset + accessSize)
      · obtain ⟨i, hi, hmeets⟩ := hmeets
        obtain ⟨p, hp, -⟩ := mark_of_meets h hi hoffset hmeets
        exact ⟨i, hi, by rw [hp]; nofun⟩
      · obtain ⟨i, hi, hmin⟩ := (Finset.range vars.length).exists_min_image
          (fun i => (varAt vars i).dist offset (offset + accessSize)) ⟨0, Finset.mem_range.mpr hlen⟩
        have hi := Finset.mem_range.mp hi
        have hnone : ∀ j < vars.length, ¬ (varAt vars j).Meets offset (offset + accessSize) :=
          fun j hj hj' => hmeets ⟨j, hj, hj'⟩
        refine ⟨i, hi, (mark_iff_of_not_meets h hi hpos hoffset hfar (hnone i hi)).mpr ⟨hnone, ?_⟩⟩
        exact fun j hj => Nat.not_lt.mpr (hmin j (Finset.mem_range.mpr hj))
    · by_cases hmeets : (varAt vars i).Meets offset (offset + accessSize)
      · obtain ⟨p, hp, -⟩ := mark_of_meets h hi hoffset hmeets
        exact ⟨fun _ => .inl hmeets, fun _ => by rw [hp]; nofun⟩
      · rw [mark_iff_of_not_meets h hi hpos hoffset hfar hmeets]
        exact ⟨.inr, fun h => h.resolve_left hmeets⟩
    · by_cases hmeets : (varAt vars i).Meets offset (offset + accessSize)
      · obtain ⟨p', hp', hholds⟩ := mark_of_meets h hi hoffset hmeets
        obtain rfl := Option.some.inj (hp.symm.trans hp')
        exact hholds
      · exact holds_of_not_meets h hi hpos hoffset hmeets hp

/-- A frame with one variable, behind a redzone. -/
def oneVar : List StackVarDescr := [⟨32, 8, ['x'], 1, 0⟩]

theorem isFrame_oneVar : IsFrame oneVar where
  ne_nil := List.cons_ne_nil _ _
  size_pos := by decide
  lt := by decide
  sorted := List.pairwise_singleton _ _

/-- An access right behind the variable. -/
theorem stackAddress_iff_overflow : MarksNearest oneVar 40 1 :=
  (stackAddress_iff oneVar 40 1 isFrame_oneVar (by decide) (by decide)).mpr ⟨by decide, by decide⟩

/-- An access at the start of the frame has no mark. -/
theorem stackAddress_start : ¬ MarksNearest oneVar 0 1 := by
  rintro ⟨⟨i, hi, hmark⟩, -, -⟩
  obtain rfl : i = 0 := Nat.lt_one_iff.mp hi
  exact hmark (by decide)

end Tasan.Asan
