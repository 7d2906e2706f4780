import Mathlib.Data.BitVec
import Mathlib.Tactic

/-!
# The class hierarchy behind a vptr

`isDerivedFromAtOffset` and `findBaseAtOffset` of `ubsan_type_hash_itanium.cpp` walk the type information of a
class, as the Itanium ABI lays it down, to tell which base classes have a subobject at an offset. Where an
object's subobjects really lie is said by `SubobjectAt`: a base lies at its offset in the class that has it, and
a virtual base wherever the complete object has it. `typeHash_spec` compares the two.

A path that the walk cuts off would be a report of a good object. It is cut off at a class of the name that is
looked for, below which an acyclic hierarchy has no other of the name, and at a virtual base, where the answer
is yes.
-/

namespace Tasan.Ubsan

/-- `sptr` and `long`. -/
abbrev Word := BitVec 64

/-! ## Type information -/

/-- A `type_info` object of a class, whose name says which class it is. -/
inductive TypeInfo (Name : Type)
  /-- `__class_type_info`, of a class without bases. -/
  | classType (name : Name)
  /-- `__si_class_type_info`, of a class with one base, which is public, not virtual and at offset zero. -/
  | si (name : Name) (baseType : TypeInfo Name)
  /-- `__vmi_class_type_info`, whose `base_info` has `__offset_flags` and `__base_type` of each base. -/
  | vmi (name : Name) (baseInfo : List (Word × TypeInfo Name))

variable {Name : Type}

/-- `name()`. -/
def TypeInfo.name : TypeInfo Name → Name
  | .classType name => name
  | .si name _ => name
  | .vmi name _ => name

/-- `__offset_flags >> __offset_shift`. -/
def offsetHere (offsetFlags : Word) : Word := offsetFlags.sshiftRight 8

/-- `__offset_flags & __virtual_mask`. -/
def isVirtual (offsetFlags : Word) : Bool := offsetFlags &&& 1 ≠ 0

section

variable [DecidableEq Name]

mutual

/-- `isDerivedFromAtOffset`. -/
def isDerivedFromAtOffset (derived base : TypeInfo Name) (offset : Word) : Bool :=
  if derived.name = base.name then offset = 0
  else
    match derived with
    | .classType _ => false
    | .si _ baseType => isDerivedFromAtOffset baseType base offset
    | .vmi _ baseInfo => isDerivedFromAny baseInfo base offset

/-- The loop over `base_info`. -/
def isDerivedFromAny (baseInfo : List (Word × TypeInfo Name)) (base : TypeInfo Name) (offset : Word) : Bool :=
  match baseInfo with
  | [] => false
  | (offsetFlags, baseType) :: rest =>
    if isVirtual offsetFlags then true
    else if isDerivedFromAtOffset baseType base (offset - offsetHere offsetFlags) then true
    else isDerivedFromAny rest base offset

end

end

mutual

/-- `findBaseAtOffset`. -/
def findBaseAtOffset (derived : TypeInfo Name) (offset : Word) : Option (TypeInfo Name) :=
  if offset = 0 then some derived
  else
    match derived with
    | .classType _ => none
    | .si _ baseType => findBaseAtOffset baseType offset
    | .vmi _ baseInfo => findBaseAmong baseInfo offset

/-- The loop over `base_info`. -/
def findBaseAmong (baseInfo : List (Word × TypeInfo Name)) (offset : Word) : Option (TypeInfo Name) :=
  match baseInfo with
  | [] => none
  | (offsetFlags, baseType) :: rest =>
    if isVirtual offsetFlags then findBaseAmong rest offset
    else
      match findBaseAtOffset baseType (offset - offsetHere offsetFlags) with
      | some base => some base
      | none => findBaseAmong rest offset

end

/-! ## Hierarchies -/

/-- The bases of a class with their offset flags. A single base is at offset zero. -/
def TypeInfo.bases : TypeInfo Name → List (Word × TypeInfo Name)
  | .classType _ => []
  | .si _ baseType => [(0, baseType)]
  | .vmi _ baseInfo => baseInfo

/-- A class has a base. -/
def DirectBase (t b : TypeInfo Name) : Prop := ∃ offsetFlags, (offsetFlags, b) ∈ t.bases

/-- No class is above one of its own name. -/
def TypeInfo.Acyclic (t : TypeInfo Name) : Prop :=
  ∀ u, Relation.ReflTransGen DirectBase t u → ∀ c, Relation.TransGen DirectBase u c → c.name ≠ u.name

/-- No class inherits virtually. -/
def TypeInfo.NoVirtual (t : TypeInfo Name) : Prop :=
  ∀ u, Relation.ReflTransGen DirectBase t u → ∀ e ∈ u.bases, isVirtual e.1 = false

/-- A class with its hierarchy, in which no class is its own base. -/
structure ClassType (Name : Type) where
  /-- The type information. -/
  info : TypeInfo Name
  /-- The hierarchy is acyclic. -/
  acyclic : info.Acyclic

/-- A path of inheritance that is not virtual, with the sum of its offsets. -/
inductive Path : TypeInfo Name → TypeInfo Name → Word → Prop
  /-- The empty path. -/
  | refl (t) : Path t t 0
  /-- A path that begins with a base. -/
  | step {t b c offsetFlags offset} (hbase : (offsetFlags, b) ∈ t.bases)
    (hvirtual : isVirtual offsetFlags = false) (htail : Path b c offset) :
    Path t c (offsetHere offsetFlags + offset)

/-- Where the subobjects of an object lie, whose virtual bases lie at the given offsets. -/
inductive SubobjectAt (virtualBases : Name → Word) (t : TypeInfo Name) : TypeInfo Name → Word → Prop
  /-- The object itself. -/
  | whole : SubobjectAt virtualBases t t 0
  /-- A base that is not virtual lies at its offset. -/
  | base {u b offsetFlags offset} (hobject : SubobjectAt virtualBases t u offset)
    (hbase : (offsetFlags, b) ∈ u.bases) (hvirtual : isVirtual offsetFlags = false) :
    SubobjectAt virtualBases t b (offset + offsetHere offsetFlags)
  /-- A virtual base lies where the object has it. -/
  | virtualBase {u b offsetFlags offset} (hobject : SubobjectAt virtualBases t u offset)
    (hbase : (offsetFlags, b) ∈ u.bases) (hvirtual : isVirtual offsetFlags = true) :
    SubobjectAt virtualBases t b (virtualBases b.name)

theorem sizeOf_lt_of_mem_bases {t : TypeInfo Name} {e : Word × TypeInfo Name} (h : e ∈ t.bases) :
    sizeOf e.2 < sizeOf t := by
  rcases t with name | ⟨name, baseType⟩ | ⟨name, baseInfo⟩
  · simp [TypeInfo.bases] at h
  · rw [TypeInfo.bases, List.mem_singleton] at h
    subst h
    simp
  · have := List.sizeOf_lt_of_mem (show e ∈ baseInfo from h)
    rcases e with ⟨flags, b⟩
    simp only [Prod.mk.sizeOf_spec, TypeInfo.vmi.sizeOf_spec] at this ⊢
    omega

theorem TypeInfo.induction_bases {motive : TypeInfo Name → Prop}
    (h : ∀ t, (∀ e ∈ t.bases, motive e.2) → motive t) (t : TypeInfo Name) : motive t := by
  induction hn : sizeOf t using Nat.strong_induction_on generalizing t with
  | _ n ih =>
    subst hn
    exact h t fun e he => ih _ (sizeOf_lt_of_mem_bases he) e.2 rfl

theorem TypeInfo.Acyclic.of_base {t b : TypeInfo Name} (h : t.Acyclic) (hb : DirectBase t b) :
    b.Acyclic :=
  fun u hu => h u (Relation.ReflTransGen.head hb hu)

theorem TypeInfo.NoVirtual.of_base {t b : TypeInfo Name} (h : t.NoVirtual) (hb : DirectBase t b) :
    b.NoVirtual :=
  fun u hu => h u (Relation.ReflTransGen.head hb hu)

theorem TypeInfo.Acyclic.name_ne {t b c : TypeInfo Name} (h : t.Acyclic) (hb : DirectBase t b)
    (hc : Relation.ReflTransGen DirectBase b c) : c.name ≠ t.name :=
  h t .refl c (Relation.TransGen.head' hb hc)

theorem TypeInfo.acyclic_of_rank (rank : Name → ℕ) {t : TypeInfo Name}
    (h : ∀ u, Relation.ReflTransGen DirectBase t u → ∀ b, DirectBase u b → rank b.name < rank u.name) :
    t.Acyclic := by
  intro u hu c hc
  have hlt : rank c.name < rank u.name := by
    induction hc with
    | single hb => exact h u hu _ hb
    | tail hc hb ih => exact (h _ (hu.trans hc.to_reflTransGen) _ hb).trans ih
  intro heq
  rw [heq] at hlt
  exact lt_irrefl _ hlt

/-! ## Paths and subobjects -/

theorem Path.above {t c : TypeInfo Name} {offset : Word} (h : Path t c offset) :
    Relation.ReflTransGen DirectBase t c := by
  induction h with
  | refl t => exact .refl
  | step hbase _ _ ih => exact Relation.ReflTransGen.head ⟨_, hbase⟩ ih

theorem Path.snoc {t u b : TypeInfo Name} {offset offsetFlags : Word} (h : Path t u offset)
    (hbase : (offsetFlags, b) ∈ u.bases) (hvirtual : isVirtual offsetFlags = false) :
    Path t b (offset + offsetHere offsetFlags) := by
  induction h with
  | refl t =>
    have := Path.step hbase hvirtual (.refl b)
    rwa [add_comm] at this
  | step hfirst hnot _ ih =>
    rw [add_assoc]
    exact .step hfirst hnot (ih hbase)

/-- Without virtual inheritance, the subobjects lie at the ends of the paths. -/
theorem subobjectAt_iff_path {virtualBases : Name → Word} {t c : TypeInfo Name} {offset : Word}
    (ht : t.NoVirtual) : SubobjectAt virtualBases t c offset ↔ Path t c offset := by
  constructor
  · intro h
    induction h with
    | whole => exact .refl t
    | base _ hbase hvirtual ih => exact ih.snoc hbase hvirtual
    | virtualBase _ hbase hvirtual ih =>
      rw [ht _ ih.above _ hbase] at hvirtual
      exact Bool.noConfusion hvirtual
  · intro h
    -- The subobjects are found from the front of the path on.
    have hgen : ∀ {u c : TypeInfo Name} {o : Word}, Path u c o → ∀ {o' : Word},
        SubobjectAt virtualBases t u o' → SubobjectAt virtualBases t c (o' + o) := by
      intro u c o hpath
      induction hpath with
      | refl u =>
        intro o' hu
        rwa [add_zero]
      | step hbase hvirtual _ ih =>
        intro o' hu
        rw [← add_assoc]
        exact ih (hu.base hbase hvirtual)
    have := hgen h .whole
    rwa [zero_add] at this

theorem SubobjectAt.cases_path {virtualBases : Name → Word} {t c : TypeInfo Name} {offset : Word}
    (h : SubobjectAt virtualBases t c offset) :
    Path t c offset ∨ ∃ u o offsetFlags b, Path t u o ∧ (offsetFlags, b) ∈ u.bases ∧
      isVirtual offsetFlags = true ∧ Relation.ReflTransGen DirectBase b c := by
  induction h with
  | whole => exact Or.inl (.refl t)
  | base _ hbase hvirtual ih =>
    rcases ih with hpath | ⟨u, o, flags, v, hpath, hv, hvirtual', habove⟩
    · exact Or.inl (hpath.snoc hbase hvirtual)
    · exact Or.inr ⟨u, o, flags, v, hpath, hv, hvirtual', habove.tail ⟨_, hbase⟩⟩
  | virtualBase _ hbase hvirtual ih =>
    rcases ih with hpath | ⟨u, o, flags, v, hpath, hv, hvirtual', habove⟩
    · exact Or.inr ⟨_, _, _, _, hpath, hbase, hvirtual, .refl⟩
    · exact Or.inr ⟨u, o, flags, v, hpath, hv, hvirtual', habove.tail ⟨_, hbase⟩⟩

/-! ## The walks -/

theorem isDerivedFromAny_eq [DecidableEq Name] (l : List (Word × TypeInfo Name)) (base : TypeInfo Name)
    (offset : Word) :
    isDerivedFromAny l base offset =
      l.any fun e => isVirtual e.1 || isDerivedFromAtOffset e.2 base (offset - offsetHere e.1) := by
  induction l with
  | nil => simp [isDerivedFromAny]
  | cons e l ih =>
    rcases e with ⟨flags, b⟩
    rw [isDerivedFromAny, ih, List.any_cons]
    split_ifs with h1 h2
    · simp [h1]
    · simp [h2]
    · simp [h1, h2]

theorem isVirtual_zero : isVirtual 0#64 = false := by decide

theorem offsetHere_zero : offsetHere 0#64 = 0#64 := by decide

theorem isDerivedFromAtOffset_of_ne [DecidableEq Name] {t base : TypeInfo Name}
    (h : t.name ≠ base.name) (offset : Word) :
    isDerivedFromAtOffset t base offset =
      t.bases.any fun e => isVirtual e.1 || isDerivedFromAtOffset e.2 base (offset - offsetHere e.1) := by
  rcases t with name | ⟨name, baseType⟩ | ⟨name, baseInfo⟩
  · rw [isDerivedFromAtOffset, if_neg h]
    rfl
  · rw [isDerivedFromAtOffset, if_neg h]
    simp [TypeInfo.bases, isVirtual_zero, offsetHere_zero]
  · rw [isDerivedFromAtOffset, if_neg h]
    exact isDerivedFromAny_eq baseInfo base offset

theorem isDerivedFromAtOffset_of_eq [DecidableEq Name] {t base : TypeInfo Name}
    (h : t.name = base.name) (offset : Word) :
    isDerivedFromAtOffset t base offset = decide (offset = 0) := by
  rcases t with name | ⟨name, baseType⟩ | ⟨name, baseInfo⟩ <;> rw [isDerivedFromAtOffset, if_pos h]

theorem findBaseAmong_eq (l : List (Word × TypeInfo Name)) (offset : Word) :
    findBaseAmong l offset = l.findSome? fun e =>
      if isVirtual e.1 then none else findBaseAtOffset e.2 (offset - offsetHere e.1) := by
  induction l with
  | nil => simp [findBaseAmong]
  | cons e l ih =>
    rcases e with ⟨flags, b⟩
    rw [findBaseAmong, ih, List.findSome?_cons]
    dsimp only
    split_ifs with h
    · rfl
    · rcases findBaseAtOffset b (offset - offsetHere flags) with _ | base <;> rfl

theorem findBaseAtOffset_zero (t : TypeInfo Name) : findBaseAtOffset t 0 = some t := by
  rcases t with name | ⟨name, baseType⟩ | ⟨name, baseInfo⟩ <;> rw [findBaseAtOffset, if_pos rfl]

theorem findBaseAtOffset_of_ne (t : TypeInfo Name) {offset : Word} (h : offset ≠ 0) :
    findBaseAtOffset t offset = t.bases.findSome? fun e =>
      if isVirtual e.1 then none else findBaseAtOffset e.2 (offset - offsetHere e.1) := by
  rcases t with name | ⟨name, baseType⟩ | ⟨name, baseInfo⟩
  · rw [findBaseAtOffset, if_neg h]
    rfl
  · rw [findBaseAtOffset, if_neg h]
    rcases hb : findBaseAtOffset baseType offset with _ | b <;>
      simp [TypeInfo.bases, isVirtual_zero, offsetHere_zero, hb]
  · rw [findBaseAtOffset, if_neg h]
    exact findBaseAmong_eq baseInfo offset

section

variable [DecidableEq Name]

theorem isDerivedFromAtOffset_of_path {t c base : TypeInfo Name} {offset : Word} (h : Path t c offset)
    (hname : c.name = base.name) (ht : t.Acyclic) : isDerivedFromAtOffset t base offset = true := by
  induction h with
  | refl t =>
    rw [isDerivedFromAtOffset_of_eq hname]
    rfl
  | @step t b c flags offset hbase hvirtual htail ih =>
    -- The class has another name than one that is above it.
    have hne : t.name ≠ base.name := fun heq =>
      ht.name_ne ⟨flags, hbase⟩ htail.above (hname.trans heq.symm)
    rw [isDerivedFromAtOffset_of_ne hne, List.any_eq_true]
    refine ⟨(flags, b), hbase, ?_⟩
    dsimp only
    rw [add_sub_cancel_left, ih hname (ht.of_base ⟨flags, hbase⟩), Bool.or_true]

theorem isDerivedFromAtOffset_of_virtual {t u b c base : TypeInfo Name} {o flags : Word}
    (h : Path t u o) (hbase : (flags, b) ∈ u.bases) (hvirtual : isVirtual flags = true)
    (habove : Relation.ReflTransGen DirectBase b c) (hname : c.name = base.name) (ht : t.Acyclic)
    (offset : Word) : isDerivedFromAtOffset t base offset = true := by
  induction h generalizing offset with
  | refl u =>
    have hne : u.name ≠ base.name := fun heq => ht.name_ne ⟨flags, hbase⟩ habove (hname.trans heq.symm)
    rw [isDerivedFromAtOffset_of_ne hne, List.any_eq_true]
    exact ⟨(flags, b), hbase, by rw [hvirtual, Bool.true_or]⟩
  | @step t b' u flags' _ hbase' _ htail ih =>
    have hup : Relation.ReflTransGen DirectBase b' c :=
      htail.above.trans (Relation.ReflTransGen.head ⟨flags, hbase⟩ habove)
    have hne : t.name ≠ base.name := fun heq =>
      ht.name_ne ⟨flags', hbase'⟩ hup (hname.trans heq.symm)
    rw [isDerivedFromAtOffset_of_ne hne, List.any_eq_true]
    refine ⟨(flags', b'), hbase', ?_⟩
    rw [ih hbase (ht.of_base ⟨flags', hbase'⟩), Bool.or_true]

theorem isDerivedFromAtOffset_of_subobjectAt {virtualBases : Name → Word} {t c base : TypeInfo Name}
    {offset : Word} (h : SubobjectAt virtualBases t c offset) (hname : c.name = base.name)
    (ht : t.Acyclic) : isDerivedFromAtOffset t base offset = true := by
  rcases h.cases_path with hpath | ⟨u, o, flags, b, hpath, hbase, hvirtual, habove⟩
  · exact isDerivedFromAtOffset_of_path hpath hname ht
  · exact isDerivedFromAtOffset_of_virtual hpath hbase hvirtual habove hname ht offset

theorem path_of_isDerivedFromAtOffset {t base : TypeInfo Name} (ht : t.NoVirtual) {offset : Word}
    (h : isDerivedFromAtOffset t base offset = true) :
    ∃ c, Path t c offset ∧ c.name = base.name := by
  induction t using TypeInfo.induction_bases generalizing offset with
  | h t ih =>
    by_cases hname : t.name = base.name
    · rw [isDerivedFromAtOffset_of_eq hname, decide_eq_true_eq] at h
      subst h
      exact ⟨t, .refl t, hname⟩
    · rw [isDerivedFromAtOffset_of_ne hname, List.any_eq_true] at h
      obtain ⟨⟨flags, b⟩, hb, hyes⟩ := h
      have hvirtual := ht t .refl (flags, b) hb
      rw [hvirtual, Bool.false_or] at hyes
      obtain ⟨c, hpath, hc⟩ := ih (flags, b) hb (ht.of_base ⟨flags, hb⟩) hyes
      have := Path.step hb hvirtual hpath
      rw [add_sub_cancel] at this
      exact ⟨c, this, hc⟩

end

theorem path_of_findBaseAtOffset {t b : TypeInfo Name} {offset : Word}
    (h : findBaseAtOffset t offset = some b) : Path t b offset := by
  induction t using TypeInfo.induction_bases generalizing offset with
  | h t ih =>
    by_cases hzero : offset = 0
    · subst hzero
      rw [Option.some.inj (h.symm.trans (findBaseAtOffset_zero t))]
      exact .refl t
    · rw [findBaseAtOffset_of_ne t hzero] at h
      obtain ⟨⟨flags, v⟩, hv, hfound⟩ := List.exists_of_findSome?_eq_some h
      dsimp only at hfound
      split_ifs at hfound with hvirtual
      have := Path.step hv (Bool.eq_false_iff.mpr hvirtual) (ih (flags, v) hv hfound)
      rwa [add_sub_cancel] at this

theorem findBaseAtOffset_ne_none {t c : TypeInfo Name} {offset : Word} (h : Path t c offset) :
    findBaseAtOffset t offset ≠ none := by
  induction h with
  | refl t =>
    rw [findBaseAtOffset_zero]
    exact Option.some_ne_none t
  | @step t b c flags offset hbase hvirtual htail ih =>
    by_cases hzero : offsetHere flags + offset = 0
    · rw [hzero, findBaseAtOffset_zero]
      exact Option.some_ne_none t
    · rw [findBaseAtOffset_of_ne t hzero]
      intro hnone
      have := List.findSome?_eq_none_iff.mp hnone (flags, b) hbase
      rw [hvirtual] at this
      simp only [Bool.false_eq_true, if_false, add_sub_cancel_left] at this
      exact ih this

/-- Without virtual inheritance `isDerivedFromAtOffset` finds the paths and `findBaseAtOffset` the subobjects;
with it, no subobject of an object is denied. -/
theorem typeHash_spec [DecidableEq Name] (derived : ClassType Name) :
    (derived.info.NoVirtual → ∀ (base : TypeInfo Name) offset,
      (isDerivedFromAtOffset derived.info base offset = true ↔
        ∃ c, Path derived.info c offset ∧ c.name = base.name)) ∧
      (derived.info.NoVirtual → ∀ virtualBases offset,
        (findBaseAtOffset derived.info offset = none ↔
          ¬ ∃ c, SubobjectAt virtualBases derived.info c offset) ∧
        ∀ b, findBaseAtOffset derived.info offset = some b →
          isDerivedFromAtOffset derived.info b offset = true) ∧
      ∀ virtualBases c offset, SubobjectAt virtualBases derived.info c offset →
        ∀ base, c.name = base.name → isDerivedFromAtOffset derived.info base offset = true := by
  refine ⟨fun hno base offset => ⟨path_of_isDerivedFromAtOffset hno, fun ⟨c, hpath, hname⟩ =>
    isDerivedFromAtOffset_of_path hpath hname derived.acyclic⟩, fun hno virtualBases offset => ⟨?_,
    fun b hb => isDerivedFromAtOffset_of_path (path_of_findBaseAtOffset hb) rfl derived.acyclic⟩,
    fun virtualBases c offset h base hname =>
      isDerivedFromAtOffset_of_subobjectAt h hname derived.acyclic⟩
  constructor
  · rintro hnone ⟨c, hc⟩
    exact findBaseAtOffset_ne_none ((subobjectAt_iff_path hno).mp hc) hnone
  · intro hsub
    rcases hfound : findBaseAtOffset derived.info offset with _ | b
    · rfl
    · exact absurd ⟨b, (subobjectAt_iff_path hno).mpr (path_of_findBaseAtOffset hfound)⟩ hsub

/-- A class with two bases, the second of which is at offset eight. -/
def twoBases : TypeInfo ℕ := .vmi 2 [(0x002, .classType 0), (0x802, .classType 1)]

theorem twoBases_above {u : TypeInfo ℕ} (h : Relation.ReflTransGen DirectBase twoBases u) :
    u = twoBases ∨ u = .classType 0 ∨ u = .classType 1 := by
  induction h with
  | refl => exact Or.inl rfl
  | tail _ hb ih =>
    obtain ⟨flags, hb⟩ := hb
    rcases ih with rfl | rfl | rfl
    · simp only [twoBases, TypeInfo.bases, List.mem_cons, List.not_mem_nil, or_false, Prod.mk.injEq] at hb
      exact Or.inr (hb.imp And.right And.right)
    · simp [TypeInfo.bases] at hb
    · simp [TypeInfo.bases] at hb

/-- The class with two bases, as an acyclic one. -/
def twoBasesClass : ClassType ℕ where
  info := twoBases
  acyclic := by
    refine TypeInfo.acyclic_of_rank id fun u hu b ⟨flags, hb⟩ => ?_
    rcases twoBases_above hu with rfl | rfl | rfl
    · simp only [twoBases, TypeInfo.bases, List.mem_cons, List.not_mem_nil, or_false, Prod.mk.injEq] at hb
      rcases hb with ⟨-, rfl⟩ | ⟨-, rfl⟩ <;> decide
    · simp [TypeInfo.bases] at hb
    · simp [TypeInfo.bases] at hb

theorem twoBases_noVirtual : twoBases.NoVirtual := by
  intro u hu e he
  rcases twoBases_above hu with rfl | rfl | rfl
  · simp only [twoBases, TypeInfo.bases, List.mem_cons, List.not_mem_nil, or_false] at he
    rcases he with rfl | rfl <;> decide
  · simp [TypeInfo.bases] at he
  · simp [TypeInfo.bases] at he

/-- The second base is found at its offset and not at offset four. -/
theorem typeHash_spec_twoBases :
    isDerivedFromAtOffset twoBases (.classType 1) 8 = true ∧
      ¬ ∃ c, SubobjectAt (fun _ => 0) twoBases c 4 := by
  have hpath : Path twoBases (.classType 1) (offsetHere 0x802 + 0) :=
    .step (List.mem_cons_of_mem _ List.mem_cons_self) (by decide) (.refl _)
  exact ⟨((typeHash_spec twoBasesClass).1 twoBases_noVirtual (.classType 1) 8).mpr ⟨_, hpath, rfl⟩,
    (((typeHash_spec twoBasesClass).2.1 twoBases_noVirtual (fun _ => 0) 4).1).mp (by decide)⟩

end Tasan.Ubsan
