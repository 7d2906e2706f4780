import Mathlib.Data.BitVec
import Tasan.Sorting.HeapSort

/-!
# The dump of the covered addresses

`SanitizerDumpCoverage` of `sanitizer_coverage_libcdep_new.cpp` sorts the covered addresses, turns each one
into the offset in its module, in the array it came from, and writes a slice of the array to a file
whenever the base of the module changes. `sections` lists the slices without the array, and
`sanitizerDumpCoverage_eq` says that the loop writes just these.
-/

namespace Tasan.Coverage

/-- `uptr`. -/
abbrev Word := BitVec 64

/-! ## Modules -/

/-- The parts of a `LoadedModule` that are read here. -/
structure LoadedModule where
  fullName : List Char
  baseAddress : Word
  /-- `ranges`, of which each has its first address and the address after its last one. -/
  ranges : List (Word × Word)
  deriving DecidableEq

/-- `LoadedModule::containsAddress`. -/
def LoadedModule.containsAddress (mod : LoadedModule) (address : Word) : Bool :=
  mod.ranges.any fun r => r.1 ≤ address && address < r.2

/-- The offset of an address. -/
def LoadedModule.offset (mod : LoadedModule) (pc : Word) : Word := pc - mod.baseAddress

/-- `StripModuleName`. -/
def stripModuleName (name : List Char) : List Char :=
  (name.reverse.takeWhile (· ≠ '/')).reverse

/-- The modules of the process in the order of the search, where the base names are distinct and no module
wraps around the address space. -/
structure Layout where
  /-- The modules. -/
  modules : List LoadedModule
  /-- Two modules differ in their base names. -/
  distinct : ∀ a ∈ modules, ∀ b ∈ modules,
    stripModuleName a.fullName = stripModuleName b.fullName → a = b
  /-- The offsets of a module go up with the addresses. -/
  mono : ∀ a ∈ modules, ∀ pc pc', a.containsAddress pc → a.containsAddress pc' → pc ≤ pc' →
    a.offset pc ≤ a.offset pc'

/-- `SearchForModule`. -/
def searchForModule (modules : List LoadedModule) (address : Word) : Option LoadedModule :=
  modules.find? (·.containsAddress address)

/-- `GetModuleAndOffsetForPc`. -/
def getModuleAndOffsetForPc (L : Layout) (pc : Word) : Option (List Char × Word) :=
  (searchForModule L.modules pc).map fun mod => (mod.fullName, mod.offset pc)

/-! ## Files -/

/-- `Magic`. -/
def magic : Word := 0xC0BFFFFFFFFFFF64

/-- The files of the coverage directory. -/
structure Directory where
  /-- What a file holds. -/
  content : List Char → Option (List Word)
  /-- The paths that were written, in the order of the writes. -/
  written : List (List Char)

/-- `OpenFile` empties the file, and the words are then written to it. -/
def Directory.write (d : Directory) (path : List Char) (words : List Word) : Directory where
  content := Function.update d.content path (some words)
  written := d.written ++ [path]

/-- What the name of a coverage file depends on, besides the module. -/
structure Process where
  coverageDir : List Char
  /-- `internal_getpid()`. -/
  pid : ℕ

variable (P : Process) (L : Layout)

/-- `GetCoverageFilename`. -/
def getCoverageFilename (name extension : List Char) : List Char :=
  P.coverageDir ++ ['/'] ++ name ++ ['.'] ++ Nat.toDigits 10 P.pid ++ ['.'] ++ extension

/-- The file of a module name. -/
def coverageFile (moduleName : List Char) : List Char :=
  getCoverageFilename P (stripModuleName moduleName) ['s', 'a', 'n', 'c', 'o', 'v']

/-- `WriteModuleCoverage`. -/
def writeModuleCoverage (d : Directory) (moduleName : List Char) (pcs : List Word) : Directory :=
  d.write (coverageFile P moduleName) (magic :: pcs)

/-! ## The loop -/

/-- The variables of the loop. -/
structure State where
  pcs : List Word
  moduleFound : Bool
  lastBase : Word
  moduleStartIdx : ℕ
  moduleName : List Char
  /-- The files written so far. -/
  files : Directory

/-- `WriteModuleCoverage(file_path, module_name, &pcs[module_start_idx], i - module_start_idx)`, when a
module was found. -/
def State.flush (s : State) (i : ℕ) : Directory :=
  if s.moduleFound then
    writeModuleCoverage P s.files s.moduleName
      ((s.pcs.drop s.moduleStartIdx).take (i - s.moduleStartIdx))
  else s.files

/-- One round of the loop. -/
def dumpStep (s : State) (i : ℕ) : State :=
  let pc := s.pcs.getD i 0
  if pc = 0 then s
  else
    match getModuleAndOffsetForPc L pc with
    | none => s
    | some (name, offset) =>
      let s := { s with pcs := s.pcs.set i offset }
      let moduleBase := pc - offset
      if moduleBase ≠ s.lastBase ∨ s.moduleFound = false then
        { s with
          files := s.flush P i, lastBase := moduleBase, moduleStartIdx := i, moduleFound := true,
          moduleName := name }
      else s

/-- `CompareLess`. -/
def compareLess (a b : Word) : Bool := a < b

/-- `SanitizerDumpCoverage`. -/
def sanitizerDumpCoverage (files : Directory) (unsortedPcs : List Word) : Directory :=
  if unsortedPcs.length = 0 then files
  else
    let pcs := Sorting.sortList compareLess unsortedPcs
    let s := (List.range pcs.length).foldl (dumpStep P L) ⟨pcs, false, 0, 0, [], files⟩
    s.flush P pcs.length

/-! ## The slices -/

/-- The module of an address, which zero has not. -/
def Layout.moduleOf (pc : Word) : Option LoadedModule :=
  if pc = 0 then none else searchForModule L.modules pc

/-- What the loop leaves in the place of an address. -/
def Layout.rewritten (pc : Word) : Word := (L.moduleOf pc).elim pc (·.offset pc)

/-- The slices that are written from a slice on that was begun in a module. -/
def sectionsFrom : LoadedModule → List Word → List Word → List (LoadedModule × List Word)
  | mod, slice, [] => [(mod, slice)]
  | mod, slice, pc :: rest =>
    match L.moduleOf pc with
    | none => sectionsFrom mod (slice ++ [pc]) rest
    | some mod' =>
      if mod'.baseAddress = mod.baseAddress then sectionsFrom mod (slice ++ [mod'.offset pc]) rest
      else (mod, slice) :: sectionsFrom mod' [mod'.offset pc] rest

/-- The slices that are written, each with the module whose file it goes to. -/
def sections : List Word → List (LoadedModule × List Word)
  | [] => []
  | pc :: rest =>
    match L.moduleOf pc with
    | none => sections rest
    | some mod => sectionsFrom L mod [mod.offset pc] rest

/-- The slices written one after the other. -/
def writeSections (files : Directory) (slices : List (LoadedModule × List Word)) : Directory :=
  slices.foldl (fun d e => writeModuleCoverage P d e.1.fullName e.2) files

variable {P L}

theorem sub_offset (mod : LoadedModule) (pc : Word) : pc - mod.offset pc = mod.baseAddress :=
  sub_sub_cancel pc mod.baseAddress

theorem dumpStep_none {s : State} {i : ℕ} (h : L.moduleOf (s.pcs.getD i 0) = none) :
    dumpStep P L s i = s := by
  unfold Layout.moduleOf at h
  unfold dumpStep getModuleAndOffsetForPc
  dsimp only
  split_ifs at h ⊢ with h0
  · rfl
  · rw [h]
    rfl

theorem dumpStep_some {s : State} {i : ℕ} {mod : LoadedModule}
    (h : L.moduleOf (s.pcs.getD i 0) = some mod) :
    dumpStep P L s i =
      if mod.baseAddress ≠ s.lastBase ∨ s.moduleFound = false then
        { s with
          pcs := s.pcs.set i (mod.offset (s.pcs.getD i 0))
          files := { s with pcs := s.pcs.set i (mod.offset (s.pcs.getD i 0)) }.flush P i
          lastBase := mod.baseAddress, moduleStartIdx := i, moduleFound := true
          moduleName := mod.fullName }
      else { s with pcs := s.pcs.set i (mod.offset (s.pcs.getD i 0)) } := by
  unfold Layout.moduleOf at h
  unfold dumpStep getModuleAndOffsetForPc
  dsimp only
  split_ifs at h with h0
  rw [if_neg h0, h]
  dsimp only [Option.map_some]
  rw [sub_offset]

theorem getD_middle (front rest : List Word) (pc : Word) :
    (front ++ pc :: rest).getD front.length 0 = pc := by
  simp

theorem set_middle (front rest : List Word) (pc offset : Word) :
    (front ++ pc :: rest).set front.length offset = front ++ offset :: rest := by
  simp

/-- The rounds from a begun slice on write the slices that `sectionsFrom` lists. In the array, the slice lies
between what was written before it and what is still to come. -/
theorem loop_sectionsFrom (mod : LoadedModule) (front slice rest : List Word) (files : Directory) :
    ((List.range' (front.length + slice.length) rest.length).foldl (dumpStep P L)
      ⟨front ++ slice ++ rest, true, mod.baseAddress, front.length, mod.fullName, files⟩).flush P
        (front.length + slice.length + rest.length) =
      writeSections P files (sectionsFrom L mod slice rest) := by
  induction rest generalizing mod front slice files with
  | nil => simp [State.flush, sectionsFrom, writeSections]
  | cons pc rest ih =>
    have hpc : (front ++ slice ++ pc :: rest).getD (front.length + slice.length) 0 = pc := by
      rw [← List.length_append]
      exact getD_middle (front ++ slice) rest pc
    have hset : ∀ offset : Word, (front ++ slice ++ pc :: rest).set (front.length + slice.length) offset =
        front ++ slice ++ offset :: rest := fun offset => by
      rw [← List.length_append]
      exact set_middle (front ++ slice) rest pc offset
    have hlen : front.length + slice.length + (pc :: rest).length =
        front.length + slice.length + 1 + rest.length := by
      rw [List.length_cons]
      omega
    rw [List.length_cons, List.range'_succ, List.foldl_cons]
    rcases hmod : L.moduleOf pc with _ | mod'
    · rw [dumpStep_none (by rw [hpc]; exact hmod)]
      have hslice := ih mod front (slice ++ [pc]) files
      simp only [List.length_append, List.length_singleton, List.append_assoc, List.singleton_append]
        at hslice
      rw [sectionsFrom, hmod, ← hslice]
      simp only [Nat.add_assoc, Nat.add_comm 1, List.append_assoc]
    · have hmod' : L.moduleOf ((front ++ slice ++ pc :: rest).getD (front.length + slice.length) 0) =
          some mod' := by rw [hpc, hmod]
      rw [dumpStep_some hmod']
      dsimp only
      rw [hpc, hset, sectionsFrom, hmod]
      dsimp only
      by_cases hbase : mod'.baseAddress = mod.baseAddress
      · rw [if_neg (by simp [hbase]), if_pos hbase, ← ih mod front (slice ++ [mod'.offset pc]) files]
        simp only [List.length_append, List.length_singleton, List.append_assoc, List.singleton_append,
          Nat.add_assoc, Nat.add_comm 1]
      · rw [if_pos (Or.inl hbase), if_neg hbase]
        -- The slice is written, and the next one begins at this address.
        have hflush : State.flush P ⟨front ++ slice ++ mod'.offset pc :: rest, true, mod.baseAddress,
            front.length, mod.fullName, files⟩ (front.length + slice.length) =
              writeModuleCoverage P files mod.fullName slice := by
          simp [State.flush, List.append_assoc]
        have hnext := ih mod' (front ++ slice) [mod'.offset pc]
          (writeModuleCoverage P files mod.fullName slice)
        rw [hflush]
        unfold writeSections at hnext ⊢
        rw [List.foldl_cons, ← hnext]
        simp only [List.length_append, List.length_singleton, List.append_assoc, List.singleton_append,
          Nat.add_assoc, Nat.add_comm 1]

/-- Before the first module is found, the rounds only walk on. -/
theorem loop_sections (front rest : List Word) (files : Directory) :
    ((List.range' front.length rest.length).foldl (dumpStep P L)
      ⟨front ++ rest, false, 0, 0, [], files⟩).flush P (front.length + rest.length) =
      writeSections P files (sections L rest) := by
  induction rest generalizing front with
  | nil => rfl
  | cons pc rest ih =>
    rw [List.length_cons, List.range'_succ, List.foldl_cons, sections]
    rcases hmod : L.moduleOf pc with _ | mod
    · rw [dumpStep_none (by rw [getD_middle]; exact hmod)]
      have hrest := ih (front ++ [pc])
      simp only [List.length_append, List.length_singleton, List.append_assoc, List.singleton_append]
        at hrest
      dsimp only
      rw [← hrest]
      simp only [Nat.add_assoc, Nat.add_comm 1]
    · have hmod' : L.moduleOf ((front ++ pc :: rest).getD front.length 0) = some mod := by
        rw [getD_middle, hmod]
      rw [dumpStep_some hmod', if_pos (Or.inr rfl)]
      dsimp only
      rw [getD_middle, set_middle]
      have hfrom := loop_sectionsFrom (P := P) (L := L) mod front [mod.offset pc] rest files
      simp only [List.length_singleton, List.append_assoc, List.singleton_append] at hfrom
      rw [← hfrom]
      simp only [State.flush, Nat.add_assoc, Nat.add_comm 1, Bool.false_eq_true, if_false]

theorem sanitizerDumpCoverage_eq (files : Directory) (pcs : List Word) :
    sanitizerDumpCoverage P L files pcs =
      writeSections P files (sections L (Sorting.sortList compareLess pcs)) := by
  unfold sanitizerDumpCoverage
  split_ifs with h
  · rw [List.length_eq_zero_iff] at h
    subst h
    rfl
  · have hloop := loop_sections (P := P) (L := L) [] (Sorting.sortList compareLess pcs) files
    rw [List.length_nil, Nat.zero_add, List.nil_append, ← List.range_eq_range'] at hloop
    exact hloop

end Tasan.Coverage
