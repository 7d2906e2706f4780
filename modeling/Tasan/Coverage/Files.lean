import Tasan.Coverage.Tidy

/-!
# What the dumps leave

A dump should leave, for each module with a covered address, one file with the sorted offsets of the module's
addresses (`Dumped`). `dumped_iff` says that it does just when the addresses are tidy, and `dumps_iff` says
so for any sequence of dumps, between which modules may come and go.
-/

namespace Tasan.Coverage

variable {P : Process} {L : Layout}

/-! ## The purpose of a dump -/

/-- The sorted offsets of the addresses of a module. -/
def Layout.offsets (L : Layout) (mod : LoadedModule) (pcs : List Word) : List Word :=
  ((L.pcsOf mod pcs).map mod.offset).mergeSort (· ≤ ·)

/-- A dump wrote the file of each module with a covered address once, and the file now holds the sorted
offsets of the module's addresses. -/
def Dumped (P : Process) (L : Layout) (pcs : List Word) (before after : Directory) : Prop :=
  ∀ mod, (∃ pc ∈ pcs, L.moduleOf pc = some mod) →
    after.content (coverageFile P mod.fullName) = some (magic :: L.offsets mod pcs) ∧
    after.written.count (coverageFile P mod.fullName) =
      before.written.count (coverageFile P mod.fullName) + 1

/-! ## The files -/

theorem coverageFile_injective {a b : LoadedModule} (ha : a ∈ L.modules) (hb : b ∈ L.modules)
    (h : coverageFile P a.fullName = coverageFile P b.fullName) : a = b := by
  refine L.distinct a ha b hb ?_
  unfold coverageFile getCoverageFilename at h
  simpa using h

theorem mem_of_moduleOf {pc : Word} {mod : LoadedModule} (h : L.moduleOf pc = some mod) :
    mod ∈ L.modules := by
  unfold Layout.moduleOf searchForModule at h
  split_ifs at h
  exact List.mem_of_find?_eq_some h

/-- The file of a slice. -/
def sectionFile (P : Process) (e : LoadedModule × List Word) : List Char := coverageFile P e.1.fullName

theorem written_writeSections (files : Directory) (slices : List (LoadedModule × List Word)) :
    (writeSections P files slices).written = files.written ++ slices.map (sectionFile P) := by
  induction slices generalizing files with
  | nil => simp [writeSections]
  | cons e slices ih =>
    have := ih (writeModuleCoverage P files e.1.fullName e.2)
    unfold writeSections at this ⊢
    rw [List.foldl_cons, this]
    simp [writeModuleCoverage, Directory.write, sectionFile]

theorem content_writeSections_of_notMem (files : Directory) {path : List Char}
    {slices : List (LoadedModule × List Word)} (h : path ∉ slices.map (sectionFile P)) :
    (writeSections P files slices).content path = files.content path := by
  induction slices generalizing files with
  | nil => rfl
  | cons e slices ih =>
    rw [List.map_cons, List.mem_cons, not_or] at h
    have := ih (writeModuleCoverage P files e.1.fullName e.2) h.2
    unfold writeSections at this ⊢
    rw [List.foldl_cons, this]
    exact Function.update_of_ne h.1 ..

theorem content_writeSections (files : Directory) {slices : List (LoadedModule × List Word)}
    {e : LoadedModule × List Word} (he : e ∈ slices)
    (h : (slices.map (sectionFile P)).count (sectionFile P e) = 1) :
    (writeSections P files slices).content (sectionFile P e) = some (magic :: e.2) := by
  obtain ⟨front, back, rfl⟩ := List.append_of_mem he
  have hback : sectionFile P e ∉ back.map (sectionFile P) := by
    intro hmem
    have := List.count_pos_iff.mpr hmem
    rw [List.map_append, List.count_append, List.map_cons, List.count_cons_self] at h
    omega
  have hsplit : writeSections P files (front ++ e :: back) =
      writeSections P (writeModuleCoverage P (writeSections P files front) e.1.fullName e.2) back := by
    unfold writeSections
    rw [List.foldl_append, List.foldl_cons]
  rw [hsplit, content_writeSections_of_notMem _ hback]
  exact Function.update_self ..

theorem count_sectionFile {l : List Word} {mod : LoadedModule} (hmod : mod ∈ L.modules) :
    ((sections L l).map (sectionFile P)).count (coverageFile P mod.fullName) =
      ((sections L l).map (·.1)).count mod := by
  have hin : ∀ e ∈ sections L l, e.1 ∈ L.modules := fun e he => by
    obtain ⟨x, -, hx⟩ := covered_of_mem_sections l e he
    exact mem_of_moduleOf hx
  generalize sections L l = slices at hin
  induction slices with
  | nil => rfl
  | cons e slices ih =>
    have ih := ih fun e' he' => hin e' (List.mem_cons_of_mem e he')
    rw [List.map_cons, List.map_cons, List.count_cons, List.count_cons, ih]
    congr 1
    by_cases heq : e.1 = mod
    · simp [sectionFile, heq]
    · have : coverageFile P e.1.fullName ≠ coverageFile P mod.fullName := fun h =>
        heq (coverageFile_injective (hin e List.mem_cons_self) hmod h)
      simp [sectionFile, heq, this]
/-! ## Sorted offsets -/

theorem compareLess_strictWeakOrder : Sorting.StrictWeakOrder compareLess where
  irrefl a := by simp [compareLess]
  trans a b c hab hbc := by
    simp only [compareLess, decide_eq_true_eq] at *
    bv_omega
  incomp_trans a b c h1 h2 h3 h4 := by
    simp only [compareLess, decide_eq_false_iff_not] at *
    bv_omega

theorem sorted_pairwise (pcs : List Word) :
    (Sorting.sortList compareLess pcs).Pairwise (· ≤ ·) := by
  refine (Sorting.sortList_pairwise compareLess_strictWeakOrder pcs).imp fun {a b} h => ?_
  simp only [Sorting.AtMost, compareLess, decide_eq_false_iff_not] at h
  bv_omega

theorem containsAddress_of_moduleOf {pc : Word} {mod : LoadedModule} (h : L.moduleOf pc = some mod) :
    mod.containsAddress pc = true := by
  unfold Layout.moduleOf searchForModule at h
  split_ifs at h
  exact (List.find?_eq_some_iff_append.mp h).1

theorem perm_eq {l l' : List Word} (hl : l.Pairwise (· ≤ ·)) (hl' : l'.Pairwise (· ≤ ·))
    (h : l.Perm l') : l = l' := by
  refine List.Perm.eq_of_pairwise (fun a b _ _ hab hba => ?_) hl hl' h
  bv_omega

theorem offsets_eq {l pcs : List Word} (hsort : l.Pairwise (· ≤ ·)) (hperm : l.Perm pcs)
    {mod : LoadedModule} (hmod : mod ∈ L.modules) :
    L.offsets mod pcs = (L.pcsOf mod l).map mod.offset := by
  have hle : ((L.pcsOf mod l).map mod.offset).Pairwise (· ≤ ·) := by
    rw [List.pairwise_map]
    refine (hsort.sublist List.filter_sublist).imp_of_mem fun {a b} ha hb hab => ?_
    have hin : ∀ x ∈ L.pcsOf mod l, mod.containsAddress x = true := fun x hx =>
      containsAddress_of_moduleOf (of_decide_eq_true (List.mem_filter.mp hx).2)
    exact L.mono mod hmod a b (hin a ha) (hin b hb) hab
  have hmerge : (L.offsets mod pcs).Pairwise (· ≤ ·) := by
    refine List.Pairwise.imp of_decide_eq_true (List.pairwise_mergeSort ?_ ?_ _)
    · intro a b c hab hbc
      simp only [decide_eq_true_eq] at *
      bv_omega
    · intro a b
      simp only [Bool.or_eq_true, decide_eq_true_eq]
      bv_omega
  refine perm_eq hmerge hle ?_
  exact (List.mergeSort_perm _ _).trans (((hperm.filter _).map _).symm)

/-! ## The dumps -/

theorem tidy_perm {l pcs : List Word} (hperm : l.Perm pcs) : Tidy L l ↔ Tidy L pcs := by
  have himp : ∀ {l pcs : List Word}, l.Perm pcs → Tidy L l → Tidy L pcs := fun hperm h => by
    refine ⟨?_, ?_, ?_⟩
    · simpa only [hperm.mem_iff] using h.unknown_lt
    · simpa only [hperm.mem_iff] using h.together
    · simpa only [hperm.mem_iff] using h.apart
  exact ⟨himp hperm, himp hperm.symm⟩

/-- A dump does its work just when the addresses are tidy. -/
theorem dumped_iff (files : Directory) (pcs : List Word) :
    Dumped P L pcs files (sanitizerDumpCoverage P L files pcs) ↔ Tidy L pcs := by
  have hperm := Sorting.sortList_perm compareLess pcs
  have hsort := sorted_pairwise pcs
  rw [sanitizerDumpCoverage_eq, ← tidy_perm hperm, tidy_iff_exact hsort]
  unfold Dumped
  generalize Sorting.sortList compareLess pcs = l at *
  have hcovered : ∀ mod, (∃ pc ∈ pcs, L.moduleOf pc = some mod) ↔ ∃ pc ∈ l, L.moduleOf pc = some mod :=
    fun mod => by simp only [hperm.mem_iff]
  simp only [hcovered, written_writeSections, List.count_append, Nat.add_left_cancel_iff]
  constructor
  · intro h
    have hone : ∀ mod, (∃ pc ∈ l, L.moduleOf pc = some mod) →
        ((sections L l).map (·.1)).count mod = 1 := fun mod hc => by
      obtain ⟨x, hx, hmod⟩ := hc
      rw [← count_sectionFile (P := P) (mem_of_moduleOf hmod)]
      exact (h mod ⟨x, hx, hmod⟩).2
    refine ⟨List.nodup_iff_count_le_one.mpr fun mod => ?_, fun x hx mod hmod => ?_, fun e he => ?_⟩
    · by_cases hin : mod ∈ (sections L l).map (·.1)
      · obtain ⟨e, he, rfl⟩ := List.mem_map.mp hin
        exact (hone e.1 (covered_of_mem_sections l e he)).le
      · rw [List.count_eq_zero_of_not_mem hin]
        exact Nat.zero_le 1
    · rw [← List.count_pos_iff, hone mod ⟨x, hx, hmod⟩]
      exact Nat.one_pos
    · have hc := covered_of_mem_sections l e he
      obtain ⟨hcontent, hcount⟩ := h e.1 hc
      obtain ⟨x, hx, hmod⟩ := hc
      have hslice := content_writeSections (P := P) files he hcount
      rw [← offsets_eq hsort hperm (mem_of_moduleOf hmod)]
      exact (List.cons.inj (Option.some.inj (hslice.symm.trans hcontent))).2
  · intro hex mod hc
    obtain ⟨x, hx, hmod⟩ := hc
    have hin := hex.covers x hx mod hmod
    have hcount : ((sections L l).map (sectionFile P)).count (coverageFile P mod.fullName) = 1 := by
      rw [count_sectionFile (mem_of_moduleOf hmod)]
      exact List.count_eq_one_of_mem hex.nodup hin
    obtain ⟨e, he, rfl⟩ := List.mem_map.mp hin
    refine ⟨?_, hcount⟩
    rw [offsets_eq hsort hperm (mem_of_moduleOf hmod), ← hex.slices e he]
    exact content_writeSections files he hcount

/-- The modules at the time of a dump, and the addresses it is asked to dump. -/
structure Request where
  /-- The modules. -/
  layout : Layout
  /-- `unsorted_pcs`. -/
  pcs : List Word

/-- Each of the dumps leaves what it should. -/
def AllDumped (P : Process) : Directory → List Request → Prop
  | _, [] => True
  | files, r :: rs =>
    Dumped P r.layout r.pcs files (sanitizerDumpCoverage P r.layout files r.pcs) ∧
      AllDumped P (sanitizerDumpCoverage P r.layout files r.pcs) rs

/-- The dumps of a sequence do their work just when the addresses of each are tidy. -/
theorem dumps_iff (P : Process) (files : Directory) (rs : List Request) :
    AllDumped P files rs ↔ ∀ r ∈ rs, Tidy r.layout r.pcs := by
  induction rs generalizing files with
  | nil => simp [AllDumped]
  | cons r rs ih => rw [AllDumped, dumped_iff, ih, List.forall_mem_cons]

theorem library_mono : ∀ a ∈ [(⟨['l', 'i', 'b'], 0x1000, [(0x1000, 0x2000)]⟩ : LoadedModule)], ∀ pc pc',
    a.containsAddress pc → a.containsAddress pc' → pc ≤ pc' → a.offset pc ≤ a.offset pc' := by
  intro a ha pc pc' hpc hpc' hle
  rw [List.mem_singleton] at ha
  subst ha
  simp only [LoadedModule.containsAddress, LoadedModule.offset, List.any_cons, List.any_nil, Bool.or_false,
    Bool.and_eq_true, decide_eq_true_eq] at *
  bv_omega

/-- A process with one module. -/
def libraryLayout : Layout where
  modules := [⟨['l', 'i', 'b'], 0x1000, [(0x1000, 0x2000)]⟩]
  distinct a ha b hb _ := (List.mem_singleton.mp ha).trans (List.mem_singleton.mp hb).symm
  mono := library_mono

/-- The address of an unloaded module, which is skipped, is written with the slice that it lies behind. -/
theorem unknown_pc_written :
    ¬ AllDumped ⟨['.'], 7⟩ ⟨fun _ => none, []⟩ [⟨libraryLayout, [0x1010, 0x9000]⟩] := by
  intro h
  have hcontent := (h.1 ⟨['l', 'i', 'b'], 0x1000, [(0x1000, 0x2000)]⟩
    ⟨0x1010, List.mem_cons_self, by decide⟩).1
  have hwritten : (sanitizerDumpCoverage ⟨['.'], 7⟩ libraryLayout ⟨fun _ => none, []⟩
      [0x1010, 0x9000]).content (coverageFile ⟨['.'], 7⟩ ['l', 'i', 'b']) =
        some [magic, 0x10, 0x9000] := by
    have hsorted : Sorting.sortList compareLess [0x1010, 0x9000] = [0x1010, 0x9000] :=
      perm_eq (sorted_pairwise _) (by decide) (Sorting.sortList_perm _ _)
    have hsections : sections libraryLayout [0x1010, 0x9000] =
        [(⟨['l', 'i', 'b'], 0x1000, [(0x1000, 0x2000)]⟩, [0x10, 0x9000])] := by decide
    rw [sanitizerDumpCoverage_eq, hsorted, hsections]
    exact content_writeSections _ List.mem_cons_self List.count_singleton_self
  have hoffsets : libraryLayout.offsets ⟨['l', 'i', 'b'], 0x1000, [(0x1000, 0x2000)]⟩
      [0x1010, 0x9000] = [0x10] := by
    rw [offsets_eq (L := libraryLayout) (l := [0x1010, 0x9000]) (by decide) (List.Perm.refl _)
      List.mem_cons_self]
    decide
  rw [hwritten, hoffsets] at hcontent
  exact absurd hcontent (by decide)

end Tasan.Coverage
