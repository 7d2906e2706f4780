import Tasan.LibIgnore.Scan

/-!
# Loads and unloads

A run is a list of calls of `OnLibraryLoaded` and `OnLibraryUnloaded`. Between calls, libraries that the
program has not reported neither come nor go (`Reported`). The invariant `Tracks` says that the table holds
the code of the modules that are loaded and match a template, and nothing else. A call keeps it, and can be
repeated, as long as a module that matches a template has one executable range (`step_tracks`). With two,
the call that records the module leaves one of them out, and the next call takes it for another library
(`behaves_iff`).
-/

namespace Tasan.LibIgnore

variable {modules : List LoadedModule} {s s' : State} {c : Call}

/-! ## Instrumented ranges -/

/-- A range is not in the table of the instrumented ranges yet. -/
def uncovered (ranges : List LibCodeRange) (range : AddressRange) : Bool :=
  !(isInRanges ranges range.beg && isInRanges ranges (range.end - 1))

theorem trackRange_of_covered {ranges : List LibCodeRange} {range : AddressRange}
    (h : uncovered ranges range = false) : trackRange ranges range = .ok ranges := by
  unfold uncovered at h
  unfold trackRange
  rw [Bool.not_eq_false'] at h
  rw [if_pos h]

theorem trackRange_of_uncovered {ranges : List LibCodeRange} {range : AddressRange}
    (h : uncovered ranges range = true) (hlen : ranges.length < kMaxInstrumentedRanges) :
    trackRange ranges range = .ok (ranges ++ [range.slot]) := by
  unfold uncovered at h
  unfold trackRange
  rw [Bool.not_eq_true'] at h
  rw [h, if_neg (by decide), if_pos hlen]
  rfl

theorem isInRanges_append {ranges : List LibCodeRange} {pc : ℕ} (h : isInRanges ranges pc = true)
    (more : List LibCodeRange) : isInRanges (ranges ++ more) pc = true := by
  unfold isInRanges at *
  rw [List.any_append, h, Bool.true_or]

theorem not_uncovered_append (ranges : List LibCodeRange) (range : AddressRange) :
    uncovered (ranges ++ [range.slot]) range = false := by
  have hlt := range.beg_lt
  have hbeg : range.slot.isInRange range.beg = true := by
    simp [LibCodeRange.isInRange, AddressRange.slot, hlt]
  have hend : range.slot.isInRange (range.end - 1) = true := by
    have hle : range.beg ≤ range.end - 1 ∧ range.end - 1 < range.end := by omega
    simp [LibCodeRange.isInRange, AddressRange.slot, hle]
  simp [uncovered, isInRanges, hbeg, hend]

theorem uncovered_append {ranges : List LibCodeRange} {range : AddressRange}
    (h : uncovered ranges range = false) (more : List LibCodeRange) :
    uncovered (ranges ++ more) range = false := by
  unfold uncovered at *
  rw [Bool.not_eq_false', Bool.and_eq_true] at *
  exact ⟨isInRanges_append h.1 more, isInRanges_append h.2 more⟩

/-- The ranges that are not in the table are added, and are covered then. -/
theorem foldlM_trackRange {l : List AddressRange} {ranges : List LibCodeRange}
    (hfit : ranges.length + l.countP (uncovered ranges) ≤ kMaxInstrumentedRanges) :
    ∃ more, l.foldlM trackRange ranges = .ok (ranges ++ more) ∧
      ∀ range ∈ l, uncovered (ranges ++ more) range = false := by
  induction l generalizing ranges with
  | nil => exact ⟨[], by rw [List.append_nil]; rfl, nofun⟩
  | cons range rest ih =>
    cases hcov : uncovered ranges range with
    | false =>
      rw [List.countP_cons_of_neg (by rw [hcov]; decide)] at hfit
      obtain ⟨more, hfold, hall⟩ := ih hfit
      refine ⟨more, by rw [List.foldlM_cons, trackRange_of_covered hcov]; exact hfold, fun r hr => ?_⟩
      rcases List.mem_cons.mp hr with rfl | hr
      · exact uncovered_append hcov more
      · exact hall r hr
    | true =>
      rw [List.countP_cons_of_pos hcov] at hfit
      have hmono : rest.countP (uncovered (ranges ++ [range.slot])) ≤ rest.countP (uncovered ranges) :=
        List.countP_mono_left fun r _ hr => by
          by_contra hnot
          exact absurd (uncovered_append (Bool.eq_false_of_not_eq_true hnot) _) (by rw [hr]; decide)
      have hlen : (ranges ++ [range.slot]).length = ranges.length + 1 := by
        rw [List.length_append, List.length_singleton]
      obtain ⟨more, hfold, hall⟩ := ih (show (ranges ++ [range.slot]).length +
        rest.countP (uncovered (ranges ++ [range.slot])) ≤ kMaxInstrumentedRanges by omega)
      rw [List.append_assoc, List.singleton_append] at hfold hall
      refine ⟨range.slot :: more, ?_, fun r hr => ?_⟩
      · rw [List.foldlM_cons, trackRange_of_uncovered hcov (by omega)]
        exact hfold
      · rcases List.mem_cons.mp hr with rfl | hr
        · have := uncovered_append (not_uncovered_append ranges r) more
          rwa [List.append_assoc, List.singleton_append] at this
        · exact hall r hr

theorem foldlM_trackRange_of_covered {l : List AddressRange} {ranges : List LibCodeRange}
    (h : ∀ range ∈ l, uncovered ranges range = false) : l.foldlM trackRange ranges = .ok ranges := by
  induction l with
  | nil => rfl
  | cons range rest ih =>
    rw [List.foldlM_cons, trackRange_of_covered (h range List.mem_cons_self)]
    exact ih fun r hr => h r (List.mem_cons_of_mem _ hr)

/-! ## Calls -/

/-- What has come and gone since the last call has been reported: a call with a name is made after loads,
and one without a name after loads or after unloads. -/
def Reported (old : List LoadedModule) (c : Call) : Prop :=
  (∀ mod ∈ old, mod ∈ c.modules) ∨ c.name = none ∧ ∀ mod ∈ c.modules, mod ∈ old

/-- The libraries as they are scanned in a call. -/
def linked (c : Call) (s : State) : List Lib := s.libs.map c.link

/-- What a call is made under: the loads and unloads have been reported, every template matches at most one
loaded module, and the ranges in all fit in the tables. -/
structure Admissible (old : List LoadedModule) (c : Call) (s : State) : Prop where
  reported : Reported old c
  atMostOne : ∀ lib ∈ linked c s, AtMostOne lib c.modules
  fits : s.ignoredCodeRanges.length + totalNew c.modules (linked c s) < kMaxIgnoredRanges
  instrumentedFits : s.instrumentedCodeRanges.length +
    (instrumentedCode c.modules).countP (uncovered s.instrumentedCodeRanges) ≤ kMaxInstrumentedRanges

/-- The module that matches a template has at most one executable range. -/
def OneRange (c : Call) (s : State) : Prop :=
  ∀ lib ∈ linked c s, (found lib c.modules).length ≤ 1

/-- A program counter is in the code of a loaded module that matches a template. -/
def InIgnoredCode (s : State) (modules : List LoadedModule) (pc : ℕ) : Prop :=
  ∃ lib ∈ s.libs, ∃ mod ∈ modules, lib.matchesModule mod = true ∧
    ∃ range ∈ mod.code, range.beg ≤ pc ∧ pc < range.end

/-- A call behaves: the process does not die, the same call once more changes nothing, and the code of the
loaded modules that match a template is what is ignored. -/
def Behaves (c : Call) (s s' : State) : Prop :=
  onLibraryLoaded c s = .ok s' ∧ onLibraryLoaded c s' = .ok s' ∧
    ∀ pc, (isIgnored s' pc).2 = true ↔ InIgnoredCode s' c.modules pc

/-- The table holds the code of the modules that match a template, each of which has one range. -/
structure Tracks (modules : List LoadedModule) (s : State) : Prop where
  owned : Owned (ids s.libs) s.ignoredCodeRanges
  recorded : ∀ lib ∈ s.libs, Recorded modules lib s.ignoredCodeRanges
  atMostOne : ∀ lib ∈ s.libs, lib.loaded = true → AtMostOne lib modules

theorem mem_found {lib : Lib} {range : AddressRange} : range ∈ found lib modules ↔
    ∃ mod ∈ modules, lib.matchesModule mod = true ∧ range ∈ mod.code := by
  simp [found, List.mem_flatMap, and_assoc]

/-- The slots in use are those of the libraries. -/
theorem Tracks.isIgnored_iff (h : Tracks modules s) (pc : ℕ) :
    (isIgnored s pc).2 = true ↔ InIgnoredCode s modules pc := by
  have hfst : (isIgnored s pc).2 = isInRanges s.ignoredCodeRanges pc := by
    unfold isIgnored
    split_ifs with hin
    · exact hin.symm
    · exact (Bool.eq_false_of_not_eq_true hin).symm
  rw [hfst]
  simp only [isInRanges, List.any_eq_true, LibCodeRange.isInRange, Bool.and_eq_true, decide_eq_true_eq]
  constructor
  · rintro ⟨slot, hmem, hbeg, hend⟩
    obtain ⟨id, hslot⟩ := List.mem_iff_getElem?.mp hmem
    -- A slot without an owner is of an unloaded module, and contains nothing.
    have hid : id ∈ ids s.libs := by
      by_contra hfree
      have := h.owned.free id slot hslot hfree
      omega
    obtain ⟨lib, hlib, hid⟩ := List.mem_flatMap.mp hid
    have hrec := h.recorded lib hlib
    rw [Option.mem_toList] at hid
    unfold Recorded at hrec
    rw [hid] at hrec
    obtain ⟨range, hfound, hslot'⟩ := hrec
    obtain rfl := Option.some.inj (hslot.symm.trans hslot')
    obtain ⟨mod, hmod, hmatch, hrange⟩ :=
      mem_found.mp (hfound ▸ List.mem_singleton_self range : range ∈ found lib modules)
    exact ⟨lib, hlib, mod, hmod, hmatch, range, hrange, hbeg, hend⟩
  · rintro ⟨lib, hlib, mod, hmod, hmatch, range, hrange, hbeg, hend⟩
    have hmem : range ∈ found lib modules := mem_found.mpr ⟨mod, hmod, hmatch, hrange⟩
    have hrec := h.recorded lib hlib
    unfold Recorded at hrec
    cases hid : lib.rangeId with
    | none =>
      rw [hid] at hrec
      rw [hrec] at hmem
      exact absurd hmem List.not_mem_nil
    | some id =>
      rw [hid] at hrec
      obtain ⟨range', hfound, hslot⟩ := hrec
      rw [hfound, List.mem_singleton] at hmem
      obtain rfl := hmem
      exact ⟨range.slot, List.mem_of_getElem? hslot, hbeg, hend⟩

theorem link_of_loaded {lib : Lib} (h : lib.loaded = true) : c.link lib = lib := by
  unfold Call.link
  cases c.name with
  | none => rfl
  | some name => exact if_neg (by simp [h])

theorem rangeId_link (lib : Lib) : (c.link lib).rangeId = lib.rangeId := by
  unfold Call.link
  cases c.name with
  | none => rfl
  | some name =>
    dsimp only
    split_ifs <;> rfl

theorem link_link (lib : Lib) : c.link (c.link lib) = c.link lib := by
  unfold Call.link
  cases c.name with
  | none => rfl
  | some name =>
    dsimp only
    split_ifs with h1 h2
    · exact absurd h2.2.2.1 nofun
    · rfl
    · rfl

/-- The module of a loaded library is still there after a load. -/
theorem found_of_reported {old : List LoadedModule} {lib : Lib} {range : AddressRange}
    (hreported : Reported old c) (hold : AtMostOne lib old) (hnew : AtMostOne lib c.modules)
    (hfound : found lib old = [range]) :
    found lib c.modules = [range] ∨ c.name = none ∧ found lib c.modules = [] := by
  obtain ⟨mod, hmod, hmatch, hrange⟩ :=
    mem_found.mp (hfound ▸ List.mem_singleton_self range : range ∈ found lib old)
  have hunique : ∀ {l : List LoadedModule} {m m' : LoadedModule}, AtMostOne lib l → m ∈ l → m' ∈ l →
      lib.matchesModule m = true → lib.matchesModule m' = true → m = m' ∧
        l.filter lib.matchesModule = [m] := by
    intro l m m' hl hm hm' h1 h2
    have h1' := List.mem_filter.mpr ⟨hm, h1⟩
    have h2' := List.mem_filter.mpr ⟨hm', h2⟩
    unfold AtMostOne at hl
    match hfilter : l.filter lib.matchesModule with
    | [] =>
      rw [hfilter] at h1'
      exact absurd h1' List.not_mem_nil
    | [m₀] =>
      rw [hfilter, List.mem_singleton] at h1' h2'
      exact ⟨h1'.trans h2'.symm, by rw [h1']⟩
    | _ :: _ :: _ =>
      rw [hfilter] at hl
      exact absurd hl (by simp)
  have hcode : mod.code = [range] := by
    rw [← hfound, found, (hunique hold hmod hmod hmatch hmatch).2, List.flatMap_singleton]
  rcases hreported with hload | ⟨hname, hunload⟩
  · refine Or.inl ?_
    rw [found, (hunique hnew (hload mod hmod) (hload mod hmod) hmatch hmatch).2,
      List.flatMap_singleton, hcode]
  · match hfilter : c.modules.filter lib.matchesModule with
    | [] => exact Or.inr ⟨hname, by rw [found, hfilter]; rfl⟩
    | mod' :: rest =>
      obtain ⟨hmod', hmatch'⟩ :=
        List.mem_filter.mp (hfilter ▸ List.mem_cons_self : mod' ∈ c.modules.filter lib.matchesModule)
      obtain ⟨rfl, -⟩ := hunique hold hmod (hunload mod' hmod') hmatch hmatch'
      refine Or.inl ?_
      rw [found, (hunique hnew hmod' hmod' hmatch hmatch).2, List.flatMap_singleton, hcode]

theorem exists_right_of_forall₂ {α β : Type} {R : α → β → Prop} {l : List α} {l' : List β}
    (h : List.Forall₂ R l l') {a : α} (ha : a ∈ l) : ∃ b ∈ l', R a b := by
  induction h with
  | nil => exact absurd ha List.not_mem_nil
  | cons hab _ ih =>
    rcases List.mem_cons.mp ha with rfl | ha
    · exact ⟨_, List.mem_cons_self, hab⟩
    · obtain ⟨b, hb, hab⟩ := ih ha
      exact ⟨b, List.mem_cons_of_mem _ hb, hab⟩

theorem onLibraryLoaded_eq {libs : List Lib} {ranges instrumented : List LibCodeRange}
    (hscan : scanLibs c.modules (linked c s) s.ignoredCodeRanges = .ok (libs, ranges))
    (htrack : trackInstrumented c.modules s = .ok instrumented) :
    onLibraryLoaded c s = .ok { s with
      libs := libs, ignoredCodeRanges := ranges, instrumentedCodeRanges := instrumented } := by
  unfold onLibraryLoaded linked at *
  rw [hscan, htrack]
  rfl

theorem trackInstrumented_spec (hfit : s.instrumentedCodeRanges.length +
      (instrumentedCode c.modules).countP (uncovered s.instrumentedCodeRanges) ≤
        kMaxInstrumentedRanges) :
    ∃ instrumented, trackInstrumented c.modules s = .ok instrumented ∧
      ∀ libs ranges, trackInstrumented c.modules { s with
        libs := libs, ignoredCodeRanges := ranges, instrumentedCodeRanges := instrumented } =
          .ok instrumented := by
  unfold trackInstrumented
  cases s.trackInstrumentedLibs with
  | false => exact ⟨_, rfl, fun _ _ => rfl⟩
  | true =>
    obtain ⟨more, hfold, hall⟩ := foldlM_trackRange hfit
    exact ⟨_, hfold, fun _ _ => foldlM_trackRange_of_covered hall⟩

/-- **A call keeps the table right**, when the module that matches a template has at most one executable
range. -/
theorem step_tracks {old : List LoadedModule} (h : Tracks old s) (hadm : Admissible old c s)
    (hone : OneRange c s) : ∃ s', Behaves c s s' ∧ Tracks c.modules s' := by
  have hloaded : ∀ lib ∈ linked c s, ∀ id, lib.rangeId = some id → ∃ range,
      s.ignoredCodeRanges[id]? = some range.slot ∧
        (found lib c.modules = [range] ∨ c.name = none ∧ found lib c.modules = []) := by
    intro lib hlib id hid
    obtain ⟨lib₀, hlib₀, rfl⟩ := List.mem_map.mp hlib
    rw [rangeId_link] at hid
    have hload : lib₀.loaded = true := by
      unfold Lib.loaded
      rw [hid]
      rfl
    have hnew := hadm.atMostOne _ hlib
    rw [link_of_loaded hload] at hnew ⊢
    have hrec := h.recorded lib₀ hlib₀
    unfold Recorded at hrec
    rw [hid] at hrec
    obtain ⟨range, hfound, hslot⟩ := hrec
    exact ⟨range, hslot,
      found_of_reported hadm.reported (h.atMostOne lib₀ hlib₀ hload) hnew hfound⟩
  have hids : ids (linked c s) = ids s.libs := by
    unfold ids linked
    rw [List.flatMap_map]
    simp only [rangeId_link]
  have howned : Owned (ids (linked c s) ++ []) s.ignoredCodeRanges := by
    rw [hids, List.append_nil]
    exact h.owned
  obtain ⟨libs', ranges', hscan, howned', -, hrec', hscanned⟩ := scanLibs_spec howned
    (fun lib hlib => ⟨hadm.atMostOne lib hlib, hone lib hlib, fun id hid => by
      obtain ⟨range, hslot, hfound⟩ := hloaded lib hlib id hid
      exact ⟨range, hslot, hfound.imp_right (·.2)⟩⟩) hadm.fits.le
  obtain ⟨instrumented, htrack, htrack'⟩ := trackInstrumented_spec hadm.instrumentedFits
  have hatMost : ∀ lib' ∈ libs', AtMostOne lib' c.modules := by
    intro lib' hlib'
    obtain ⟨lib, hlib, hkept⟩ := exists_right_of_forall₂ hscanned.flip hlib'
    unfold AtMostOne
    rw [hkept.matchesModule]
    exact hadm.atMostOne lib hlib
  -- A library that is not loaded now was not before, or its module is gone, and nothing was loaded.
  have hlink : libs'.map c.link = libs' := by
    refine (List.map_congr_left fun lib' hlib' => ?_).trans (List.map_id libs')
    obtain ⟨lib, hlib, hkept⟩ := exists_right_of_forall₂ hscanned.flip hlib'
    cases hload : lib'.loaded with
    | true => exact link_of_loaded hload
    | false =>
      rcases hkept.unloaded hload with rfl | ⟨hload₀, hnil⟩
      · obtain ⟨lib₀, -, rfl⟩ := List.mem_map.mp hlib
        exact link_link lib₀
      · obtain ⟨id, hid⟩ := Option.isSome_iff_exists.mp hload₀
        obtain ⟨range, -, hfound | ⟨hname, -⟩⟩ := hloaded lib hlib id hid
        · rw [hnil] at hfound
          exact absurd hfound nofun
        · unfold Call.link
          rw [hname]
          rfl
  have htracks : Tracks c.modules { s with
      libs := libs', ignoredCodeRanges := ranges', instrumentedCodeRanges := instrumented } :=
    ⟨by rw [List.append_nil] at howned'; exact howned', hrec', fun lib' hlib' _ => hatMost lib' hlib'⟩
  refine ⟨_, ⟨onLibraryLoaded_eq hscan htrack, onLibraryLoaded_eq ?_ (htrack' _ _), htracks.isIgnored_iff⟩,
    htracks⟩
  unfold linked
  dsimp only
  rw [hlink]
  exact scanLibs_of_recorded fun lib' hlib' => ⟨hatMost lib' hlib', hrec' lib' hlib'⟩

theorem scanLibs_of_onLibraryLoaded (h : onLibraryLoaded c s = .ok s') :
    scanLibs c.modules (linked c s) s.ignoredCodeRanges = .ok (s'.libs, s'.ignoredCodeRanges) := by
  unfold onLibraryLoaded linked at *
  cases hscan : scanLibs c.modules (s.libs.map c.link) s.ignoredCodeRanges with
  | error e =>
    rw [hscan] at h
    exact absurd h nofun
  | ok res =>
    rw [hscan] at h
    simp only [Bind.bind, Except.bind] at h
    split at h
    · exact absurd h nofun
    · obtain rfl := Except.ok.inj h
      rfl

/-- A call that can be repeated has met no module with two executable ranges. -/
theorem Behaves.oneRange (h : Behaves c s s') (hatMost : ∀ lib ∈ linked c s, AtMostOne lib c.modules) :
    OneRange c s := by
  intro lib hlib
  by_contra htwo
  rw [not_le] at htwo
  have hscan := scanLib_of_scanLibs (scanLibs_of_onLibraryLoaded h.1)
  obtain ⟨lib', hlib', r, r', hlib₁⟩ := exists_right_of_forall₂ hscan hlib
  cases hload : lib.loaded with
  | true => exact absurd (hlib₁.symm.trans (scanLib_two (hatMost lib hlib) htwo hload)) nofun
  | false =>
    obtain ⟨range, rest, hfound⟩ := List.exists_cons_of_ne_nil
      (List.ne_nil_of_length_pos (Nat.zero_lt_of_lt htwo))
    obtain ⟨mod, hnew⟩ := scanLib_new r (hatMost lib hlib) hfound hload
    rw [hlib₁] at hnew
    split_ifs at hnew
    obtain ⟨rfl, -⟩ := Prod.mk.inj (Except.ok.inj hnew)
    -- The library is loaded now, and the second range of the module is met in the same call once more.
    have hmatch : (lib.record mod r.length).matchesModule = lib.matchesModule := rfl
    have hmem : lib.record mod r.length ∈ linked c s' :=
      List.mem_map.mpr ⟨_, hlib', link_of_loaded rfl⟩
    obtain ⟨lib₂, -, r₂, r₂', hlib₂⟩ :=
      exists_right_of_forall₂ (scanLib_of_scanLibs (scanLibs_of_onLibraryLoaded h.2.1)) hmem
    have hatMost' : AtMostOne (lib.record mod r.length) c.modules := by
      unfold AtMostOne
      rw [hmatch]
      exact hatMost lib hlib
    refine absurd (hlib₂.symm.trans (scanLib_two hatMost' ?_ rfl)) nofun
    rw [found_congr hmatch]
    exact htwo

/-! ## Runs -/

/-- Each call of a run is made under the conditions of `Admissible`. -/
def AdmissibleRun : List LoadedModule → State → List Call → Prop
  | _, _, [] => True
  | old, s, c :: calls => Admissible old c s ∧
      ∀ s', onLibraryLoaded c s = .ok s' → AdmissibleRun c.modules s' calls

/-- Each call of a run behaves. -/
def BehavesRun : State → List Call → Prop
  | _, [] => True
  | s, c :: calls => ∃ s', Behaves c s s' ∧ BehavesRun s' calls

/-- At each call of a run, a module that matches a template has at most one executable range. -/
def OneRangeRun : State → List Call → Prop
  | _, [] => True
  | s, c :: calls => OneRange c s ∧ ∀ s', onLibraryLoaded c s = .ok s' → OneRangeRun s' calls

theorem behavesRun_iff {old : List LoadedModule} {calls : List Call} (h : Tracks old s)
    (hadm : AdmissibleRun old s calls) : BehavesRun s calls ↔ OneRangeRun s calls := by
  induction calls generalizing old s with
  | nil => exact Iff.rfl
  | cons c calls ih =>
    obtain ⟨hadm, hrest⟩ := hadm
    constructor
    · rintro ⟨s₁, hbehaves, hrun⟩
      have hone := hbehaves.oneRange hadm.atMostOne
      obtain ⟨s₂, hbehaves₂, htracks⟩ := step_tracks h hadm hone
      obtain rfl := Except.ok.inj (hbehaves.1.symm.trans hbehaves₂.1)
      refine ⟨hone, fun s' hs' => ?_⟩
      obtain rfl := Except.ok.inj (hbehaves.1.symm.trans hs')
      exact (ih htracks (hrest _ hs')).mp hrun
    · rintro ⟨hone, hrun⟩
      obtain ⟨s₁, hbehaves, htracks⟩ := step_tracks h hadm hone
      exact ⟨s₁, hbehaves, (ih htracks (hrest _ hbehaves.1)).mpr (hrun _ hbehaves.1)⟩

/-- Before the first call no library is loaded. -/
theorem tracks_nil {templs : List (List Char)} {track : Bool}
    (h : templs.foldlM (fun s templ => addIgnoredLibrary templ s) (initial track) = some s) :
    Tracks [] s := by
  have hinv : ∀ (templs : List (List Char)) (s₀ : State), s₀.ignoredCodeRanges = [] →
      (∀ lib ∈ s₀.libs, lib.rangeId = none) →
      templs.foldlM (fun s templ => addIgnoredLibrary templ s) s₀ = some s →
      s.ignoredCodeRanges = [] ∧ ∀ lib ∈ s.libs, lib.rangeId = none := by
    intro templs
    induction templs with
    | nil =>
      intro s₀ hranges hlibs hfold
      obtain rfl := Option.some.inj hfold
      exact ⟨hranges, hlibs⟩
    | cons templ templs ih =>
      intro s₀ hranges hlibs hfold
      rw [List.foldlM_cons, Option.bind_eq_bind, Option.bind_eq_some_iff] at hfold
      obtain ⟨s₁, hadd, hfold⟩ := hfold
      unfold addIgnoredLibrary at hadd
      split_ifs at hadd
      obtain rfl := Option.some.inj hadd
      refine ih { s₀ with libs := s₀.libs ++ [_] } hranges (fun lib hlib => ?_) hfold
      rcases List.mem_append.mp hlib with hlib | hlib
      · exact hlibs lib hlib
      · rw [List.mem_singleton.mp hlib]
  obtain ⟨hranges, hlibs⟩ := hinv templs (initial track) rfl
    (fun lib hlib => absurd hlib List.not_mem_nil) h
  have hids : ids s.libs = [] := List.flatMap_eq_nil_iff.mpr fun lib hlib => by rw [hlibs lib hlib]; rfl
  refine ⟨?_, fun lib hlib => ?_, fun lib hlib hload => ?_⟩
  · rw [hids, hranges]
    exact ⟨List.nodup_nil, nofun, nofun⟩
  · unfold Recorded
    rw [hlibs lib hlib]
    rfl
  · unfold Lib.loaded at hload
    rw [hlibs lib hlib] at hload
    exact absurd hload nofun

/-- **When the ignored libraries are tracked**: in a run whose loads and unloads are reported, where every
template matches at most one loaded module and the ranges fit in the tables, every call behaves exactly
when, at each call, a module that matches a template has at most one executable range. -/
theorem onLibraryLoaded_behaves_iff (templs : List (List Char)) (track : Bool) (s : State)
    (hs : templs.foldlM (fun s templ => addIgnoredLibrary templ s) (initial track) = some s)
    (calls : List Call) (hadm : AdmissibleRun [] s calls) : BehavesRun s calls ↔ OneRangeRun s calls :=
  behavesRun_iff (tracks_nil hs) hadm

/-- The template `libc`, before the first call. -/
def libcState (rangeId : Option ℕ) (name : Option (List Char)) (ranges : List LibCodeRange) : State where
  libs := [{ templ := ['l', 'i', 'b', 'c'], name := name, realName := none, rangeId := rangeId }]
  ignoredCodeRanges := ranges
  instrumentedCodeRanges := []
  trackInstrumentedLibs := false

/-- A library with code in the given ranges. -/
def libc (ranges : List AddressRange) : LoadedModule where
  fullName := ['l', 'i', 'b', 'c', '.', 's', 'o']
  ranges := ranges
  instrumented := false

/-- The first call, with the library loaded. -/
def libcCall (ranges : List AddressRange) : Call where
  name := none
  readlink := []
  modules := [libc ranges]

/-- A page of code. -/
def codePage (beg : ℕ) : AddressRange where
  beg := beg
  «end» := beg + 0x1000
  executable := true
  beg_lt := Nat.lt_add_of_pos_right (by decide)

theorem libc_admissible (ranges : List AddressRange) (hlen : ranges.length < kMaxIgnoredRanges) :
    AdmissibleRun [] (libcState none none []) [libcCall ranges] := by
  have hmatch : ∀ lib ∈ linked (libcCall ranges) (libcState none none []),
      AtMostOne lib (libcCall ranges).modules := by
    intro lib hlib
    obtain rfl := List.mem_singleton.mp hlib
    exact (List.length_filter_le _ _).trans (le_refl 1)
  refine ⟨⟨Or.inl nofun, hmatch, ?_, show 0 ≤ kMaxInstrumentedRanges from Nat.zero_le _⟩,
    fun _ _ => trivial⟩
  have htotal : totalNew (libcCall ranges).modules (linked (libcCall ranges) (libcState none none [])) =
      (found { templ := ['l', 'i', 'b', 'c'], name := none, realName := none, rangeId := none }
        [libc ranges]).length + 0 := rfl
  have hfound : found { templ := ['l', 'i', 'b', 'c'], name := none, realName := none, rangeId := none }
      [libc ranges] = (libc ranges).code ++ [] := rfl
  have hcode : (libc ranges).code.length ≤ ranges.length := List.length_filter_le _ _
  rw [htotal, hfound, List.append_nil]
  exact lt_of_le_of_lt ((Nat.zero_add _).le.trans hcode) hlen

/-- A library with one page of code is tracked. -/
theorem onLibraryLoaded_behaves_iff_onePage :
    BehavesRun (libcState none none []) [libcCall [codePage 0x1000]] := by
  refine (onLibraryLoaded_behaves_iff [['l', 'i', 'b', 'c']] false _ rfl _
    (libc_admissible _ (by decide))).mpr ⟨fun lib hlib => ?_, fun _ _ => trivial⟩
  obtain rfl := List.mem_singleton.mp hlib
  decide

/-- A library with two pages of code apart from each other is not: when the call is made once more, the
second page is taken for another library. -/
theorem onLibraryLoaded_twoPages : ∃ (templs : List (List Char)) (s : State) (calls : List Call),
    templs.foldlM (fun s templ => addIgnoredLibrary templ s) (initial false) = some s ∧
      AdmissibleRun [] s calls ∧ ¬ BehavesRun s calls := by
  refine ⟨[['l', 'i', 'b', 'c']], libcState none none [], [libcCall [codePage 0x1000, codePage 0x3000]],
    rfl, libc_admissible _ (by decide), ?_⟩
  rintro ⟨s', ⟨hfirst, hagain, -⟩, -⟩
  have hs' : onLibraryLoaded (libcCall [codePage 0x1000, codePage 0x3000]) (libcState none none []) =
      .ok (libcState (some 0) (some (libc []).fullName) [⟨0x1000, 0x2000⟩]) := rfl
  obtain rfl := Except.ok.inj (hs'.symm.trans hfirst)
  have hdies : onLibraryLoaded (libcCall [codePage 0x1000, codePage 0x3000])
      (libcState (some 0) (some (libc []).fullName) [⟨0x1000, 0x2000⟩]) = .error .twoLibraries := rfl
  exact absurd (hdies.symm.trans hagain) nofun

end Tasan.LibIgnore
