import Tasan.LibIgnore.Model

/-!
# One scan of the loaded modules

`found` is the code of the modules that match a library. When at most one module does, `scanLib_nil`,
`scanLib_singleton`, `scanLib_new` and `scanLib_two` say what a scan makes of the library: it is unloaded
when nothing is found, kept when it is loaded and one range is found, recorded with the first range when
it is not loaded, and the process dies when it is loaded and more ranges are found. `scanLibs_spec` follows
the slots of the table through the scan of all libraries.
-/

namespace Tasan.LibIgnore

/-- The code of the modules that match a library. -/
def found (lib : Lib) (modules : List LoadedModule) : List AddressRange :=
  (modules.filter lib.matchesModule).flatMap LoadedModule.code

/-- At most one loaded module matches a library. -/
def AtMostOne (lib : Lib) (modules : List LoadedModule) : Prop :=
  (modules.filter lib.matchesModule).length ≤ 1

/-- The slot of a range. -/
def AddressRange.slot (range : AddressRange) : LibCodeRange := ⟨range.beg, range.end⟩

variable {modules : List LoadedModule} {lib lib' : Lib} {ranges ranges' : List LibCodeRange}

/-! ## One library -/

theorem scanRanges_filter (mod : LoadedModule) (l : List AddressRange) (scan : Scan) :
    scanRanges mod l scan = scanRanges mod (l.filter (·.executable)) scan := by
  induction l generalizing scan with
  | nil => rfl
  | cons range rest ih =>
    obtain ⟨lib, ranges, loaded⟩ := scan
    cases hexec : range.executable with
    | false =>
      rw [scanRanges, hexec, List.filter_cons_of_neg (by rw [hexec]; decide), if_pos (by decide)]
      exact ih _
    | true =>
      rw [List.filter_cons_of_pos hexec]
      simp only [scanRanges, ih]

theorem scanRanges_of_not_matches {mod : LoadedModule} {scan : Scan}
    (h : scan.1.matchesModule mod = false) (l : List AddressRange) :
    scanRanges mod l scan = .ok scan := by
  induction l with
  | nil => rfl
  | cons range rest ih =>
    obtain ⟨lib, ranges, loaded⟩ := scan
    rw [scanRanges]
    split_ifs with hexec hmatch
    · exact ih
    · exact ih
    all_goals exact absurd h (by simpa using hmatch)

/-- A library that is recorded for a range of a module. -/
def Lib.record (lib : Lib) (mod : LoadedModule) (id : ℕ) : Lib :=
  { lib with name := some mod.fullName, rangeId := some id }

/-- What the ranges of a matching module do to a library. -/
theorem scanRanges_of_matches {mod : LoadedModule} (h : lib.matchesModule mod = true) :
    scanRanges mod mod.ranges (lib, ranges, false) =
      match mod.code with
      | [] => .ok (lib, ranges, false)
      | range :: rest =>
        if lib.loaded then
          if rest.isEmpty then .ok (lib, ranges, true) else .error .twoLibraries
        else if ranges.length < kMaxIgnoredRanges then
          .ok (lib.record mod ranges.length, ranges ++ [range.slot], true)
        else .error .check := by
  rw [scanRanges_filter]
  change scanRanges mod mod.code _ = _
  have hexec : ∀ range ∈ mod.code, range.executable = true := fun range hr =>
    (List.mem_filter.mp hr).2
  match hcode : mod.code with
  | [] => rfl
  | range :: rest =>
    rw [hcode] at hexec
    have hrange := hexec range List.mem_cons_self
    rw [scanRanges, hrange, h, if_neg (by decide), if_neg (by decide), if_neg (by decide)]
    dsimp only
    split_ifs with hloaded hempty hlen
    · rw [List.isEmpty_iff.mp hempty]
      rfl
    · -- The next range of the module meets the flag that the first has set.
      obtain ⟨next, rest', rfl⟩ := List.exists_cons_of_ne_nil (mt List.isEmpty_iff.mpr hempty)
      have hnext := hexec next (List.mem_cons_of_mem _ List.mem_cons_self)
      rw [scanRanges, hnext, h, if_neg (by decide), if_neg (by decide), if_pos rfl]
    · rfl
    · rfl

theorem matchesModule_of_scanRanges {mod : LoadedModule} {l : List AddressRange} {scan scan' : Scan}
    (h : scanRanges mod l scan = .ok scan') : scan'.1.matchesModule = scan.1.matchesModule := by
  induction l generalizing scan with
  | nil =>
    obtain rfl := Except.ok.inj h
    rfl
  | cons range rest ih =>
    obtain ⟨lib, ranges, loaded⟩ := scan
    rw [scanRanges] at h
    split_ifs at h
    · exact ih h
    · exact ih h
    · have hrest := ih h
      exact hrest
    · obtain rfl := Except.ok.inj h
      rfl

theorem scanModules_filter {p : LoadedModule → Bool} (modules : List LoadedModule) (scan : Scan)
    (h : scan.1.matchesModule = p) : scanModules modules scan = scanModules (modules.filter p) scan := by
  induction modules generalizing scan with
  | nil => rfl
  | cons mod rest ih =>
    cases hp : p mod with
    | false =>
      rw [List.filter_cons_of_neg (by rw [hp]; decide), scanModules,
        scanRanges_of_not_matches (by rw [h, hp])]
      exact ih scan h
    | true =>
      rw [List.filter_cons_of_pos hp, scanModules, scanModules]
      cases hscan : scanRanges mod mod.ranges scan with
      | error e => rfl
      | ok scan' => exact ih scan' ((matchesModule_of_scanRanges hscan).trans h)

/-- The scan of a library that at most one module matches, by that module. -/
theorem scanLib_eq (h : AtMostOne lib modules) (ranges : List LibCodeRange) :
    (found lib modules = [] ∧ scanModules modules (lib, ranges, false) = .ok (lib, ranges, false)) ∨
      ∃ mod range rest, mod ∈ modules ∧ lib.matchesModule mod = true ∧ mod.code = range :: rest ∧
        found lib modules = range :: rest ∧
        scanModules modules (lib, ranges, false) = scanRanges mod mod.ranges (lib, ranges, false) := by
  rw [scanModules_filter modules (lib, ranges, false) rfl]
  unfold found AtMostOne at *
  match hfilter : modules.filter lib.matchesModule with
  | [] => exact Or.inl ⟨rfl, rfl⟩
  | [mod] =>
    have hmem : mod ∈ modules.filter lib.matchesModule := hfilter ▸ List.mem_singleton_self mod
    obtain ⟨hmod, hmatch⟩ := List.mem_filter.mp hmem
    have hone : scanModules [mod] (lib, ranges, false) =
        scanRanges mod mod.ranges (lib, ranges, false) := by
      rw [scanModules]
      cases scanRanges mod mod.ranges (lib, ranges, false) <;> rfl
    rw [List.flatMap_singleton, hone]
    match hcode : mod.code with
    | [] =>
      refine Or.inl ⟨rfl, ?_⟩
      rw [scanRanges_of_matches hmatch, hcode]
    | range :: rest => exact Or.inr ⟨mod, range, rest, hmod, hmatch, hcode, rfl, rfl⟩
  | _ :: _ :: _ =>
    rw [hfilter] at h
    exact absurd h (by simp)

theorem scanLib_nil (h : AtMostOne lib modules) (hfound : found lib modules = []) :
    scanLib modules lib ranges = .ok (match lib.rangeId with
      | some id => ({ lib with rangeId := none }, ranges.modify id .onUnload)
      | none => (lib, ranges)) := by
  rcases scanLib_eq h ranges with ⟨-, hscan⟩ | ⟨mod, range, rest, -, -, -, hcons, -⟩
  · unfold scanLib
    rw [hscan]
    cases hid : lib.rangeId with
    | none => simp [hid, Bind.bind, Except.bind, pure, Except.pure]
    | some id => simp [hid, Bind.bind, Except.bind, pure, Except.pure]
  · exact absurd (hcons.symm.trans hfound) nofun

theorem scanLib_singleton (h : AtMostOne lib modules) {range : AddressRange}
    (hfound : found lib modules = [range]) (hloaded : lib.loaded = true) :
    scanLib modules lib ranges = .ok (lib, ranges) := by
  rcases scanLib_eq h ranges with ⟨hnil, -⟩ | ⟨mod, r, rest, -, hmatch, hcode, hcons, hscan⟩
  · exact absurd (hnil.symm.trans hfound) nofun
  · obtain ⟨rfl, rfl⟩ := List.cons.inj (hcons.symm.trans hfound)
    unfold scanLib
    rw [hscan, scanRanges_of_matches hmatch, hcode]
    dsimp only
    rw [if_pos hloaded, if_pos (show ([] : List AddressRange).isEmpty = true from rfl)]
    obtain ⟨id, hid⟩ := Option.isSome_iff_exists.mp hloaded
    simp [hid, Bind.bind, Except.bind, pure, Except.pure]

theorem scanLib_new (ranges : List LibCodeRange) (h : AtMostOne lib modules) {range : AddressRange} {rest : List AddressRange}
    (hfound : found lib modules = range :: rest) (hloaded : lib.loaded = false) :
    ∃ mod, scanLib modules lib ranges = if ranges.length < kMaxIgnoredRanges then
      .ok (lib.record mod ranges.length, ranges ++ [range.slot]) else .error .check := by
  rcases scanLib_eq h ranges with ⟨hnil, -⟩ | ⟨mod, r, rest', -, hmatch, hcode, hcons, hscan⟩
  · exact absurd (hnil.symm.trans hfound) nofun
  · obtain ⟨rfl, rfl⟩ := List.cons.inj (hcons.symm.trans hfound)
    refine ⟨mod, ?_⟩
    unfold scanLib
    rw [hscan, scanRanges_of_matches hmatch, hcode]
    dsimp only
    rw [if_neg (by rw [hloaded]; decide)]
    split_ifs <;> rfl

theorem scanLib_two (h : AtMostOne lib modules) (hfound : 1 < (found lib modules).length)
    (hloaded : lib.loaded = true) : scanLib modules lib ranges = .error .twoLibraries := by
  rcases scanLib_eq h ranges with ⟨hnil, -⟩ | ⟨mod, r, rest, -, hmatch, hcode, hcons, hscan⟩
  · rw [hnil] at hfound
    exact absurd hfound (by decide)
  · rw [hcons] at hfound
    obtain ⟨next, rest', rfl⟩ := List.exists_cons_of_ne_nil
      (List.ne_nil_of_length_pos (Nat.lt_of_succ_lt_succ hfound))
    unfold scanLib
    rw [hscan, scanRanges_of_matches hmatch, hcode]
    dsimp only
    rw [if_pos hloaded, if_neg (show ¬ (next :: rest').isEmpty = true from Bool.false_ne_true)]
    rfl

/-! ## The table -/

/-- The slots of the table that belong to libraries: no slot belongs to two, and the others are of
unloaded modules. -/
structure Owned (ids : List ℕ) (ranges : List LibCodeRange) : Prop where
  nodup : ids.Nodup
  lt : ∀ id ∈ ids, id < ranges.length
  free : ∀ id slot, ranges[id]? = some slot → id ∉ ids → slot.end = 0

theorem Owned.perm {ids ids' : List ℕ} (h : Owned ids ranges) (hperm : ids.Perm ids') :
    Owned ids' ranges :=
  ⟨hperm.nodup_iff.mp h.nodup, fun id hid => h.lt id (hperm.mem_iff.mpr hid),
    fun id slot hslot hid => h.free id slot hslot fun hmem => hid (hperm.mem_iff.mp hmem)⟩

theorem Owned.push {ids : List ℕ} (h : Owned ids ranges) (slot : LibCodeRange) :
    Owned (ranges.length :: ids) (ranges ++ [slot]) := by
  refine ⟨List.nodup_cons.mpr ⟨fun hmem => lt_irrefl _ (h.lt _ hmem), h.nodup⟩, ?_, ?_⟩
  · intro id hid
    rw [List.length_append, List.length_singleton]
    rcases List.mem_cons.mp hid with rfl | hid
    · exact Nat.lt_succ_self _
    · exact Nat.lt_succ_of_lt (h.lt id hid)
  · intro id slot' hslot hid
    obtain ⟨hne, hid⟩ := not_or.mp (mt List.mem_cons.mpr hid)
    rcases lt_or_ge id ranges.length with hlt | hge
    · rw [List.getElem?_append_left hlt] at hslot
      exact h.free id slot' hslot hid
    · have hlen := (List.getElem?_eq_some_iff.mp hslot).1
      rw [List.length_append, List.length_singleton] at hlen
      omega

theorem Owned.unload {ids : List ℕ} {id : ℕ} (h : Owned (id :: ids) ranges) :
    Owned ids (ranges.modify id .onUnload) := by
  obtain ⟨hid, hnodup⟩ := List.nodup_cons.mp h.nodup
  refine ⟨hnodup, fun j hj => ?_, fun j slot hslot hj => ?_⟩
  · rw [List.length_modify]
    exact h.lt j (List.mem_cons_of_mem _ hj)
  · rcases eq_or_ne id j with rfl | hjid
    · rw [List.getElem?_modify_eq] at hslot
      obtain ⟨old, -, rfl⟩ := Option.map_eq_some_iff.mp hslot
      rfl
    · rw [List.getElem?_modify_ne _ _ hjid] at hslot
      exact h.free j slot hslot (by simp [hj, Ne.symm hjid])

/-- A library is recorded for the one range that is found, or nothing is found. -/
def Recorded (modules : List LoadedModule) (lib : Lib) (ranges : List LibCodeRange) : Prop :=
  match lib.rangeId with
  | some id => ∃ range, found lib modules = [range] ∧ ranges[id]? = some range.slot
  | none => found lib modules = []

/-- Before a scan, a loaded library is recorded for the one range that is found, if any. -/
def Consistent (modules : List LoadedModule) (lib : Lib) (ranges : List LibCodeRange) : Prop :=
  ∀ id, lib.rangeId = some id → ∃ range, ranges[id]? = some range.slot ∧
    (found lib modules = [range] ∨ found lib modules = [])

/-- What the scan of a library keeps. -/
structure Scanned (modules : List LoadedModule) (lib lib' : Lib) : Prop where
  templ : lib'.templ = lib.templ
  realName : lib'.realName = lib.realName
  unloaded : lib'.loaded = false → lib' = lib ∨ lib.loaded = true ∧ found lib modules = []

theorem Scanned.matchesModule (h : Scanned modules lib lib') :
    lib'.matchesModule = lib.matchesModule := by
  funext mod
  unfold Lib.matchesModule
  rw [h.templ, h.realName]

theorem found_congr (h : lib'.matchesModule = lib.matchesModule) :
    found lib' modules = found lib modules := by
  unfold found
  rw [h]

/-- The new ranges that a library brings. -/
def newRanges (modules : List LoadedModule) (lib : Lib) : ℕ :=
  if lib.loaded then 0 else (found lib modules).length

/-- The scan of a library for which at most one range is found. -/
theorem scanLib_spec {others : List ℕ} (howned : Owned (lib.rangeId.toList ++ others) ranges)
    (h : AtMostOne lib modules) (hone : (found lib modules).length ≤ 1)
    (hcons : Consistent modules lib ranges)
    (hfit : ranges.length + newRanges modules lib ≤ kMaxIgnoredRanges) :
    ∃ lib' ranges', scanLib modules lib ranges = .ok (lib', ranges') ∧
      Owned (lib'.rangeId.toList ++ others) ranges' ∧ (∀ id ∈ others, ranges'[id]? = ranges[id]?) ∧
      Recorded modules lib' ranges' ∧ Scanned modules lib lib' ∧
      ranges'.length ≤ ranges.length + newRanges modules lib := by
  match hfound : found lib modules with
  | [] =>
    refine ⟨_, _, scanLib_nil h hfound, ?_⟩
    cases hid : lib.rangeId with
    | none =>
      refine ⟨by rw [hid] at howned; simpa [hid] using howned, fun _ _ => rfl, ?_, ⟨rfl, rfl, fun _ => Or.inl rfl⟩, Nat.le_add_right _ _⟩
      unfold Recorded
      rw [hid]
      exact hfound
    | some id =>
      rw [hid] at howned
      refine ⟨howned.unload, fun j hj => ?_, hfound, ⟨rfl, rfl, fun _ => Or.inr ⟨?_, hfound⟩⟩, ?_⟩
      · have hne : id ≠ j := by
          rintro rfl
          exact (List.nodup_cons.mp howned.nodup).1 hj
        exact List.getElem?_modify_ne _ _ hne
      · unfold Lib.loaded
        rw [hid]
        rfl
      · rw [List.length_modify]
        exact Nat.le_add_right _ _
  | range :: rest =>
    cases hloaded : lib.loaded with
    | true =>
      obtain ⟨id, hid⟩ := Option.isSome_iff_exists.mp hloaded
      obtain ⟨range', hslot, hcases⟩ := hcons id hid
      obtain rfl : rest = [] := by
        rw [hfound] at hone
        exact List.eq_nil_of_length_eq_zero (Nat.le_zero.mp (Nat.le_of_succ_le_succ hone))
      refine ⟨lib, ranges, scanLib_singleton h hfound hloaded, howned, fun _ _ => rfl, ?_,
        ⟨rfl, rfl, fun _ => Or.inl rfl⟩, Nat.le_add_right _ _⟩
      unfold Recorded
      rw [hid]
      exact ⟨range', hcases.resolve_right (by rw [hfound]; nofun), hslot⟩
    | false =>
      have hid : lib.rangeId = none := Option.not_isSome_iff_eq_none.mp (by
        unfold Lib.loaded at hloaded
        rw [hloaded]
        decide)
      have hnew : newRanges modules lib = rest.length + 1 := by
        unfold newRanges
        rw [if_neg (by rw [hloaded]; decide), hfound, List.length_cons]
      obtain rfl : rest = [] := by
        rw [hfound] at hone
        exact List.eq_nil_of_length_eq_zero (Nat.le_zero.mp (Nat.le_of_succ_le_succ hone))
      obtain ⟨mod, hscan⟩ := scanLib_new ranges h hfound hloaded
      rw [if_pos (by omega)] at hscan
      rw [hid] at howned
      refine ⟨_, _, hscan, howned.push range.slot, fun j hj => ?_, ?_, ⟨rfl, rfl, nofun⟩, ?_⟩
      · exact List.getElem?_append_left (howned.lt j hj)
      · refine ⟨range, hfound, ?_⟩
        rw [List.getElem?_append_right le_rfl, Nat.sub_self]
        rfl
      · rw [List.length_append, List.length_singleton, hnew, List.length_nil]

theorem scanLib_of_recorded (h : AtMostOne lib modules) (hrec : Recorded modules lib ranges) :
    scanLib modules lib ranges = .ok (lib, ranges) := by
  unfold Recorded at hrec
  cases hid : lib.rangeId with
  | none =>
    rw [hid] at hrec
    rw [scanLib_nil h hrec, hid]
  | some id =>
    rw [hid] at hrec
    obtain ⟨range, hfound, -⟩ := hrec
    exact scanLib_singleton h hfound (by unfold Lib.loaded; rw [hid]; rfl)

/-! ## All libraries -/

/-- The slots that belong to libraries. -/
def ids (libs : List Lib) : List ℕ := libs.flatMap fun lib => lib.rangeId.toList

/-- The new ranges that libraries bring. -/
def totalNew (modules : List LoadedModule) (libs : List Lib) : ℕ := (libs.map (newRanges modules)).sum

/-- The scan of libraries for each of which at most one range is found. `others` are the slots of the
libraries that have been scanned before. -/
theorem scanLibs_spec {libs : List Lib} {others : List ℕ} (howned : Owned (ids libs ++ others) ranges)
    (h : ∀ lib ∈ libs, AtMostOne lib modules ∧ (found lib modules).length ≤ 1 ∧
      Consistent modules lib ranges)
    (hfit : ranges.length + totalNew modules libs ≤ kMaxIgnoredRanges) :
    ∃ libs' ranges', scanLibs modules libs ranges = .ok (libs', ranges') ∧
      Owned (ids libs' ++ others) ranges' ∧ (∀ id ∈ others, ranges'[id]? = ranges[id]?) ∧
      (∀ lib' ∈ libs', Recorded modules lib' ranges') ∧
      List.Forall₂ (Scanned modules) libs libs' := by
  induction libs generalizing others ranges with
  | nil => exact ⟨[], ranges, rfl, howned, fun _ _ => rfl, nofun, .nil⟩
  | cons lib rest ih =>
    obtain ⟨hatmost, hone, hcons⟩ := h lib List.mem_cons_self
    have hsum : totalNew modules (lib :: rest) = newRanges modules lib + totalNew modules rest := rfl
    have hids : ids (lib :: rest) = lib.rangeId.toList ++ ids rest := List.flatMap_cons
    rw [hids, List.append_assoc] at howned
    obtain ⟨lib', ranges₁, hscan, howned₁, hothers, hrec, hscanned, hlen⟩ :=
      scanLib_spec howned hatmost hone hcons (by omega)
    -- The slots of the libraries still to be scanned are as they were.
    have hrest : ∀ lib₁ ∈ rest, AtMostOne lib₁ modules ∧ (found lib₁ modules).length ≤ 1 ∧
        Consistent modules lib₁ ranges₁ := by
      intro lib₁ hmem
      obtain ⟨h1, h2, h3⟩ := h lib₁ (List.mem_cons_of_mem _ hmem)
      refine ⟨h1, h2, fun id hid => ?_⟩
      obtain ⟨range, hslot, hfound⟩ := h3 id hid
      refine ⟨range, ?_, hfound⟩
      rw [hothers id (List.mem_append_left _ (List.mem_flatMap.mpr ⟨lib₁, hmem, by rw [hid]; simp⟩))]
      exact hslot
    have hperm : (lib'.rangeId.toList ++ (ids rest ++ others)).Perm
        (ids rest ++ (lib'.rangeId.toList ++ others)) := by
      rw [← List.append_assoc, ← List.append_assoc]
      exact List.perm_append_comm.append_right others
    obtain ⟨rest', ranges₂, hscan₂, howned₂, hothers₂, hrec₂, hscanned₂⟩ :=
      ih (howned₁.perm hperm) hrest (by omega)
    refine ⟨lib' :: rest', ranges₂, ?_, ?_, fun id hid => ?_, ?_, .cons hscanned hscanned₂⟩
    · rw [scanLibs, hscan]
      simp only [Bind.bind, Except.bind, hscan₂]
      rfl
    · refine howned₂.perm ?_
      rw [show ids (lib' :: rest') = lib'.rangeId.toList ++ ids rest' from List.flatMap_cons,
        ← List.append_assoc]
      exact List.perm_append_comm.append_right others
    · rw [hothers₂ id (List.mem_append_right _ hid), hothers id (List.mem_append_right _ hid)]
    · intro lib₁ hmem
      rcases List.mem_cons.mp hmem with rfl | hmem
      · unfold Recorded at hrec ⊢
        cases hid : lib₁.rangeId with
        | none =>
          rw [hid] at hrec
          exact hrec
        | some id =>
          rw [hid] at hrec
          obtain ⟨range, hfound, hslot⟩ := hrec
          refine ⟨range, hfound, ?_⟩
          rw [hothers₂ id (List.mem_append_left _ (by rw [hid]; simp))]
          exact hslot
      · exact hrec₂ lib₁ hmem

theorem scanLibs_of_recorded {libs : List Lib}
    (h : ∀ lib ∈ libs, AtMostOne lib modules ∧ Recorded modules lib ranges) :
    scanLibs modules libs ranges = .ok (libs, ranges) := by
  induction libs with
  | nil => rfl
  | cons lib rest ih =>
    obtain ⟨hatmost, hrec⟩ := h lib List.mem_cons_self
    rw [scanLibs, scanLib_of_recorded hatmost hrec]
    simp only [Bind.bind, Except.bind, ih fun lib hmem => h lib (List.mem_cons_of_mem _ hmem)]
    rfl

/-- When all libraries are scanned, each of them is. -/
theorem scanLib_of_scanLibs {libs libs' : List Lib}
    (h : scanLibs modules libs ranges = .ok (libs', ranges')) :
    List.Forall₂ (fun lib lib' => ∃ r r', scanLib modules lib r = .ok (lib', r')) libs libs' := by
  induction libs generalizing libs' ranges with
  | nil =>
    obtain ⟨rfl, -⟩ := Prod.mk.inj (Except.ok.inj h)
    exact .nil
  | cons lib rest ih =>
    rw [scanLibs] at h
    cases hscan : scanLib modules lib ranges with
    | error e =>
      rw [hscan] at h
      exact absurd h nofun
    | ok scan =>
      rw [hscan] at h
      simp only [Bind.bind, Except.bind] at h
      cases hrest : scanLibs modules rest scan.2 with
      | error e =>
        rw [hrest] at h
        exact absurd h nofun
      | ok res =>
        rw [hrest] at h
        obtain ⟨rfl, rfl⟩ := Prod.mk.inj (Except.ok.inj h)
        exact .cons ⟨_, _, hscan⟩ (ih hrest)

end Tasan.LibIgnore
