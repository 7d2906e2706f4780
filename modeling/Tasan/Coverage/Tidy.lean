import Mathlib.Data.List.TakeWhile
import Tasan.Coverage.Dump

/-!
# When the slices are those of the modules

Each slice of the sorted addresses goes to the file of the module it begins in, and it should have the
addresses of this module and no others (`Exact`). `tidy_iff_exact` says for which addresses this is so: those
of no module lie below all others, those of a module lie together, and modules of one base are kept apart
(`Tidy`). Both directions go from one slice to the next.
-/

namespace Tasan.Coverage

variable {L : Layout}

/-! ## Slices and addresses -/

/-- The addresses of a module. -/
def Layout.pcsOf (L : Layout) (mod : LoadedModule) (pcs : List Word) : List Word :=
  pcs.filter (L.moduleOf · = some mod)

/-- Where the addresses have to lie. -/
structure Tidy (L : Layout) (pcs : List Word) : Prop where
  /-- An address of no module lies below all addresses of modules. -/
  unknown_lt : ∀ p ∈ pcs, ∀ u ∈ pcs, L.moduleOf p ≠ none → L.moduleOf u = none → u < p
  /-- Between two addresses of a module there is none of another. -/
  together : ∀ p ∈ pcs, ∀ q ∈ pcs, ∀ r ∈ pcs, p < q → q < r → L.moduleOf p ≠ none →
    L.moduleOf r = L.moduleOf p → L.moduleOf q = L.moduleOf p
  /-- Between addresses of two modules with one base there is one of a module with another base. -/
  apart : ∀ p ∈ pcs, ∀ q ∈ pcs, p < q → ∀ a b, L.moduleOf p = some a → L.moduleOf q = some b →
    a ≠ b → a.baseAddress = b.baseAddress →
    ∃ r ∈ pcs, p < r ∧ r < q ∧ ∃ c, L.moduleOf r = some c ∧ c.baseAddress ≠ a.baseAddress

/-- The slices of a list of addresses are those of its modules, one for each. -/
structure Exact (L : Layout) (pcs : List Word) : Prop where
  /-- No module has two slices. -/
  nodup : ((sections L pcs).map (·.1)).Nodup
  /-- Each module has one. -/
  covers : ∀ pc ∈ pcs, ∀ mod, L.moduleOf pc = some mod → mod ∈ (sections L pcs).map (·.1)
  /-- The slice of a module has the offsets of its addresses. -/
  slices : ∀ e ∈ sections L pcs, e.2 = (L.pcsOf e.1 pcs).map e.1.offset

/-! ## The slices, one at a time -/

/-- An address that does not end a slice of the module. -/
def Layout.continues (L : Layout) (mod : LoadedModule) (pc : Word) : Bool :=
  (L.moduleOf pc).all fun mod' => mod'.baseAddress = mod.baseAddress

theorem sectionsFrom_eq (mod : LoadedModule) (slice rest : List Word) :
    sectionsFrom L mod slice rest =
      (mod, slice ++ (rest.takeWhile (L.continues mod)).map L.rewritten) ::
        sections L (rest.dropWhile (L.continues mod)) := by
  induction rest generalizing slice with
  | nil => simp [sectionsFrom, sections]
  | cons pc rest ih =>
    rw [sectionsFrom]
    rcases hmod : L.moduleOf pc with _ | mod'
    · have hgo : L.continues mod pc = true := by simp [Layout.continues, hmod]
      have hword : L.rewritten pc = pc := by simp [Layout.rewritten, hmod]
      simp [ih, hgo, hword]
    · by_cases hbase : mod'.baseAddress = mod.baseAddress
      · have hgo : L.continues mod pc = true := by simp [Layout.continues, hmod, hbase]
        have hword : L.rewritten pc = mod'.offset pc := by simp [Layout.rewritten, hmod]
        simp [ih, hgo, hword, hbase]
      · have hgo : L.continues mod pc = false := by simp [Layout.continues, hmod, hbase]
        simp [hgo, hbase, sections, hmod]

theorem sections_cons {mod : LoadedModule} {pc : Word} (rest : List Word)
    (h : L.moduleOf pc = some mod) :
    sections L (pc :: rest) =
      (mod, (pc :: rest.takeWhile (L.continues mod)).map L.rewritten) ::
        sections L (rest.dropWhile (L.continues mod)) := by
  have hword : L.rewritten pc = mod.offset pc := by simp [Layout.rewritten, h]
  rw [sections, h]
  dsimp only
  rw [sectionsFrom_eq, List.map_cons, hword, List.singleton_append]

theorem sections_cons_none {pc : Word} (rest : List Word) (h : L.moduleOf pc = none) :
    sections L (pc :: rest) = sections L rest := by
  rw [sections, h]

theorem sections_induction {motive : List Word → Prop} (nil : motive [])
    (unknown : ∀ pc rest, L.moduleOf pc = none → motive rest → motive (pc :: rest))
    (slice : ∀ pc rest mod, L.moduleOf pc = some mod →
      motive (rest.dropWhile (L.continues mod)) → motive (pc :: rest)) (l : List Word) :
    motive l := by
  induction hn : l.length using Nat.strong_induction_on generalizing l with
  | _ n ih =>
    subst hn
    rcases l with _ | ⟨pc, rest⟩
    · exact nil
    · rcases hmod : L.moduleOf pc with _ | mod
      · exact unknown pc rest hmod (ih rest.length (by simp) rest rfl)
      · refine slice pc rest mod hmod (ih _ ?_ _ rfl)
        rw [List.length_cons]
        exact Nat.lt_succ_of_le (List.dropWhile_sublist _).length_le

theorem covered_of_mem_sections (l : List Word) :
    ∀ e ∈ sections L l, ∃ pc ∈ l, L.moduleOf pc = some e.1 := by
  induction l using sections_induction (L := L) with
  | nil => simp [sections]
  | unknown pc rest h ih =>
    intro e he
    rw [sections_cons_none rest h] at he
    obtain ⟨x, hx, hmod⟩ := ih e he
    exact ⟨x, List.mem_cons_of_mem pc hx, hmod⟩
  | slice pc rest mod h ih =>
    intro e he
    rw [sections_cons rest h, List.mem_cons] at he
    rcases he with rfl | he
    · exact ⟨pc, List.mem_cons_self, h⟩
    · obtain ⟨x, hx, hmod⟩ := ih e he
      exact ⟨x, List.mem_cons_of_mem pc ((List.dropWhile_sublist _).mem hx), hmod⟩

theorem sum_length_sections (l : List Word) (hl : ∀ pc ∈ l.head?, L.moduleOf pc ≠ none) :
    ((sections L l).map (·.2.length)).sum = l.length := by
  induction l using sections_induction (L := L) with
  | nil => rfl
  | unknown pc rest h => exact absurd h (hl pc rfl)
  | slice pc rest mod h ih =>
    have hhead : ∀ x ∈ (rest.dropWhile (L.continues mod)).head?, L.moduleOf x ≠ none := by
      intro x hx hnone
      have hend : L.continues mod x = false := by
        have := List.head?_dropWhile_not (L.continues mod) rest
        rw [hx] at this
        simpa using this
      simp [Layout.continues, hnone] at hend
    have hsplit := congrArg List.length
      (List.takeWhile_append_dropWhile (p := L.continues mod) (l := rest))
    rw [List.length_append] at hsplit
    rw [sections_cons rest h, List.map_cons, List.sum_cons, ih hhead]
    simp only [List.length_map, List.length_cons]
    omega

/-! ## From the slices to the addresses -/

theorem offset_injective (mod : LoadedModule) : Function.Injective mod.offset :=
  fun _ _ h => sub_left_injective h

theorem length_pcsOf (mod : LoadedModule) (l : List Word) :
    (L.pcsOf mod l).length = (l.filterMap L.moduleOf).count mod := by
  induction l with
  | nil => rfl
  | cons pc l ih =>
    unfold Layout.pcsOf at ih ⊢
    rcases hmod : L.moduleOf pc with _ | mod'
    · simp [hmod, ih]
    · rcases eq_or_ne mod' mod with rfl | hne
      · simp [hmod, ih]
      · simp [hmod, ih, hne]

theorem sum_count_eq_length {α : Type} [DecidableEq α] {keys : List α} (hkeys : keys.Nodup)
    {l : List α} (hl : ∀ a ∈ l, a ∈ keys) : (keys.map (l.count ·)).sum = l.length := by
  rw [← List.sum_toFinset _ hkeys]
  have hcard := Multiset.sum_count_eq_card (s := keys.toFinset) (m := (l : Multiset α))
    fun a ha => List.mem_toFinset.mpr (hl a (by simpa using ha))
  simpa using hcard

/-- With exact slices there is no address without a module behind one of a module: each such address would
take up room in some slice, and the slices are not longer than the addresses of modules. -/
theorem Exact.known {pc : Word} {rest : List Word} {mod : LoadedModule}
    (h : Exact L (pc :: rest)) (hpc : L.moduleOf pc = some mod) :
    ∀ x ∈ pc :: rest, L.moduleOf x ≠ none := by
  have hsum := sum_length_sections (L := L) (pc :: rest) (by simp [hpc])
  have hcount : ((sections L (pc :: rest)).map (·.2.length)).sum =
      ((pc :: rest).filterMap L.moduleOf).length := by
    calc ((sections L (pc :: rest)).map (·.2.length)).sum
        = ((sections L (pc :: rest)).map fun e =>
            ((pc :: rest).filterMap L.moduleOf).count e.1).sum := by
          refine congrArg List.sum (List.map_congr_left fun e he => ?_)
          rw [h.slices e he, List.length_map, length_pcsOf]
      _ = (((sections L (pc :: rest)).map (·.1)).map
            (((pc :: rest).filterMap L.moduleOf).count ·)).sum := by
          rw [List.map_map]
          rfl
      _ = ((pc :: rest).filterMap L.moduleOf).length := by
          apply sum_count_eq_length h.nodup
          intro m hm
          obtain ⟨x, hx, hxm⟩ := List.mem_filterMap.mp hm
          exact h.covers x hx m hxm
  intro x hx hnone
  have hall := List.filterMap_length_eq_length.mp (hcount.symm.trans hsum)
  have := hall x hx
  rw [hnone] at this
  exact Bool.noConfusion this

/-- With exact slices, the first one holds the addresses of its module and only these. -/
theorem Exact.pcsOf_head {pc : Word} {rest : List Word} {mod : LoadedModule}
    (h : Exact L (pc :: rest)) (hpc : L.moduleOf pc = some mod) :
    L.pcsOf mod (pc :: rest) = pc :: rest.takeWhile (L.continues mod) := by
  have hslice := h.slices (mod, (pc :: rest.takeWhile (L.continues mod)).map L.rewritten) (by
    rw [sections_cons rest hpc]
    exact List.mem_cons_self)
  dsimp only at hslice
  have hword : (pc :: rest.takeWhile (L.continues mod)).map L.rewritten =
      (pc :: rest.takeWhile (L.continues mod)).map mod.offset := by
    refine List.map_congr_left fun x hx => ?_
    have hbase : L.continues mod x = true := by
      rcases List.mem_cons.mp hx with rfl | hx
      · simp [Layout.continues, hpc]
      · exact List.mem_takeWhile_imp hx
    have hknown := h.known hpc x (by
      rcases List.mem_cons.mp hx with rfl | hx
      · exact List.mem_cons_self
      · exact List.mem_cons_of_mem pc ((List.takeWhile_sublist _).mem hx))
    obtain ⟨mod', hmod'⟩ := Option.ne_none_iff_exists'.mp hknown
    have : mod'.baseAddress = mod.baseAddress := by simpa [Layout.continues, hmod'] using hbase
    simp [Layout.rewritten, hmod', LoadedModule.offset, this]
  rw [hword] at hslice
  exact ((List.map_injective_iff.mpr (offset_injective mod)) hslice).symm

theorem pcsOf_append (mod : LoadedModule) (l l' : List Word) :
    L.pcsOf mod (l ++ l') = L.pcsOf mod l ++ L.pcsOf mod l' :=
  List.filter_append ..

theorem pcsOf_cons_none {pc : Word} (h : L.moduleOf pc = none) (mod : LoadedModule) (l : List Word) :
    L.pcsOf mod (pc :: l) = L.pcsOf mod l := by
  simp [Layout.pcsOf, h]

theorem pcsOf_eq_nil {mod mod' : LoadedModule} (hne : mod' ≠ mod) {l : List Word}
    (h : L.pcsOf mod l = l) : L.pcsOf mod' l = [] := by
  unfold Layout.pcsOf at h ⊢
  rw [List.filter_eq_self] at h
  rw [List.filter_eq_nil_iff]
  intro x hx hx'
  have hmod := of_decide_eq_true (h x hx)
  rw [hmod] at hx'
  exact hne (Option.some.inj (of_decide_eq_true hx')).symm

/-- Addresses of no module in front do not matter. -/
theorem exact_cons_none {pc : Word} {rest : List Word} (h : L.moduleOf pc = none) :
    Exact L (pc :: rest) ↔ Exact L rest := by
  constructor
  · intro hex
    refine ⟨?_, fun x hx m hm => ?_, fun e he => ?_⟩
    · rw [← sections_cons_none rest h]
      exact hex.nodup
    · rw [← sections_cons_none rest h]
      exact hex.covers x (List.mem_cons_of_mem pc hx) m hm
    · rw [← pcsOf_cons_none h]
      exact hex.slices e (by rwa [sections_cons_none rest h])
  · intro hex
    refine ⟨?_, fun x hx m hm => ?_, fun e he => ?_⟩
    · rw [sections_cons_none rest h]
      exact hex.nodup
    · rw [sections_cons_none rest h]
      rcases List.mem_cons.mp hx with rfl | hx
      · exact absurd (h.symm.trans hm) (Option.some_ne_none m).symm
      · exact hex.covers x hx m hm
    · rw [pcsOf_cons_none h]
      exact hex.slices e (by rwa [sections_cons_none rest h] at he)

/-- When the first slice holds the addresses of its module, the others are exact for the list as they are for
the rest. -/
theorem exact_cons {pc : Word} {rest : List Word} {mod : LoadedModule}
    (hpc : L.moduleOf pc = some mod)
    (hhead : L.pcsOf mod (pc :: rest) = pc :: rest.takeWhile (L.continues mod)) :
    Exact L (pc :: rest) ↔ Exact L (rest.dropWhile (L.continues mod)) := by
  set tw := rest.takeWhile (L.continues mod) with htw
  set dw := rest.dropWhile (L.continues mod) with hdw
  have hrest : pc :: rest = (pc :: tw) ++ dw := by
    rw [List.cons_append, htw, hdw, List.takeWhile_append_dropWhile]
  have hsections := sections_cons (L := L) rest hpc
  rw [← htw, ← hdw] at hsections
  -- The slice takes all addresses of its module.
  rw [hrest, pcsOf_append] at hhead
  have hlen := congrArg List.length hhead
  rw [List.length_append] at hlen
  have hself : L.pcsOf mod (pc :: tw) = pc :: tw := by
    refine List.filter_eq_self.mpr fun x hx => ?_
    rw [← hhead, ← pcsOf_append] at hx
    exact (List.mem_filter.mp hx).2
  have hnone : L.pcsOf mod dw = [] := by
    rw [hself] at hlen
    exact List.length_eq_zero_iff.mp (by omega)
  have hnotin : ∀ x ∈ dw, L.moduleOf x ≠ some mod := by
    intro x hx hmod
    exact List.filter_eq_nil_iff.mp hnone x hx (decide_eq_true hmod)
  have hother : ∀ m ≠ mod, L.pcsOf m (pc :: rest) = L.pcsOf m dw := by
    intro m hm
    rw [hrest, pcsOf_append, pcsOf_eq_nil hm hself, List.nil_append]
  have hne : ∀ e ∈ sections L dw, e.1 ≠ mod := by
    intro e he heq
    obtain ⟨x, hx, hmod⟩ := covered_of_mem_sections dw e he
    exact hnotin x hx (heq ▸ hmod)
  constructor
  · intro hex
    refine ⟨?_, fun x hx m hm => ?_, fun e he => ?_⟩
    · have := hex.nodup
      rw [hsections, List.map_cons] at this
      exact (List.nodup_cons.mp this).2
    · have hmem := hex.covers x (by rw [hrest]; exact List.mem_append_right _ hx) m hm
      rw [hsections, List.map_cons, List.mem_cons] at hmem
      exact hmem.resolve_left fun (h : m = mod) => hnotin x hx (h ▸ hm)
    · rw [← hother e.1 (hne e he)]
      exact hex.slices e (by rw [hsections]; exact List.mem_cons_of_mem _ he)
  · intro hex
    refine ⟨?_, fun x hx m hm => ?_, fun e he => ?_⟩
    · rw [hsections, List.map_cons, List.nodup_cons]
      refine ⟨fun hmem => ?_, hex.nodup⟩
      obtain ⟨e, he, heq⟩ := List.mem_map.mp hmem
      exact hne e he heq
    · rw [hsections, List.map_cons, List.mem_cons]
      rw [hrest, List.mem_append] at hx
      rcases hx with hx | hx
      · have hmod := of_decide_eq_true (List.filter_eq_self.mp hself x hx)
        rw [hm] at hmod
        exact Or.inl (Option.some.inj hmod)
      · exact Or.inr (hex.covers x hx m hm)
    · rw [hsections, List.mem_cons] at he
      rcases he with rfl | he
      · dsimp only
        rw [hrest, pcsOf_append, hself, hnone, List.append_nil]
        refine List.map_congr_left fun x hx => ?_
        have hmod := of_decide_eq_true (List.filter_eq_self.mp hself x hx)
        simp [Layout.rewritten, hmod]
      · rw [hother e.1 (hne e he)]
        exact hex.slices e he

/-! ## From the addresses to the slices -/

theorem Tidy.of_append {front l : List Word} (hsort : (front ++ l).Pairwise (· ≤ ·))
    (h : Tidy L (front ++ l)) : Tidy L l := by
  have hin : ∀ x ∈ l, x ∈ front ++ l := fun x hx => List.mem_append_right front hx
  refine ⟨fun p hp u hu => h.unknown_lt p (hin p hp) u (hin u hu),
    fun p hp q hq r hr => h.together p (hin p hp) q (hin q hq) r (hin r hr),
    fun p hp q hq hpq a b ha hb hab hbase => ?_⟩
  obtain ⟨r, hr, hpr, hrq, hother⟩ := h.apart p (hin p hp) q (hin q hq) hpq a b ha hb hab hbase
  refine ⟨r, (List.mem_append.mp hr).resolve_left fun hfront => ?_, hpr, hrq, hother⟩
  have := (List.pairwise_append.mp hsort).2.2 r hfront p hp
  bv_omega

theorem Tidy.known {pc : Word} {rest : List Word} {mod : LoadedModule} (h : Tidy L (pc :: rest))
    (hsort : (pc :: rest).Pairwise (· ≤ ·)) (hpc : L.moduleOf pc = some mod) :
    ∀ x ∈ pc :: rest, L.moduleOf x ≠ none := by
  intro x hx hnone
  have hlt := h.unknown_lt pc List.mem_cons_self x hx (by simp [hpc]) hnone
  rcases List.mem_cons.mp hx with rfl | hx
  · bv_omega
  · have := (List.pairwise_cons.mp hsort).1 x hx
    bv_omega

theorem of_not_continues {mod : LoadedModule} {x : Word} (h : ¬ L.continues mod x = true) :
    ∃ c, L.moduleOf x = some c ∧ c.baseAddress ≠ mod.baseAddress := by
  rcases hx : L.moduleOf x with _ | c
  · simp [Layout.continues, hx] at h
  · exact ⟨c, rfl, by simpa [Layout.continues, hx] using h⟩

/-- The first slice of tidy addresses holds the addresses of its module. -/
theorem Tidy.pcsOf_head {pc : Word} {rest : List Word} {mod : LoadedModule}
    (h : Tidy L (pc :: rest)) (hsort : (pc :: rest).Pairwise (· ≤ ·))
    (hpc : L.moduleOf pc = some mod) :
    L.pcsOf mod (pc :: rest) = pc :: rest.takeWhile (L.continues mod) := by
  have hknown := h.known hsort hpc
  have hle := (List.pairwise_cons.mp hsort).1
  have hrest := List.takeWhile_append_dropWhile (p := L.continues mod) (l := rest)
  have horder := (List.pairwise_cons.mp hsort).2
  rw [← hrest, List.pairwise_append] at horder
  -- An address of another module with the same base would be kept apart by an address in between, but none of
  -- the slice has another base.
  have htw : ∀ x ∈ rest.takeWhile (L.continues mod), L.moduleOf x = some mod := by
    intro x hx
    have hxin : x ∈ rest := (List.takeWhile_sublist _).mem hx
    obtain ⟨m, hm⟩ := Option.ne_none_iff_exists'.mp (hknown x (List.mem_cons_of_mem pc hxin))
    have hbase : m.baseAddress = mod.baseAddress := by
      simpa [Layout.continues, hm] using List.mem_takeWhile_imp hx
    by_contra hne
    rw [hm] at hne
    have hxne : pc ≠ x := by
      rintro rfl
      exact hne (hm.symm.trans hpc)
    have hlt : pc < x := by
      have := hle x hxin
      bv_omega
    obtain ⟨r, hr, hpr, hrx, c, hc, hcb⟩ := h.apart pc List.mem_cons_self x
      (List.mem_cons_of_mem pc hxin) hlt mod m hpc hm (fun h => hne (h ▸ rfl)) hbase.symm
    rcases List.mem_cons.mp hr with rfl | hr
    · bv_omega
    · rw [← hrest, List.mem_append] at hr
      rcases hr with hr | hr
      · exact hcb (by simpa [Layout.continues, hc] using List.mem_takeWhile_imp hr)
      · have := horder.2.2 x hx r hr
        bv_omega
  -- An address of the module behind the slice would have the slice's end between itself and the first one.
  have hdw : ∀ x ∈ rest.dropWhile (L.continues mod), L.moduleOf x ≠ some mod := by
    intro x hx hmod
    have hxin : x ∈ rest := (List.dropWhile_sublist _).mem hx
    obtain ⟨y, ys, hy⟩ := List.exists_cons_of_ne_nil (List.ne_nil_of_mem hx)
    have hend : ¬ L.continues mod y = true := by
      have := List.head?_dropWhile_not (L.continues mod) rest
      rw [hy] at this
      simpa using this
    obtain ⟨c, hc, hcb⟩ := of_not_continues hend
    have hyin : y ∈ rest := (List.dropWhile_sublist _).mem (hy ▸ List.mem_cons_self)
    have hcne : L.moduleOf y ≠ some mod := by
      intro h
      exact hcb (congrArg _ (Option.some.inj (hc.symm.trans h)))
    have hpy : pc < y := by
      have hne : pc ≠ y := fun h => hcne (h ▸ hpc)
      have := hle y hyin
      bv_omega
    have hyx : y < x := by
      have hne : y ≠ x := fun h => hcne (h ▸ hmod)
      have hsorted := horder.2.1
      rw [hy, List.pairwise_cons] at hsorted
      rw [hy] at hx
      have := hsorted.1 x ((List.mem_cons.mp hx).resolve_left hne.symm)
      bv_omega
    have := h.together pc List.mem_cons_self y (List.mem_cons_of_mem pc hyin) x
      (List.mem_cons_of_mem pc hxin) hpy hyx (by simp [hpc]) (hmod.trans hpc.symm)
    exact hcne (this.trans hpc)
  calc L.pcsOf mod (pc :: rest)
      = L.pcsOf mod ((pc :: rest.takeWhile (L.continues mod)) ++ rest.dropWhile (L.continues mod)) := by
        rw [List.cons_append, hrest]
    _ = (pc :: rest.takeWhile (L.continues mod)) ++ [] := by
        rw [pcsOf_append]
        congr 1
        · refine List.filter_eq_self.mpr fun x hx => decide_eq_true ?_
          rcases List.mem_cons.mp hx with rfl | hx
          · exact hpc
          · exact htw x hx
        · exact List.filter_eq_nil_iff.mpr fun x hx hmod => hdw x hx (of_decide_eq_true hmod)
    _ = pc :: rest.takeWhile (L.continues mod) := List.append_nil _

theorem Tidy.exact {l : List Word} (hsort : l.Pairwise (· ≤ ·)) (h : Tidy L l) : Exact L l := by
  induction l using sections_induction (L := L) with
  | nil => exact ⟨List.nodup_nil, by simp, by simp [sections]⟩
  | unknown pc rest hpc ih =>
    have hrest : Tidy L rest := Tidy.of_append (l := rest) (show ([pc] ++ rest).Pairwise _ from hsort) h
    exact (exact_cons_none hpc).mpr (ih (List.pairwise_cons.mp hsort).2 hrest)
  | slice pc rest mod hpc ih =>
    refine (exact_cons hpc (h.pcsOf_head hsort hpc)).mpr ?_
    have hrest : (pc :: rest.takeWhile (L.continues mod)) ++ rest.dropWhile (L.continues mod) =
        pc :: rest := by
      rw [List.cons_append, List.takeWhile_append_dropWhile]
    rw [← hrest] at hsort h
    exact ih (List.pairwise_append.mp hsort).2.1 (h.of_append hsort)

/-- An address of no module in front leaves a sorted list tidy. -/
theorem Tidy.cons_none {pc : Word} {rest : List Word} (hsort : (pc :: rest).Pairwise (· ≤ ·))
    (hpc : L.moduleOf pc = none) (h : Tidy L rest) : Tidy L (pc :: rest) := by
  have hle := (List.pairwise_cons.mp hsort).1
  have hin : ∀ x ∈ pc :: rest, L.moduleOf x ≠ none → x ∈ rest := fun x hx hmod =>
    (List.mem_cons.mp hx).resolve_left fun heq => hmod (heq ▸ hpc)
  refine ⟨fun p hp u hu hmod hnone => ?_, fun p hp q hq r hr hpq hqr hmod heq => ?_,
    fun p hp q hq hpq a b ha hb hab hbase => ?_⟩
  · have hp' := hin p hp hmod
    rcases List.mem_cons.mp hu with rfl | hu
    · have hne : u ≠ p := fun heq => hmod (heq ▸ hnone)
      have := hle p hp'
      bv_omega
    · exact h.unknown_lt p hp' u hu hmod hnone
  · have hp' := hin p hp hmod
    rcases List.mem_cons.mp hq with rfl | hq
    · have := hle p hp'
      bv_omega
    · exact h.together p hp' q hq r (hin r hr (heq ▸ hmod)) hpq hqr hmod heq
  · obtain ⟨r, hr, hbetween⟩ := h.apart p (hin p hp (by simp [ha])) q (hin q hq (by simp [hb])) hpq a b
      ha hb hab hbase
    exact ⟨r, List.mem_cons_of_mem pc hr, hbetween⟩

/-- Addresses with modules are tidy when those behind the first slice are and the slice holds the addresses of
its module. -/
theorem Tidy.cons {pc : Word} {rest : List Word} {mod : LoadedModule}
    (hsort : (pc :: rest).Pairwise (· ≤ ·)) (hknown : ∀ x ∈ pc :: rest, L.moduleOf x ≠ none)
    (hpc : L.moduleOf pc = some mod)
    (hhead : L.pcsOf mod (pc :: rest) = pc :: rest.takeWhile (L.continues mod))
    (h : Tidy L (rest.dropWhile (L.continues mod))) : Tidy L (pc :: rest) := by
  have hdwmem : ∀ x ∈ rest.dropWhile (L.continues mod), x ∈ pc :: rest := fun x hx =>
    List.mem_cons_of_mem pc ((List.dropWhile_sublist _).mem hx)
  have hhd := List.head?_dropWhile_not (L.continues mod) rest
  have hrest : pc :: rest = (pc :: rest.takeWhile (L.continues mod)) ++
      rest.dropWhile (L.continues mod) := by
    rw [List.cons_append, List.takeWhile_append_dropWhile]
  generalize rest.takeWhile (L.continues mod) = tw at *
  generalize rest.dropWhile (L.continues mod) = dw at *
  have horder := hsort
  rw [hrest, List.pairwise_append] at horder
  -- The addresses of the module are those of the slice.
  have hmod : ∀ x ∈ pc :: rest, L.moduleOf x = some mod ↔ x ∈ pc :: tw := by
    intro x hx
    rw [← hhead]
    exact ⟨fun h => List.mem_filter.mpr ⟨hx, decide_eq_true h⟩,
      fun h => of_decide_eq_true (List.mem_filter.mp h).2⟩
  have hsplit : ∀ x ∈ pc :: rest, x ∈ pc :: tw ∨ x ∈ dw := fun x hx =>
    List.mem_append.mp (hrest ▸ hx)
  refine ⟨fun p _ u hu _ hnone => absurd hnone (hknown u hu),
    fun p hp q hq r hr hpq hqr hpmod heq => ?_, fun p hp q hq hpq a b ha hb hab hbase => ?_⟩
  · rcases hsplit p hp with hp' | hp'
    · have hpm := (hmod p hp).mpr hp'
      rcases hsplit q hq with hq' | hq'
      · exact ((hmod q hq).mpr hq').trans hpm.symm
      · have hr' := (hmod r hr).mp (heq.trans hpm)
        have := horder.2.2 r hr' q hq'
        bv_omega
    · have hlater : ∀ x ∈ pc :: rest, p < x → x ∈ dw := fun x hx hpx =>
        (hsplit x hx).resolve_left fun hx' => by
          have := horder.2.2 x hx' p hp'
          bv_omega
      exact h.together p hp' q (hlater q hq hpq) r (hlater r hr (by bv_omega)) hpq hqr hpmod heq
  · rcases hsplit p hp with hp' | hp'
    · have ha' : a = mod := Option.some.inj (ha.symm.trans ((hmod p hp).mpr hp'))
      subst ha'
      -- The address that ends the slice lies between the two.
      have hq' : q ∈ dw := (hsplit q hq).resolve_left fun hq' =>
        hab (Option.some.inj (((hmod q hq).mpr hq').symm.trans hb))
      obtain ⟨y, ys, hy⟩ := List.exists_cons_of_ne_nil (List.ne_nil_of_mem hq')
      have hyin : y ∈ dw := hy ▸ List.mem_cons_self
      rw [hy] at hhd
      obtain ⟨c, hc, hcb⟩ := of_not_continues (show ¬ L.continues a y = true by simpa using hhd)
      have hpy := horder.2.2 p hp' y hyin
      have hpne : p ≠ y := fun heq => hcb (congrArg _ (Option.some.inj (hc.symm.trans (heq ▸ ha))))
      have hqne : y ≠ q := fun heq =>
        hcb ((congrArg _ (Option.some.inj (hc.symm.trans (heq ▸ hb)))).trans hbase.symm)
      have hyq : y ≤ q := by
        have hsorted := horder.2.1
        rw [hy, List.pairwise_cons] at hsorted
        rw [hy] at hq'
        exact hsorted.1 q ((List.mem_cons.mp hq').resolve_left hqne.symm)
      exact ⟨y, hdwmem y hyin, by bv_omega, by bv_omega, c, hc, hcb⟩
    · have hq' : q ∈ dw := (hsplit q hq).resolve_left fun hq' => by
        have := horder.2.2 q hq' p hp'
        bv_omega
      obtain ⟨r, hr, hbetween⟩ := h.apart p hp' q hq' hpq a b ha hb hab hbase
      exact ⟨r, hdwmem r hr, hbetween⟩

theorem Exact.tidy {l : List Word} (hsort : l.Pairwise (· ≤ ·)) (h : Exact L l) : Tidy L l := by
  induction l using sections_induction (L := L) with
  | nil => exact ⟨by simp, by simp, by simp⟩
  | unknown pc rest hpc ih =>
    exact Tidy.cons_none hsort hpc (ih (List.pairwise_cons.mp hsort).2 ((exact_cons_none hpc).mp h))
  | slice pc rest mod hpc ih =>
    have hhead := h.pcsOf_head hpc
    have hdw : (rest.dropWhile (L.continues mod)).Pairwise (· ≤ ·) :=
      (List.pairwise_cons.mp hsort).2.sublist (List.dropWhile_sublist _)
    exact Tidy.cons hsort (h.known hpc) hpc hhead (ih hdw ((exact_cons hpc hhead).mp h))

theorem tidy_iff_exact {l : List Word} (hsort : l.Pairwise (· ≤ ·)) : Tidy L l ↔ Exact L l :=
  ⟨fun h => h.exact hsort, fun h => h.tidy hsort⟩

end Tasan.Coverage
