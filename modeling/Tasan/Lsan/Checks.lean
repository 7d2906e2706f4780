import Tasan.Lsan.Classify

/-!
# One leak check after another

A check ends by resetting the tags: each chunk becomes directly leaked again, except for the ignored
ones, which are to stay ignored. They do unless a thread context has a pointer into one. The leaks
that are found do not depend on it: `ProcessThreadRegistry` makes such a chunk a root again in the
next check.
-/

namespace Tasan.Lsan

variable {H : Heap} {roots : Roots} {tags : Tags} {n : ℕ}

/-- The tags that a check starts from: each chunk is directly leaked or ignored. -/
def Initial (H : Heap) (tags : Tags) : Prop :=
  ∀ c ∈ H.chunks, tags c = .kDirectlyLeaked ∨ tags c = .kIgnored

theorem Initial.ne (h : Initial H tags) : ∀ c ∈ H.chunks, tags c ≠ .kReachable := by
  intro c hc
  rcases h c hc with h | h <;> rw [h] <;> decide

/-- What a check finds, from the tags before it. -/
noncomputable def found (H : Heap) (roots : Roots) (tags : Tags) : Tags :=
  classification H roots (ignoreSuppressed H roots.suppressed tags)

theorem foldl_resetTagsCb (chunks : List ℕ) (tags : Tags) (c : ℕ) :
    chunks.foldl (resetTagsCb H) tags c =
      if c ∈ chunks ∧ H.allocated c = true ∧ tags c ≠ .kIgnored then .kDirectlyLeaked
      else tags c := by
  induction chunks generalizing tags with
  | nil => simp
  | cons chunk chunks ih =>
    rw [List.foldl_cons, ih]
    unfold resetTagsCb
    rcases eq_or_ne c chunk with rfl | hne
    · split_ifs <;> simp_all
    · simp only [List.mem_cons, hne, false_or]
      split_ifs <;> simp_all [Function.update_of_ne]

theorem checkForLeaks_eq (ht : Initial H tags) (hn : fuel H roots ≤ n) :
    checkForLeaks H id n roots tags = some (collectAndReset H (found H roots tags)) := by
  unfold checkForLeaks
  rw [classifyAllChunks_eq id (fun l => List.Perm.refl l) hn ht.ne]
  rfl

theorem found_eq_ignored_iff {c : ℕ} :
    found H roots tags c = .kIgnored ↔
      ignoreSuppressed H roots.suppressed tags c = .kIgnored ∧
        c ∉ threadChunks H roots.threadPtrs := by
  unfold found classification
  dsimp only
  split_ifs with h₁ h₂ h₃ h₄
  · simp [h₁]
  · simp [h₁, h₂]
  · simp [h₂]
  · simp [h₂]
  · simp [h₂]

theorem reset_apply (c : ℕ) :
    (collectAndReset H (found H roots tags)).2 c =
      if c ∈ H.chunks ∧ H.allocated c = true ∧ found H roots tags c ≠ .kIgnored
      then .kDirectlyLeaked else found H roots tags c :=
  foldl_resetTagsCb H.chunks _ c

theorem found_of_not_allocated {c : ℕ} (h : ¬ (c ∈ H.chunks ∧ H.allocated c = true)) :
    found H roots tags c = tags c := by
  have hsupp : ignoreSuppressed H roots.suppressed tags c = tags c := by
    rw [ignoreSuppressed_apply, if_neg fun hs => h ⟨hs.1, hs.2.1⟩]
  unfold found classification
  dsimp only
  rw [if_neg fun hc => h (threadChunks_mem hc), hsupp]
  split_ifs with h₁ h₂ h₃
  · exact h₁.symm
  · exact absurd (reach_mem h₂) h
  · obtain ⟨_, -, -, -, hE⟩ := h₃
    exact absurd hE.mem h
  · rfl

theorem Initial.reset (ht : Initial H tags) :
    Initial H (collectAndReset H (found H roots tags)).2 := by
  intro c hc
  rw [reset_apply]
  split_ifs with h
  · exact Or.inl rfl
  · by_cases halloc : H.allocated c = true
    · refine Or.inr ?_
      by_contra hne
      exact h ⟨hc, halloc, hne⟩
    · rw [found_of_not_allocated fun h => halloc h.2]
      exact ht c hc

/-- Away from the thread contexts, the chunks that a second check ignores are those of the first, and
the others have the same tag. -/
theorem ignoreSuppressed_reset (roots : Roots) (ht : Initial H tags) {c : ℕ}
    (hc : c ∉ threadChunks H roots.threadPtrs) :
    ignoreSuppressed H roots.suppressed (collectAndReset H (found H roots tags)).2 c =
      ignoreSuppressed H roots.suppressed tags c := by
  by_cases hmem : c ∈ H.chunks ∧ H.allocated c = true
  · have hfound : found H roots tags c = .kIgnored ↔ _ := found_eq_ignored_iff
    rw [ignoreSuppressed_apply, reset_apply]
    rw [ignoreSuppressed_apply] at hfound ⊢
    split_ifs with hs hi
    · rfl
    · -- what is not found ignored has not been ignored before
      rw [if_neg hs] at hfound
      refine ((ht c hmem.1).resolve_right fun h => hi.2.2 (hfound.mpr ⟨h, hc⟩)).symm
    · rw [if_neg hs] at hfound
      have hfi : found H roots tags c = .kIgnored := by
        by_contra hne
        exact hi ⟨hmem.1, hmem.2, hne⟩
      rw [hfi, (hfound.mp hfi).1]
  · have hsupp : ∀ tags, ignoreSuppressed H roots.suppressed tags c = tags c := fun tags => by
      rw [ignoreSuppressed_apply, if_neg fun hs => hmem ⟨hs.1, hs.2.1⟩]
    rw [hsupp, hsupp, reset_apply, if_neg fun h => hmem ⟨h.1, h.2.1⟩, found_of_not_allocated hmem]

theorem found_reset (ht : Initial H tags) :
    found H roots (collectAndReset H (found H roots tags)).2 = found H roots tags := by
  have hkeep := fun c => ignoreSuppressed_reset roots (c := c) ht
  unfold found at hkeep ⊢
  generalize ignoreSuppressed H roots.suppressed (collectAndReset H _).2 = t' at hkeep ⊢
  generalize ignoreSuppressed H roots.suppressed tags = t at hkeep ⊢
  -- the ignored chunks that the thread contexts point into are roots in any case
  have hroots : rootSet H t' roots = rootSet H t roots := by
    ext c
    unfold rootSet
    by_cases hc : c ∈ threadChunks H roots.threadPtrs
    · simp [hc]
    · simp [ignored, hkeep c hc]
  funext c
  unfold classification
  dsimp only
  rw [hroots]
  by_cases hc : c ∈ threadChunks H roots.threadPtrs
  · rw [if_pos hc, if_pos hc]
  · rw [hkeep c hc]

/-! ## Runs of checks -/

/-- What a check is to do: the ignored chunks, and those that it has tagged so itself, are ignored
when it is over, the other allocated chunks are reset, and a second check from the tags that it leaves
finds and collects the same. -/
def Keeps (H : Heap) (n : ℕ) (roots : Roots) (tags : Tags) : Prop :=
  ∃ found leaks tags', classifyAllChunks H id n roots tags = some found ∧
    checkForLeaks H id n roots tags = some (leaks, tags') ∧
    (∀ c ∈ H.chunks, tags c = .kIgnored → tags' c = .kIgnored) ∧
    (∀ c ∈ H.chunks, ignoreSuppressed H roots.suppressed tags c = .kIgnored →
      found c = .kIgnored) ∧
    (∀ c ∈ H.chunks, H.allocated c = true → found c ≠ .kIgnored → tags' c = .kDirectlyLeaked) ∧
    classifyAllChunks H id n roots tags' = some found ∧
    ∃ tags'', checkForLeaks H id n roots tags' = some (leaks, tags'')

/-- No thread context has a pointer into a chunk that is ignored, or that the check is to ignore. -/
def Separate (H : Heap) (roots : Roots) (tags : Tags) : Prop :=
  ∀ c ∈ threadChunks H roots.threadPtrs, ignoreSuppressed H roots.suppressed tags c ≠ .kIgnored

/-- A condition on each check of a sequence, with the tags before that check. -/
def EachCheck (H : Heap) (n : ℕ) (P : Roots → Tags → Prop) : List Roots → Tags → Prop
  | [], _ => True
  | roots :: checks, tags =>
    P roots tags ∧ ∀ leaks tags', checkForLeaks H id n roots tags = some (leaks, tags') →
      EachCheck H n P checks tags'

/-- One check. -/
theorem keeps_iff (ht : Initial H tags) (hn : fuel H roots ≤ n) :
    Keeps H n roots tags ↔ Separate H roots tags := by
  have hclass : ∀ {tags}, Initial H tags →
      classifyAllChunks H id n roots tags = some (found H roots tags) := fun ht =>
    classifyAllChunks_eq id (fun l => List.Perm.refl l) hn ht.ne
  constructor
  · rintro ⟨found', leaks, tags', hfound, -, -, hkeep, -⟩ c hc hi
    obtain rfl := Option.some.inj (hfound.symm.trans (hclass ht))
    exact (found_eq_ignored_iff.mp (hkeep c (threadChunks_mem hc).1 hi)).2 hc
  · intro hsep
    have hfound : ∀ c ∈ H.chunks, ignoreSuppressed H roots.suppressed tags c = .kIgnored →
        found H roots tags c = .kIgnored := fun c _ hi =>
      found_eq_ignored_iff.mpr ⟨hi, fun hthread => hsep c hthread hi⟩
    have hagain : Initial H (collectAndReset H (found H roots tags)).2 := ht.reset
    refine ⟨found H roots tags, (collectAndReset H (found H roots tags)).1,
      (collectAndReset H (found H roots tags)).2, hclass ht, checkForLeaks_eq ht hn,
      fun c hc hi => ?_, hfound, fun c hc halloc hne => ?_, ?_,
      (collectAndReset H (found H roots tags)).2, ?_⟩
    · have hi' : ignoreSuppressed H roots.suppressed tags c = .kIgnored := by
        rw [ignoreSuppressed_apply, hi, ite_self]
      rw [reset_apply, hfound c hc hi']
      simp
    · rw [reset_apply, if_pos ⟨hc, halloc, hne⟩]
    · rw [hclass hagain, found_reset ht]
    · rw [checkForLeaks_eq hagain hn, found_reset ht]

/-- A sequence of checks keeps the ignored chunks iff at no check a thread context has a pointer into
one. -/
theorem leakChecks_keep_ignored_iff (H : Heap) (checks : List Roots) {tags : Tags}
    (ht : Initial H tags) {n : ℕ} (hn : ∀ roots ∈ checks, fuel H roots ≤ n) :
    EachCheck H n (Keeps H n) checks tags ↔ EachCheck H n (Separate H) checks tags := by
  induction checks generalizing tags with
  | nil => exact Iff.rfl
  | cons roots checks ih =>
    have hfuel := hn roots List.mem_cons_self
    refine and_congr (keeps_iff ht hfuel) (forall₃_congr fun leaks tags' hcheck => ?_)
    obtain ⟨-, rfl⟩ := Prod.mk.injEq .. ▸ Option.some.inj (hcheck.symm.trans (checkForLeaks_eq ht hfuel))
    exact ih ht.reset fun r hr => hn r (List.mem_cons_of_mem _ hr)

/-- Two checks of a heap whose chunk is ignored, without threads. -/
theorem leakChecks_keep_ignored_iff_one_chunk :
    EachCheck oneChunk 3 (Keeps oneChunk 3) [{}, {}] (fun _ => .kIgnored) ↔
      EachCheck oneChunk 3 (Separate oneChunk) [{}, {}] (fun _ => .kIgnored) :=
  leakChecks_keep_ignored_iff oneChunk [{}, {}] (fun _ _ => Or.inr rfl) (by decide)

/-- The argument of a thread points into a chunk that is ignored. The check leaves the chunk directly
leaked, and once the thread is gone the next one reports it. -/
theorem leakChecks_lose_ignored :
    ¬ Keeps oneChunk 4 { threadPtrs := [4100] } (fun _ => .kIgnored) ∧
      (checkForLeaks oneChunk id 4 { threadPtrs := [4100] } (fun _ => .kIgnored)).bind
          (fun p => (checkForLeaks oneChunk id 4 {} p.2).map Prod.fst) =
        some [⟨4096, 1, 16, .kDirectlyLeaked⟩] := by
  constructor
  · rintro ⟨_, _, tags', -, hcheck, hkeep, -⟩
    have hlost : (checkForLeaks oneChunk id 4 { threadPtrs := [4100] } (fun _ => .kIgnored)).map
        (fun p => p.2 4096) = some .kDirectlyLeaked := by decide +kernel
    rw [hcheck, Option.map_some] at hlost
    have hkept : tags' 4096 = .kIgnored := hkeep 4096 (List.mem_singleton_self _) rfl
    exact absurd (hkept.symm.trans (Option.some.inj hlost)) (by decide)
  · decide +kernel

end Tasan.Lsan
