import Tasan.Marking
import Tasan.Lsan.Model

/-!
# What the leak checker finds

`ClassifyAllChunks` computes the set of chunks that its roots reach along the pointers in chunks. One
scan has the same effect whatever order it meets its pointers in (`scanForPointers_tags`,
`mem_scanForPointers_frontier`), so the flood fill is a mark phase in the sense of `Marking`, and the
tags that come out depend on the heap and the roots alone: `classifyAllChunks_eq`.
-/

namespace Tasan.Lsan

variable (H : Heap)

/-! ## Pointers -/

/-- The word at `pp`, in a range that begins at `begin`, is accepted as a pointer into a chunk. -/
def AcceptsAt (begin pp chunk : ℕ) : Prop :=
  H.maybeUserPointer (H.loadPtr pp) = true ∧ H.pointsIntoChunk (H.loadPtr pp) = chunk ∧ chunk ≠ 0 ∧
    chunk ≠ begin ∧ (H.usePoisoned = true ∨ H.wordIsPoisoned pp = false)

/-- A range has a word that is accepted as a pointer into a chunk. -/
def Accepts (range : ℕ × ℕ) (chunk : ℕ) : Prop :=
  ∃ pp ∈ H.words range.1 range.2, AcceptsAt H range.1 pp chunk

/-- A chunk holds a pointer into another one. -/
def Edge (chunk chunk' : ℕ) : Prop := Accepts H (H.range chunk) chunk'

/-- A tag that a scan does not change. -/
def Settled (tag : ChunkTag) : Prop := tag = .kReachable ∨ tag = .kIgnored

instance (tag : ChunkTag) : Decidable (Settled tag) := by unfold Settled; infer_instance

variable {H}

theorem mem_wordsFrom {«end» n pp x : ℕ} :
    x ∈ H.wordsFrom «end» n pp ↔
      ∃ k < n, x = pp + k * H.pointerAlignment ∧ x + H.sizeofPtr ≤ «end» := by
  induction n generalizing pp with
  | zero => simp [Heap.wordsFrom]
  | succ n ih =>
    rw [Heap.wordsFrom]
    split_ifs with h
    · rw [List.mem_cons, ih]
      constructor
      · rintro (rfl | ⟨k, hk, rfl, hend⟩)
        · exact ⟨0, by omega, by omega, h⟩
        · exact ⟨k + 1, by omega, by rw [Nat.succ_mul]; omega, hend⟩
      · rintro ⟨k, hk, rfl, hend⟩
        cases k with
        | zero => exact Or.inl (by omega)
        | succ k => exact Or.inr ⟨k, by omega, by rw [Nat.succ_mul]; omega, hend⟩
    · simp only [List.not_mem_nil, false_iff]
      rintro ⟨k, -, rfl, hend⟩
      omega

theorem mem_words {begin «end» x : ℕ} :
    x ∈ H.words begin «end» ↔
      ∃ k, x = H.firstWord begin + k * H.pointerAlignment ∧ x + H.sizeofPtr ≤ «end» := by
  have hal := H.pointerAlignment_pos
  have hsize := H.sizeofPtr_pos
  unfold Heap.words
  rw [mem_wordsFrom]
  refine exists_congr fun k => ⟨fun h => h.2, fun h => ⟨?_, h⟩⟩
  have : k * 1 ≤ k * H.pointerAlignment := Nat.mul_le_mul_left _ hal
  omega

theorem pointsIntoChunk_mem {p : ℕ} (h : H.pointsIntoChunk p ≠ 0) :
    H.pointsIntoChunk p ∈ H.chunks ∧ H.allocated (H.pointsIntoChunk p) = true := by
  have hmem := H.blockBegin_mem p
  revert h
  unfold Heap.pointsIntoChunk
  dsimp only
  split_ifs <;> simp_all

theorem AcceptsAt.mem {begin pp chunk : ℕ} (h : AcceptsAt H begin pp chunk) :
    chunk ∈ H.chunks ∧ H.allocated chunk = true := by
  obtain ⟨-, rfl, hne, -, -⟩ := h
  exact pointsIntoChunk_mem hne

theorem Accepts.mem {range : ℕ × ℕ} {chunk : ℕ} (h : Accepts H range chunk) :
    chunk ∈ H.chunks ∧ H.allocated chunk = true := by
  obtain ⟨pp, -, h⟩ := h
  exact h.mem

/-! ## One scan -/

variable {frontier : Bool} {tag : ChunkTag}

/-- One word: nothing that it points to is left unsettled, or it tags the one chunk that it points
to. -/
theorem scanWord_cases (H : Heap) (begin : ℕ) (frontier : Bool) (tag : ChunkTag) (s : State)
    (pp : ℕ) :
    (scanWord H begin frontier tag s pp = s ∧
        ∀ c, AcceptsAt H begin pp c → Settled (s.tags c)) ∨
      ∃ chunk, (∀ c, AcceptsAt H begin pp c ↔ c = chunk) ∧ ¬ Settled (s.tags chunk) ∧
        scanWord H begin frontier tag s pp =
          ⟨Function.update s.tags chunk tag,
            if frontier then chunk :: s.frontier else s.frontier⟩ := by
  unfold scanWord AcceptsAt
  dsimp only
  by_cases huser : H.maybeUserPointer (H.loadPtr pp) = true
  swap
  · exact Or.inl ⟨by simp [huser], fun c h => absurd h.1 huser⟩
  generalize H.pointsIntoChunk (H.loadPtr pp) = chunk
  by_cases hzero : chunk = 0
  · exact Or.inl ⟨by simp [hzero], fun c h => absurd (h.2.1 ▸ hzero) h.2.2.1⟩
  by_cases hself : chunk = begin
  · exact Or.inl ⟨by simp [hself], fun c h => absurd (h.2.1 ▸ hself) h.2.2.2.1⟩
  by_cases hsettled : Settled (s.tags chunk)
  · refine Or.inl ⟨?_, fun c h => h.2.1 ▸ hsettled⟩
    unfold Settled at hsettled
    simp [hsettled]
  by_cases hpoison : H.usePoisoned = true ∨ H.wordIsPoisoned pp = false
  · refine Or.inr ⟨chunk, fun c => ⟨fun h => h.2.1.symm, ?_⟩, hsettled, ?_⟩
    · rintro rfl
      exact ⟨huser, rfl, hzero, hself, hpoison⟩
    · have hskip : (!H.usePoisoned && H.wordIsPoisoned pp) = false := by
        rcases hpoison with h | h <;> simp [h]
      unfold Settled at hsettled
      cases frontier <;>
        simp [huser, hzero, hself, hsettled, hskip, State.setTag, State.pushBack]
  · refine Or.inl ⟨?_, fun c h => absurd h.2.2.2.2 hpoison⟩
    have hskip : (!H.usePoisoned && H.wordIsPoisoned pp) = true := by
      simpa using hpoison
    simp [hskip]

/-- The effect of a pass on the tags: what it points to has the new tag, unless it was settled. -/
def Retags (targets : ℕ → Prop) (tag : ChunkTag) (tags tags' : Tags) : Prop :=
  ∀ c, tags' c = tag ∧ targets c ∧ ¬ Settled (tags c) ∨
    tags' c = tags c ∧ (targets c → Settled (tags c))

/-- The tags after some words of a scan. -/
theorem foldl_scanWord_tags (begin : ℕ) (pps : List ℕ) (s : State) :
    Retags (fun c => ∃ pp ∈ pps, AcceptsAt H begin pp c) tag s.tags
      (pps.foldl (scanWord H begin frontier tag) s).tags := by
  induction pps generalizing s with
  | nil => simp [Retags]
  | cons pp pps ih =>
    intro c
    rw [List.foldl_cons]
    simp only [List.mem_cons, exists_eq_or_imp]
    have hrest := ih (scanWord H begin frontier tag s pp) c
    rcases scanWord_cases H begin frontier tag s pp with ⟨heq, hsettled⟩ | ⟨chunk, hat, hns, heq⟩
    · rw [heq] at hrest ⊢
      rcases hrest with ⟨h, hex, hns⟩ | ⟨h, hset⟩
      · exact Or.inl ⟨h, Or.inr hex, hns⟩
      · exact Or.inr ⟨h, fun hor => hor.elim (hsettled c) hset⟩
    · rw [heq] at hrest ⊢
      dsimp only at hrest
      rcases eq_or_ne c chunk with rfl | hne
      · -- the chunk has its new tag, whatever the other words do
        rw [Function.update_self] at hrest
        have htag := hrest.elim (fun h => h.1) (fun h => h.1)
        exact Or.inl ⟨htag, Or.inl ((hat c).mpr rfl), hns⟩
      · rw [Function.update_of_ne hne] at hrest
        simpa [(hat c).not.mpr hne] using hrest

/-- The frontier after some words of a scan that settles what it finds. -/
theorem mem_foldl_scanWord_frontier (begin : ℕ) (pps : List ℕ) (s : State) (c : ℕ) :
    c ∈ (pps.foldl (scanWord H begin true .kReachable) s).frontier ↔
      c ∈ s.frontier ∨ (∃ pp ∈ pps, AcceptsAt H begin pp c) ∧ ¬ Settled (s.tags c) := by
  induction pps generalizing s with
  | nil => simp
  | cons pp pps ih =>
    rw [List.foldl_cons, ih]
    simp only [List.mem_cons, exists_eq_or_imp]
    rcases scanWord_cases H begin true .kReachable s pp with
      ⟨heq, hsettled⟩ | ⟨chunk, hat, hns, heq⟩
    · rw [heq]
      refine or_congr_right ⟨fun h => ⟨Or.inr h.1, h.2⟩, ?_⟩
      rintro ⟨hpp | hrest, hns⟩
      · exact absurd (hsettled c hpp) hns
      · exact ⟨hrest, hns⟩
    · rw [heq]
      dsimp only
      rw [if_pos rfl, List.mem_cons]
      rcases eq_or_ne c chunk with rfl | hne
      · simp [hns, (hat c).mpr rfl]
      · rw [Function.update_of_ne hne]
        simp [hne, (hat c).not.mpr hne]

/-- The chunks that a scan could still tag. -/
def unsettled (H : Heap) (tags : Tags) : Finset ℕ :=
  H.chunks.toFinset.filter fun c => ¬ Settled (tags c)

/-- A scan takes as many chunks from those that it could still tag as it pushes. -/
theorem foldl_scanWord_card (begin : ℕ) (pps : List ℕ) (s : State) :
    (unsettled H (pps.foldl (scanWord H begin true .kReachable) s).tags).card +
        (pps.foldl (scanWord H begin true .kReachable) s).frontier.length ≤
      (unsettled H s.tags).card + s.frontier.length := by
  induction pps generalizing s with
  | nil => rfl
  | cons pp pps ih =>
    rw [List.foldl_cons]
    refine (ih _).trans ?_
    rcases scanWord_cases H begin true .kReachable s pp with ⟨heq, -⟩ | ⟨chunk, hat, hns, heq⟩
    · rw [heq]
    · rw [heq]
      dsimp only
      rw [if_pos rfl, List.length_cons]
      -- the chunk has been unsettled, and no other becomes so
      have hlt : (unsettled H (Function.update s.tags chunk .kReachable)).card <
          (unsettled H s.tags).card := by
        refine Finset.card_lt_card ((Finset.ssubset_iff_of_subset ?_).mpr ⟨chunk, ?_, ?_⟩)
        · intro c hc
          simp only [unsettled, Finset.mem_filter] at hc ⊢
          refine ⟨hc.1, fun hs => hc.2 ?_⟩
          rcases eq_or_ne c chunk with rfl | hne
          · rw [Function.update_self]
            exact Or.inl rfl
          · rwa [Function.update_of_ne hne]
        · exact Finset.mem_filter.mpr
            ⟨List.mem_toFinset.mpr ((hat chunk).mpr rfl).mem.1, hns⟩
        · intro hc
          exact (Finset.mem_filter.mp hc).2 (by rw [Function.update_self]; exact Or.inl rfl)
      omega

theorem scanForPointers_tags (frontier : Bool) (tag : ChunkTag) (range : ℕ × ℕ) (s : State) :
    Retags (Accepts H range) tag s.tags (scanForPointers H range frontier tag s).tags :=
  foldl_scanWord_tags range.1 _ s

theorem mem_scanForPointers_frontier (range : ℕ × ℕ) (s : State) (c : ℕ) :
    c ∈ (scanForPointers H range true .kReachable s).frontier ↔
      c ∈ s.frontier ∨ Accepts H range c ∧ ¬ Settled (s.tags c) :=
  mem_foldl_scanWord_frontier range.1 _ s c

/-! ## The roots -/

section Phases

variable (H) (t : Tags) (T R : Set ℕ)

/-- The chunks that are ignored, with the tags that a check starts from. -/
def ignored : Set ℕ := {c | c ∈ H.chunks ∧ H.allocated c = true ∧ t c = .kIgnored}

/-- The chunks that a pointer of a thread context points into. -/
def threadChunks (ptrs : List ℕ) : Set ℕ := {c | c ≠ 0 ∧ ∃ p ∈ ptrs, H.pointsIntoChunk p = c}

/-- The chunks that some range points into. -/
def rangeChunks (ranges : List (ℕ × ℕ)) : Set ℕ := {c | ∃ range ∈ ranges, Accepts H range c}

/-- The chunks that a check starts from. -/
def rootSet (roots : Roots) : Set ℕ :=
  ignored H t ∪ rangeChunks H roots.ranges ∪ threadChunks H roots.threadPtrs ∪
    rangeChunks H roots.rootRegions

/-- The chunks that are reachable so far. -/
def marked (s : State) : Set ℕ :=
  {c | c ∈ H.chunks ∧ (s.tags c = .kReachable ∨ c ∈ ignored H t)}

/-- What the phases before the last keep, from tags `t`: a tag stays or becomes reachable, and that
of an ignored chunk only by a pointer of a thread context; `T` are the chunks of those so far. -/
structure Progress (s : State) : Prop where
  /-- Tags stay, or become reachable. -/
  tags_eq : ∀ c, s.tags c = t c ∨ s.tags c = .kReachable
  /-- An ignored chunk is left alone but for the thread contexts. -/
  ignored : ∀ c, t c = .kIgnored → s.tags c = .kReachable → c ∈ T
  /-- Their chunks are reachable. -/
  thread : ∀ c ∈ T, s.tags c = .kReachable
  /-- Only chunks are tagged. -/
  mem : ∀ c, s.tags c ≠ t c → c ∈ H.chunks

/-- The state while the roots `R` have been processed: they are what is marked, and the frontier. -/
structure Rooted (s : State) : Prop extends Progress H t T s where
  /-- The frontier has the roots. -/
  mem_frontier : ∀ c, c ∈ s.frontier ↔ c ∈ R
  /-- The roots are marked. -/
  marked_eq : marked H t s = R

end Phases

variable {t : Tags} {T R : Set ℕ} {s : State} {range : ℕ × ℕ}

theorem Progress.settled_iff (h : Progress H t T s) {c : ℕ} (hc : c ∈ H.chunks)
    (halloc : H.allocated c = true) : Settled (s.tags c) ↔ c ∈ marked H t s := by
  constructor
  · rintro (hr | hi)
    · exact ⟨hc, Or.inl hr⟩
    · refine ⟨hc, Or.inr ⟨hc, halloc, ?_⟩⟩
      rcases h.tags_eq c with heq | heq
      · rw [← heq, hi]
      · exact absurd (heq.symm.trans hi) (by decide)
  · rintro ⟨-, hr | ⟨-, -, hi⟩⟩
    · exact Or.inl hr
    · exact (h.tags_eq c).elim (fun heq => Or.inr (heq.trans hi)) Or.inl

/-- A scan keeps what the phases keep. -/
theorem Progress.scan (h : Progress H t T s) :
    Progress H t T (scanForPointers H range true .kReachable s) := by
  have htags := scanForPointers_tags (H := H) true .kReachable range s
  constructor
  · intro c
    rcases htags c with ⟨heq, -, -⟩ | ⟨heq, -⟩
    · exact Or.inr heq
    · rw [heq]
      exact h.tags_eq c
  · intro c hi hr
    refine h.ignored c hi ?_
    rcases htags c with ⟨-, -, hns⟩ | ⟨heq, -⟩
    · -- an ignored chunk is settled
      exact absurd ((h.tags_eq c).elim (fun heq => Or.inr (heq.trans hi)) Or.inl) hns
    · rwa [← heq]
  · intro c hc
    have hr := h.thread c hc
    rcases htags c with ⟨heq, -, -⟩ | ⟨heq, -⟩
    · exact heq
    · rwa [heq]
  · intro c hne
    rcases htags c with ⟨-, hacc, -⟩ | ⟨heq, -⟩
    · exact hacc.mem.1
    · exact h.mem c (heq ▸ hne)

theorem Progress.mem_marked_scan (h : Progress H t T s) (c : ℕ) :
    c ∈ marked H t (scanForPointers H range true .kReachable s) ↔
      c ∈ marked H t s ∨ Accepts H range c := by
  have htags := scanForPointers_tags (H := H) true .kReachable range s c
  constructor
  · rintro ⟨hc, hr | hi⟩
    · rcases htags with ⟨-, hacc, -⟩ | ⟨heq, -⟩
      · exact Or.inr hacc
      · exact Or.inl ⟨hc, Or.inl (heq ▸ hr)⟩
    · exact Or.inl ⟨hc, Or.inr hi⟩
  · rintro (⟨hc, hr | hi⟩ | hacc)
    · refine ⟨hc, Or.inl ?_⟩
      rcases htags with ⟨heq, -, -⟩ | ⟨heq, -⟩
      · exact heq
      · exact heq.trans hr
    · exact ⟨hc, Or.inr hi⟩
    · rcases htags with ⟨heq, -, -⟩ | ⟨heq, hset⟩
      · exact ⟨hacc.mem.1, Or.inl heq⟩
      · obtain ⟨-, hm⟩ := (h.settled_iff hacc.mem.1 hacc.mem.2).mp (hset hacc)
        exact ⟨hacc.mem.1, hm.imp_left heq.trans⟩

theorem Progress.mem_frontier_scan (h : Progress H t T s) (c : ℕ) :
    c ∈ (scanForPointers H range true .kReachable s).frontier ↔
      c ∈ s.frontier ∨ Accepts H range c ∧ c ∉ marked H t s := by
  rw [mem_scanForPointers_frontier]
  refine or_congr_right (and_congr_right fun hacc => not_congr ?_)
  exact h.settled_iff hacc.mem.1 hacc.mem.2

theorem Rooted.scan (h : Rooted H t T R s) :
    Rooted H t T (R ∪ {c | Accepts H range c}) (scanForPointers H range true .kReachable s) := by
  refine ⟨h.toProgress.scan, fun c => ?_, Set.ext fun c => ?_⟩
  · rw [h.toProgress.mem_frontier_scan, h.mem_frontier, h.marked_eq]
    constructor
    · exact fun hc => hc.imp_right And.left
    · intro hc
      by_cases hR : c ∈ R
      · exact Or.inl hR
      · exact Or.inr ⟨hc.resolve_left hR, hR⟩
  · rw [h.toProgress.mem_marked_scan, h.marked_eq]
    rfl

theorem Rooted.scanRanges (h : Rooted H t T R s) (ranges : List (ℕ × ℕ)) :
    Rooted H t T (R ∪ rangeChunks H ranges) (scanRanges H ranges s) := by
  induction ranges generalizing R s with
  | nil => simpa [Lsan.scanRanges, rangeChunks] using h
  | cons range ranges ih =>
    have hR : R ∪ rangeChunks H (range :: ranges) =
        R ∪ {c | Accepts H range c} ∪ rangeChunks H ranges := by
      ext c
      simp [rangeChunks, or_assoc]
    rw [hR]
    exact ih h.scan

/-- A pointer of a thread context adds its chunk. -/
theorem Rooted.threadPtr (h : Rooted H t T R s) (ptr : ℕ) :
    Rooted H t (T ∪ threadChunks H [ptr]) (R ∪ threadChunks H [ptr]) (processThreadPtr H s ptr) := by
  unfold processThreadPtr
  dsimp only
  by_cases hzero : H.pointsIntoChunk ptr = 0
  · have hnone : threadChunks H [ptr] = ∅ := by
      ext c
      simp only [threadChunks, List.mem_singleton, exists_eq_left, Set.mem_ofPred_eq,
        Set.mem_empty_iff_false, iff_false, not_and]
      exact fun hc heq => hc (heq.symm.trans hzero)
    rw [if_pos hzero, hnone, Set.union_empty, Set.union_empty]
    exact h
  obtain ⟨hmem, halloc⟩ := pointsIntoChunk_mem hzero
  have hone : threadChunks H [ptr] = {H.pointsIntoChunk ptr} := by
    ext c
    simp only [threadChunks, List.mem_singleton, exists_eq_left, Set.mem_ofPred_eq,
      Set.mem_singleton_iff]
    exact ⟨fun hc => hc.2.symm, fun hc => ⟨hc ▸ hzero, hc.symm⟩⟩
  rw [if_neg hzero, hone]
  generalize H.pointsIntoChunk ptr = chunk at hmem halloc
  rw [if_neg (by simp [halloc])]
  have htags : ∀ c, ((s.setTag chunk .kReachable).pushBack chunk).tags c =
      if c = chunk then .kReachable else s.tags c := fun c => Function.update_apply ..
  refine ⟨⟨fun c => ?_, fun c hi hr => ?_, fun c hc => ?_, fun c hne => ?_⟩, fun c => ?_,
    Set.ext fun c => ?_⟩
  · rw [htags]
    split_ifs
    · exact Or.inr rfl
    · exact h.tags_eq c
  · rw [htags] at hr
    split_ifs at hr with hc
    · exact Or.inr hc
    · exact Or.inl (h.ignored c hi hr)
  · rw [htags]
    split_ifs with hne
    · rfl
    · exact h.thread c (hc.resolve_right hne)
  · rw [htags] at hne
    split_ifs at hne with hc
    · rwa [hc]
    · exact h.mem c hne
  · change c ∈ chunk :: s.frontier ↔ _
    rw [List.mem_cons, h.mem_frontier]
    exact or_comm
  · have hold : c ∈ marked H t s ↔ c ∈ R := by rw [h.marked_eq]
    change (c ∈ H.chunks ∧ (_ = _ ∨ _)) ↔ _ ∨ _
    rw [htags, ← hold]
    split_ifs with hc
    · simp [hc, hmem]
    · exact ⟨Or.inl, fun h => h.resolve_right hc⟩

theorem Rooted.threadRegistry (h : Rooted H t T R s) (ptrs : List ℕ) :
    Rooted H t (T ∪ threadChunks H ptrs) (R ∪ threadChunks H ptrs)
      (processThreadRegistry H ptrs s) := by
  induction ptrs generalizing T R s with
  | nil => simpa [processThreadRegistry, threadChunks] using h
  | cons ptr ptrs ih =>
    have hcons : threadChunks H (ptr :: ptrs) = threadChunks H [ptr] ∪ threadChunks H ptrs := by
      ext c
      simp [threadChunks, and_or_left]
    rw [hcons, ← Set.union_assoc, ← Set.union_assoc]
    exact ih (h.threadPtr ptr)

/-- `CollectIgnoredCb` does not touch the tags. -/
theorem foldl_collectIgnoredCb (chunks : List ℕ) (s : State) :
    (chunks.foldl (collectIgnoredCb H) s).tags = s.tags ∧
      ∀ c, c ∈ (chunks.foldl (collectIgnoredCb H) s).frontier ↔
        c ∈ s.frontier ∨ c ∈ chunks ∧ H.allocated c = true ∧ s.tags c = .kIgnored := by
  induction chunks generalizing s with
  | nil => simp
  | cons chunk chunks ih =>
    obtain ⟨htags, hfrontier⟩ := ih (collectIgnoredCb H s chunk)
    rw [List.foldl_cons]
    by_cases hc : H.allocated chunk = true ∧ s.tags chunk = .kIgnored
    · have heq : collectIgnoredCb H s chunk = s.pushBack chunk := if_pos hc
      rw [heq] at htags hfrontier ⊢
      refine ⟨htags, fun c => ?_⟩
      rw [hfrontier]
      change c ∈ chunk :: s.frontier ∨ c ∈ chunks ∧ _ ∧ s.tags c = _ ↔ _
      rw [List.mem_cons, List.mem_cons]
      constructor
      · rintro ((rfl | hf) | ⟨hm, hi⟩)
        · exact Or.inr ⟨Or.inl rfl, hc⟩
        · exact Or.inl hf
        · exact Or.inr ⟨Or.inr hm, hi⟩
      · rintro (hf | ⟨rfl | hm, hi⟩)
        · exact Or.inl (Or.inr hf)
        · exact Or.inl (Or.inl rfl)
        · exact Or.inr ⟨hm, hi⟩
    · have heq : collectIgnoredCb H s chunk = s := if_neg hc
      rw [heq] at htags hfrontier ⊢
      refine ⟨htags, fun c => ?_⟩
      rw [hfrontier, List.mem_cons]
      refine or_congr_right ⟨fun h => ⟨Or.inr h.1, h.2⟩, ?_⟩
      rintro ⟨rfl | hm, hi⟩
      · exact absurd hi hc
      · exact ⟨hm, hi⟩

/-- The state before the flood fill. -/
theorem processRoots_rooted (roots : Roots) {tags : Tags}
    (ht : ∀ c ∈ H.chunks, ignoreSuppressed H roots.suppressed tags c ≠ .kReachable) :
    Rooted H (ignoreSuppressed H roots.suppressed tags) (threadChunks H roots.threadPtrs)
      (rootSet H (ignoreSuppressed H roots.suppressed tags) roots) (processRoots H roots tags) := by
  unfold processRoots
  generalize ignoreSuppressed H roots.suppressed tags = t at ht
  obtain ⟨htags, hfrontier⟩ := foldl_collectIgnoredCb (H := H) H.chunks ⟨t, []⟩
  -- the ignored chunks are the first roots
  have hstart : Rooted H t ∅ (ignored H t) (H.chunks.foldl (collectIgnoredCb H) ⟨t, []⟩) := by
    generalize H.chunks.foldl (collectIgnoredCb H) ⟨t, []⟩ = s at htags hfrontier
    dsimp only at htags
    refine ⟨⟨fun c => Or.inl (by rw [htags]), fun c hi hr => ?_, fun c hc => hc.elim,
      fun c hne => absurd (by rw [htags]) hne⟩, fun c => ?_, Set.ext fun c => ?_⟩
    · rw [htags, hi] at hr
      exact absurd hr (by decide)
    · rw [hfrontier]
      simp [ignored]
    · unfold marked
      rw [htags]
      constructor
      · rintro ⟨hc, hr | hi⟩
        · exact absurd hr (ht c hc)
        · exact hi
      · exact fun hi => ⟨hi.1, Or.inr hi⟩
  have hend := ((hstart.scanRanges roots.ranges).threadRegistry roots.threadPtrs).scanRanges
    roots.rootRegions
  rwa [Set.empty_union] at hend

/-! ## The flood fill -/

/-- The flood fill ends, with the frontier empty and marked exactly what the roots reach, in whatever
order it takes the chunks of the frontier. -/
theorem floodFillTag_spec {order : List ℕ → List ℕ} (horder : ∀ l, (order l).Perm l) {n : ℕ}
    (hprogress : Progress H t T s) (hmarking : Marking (Edge H) R (marked H t s) s.frontier)
    (hn : (unsettled H s.tags).card + s.frontier.length < n) :
    ∃ s', floodFillTag H order .kReachable n s = some s' ∧ Progress H t T s' ∧ s'.frontier = [] ∧
      marked H t s' = Reach (Edge H) R := by
  induction n generalizing s with
  | zero => exact absurd hn (Nat.not_lt_zero _)
  | succ n ih =>
    have hperm := horder s.frontier
    rw [floodFillTag]
    generalize order s.frontier = work at hperm
    cases work with
    | nil =>
      have hnil : s.frontier = [] := hperm.nil_eq.symm
      rw [hnil] at hmarking
      exact ⟨s, rfl, hprogress, hnil, hmarking.eq_reach⟩
    | cons chunk frontier =>
      have hpopped : Progress H t T { s with frontier := frontier } :=
        ⟨hprogress.tags_eq, hprogress.ignored, hprogress.thread, hprogress.mem⟩
      have hvisit := (hmarking.perm hperm).visit hpopped.mem_marked_scan hpopped.mem_frontier_scan
      refine ih hpopped.scan hvisit ?_
      -- the scan takes no more than it gives, and one chunk has been popped
      have hcard := foldl_scanWord_card (H := H) (H.range chunk).1
        (H.words (H.range chunk).1 (H.range chunk).2) { s with frontier := frontier }
      have hlen := hperm.length_eq
      rw [List.length_cons] at hlen
      exact Nat.lt_of_le_of_lt hcard (by dsimp only; omega)

/-! ## The indirect leaks -/

theorem Retags.settled_iff {A : ℕ → Prop} {tags tags' : Tags}
    (h : Retags A .kIndirectlyLeaked tags tags') (c : ℕ) :
    (tags' c = .kReachable ↔ tags c = .kReachable) ∧ (Settled (tags' c) ↔ Settled (tags c)) := by
  rcases h c with ⟨heq, -, hns⟩ | ⟨heq, -⟩
  · rw [heq]
    refine ⟨iff_of_false (by decide) fun hr => hns (Or.inl hr), iff_of_false (by decide) hns⟩
  · rw [heq]
    exact ⟨Iff.rfl, Iff.rfl⟩

theorem Retags.trans {A B : ℕ → Prop} {tags tags' tags'' : Tags}
    (h : Retags A .kIndirectlyLeaked tags tags') (h' : Retags B .kIndirectlyLeaked tags' tags'') :
    Retags (fun c => A c ∨ B c) .kIndirectlyLeaked tags tags'' := by
  intro c
  have hset := (h.settled_iff c).2
  rcases h' c with ⟨heq', hB, hns'⟩ | ⟨heq', hB⟩
  · exact Or.inl ⟨heq', Or.inr hB, hset.not.mp hns'⟩
  · rcases h c with ⟨heq, hA, hns⟩ | ⟨heq, hA⟩
    · exact Or.inl ⟨heq'.trans heq, Or.inl hA, hns⟩
    · exact Or.inr ⟨heq'.trans heq, fun hAB => hAB.elim hA fun hb => hset.mp (hB hb)⟩

/-- The chunks that a list of chunks points to, apart from those that are reachable. -/
def leakTargets (H : Heap) (tags : Tags) (chunks : List ℕ) (c : ℕ) : Prop :=
  ∃ c' ∈ chunks, H.allocated c' = true ∧ tags c' ≠ .kReachable ∧ Edge H c' c

/-- The effect of the last pass. -/
theorem foldl_markIndirectlyLeakedCb (chunks : List ℕ) (s : State) :
    Retags (leakTargets H s.tags chunks) .kIndirectlyLeaked s.tags
      (chunks.foldl (markIndirectlyLeakedCb H) s).tags := by
  induction chunks generalizing s with
  | nil => exact fun c => Or.inr ⟨rfl, by simp [leakTargets]⟩
  | cons chunk chunks ih =>
    rw [List.foldl_cons]
    have hone : Retags (leakTargets H s.tags [chunk]) .kIndirectlyLeaked s.tags
        (markIndirectlyLeakedCb H s chunk).tags := by
      unfold markIndirectlyLeakedCb
      split_ifs with hc
      · have hscan := scanForPointers_tags (H := H) false .kIndirectlyLeaked
          (H.range chunk) s
        intro c
        simpa [leakTargets, hc.1, hc.2, Edge] using hscan c
      · refine fun c => Or.inr ⟨rfl, ?_⟩
        rintro ⟨c', hc', halloc, hnr, -⟩
        rw [List.mem_singleton.mp hc'] at halloc hnr
        exact absurd ⟨halloc, hnr⟩ hc
    have hall := hone.trans (ih (markIndirectlyLeakedCb H s chunk))
    have htargets : leakTargets H s.tags (chunk :: chunks) = fun c =>
        leakTargets H s.tags [chunk] c ∨
          leakTargets H (markIndirectlyLeakedCb H s chunk).tags chunks c := by
      funext c
      simp only [leakTargets, List.mem_cons, exists_eq_or_imp, List.not_mem_nil, or_false,
        exists_eq_left, (hone.settled_iff _).1.not, ne_eq]
    rwa [htargets]

/-! ## The classification -/

/-- What a check finds, from tags `t` in which the suppressed chunks are ignored already. -/
noncomputable def classification (H : Heap) (roots : Roots) (t : Tags) : Tags := fun c =>
  open Classical in
  let reach := Reach (Edge H) (rootSet H t roots)
  if c ∈ threadChunks H roots.threadPtrs then .kReachable
  else if t c = .kIgnored then .kIgnored
  else if c ∈ reach then .kReachable
  else if ∃ c' ∈ H.chunks, H.allocated c' = true ∧ c' ∉ reach ∧ Edge H c' c then .kIndirectlyLeaked
  else t c

/-- `IgnoredSuppressedCb` tags the chunks with a suppressed stack. -/
theorem ignoreSuppressed_apply (H : Heap) (suppressed : List ℕ) (tags : Tags) (c : ℕ) :
    ignoreSuppressed H suppressed tags c =
      if c ∈ H.chunks ∧ H.allocated c = true ∧ H.stackTraceId c ∈ suppressed then .kIgnored
      else tags c := by
  have hfold : ∀ (chunks : List ℕ) (tags : Tags),
      chunks.foldl (ignoredSuppressedCb H suppressed) tags c =
        if c ∈ chunks ∧ H.allocated c = true ∧ H.stackTraceId c ∈ suppressed then .kIgnored
        else tags c := by
    intro chunks
    induction chunks with
    | nil => simp
    | cons chunk chunks ih =>
      intro tags
      rw [List.foldl_cons, ih]
      unfold ignoredSuppressedCb
      rcases eq_or_ne c chunk with rfl | hne
      · split_ifs <;> simp_all
      · simp only [List.mem_cons, hne, false_or]
        split_ifs <;> simp_all [Function.update_of_ne]
  unfold ignoreSuppressed
  split_ifs with h
  · rw [hfold, if_pos (by assumption)]
  · rw [hfold, if_neg (by assumption)]
  · simp_all
  · rfl

theorem ignoreSuppressed_ne {tags : Tags} {c : ℕ} (suppressed : List ℕ)
    (h : tags c ≠ .kReachable) : ignoreSuppressed H suppressed tags c ≠ .kReachable := by
  rw [ignoreSuppressed_apply]
  split_ifs
  · decide
  · exact h

theorem threadChunks_mem {ptrs : List ℕ} {c : ℕ} (hc : c ∈ threadChunks H ptrs) :
    c ∈ H.chunks ∧ H.allocated c = true := by
  obtain ⟨hne, _, -, rfl⟩ := hc
  exact pointsIntoChunk_mem hne

theorem reach_mem {roots : Roots} {c : ℕ} (hc : c ∈ Reach (Edge H) (rootSet H t roots)) :
    c ∈ H.chunks ∧ H.allocated c = true := by
  refine (Reach.subset (M := {c | c ∈ H.chunks ∧ H.allocated c = true}) ?_
    fun _ _ y hE => hE.mem) hc
  rintro c (((hi | ⟨_, -, hacc⟩) | hthread) | ⟨_, -, hacc⟩)
  · exact ⟨hi.1, hi.2.1⟩
  · exact hacc.mem
  · exact threadChunks_mem hthread
  · exact hacc.mem

/-! ## How long a check takes -/

/-- What each iteration of the flood fill decreases. -/
def measure (H : Heap) (s : State) : ℕ := (unsettled H s.tags).card + s.frontier.length

theorem measure_scanRanges (ranges : List (ℕ × ℕ)) (s : State) :
    measure H (scanRanges H ranges s) ≤ measure H s := by
  induction ranges generalizing s with
  | nil => exact le_rfl
  | cons range ranges ih => exact (ih _).trans (foldl_scanWord_card range.1 _ s)

theorem card_unsettled_setTag (s : State) (chunk : ℕ) :
    (unsettled H (s.setTag chunk .kReachable).tags).card ≤ (unsettled H s.tags).card := by
  refine Finset.card_le_card fun c hc => ?_
  simp only [unsettled, Finset.mem_filter] at hc ⊢
  refine ⟨hc.1, fun hs => hc.2 ?_⟩
  change Settled (Function.update s.tags chunk .kReachable c)
  rw [Function.update_apply]
  split_ifs
  · exact Or.inl rfl
  · exact hs

theorem measure_processThreadRegistry (ptrs : List ℕ) (s : State) :
    measure H (processThreadRegistry H ptrs s) ≤ measure H s + ptrs.length := by
  induction ptrs generalizing s with
  | nil => exact le_rfl
  | cons ptr ptrs ih =>
    have hone : measure H (processThreadPtr H s ptr) ≤ measure H s + 1 := by
      unfold processThreadPtr
      dsimp only
      split_ifs
      · exact Nat.le_succ _
      · exact Nat.le_succ _
      · exact Nat.add_le_add_right (card_unsettled_setTag s _) _
    calc measure H (processThreadRegistry H ptrs (processThreadPtr H s ptr))
        ≤ measure H (processThreadPtr H s ptr) + ptrs.length := ih _
      _ ≤ measure H s + (ptr :: ptrs).length := by
        rw [List.length_cons]
        omega

/-- The number of iterations that suffices for a check. -/
def fuel (H : Heap) (roots : Roots) : ℕ := 2 * H.chunks.length + roots.threadPtrs.length + 1

/-- The flood fill has less than that to do. -/
theorem measure_processRoots_lt (H : Heap) (roots : Roots) (tags : Tags) :
    measure H (processRoots H roots tags) < fuel H roots := by
  have hcollect : ∀ (chunks : List ℕ) (s : State),
      (chunks.foldl (collectIgnoredCb H) s).frontier.length ≤
        s.frontier.length + chunks.length := by
    intro chunks
    induction chunks with
    | nil => exact fun s => le_rfl
    | cons chunk chunks ih =>
      intro s
      have hone : (collectIgnoredCb H s chunk).frontier.length ≤ s.frontier.length + 1 := by
        unfold collectIgnoredCb
        split_ifs
        · exact le_rfl
        · exact Nat.le_succ _
      rw [List.foldl_cons, List.length_cons]
      have := ih (collectIgnoredCb H s chunk)
      omega
  have hcard : ∀ tags, (unsettled H tags).card ≤ H.chunks.length := fun tags =>
    (Finset.card_filter_le _ _).trans (List.toFinset_card_le _)
  unfold processRoots fuel
  dsimp only
  generalize hs₀ : H.chunks.foldl (collectIgnoredCb H) ⟨_, []⟩ = s₀
  have h₀ : measure H s₀ ≤ H.chunks.length + H.chunks.length := by
    have := hcollect H.chunks ⟨ignoreSuppressed H roots.suppressed tags, []⟩
    rw [hs₀, List.length_nil, Nat.zero_add] at this
    exact Nat.add_le_add (hcard _) this
  have h₁ := measure_scanRanges (H := H) roots.ranges s₀
  have h₂ := measure_processThreadRegistry (H := H) roots.threadPtrs (scanRanges H roots.ranges s₀)
  have h₃ := measure_scanRanges (H := H) roots.rootRegions
    (processThreadRegistry H roots.threadPtrs (scanRanges H roots.ranges s₀))
  omega

/-- A check computes the classification. -/
theorem classifyAllChunks_eq (order : List ℕ → List ℕ) (horder : ∀ l, (order l).Perm l) {n : ℕ}
    {roots : Roots} {tags : Tags} (hn : fuel H roots ≤ n)
    (ht : ∀ c ∈ H.chunks, tags c ≠ .kReachable) :
    classifyAllChunks H order n roots tags =
      some (classification H roots (ignoreSuppressed H roots.suppressed tags)) := by
  have hrooted := processRoots_rooted roots fun c hc =>
    ignoreSuppressed_ne roots.suppressed (ht c hc)
  have hmeasure := (measure_processRoots_lt H roots tags).trans_le hn
  unfold classifyAllChunks
  have ht' := fun c hc => ignoreSuppressed_ne (H := H) roots.suppressed (ht c hc)
  generalize ignoreSuppressed H roots.suppressed tags = t at hrooted ht'
  generalize processRoots H roots tags = s at hrooted hmeasure
  -- the roots are marked, and all of them are on the frontier
  have hstart : Marking (Edge H) (rootSet H t roots) (marked H t s) s.frontier := by
    rw [hrooted.marked_eq]
    exact ⟨fun c hc => Reach.root hc, subset_rfl, fun c hc => (hrooted.mem_frontier c).mp hc,
      fun c hc => Or.inl ((hrooted.mem_frontier c).mpr hc)⟩
  obtain ⟨s₁, hs₁, hprogress, hempty, hmarked⟩ :=
    floodFillTag_spec (n := n) horder hrooted.toProgress hstart hmeasure
  -- the second flood fill has nothing to do
  have hagain : floodFillTag H order .kReachable n s₁ = some s₁ := by
    obtain ⟨m, rfl⟩ := Nat.exists_eq_succ_of_ne_zero (n := n) (by omega)
    have hnil : order s₁.frontier = [] := by
      have := horder s₁.frontier
      rw [hempty] at this
      rw [hempty]
      exact this.eq_nil
    rw [floodFillTag, hnil]
  rw [hs₁, Option.bind_eq_bind, Option.bind_some, hagain]
  refine congrArg some (funext fun c => ?_)
  have hleaks := foldl_markIndirectlyLeakedCb (H := H) H.chunks s₁
  generalize hT : threadChunks H roots.threadPtrs = T at hprogress
  generalize (H.chunks.foldl (markIndirectlyLeakedCb H) s₁).tags = tags' at hleaks
  -- of the allocated chunks, those that the flood fill has not marked are the ones not reached
  have hreach : ∀ c, t c ≠ .kIgnored → c ∈ H.chunks →
      (s₁.tags c = .kReachable ↔ c ∈ Reach (Edge H) (rootSet H t roots)) := by
    intro c hi hc
    rw [← hmarked]
    exact ⟨fun h => ⟨hc, Or.inl h⟩, fun h => h.2.resolve_right fun h' => hi h'.2.2⟩
  have hunreached : ∀ c ∈ H.chunks, H.allocated c = true →
      c ∉ Reach (Edge H) (rootSet H t roots) → s₁.tags c ≠ .kReachable := by
    rw [← hmarked]
    exact fun c hc _ hm hr => hm ⟨hc, Or.inl hr⟩
  have hret := hleaks c
  unfold classification
  dsimp only
  rw [hT]
  split_ifs with hthread hi hr hleak
  · rcases hret with ⟨-, -, hns⟩ | ⟨heq, -⟩
    · exact absurd (Or.inl (hprogress.thread c hthread)) hns
    · rw [heq, hprogress.thread c hthread]
  · have hs : s₁.tags c = .kIgnored := (hprogress.tags_eq c).elim (fun h => h.trans hi)
      fun h => absurd (hprogress.ignored c hi h) hthread
    rcases hret with ⟨-, -, hns⟩ | ⟨heq, -⟩
    · exact absurd (Or.inr hs) hns
    · rw [heq, hs]
  · have hs := (hreach c hi (reach_mem hr).1).mpr hr
    rcases hret with ⟨-, -, hns⟩ | ⟨heq, -⟩
    · exact absurd (Or.inl hs) hns
    · rw [heq, hs]
  · obtain ⟨c', hc', halloc, hnr, hE⟩ := hleak
    rcases hret with ⟨heq, -⟩ | ⟨-, hset⟩
    · exact heq
    · rcases hset ⟨c', hc', halloc, hunreached c' hc' halloc hnr, hE⟩ with hs | hs
      · exact absurd ((hreach c hi hE.mem.1).mp hs) hr
      · exact absurd ((hprogress.tags_eq c).elim (fun h => h.symm.trans hs)
          fun h => absurd (h.symm.trans hs) (by decide)) hi
  · have hs : s₁.tags c = t c := by
      by_contra hne
      have hs := (hprogress.tags_eq c).resolve_left hne
      exact hr ((hreach c hi (hprogress.mem c hne)).mp hs)
    rcases hret with ⟨-, ⟨c', hc', halloc, hnr, hE⟩, -⟩ | ⟨heq, -⟩
    · refine absurd ⟨c', hc', halloc, fun hc => ?_, hE⟩ hleak
      -- a chunk that is reached and not tagged so is ignored, and what it points to is reached
      exact hr (Reach.step hc hE)
    · rw [heq, hs]

/-! ## The result -/

/-- The same heap, with `ForEachChunk` in another order. -/
def Heap.reorder (H : Heap) (chunks : List ℕ) (h : chunks.Perm H.chunks) : Heap where
  chunks := chunks
  allocated := H.allocated
  requestedSize := H.requestedSize
  stackTraceId := H.stackTraceId
  blockBegin := H.blockBegin
  loadPtr := H.loadPtr
  maybeUserPointer := H.maybeUserPointer
  wordIsPoisoned := H.wordIsPoisoned
  pointerAlignment := H.pointerAlignment
  usePoisoned := H.usePoisoned
  sizeofPtr := H.sizeofPtr
  blockBegin_mem p hp := h.mem_iff.mpr (H.blockBegin_mem p hp)
  pointerAlignment_pos := H.pointerAlignment_pos
  sizeofPtr_pos := H.sizeofPtr_pos

theorem accepts_reorder (H : Heap) {chunks : List ℕ} (h : chunks.Perm H.chunks) :
    Accepts (H.reorder chunks h) = Accepts H := by
  funext range c
  refine propext (exists_congr fun pp => and_congr ?_ Iff.rfl)
  rw [mem_words, mem_words]
  rfl

/-- The order of the chunks makes no difference to what a check finds. -/
theorem classification_reorder (H : Heap) {chunks : List ℕ} (h : chunks.Perm H.chunks)
    (roots : Roots) (t : Tags) :
    classification (H.reorder chunks h) roots t = classification H roots t := by
  classical
  have hignored : ignored (H.reorder chunks h) t = ignored H t :=
    Set.ext fun c => and_congr_left fun _ => h.mem_iff
  have hedge : Edge (H.reorder chunks h) = Edge H := by
    unfold Edge
    rw [accepts_reorder]
    rfl
  have hrange : ∀ ranges, rangeChunks (H.reorder chunks h) ranges = rangeChunks H ranges := by
    intro ranges
    unfold rangeChunks
    rw [accepts_reorder]
  have hroots : rootSet (H.reorder chunks h) t roots = rootSet H t roots := by
    unfold rootSet
    rw [hignored, hrange, hrange]
    rfl
  funext c
  unfold classification
  dsimp only
  rw [hedge, hroots]
  have hleak : (∃ c' ∈ (H.reorder chunks h).chunks, (H.reorder chunks h).allocated c' = true ∧
      c' ∉ Reach (Edge H) (rootSet H t roots) ∧ Edge H c' c) ↔
        ∃ c' ∈ H.chunks, H.allocated c' = true ∧ c' ∉ Reach (Edge H) (rootSet H t roots) ∧
          Edge H c' c := exists_congr fun c' => and_congr h.mem_iff Iff.rfl
  exact if_congr Iff.rfl rfl
    (if_congr Iff.rfl rfl (if_congr Iff.rfl rfl (if_congr hleak rfl rfl)))

theorem Edge.ne {c c' : ℕ} (h : Edge H c c') : c ≠ c' := by
  obtain ⟨pp, -, h⟩ := h
  exact h.2.2.2.1.symm

/-- A check ends. It finds reachable what its roots reach, indirectly leaked what another unreachable
chunk points to, and the rest directly leaked, whatever the order of the frontier and of
`ForEachChunk`. -/
theorem classifyAllChunks_spec (H : Heap) (roots : Roots) {tags : Tags}
    (ht : ∀ c ∈ H.chunks, tags c = .kDirectlyLeaked ∨ tags c = .kIgnored) {n : ℕ}
    (hn : fuel H roots ≤ n) :
    ∃ tags', classifyAllChunks H id n roots tags = some tags' ∧
      (∀ c ∈ H.chunks, ignoreSuppressed H roots.suppressed tags c ≠ .kIgnored →
        let reach := Reach (Edge H) (rootSet H (ignoreSuppressed H roots.suppressed tags) roots)
        let pointedTo := ∃ c' ∈ H.chunks, H.allocated c' = true ∧ c' ≠ c ∧ c' ∉ reach ∧ Edge H c' c
        (tags' c = .kReachable ↔ c ∈ reach) ∧
          (tags' c = .kIndirectlyLeaked ↔ c ∉ reach ∧ pointedTo) ∧
          (tags' c = .kDirectlyLeaked ↔ c ∉ reach ∧ ¬ pointedTo)) ∧
      ∀ (order : List ℕ → List ℕ) (chunks : List ℕ) (hc : chunks.Perm H.chunks) (m : ℕ),
        (∀ l, (order l).Perm l) → fuel H roots ≤ m →
          classifyAllChunks (H.reorder chunks hc) order m roots tags = some tags' := by
  have hne : ∀ c ∈ H.chunks, tags c ≠ .kReachable := by
    intro c hc
    rcases ht c hc with h | h <;> rw [h] <;> decide
  refine ⟨_, classifyAllChunks_eq _ (fun l => List.Perm.refl l) hn hne, fun c hc hi => ?_, ?_⟩
  · have hdirect : ignoreSuppressed H roots.suppressed tags c = .kDirectlyLeaked := by
      rw [ignoreSuppressed_apply] at hi ⊢
      split_ifs at hi ⊢ with hs
      · exact absurd rfl hi
      · exact (ht c hc).resolve_right hi
    have hthread : ∀ {t : Tags}, c ∈ threadChunks H roots.threadPtrs →
        c ∈ Reach (Edge H) (rootSet H t roots) := fun h => Reach.root (Or.inl (Or.inr h))
    -- a chunk does not point to itself
    have hself : (∃ c' ∈ H.chunks, H.allocated c' = true ∧ c' ≠ c ∧
        c' ∉ Reach (Edge H) (rootSet H (ignoreSuppressed H roots.suppressed tags) roots) ∧
          Edge H c' c) ↔ ∃ c' ∈ H.chunks, H.allocated c' = true ∧
            c' ∉ Reach (Edge H) (rootSet H (ignoreSuppressed H roots.suppressed tags) roots) ∧
              Edge H c' c := by
      refine exists_congr fun c' => and_congr_right fun _ => and_congr_right fun _ => ?_
      exact ⟨fun h => h.2, fun h => ⟨h.2.ne, h⟩⟩
    dsimp only
    rw [hself]
    unfold classification
    dsimp only
    rw [if_neg hi, hdirect]
    generalize ignoreSuppressed H roots.suppressed tags = t at hthread
    split_ifs with h₁ h₂ h₃
    · simp [hthread h₁]
    · simp [h₂]
    · simp [h₂, h₃]
    · simp [h₂, h₃]
  · intro order chunks hchunks m horder hm
    have hlen : fuel (H.reorder chunks hchunks) roots = fuel H roots := by
      unfold fuel
      rw [show (H.reorder chunks hchunks).chunks.length = H.chunks.length from hchunks.length_eq]
    rw [classifyAllChunks_eq _ horder (hlen ▸ hm) fun c hc => hne c (hchunks.mem_iff.mp hc),
      classification_reorder]
    refine congrArg (fun t => some (classification H roots t)) (funext fun c => ?_)
    rw [ignoreSuppressed_apply, ignoreSuppressed_apply]
    refine if_congr (and_congr_left fun _ => hchunks.mem_iff) rfl rfl

/-- A heap of one chunk, which the word at 64 points to. -/
def oneChunk : Heap where
  chunks := [4096]
  allocated c := c = 4096
  requestedSize _ := 16
  stackTraceId _ := 1
  blockBegin p := if 4096 ≤ p ∧ p < 4128 then 4096 else 0
  loadPtr pp := if pp = 64 then 4100 else 0
  maybeUserPointer _ := true
  wordIsPoisoned _ := false
  pointerAlignment := 8
  usePoisoned := false
  sizeofPtr := 8
  blockBegin_mem p hp := by
    split_ifs at hp ⊢
    · exact List.mem_singleton_self _
    · exact absurd rfl hp
  pointerAlignment_pos := by decide
  sizeofPtr_pos := by decide

/-- A check of that heap, from a root range with the word. -/
theorem classifyAllChunks_spec_one_chunk :
    ∃ tags', classifyAllChunks oneChunk id 3 { ranges := [(64, 72)] } (fun _ => .kDirectlyLeaked) =
      some tags' :=
  (classifyAllChunks_spec oneChunk { ranges := [(64, 72)] } (fun _ _ => Or.inl rfl)
    (by decide)).imp fun _ h => h.1

end Tasan.Lsan
