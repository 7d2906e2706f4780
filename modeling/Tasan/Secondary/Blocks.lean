import Tasan.Secondary.Allocate
import Tasan.Sorting.Dedup

/-!
# The two lookups

`GetBlockBegin` scans the list of chunks, and `GetBlockBeginFastLocked` sorts it and searches. The live
chunks are those that were allocated and not freed, each with its mapping, and no two mappings overlap.
`Tracks` says how the allocator keeps track of them: the list holds each header once, each header knows its
index, and a list that is marked sorted is sorted.

Both lookups look for the highest header that is not above the pointer, and return its chunk if the pointer
is before the end of its mapping (`answers_nearest`). The search first compares the pointer with the highest
header plus its map size. That is at least the end of the mapping, and more when the alignment left slack
before the header, so that the sum may wrap although the mapping does not. Then the search misses the
highest chunk: `lookups_iff`.
-/

namespace Tasan.Secondary

open Sorting (sort)

variable {P : Params} {a a' : LargeMmapAllocator}

/-! ## Live chunks -/

/-- A chunk: the user's pointer, and the mapping. -/
structure Chunk where
  /-- The pointer that `Allocate` returned. -/
  user : ℕ
  /-- Where the mapping starts. -/
  mapBeg : ℕ
  /-- The size of the mapping. -/
  mapSize : ℕ
  deriving DecidableEq

namespace Chunk

/-- The address of the header. -/
def header (P : Params) (c : Chunk) : ℕ := c.user - P.page

/-- The end of the mapping. -/
def mapEnd (c : Chunk) : ℕ := c.mapBeg + c.mapSize

/-- The mappings have no byte in common. -/
def Disjoint (c d : Chunk) : Prop := c.mapEnd ≤ d.mapBeg ∨ d.mapEnd ≤ c.mapBeg

/-- The pointer is in the chunk, from its header to the end of its mapping. -/
def Holds (P : Params) (c : Chunk) (p : ℕ) : Prop := c.header P ≤ p ∧ p < c.mapEnd

/-- The chunk is as `Allocate` makes it. -/
structure Placed (P : Params) (c : Chunk) : Prop where
  /-- Nothing is mapped at zero. -/
  mapBeg_pos : 0 < c.mapBeg
  /-- The user's memory starts at a page. -/
  paged : P.page ∣ c.user
  /-- The page of the header is in the mapping. -/
  header_page : c.mapBeg + P.page ≤ c.user
  /-- The user's memory starts in the mapping. -/
  user_le : c.user ≤ c.mapEnd
  /-- The mapping does not wrap. -/
  mapEnd_lt : c.mapEnd < 2^P.w

variable {c : Chunk}

theorem Placed.header_mem (h : c.Placed P) : c.mapBeg ≤ c.header P ∧ c.header P < c.mapEnd := by
  have := h.header_page
  have := h.user_le
  have := P.page_pos
  unfold header
  omega

theorem Placed.header_add_page (h : c.Placed P) : c.header P + P.page = c.user := by
  have := h.header_page
  unfold header
  omega

theorem Placed.getHeader (h : c.Placed P) : P.getHeader c.user = .ok (c.header P) := by
  have hheader := h.header_page
  have huser := h.user_le
  have hend := h.mapEnd_lt
  exact getHeader_of_dvd h.paged (by omega) (by omega)

theorem Placed.getUser (h : c.Placed P) : P.getUser (c.header P) = .ok c.user := by
  have huser := h.user_le
  have hend := h.mapEnd_lt
  have hdvd : P.page ∣ c.header P := Nat.dvd_sub h.paged dvd_rfl
  have haligned : Word.isAligned P.w (c.header P) P.page = true :=
    (Word.isAligned_two_pow P.pageLog_lt).mpr (Nat.mod_eq_zero_of_dvd hdvd)
  have hsum := h.header_add_page
  rw [Params.getUser, check_of haligned, ok_bind, Word.add_of_lt (by omega), hsum]
  rfl

theorem Placed.header_ne {d : Chunk} (hc : c.Placed P) (hd : d.Placed P) (h : c.Disjoint d) :
    c.header P ≠ d.header P := by
  have hcmem := hc.header_mem
  have hdmem := hd.header_mem
  unfold Disjoint at h
  omega

end Chunk

/-- The result of a lookup is right: the user's pointer of the chunk that holds the pointer, or null. -/
def Answers (P : Params) (live : Finset Chunk) (p : ℕ) (r : Option ℕ) : Prop :=
  (∃ c ∈ live, c.Holds P p ∧ r = some c.user) ∨ (∀ c ∈ live, ¬ c.Holds P p) ∧ r = none

/-! ## The bookkeeping -/

/-- Reindexing the first chunks gives each its place, and changes nothing else. -/
theorem reindex_spec (chunks : ℕ → ℕ) (headers : ℕ → Header) {n : ℕ}
    (hinj : ∀ i < n, ∀ j < n, chunks i = chunks j → i = j) :
    (∀ i < n, (reindex chunks headers n (chunks i)).chunkIdx = i) ∧
      ∀ x, (reindex chunks headers n x).mapBeg = (headers x).mapBeg ∧
        (reindex chunks headers n x).mapSize = (headers x).mapSize := by
  induction n with
  | zero => exact ⟨fun i hi => absurd hi (Nat.not_lt_zero i), fun x => ⟨rfl, rfl⟩⟩
  | succ n ih =>
    obtain ⟨hidx, hkeep⟩ := ih fun i hi j hj => hinj i (by omega) j (by omega)
    have hself : reindex chunks headers (n + 1) (chunks n) =
        { reindex chunks headers n (chunks n) with chunkIdx := n } := Function.update_self ..
    have hother : ∀ x, x ≠ chunks n → reindex chunks headers (n + 1) x = reindex chunks headers n x :=
      fun x hx => Function.update_of_ne hx _ _
    constructor
    · intro i hi
      rcases Nat.lt_succ_iff_lt_or_eq.mp hi with hlt | rfl
      · have hne : chunks i ≠ chunks n := fun heq => hlt.ne (hinj i hi n (Nat.lt_succ_self n) heq)
        rw [hother _ hne, hidx i hlt]
      · rw [hself]
    · intro x
      rcases eq_or_ne x (chunks n) with rfl | hne
      · rw [hself]
        exact hkeep _
      · rw [hother x hne]
        exact hkeep x

/-- The allocator keeps track of the live chunks. -/
structure Tracks (P : Params) (a : LargeMmapAllocator) (live : Finset Chunk) : Prop where
  /-- Each chunk is as `Allocate` makes it. -/
  placed : ∀ c ∈ live, c.Placed P
  /-- The mappings do not overlap. -/
  disjoint : ∀ c ∈ live, ∀ d ∈ live, c ≠ d → c.Disjoint d
  /-- What is listed is a live chunk. -/
  listed : ∀ i < a.nChunks, ∃ c ∈ live, c.header P = a.chunks i
  /-- Each live chunk is listed. -/
  exists_idx : ∀ c ∈ live, ∃ i < a.nChunks, a.chunks i = c.header P
  /-- The header knows the place in the list. -/
  chunkIdx : ∀ i < a.nChunks, (a.headers (a.chunks i)).chunkIdx = i
  /-- The header knows the mapping. -/
  headers : ∀ c ∈ live, (a.headers (c.header P)).mapBeg = c.mapBeg ∧
    (a.headers (c.header P)).mapSize = c.mapSize
  /-- A list that is marked sorted is sorted. -/
  sorted : a.chunksSorted = true → ∀ i j, i < j → j < a.nChunks → a.chunks i < a.chunks j

namespace Tracks

variable {live : Finset Chunk}

theorem inj (h : Tracks P a live) {i j : ℕ} (hi : i < a.nChunks) (hj : j < a.nChunks)
    (heq : a.chunks i = a.chunks j) : i = j := by
  rw [← h.chunkIdx i hi, heq, h.chunkIdx j hj]

theorem header_inj (h : Tracks P a live) {c d : Chunk} (hc : c ∈ live) (hd : d ∈ live)
    (heq : c.header P = d.header P) : c = d := by
  by_contra hne
  exact (h.placed c hc).header_ne (h.placed d hd) (h.disjoint c hc d hd hne) heq

theorem chunks_chunkIdx (h : Tracks P a live) {c : Chunk} (hc : c ∈ live) :
    (a.headers (c.header P)).chunkIdx < a.nChunks ∧
      a.chunks (a.headers (c.header P)).chunkIdx = c.header P := by
  obtain ⟨i, hi, heq⟩ := h.exists_idx c hc
  have hidx : (a.headers (c.header P)).chunkIdx = i := by rw [← heq, h.chunkIdx i hi]
  rw [hidx]
  exact ⟨hi, heq⟩

theorem init : Tracks P .init ∅ where
  placed := by simp
  disjoint := by simp
  listed i hi := absurd hi (Nat.not_lt_zero i)
  exists_idx := by simp
  chunkIdx i hi := absurd hi (Nat.not_lt_zero i)
  headers := by simp
  sorted h := absurd h Bool.false_ne_true

/-- A new chunk is listed last. -/
theorem record (h : Tracks P a live) {c : Chunk} (hc : c.Placed P)
    (hfresh : ∀ d ∈ live, c.Disjoint d) {header : Header} (hbeg : header.mapBeg = c.mapBeg)
    (hsize : header.mapSize = c.mapSize) (sizeLog : ℕ) :
    Tracks P (a.record P (c.header P) header sizeLog) (insert c live) := by
  have hne : ∀ d ∈ live, d.header P ≠ c.header P := fun d hd =>
    (hc.header_ne (h.placed d hd) (hfresh d hd)).symm
  have hold : ∀ i < a.nChunks, a.chunks i ≠ c.header P := fun i hi => by
    obtain ⟨d, hd, hdi⟩ := h.listed i hi
    exact hdi ▸ hne d hd
  have hchunks : ∀ i < a.nChunks, (a.record P (c.header P) header sizeLog).chunks i = a.chunks i :=
    fun i hi => Function.update_of_ne hi.ne _ _
  have hlast : (a.record P (c.header P) header sizeLog).chunks a.nChunks = c.header P :=
    Function.update_self ..
  have hself : (a.record P (c.header P) header sizeLog).headers (c.header P) =
      { header with chunkIdx := a.nChunks } := Function.update_self ..
  have hkeep : ∀ x, x ≠ c.header P → (a.record P (c.header P) header sizeLog).headers x =
      a.headers x := fun x hx => Function.update_of_ne hx _ _
  refine { placed := ?_, disjoint := ?_, listed := ?_, exists_idx := ?_, chunkIdx := ?_, headers := ?_,
           sorted := fun hs => absurd hs Bool.false_ne_true }
  · simpa using ⟨hc, h.placed⟩
  · intro x hx y hy hxy
    rcases Finset.mem_insert.mp hx with hxc | hxl <;> rcases Finset.mem_insert.mp hy with hyc | hyl
    · exact absurd (hxc.trans hyc.symm) hxy
    · exact hxc ▸ hfresh y hyl
    · exact hyc ▸ (hfresh x hxl).symm
    · exact h.disjoint x hxl y hyl hxy
  · intro i hi
    rcases Nat.lt_succ_iff_lt_or_eq.mp hi with hi | rfl
    · obtain ⟨d, hd, hdi⟩ := h.listed i hi
      exact ⟨d, Finset.mem_insert_of_mem hd, by rw [hchunks i hi, hdi]⟩
    · exact ⟨c, Finset.mem_insert_self c live, hlast.symm⟩
  · intro d hd
    rcases Finset.mem_insert.mp hd with rfl | hd
    · exact ⟨a.nChunks, Nat.lt_succ_self _, hlast⟩
    · obtain ⟨i, hi, hdi⟩ := h.exists_idx d hd
      exact ⟨i, Nat.lt_succ_of_lt hi, by rw [hchunks i hi, hdi]⟩
  · intro i hi
    rcases Nat.lt_succ_iff_lt_or_eq.mp hi with hi | rfl
    · rw [hchunks i hi, hkeep _ (hold i hi), h.chunkIdx i hi]
    · rw [hlast, hself]
  · intro d hd
    rcases Finset.mem_insert.mp hd with rfl | hd
    · rw [hself]
      exact ⟨hbeg, hsize⟩
    · rw [hkeep _ (hne d hd)]
      exact h.headers d hd

/-- A chunk is taken out of the list, and the last one put in its place. -/
theorem unlist (h : Tracks P a live) {c : Chunk} (hc : c ∈ live) :
    Tracks P (a.unlist (a.headers (c.header P)).chunkIdx) (live.erase c) := by
  obtain ⟨hidx, hat⟩ := h.chunks_chunkIdx hc
  generalize (a.headers (c.header P)).chunkIdx = idx at hidx hat ⊢
  have hlast : a.nChunks - 1 < a.nChunks := by omega
  have hself : (a.unlist idx).chunks idx = a.chunks (a.nChunks - 1) := Function.update_self ..
  have hkeep : ∀ i, i ≠ idx → (a.unlist idx).chunks i = a.chunks i :=
    fun i hi => Function.update_of_ne hi _ _
  have hheader : ∀ x, x ≠ a.chunks (a.nChunks - 1) → (a.unlist idx).headers x = a.headers x :=
    fun x hx => Function.update_of_ne hx _ _
  have hheader_last : (a.unlist idx).headers (a.chunks (a.nChunks - 1)) =
      { a.headers (a.chunks (a.nChunks - 1)) with chunkIdx := idx } := Function.update_self ..
  -- What is listed now has been listed before, at another place than the chunk's.
  have hfrom : ∀ i < (a.unlist idx).nChunks, ∃ j < a.nChunks, j ≠ idx ∧
      (a.unlist idx).chunks i = a.chunks j := by
    intro i hi
    have hi : i < a.nChunks - 1 := hi
    rcases eq_or_ne i idx with rfl | hne
    · exact ⟨a.nChunks - 1, hlast, by omega, hself⟩
    · exact ⟨i, by omega, hne, hkeep i hne⟩
  refine { placed := fun d hd => h.placed d (Finset.mem_of_mem_erase hd), disjoint := fun x hx y hy =>
             h.disjoint x (Finset.mem_of_mem_erase hx) y (Finset.mem_of_mem_erase hy), listed := ?_,
           exists_idx := ?_, chunkIdx := ?_, headers := ?_,
           sorted := fun hs => absurd hs Bool.false_ne_true }
  · intro i hi
    obtain ⟨j, hj, hne, heq⟩ := hfrom i hi
    obtain ⟨d, hd, hdj⟩ := h.listed j hj
    refine ⟨d, Finset.mem_erase.mpr ⟨?_, hd⟩, hdj.trans heq.symm⟩
    rintro rfl
    exact hne (h.inj hj hidx (hdj.symm.trans hat.symm))
  · intro d hd
    obtain ⟨hdc, hd⟩ := Finset.mem_erase.mp hd
    obtain ⟨i, hi, hdi⟩ := h.exists_idx d hd
    have hne : i ≠ idx := fun heq => hdc (h.header_inj hd hc (by rw [← hdi, heq, hat]))
    rcases eq_or_ne i (a.nChunks - 1) with rfl | hi'
    · -- The last chunk has moved.
      exact ⟨idx, show idx < a.nChunks - 1 by omega, hself.trans hdi⟩
    · exact ⟨i, show i < a.nChunks - 1 by omega, (hkeep i hne).trans hdi⟩
  · intro i hi
    have hi : i < a.nChunks - 1 := hi
    rcases eq_or_ne i idx with rfl | hne
    · rw [hself, hheader_last]
    · have hother : a.chunks i ≠ a.chunks (a.nChunks - 1) := fun heq => by
        have := h.inj (by omega) hlast heq
        omega
      rw [hkeep i hne, hheader _ hother, h.chunkIdx i (by omega)]
  · intro d hd
    have hd := h.headers d (Finset.mem_of_mem_erase hd)
    rcases eq_or_ne (d.header P) (a.chunks (a.nChunks - 1)) with heq | hne
    · rw [heq] at hd ⊢
      rw [hheader_last]
      exact hd
    · rw [hheader _ hne]
      exact hd

theorem withStats (h : Tracks P a live) (stats : Stats) : Tracks P { a with stats } live :=
  ⟨h.placed, h.disjoint, h.listed, h.exists_idx, h.chunkIdx, h.headers, h.sorted⟩

/-- Sorting the list keeps track of the same chunks. -/
theorem ensureSortedChunks (h : Tracks P a live) :
    Tracks P a.ensureSortedChunks live ∧ a.ensureSortedChunks.nChunks = a.nChunks ∧
      a.ensureSortedChunks.chunksSorted = true := by
  unfold LargeMmapAllocator.ensureSortedChunks
  split_ifs with hsorted
  · exact ⟨h, rfl, hsorted⟩
  · have hmoved := Sorting.sort_rearranges (fun x y => decide (x < y)) a.chunks a.nChunks
    have horder := Sorting.sort_sorted Sorting.strictWeakOrder_nat a.chunks a.nChunks
    generalize sort (fun x y => decide (x < y)) a.chunks a.nChunks = chunks at hmoved horder ⊢
    have hinj : ∀ i < a.nChunks, ∀ j < a.nChunks, chunks i = chunks j → i = j := fun i hi j hj =>
      hmoved.inj (fun i hi j hj => h.inj hi hj) hi hj
    obtain ⟨hidx, hkeep⟩ := reindex_spec chunks a.headers hinj
    refine ⟨{ placed := h.placed, disjoint := h.disjoint, listed := ?_, exists_idx := ?_,
              chunkIdx := hidx, headers := ?_, sorted := ?_ }, rfl, rfl⟩
    · intro i hi
      obtain ⟨j, hj, heq⟩ := hmoved.exists_eq hi
      obtain ⟨c, hc, hcj⟩ := h.listed j hj
      exact ⟨c, hc, hcj.trans heq.symm⟩
    · intro c hc
      obtain ⟨j, hj, hcj⟩ := h.exists_idx c hc
      obtain ⟨i, hi, heq⟩ := hmoved.symm.exists_eq hj
      exact ⟨i, hi, heq.symm.trans hcj⟩
    · intro c hc
      obtain ⟨hbeg, hsize⟩ := hkeep (c.header P)
      obtain ⟨hbeg', hsize'⟩ := h.headers c hc
      exact ⟨hbeg.trans hbeg', hsize.trans hsize'⟩
    · intro _ i j hij hj
      have hle : chunks i ≤ chunks j := not_lt.mp (of_decide_eq_false (horder i j hij hj))
      refine lt_of_le_of_ne hle fun heq => ?_
      exact hij.ne (hinj i (hij.trans hj) j hj heq)

end Tracks

/-! ## The chunk below a pointer -/

/-- The scan ends at the highest header that is not above the pointer, or at zero if there is none. -/
theorem nearest_spec (chunks : ℕ → ℕ) {p : ℕ} (hp : p < 2^P.w) {n : ℕ}
    (hpos : ∀ i < n, 0 < chunks i) :
    (nearest P chunks p n = 0 ∧ ∀ i < n, p < chunks i) ∨
    ∃ i < n, nearest P chunks p n = chunks i ∧ chunks i ≤ p ∧
      ∀ j < n, chunks j ≤ p → chunks j ≤ chunks i := by
  induction n with
  | zero => exact Or.inl ⟨rfl, fun i hi => absurd hi (Nat.not_lt_zero i)⟩
  | succ n ih =>
    have ih := ih fun i hi => hpos i (by omega)
    rw [nearest]
    split_ifs with hright hnear
    · -- The chunk is to the right of the pointer.
      rcases ih with ⟨hzero, hall⟩ | ⟨i, hi, heq, hle, hmax⟩
      · refine Or.inl ⟨hzero, fun i hi => ?_⟩
        rcases Nat.lt_succ_iff_lt_or_eq.mp hi with hi | rfl
        · exact hall i hi
        · exact hright
      · refine Or.inr ⟨i, by omega, heq, hle, fun j hj hjp => ?_⟩
        rcases Nat.lt_succ_iff_lt_or_eq.mp hj with hj | rfl
        · exact hmax j hj hjp
        · exact absurd hjp (not_le.mpr hright)
    · -- It is the nearest one so far.
      refine Or.inr ⟨n, by omega, rfl, not_lt.mp hright, fun j hj hjp => ?_⟩
      rcases Nat.lt_succ_iff_lt_or_eq.mp hj with hj | rfl
      · rcases ih with ⟨-, hall⟩ | ⟨i, hi, heq, hle, hmax⟩
        · exact absurd hjp (not_le.mpr (hall j hj))
        · have hji := hmax j hj hjp
          rw [heq, Word.sub_of_le (not_lt.mp hright) hp, Word.sub_of_le hle hp] at hnear
          omega
      · exact le_rfl
    · -- Another one is nearer: the distance to zero is that of no chunk.
      rcases ih with ⟨hzero, -⟩ | ⟨i, hi, heq, hle, hmax⟩
      · rw [hzero, Word.sub_of_le (not_lt.mp hright) hp, Word.sub_of_le (Nat.zero_le p) hp] at hnear
        have := hpos n (Nat.lt_succ_self n)
        omega
      · refine Or.inr ⟨i, by omega, heq, hle, fun j hj hjp => ?_⟩
        rcases Nat.lt_succ_iff_lt_or_eq.mp hj with hj | rfl
        · exact hmax j hj hjp
        · rw [heq, Word.sub_of_le hjp hp, Word.sub_of_le hle hp] at hnear
          omega

/-- The loop of the search keeps the lower end at or below the pointer, and what is behind the upper end
above it. It ends with at most two chunks. -/
theorem searchLoop_spec {chunks : ℕ → ℕ} {p n beg «end» : ℕ}
    (hsorted : ∀ i j, i < j → j < n → chunks i < chunks j) (hle : beg ≤ «end») (hend : «end» < n)
    (hbeg : chunks beg ≤ p) (habove : ∀ i, «end» < i → i < n → p < chunks i) :
    let r := searchLoop chunks p beg «end»
    r.1 ≤ r.2 ∧ r.2 ≤ r.1 + 1 ∧ r.2 < n ∧ chunks r.1 ≤ p ∧ ∀ i, r.2 < i → i < n → p < chunks i := by
  fun_induction searchLoop chunks p beg «end» with
  | case1 beg «end» hfar mid hlt ih =>
    refine ih (by omega) (by omega) hbeg fun i hi hin => ?_
    rcases eq_or_lt_of_le (show mid ≤ i by omega) with rfl | hmid
    · exact hlt
    · exact hlt.trans (hsorted mid i hmid hin)
  | case2 beg «end» hfar mid hlt ih => exact ih (by omega) hend (not_lt.mp hlt) habove
  | case3 beg «end» hnear => exact ⟨hle, by omega, hend, hbeg, habove⟩

/-- The search ends at the highest header that is not above the pointer. -/
theorem search_spec {chunks : ℕ → ℕ} {p n : ℕ} (hn : 0 < n)
    (hsorted : ∀ i j, i < j → j < n → chunks i < chunks j) (hmin : chunks 0 ≤ p) :
    ∃ idx < n, search chunks p n = .ok idx ∧ chunks idx ≤ p ∧
      ∀ j < n, chunks j ≤ p → chunks j ≤ chunks idx := by
  obtain ⟨hle, hnear, hn', hbeg, habove⟩ := searchLoop_spec hsorted (Nat.zero_le (n - 1)) (by omega) hmin
    fun i hi hin => absurd hin (by omega)
  generalize hr : searchLoop chunks p 0 (n - 1) = r at *
  obtain ⟨beg, «end»⟩ := r
  -- A chunk whose successors are all above the pointer is the highest.
  have hhighest : ∀ idx < n, (∀ i, idx < i → i < n → p < chunks i) →
      ∀ j < n, chunks j ≤ p → chunks j ≤ chunks idx := fun idx hidx hup j hj hjp => by
    rcases lt_trichotomy j idx with hlt | rfl | hgt
    · exact (hsorted j idx hlt hidx).le
    · exact le_rfl
    · exact absurd hjp (not_le.mpr (hup j hgt hj))
  rw [search, hr]
  dsimp only at hle hnear hn' hbeg habove ⊢
  split_ifs with hlt hright
  · rw [check_of (decide_eq_true (by omega)), ok_bind]
    exact ⟨«end», hn', rfl, hright, hhighest «end» hn' habove⟩
  · rw [check_of (decide_eq_true (by omega)), ok_bind]
    refine ⟨beg, by omega, rfl, hbeg, hhighest beg (by omega) fun i hi hin => ?_⟩
    rcases eq_or_lt_of_le (show «end» ≤ i by omega) with rfl | hgt
    · exact not_le.mp hright
    · exact habove i hgt hin
  · have heq : beg = «end» := by omega
    exact ⟨beg, by omega, rfl, hbeg, hhighest beg (by omega) (heq ▸ habove)⟩

/-! ## The operations on what is tracked -/

section Lookups

variable {live : Finset Chunk} (h : Tracks P a live)
include h

theorem answers_nearest {c : Chunk} (hc : c ∈ live) {p : ℕ} (hle : c.header P ≤ p)
    (hmax : ∀ d ∈ live, d.header P ≤ p → d.header P ≤ c.header P) :
    Answers P live p (if c.mapEnd ≤ p then none else some c.user) := by
  split_ifs with hend
  · refine Or.inr ⟨fun d hd hholds => ?_, rfl⟩
    -- The header of `c` lies between that of `d` and the pointer, so in the mapping of `d`.
    have hdc := hmax d hd hholds.1
    have hcmem := (h.placed c hc).header_mem
    have hdmem := (h.placed d hd).header_mem
    have hdend := hholds.2
    have hne : c ≠ d := by
      rintro rfl
      omega
    have hdis := h.disjoint c hc d hd hne
    unfold Chunk.Disjoint at hdis
    omega
  · exact Or.inl ⟨c, hc, ⟨hle, not_le.mp hend⟩, rfl⟩

theorem answers_none {p : ℕ} (hall : ∀ i < a.nChunks, p < a.chunks i) : Answers P live p none := by
  refine Or.inr ⟨fun d hd hholds => ?_, rfl⟩
  obtain ⟨i, hi, hdi⟩ := h.exists_idx d hd
  have := hall i hi
  have := hholds.1
  omega

theorem answers_unique {p : ℕ} {r r' : Option ℕ} (hr : Answers P live p r) (hr' : Answers P live p r') :
    r = r' := by
  rcases hr with ⟨c, hc, hcp, rfl⟩ | ⟨hnone, rfl⟩ <;> rcases hr' with ⟨d, hd, hdp, rfl⟩ | ⟨hnone', rfl⟩
  · have hcd : c = d := by
      by_contra hne
      have hdis := h.disjoint c hc d hd hne
      have hcmem := (h.placed c hc).header_mem
      have hdmem := (h.placed d hd).header_mem
      unfold Chunk.Holds at hcp hdp
      unfold Chunk.Disjoint at hdis
      omega
    rw [hcd]
  · exact absurd hcp (hnone' c hc)
  · exact absurd hdp (hnone d hd)
  · rfl

theorem header_mapEnd {c : Chunk} (hc : c ∈ live) : Word.add P.w (a.headers (c.header P)).mapBeg
    (a.headers (c.header P)).mapSize = c.mapEnd := by
  obtain ⟨hbeg, hsize⟩ := h.headers c hc
  rw [hbeg, hsize]
  exact Word.add_of_lt (h.placed c hc).mapEnd_lt

theorem exists_highest {p i : ℕ} (hi : i < a.nChunks)
    (hmax : ∀ j < a.nChunks, a.chunks j ≤ p → a.chunks j ≤ a.chunks i) :
    ∃ c ∈ live, c.header P = a.chunks i ∧
      ∀ d ∈ live, d.header P ≤ p → d.header P ≤ c.header P := by
  obtain ⟨c, hc, hci⟩ := h.listed i hi
  refine ⟨c, hc, hci, fun d hd hdp => ?_⟩
  obtain ⟨j, hj, hdj⟩ := h.exists_idx d hd
  rw [hci, ← hdj]
  exact hmax j hj (hdj ▸ hdp)

theorem getBlockBegin_spec {p : ℕ} (hp : p < 2^P.w) :
    ∃ r, a.getBlockBegin P p = .ok r ∧ Answers P live p r := by
  have hpos : ∀ i < a.nChunks, 0 < a.chunks i := fun i hi => by
    obtain ⟨c, hc, hci⟩ := h.listed i hi
    have := (h.placed c hc).mapBeg_pos
    have := (h.placed c hc).header_mem
    omega
  unfold LargeMmapAllocator.getBlockBegin
  dsimp only
  rcases nearest_spec a.chunks hp hpos with ⟨hzero, hall⟩ | ⟨i, hi, heq, hle, hmax⟩
  · rw [if_pos hzero]
    exact ⟨none, rfl, answers_none h hall⟩
  · obtain ⟨c, hc, hci, hhighest⟩ := exists_highest h hi hmax
    have hmem := (h.placed c hc).header_mem
    have hcp : c.header P ≤ p := hci ▸ hle
    refine ⟨_, ?_, answers_nearest h hc hcp hhighest⟩
    rw [heq, ← hci, if_neg (by have := hpos i hi; omega), header_mapEnd h hc, (h.headers c hc).1,
      check_of (decide_eq_true hmem.1), check_of (decide_eq_true hmem.2),
      check_of (decide_eq_true hcp), (h.placed c hc).getUser]
    split_ifs <;> rfl

theorem deallocate_spec {c : Chunk} (hc : c ∈ live) :
    ∃ a', a.deallocate P c.user = .ok ((c.mapBeg, c.mapSize), a') ∧ Tracks P a' (live.erase c) := by
  obtain ⟨hidx, hat⟩ := h.chunks_chunkIdx hc
  have hkept : ((a.unlist (a.headers (c.header P)).chunkIdx).headers (c.header P)).mapBeg = c.mapBeg ∧
      ((a.unlist (a.headers (c.header P)).chunkIdx).headers (c.header P)).mapSize = c.mapSize := by
    have hheader := h.headers c hc
    simp only [LargeMmapAllocator.unlist, setIdx, Function.update_apply]
    split_ifs with hlast
    · rwa [hlast] at hheader
    · exact hheader
  refine ⟨_, ?_, (h.unlist hc).withStats (a.stats.freed P c.mapSize)⟩
  rw [LargeMmapAllocator.deallocate, (h.placed c hc).getHeader, ok_bind]
  dsimp only
  rw [check_of (decide_eq_true hat), check_of (decide_eq_true hidx), hkept.1, hkept.2]
  rfl

/-- `GetBlockBeginFastLocked` returns, and keeps track of the same chunks. It is right unless the pointer
is at or above the sum that the code takes for the end of the highest chunk. -/
theorem getBlockBeginFastLocked_spec (p : ℕ) :
    ∃ r a', a.getBlockBeginFastLocked P p = .ok (r, a') ∧ Tracks P a' live ∧
      ((∀ c ∈ live, (∀ d ∈ live, d.header P ≤ c.header P) →
        c.mapEnd ≤ Word.add P.w (c.header P) c.mapSize) → Answers P live p r) ∧
      (∀ c ∈ live, (∀ d ∈ live, d.header P ≤ c.header P) →
        Word.add P.w (c.header P) c.mapSize ≤ p → r = none) := by
  unfold LargeMmapAllocator.getBlockBeginFastLocked
  split_ifs with hzero
  · exact ⟨none, a, rfl, h, fun _ => answers_none h fun i hi => by omega, fun _ _ _ _ => rfl⟩
  obtain ⟨h', hn, hsorted⟩ := h.ensureSortedChunks
  have horder := h'.sorted hsorted
  have hpos : 0 < a.ensureSortedChunks.nChunks := by omega
  generalize a.ensureSortedChunks = a' at h' horder hpos ⊢
  dsimp only
  -- The last chunk of the sorted list.
  obtain ⟨last, hlast, hlasti⟩ := h'.listed (a'.nChunks - 1) (by omega)
  have hhighest : ∀ d ∈ live, d.header P ≤ last.header P := fun d hd => by
    obtain ⟨j, hj, hdj⟩ := h'.exists_idx d hd
    rw [← hdj, hlasti]
    rcases eq_or_lt_of_le (show j ≤ a'.nChunks - 1 by omega) with rfl | hlt
    · exact le_rfl
    · exact (horder j _ hlt (by omega)).le
  have honly : ∀ c ∈ live, (∀ d ∈ live, d.header P ≤ c.header P) → c = last := fun c hc hmax =>
    h'.header_inj hc hlast (le_antisymm (hhighest c hc) (hmax last hlast))
  rw [← hlasti, (h'.headers last hlast).2]
  by_cases hout : p < a'.chunks 0 ∨ Word.add P.w (last.header P) last.mapSize ≤ p
  · refine ⟨none, a', if_pos hout, h', fun hend => ?_, fun _ _ _ _ => rfl⟩
    rcases hout with hmin | hmax
    · refine answers_none h' fun i hi => hmin.trans_le ?_
      rcases Nat.eq_zero_or_pos i with rfl | hipos
      · exact le_rfl
      · exact (horder 0 i hipos hi).le
    · have hlastend := (hend last hlast hhighest).trans hmax
      have hmem := (h'.placed last hlast).header_mem
      have := answers_nearest h' hlast (by omega : last.header P ≤ p) fun d hd _ => hhighest d hd
      rwa [if_pos hlastend] at this
  · obtain ⟨hmin, hmax⟩ := not_or.mp hout
    obtain ⟨idx, hidx, hsearch, hle, hnearest⟩ := search_spec hpos horder (not_lt.mp hmin)
    obtain ⟨c, hc, hci, hchighest⟩ := exists_highest h' hidx hnearest
    have hcp : c.header P ≤ p := hci ▸ hle
    have hcbeg : ¬ p < c.mapBeg := not_lt.mpr ((h'.placed c hc).header_mem.1.trans hcp)
    refine ⟨_, a', ?_, h', fun _ => answers_nearest h' hc hcp hchighest, fun d hd hdmax hdp => ?_⟩
    · rw [if_neg hout, hsearch, ok_bind, ← hci, header_mapEnd h' hc, (h'.headers c hc).1,
        (h'.placed c hc).getUser]
      split_ifs with hend hend' hend'
      · rfl
      · exact absurd (hend.resolve_right hcbeg) hend'
      · exact absurd (Or.inl hend') hend
      · rfl
    · rw [honly d hd hdmax] at hdp
      exact absurd hdp hmax

end Lookups

/-! ## Runs -/

/-- The chunk that `Allocate` makes. -/
def Params.chunkOf (P : Params) (mmap : ℕ → ℕ) (size alignment res : ℕ) : Chunk where
  user := res
  mapBeg := mmap (P.mapSize size alignment)
  mapSize := P.mapSize size alignment

/-- The states of the allocator after any sequence of calls, with the chunks that are live. A mapping that
the system returns does not overlap those of live chunks, and only live chunks are freed. -/
inductive Reachable (P : Params) : LargeMmapAllocator → Finset Chunk → Prop
  /-- Before the first call. -/
  | init : Reachable P .init ∅
  /-- `Allocate` returns a chunk. -/
  | allocate {a a' : LargeMmapAllocator} {live : Finset Chunk} {mmap : ℕ → ℕ} {size k res : ℕ}
      (h : Reachable P a live) (hsize : size < 2^P.w) (hk : k < P.w) (hmmap : P.Maps mmap)
      (hfresh : ∀ c ∈ live, (P.chunkOf mmap size (2^k) res).Disjoint c)
      (hstep : a.allocate P mmap size (2^k) = .ok (.chunk res, a')) :
      Reachable P a' (insert (P.chunkOf mmap size (2^k) res) live)
  /-- `Allocate` returns null. -/
  | null {a a' : LargeMmapAllocator} {live : Finset Chunk} {mmap : ℕ → ℕ} {size k : ℕ} {r : Result}
      (h : Reachable P a live) (hsize : size < 2^P.w) (hk : k < P.w) (hmmap : P.Maps mmap)
      (hstep : a.allocate P mmap size (2^k) = .ok (r, a')) (hnull : ∀ res, r ≠ .chunk res) :
      Reachable P a' live
  /-- `Deallocate` of a live chunk. -/
  | deallocate {a a' : LargeMmapAllocator} {live : Finset Chunk} {c : Chunk} {mapping : ℕ × ℕ}
      (h : Reachable P a live) (hc : c ∈ live)
      (hstep : a.deallocate P c.user = .ok (mapping, a')) : Reachable P a' (live.erase c)
  /-- `GetBlockBeginFastLocked`, which sorts the list. -/
  | lookup {a a' : LargeMmapAllocator} {live : Finset Chunk} {p : ℕ} {r : Option ℕ}
      (h : Reachable P a live) (hstep : a.getBlockBeginFastLocked P p = .ok (r, a')) :
      Reachable P a' live

/-- What `Allocate` may do when it returns. -/
theorem allocate_cases {mmap : ℕ → ℕ} {size k : ℕ} {r : Result} (hsize : size < 2^P.w) (hk : k < P.w)
    (hmmap : P.Maps mmap) (hstep : a.allocate P mmap size (2^k) = .ok (r, a')) :
    ((∀ res, r ≠ .chunk res) ∧ a' = a) ∨
    ∃ res, r = .chunk res ∧ (P.chunkOf mmap size (2^k) res).Placed P ∧
      ∃ header sizeLog, header.mapBeg = (P.chunkOf mmap size (2^k) res).mapBeg ∧
        header.mapSize = (P.chunkOf mmap size (2^k) res).mapSize ∧
        a' = a.record P ((P.chunkOf mmap size (2^k) res).header P) header sizeLog := by
  by_cases hguard : P.mapSize size (2^k) < size
  · rw [allocate_two_pow a mmap size hk, if_pos hguard] at hstep
    cases hstep
    exact Or.inl ⟨fun _ h => Result.noConfusion h, rfl⟩
  have hword : P.trueMapSize size (2^k) < 2^P.w :=
    not_le.mp fun hle => hguard ((mapSize_lt_iff hsize hk).mpr hle)
  have heq : P.mapSize size (2^k) = P.trueMapSize size (2^k) := by
    rw [mapSize_eq hsize, Nat.mod_eq_of_lt hword]
  rcases eq_or_ne (mmap (P.trueMapSize size (2^k))) 0 with hbeg | hbeg
  · rw [allocate_of_lt a mmap hsize hk hword, if_pos hbeg] at hstep
    cases hstep
    exact Or.inl ⟨fun _ h => Result.noConfusion h, rfl⟩
  · obtain ⟨hplaced, hres⟩ := allocate_chunk a mmap hsize hk hmmap hword hbeg
    rw [hres] at hstep
    split_ifs at hstep
    cases hstep
    simp only [Params.chunkOf, heq]
    refine Or.inr ⟨_, rfl, ?_, _, _, rfl, rfl, rfl⟩
    exact { mapBeg_pos := Nat.pos_of_ne_zero hbeg
            paged := hplaced.paged
            header_page := hplaced.header
            user_le := (Nat.le_add_right _ _).trans hplaced.fits
            mapEnd_lt := (hmmap _ hbeg).2 }

/-- The allocator keeps track of the live chunks in every reachable state. -/
theorem Reachable.tracks {live : Finset Chunk} (h : Reachable P a live) : Tracks P a live := by
  induction h with
  | init => exact .init
  | allocate h hsize hk hmmap hfresh hstep ih =>
    obtain ⟨hnull, -⟩ | ⟨res, hr, hplaced, header, sizeLog, hbeg, hmapSize, rfl⟩ :=
      allocate_cases hsize hk hmmap hstep
    · exact absurd rfl (hnull _)
    · cases hr
      exact ih.record hplaced hfresh hbeg hmapSize sizeLog
  | null h hsize hk hmmap hstep hnull ih =>
    obtain ⟨-, rfl⟩ | ⟨res, hr, -⟩ := allocate_cases hsize hk hmmap hstep
    · exact ih
    · exact absurd hr (hnull res)
  | deallocate h hc hstep ih =>
    obtain ⟨a', heq, htracks⟩ := deallocate_spec ih hc
    rw [heq] at hstep
    cases hstep
    exact htracks
  | @lookup _ _ _ p _ h hstep ih =>
    obtain ⟨r, a', heq, htracks, -⟩ := getBlockBeginFastLocked_spec ih p
    rw [heq] at hstep
    cases hstep
    exact htracks

/-- The bookkeeping and the lookups are right: every live chunk is listed once, at the index that its
header holds, it can be freed, and both lookups find the chunk that holds a pointer. -/
structure Right (P : Params) (a : LargeMmapAllocator) (live : Finset Chunk) : Prop where
  /-- `chunks_[h->chunk_idx] == h`. -/
  chunkIdx : ∀ c ∈ live, a.chunks (a.headers (c.header P)).chunkIdx = c.header P
  /-- Each live chunk is listed exactly once. -/
  once : ∀ c ∈ live, ∃! i, i < a.nChunks ∧ a.chunks i = c.header P
  /-- No `CHECK` of `Deallocate` fails. -/
  deallocate : ∀ c ∈ live, ∃ a', a.deallocate P c.user = .ok ((c.mapBeg, c.mapSize), a')
  /-- No `CHECK` of the lookups fails, and they return the same result, which is right. -/
  lookups : ∀ p < 2^P.w, ∃ r a', Answers P live p r ∧ a.getBlockBegin P p = .ok r ∧
    a.getBlockBeginFastLocked P p = .ok (r, a')

/-- The header of the highest chunk plus its map size is a word. -/
def HighestFits (P : Params) (live : Finset Chunk) : Prop :=
  ∀ c ∈ live, (∀ d ∈ live, d.header P ≤ c.header P) → c.header P + c.mapSize < 2^P.w

/-- In every reachable state the bookkeeping and the lookups are right if and only if the highest header
plus its map size does not wrap. -/
theorem lookupsRight_iff (P : Params) {a : LargeMmapAllocator} {live : Finset Chunk}
    (h : Reachable P a live) : Right P a live ↔ HighestFits P live := by
  have htracks := h.tracks
  constructor
  · intro hright c hc hmax
    by_contra hwrap
    obtain ⟨hbeg, hend⟩ := (htracks.placed c hc).header_mem
    have hword := (htracks.placed c hc).mapEnd_lt
    have hsize : c.mapSize < 2^P.w := by
      unfold Chunk.mapEnd at hword
      omega
    -- The sum has wrapped, and is less than the header.
    have hsum : Word.add P.w (c.header P) c.mapSize ≤ c.header P := by
      rw [Word.add, Nat.mod_eq_sub_mod (not_lt.mp hwrap), Nat.mod_eq_of_lt (by omega)]
      omega
    obtain ⟨r, a', hanswers, -, hfast⟩ := hright.lookups (c.header P) (by omega)
    obtain ⟨r', a'', hfast', -, -, hnone⟩ := getBlockBeginFastLocked_spec htracks (c.header P)
    rw [hfast] at hfast'
    cases hfast'
    rw [hnone c hc hmax hsum] at hanswers
    rcases hanswers with ⟨d, -, -, hd⟩ | ⟨hall, -⟩
    · cases hd
    · exact hall c hc ⟨le_rfl, hend⟩
  · intro hfits
    have honce : ∀ c ∈ live, ∃! i, i < a.nChunks ∧ a.chunks i = c.header P := fun c hc => by
      obtain ⟨i, hi, heq⟩ := htracks.exists_idx c hc
      exact ⟨i, ⟨hi, heq⟩, fun j hj => htracks.inj hj.1 hi (hj.2.trans heq.symm)⟩
    refine { chunkIdx := fun c hc => (htracks.chunks_chunkIdx hc).2, once := honce,
             deallocate := fun c hc => ?_, lookups := fun p hp => ?_ }
    · obtain ⟨a', heq, -⟩ := deallocate_spec htracks hc
      exact ⟨a', heq⟩
    · obtain ⟨r, hlinear, hanswers⟩ := getBlockBegin_spec htracks hp
      obtain ⟨r', a', hfast, -, hanswers', -⟩ := getBlockBeginFastLocked_spec htracks p
      have hend : ∀ c ∈ live, (∀ d ∈ live, d.header P ≤ c.header P) →
          c.mapEnd ≤ Word.add P.w (c.header P) c.mapSize := fun c hc hmax => by
        have := (htracks.placed c hc).header_mem
        rw [Word.add_of_lt (hfits c hc hmax)]
        unfold Chunk.mapEnd
        omega
      have heq : r = r' := answers_unique htracks hanswers (hanswers' hend)
      exact ⟨r, a', hanswers, hlinear, heq ▸ hfast⟩

theorem reachable_first (size k mapBeg : ℕ) (hsize : size < 2^P.w) (hk : k < P.w)
    (hpage : P.page ∣ mapBeg) (hpos : mapBeg ≠ 0) (hlt : mapBeg + P.trueMapSize size (2^k) < 2^P.w)
    (hspace : P.ensureSpace 0 = true) :
    Reachable P (LargeMmapAllocator.init.record P (P.userBeg mapBeg (2^k) - P.page)
        ⟨mapBeg, P.trueMapSize size (2^k), size, 0⟩ (P.trueMapSize size (2^k)).log2)
      {⟨P.userBeg mapBeg (2^k), mapBeg, P.trueMapSize size (2^k)⟩} := by
  have hword : P.trueMapSize size (2^k) < 2^P.w := by omega
  have heq : P.mapSize size (2^k) = P.trueMapSize size (2^k) := by
    rw [mapSize_eq hsize, Nat.mod_eq_of_lt hword]
  have hat : mapOnce (P.trueMapSize size (2^k)) mapBeg (P.trueMapSize size (2^k)) = mapBeg := if_pos rfl
  have hmaps : P.Maps (mapOnce (P.trueMapSize size (2^k)) mapBeg) := maps_mapOnce hpage hlt
  have hstep := (allocate_chunk .init _ hsize hk hmaps hword (by rwa [hat])).2
  rw [if_pos (show P.ensureSpace LargeMmapAllocator.init.nChunks = true from hspace), hat] at hstep
  have hrun := Reachable.allocate .init hsize hk hmaps
    (fun c hc => absurd hc (Finset.notMem_empty c)) hstep
  simp only [Params.chunkOf, heq, hat] at hrun
  exact hrun

/-- The theorem after one allocation of 5000 bytes in a mapping at `2^28`. -/
theorem lookupsRight_iff_page :
    Right page32 (LargeMmapAllocator.init.record page32 (page32.userBeg (2^28) (2^3) - page32.page)
          ⟨2^28, page32.trueMapSize 5000 (2^3), 5000, 0⟩ (page32.trueMapSize 5000 (2^3)).log2)
        {⟨page32.userBeg (2^28) (2^3), 2^28, page32.trueMapSize 5000 (2^3)⟩} ↔
      HighestFits page32 {⟨page32.userBeg (2^28) (2^3), 2^28, page32.trueMapSize 5000 (2^3)⟩} :=
  lookupsRight_iff page32 (reachable_first 5000 3 (2^28) (by decide) (by decide) (by decide) (by decide) (by decide) rfl)

/-- 256 MiB at a multiple of 512 MiB, in a mapping at 3 GiB: the sum wraps, the scan finds the chunk at its
header and the search does not. -/
theorem lookups_overAligned :
    ∃ a live, Reachable page32 a live ∧ a.getBlockBegin page32 0xDFFFF000 = .ok (some 0xE0000000) ∧
      ∃ a', a.getBlockBeginFastLocked page32 0xDFFFF000 = .ok (none, a') := by
  have hrun : Reachable page32 _ _ := reachable_first (2^28) 29 0xC0000000 (by decide)
    (by decide) (by decide) (by decide) (by decide) rfl
  have hplace : page32.userBeg 0xC0000000 (2^29) = 0xE0000000 := by decide
  have hsize : page32.trueMapSize (2^28) (2^29) = 0x30001000 := by decide
  rw [hplace, hsize] at hrun
  exact ⟨_, _, hrun, rfl, _, rfl⟩

end Tasan.Secondary
