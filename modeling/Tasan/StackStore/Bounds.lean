import Tasan.StackStore.Load

/-!
# Accesses to the array of blocks

`Alloc` compares the block index with the size of `blocks_` only when its range lies in one block. A
range that straddles the end of the last block, or two blocks past it, is credited without a check,
to an element that does not exist. `InBounds` is the condition on the state before a call that
excludes this: the range does not straddle the end of an existing block into one that does not exist,
and the counter does not wrap. Runs whose calls all meet it access existing blocks only, and once the
frames are used up no further call touches a block.
-/

namespace Tasan.StackStore

variable {P : Params}

/-- A sequence of calls of `Store`. -/
def storeAll (P : Params) (traces : List StackTrace) : Except Fault Store :=
  traces.foldlM (fun s trace => do
    let (s, _, _) ← s.store P trace
    return s) {}

/-- The call accesses existing blocks only: for a trace that is not empty, the counter does not wrap,
and the range lies in one block or ends in an existing one. -/
def InBounds (P : Params) (s : Store) (trace : StackTrace) : Prop :=
  trace.frames.length = 0 ∧ trace.tag = 0 ∨
    let last := s.totalFrames + (headerSize trace + 1) - 1
    s.totalFrames + (headerSize trace + 1) < 2^64 ∧
      (s.totalFrames / P.kBlockSizeFrames = last / P.kBlockSizeFrames ∨
        last / P.kBlockSizeFrames < P.kBlockCount)

/-- The state of a run: the invariant of the contents, until the frames are used up. -/
def Sound (P : Params) (s : Store) : Prop := 2^32 ≤ s.totalFrames ∨ ∃ g log, Inv P s g log

theorem storeAll_snoc (traces : List StackTrace) (trace : StackTrace) :
    storeAll P (traces ++ [trace]) = storeAll P traces >>= fun s => do
      let (s, _, _) ← s.store P trace
      return s := by
  simp [storeAll, List.foldlM_append]

theorem headerSize_le (trace : StackTrace) : headerSize trace + 1 ≤ 256 := by
  unfold headerSize
  omega

/-- A range that ends in an existing block leaves space for its second attempt. -/
theorem nextTotal_le {total c : ℕ} (hc : 0 < c) (hc256 : c ≤ 256)
    (h : (total + c - 1) / P.kBlockSizeFrames < P.kBlockCount) :
    nextTotal P.kBlockSizeFrames total c ≤ 2^32 := by
  have h512 := P.two_mul_le
  have hids := P.ids
  have hmod := Nat.mod_lt total P.pos
  have hend : ∀ i, i / P.kBlockSizeFrames < P.kBlockCount →
      i / P.kBlockSizeFrames * P.kBlockSizeFrames + P.kBlockSizeFrames ≤ 2^32 := by
    intro i hi
    have := Nat.mul_le_mul_right P.kBlockSizeFrames hi
    rw [Nat.succ_mul] at this
    omega
  unfold nextTotal
  split_ifs with h1
  · have h2 := hend _ h
    have h3 := Nat.div_add_mod' (total + c - 1) P.kBlockSizeFrames
    have h4 := Nat.mod_lt (total + c - 1) P.pos
    omega
  · have hstr : P.kBlockSizeFrames < total % P.kBlockSizeFrames + c := by
      by_contra hle
      exact h1 ((single_iff P.pos hc).mpr (by omega))
    obtain ⟨hdiv, hnext⟩ := straddle_next P.pos (by omega : c ≤ P.kBlockSizeFrames) hstr
    rw [straddle_last P.pos (by omega) hstr, ← hdiv] at h
    have h2 := hend _ h
    have h3 := Nat.div_add_mod' (total + c) P.kBlockSizeFrames
    omega

theorem Store.store_full (s : Store) {trace : StackTrace}
    (hne : ¬ (trace.frames.length = 0 ∧ trace.tag = 0)) (htag : trace.tag < 256)
    (hfull : 2^32 ≤ s.totalFrames) (hlt : s.totalFrames + (headerSize trace + 1) < 2^64)
    (h : s.totalFrames / P.kBlockSizeFrames =
      (s.totalFrames + (headerSize trace + 1) - 1) / P.kBlockSizeFrames) :
    s.store P trace =
      .ok ({ s with totalFrames := s.totalFrames + (headerSize trace + 1) }, 0, some 0) := by
  have hblock : P.kBlockCount ≤ s.totalFrames / P.kBlockSizeFrames := by
    rw [Nat.le_div_iff_mul_le P.pos, P.ids]
    exact hfull
  have halloc := s.alloc_single (P := P) 1 0 (Nat.succ_pos (headerSize trace)) hlt
    ((single_iff P.pos (Nat.succ_pos _)).mp h)
  rw [if_pos hblock] at halloc
  simp only [Store.store, if_neg hne, check_tag htag, ok_bind, halloc]
  rfl

/-- One call that meets the condition returns, and does not touch a block once the frames are used
up. -/
theorem Sound.store {s : Store} (h : Sound P s) {trace : StackTrace} (hb : InBounds P s trace)
    (htag : trace.tag < 256) :
    ∃ s' id pack, s.store P trace = .ok (s', id, pack) ∧ Sound P s' ∧
      (2^32 ≤ s.totalFrames → id = 0 ∧ s'.blocks = s.blocks) := by
  by_cases hne : trace.frames.length = 0 ∧ trace.tag = 0
  · refine ⟨s, 0, none, ?_, h, fun _ => ⟨rfl, rfl⟩⟩
    simp only [Store.store, if_pos hne]
  · obtain ⟨hlt, hcase⟩ := hb.resolve_left hne
    by_cases hfull : 2^32 ≤ s.totalFrames
    · -- No existing block is that far.
      have hsingle := hcase.resolve_right (by
        rw [not_lt, Nat.le_div_iff_mul_le P.pos, P.ids]
        omega)
      refine ⟨_, _, _, s.store_full hne htag hfull hlt hsingle, Or.inl ?_, fun _ => ⟨rfl, rfl⟩⟩
      dsimp only
      omega
    · obtain ⟨g, log, hinv⟩ := h.resolve_left hfull
      have hlast : (s.totalFrames + (headerSize trace + 1) - 1) / P.kBlockSizeFrames <
          P.kBlockCount := by
        rcases hcase with heq | hlast
        · rw [← heq]
          exact P.div_lt (by omega)
        · exact hlast
      obtain ⟨s', id, pack, g', hs, hinv', -⟩ := hinv.store hne htag
        (nextTotal_le (Nat.succ_pos _) (headerSize_le trace) hlast)
      exact ⟨s', id, pack, hs, Or.inr ⟨g', _, hinv'⟩, fun hge => absurd hge hfull⟩

theorem Store.store_outOfBounds (s : Store) {trace : StackTrace} (htag : trace.tag < 256)
    (hlt : s.totalFrames + (headerSize trace + 1) < 2^64) (h : ¬ InBounds P s trace) :
    s.store P trace = .error .outOfBounds := by
  obtain ⟨hne, hcase⟩ := not_or.mp h
  obtain ⟨hstr, hlast⟩ := not_or.mp fun hin => hcase ⟨hlt, hin⟩
  rw [single_iff P.pos (Nat.succ_pos _), not_le] at hstr
  have hle : headerSize trace + 1 ≤ P.kBlockSizeFrames := (headerSize_le trace).trans P.lt.le
  rw [straddle_last P.pos hle hstr] at hlast
  have halloc := s.alloc_straddle (P := P) 1 0 (Nat.succ_pos _) hle hlt hstr
  rw [if_neg hlast] at halloc
  simp only [Store.store, if_neg hne, check_tag htag, ok_bind, halloc]
  rfl

/-- Every step of the sequence meets the condition in the state before it. -/
def AllInBounds (P : Params) (traces : List StackTrace) : Prop :=
  ∀ before trace after, traces = before ++ trace :: after →
    ∀ s, storeAll P before = .ok s → InBounds P s trace

theorem storeAll_sound (traces : List StackTrace) (h : AllInBounds P traces) :
    (∃ s, storeAll P traces = .ok s ∧ Sound P s) ∨
      storeAll P traces = .error .check ∧ ∃ trace ∈ traces, 256 ≤ trace.tag := by
  induction traces using List.reverseRecOn with
  | nil => exact Or.inl ⟨{}, rfl, Or.inr ⟨_, [], Inv.init⟩⟩
  | append_singleton traces trace ih =>
    rw [storeAll_snoc]
    have hpre : AllInBounds P traces := fun before t after heq =>
      h before t (after ++ [trace]) (by rw [heq]; simp)
    rcases ih hpre with ⟨s, hs, hsound⟩ | ⟨herr, t, ht, htag⟩
    · have hb := h traces trace [] (by simp) s hs
      rw [hs, ok_bind]
      by_cases htag : trace.tag < 256
      · obtain ⟨s', id, pack, hs', hsound', -⟩ := hsound.store hb htag
        rw [hs', ok_bind]
        exact Or.inl ⟨s', rfl, hsound'⟩
      · rw [s.store_tag (not_lt.mp htag)]
        exact Or.inr ⟨rfl, trace, by simp, not_lt.mp htag⟩
    · rw [herr]
      exact Or.inr ⟨rfl, t, List.mem_append_left _ ht, htag⟩

/-- In every sequence of calls that meet the condition, no access to `blocks_` is out of bounds (the
only failure is the check of a tag), and a call after the frames are used up returns 0 and does not
touch a block. -/
theorem stores_access_existing_blocks (P : Params) (traces : List StackTrace)
    (h : AllInBounds P traces) :
    (∀ f, storeAll P traces = .error f → f = .check ∧ ∃ trace ∈ traces, 256 ≤ trace.tag) ∧
      ∀ before trace after s, traces = before ++ trace :: after → storeAll P before = .ok s →
        2^32 ≤ s.totalFrames → trace.tag < 256 →
        ∃ s' pack, s.store P trace = .ok (s', 0, pack) ∧ s'.blocks = s.blocks := by
  constructor
  · intro f hf
    rcases storeAll_sound traces h with ⟨s, hs, -⟩ | ⟨herr, hmem⟩
    · rw [hs] at hf
      exact absurd hf (by simp)
    · rw [herr] at hf
      exact ⟨(Except.error.inj hf).symm, hmem⟩
  · rintro before trace after s rfl hs hfull htag
    obtain ⟨s', id, pack, hs', -, hkeep⟩ :=
      Sound.store (Or.inl hfull) (h before trace after rfl s hs) htag
    obtain ⟨rfl, hblocks⟩ := hkeep hfull
    exact ⟨s', pack, hs', hblocks⟩

/-- A trace of one frame in an empty store. -/
theorem stores_access_existing_blocks_one :
    AllInBounds Params.default [⟨[7], 0⟩] ∧
      ((∀ f, storeAll Params.default [⟨[7], 0⟩] = .error f →
          f = .check ∧ ∃ trace ∈ [(⟨[7], 0⟩ : StackTrace)], 256 ≤ trace.tag) ∧
        ∀ before trace after s, [(⟨[7], 0⟩ : StackTrace)] = before ++ trace :: after →
          storeAll Params.default before = .ok s → 2^32 ≤ s.totalFrames → trace.tag < 256 →
          ∃ s' pack, s.store Params.default trace = .ok (s', 0, pack) ∧ s'.blocks = s.blocks) := by
  have h : AllInBounds Params.default [⟨[7], 0⟩] := by
    intro before trace after heq s hs
    obtain ⟨rfl, rfl, rfl⟩ : before = [] ∧ trace = ⟨[7], 0⟩ ∧ after = [] := by
      cases before with
      | nil => simpa [eq_comm] using heq
      | cons t ts => simp at heq
    obtain rfl : ({} : Store) = s := Except.ok.inj hs
    exact Or.inr ⟨by decide, Or.inl (by decide)⟩
  exact ⟨h, stores_access_existing_blocks _ _ h⟩

theorem storeAll_replicate {n : ℕ} (hn : n ≤ 2^32) :
    ∃ s g log, storeAll P (List.replicate n ⟨[], 1⟩) = .ok s ∧ Inv P s g log ∧ s.totalFrames = n := by
  induction n with
  | zero => exact ⟨{}, _, [], rfl, Inv.init, rfl⟩
  | succ n ih =>
    obtain ⟨s, g, log, hs, hinv, htotal⟩ := ih (by omega)
    have hnext : nextTotal P.kBlockSizeFrames s.totalFrames (headerSize ⟨[], 1⟩ + 1) = n + 1 := by
      rw [htotal]
      exact if_pos rfl
    have hne : ¬ ((⟨[], 1⟩ : StackTrace).frames.length = 0 ∧ (⟨[], 1⟩ : StackTrace).tag = 0) := by
      simp
    obtain ⟨s', id, pack, g', hs', hinv', htotal'⟩ :=
      hinv.store hne (by norm_num) (by rw [hnext]; exact hn)
    rw [List.replicate_succ', storeAll_snoc, hs, ok_bind, hs', ok_bind]
    exact ⟨s', g', _, rfl, hinv', htotal'.trans hnext⟩

/-- A trace of one frame whose range straddles the end of the last block. -/
theorem stores_straddle_last_block :
    storeAll Params.default (List.replicate (2^32 - 1) ⟨[], 1⟩ ++ [⟨[7], 0⟩]) =
      .error .outOfBounds := by
  obtain ⟨s, g, log, hs, -, htotal⟩ :=
    storeAll_replicate (P := Params.default) (show 2^32 - 1 ≤ 2^32 by norm_num)
  have hout : s.store Params.default ⟨[7], 0⟩ = .error .outOfBounds := by
    apply s.store_outOfBounds (by norm_num)
    · rw [htotal]
      decide
    · unfold InBounds
      rw [htotal]
      decide
  rw [storeAll_snoc, hs, ok_bind, hout]
  rfl

end Tasan.StackStore
