import Tasan.StackStore.Model

/-!
# The frames of each block

The counter `total_frames_` alone says how many frames of each block have been handed out: `fill`.
A range inside one block adds its length to that block, and a range that straddles two blocks adds
its two parts, which are exactly what `Alloc` credits when it gives the range up. Blocks are more
than twice as long as a range, so the range after a straddling one lies in one block and the loop of
`Alloc` ends in its second round.
-/

namespace Tasan.StackStore

open Codec

/-! ## Ranges and blocks -/

section Fill

variable {B total c : ℕ}

/-- The number of frames of block `b` below `total`. -/
def fill (B total b : ℕ) : ℕ := min B (total - b * B)

theorem block_cases (B total b : ℕ) :
    b = total / B ∨ b < total / B ∧ b * B + B ≤ total / B * B ∨
      total / B < b ∧ total / B * B + B ≤ b * B := by
  rcases lt_trichotomy b (total / B) with h | h | h
  · have := Nat.mul_le_mul_right B h
    rw [Nat.succ_mul] at this
    exact Or.inr (Or.inl ⟨h, this⟩)
  · exact Or.inl h
  · have := Nat.mul_le_mul_right B h
    rw [Nat.succ_mul] at this
    exact Or.inr (Or.inr ⟨h, this⟩)

theorem single_iff (hB : 0 < B) (hc : 0 < c) :
    total / B = (total + c - 1) / B ↔ total % B + c ≤ B := by
  have h1 := Nat.div_add_mod' total B
  have h2 := Nat.mod_lt total hB
  rw [eq_comm, Nat.div_eq_iff hB]
  omega

theorem straddle_last (hB : 0 < B) (hc : c ≤ B) (h : B < total % B + c) :
    (total + c - 1) / B = total / B + 1 := by
  have h1 := Nat.div_add_mod' total B
  have h2 := Nat.mod_lt total hB
  rw [Nat.div_eq_iff hB, show (total / B + 1) * B = total / B * B + B from Nat.succ_mul _ _]
  omega

theorem straddle_next (hB : 0 < B) (hc : c ≤ B) (h : B < total % B + c) :
    (total + c) / B = total / B + 1 ∧ (total + c) % B = total % B + c - B := by
  have h1 := Nat.div_add_mod' total B
  have h2 := Nat.mod_lt total hB
  have hdiv : (total + c) / B = total / B + 1 := by
    rw [Nat.div_eq_iff hB, show (total / B + 1) * B = total / B * B + B from Nat.succ_mul _ _]
    omega
  have h3 := Nat.div_add_mod' (total + c) B
  rw [hdiv, show (total / B + 1) * B = total / B * B + B from Nat.succ_mul _ _] at h3
  exact ⟨hdiv, by omega⟩

theorem fill_add_single (hB : 0 < B) (h : total % B + c ≤ B) (b : ℕ) :
    fill B (total + c) b = fill B total b + if b = total / B then c else 0 := by
  have h1 := Nat.div_add_mod' total B
  have h2 := Nat.mod_lt total hB
  unfold fill
  rcases block_cases B total b with rfl | ⟨hb, hm⟩ | ⟨hb, hm⟩
  · rw [if_pos rfl]
    omega
  · rw [if_neg hb.ne]
    omega
  · rw [if_neg hb.ne']
    omega

/-- A range that straddles two blocks adds its two parts to them. -/
theorem fill_add_straddle (hB : 0 < B) (hc : c ≤ B) (h : B < total % B + c) (b : ℕ) :
    fill B (total + c) b = fill B total b + (if b = total / B then B - total % B else 0) +
      if b = total / B + 1 then c - (B - total % B) else 0 := by
  have h1 := Nat.div_add_mod' total B
  have h2 := Nat.mod_lt total hB
  have h3 : (total / B + 1) * B = total / B * B + B := Nat.succ_mul _ _
  unfold fill
  rcases block_cases B total b with rfl | ⟨hb, hm⟩ | ⟨hb, hm⟩
  · rw [if_pos rfl, if_neg (by omega)]
    omega
  · rw [if_neg hb.ne, if_neg (by omega)]
    omega
  · rw [if_neg hb.ne']
    by_cases hb1 : b = total / B + 1
    · subst hb1
      rw [if_pos rfl, h3]
      omega
    · have h4 := Nat.mul_le_mul_right B (show total / B + 1 + 1 ≤ b by omega)
      rw [Nat.succ_mul, h3] at h4
      rw [if_neg hb1]
      omega

theorem fill_le (B total b : ℕ) : fill B total b ≤ B := Nat.min_le_left _ _

theorem fill_lt_iff (hB : 0 < B) (b : ℕ) : fill B total b < B ↔ total < b * B + B := by
  unfold fill
  omega

/-- The counter after a call that needs `c` frames. -/
def nextTotal (B total c : ℕ) : ℕ := if total / B = (total + c - 1) / B then total + c else total + 2 * c

theorem add_le_nextTotal (B total c : ℕ) : total + c ≤ nextTotal B total c := by
  unfold nextTotal
  split_ifs <;> omega

end Fill

/-! ## The parameters -/

theorem Params.two_mul_le (P : Params) : 512 ≤ P.kBlockSizeFrames := by
  have hdvd : P.kBlockSizeFrames ∣ 2^32 := ⟨P.kBlockCount, by rw [mul_comm, P.ids]⟩
  obtain ⟨k, -, hk⟩ := (Nat.dvd_prime_pow Nat.prime_two).mp hdvd
  have hlt := P.lt
  rw [hk] at hlt ⊢
  have h8 : 8 < k := (Nat.pow_lt_pow_iff_right (a := 2) (by norm_num)).mp (by simpa using hlt)
  exact Nat.pow_le_pow_right (n := 2) (i := 9) (by norm_num) h8

theorem Params.pos (P : Params) : 0 < P.kBlockSizeFrames := lt_of_le_of_lt (Nat.zero_le _) P.lt

theorem Params.div_lt (P : Params) {i : ℕ} (h : i < 2^32) : i / P.kBlockSizeFrames < P.kBlockCount := by
  rw [Nat.div_lt_iff_lt_mul P.pos, P.ids]
  exact h

/-! ## One round of the loop -/

variable {P : Params}

@[simp]
theorem ok_bind {α β : Type} (a : α) (f : α → Except Fault β) : (Except.ok a >>= f) = f a := rfl

@[simp]
theorem error_bind {α β : Type} (e : Fault) (f : α → Except Fault β) :
    (Except.error e >>= f) = .error e := rfl

@[simp]
theorem Store.setBlock_blocks (s : Store) (i : ℕ) (b : BlockInfo) (j : ℕ) :
    (s.setBlock i b).blocks j = if j = i then b else s.blocks j := rfl

theorem Store.setBlock_setBlock (s : Store) (i : ℕ) (b b' : BlockInfo) :
    (s.setBlock i b).setBlock i b' = s.setBlock i b' := by
  unfold Store.setBlock
  congr 1
  funext j
  dsimp only
  split_ifs <;> rfl

@[simp]
theorem Store.setBlock_totalFrames (s : Store) (i : ℕ) (b : BlockInfo) :
    (s.setBlock i b).totalFrames = s.totalFrames := rfl

theorem check_tag {tag : ℕ} (h : tag < 256) : check (tag == tag % 256) = .ok () := by
  rw [Nat.mod_eq_of_lt h, beq_self_eq_true]
  rfl

theorem Store.store_tag (s : Store) {trace : StackTrace} (h : 256 ≤ trace.tag) :
    s.store P trace = .error .check := by
  have hne : ¬ (trace.frames.length = 0 ∧ trace.tag = 0) := by omega
  have hcheck : check (trace.tag == trace.tag % 256) = .error .check := by
    rw [beq_false_of_ne (by omega)]
    rfl
  simp only [Store.store, if_neg hne, hcheck]
  rfl

theorem Store.addStored_of_lt (s : Store) {i : ℕ} (n : ℕ) (h : i < P.kBlockCount) :
    s.addStored P i n =
      .ok (s.setBlock i ((s.blocks i).addStored P n).1, ((s.blocks i).addStored P n).2.toNat) := by
  unfold Store.addStored
  rw [if_pos h]

theorem Store.addStored_of_le (s : Store) {i : ℕ} (n : ℕ) (h : P.kBlockCount ≤ i) :
    s.addStored P i n = .error .outOfBounds := by
  unfold Store.addStored
  rw [if_neg (by omega)]

theorem range_last {total c : ℕ} (hc : 0 < c) (h : total + c < 2^64) :
    Word.add 64 total c = total + c ∧ Word.sub 64 (Word.add 64 total c) 1 = total + c - 1 := by
  rw [Word.add_of_lt h]
  exact ⟨rfl, Word.sub_of_le (by omega) h⟩

theorem Store.alloc_single (s : Store) {c : ℕ} (fuel pack : ℕ) (hc : 0 < c)
    (hlt : s.totalFrames + c < 2^64)
    (h : s.totalFrames % P.kBlockSizeFrames + c ≤ P.kBlockSizeFrames) :
    s.alloc P c (fuel + 1) pack =
      if P.kBlockCount ≤ s.totalFrames / P.kBlockSizeFrames then
        .ok ({ s with totalFrames := s.totalFrames + c }, none, pack)
      else
        .ok (Store.getOrCreate P { s with totalFrames := s.totalFrames + c }
          (s.totalFrames / P.kBlockSizeFrames), some s.totalFrames, pack) := by
  obtain ⟨h1, h2⟩ := range_last hc hlt
  rw [Store.alloc, h2, h1]
  simp only [if_pos ((single_iff P.pos hc).mpr h)]

/-- The store after a straddling range has been given up. -/
def Store.giveUp (P : Params) (s : Store) (c : ℕ) : Store :=
  let i := s.totalFrames / P.kBlockSizeFrames
  let inFirst := P.kBlockSizeFrames - s.totalFrames % P.kBlockSizeFrames
  let s1 := Store.setBlock { s with totalFrames := s.totalFrames + c } i
    ((s.blocks i).addStored P inFirst).1
  s1.setBlock (i + 1) ((s.blocks (i + 1)).addStored P (c - inFirst)).1

/-- The number of blocks completed by giving up a straddling range. -/
def Store.giveUpPack (P : Params) (s : Store) (c : ℕ) : ℕ :=
  let i := s.totalFrames / P.kBlockSizeFrames
  let inFirst := P.kBlockSizeFrames - s.totalFrames % P.kBlockSizeFrames
  ((s.blocks i).addStored P inFirst).2.toNat +
    ((s.blocks (i + 1)).addStored P (c - inFirst)).2.toNat

/-- A round whose range straddles two blocks. -/
theorem Store.alloc_straddle (s : Store) {c : ℕ} (fuel pack : ℕ) (hc : 0 < c)
    (hcB : c ≤ P.kBlockSizeFrames) (hlt : s.totalFrames + c < 2^64)
    (h : P.kBlockSizeFrames < s.totalFrames % P.kBlockSizeFrames + c) :
    s.alloc P c (fuel + 1) pack =
      if s.totalFrames / P.kBlockSizeFrames + 1 < P.kBlockCount then
        (s.giveUp P c).alloc P c fuel (pack + s.giveUpPack P c)
      else .error .outOfBounds := by
  obtain ⟨h1, h2⟩ := range_last hc hlt
  have hne : s.totalFrames / P.kBlockSizeFrames ≠ s.totalFrames / P.kBlockSizeFrames + 1 := by omega
  have hcheck : check (decide (c ≤ P.kBlockSizeFrames)) = .ok () := by
    rw [decide_eq_true hcB]
    rfl
  rw [Store.alloc, h2, h1, straddle_last P.pos hcB h]
  simp only [if_neg hne, hcheck, ok_bind]
  split_ifs with hlast
  · rw [Store.addStored_of_lt _ _ (by omega), ok_bind, Store.addStored_of_lt _ _ hlast, ok_bind]
    simp only [Store.setBlock_blocks, if_neg (Nat.succ_ne_self _), Nat.add_assoc]
    rfl
  · -- The first block may be in bounds, the last one is not.
    by_cases hfirst : s.totalFrames / P.kBlockSizeFrames < P.kBlockCount
    · rw [Store.addStored_of_lt _ _ hfirst, ok_bind, Store.addStored_of_le _ _ (by omega)]
      rfl
    · rw [Store.addStored_of_le _ _ (by omega)]
      rfl

/-! ## The whole call -/

/-- Every frame that was handed out is credited to its block. -/
def Store.Credited (P : Params) (s : Store) : Prop :=
  ∀ b, (s.blocks b).stored = fill P.kBlockSizeFrames s.totalFrames b

/-- What `Alloc` leaves behind: a range in one block at the end of the frames handed out, every other
frame credited to its block, and the contents of the blocks as they were. -/
structure Allocated (P : Params) (s s' : Store) (c idx : ℕ) : Prop where
  /-- The range is the last one. -/
  total : s'.totalFrames = idx + c
  /-- It is a new one. -/
  le : s.totalFrames ≤ idx
  /-- It lies in one block. -/
  single : idx % P.kBlockSizeFrames + c ≤ P.kBlockSizeFrames
  /-- Its frames are the only ones that are not credited. -/
  stored : ∀ b, (s'.blocks b).stored + (if b = idx / P.kBlockSizeFrames then c else 0) =
    fill P.kBlockSizeFrames (idx + c) b
  /-- No block changes its state. -/
  state : ∀ b, (s'.blocks b).state = (s.blocks b).state
  /-- The memory of the other blocks is as it was. -/
  data : ∀ b, b ≠ idx / P.kBlockSizeFrames → (s'.blocks b).data = (s.blocks b).data
  /-- The range's block has memory. -/
  here : (s'.blocks (idx / P.kBlockSizeFrames)).data =
    some ((s.blocks (idx / P.kBlockSizeFrames)).data.getD (.raw (fun _ => 0) false))

theorem BlockInfo.addStored_stored (b : BlockInfo) {n : ℕ} (h : b.stored + n ≤ P.kBlockSizeFrames) :
    (b.addStored P n).1.stored = b.stored + n :=
  Nat.mod_eq_of_lt (lt_of_le_of_lt (le_trans h P.le) (by norm_num))

theorem Store.getOrCreate_data (s : Store) (i : ℕ) :
    ((s.getOrCreate P i).blocks i).data = some ((s.blocks i).data.getD (.raw (fun _ => 0) false)) := by
  unfold Store.getOrCreate
  cases h : (s.blocks i).data with
  | some d => simp only [h, Option.getD_some]
  | none => simp only [Store.setBlock_blocks, if_true, Option.getD_none]

theorem Store.getOrCreate_other (s : Store) (i j : ℕ) :
    (s.getOrCreate P i).totalFrames = s.totalFrames ∧
      ((s.getOrCreate P i).blocks j).stored = (s.blocks j).stored ∧
      ((s.getOrCreate P i).blocks j).state = (s.blocks j).state ∧
      (j ≠ i → ((s.getOrCreate P i).blocks j).data = (s.blocks j).data) := by
  unfold Store.getOrCreate
  cases h : (s.blocks i).data with
  | some d => exact ⟨rfl, rfl, rfl, fun _ => rfl⟩
  | none =>
    by_cases hj : j = i
    · subst hj
      simp
    · simp [hj]

theorem Store.alloc_single_spec (s : Store) {c : ℕ} (fuel pack : ℕ) (hs : s.Credited P) (hc : 0 < c)
    (hle : s.totalFrames + c ≤ 2^32)
    (h : s.totalFrames % P.kBlockSizeFrames + c ≤ P.kBlockSizeFrames) :
    ∃ s', s.alloc P c (fuel + 1) pack = .ok (s', some s.totalFrames, pack) ∧
      Allocated P s s' c s.totalFrames := by
  have hblock : s.totalFrames / P.kBlockSizeFrames < P.kBlockCount := P.div_lt (by omega)
  rw [s.alloc_single fuel pack hc (by omega) h, if_neg (by omega)]
  have hother := Store.getOrCreate_other (P := P) { s with totalFrames := s.totalFrames + c }
    (s.totalFrames / P.kBlockSizeFrames)
  refine ⟨_, rfl, (hother 0).1, le_rfl, h, ?_, ?_, ?_, ?_⟩
  · intro b
    rw [(hother b).2.1, fill_add_single P.pos h b, ← hs b]
  · exact fun b => (hother b).2.2.1
  · exact fun b => (hother b).2.2.2
  · exact Store.getOrCreate_data _ _

/-- Giving up a range that straddles two blocks credits all of it. -/
theorem Store.giveUp_spec (s : Store) {c : ℕ} (hs : s.Credited P) (hcB : c ≤ P.kBlockSizeFrames)
    (h : P.kBlockSizeFrames < s.totalFrames % P.kBlockSizeFrames + c) :
    (s.giveUp P c).Credited P ∧ ∀ b, ((s.giveUp P c).blocks b).state = (s.blocks b).state ∧
      ((s.giveUp P c).blocks b).data = (s.blocks b).data := by
  have hfill := fill_add_straddle P.pos hcB h
  have hle := fill_le P.kBlockSizeFrames (s.totalFrames + c)
  constructor
  · intro b
    show ((s.giveUp P c).blocks b).stored = fill P.kBlockSizeFrames (s.totalFrames + c) b
    simp only [Store.giveUp, Store.setBlock_blocks]
    specialize hfill b
    specialize hle b
    split_ifs with h1 h2
    · subst h1
      rw [if_neg (Nat.succ_ne_self _), if_pos rfl, ← hs, add_zero] at hfill
      rw [BlockInfo.addStored_stored _ (by omega), hfill]
    · subst h2
      rw [if_pos rfl, if_neg h1, ← hs, add_zero] at hfill
      rw [BlockInfo.addStored_stored _ (by omega), hfill]
    · rw [if_neg h1, if_neg h2, ← hs, add_zero, add_zero] at hfill
      exact hfill.symm
  · intro b
    simp only [Store.giveUp, Store.setBlock_blocks]
    split_ifs with h1 h2
    · subst h1
      exact ⟨rfl, rfl⟩
    · subst h2
      exact ⟨rfl, rfl⟩
    · exact ⟨rfl, rfl⟩

/-- `Alloc` ends within two rounds, while there is space. -/
theorem Store.alloc_spec (s : Store) {c : ℕ} (hs : s.Credited P) (hc : 0 < c) (hc256 : c ≤ 256)
    (h : nextTotal P.kBlockSizeFrames s.totalFrames c ≤ 2^32) :
    ∃ s' idx pack, s.alloc P c 2 0 = .ok (s', some idx, pack) ∧ Allocated P s s' c idx ∧
      idx + c = nextTotal P.kBlockSizeFrames s.totalFrames c := by
  have h512 := P.two_mul_le
  have hsingle : s.totalFrames / _ = _ ↔ _ := single_iff P.pos hc
  unfold nextTotal at h ⊢
  by_cases h1 : s.totalFrames % P.kBlockSizeFrames + c ≤ P.kBlockSizeFrames
  · rw [if_pos (hsingle.mpr h1)] at h ⊢
    obtain ⟨s', hs', ha⟩ := s.alloc_single_spec 1 0 hs hc h h1
    exact ⟨s', _, _, hs', ha, rfl⟩
  · rw [if_neg (fun h2 => h1 (hsingle.mp h2))] at h ⊢
    have h2 : P.kBlockSizeFrames < s.totalFrames % P.kBlockSizeFrames + c := by omega
    have hmod := Nat.mod_lt s.totalFrames P.pos
    obtain ⟨hdiv, hnext⟩ := straddle_next P.pos (by omega : c ≤ P.kBlockSizeFrames) h2
    have hlast : s.totalFrames / P.kBlockSizeFrames + 1 < P.kBlockCount := by
      rw [← hdiv]
      exact P.div_lt (by omega)
    obtain ⟨hcred, hkeep⟩ := s.giveUp_spec hs (by omega) h2
    rw [s.alloc_straddle 1 0 hc (by omega) (by omega) h2, if_pos hlast]
    -- The second round starts near the beginning of the next block.
    obtain ⟨s', hs', ha⟩ := (s.giveUp P c).alloc_single_spec 0 (0 + s.giveUpPack P c) hcred hc
      (show s.totalFrames + c + c ≤ 2^32 by omega)
      (show (s.totalFrames + c) % P.kBlockSizeFrames + c ≤ P.kBlockSizeFrames by omega)
    have htotal : (s.giveUp P c).totalFrames = s.totalFrames + c := rfl
    rw [htotal] at hs' ha
    refine ⟨s', _, _, hs', ⟨ha.total, ?_, ha.single, ha.stored, ?_, ?_, ?_⟩, by omega⟩
    · omega
    · exact fun b => (ha.state b).trans (hkeep b).1
    · exact fun b hb => (ha.data b hb).trans (hkeep b).2
    · rw [ha.here, (hkeep _).2]

end Tasan.StackStore
