import Tasan.BitVector.TwoLevel

/-!
# The members of a two-level bit vector, in increasing order

`members` lists the members of a vector row by row and word by word, and is increasing. It is the
reference for `getAndClearFirstOne`, which takes its head, and for `Iterator`, which keeps three
cursors over the two levels: what is left of a row's first level, what is left of a word of the second
level, and the row.
-/

namespace Tasan.BitVector

variable {w : ℕ}

/-! ## Indices -/

/-- `i0 * BV::kSize * BV::kSize + i1 * BV::kSize + i2`. -/
def index (w i0 i1 i2 : ℕ) : ℕ := i0 * w * w + i1 * w + i2

theorem idx_lt {k idx : ℕ} (h : idx < size k w) :
    idx0 w idx < k ∧ idx1 w idx < w ∧ idx2 w idx < w := by
  unfold size at h
  have hw : 0 < w := by
    rcases Nat.eq_zero_or_pos w with rfl | hw
    · simp at h
    · exact hw
  exact ⟨Nat.div_lt_of_lt_mul h, Nat.mod_lt _ hw, Nat.mod_lt _ hw⟩

theorem index_idx (w idx : ℕ) : index w (idx0 w idx) (idx1 w idx) (idx2 w idx) = idx := by
  unfold index idx0 idx1 idx2
  rw [← Nat.div_div_eq_div_mul]
  calc idx / w / w * w * w + idx / w % w * w + idx % w
      = (idx / w / w * w + idx / w % w) * w + idx % w := by ring
    _ = idx / w * w + idx % w := by rw [Nat.div_add_mod']
    _ = idx := Nat.div_add_mod' idx w

theorem idx_index (i0 : ℕ) {i1 i2 : ℕ} (h1 : i1 < w) (h2 : i2 < w) :
    idx0 w (index w i0 i1 i2) = i0 ∧ idx1 w (index w i0 i1 i2) = i1 ∧
      idx2 w (index w i0 i1 i2) = i2 := by
  have hw : 0 < w := by omega
  have hidx : index w i0 i1 i2 = i2 + w * (i1 + w * i0) := by
    unfold index
    ring
  have hdiv : index w i0 i1 i2 / w = i1 + w * i0 := by
    rw [hidx, Nat.add_mul_div_left _ _ hw, Nat.div_eq_of_lt h2, Nat.zero_add]
  refine ⟨?_, ?_, ?_⟩
  · rw [idx0, ← Nat.div_div_eq_div_mul, hdiv, Nat.add_mul_div_left _ _ hw, Nat.div_eq_of_lt h1,
      Nat.zero_add]
  · rw [idx1, hdiv, Nat.add_mul_mod_self_left, Nat.mod_eq_of_lt h1]
  · rw [idx2, hidx, Nat.add_mul_mod_self_left, Nat.mod_eq_of_lt h2]

theorem index_lt {k i0 i1 i2 : ℕ} (h0 : i0 < k) (h1 : i1 < w) (h2 : i2 < w) :
    index w i0 i1 i2 < size k w := by
  have hrow : i1 * w + i2 < w * w := by
    calc i1 * w + i2 < i1 * w + w := by omega
      _ = (i1 + 1) * w := by ring
      _ ≤ w * w := Nat.mul_le_mul_right w h1
  calc index w i0 i1 i2 = i0 * (w * w) + (i1 * w + i2) := by unfold index; ring
    _ < i0 * (w * w) + w * w := by omega
    _ = w * w * (i0 + 1) := by ring
    _ ≤ size k w := Nat.mul_le_mul_left (w * w) h0

theorem index_lt_of_row {i0 j0 i1 j1 i2 j2 : ℕ} (h : i0 < j0) (h1 : i1 < w) (h2 : i2 < w) :
    index w i0 i1 i2 < index w j0 j1 j2 := by
  have hlt := index_lt (k := j0) h h1 h2
  have heq : size j0 w + (j1 * w + j2) = index w j0 j1 j2 := by
    unfold size index
    ring
  omega

theorem index_lt_of_word {i0 i1 j1 i2 j2 : ℕ} (h : i1 < j1) (h2 : i2 < w) :
    index w i0 i1 i2 < index w i0 j1 j2 := by
  have hword : (i1 + 1) * w ≤ j1 * w := Nat.mul_le_mul_right w h
  have hexp : (i1 + 1) * w = i1 * w + w := by ring
  unfold index
  omega

/-! ## The members -/

/-- The members in a word of a row. -/
def wordMembers (w i0 i1 : ℕ) (b : BitVec w) : List ℕ := (ones b).map (fun i2 => index w i0 i1 i2)

/-- The members in the words of a row whose first-level bits are in `l1`. -/
def rowMembers (v : TwoLevel w) (i0 : ℕ) (l1 : BitVec w) : List ℕ :=
  (ones l1).flatMap (fun i1 => wordMembers w i0 i1 ((v.row i0).l2 i1))

/-- The members in the `n` rows from `i0` on. -/
def membersFrom (v : TwoLevel w) (i0 n : ℕ) : List ℕ :=
  (List.range' i0 n).flatMap (fun i => rowMembers v i (v.row i).l1)

/-- The members of a vector. -/
def members (k : ℕ) (v : TwoLevel w) : List ℕ := membersFrom v 0 k

theorem mem_wordMembers {i0 i1 idx : ℕ} {b : BitVec w} :
    idx ∈ wordMembers w i0 i1 b ↔ ∃ i2 < w, b.getLsbD i2 = true ∧ index w i0 i1 i2 = idx := by
  simp only [wordMembers, List.mem_map, mem_ones, and_assoc]

theorem mem_rowMembers {v : TwoLevel w} {i0 idx : ℕ} {l1 : BitVec w} :
    idx ∈ rowMembers v i0 l1 ↔ ∃ i1 < w, l1.getLsbD i1 = true ∧
      ∃ i2 < w, ((v.row i0).l2 i1).getLsbD i2 = true ∧ index w i0 i1 i2 = idx := by
  simp only [rowMembers, List.mem_flatMap, mem_ones, mem_wordMembers, and_assoc]

theorem mem_membersFrom {v : TwoLevel w} {i n idx : ℕ} :
    idx ∈ membersFrom v i n ↔ ∃ i0, i ≤ i0 ∧ i0 < i + n ∧ idx ∈ rowMembers v i0 (v.row i0).l1 := by
  simp only [membersFrom, List.mem_flatMap, List.mem_range'_1, and_assoc]

theorem pairwise_flatMap_lt {l : List ℕ} {f : ℕ → List ℕ} (hl : l.Pairwise (· < ·))
    (hf : ∀ i ∈ l, (f i).Pairwise (· < ·))
    (hlt : ∀ i ∈ l, ∀ j ∈ l, i < j → ∀ a ∈ f i, ∀ b ∈ f j, a < b) :
    (l.flatMap f).Pairwise (· < ·) := by
  rw [List.pairwise_flatMap]
  refine ⟨hf, ?_⟩
  apply hl.imp_of_mem
  intro i j hi hj hij a ha b hb
  exact hlt i hi j hj hij a ha b hb

theorem pairwise_wordMembers (i0 i1 : ℕ) (b : BitVec w) :
    (wordMembers w i0 i1 b).Pairwise (· < ·) := by
  unfold wordMembers
  apply (pairwise_ones b).map
  intro i j hij
  unfold index
  omega

theorem pairwise_rowMembers (v : TwoLevel w) (i0 : ℕ) (l1 : BitVec w) :
    (rowMembers v i0 l1).Pairwise (· < ·) := by
  apply pairwise_flatMap_lt (pairwise_ones l1)
  · intro i1 _
    exact pairwise_wordMembers i0 i1 _
  · intro i1 _ j1 _ hlt a ha b hb
    obtain ⟨i2, hi2, -, rfl⟩ := mem_wordMembers.mp ha
    obtain ⟨j2, -, -, rfl⟩ := mem_wordMembers.mp hb
    exact index_lt_of_word hlt hi2

theorem pairwise_members (k : ℕ) (v : TwoLevel w) : (members k v).Pairwise (· < ·) := by
  apply pairwise_flatMap_lt List.pairwise_lt_range'
  · intro i0 _
    exact pairwise_rowMembers v i0 _
  · intro i0 _ j0 _ hlt a ha b hb
    obtain ⟨i1, hi1, -, i2, hi2, -, rfl⟩ := mem_rowMembers.mp ha
    obtain ⟨j1, -, -, j2, -, -, rfl⟩ := mem_rowMembers.mp hb
    exact index_lt_of_row hlt hi1 hi2

/-- Every first-level bit of the vector is right. -/
def TwoLevel.Ok (k : ℕ) (v : TwoLevel w) : Prop := ∀ i0 < k, ∀ i1 < w, ((v.row i0).cell i1).Ok

theorem membersFrom_succ (v : TwoLevel w) (i0 n : ℕ) :
    membersFrom v i0 (n + 1) = rowMembers v i0 (v.row i0).l1 ++ membersFrom v (i0 + 1) n := by
  unfold membersFrom
  rw [List.range'_succ, List.flatMap_cons]

theorem rowMembers_zero (v : TwoLevel w) (i0 : ℕ) : rowMembers v i0 (0#w) = [] := by
  unfold rowMembers
  rw [ones_eq_nil.mpr rfl, List.flatMap_nil]

theorem wordMembers_zero (i0 i1 : ℕ) : wordMembers w i0 i1 (0#w) = [] := by
  unfold wordMembers
  rw [ones_eq_nil.mpr rfl, List.map_nil]

theorem empty_iff {b : BitVec w} : BitVector.empty b = true ↔ b = 0#w := by
  unfold BitVector.empty
  exact beq_iff_eq

/-! ## Iterator -/

/-- `TwoLevelBitVector::Iterator`. -/
structure Iterator (w : ℕ) where
  i0 : ℕ
  i1 : ℕ
  /-- What is left of the first level of the row. -/
  it1 : BitVec w
  /-- What is left of the word. -/
  it2 : BitVec w

/-- `Iterator(bv)`. -/
def Iterator.start (w : ℕ) : Iterator w := ⟨0, 0, 0#w, 0#w⟩

/-- `Iterator::hasNext`. -/
def Iterator.hasNext (k : ℕ) (v : TwoLevel w) (it : Iterator w) : Bool :=
  !BitVector.empty it.it1 ||
    (List.range' it.i0 (k - it.i0)).any (fun i => !BitVector.empty (v.row i).l1)

/-- The loop of `next` that looks for a row, with `n` rows left. -/
def Iterator.nextRow (v : TwoLevel w) (it : Iterator w) : ℕ → Iterator w
  | 0 => it
  | n + 1 =>
    if BitVector.empty (v.row it.i0).l1 then nextRow v { it with i0 := it.i0 + 1 } n
    else { it with it1 := (v.row it.i0).l1 }

/-- The part of `next` that looks for a word. -/
def Iterator.nextWord (v : TwoLevel w) (it : Iterator w) : Option (Iterator w) :=
  if BitVector.empty it.it2 then do
    let (i1, it1) ← BitVector.getAndClearFirstOne it.it1
    return { it with i1 := i1, it1 := it1, it2 := (v.row it.i0).l2 i1 }
  else some it

/-- The part of `next` that takes a bit of the word. -/
def Iterator.nextBit (it : Iterator w) : Option (ℕ × Iterator w) := do
  let (i2, it2) ← BitVector.getAndClearFirstOne it.it2
  let it := { it with it2 := it2 }
  return (index w it.i0 it.i1 i2,
    if BitVector.empty it.it1 && BitVector.empty it.it2 then { it with i0 := it.i0 + 1 } else it)

/-- `Iterator::next`; `none` is a failed `CHECK`. -/
def Iterator.next (k : ℕ) (v : TwoLevel w) (it : Iterator w) : Option (ℕ × Iterator w) :=
  let it := if BitVector.empty it.it1 && BitVector.empty it.it2 then it.nextRow v (k - it.i0) else it
  (it.nextWord v).bind Iterator.nextBit

/-- The loop `while (it.hasNext()) use(it.next())` uses the indices of a list and stops. -/
inductive Iterator.Yields (k : ℕ) (v : TwoLevel w) : Iterator w → List ℕ → Prop
  | done {it} : it.hasNext k v = false → Yields k v it []
  | next {it it' idx l} : it.hasNext k v = true → it.next k v = some (idx, it') →
      Yields k v it' l → Yields k v it (idx :: l)

/-- The iterator is inside a row. -/
def Iterator.Inside (it : Iterator w) : Prop := it.it1 ≠ 0#w ∨ it.it2 ≠ 0#w

/-- What is left when the iterator is inside a row. -/
def Iterator.rest (k : ℕ) (v : TwoLevel w) (it : Iterator w) : List ℕ :=
  wordMembers w it.i0 it.i1 it.it2 ++ rowMembers v it.i0 it.it1 ++
    membersFrom v (it.i0 + 1) (k - (it.i0 + 1))

/-- The cursors inside a row. -/
structure Iterator.Good (k : ℕ) (v : TwoLevel w) (it : Iterator w) : Prop where
  /-- The row is one of the vector and is not empty. -/
  row : it.i0 < k ∧ (v.row it.i0).l1 ≠ 0#w
  /-- What is left of the first level. -/
  sub : ∀ i1 < w, it.it1.getLsbD i1 = true → (v.row it.i0).l1.getLsbD i1 = true

/-- The iterator is between two rows, or inside one, with the members `l` left. -/
def Iterator.Left (k : ℕ) (v : TwoLevel w) (it : Iterator w) (l : List ℕ) : Prop :=
  (¬it.Inside ∧ l = membersFrom v it.i0 (k - it.i0)) ∨
    (it.Inside ∧ it.Good k v ∧ l = it.rest k v)

theorem Iterator.nextRow_spec {k : ℕ} {v : TwoLevel w} {it : Iterator w} (hout : ¬it.Inside) {n : ℕ}
    (hn : it.i0 + n = k) (hne : membersFrom v it.i0 n ≠ []) :
    (it.nextRow v n).Inside ∧ (it.nextRow v n).Good k v ∧
      (it.nextRow v n).rest k v = membersFrom v it.i0 n := by
  induction n generalizing it with
  | zero => exact absurd rfl hne
  | succ n ih =>
    unfold Iterator.nextRow
    rw [membersFrom_succ] at hne ⊢
    split_ifs with hempty
    · rw [empty_iff.mp hempty, rowMembers_zero, List.nil_append] at hne ⊢
      exact @ih { it with i0 := it.i0 + 1 } hout (by dsimp only; omega) hne
    · have hl1 : (v.row it.i0).l1 ≠ 0#w := fun h => hempty (empty_iff.mpr h)
      have hit2 : it.it2 = 0#w := by
        by_contra h
        exact hout (Or.inr h)
      refine ⟨Or.inl hl1, ⟨⟨by dsimp only; omega, hl1⟩, fun _ _ h => h⟩, ?_⟩
      simp only [Iterator.rest, hit2, wordMembers_zero, List.nil_append]
      rw [show k - (it.i0 + 1) = n by omega]

/-- `nextWord` makes sure that the word has bits left. -/
theorem Iterator.nextWord_spec {k : ℕ} {v : TwoLevel w} {it : Iterator w} (hv : v.Ok k)
    (hin : it.Inside) (hgood : it.Good k v) :
    ∃ it', it.nextWord v = some it' ∧ it'.it2 ≠ 0#w ∧ it'.Good k v ∧ it'.rest k v = it.rest k v := by
  unfold Iterator.nextWord
  by_cases hit2 : it.it2 = 0#w
  · have hit1 : it.it1 ≠ 0#w := hin.resolve_right (not_not_intro hit2)
    obtain ⟨i1, b', hget, hones, hi1⟩ := getAndClearFirstOne_spec hit1
    have hmem : ∀ j, j ∈ ones b' → j ∈ ones it.it1 := by
      intro j hj
      rw [hones]
      exact List.mem_cons_of_mem _ hj
    have hbit := mem_ones.mp (hones ▸ List.mem_cons_self : i1 ∈ ones it.it1)
    refine ⟨{ it with i1 := i1, it1 := b', it2 := (v.row it.i0).l2 i1 }, ?_, ?_, ⟨hgood.row, ?_⟩, ?_⟩
    · rw [if_pos (empty_iff.mpr hit2), hget]
      rfl
    · exact hv it.i0 hgood.row.1 i1 hi1 (hgood.sub i1 hi1 hbit.2)
    · intro j hj hb
      exact hgood.sub j hj (mem_ones.mp (hmem j (mem_ones.mpr ⟨hj, hb⟩))).2
    · simp only [Iterator.rest, hit2, wordMembers_zero, List.nil_append, rowMembers, hones,
        List.flatMap_cons, List.append_assoc]
  · refine ⟨it, if_neg (fun h => hit2 (empty_iff.mp h)), hit2, hgood, rfl⟩

/-- `nextBit` takes the first of the members that are left. -/
theorem Iterator.nextBit_spec {k : ℕ} {v : TwoLevel w} {it : Iterator w} (hit2 : it.it2 ≠ 0#w)
    (hgood : it.Good k v) :
    ∃ idx it' l, it.nextBit = some (idx, it') ∧ it.rest k v = idx :: l ∧ it'.Left k v l := by
  obtain ⟨i2, b', hget, hones, hi2⟩ := getAndClearFirstOne_spec hit2
  have hrest : it.rest k v = index w it.i0 it.i1 i2 :: Iterator.rest k v { it with it2 := b' } := by
    simp only [Iterator.rest, wordMembers, hones, List.map_cons, List.cons_append]
  unfold Iterator.nextBit
  rw [hget]
  by_cases hin : Iterator.Inside { it with it2 := b' }
  · refine ⟨_, { it with it2 := b' }, _, ?_, hrest, Or.inr ⟨hin, ⟨hgood.row, hgood.sub⟩, rfl⟩⟩
    have hcond : (BitVector.empty it.it1 && BitVector.empty b') = false := by
      rw [Bool.eq_false_iff, ne_eq, Bool.and_eq_true, empty_iff, empty_iff]
      rintro ⟨h1, h2⟩
      exact hin.elim (fun h => h h1) (fun h => h h2)
    simp only [Option.bind_eq_bind, Option.bind_some, hcond]
    rfl
  · obtain ⟨h1, h2⟩ : it.it1 = 0#w ∧ b' = 0#w := by
      constructor
      · by_contra h
        exact hin (Or.inl h)
      · by_contra h
        exact hin (Or.inr h)
    refine ⟨_, { it with it2 := b', i0 := it.i0 + 1 }, _, ?_, hrest, Or.inl ⟨hin, ?_⟩⟩
    · simp [h1, h2, BitVector.empty]
    · simp only [Iterator.rest, h1, h2, wordMembers_zero, rowMembers_zero, List.nil_append]

/-- `next` takes the first of the members that are left. -/
theorem Iterator.next_spec {k : ℕ} {v : TwoLevel w} {it : Iterator w} {l : List ℕ} (hv : v.Ok k)
    (hleft : it.Left k v l) (hne : l ≠ []) :
    ∃ idx it' l', it.next k v = some (idx, it') ∧ l = idx :: l' ∧ it'.Left k v l' := by
  -- after the search for a row the cursors are inside one
  obtain ⟨it₁, hit₁, hin₁, hgood₁, hrest₁⟩ : ∃ it₁, it₁ = (if BitVector.empty it.it1 &&
      BitVector.empty it.it2 then it.nextRow v (k - it.i0) else it) ∧ it₁.Inside ∧ it₁.Good k v ∧
      l = it₁.rest k v := by
    rcases hleft with ⟨hout, rfl⟩ | ⟨hin, hgood, rfl⟩
    · have hlt : it.i0 ≤ k := by
        by_contra hlt
        rw [Nat.sub_eq_zero_of_le (by omega)] at hne
        exact hne rfl
      obtain ⟨hin, hgood, hrest⟩ := Iterator.nextRow_spec (k := k) hout (by omega) hne
      obtain ⟨h1, h2⟩ : it.it1 = 0#w ∧ it.it2 = 0#w :=
        ⟨by_contra fun h => hout (Or.inl h), by_contra fun h => hout (Or.inr h)⟩
      refine ⟨_, ?_, hin, hgood, hrest.symm⟩
      simp [h1, h2, BitVector.empty]
    · refine ⟨it, ?_, hin, hgood, rfl⟩
      rw [if_neg]
      rw [Bool.and_eq_true, empty_iff, empty_iff]
      rintro ⟨h1, h2⟩
      exact hin.elim (fun h => h h1) (fun h => h h2)
  obtain ⟨it₂, hit₂, hit2, hgood₂, hrest₂⟩ := Iterator.nextWord_spec hv hin₁ hgood₁
  obtain ⟨idx, it', l', hnext, hcons, hleft'⟩ := Iterator.nextBit_spec hit2 hgood₂
  refine ⟨idx, it', l', ?_, by rw [hrest₁, ← hrest₂, hcons], hleft'⟩
  unfold Iterator.next
  dsimp only
  rw [← hit₁, hit₂, Option.bind_some, hnext]

theorem membersFrom_ne_nil {k : ℕ} {v : TwoLevel w} (hv : v.Ok k) {i n : ℕ} (hn : i + n ≤ k) :
    membersFrom v i n ≠ [] ↔ ∃ i0, i ≤ i0 ∧ i0 < i + n ∧ (v.row i0).l1 ≠ 0#w := by
  constructor
  · intro hnil
    obtain ⟨idx, hidx⟩ := List.exists_mem_of_ne_nil _ hnil
    obtain ⟨i0, hle, hlt, hrow⟩ := mem_membersFrom.mp hidx
    obtain ⟨i1, hi1, hbit, -⟩ := mem_rowMembers.mp hrow
    exact ⟨i0, hle, hlt, (ne_zero_iff _).mpr ⟨i1, hi1, hbit⟩⟩
  · rintro ⟨i0, hle, hlt, hne⟩
    obtain ⟨i1, hi1, hbit⟩ := (ne_zero_iff _).mp hne
    obtain ⟨i2, hi2, hbit2⟩ := (ne_zero_iff _).mp (hv i0 (by omega) i1 hi1 hbit)
    exact List.ne_nil_of_mem (mem_membersFrom.mpr ⟨i0, hle, hlt,
      mem_rowMembers.mpr ⟨i1, hi1, hbit, i2, hi2, hbit2, rfl⟩⟩)

/-- `hasNext` tells whether members are left. -/
theorem Iterator.hasNext_iff {k : ℕ} {v : TwoLevel w} {it : Iterator w} {l : List ℕ} (hv : v.Ok k)
    (hleft : it.Left k v l) : it.hasNext k v = true ↔ l ≠ [] := by
  have hany : ((List.range' it.i0 (k - it.i0)).any fun i => !BitVector.empty (v.row i).l1) = true ↔
      ∃ i0, it.i0 ≤ i0 ∧ i0 < it.i0 + (k - it.i0) ∧ (v.row i0).l1 ≠ 0#w := by
    simp only [List.any_eq_true, List.mem_range'_1, Bool.not_eq_true', and_assoc, ne_eq,
      ← empty_iff (w := w), Bool.not_eq_true]
  unfold Iterator.hasNext
  rw [Bool.or_eq_true, hany]
  rcases hleft with ⟨hout, rfl⟩ | ⟨hin, hgood, rfl⟩
  · have h1 : it.it1 = 0#w := by_contra fun h => hout (Or.inl h)
    rw [h1]
    by_cases hk : it.i0 ≤ k
    · rw [membersFrom_ne_nil hv (by omega)]
      simp [BitVector.empty]
    · rw [Nat.sub_eq_zero_of_le (by omega)]
      simp only [BitVector.empty, beq_self_eq_true, Bool.not_true, Bool.false_eq_true, false_or]
      constructor
      · rintro ⟨i0, h, h', -⟩
        omega
      · intro h
        exact absurd rfl h
  · constructor
    · intro _ hnil
      obtain ⟨it', -, hit2, hgood', hrest⟩ := Iterator.nextWord_spec hv hin hgood
      obtain ⟨idx, it'', l, -, hcons, -⟩ := Iterator.nextBit_spec hit2 hgood'
      rw [← hrest, hcons] at hnil
      exact List.cons_ne_nil _ _ hnil
    · intro _
      obtain ⟨hlt, hne⟩ := hgood.row
      exact Or.inr ⟨it.i0, le_refl _, by omega, hne⟩

theorem Iterator.yields_of_left {k : ℕ} {v : TwoLevel w} (hv : v.Ok k) {it : Iterator w}
    {l : List ℕ} (hleft : it.Left k v l) : it.Yields k v l := by
  induction l generalizing it with
  | nil =>
    apply Yields.done
    rw [Bool.eq_false_iff, ne_eq, Iterator.hasNext_iff hv hleft]
    exact not_not_intro rfl
  | cons idx l ih =>
    obtain ⟨idx', it', l', hnext, hcons, hleft'⟩ :=
      Iterator.next_spec hv hleft (List.cons_ne_nil _ _)
    obtain ⟨rfl, rfl⟩ := List.cons.inj hcons
    exact Yields.next ((Iterator.hasNext_iff hv hleft).mpr (List.cons_ne_nil _ _)) hnext (ih hleft')

theorem Iterator.yields_members {k : ℕ} {v : TwoLevel w} (hv : v.Ok k) :
    (Iterator.start w).Yields k v (members k v) := by
  apply Iterator.yields_of_left hv
  refine Or.inl ⟨?_, rfl⟩
  rintro (h | h)
  · exact h rfl
  · exact h rfl

end Tasan.BitVector
