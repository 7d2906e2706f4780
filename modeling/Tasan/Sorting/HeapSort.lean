import Mathlib.Tactic

/-!
# Heap sort

`Sort` of `sanitizer_common.h`, on an array that is given as the function from indices to elements. The
comparator is a strict weak order (`StrictWeakOrder`), and `AtMost` is its negation with the arguments
exchanged, which is reflexive, transitive and total.

Stage 1 inserts the elements into the heap one after the other. `siftUp` starts from a heap but for one
element, which may be greater than its parent, and ends in a heap. Stage 2 puts the greatest element of the
heap behind the heap and sinks the new top: `siftDown` starts from a heap but for one element, which may be
less than its children. In both a second condition says that the children of the element fit under its
parent, so that the element can be exchanged with either. What happens to the array is in `Rearranges`: the
elements below a bound are permuted, and the others stay.
-/

namespace Tasan.Sorting

variable {α : Type} {comp : α → α → Bool} {v v' v'' : ℕ → α} {n : ℕ}

/-! ## The code -/

/-- `Swap(v[i], v[j])`. -/
def swap (v : ℕ → α) (i j : ℕ) : ℕ → α :=
  fun k => if k = i then v j else if k = j then v i else v k

/-- The index of the parent. -/
def parent (j : ℕ) : ℕ := (j - 1) / 2

/-- The inner loop of stage 1, from index `j` up to the root. -/
def siftUp (comp : α → α → Bool) (v : ℕ → α) (j : ℕ) : ℕ → α :=
  if 0 < j then
    if comp (v (parent j)) (v j) then siftUp comp (swap v j (parent j)) (parent j) else v
  else v
termination_by j
decreasing_by
  unfold parent
  omega

/-- The index of the greatest among the element `j` and its children below `i`. -/
def maxInd (comp : α → α → Bool) (v : ℕ → α) (i j : ℕ) : ℕ :=
  let left := 2 * j + 1
  let right := 2 * j + 2
  let m := if left < i ∧ comp (v j) (v left) then left else j
  if right < i ∧ comp (v m) (v right) then right else m

theorem maxInd_cases (comp : α → α → Bool) (v : ℕ → α) (i j : ℕ) : maxInd comp v i j = j ∨
    j < maxInd comp v i j ∧ maxInd comp v i j < i ∧ parent (maxInd comp v i j) = j := by
  unfold maxInd parent
  dsimp only
  split_ifs <;> omega

/-- The inner loop of stage 2, from index `j` down, in the heap of the elements below `i`. -/
def siftDown (comp : α → α → Bool) (v : ℕ → α) (i j : ℕ) : ℕ → α :=
  if j < i then
    if maxInd comp v i j ≠ j then
      siftDown comp (swap v j (maxInd comp v i j)) i (maxInd comp v i j)
    else v
  else v
termination_by i - j
decreasing_by
  have := maxInd_cases comp v i j
  omega

/-- Stage 1, after the turns up to `i`. -/
def insertLoop (comp : α → α → Bool) (v : ℕ → α) : ℕ → ℕ → α
  | 0 => v
  | i + 1 => siftUp comp (insertLoop comp v i) (i + 1)

/-- Stage 2, with the turns from `i` down. -/
def sinkLoop (comp : α → α → Bool) : ℕ → (ℕ → α) → ℕ → α
  | 0, v => v
  | i + 1, v => sinkLoop comp i (siftDown comp (swap v 0 (i + 1)) (i + 1) 0)

/-- `Sort`. -/
def sort (comp : α → α → Bool) (v : ℕ → α) (size : ℕ) : ℕ → α :=
  if size < 2 then v else sinkLoop comp (size - 1) (insertLoop comp v (size - 1))

/-! ## Rearrangements -/

/-- The elements of an array. -/
def elems (v : ℕ → α) (size : ℕ) : List α := (List.range size).map v

theorem mem_elems {x : α} : x ∈ elems v n ↔ ∃ i < n, v i = x := by
  simp [elems]

theorem pairwise_elems {R : α → α → Prop} :
    (elems v n).Pairwise R ↔ ∀ i j, i < j → j < n → R (v i) (v j) := by
  unfold elems
  rw [List.pairwise_map, List.pairwise_iff_getElem]
  simp only [List.length_range, List.getElem_range]
  exact ⟨fun h i j hij hj => h i j (hij.trans hj) hj hij, fun h i j _ hj hij => h i j hij hj⟩

/-- The elements below `n` are permuted, and the others stay. -/
def Rearranges (v v' : ℕ → α) (n : ℕ) : Prop :=
  ∃ σ : Equiv.Perm ℕ, (∀ k, n ≤ k → σ k = k) ∧ v' = v ∘ σ

namespace Rearranges

theorem refl (v : ℕ → α) (n : ℕ) : Rearranges v v n := ⟨1, fun _ _ => rfl, rfl⟩

theorem trans (h : Rearranges v v' n) (h' : Rearranges v' v'' n) : Rearranges v v'' n := by
  obtain ⟨σ, hσ, rfl⟩ := h
  obtain ⟨τ, hτ, rfl⟩ := h'
  refine ⟨σ * τ, fun k hk => ?_, rfl⟩
  rw [Equiv.Perm.mul_apply, hτ k hk, hσ k hk]

theorem mono (h : Rearranges v v' n) {k : ℕ} (hk : n ≤ k) : Rearranges v v' k := by
  obtain ⟨σ, hσ, rfl⟩ := h
  exact ⟨σ, fun i hi => hσ i (hk.trans hi), rfl⟩

theorem swap {i j : ℕ} (hi : i < n) (hj : j < n) : Rearranges v (swap v i j) n := by
  refine ⟨Equiv.swap i j, fun k hk => Equiv.swap_apply_of_ne_of_ne (by omega) (by omega), ?_⟩
  funext k
  unfold Sorting.swap
  rw [Function.comp_apply, Equiv.swap_apply_def]
  split_ifs <;> rfl

theorem eq_of_le (h : Rearranges v v' n) {k : ℕ} (hk : n ≤ k) : v' k = v k := by
  obtain ⟨σ, hσ, rfl⟩ := h
  rw [Function.comp_apply, hσ k hk]

theorem exists_eq (h : Rearranges v v' n) {k : ℕ} (hk : k < n) : ∃ i < n, v' k = v i := by
  obtain ⟨σ, hσ, rfl⟩ := h
  refine ⟨σ k, ?_, rfl⟩
  by_contra hle
  -- The image of `k` would be its own image too.
  have := σ.injective (hσ (σ k) (not_lt.mp hle))
  omega

theorem symm (h : Rearranges v v' n) : Rearranges v' v n := by
  obtain ⟨σ, hσ, rfl⟩ := h
  refine ⟨σ.symm, fun k hk => σ.symm_apply_eq.mpr (hσ k hk).symm, ?_⟩
  funext k
  rw [Function.comp_apply, Function.comp_apply, σ.apply_symm_apply]

theorem inj (h : Rearranges v v' n) (hinj : ∀ i < n, ∀ j < n, v i = v j → i = j) {i j : ℕ}
    (hi : i < n) (hj : j < n) (heq : v' i = v' j) : i = j := by
  obtain ⟨σ, hσ, rfl⟩ := h
  have hlt : ∀ k < n, σ k < n := fun k hk => by
    by_contra hle
    have := σ.injective (hσ (σ k) (not_lt.mp hle))
    omega
  exact σ.injective (hinj _ (hlt i hi) _ (hlt j hj) heq)

theorem perm (h : Rearranges v v' n) : (elems v' n).Perm (elems v n) := by
  obtain ⟨σ, hσ, rfl⟩ := h
  have hrange : ((List.range n).map σ).Perm (List.range n) := by
    refine (List.perm_ext_iff_of_nodup (List.nodup_range.map σ.injective) List.nodup_range).mpr
      fun k => ?_
    simp only [List.mem_map, List.mem_range]
    constructor
    · rintro ⟨i, hi, rfl⟩
      by_contra hle
      have := σ.injective (hσ (σ i) (not_lt.mp hle))
      omega
    · intro hk
      refine ⟨σ.symm k, ?_, σ.apply_symm_apply k⟩
      by_contra hle
      have := hσ (σ.symm k) (not_lt.mp hle)
      rw [σ.apply_symm_apply] at this
      omega
  have := hrange.map v
  rwa [List.map_map] at this

end Rearranges

/-! ## The order -/

/-- The comparator is a strict weak order. -/
structure StrictWeakOrder (comp : α → α → Bool) : Prop where
  /-- No element is less than itself. -/
  irrefl : ∀ a, comp a a = false
  /-- The order is transitive. -/
  trans : ∀ a b c, comp a b = true → comp b c = true → comp a c = true
  /-- So is equivalence. -/
  incomp_trans : ∀ a b c, comp a b = false → comp b a = false → comp b c = false →
    comp c b = false → comp a c = false

/-- `b` is not less than `a`. -/
def AtMost (comp : α → α → Bool) (a b : α) : Prop := comp b a = false

namespace StrictWeakOrder

theorem atMost_of_less (h : StrictWeakOrder comp) {a b : α} (hab : comp a b = true) :
    AtMost comp a b := by
  unfold AtMost
  by_contra hba
  have haa := h.trans a b a hab (Bool.eq_true_of_not_eq_false hba)
  rw [h.irrefl] at haa
  exact Bool.noConfusion haa

theorem atMost_refl (h : StrictWeakOrder comp) (a : α) : AtMost comp a a := h.irrefl a

theorem atMost_trans (h : StrictWeakOrder comp) {a b c : α} (hab : AtMost comp a b)
    (hbc : AtMost comp b c) : AtMost comp a c := by
  unfold AtMost at *
  by_contra hca
  have hca : comp c a = true := Bool.eq_true_of_not_eq_false hca
  -- `b` is comparable with neither, so that `c` would be equivalent to `a`.
  have hnab : comp a b = false := by
    by_contra hlt
    have := h.trans c a b hca (Bool.eq_true_of_not_eq_false hlt)
    rw [hbc] at this
    exact Bool.noConfusion this
  have hnbc : comp b c = false := by
    by_contra hlt
    have := h.trans b c a (Bool.eq_true_of_not_eq_false hlt) hca
    rw [hab] at this
    exact Bool.noConfusion this
  have := h.incomp_trans c b a hbc hnbc hab hnab
  rw [hca] at this
  exact Bool.noConfusion this

end StrictWeakOrder

/-! ## The heap -/

/-- The elements below `n` are a heap: none is greater than its parent. -/
def Heap (comp : α → α → Bool) (v : ℕ → α) (n : ℕ) : Prop :=
  ∀ c, 0 < c → c < n → AtMost comp (v c) (v (parent c))

theorem parent_lt {c : ℕ} (hc : 0 < c) : parent c < c := by
  unfold parent
  omega

theorem Heap.atMost_root (hcomp : StrictWeakOrder comp) (h : Heap comp v n) (k : ℕ) (hk : k < n) :
    AtMost comp (v k) (v 0) := by
  induction k using Nat.strong_induction_on with
  | _ k ih =>
    rcases Nat.eq_zero_or_pos k with rfl | hpos
    · exact hcomp.atMost_refl _
    · have hlt := parent_lt hpos
      exact hcomp.atMost_trans (h k hpos hk) (ih (parent k) hlt (hlt.trans hk))

theorem swap_left (v : ℕ → α) (i j : ℕ) : swap v i j i = v j := if_pos rfl

theorem swap_right (v : ℕ → α) (i j : ℕ) : swap v i j j = v i := by
  unfold swap
  rcases eq_or_ne j i with rfl | h
  · rw [if_pos rfl]
  · rw [if_neg h, if_pos rfl]

theorem swap_of_ne (v : ℕ → α) {i j k : ℕ} (hi : k ≠ i) (hj : k ≠ j) : swap v i j k = v k := by
  unfold swap
  rw [if_neg hi, if_neg hj]

/-- `siftUp` makes a heap of one in which only the element `j` may be greater than its parent. -/
theorem siftUp_heap (hcomp : StrictWeakOrder comp) {j : ℕ} (hj : j < n)
    (hother : ∀ c, 0 < c → c < n → c ≠ j → AtMost comp (v c) (v (parent c)))
    (hgrand : 0 < j → ∀ c, 0 < c → c < n → parent c = j → AtMost comp (v c) (v (parent j))) :
    Heap comp (siftUp comp v j) n := by
  induction v, j using siftUp.induct comp with
  | case1 v j hpos hless ih =>
    rw [siftUp, if_pos hpos, if_pos hless]
    have hlt := parent_lt hpos
    have hle := hcomp.atMost_of_less hless
    refine ih (hlt.trans hj) (fun c hc0 hc hne => ?_) fun hp0 c hc0 hc hcp => ?_
    · rcases eq_or_ne c j with rfl | hcj
      · rw [swap_left, swap_right]
        exact hle
      · rw [swap_of_ne v hcj hne]
        have hold := hother c hc0 hc hcj
        rcases eq_or_ne (parent c) j with hpc | hpc
        · rw [hpc, swap_left]
          exact hgrand hpos c hc0 hc hpc
        · rcases eq_or_ne (parent c) (parent j) with hpp | hpp
          · rw [hpp] at hold ⊢
            rw [swap_right]
            exact hcomp.atMost_trans hold hle
          · rwa [swap_of_ne v hpc hpp]
    · have hpp := parent_lt hp0
      rw [swap_of_ne v (k := parent (parent j)) (by omega) (by omega)]
      have hroot := hother (parent j) hp0 (by omega) (by omega)
      rcases eq_or_ne c j with rfl | hcj
      · rwa [swap_left]
      · have hcp' := parent_lt hc0
        rw [swap_of_ne v hcj (by omega)]
        have hold := hother c hc0 hc hcj
        rw [hcp] at hold
        exact hcomp.atMost_trans hold hroot
  | case2 v j hpos hless =>
    rw [siftUp, if_pos hpos, if_neg hless]
    intro c hc0 hc
    rcases eq_or_ne c j with rfl | hcj
    · exact Bool.eq_false_of_not_eq_true hless
    · exact hother c hc0 hc hcj
  | case3 v j hzero =>
    rw [siftUp, if_neg hzero]
    exact fun c hc0 hc => hother c hc0 hc (by omega)

theorem siftUp_rearranges {j : ℕ} (hj : j < n) : Rearranges v (siftUp comp v j) n := by
  induction v, j using siftUp.induct comp with
  | case1 v j hpos hless ih =>
    rw [siftUp, if_pos hpos, if_pos hless]
    have hlt := (parent_lt hpos).trans hj
    exact (Rearranges.swap hj hlt).trans (ih hlt)
  | case2 v j hpos hless =>
    rw [siftUp, if_pos hpos, if_neg hless]
    exact .refl v n
  | case3 v j hzero =>
    rw [siftUp, if_neg hzero]
    exact .refl v n

/-- The element that is chosen is not less than the others. -/
theorem atMost_maxInd (hcomp : StrictWeakOrder comp) (v : ℕ → α) (i j : ℕ) :
    AtMost comp (v j) (v (maxInd comp v i j)) ∧ ∀ c, 0 < c → c < i → parent c = j →
      AtMost comp (v c) (v (maxInd comp v i j)) := by
  unfold maxInd
  dsimp only
  set m := if 2 * j + 1 < i ∧ comp (v j) (v (2 * j + 1)) then 2 * j + 1 else j with hm
  -- The first comparison.
  have hself : AtMost comp (v j) (v m) := by
    rw [hm]
    split_ifs with h
    · exact hcomp.atMost_of_less h.2
    · exact hcomp.atMost_refl _
  have hleft : 2 * j + 1 < i → AtMost comp (v (2 * j + 1)) (v m) := by
    intro hlt
    rw [hm]
    split_ifs with h
    · exact hcomp.atMost_refl _
    · exact Bool.eq_false_of_not_eq_true fun hless => h ⟨hlt, hless⟩
  -- The second one.
  have hstep : ∀ a, AtMost comp a (v m) → AtMost comp a
      (v (if 2 * j + 2 < i ∧ comp (v m) (v (2 * j + 2)) then 2 * j + 2 else m)) := by
    intro a ha
    split_ifs with h
    · exact hcomp.atMost_trans ha (hcomp.atMost_of_less h.2)
    · exact ha
  refine ⟨hstep _ hself, fun c hc0 hc hpc => ?_⟩
  unfold parent at hpc
  obtain rfl | rfl : c = 2 * j + 1 ∨ c = 2 * j + 2 := by omega
  · exact hstep _ (hleft hc)
  · split_ifs with h
    · exact hcomp.atMost_refl _
    · exact Bool.eq_false_of_not_eq_true fun hless => h ⟨hc, hless⟩

/-- `siftDown` makes a heap of one in which only the element `j` may be less than its children. -/
theorem siftDown_heap (hcomp : StrictWeakOrder comp) {i j : ℕ}
    (hother : ∀ c, 0 < c → c < i → parent c ≠ j → AtMost comp (v c) (v (parent c)))
    (hgrand : 0 < j → ∀ c, 0 < c → c < i → parent c = j → AtMost comp (v c) (v (parent j))) :
    Heap comp (siftDown comp v i j) i := by
  induction v, j using siftDown.induct comp i with
  | case1 v j hj hne ih =>
    rw [siftDown, if_pos hj, if_pos hne]
    obtain ⟨hself, hchild⟩ := atMost_maxInd hcomp v i j
    obtain ⟨hlt, hmi, hpm⟩ := (maxInd_cases comp v i j).resolve_left hne
    generalize maxInd comp v i j = m at *
    refine ih (fun c hc0 hc hpc => ?_) fun _ c hc0 hc hpc => ?_
    · have hpar := parent_lt hc0
      rcases eq_or_ne (parent c) j with hpj | hpj
      · rw [hpj, swap_left]
        rcases eq_or_ne c m with rfl | hcm
        · rwa [swap_right]
        · rw [swap_of_ne v (by omega) hcm]
          exact hchild c hc0 hc hpj
      · rw [swap_of_ne v hpj hpc]
        have hcm : c ≠ m := by
          rintro rfl
          exact hpj hpm
        rcases eq_or_ne c j with rfl | hcj
        · rw [swap_left]
          exact hgrand hc0 m (by omega) hmi hpm
        · rw [swap_of_ne v hcj hcm]
          exact hother c hc0 hc hpj
    · have hpar := parent_lt hc0
      rw [hpm, swap_left, swap_of_ne v (by omega) (by omega)]
      have hold := hother c hc0 hc (by omega)
      rwa [hpc] at hold
  | case2 v j hj heq =>
    rw [siftDown, if_pos hj, if_neg heq]
    obtain ⟨-, hchild⟩ := atMost_maxInd hcomp v i j
    rw [not_not.mp heq] at hchild
    intro c hc0 hc
    rcases eq_or_ne (parent c) j with hpj | hpj
    · rw [hpj]
      exact hchild c hc0 hc hpj
    · exact hother c hc0 hc hpj
  | case3 v j hj =>
    rw [siftDown, if_neg hj]
    intro c hc0 hc
    have hpar := parent_lt hc0
    exact hother c hc0 hc (by omega)

theorem siftDown_rearranges {i j : ℕ} : Rearranges v (siftDown comp v i j) i := by
  induction v, j using siftDown.induct comp i with
  | case1 v j hj hne ih =>
    rw [siftDown, if_pos hj, if_pos hne]
    obtain ⟨-, hmi, -⟩ := (maxInd_cases comp v i j).resolve_left hne
    exact (Rearranges.swap hj hmi).trans ih
  | case2 v j hj heq =>
    rw [siftDown, if_pos hj, if_neg heq]
    exact .refl v i
  | case3 v j hj =>
    rw [siftDown, if_neg hj]
    exact .refl v i

/-! ## The two stages -/

theorem insertLoop_heap (hcomp : StrictWeakOrder comp) (v : ℕ → α) (i : ℕ) :
    Heap comp (insertLoop comp v i) (i + 1) := by
  induction i with
  | zero => exact fun c hc0 hc => absurd hc (by omega)
  | succ i ih =>
    refine siftUp_heap hcomp (Nat.lt_succ_self _) (fun c hc0 hc hne => ?_) fun _ c hc0 hc hpc => ?_
    · exact ih c hc0 (by omega)
    · -- The new element has no children yet.
      have := parent_lt hc0
      omega

theorem insertLoop_rearranges (v : ℕ → α) {i : ℕ} (hi : i < n) :
    Rearranges v (insertLoop comp v i) n := by
  induction i with
  | zero => exact .refl v n
  | succ i ih => exact (ih (by omega)).trans (siftUp_rearranges hi)

theorem sink_rearranges (comp : α → α → Bool) (v : ℕ → α) (i : ℕ) :
    Rearranges v (siftDown comp (swap v 0 (i + 1)) (i + 1) 0) (i + 2) :=
  (Rearranges.swap (by omega) (by omega)).trans (siftDown_rearranges.mono (by omega))

theorem sinkLoop_rearranges (v : ℕ → α) {i : ℕ} (hi : i < n) :
    Rearranges v (sinkLoop comp i v) n := by
  induction i generalizing v with
  | zero => exact .refl v n
  | succ i ih => exact ((sink_rearranges comp v i).mono (by omega)).trans (ih _ (by omega))

/-- Stage 2 sorts a heap, with elements behind it that are sorted and not less than those before
them. -/
theorem sinkLoop_sorted (hcomp : StrictWeakOrder comp) {i : ℕ} (hheap : Heap comp v (i + 1))
    (hbehind : ∀ a b, a < b → i < b → b < n → AtMost comp (v a) (v b)) :
    ∀ a b, a < b → b < n → AtMost comp (sinkLoop comp i v a) (sinkLoop comp i v b) := by
  induction i generalizing v with
  | zero => exact fun a b hab hb => hbehind a b hab (by omega) hb
  | succ i ih =>
    have hmoved := sink_rearranges comp v i
    refine ih ?_ fun a b hab hib hb => ?_
    · -- The last element of the heap is now at its root.
      refine siftDown_heap hcomp (fun c hc0 hc hpc => ?_) fun h => absurd h (lt_irrefl 0)
      have hpar := parent_lt hc0
      rw [swap_of_ne v (by omega) (by omega), swap_of_ne v hpc (by omega)]
      exact hheap c hc0 (by omega)
    · rcases (show i + 1 ≤ b from hib).eq_or_lt with rfl | hlt
      · -- The greatest element of the heap is now behind it.
        obtain ⟨x, hx, hax⟩ := hmoved.exists_eq (k := a) (by omega)
        rw [hax, siftDown_rearranges.eq_of_le le_rfl, swap_right]
        exact hheap.atMost_root hcomp x hx
      · rw [hmoved.eq_of_le (k := b) hlt]
        rcases lt_or_ge a (i + 2) with ha | ha
        · obtain ⟨x, hx, hax⟩ := hmoved.exists_eq ha
          rw [hax]
          exact hbehind x b (by omega) hlt hb
        · rw [hmoved.eq_of_le ha]
          exact hbehind a b hab hlt hb

theorem sort_rearranges (comp : α → α → Bool) (v : ℕ → α) (size : ℕ) :
    Rearranges v (sort comp v size) size := by
  unfold sort
  split_ifs with hsize
  · exact .refl v size
  · exact (insertLoop_rearranges v (by omega)).trans (sinkLoop_rearranges _ (by omega))

theorem sort_sorted (hcomp : StrictWeakOrder comp) (v : ℕ → α) (size : ℕ) :
    ∀ i j, i < j → j < size → AtMost comp (sort comp v size i) (sort comp v size j) := by
  unfold sort
  split_ifs with hsize
  · exact fun i j hij hj => absurd hj (by omega)
  · refine sinkLoop_sorted hcomp (insertLoop_heap hcomp v (size - 1)) fun a b hab hb hbn => ?_
    omega

/-! ## Lists -/

/-- `Sort`, on the elements of a vector. -/
def sortList [Inhabited α] (comp : α → α → Bool) (l : List α) : List α :=
  elems (sort comp (fun i => l.getD i default) l.length) l.length

theorem elems_getD [Inhabited α] (l : List α) : elems (fun i => l.getD i default) l.length = l := by
  refine List.ext_getElem (by simp [elems]) fun i h1 h2 => ?_
  simp [elems, h2]

theorem sortList_perm [Inhabited α] (comp : α → α → Bool) (l : List α) :
    (sortList comp l).Perm l := by
  have := (sort_rearranges comp (fun i => l.getD i default) l.length).perm
  rwa [elems_getD] at this

theorem sortList_pairwise [Inhabited α] (hcomp : StrictWeakOrder comp) (l : List α) :
    (sortList comp l).Pairwise (AtMost comp) :=
  pairwise_elems.mpr (sort_sorted hcomp _ _)

end Tasan.Sorting
