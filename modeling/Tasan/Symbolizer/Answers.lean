import Tasan.Symbolizer.Model

/-!
# What the symbolizer answers

`arrived` is what has come out of the pipe after some reads, each of which asks for as many bytes as the
buffer has room for. An answer is complete (`AnsweredAt`) when what has arrived satisfies
`ReachedEndOfOutput`, with no failed or empty read before; it breaks off (`BrokenAt`) at the first failed
or empty read before that. `readLoop_iff` says that the loop of `ReadFromSymbolizer` returns what has
arrived in both cases, and its caller cannot tell them apart.
-/

namespace Tasan.Symbolizer

open FlagParser (nul)

/-! ## Vectors -/

/-- A vector that has been read into: the bytes that have arrived, and zeros behind them. -/
def filled (acc : List Char) (capacity : ℕ) : MmapVector :=
  { data := acc ++ List.replicate (capacity - acc.length) nul, size := acc.length }

/-- The capacity after `resize(size + max_length)`. -/
def room (pageLog capacity size : ℕ) : ℕ :=
  if size + maxLength > capacity then roundUpToPage pageLog (size + maxLength) else capacity

theorem le_roundUpToPage (pageLog size : ℕ) : size ≤ roundUpToPage pageLog size := by
  have hpos := Nat.two_pow_pos pageLog
  have hmod := Nat.div_add_mod (size + 2^pageLog - 1) (2^pageLog)
  have hlt := Nat.mod_lt (size + 2^pageLog - 1) hpos
  unfold roundUpToPage
  rw [mul_comm]
  omega

theorem le_room (pageLog capacity size : ℕ) : size + maxLength ≤ room pageLog capacity size := by
  unfold room
  split_ifs with h
  · exact le_roundUpToPage pageLog _
  · omega

theorem length_contents {v : MmapVector} (hsize : v.size ≤ v.capacity) :
    v.contents.length = v.size := by
  unfold MmapVector.contents
  unfold MmapVector.capacity at hsize
  rw [List.length_take, min_eq_left hsize]

theorem data_eq_contents {v : MmapVector} (hsize : v.size = v.capacity) : v.data = v.contents := by
  unfold MmapVector.contents
  rw [hsize]
  exact List.take_length.symm

theorem reserve_spec (pageLog : ℕ) {v : MmapVector} (n : ℕ) (hsize : v.size ≤ v.capacity) :
    (v.reserve pageLog n).contents = v.contents ∧ (v.reserve pageLog n).size = v.size ∧
      (v.reserve pageLog n).capacity =
        if n > v.capacity then roundUpToPage pageLog n else v.capacity := by
  have hround := le_roundUpToPage pageLog n
  have hlen := length_contents hsize
  unfold MmapVector.reserve
  split_ifs with h
  · refine ⟨?_, rfl, ?_⟩
    · exact List.take_left' hlen
    · unfold MmapVector.realloc MmapVector.capacity
      rw [List.length_append, List.length_replicate, hlen]
      omega
  · exact ⟨rfl, rfl, rfl⟩

/-- Growing a vector keeps its bytes and adds zeros. -/
theorem resize_grow (pageLog : ℕ) {v : MmapVector} {n : ℕ} (hsize : v.size ≤ v.capacity)
    (hn : v.size < n) :
    (v.resize pageLog n).contents = v.contents ++ List.replicate (n - v.size) nul ∧
      (v.resize pageLog n).size = n ∧
      (v.resize pageLog n).capacity =
        if n > v.capacity then roundUpToPage pageLog n else v.capacity := by
  have hround := le_roundUpToPage pageLog n
  have hlen := length_contents hsize
  obtain ⟨hcontents, hsame, hcapacity⟩ := reserve_spec pageLog n hsize
  have hcap : n ≤ (v.reserve pageLog n).data.length := by
    change n ≤ (v.reserve pageLog n).capacity
    rw [hcapacity]
    split_ifs <;> omega
  have hzeros : (v.contents ++ List.replicate (n - v.size) nul).length = n := by
    rw [List.length_append, List.length_replicate, hlen]
    omega
  unfold MmapVector.resize
  rw [if_pos hn]
  dsimp only
  rw [hcontents, hsame]
  refine ⟨List.take_left' hzeros, rfl, ?_⟩
  rw [← hcapacity]
  change (v.contents ++ List.replicate (n - v.size) nul ++ (v.reserve pageLog n).data.drop n).length =
    (v.reserve pageLog n).data.length
  rw [List.length_append, hzeros, List.length_drop]
  omega

/-- A vector made as long as its capacity, with room for a read: zeros behind its bytes. -/
theorem resize_capacity {pageLog : ℕ} {v v' : MmapVector} (hsize : v.size ≤ v.capacity)
    (hv' : v.resize pageLog (v.size + maxLength) = v') :
    v'.resize pageLog v'.capacity =
      { data := v.contents ++ List.replicate (room pageLog v.capacity v.size - v.size) nul
        size := room pageLog v.capacity v.size } := by
  have hroom := le_room pageLog v.capacity v.size
  obtain ⟨hcontents, hsize', hcapacity⟩ :=
    resize_grow pageLog hsize (Nat.lt_add_of_pos_right (show 0 < maxLength by decide))
  rw [hv'] at hcontents hsize' hcapacity
  change v'.capacity = room pageLog v.capacity v.size at hcapacity
  rcases hroom.lt_or_eq with hlt | heq
  · -- The vector is made longer once more.
    obtain ⟨hc, hs, hk⟩ :=
      resize_grow pageLog (show v'.size ≤ v'.capacity by omega) (show v'.size < v'.capacity by omega)
    rw [if_neg (lt_irrefl _)] at hk
    generalize v'.resize pageLog v'.capacity = w at hc hs hk ⊢
    have hdata : w.data = v.contents ++
        List.replicate (room pageLog v.capacity v.size - v.size) nul := by
      rw [data_eq_contents (hs.trans hk.symm), hc, hcontents, List.append_assoc,
        ← List.replicate_add, hsize', hcapacity,
        show v.size + maxLength - v.size + (room pageLog v.capacity v.size - (v.size + maxLength)) =
          room pageLog v.capacity v.size - v.size by omega]
    rw [← hdata, ← hcapacity, ← hs]
  · have hsame : v'.resize pageLog v'.capacity = { v' with size := v'.capacity } := if_neg (by omega)
    rw [hsame, data_eq_contents (by omega : v'.size = v'.capacity), hcontents, hcapacity, heq]

theorem store_resize (pageLog : ℕ) {capacity : ℕ} (acc chunk : List Char)
    (hfit : acc.length + chunk.length ≤ capacity) :
    (MmapVector.store { data := acc ++ List.replicate (capacity - acc.length) nul, size := capacity }
      acc.length chunk).resize pageLog (acc.length + chunk.length) = filled (acc ++ chunk) capacity := by
  unfold MmapVector.store MmapVector.resize filled
  dsimp only
  rw [if_neg (by omega), List.take_left, List.length_append,
    ← List.drop_drop, List.drop_left, List.drop_replicate, Nat.sub_sub]

/-- `push_back` of a NUL leaves the bytes with zeros behind them. -/
theorem pushBack_filled (pageLog : ℕ) {acc : List Char} {capacity : ℕ} (h : acc.length ≤ capacity) :
    ∃ capacity', capacity ≤ capacity' ∧ acc.length < capacity' ∧
      (filled acc capacity).pushBack pageLog nul =
        { data := acc ++ List.replicate (capacity' - acc.length) nul, size := acc.length + 1 } := by
  have hset : ∀ n, acc.length < n →
      (acc ++ List.replicate (n - acc.length) nul).set acc.length nul =
        acc ++ List.replicate (n - acc.length) nul := by
    intro n hn
    rw [List.set_append_right _ _ le_rfl, Nat.sub_self, List.append_cancel_left_eq]
    obtain ⟨m, hm⟩ : ∃ m, n - acc.length = m + 1 := ⟨n - acc.length - 1, by omega⟩
    rw [hm, List.replicate_succ, List.set_cons_zero]
  have hcap : (filled acc capacity).capacity = capacity := by
    unfold filled MmapVector.capacity
    rw [List.length_append, List.length_replicate]
    omega
  rcases h.lt_or_eq with hlt | rfl
  · refine ⟨capacity, le_rfl, hlt, ?_⟩
    unfold MmapVector.pushBack
    rw [hcap, if_neg (show ¬ (filled acc capacity).size ≥ capacity from not_le.mpr hlt)]
    exact congrArg (MmapVector.mk · _) (hset _ hlt)
  · -- The vector is full, and gets a new mapping.
    have hpow : acc.length + 1 ≤ 2^Nat.clog 2 (acc.length + 1) := Nat.le_pow_clog (by norm_num) _
    have hround := le_roundUpToPage pageLog (2^Nat.clog 2 (acc.length + 1))
    have hcontents : (filled acc acc.length).contents = acc := List.take_left' rfl
    refine ⟨roundUpToPage pageLog (2^Nat.clog 2 (acc.length + 1)), by omega, by omega, ?_⟩
    unfold MmapVector.pushBack
    rw [hcap, if_pos (show (filled acc acc.length).size ≥ acc.length from le_rfl)]
    unfold MmapVector.realloc
    rw [hcontents]
    exact congrArg (MmapVector.mk · _)
      (hset (roundUpToPage pageLog (2^Nat.clog 2 (acc.length + 1))) (by omega))

/-! ## What arrives -/

section Arrival

variable (pipe : Pipe) (pageLog : ℕ) (reachedEnd : List Char → Bool) (first capacity : ℕ)

/-- What has arrived after so many reads, and the capacity of the buffer then. -/
def arrived : ℕ → List Char × ℕ
  | 0 => ([], capacity)
  | k + 1 =>
    let (acc, capacity) := arrived k
    let capacity := room pageLog capacity acc.length
    (acc ++ (pipe.read (first + k) (capacity - acc.length)).getD [], capacity)

/-- The bytes that have arrived after so many reads. -/
def output (k : ℕ) : List Char := (arrived pipe pageLog first capacity k).1

/-- What the next read gets after so many reads. -/
def nextRead (k : ℕ) : Option (List Char) :=
  pipe.read (first + k) (room pageLog (arrived pipe pageLog first capacity k).2
    (output pipe pageLog first capacity k).length - (output pipe pageLog first capacity k).length)

/-- The next read neither fails nor is empty. -/
def Delivers (k : ℕ) : Prop :=
  ∃ chunk, nextRead pipe pageLog first capacity k = some chunk ∧ chunk ≠ []

/-- So many reads were neither failed nor empty, and the answer was not complete before the last. -/
def Pending (k : ℕ) : Prop :=
  ∀ j < k, Delivers pipe pageLog first capacity j ∧
    (0 < j → reachedEnd (output pipe pageLog first capacity j) = false)

/-- The answer is complete after so many reads. -/
def AnsweredAt (k : ℕ) : Prop :=
  0 < k ∧ Pending pipe pageLog reachedEnd first capacity k ∧
    reachedEnd (output pipe pageLog first capacity k) = true

/-- The answer breaks off after so many reads. -/
def BrokenAt (k : ℕ) : Prop :=
  Pending pipe pageLog reachedEnd first capacity k ∧
    (0 < k → reachedEnd (output pipe pageLog first capacity k) = false) ∧
    ¬ Delivers pipe pageLog first capacity k

/-- There is nothing more to read after so many reads. -/
def FinishedAt (k : ℕ) : Prop :=
  AnsweredAt pipe pageLog reachedEnd first capacity k ∨
    BrokenAt pipe pageLog reachedEnd first capacity k

theorem length_output_succ (k : ℕ) : (output pipe pageLog first capacity (k + 1)).length ≤
    (arrived pipe pageLog first capacity (k + 1)).2 := by
  have hroom := le_room pageLog (arrived pipe pageLog first capacity k).2
    (output pipe pageLog first capacity k).length
  change (output pipe pageLog first capacity k ++
    (nextRead pipe pageLog first capacity k).getD []).length ≤ room pageLog _ _
  rw [List.length_append]
  cases hread : nextRead pipe pageLog first capacity k with
  | none =>
    change _ + 0 ≤ _
    exact (Nat.le_add_right _ _).trans hroom
  | some chunk =>
    have hle := pipe.read_le _ _ _ hread
    change _ + chunk.length ≤ room pageLog _ _
    have hsize := (Nat.le_add_right _ maxLength).trans hroom
    calc (output pipe pageLog first capacity k).length + chunk.length
        ≤ _ := Nat.add_le_add_left hle _
      _ = _ := Nat.add_sub_of_le hsize

theorem maxLength_le_capacity (k : ℕ) :
    maxLength ≤ (arrived pipe pageLog first capacity (k + 1)).2 :=
  (Nat.le_add_left _ _).trans (le_room pageLog _ _)

variable {pipe pageLog reachedEnd first capacity}

theorem FinishedAt.le {k k' : ℕ} (h : FinishedAt pipe pageLog reachedEnd first capacity k)
    (h' : FinishedAt pipe pageLog reachedEnd first capacity k') : k' ≤ k := by
  by_contra hlt
  have hpending : Pending pipe pageLog reachedEnd first capacity k' := h'.elim (·.2.1) (·.1)
  obtain ⟨hdelivers, hend⟩ := hpending k (not_le.mp hlt)
  rcases h with ⟨hpos, -, h⟩ | ⟨-, -, h⟩
  · exact absurd (hend hpos) (by rw [h]; decide)
  · exact h hdelivers

theorem BrokenAt.not_answeredAt {k k' : ℕ} (h : BrokenAt pipe pageLog reachedEnd first capacity k)
    (h' : AnsweredAt pipe pageLog reachedEnd first capacity k') : False := by
  obtain rfl : k' = k := le_antisymm (FinishedAt.le (Or.inr h) (Or.inl h'))
    (FinishedAt.le (Or.inl h') (Or.inr h))
  exact absurd (h.2.1 h'.1) (by rw [h'.2.2]; decide)

/-- A vector holds what has arrived. -/
structure Holds (pipe : Pipe) (pageLog first capacity k : ℕ) (v : MmapVector) : Prop where
  contents : v.contents = output pipe pageLog first capacity k
  size : v.size = (output pipe pageLog first capacity k).length
  capacity : v.capacity = (arrived pipe pageLog first capacity k).2
  size_le : v.size ≤ v.capacity

theorem filled_spec {acc : List Char} {n : ℕ} (h : acc.length ≤ n) :
    (filled acc n).contents = acc ∧ (filled acc n).size = acc.length ∧
      (filled acc n).capacity = n := by
  refine ⟨List.take_left' rfl, rfl, ?_⟩
  unfold filled MmapVector.capacity
  rw [List.length_append, List.length_replicate]
  omega

theorem holds_succ (k : ℕ) : Holds pipe pageLog first capacity (k + 1)
    (filled (output pipe pageLog first capacity (k + 1))
      (arrived pipe pageLog first capacity (k + 1)).2) := by
  have hle := length_output_succ pipe pageLog first capacity k
  obtain ⟨hcontents, hsize, hcapacity⟩ := filled_spec hle
  exact ⟨hcontents, hsize, hcapacity, by rw [hsize, hcapacity]; exact hle⟩

/-- One turn of the loop. -/
theorem readLoop_succ {k : ℕ} {v : MmapVector} (h : Holds pipe pageLog first capacity k v)
    (fuel : ℕ) : readLoop pipe pageLog reachedEnd (fuel + 1) v (first + k) =
      let w := filled (output pipe pageLog first capacity (k + 1))
        (arrived pipe pageLog first capacity (k + 1)).2
      if ((nextRead pipe pageLog first capacity k).getD []).length = 0 then
        .returned (w, first + (k + 1))
      else if reachedEnd (output pipe pageLog first capacity (k + 1)) then
        .returned (w, first + (k + 1))
      else readLoop pipe pageLog reachedEnd fuel w (first + (k + 1)) := by
  have hle := length_output_succ pipe pageLog first capacity k
  have hread : pipe.read (first + k) (room pageLog v.capacity v.size - v.size) =
      nextRead pipe pageLog first capacity k := by
    unfold nextRead
    rw [h.size, h.capacity]
  have hout : output pipe pageLog first capacity (k + 1) = output pipe pageLog first capacity k ++
      (nextRead pipe pageLog first capacity k).getD [] := rfl
  have hcap : (arrived pipe pageLog first capacity (k + 1)).2 = room pageLog v.capacity v.size := by
    rw [h.size, h.capacity]
    rfl
  have hfit : v.size + ((nextRead pipe pageLog first capacity k).getD []).length ≤
      room pageLog v.capacity v.size := by
    rw [hout, List.length_append, hcap, ← h.size] at hle
    exact hle
  have hstep := store_resize pageLog (output pipe pageLog first capacity k)
    ((nextRead pipe pageLog first capacity k).getD []) (h.size ▸ hfit)
  rw [← h.size, ← hout] at hstep
  rw [readLoop, resize_capacity h.size_le rfl]
  dsimp only
  rw [hread, h.contents, hstep, hcap, (filled_spec (by rw [← hcap]; exact hle)).1]
  rfl

theorem not_delivers_iff (k : ℕ) : ¬ Delivers pipe pageLog first capacity k ↔
    ((nextRead pipe pageLog first capacity k).getD []).length = 0 := by
  unfold Delivers
  cases nextRead pipe pageLog first capacity k with
  | none => simp
  | some chunk => simp

theorem output_succ_of_not_delivers {k : ℕ} (h : ¬ Delivers pipe pageLog first capacity k) :
    output pipe pageLog first capacity (k + 1) = output pipe pageLog first capacity k := by
  change output pipe pageLog first capacity k ++
    (nextRead pipe pageLog first capacity k).getD [] = _
  rw [List.eq_nil_of_length_eq_zero ((not_delivers_iff k).mp h), List.append_nil]

theorem Pending.succ {k : ℕ} (h : Pending pipe pageLog reachedEnd first capacity k)
    (hdelivers : Delivers pipe pageLog first capacity k)
    (hend : 0 < k → reachedEnd (output pipe pageLog first capacity k) = false) :
    Pending pipe pageLog reachedEnd first capacity (k + 1) := by
  intro j hj
  rcases Nat.lt_succ_iff_lt_or_eq.mp hj with hlt | rfl
  · exact h j hlt
  · exact ⟨hdelivers, hend⟩

/-- The loop returns what has arrived when there is nothing more to read. -/
theorem finishedAt_of_readLoop {fuel k : ℕ} {v w : MmapVector} {i : ℕ}
    (hv : Holds pipe pageLog first capacity k v)
    (hpending : Pending pipe pageLog reachedEnd first capacity k)
    (hend : 0 < k → reachedEnd (output pipe pageLog first capacity k) = false)
    (h : readLoop pipe pageLog reachedEnd fuel v (first + k) = .returned (w, i)) :
    ∃ m n, FinishedAt pipe pageLog reachedEnd first capacity m ∧
      (output pipe pageLog first capacity m).length ≤ n ∧ maxLength ≤ n ∧
      w = filled (output pipe pageLog first capacity m) n := by
  induction fuel generalizing k v with
  | zero => exact absurd h nofun
  | succ fuel ih =>
    rw [readLoop_succ hv] at h
    dsimp only at h
    have hlength := length_output_succ pipe pageLog first capacity k
    have hmax := maxLength_le_capacity pipe pageLog first capacity k
    split_ifs at h with hempty hreached
    · have hnone := (not_delivers_iff k).mpr hempty
      obtain ⟨rfl, -⟩ := Prod.mk.inj (Outcome.returned.inj h)
      rw [output_succ_of_not_delivers hnone] at hlength ⊢
      exact ⟨k, _, Or.inr ⟨hpending, hend, hnone⟩, hlength, hmax, rfl⟩
    · have hdelivers := not_not.mp (mt (not_delivers_iff k).mp hempty)
      obtain ⟨rfl, -⟩ := Prod.mk.inj (Outcome.returned.inj h)
      exact ⟨k + 1, _, Or.inl ⟨Nat.succ_pos k, hpending.succ hdelivers hend, hreached⟩, hlength, hmax,
        rfl⟩
    · have hdelivers := not_not.mp (mt (not_delivers_iff k).mp hempty)
      exact ih (holds_succ k) (hpending.succ hdelivers hend)
        (fun _ => Bool.eq_false_of_not_eq_true hreached) h

theorem readLoop_reach {v : MmapVector} (hv : Holds pipe pageLog first capacity 0 v) {k : ℕ}
    (hpending : Pending pipe pageLog reachedEnd first capacity k)
    (hend : 0 < k → reachedEnd (output pipe pageLog first capacity k) = false) :
    ∃ w, Holds pipe pageLog first capacity k w ∧
      ∀ fuel, readLoop pipe pageLog reachedEnd (fuel + k) v first =
        readLoop pipe pageLog reachedEnd fuel w (first + k) := by
  induction k with
  | zero => exact ⟨v, hv, fun _ => rfl⟩
  | succ k ih =>
    obtain ⟨hdelivers, hbefore⟩ := hpending k (Nat.lt_succ_self k)
    obtain ⟨w, hw, hreach⟩ := ih (fun j hj => hpending j (Nat.lt_succ_of_lt hj)) hbefore
    refine ⟨_, holds_succ k, fun fuel => ?_⟩
    rw [show fuel + (k + 1) = fuel + 1 + k by ring, hreach, readLoop_succ hw]
    dsimp only
    rw [if_neg (mt (not_delivers_iff k).mpr (not_not.mpr hdelivers)),
      if_neg (by rw [hend (Nat.succ_pos k)]; decide)]

/-- When there is nothing more to read, the loop returns. -/
theorem readLoop_of_finishedAt {v : MmapVector} (hv : Holds pipe pageLog first capacity 0 v) {k : ℕ}
    (h : FinishedAt pipe pageLog reachedEnd first capacity k) :
    ∃ fuel n i, (output pipe pageLog first capacity k).length ≤ n ∧ maxLength ≤ n ∧
      readLoop pipe pageLog reachedEnd fuel v first =
        .returned (filled (output pipe pageLog first capacity k) n, i) := by
  rcases h with ⟨hpos, hpending, hend⟩ | ⟨hpending, hend, hnone⟩
  · obtain ⟨k, rfl⟩ := Nat.exists_eq_succ_of_ne_zero hpos.ne'
    obtain ⟨hdelivers, hbefore⟩ := hpending k (Nat.lt_succ_self k)
    obtain ⟨w, hw, hreach⟩ :=
      readLoop_reach hv (fun j hj => hpending j (Nat.lt_succ_of_lt hj)) hbefore
    refine ⟨1 + k, _, first + (k + 1), length_output_succ _ _ _ _ k, maxLength_le_capacity _ _ _ _ k,
      ?_⟩
    rw [hreach, readLoop_succ hw]
    dsimp only
    rw [if_neg (mt (not_delivers_iff k).mpr (not_not.mpr hdelivers)), if_pos hend]
  · obtain ⟨w, hw, hreach⟩ := readLoop_reach hv hpending hend
    have hlength := length_output_succ pipe pageLog first capacity k
    rw [output_succ_of_not_delivers hnone] at hlength
    refine ⟨1 + k, _, first + (k + 1), hlength, maxLength_le_capacity _ _ _ _ k, ?_⟩
    rw [hreach, readLoop_succ hw]
    dsimp only
    rw [if_pos ((not_delivers_iff k).mp hnone), output_succ_of_not_delivers hnone]

theorem readLoop_ne_stopped (fuel : ℕ) (v : MmapVector) (i : ℕ) (e : Stop) :
    readLoop pipe pageLog reachedEnd fuel v i ≠ .stopped e := by
  induction fuel generalizing v i with
  | zero => nofun
  | succ fuel ih =>
    rw [readLoop]
    split_ifs
    · nofun
    · nofun
    · exact ih _ _

end Arrival

end Tasan.Symbolizer
