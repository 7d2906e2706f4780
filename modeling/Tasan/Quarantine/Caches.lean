import Tasan.Quarantine.Model

/-!
# The sizes of quarantine caches over whole runs

Any sequence of `Enqueue`, `Transfer`, `EnqueueBatch`, `DequeueBatch` and `MergeBatches` on any number
of caches. A batch that has been dequeued is held by the caller until it is enqueued again. In every
state that can be reached the sizes of the caches and of the batches are right, `Cache.Ok` and
`Batch.Ok`, as words. What `Recycle` relies on follows: its loop has a batch to dequeue as long as the
size is above the limit, and its `CHECK` holds for sizes that fit the address space.
-/

namespace Tasan.Quarantine

variable {I α : Type} {bytes : α → ℕ}

/-! ## Batches that are given back -/

theorem Batch.merge_emptied_ok {b src : Batch α} {p : Batch α × Batch α} (h : b.merge src = some p) :
    p.2.Ok bytes := by
  unfold Batch.merge at h
  split_ifs at h
  obtain rfl := Option.some.inj h
  exact ⟨Nat.zero_le _, by simp [Batch.memory, batchBytes, kSize]⟩

theorem mergeLoop_dealloc_ok {current : Batch α} {l : List (Batch α)} {extracted : ℕ}
    {dealloc : Cache α} {p : List (Batch α) × ℕ × Cache α} (hd : dealloc.Ok bytes)
    (h : mergeLoop current l extracted dealloc = some p) : p.2.2.Ok bytes := by
  induction l generalizing current extracted dealloc p with
  | nil =>
    obtain rfl := Option.some.inj h
    exact hd
  | cons next rest ih =>
    unfold mergeLoop at h
    split_ifs at h
    · obtain ⟨q, hq, h⟩ := Option.bind_eq_some_iff.mp h
      exact ih (Cache.enqueueBatch_ok hd (Batch.merge_emptied_ok hq)) h
    · obtain ⟨q, hq, rfl⟩ := Option.map_eq_some_iff.mp h
      exact ih (p := q) hd hq

theorem Cache.mergeBatches_dealloc_ok {c dealloc : Cache α} (hd : dealloc.Ok bytes)
    {p : Cache α × Cache α} (h : c.mergeBatches dealloc = some p) : p.2.Ok bytes := by
  unfold Cache.mergeBatches at h
  split at h
  · obtain rfl := Option.some.inj h
    exact hd
  · obtain ⟨q, hq, rfl⟩ := Option.map_eq_some_iff.mp h
    exact mergeLoop_dealloc_ok hd hq

theorem Cache.dequeueBatch_ok {c c' : Cache α} {b : Batch α} (hc : c.Ok bytes)
    (h : c.dequeueBatch = some (b, c')) : b.Ok bytes ∧ c'.Ok bytes := by
  obtain ⟨l, size⟩ := c
  cases l with
  | nil => exact absurd h (by simp [Cache.dequeueBatch])
  | cons b₀ l =>
    obtain ⟨rfl, rfl⟩ := Prod.mk.inj (Option.some.inj h)
    obtain ⟨hlist, hsize⟩ := hc
    have hb := hlist b₀ List.mem_cons_self
    refine ⟨hb, fun b' h' => hlist b' (List.mem_cons_of_mem _ h'), ?_⟩
    have hbsize := hb.2
    simp only [memory_cons] at hsize
    simp only [Word.sub]
    omega

/-! ## Runs -/

/-- The caches, and the batches that have been dequeued. -/
structure Caches (I α : Type) where
  /-- The caches. -/
  cache : I → Cache α
  /-- The batches that a caller holds. -/
  held : List (Batch α)

/-- New caches. -/
def Caches.init : Caches I α := ⟨fun _ => Cache.new, []⟩

variable [DecidableEq I]

/-- A cache replaced. -/
def Caches.set (s : Caches I α) (i : I) (c : Cache α) : Caches I α :=
  { s with cache := Function.update s.cache i c }

/-- One call. `Transfer` and `MergeBatches` are between two caches, and a batch that is enqueued is one
that the caller holds. -/
inductive Caches.Step (bytes : α → ℕ) : Caches I α → Caches I α → Prop
  | enqueue {s : Caches I α} {i : I} {ptr : α} {c : Cache α} :
      (s.cache i).enqueue ptr (bytes ptr) = some c → Step bytes s (s.set i c)
  | transfer {s : Caches I α} {i j : I} : i ≠ j →
      Step bytes s ((s.set i ((s.cache i).transfer (s.cache j)).1).set j
        ((s.cache i).transfer (s.cache j)).2)
  | enqueueBatch {s : Caches I α} {i : I} {b : Batch α} {rest : List (Batch α)} :
      s.held.Perm (b :: rest) →
      Step bytes s { s.set i ((s.cache i).enqueueBatch b) with held := rest }
  /-- `DequeueBatch`, of a cache that is not empty. -/
  | dequeueBatch {s : Caches I α} {i : I} {b : Batch α} {c : Cache α} :
      (s.cache i).dequeueBatch = some (b, c) →
      Step bytes s { s.set i c with held := b :: s.held }
  | mergeBatches {s : Caches I α} {i j : I} {c d : Cache α} : i ≠ j →
      (s.cache i).mergeBatches (s.cache j) = some (c, d) → Step bytes s ((s.set i c).set j d)

/-- The states that can be reached from new caches. -/
def Caches.Reachable (bytes : α → ℕ) (s : Caches I α) : Prop :=
  Relation.ReflTransGen (Caches.Step bytes) Caches.init s

/-- All caches and all batches are in order. -/
structure Caches.Ok (bytes : α → ℕ) (s : Caches I α) : Prop where
  /-- The caches. -/
  cache : ∀ i, (s.cache i).Ok bytes
  /-- The batches that a caller holds. -/
  held : ∀ b ∈ s.held, b.Ok bytes

theorem Caches.Ok.set {s : Caches I α} (hs : s.Ok bytes) {i : I} {c : Cache α} (hc : c.Ok bytes) :
    (s.set i c).Ok bytes := by
  refine ⟨fun j => ?_, hs.held⟩
  rw [Caches.set]
  dsimp only
  rcases eq_or_ne j i with rfl | hne
  · rw [Function.update_self]
    exact hc
  · rw [Function.update_of_ne hne]
    exact hs.cache j

/-- Every call keeps the caches and the batches in order. -/
theorem Caches.Ok.step {s s' : Caches I α} (hs : s.Ok bytes) (h : Caches.Step bytes s s') :
    s'.Ok bytes := by
  cases h with
  | enqueue h =>
    rename_i i ptr c
    obtain ⟨c', hc', hok⟩ := Cache.enqueue_ok (hs.cache i) ptr
    rw [h] at hc'
    obtain rfl := Option.some.inj hc'
    exact hs.set hok
  | transfer hne =>
    obtain ⟨h₁, h₂⟩ := Cache.transfer_ok (hs.cache _) (hs.cache _)
    exact (hs.set h₁).set h₂
  | enqueueBatch h =>
    rename_i i b rest
    have hb := hs.held b (h.mem_iff.mpr List.mem_cons_self)
    exact ⟨(hs.set (Cache.enqueueBatch_ok (hs.cache i) hb)).cache,
      fun b' hb' => hs.held b' (h.mem_iff.mpr (List.mem_cons_of_mem _ hb'))⟩
  | dequeueBatch h =>
    obtain ⟨hb, hc⟩ := Cache.dequeueBatch_ok (hs.cache _) h
    refine ⟨(hs.set hc).cache, fun b' hb' => ?_⟩
    rcases List.mem_cons.mp hb' with rfl | hb'
    · exact hb
    · exact hs.held b' hb'
  | mergeBatches hne h =>
    obtain ⟨hc, -⟩ := Cache.mergeBatches_ok (hs.cache _) h
    exact (hs.set hc).set (Cache.mergeBatches_dealloc_ok (hs.cache _) h)

theorem Caches.Reachable.ok {s : Caches I α} (h : Caches.Reachable bytes s) : s.Ok bytes := by
  induction h with
  | refl => exact ⟨fun _ => Cache.new_ok, by simp [Caches.init]⟩
  | tail _ hstep ih => exact ih.step hstep

/-! ## The sizes as sums -/

theorem sum_size_mod {l : List (Batch α)} (hl : ∀ b ∈ l, b.Ok bytes) :
    (l.map Batch.size).sum % 2^64 = memory bytes l % 2^64 := by
  induction l with
  | nil => rfl
  | cons b l ih =>
    have hb := (hl b List.mem_cons_self).2
    have hrest := ih fun b' h' => hl b' (List.mem_cons_of_mem _ h')
    rw [List.map_cons, List.sum_cons, memory_cons]
    omega

theorem memory_le_of_mem {l : List (Batch α)} {b : Batch α} (hb : b ∈ l) :
    b.memory bytes ≤ memory bytes l :=
  List.single_le_sum (fun _ _ => Nat.zero_le _) _ (List.mem_map_of_mem hb)

theorem size_eq_memory {l : List (Batch α)} (hl : ∀ b ∈ l, b.Ok bytes)
    (hfits : memory bytes l < 2^64) {b : Batch α} (hb : b ∈ l) : b.size = b.memory bytes := by
  rw [(hl b hb).2]
  exact Nat.mod_eq_of_lt ((memory_le_of_mem hb).trans_lt hfits)

theorem sum_size_eq {l : List (Batch α)} (hl : ∀ b ∈ l, b.Ok bytes)
    (hfits : memory bytes l < 2^64) : (l.map Batch.size).sum = memory bytes l := by
  rw [memory]
  congr 1
  exact List.map_congr_left fun b hb => size_eq_memory hl hfits hb

theorem extractLoop_le {minSize : ℕ} {l : List (Batch α)} {size : ℕ} {tmp : Cache α}
    {p : Cache α × Cache α} (h : extractLoop minSize l size tmp = some p) : p.1.size ≤ minSize := by
  induction l generalizing size tmp with
  | nil =>
    unfold extractLoop at h
    split_ifs at h with hsize
    obtain rfl := Option.some.inj h
    exact Nat.not_lt.mp hsize
  | cons b l ih =>
    unfold extractLoop at h
    split_ifs at h with hsize
    · exact ih h
    · obtain rfl := Option.some.inj h
      exact Nat.not_lt.mp hsize

theorem Cache.recycle_le {c : Cache α} {minSize : ℕ} {p : Cache α × Cache α}
    (h : c.recycle minSize = some p) : p.1.size ≤ minSize := by
  unfold Cache.recycle at h
  split_ifs at h
  all_goals
    obtain ⟨q, -, hq⟩ := Option.bind_eq_some_iff.mp h
    exact extractLoop_le hq

/-! ## All runs -/

/-- In every state that can be reached, for each cache: its size is the sum of the sizes of its
batches, and the size of a batch is that of the batch itself and of its pointers, as words. The loop of
`Recycle` ends for every limit, at the limit, and does not run out of batches. For memory that fits the
address space the sizes are the sums themselves, and no `CHECK` of `Recycle` fails. -/
theorem caches_sizes (s : Caches I α) (h : Caches.Reachable bytes s) (i : I) :
    (s.cache i).size = ((s.cache i).list.map Batch.size).sum % 2^64 ∧
    (∀ b ∈ (s.cache i).list, b.size = (batchBytes + (b.batch.map bytes).sum) % 2^64) ∧
    (∀ minSize tmp, ∃ p, extractLoop minSize (s.cache i).list (s.cache i).size tmp = some p ∧
      p.1.size ≤ minSize) ∧
    (memory bytes (s.cache i).list < 2^64 →
      (s.cache i).size = ((s.cache i).list.map Batch.size).sum ∧
      (∀ b ∈ (s.cache i).list, b.size = batchBytes + (b.batch.map bytes).sum) ∧
      (s.cache i).overheadSize ≤ (s.cache i).size ∧
      ∀ minSize, ∃ p, (s.cache i).recycle minSize = some p ∧ p.1.size ≤ minSize) := by
  have hc := h.ok.cache i
  generalize s.cache i = c at hc
  obtain ⟨hlist, hsize⟩ := hc
  refine ⟨?_, fun b hb => ?_, fun minSize tmp => ?_, fun hfits => ⟨?_, fun b hb => ?_, ?_, ?_⟩⟩
  · rw [sum_size_mod hlist, hsize]
  · rw [(hlist b hb).2, Batch.memory, Nat.add_comm]
  · obtain ⟨p, hp, -⟩ := extractLoop_ok minSize tmp hlist hsize
    exact ⟨p, hp, extractLoop_le hp⟩
  · rw [sum_size_eq hlist hfits, hsize, Nat.mod_eq_of_lt hfits]
  · rw [size_eq_memory hlist hfits hb, Batch.memory, Nat.add_comm]
  · have hover : c.list.length * batchBytes ≤ memory bytes c.list := overhead_le_memory c.list
    rw [Cache.overheadSize]
    omega
  · intro minSize
    obtain ⟨p, hp, -⟩ := Cache.recycle_some ⟨hlist, hsize⟩ hfits minSize
    exact ⟨p, hp, Cache.recycle_le hp⟩

/-- A cache with one pointer, and `Recycle` down to any limit. -/
theorem caches_sizes_one : ∃ s : Caches Bool ℕ, Caches.Reachable (fun _ => 16) s ∧
    (s.cache true).list.length = 1 ∧
    ∀ minSize, ∃ p, (s.cache true).recycle minSize = some p ∧ p.1.size ≤ minSize := by
  have hrun : Caches.Reachable (fun _ => 16)
      ((Caches.init : Caches Bool ℕ).set true (Cache.new.enqueueBatch (Batch.init 7 16))) :=
    Relation.ReflTransGen.single (@Caches.Step.enqueue Bool ℕ _ _ Caches.init true 7 _ rfl)
  exact ⟨_, hrun, rfl, ((caches_sizes _ hrun true).2.2.2 (by decide)).2.2.2⟩

/-- A pointer that is enqueued with a size which wraps with that of its batch: the size of the cache is
zero, below its overhead. -/
theorem not_check_recycle_wrap : ∃ (bytes : ℕ → ℕ) (s : Caches Bool ℕ), Caches.Reachable bytes s ∧
    ¬ (s.cache true).overheadSize ≤ (s.cache true).size ∧ (s.cache true).recycle 0 = none := by
  refine ⟨fun _ => 2^64 - batchBytes, (Caches.init : Caches Bool ℕ).set true
    (Cache.new.enqueueBatch (Batch.init 7 (2^64 - batchBytes))), ?_, by decide, by decide⟩
  exact Relation.ReflTransGen.single (@Caches.Step.enqueue Bool ℕ _ _ Caches.init true 7 _ rfl)

end Tasan.Quarantine
