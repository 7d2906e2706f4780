import Tasan.Word

/-!
# The quarantine's batches and caches

`QuarantineBatch` and `QuarantineCache` of `sanitizer_quarantine.h`. An element of `α` is a pointer
together with the size that it is put with, `bytes`. The sizes that the code keeps are words. A failed
`CHECK` is `none`.

No function here loses, repeats or reorders a pointer, whatever the sizes are: the `_ptrs` lemmas. The
`Ok` lemmas say that the sizes are right modulo the word, and with sizes that fit the address space no
`CHECK` fails.
-/

namespace Tasan.Quarantine

variable {α : Type}

/-! ## Batches -/

/-- `QuarantineBatch::kSize`. -/
def kSize : ℕ := 1021

/-- `sizeof(QuarantineBatch)`: three words and the pointers. -/
def batchBytes : ℕ := 8 * (3 + kSize)

/-- `QuarantineBatch`. Its `count` is the length of the list. -/
structure Batch (α : Type) where
  /-- The pointers. -/
  batch : List α
  /-- The size, which includes the batch itself. -/
  size : ℕ

/-- `init`. -/
def Batch.init (ptr : α) (size : ℕ) : Batch α := ⟨[ptr], Word.add 64 size batchBytes⟩

/-- `quarantined_size`. -/
def Batch.quarantinedSize (b : Batch α) : ℕ := Word.sub 64 b.size batchBytes

/-- `push_back`. -/
def Batch.pushBack (b : Batch α) (ptr : α) (size : ℕ) : Option (Batch α) :=
  if b.batch.length < kSize then some ⟨b.batch ++ [ptr], Word.add 64 b.size size⟩ else none

/-- `can_merge`. -/
def Batch.canMerge (b src : Batch α) : Bool := b.batch.length + src.batch.length ≤ kSize

/-- `merge`: the batch, and the one that has been emptied into it. -/
def Batch.merge (b src : Batch α) : Option (Batch α × Batch α) :=
  if b.batch.length + src.batch.length ≤ kSize ∧ batchBytes ≤ b.size then
    some (⟨b.batch ++ src.batch, Word.add 64 b.size src.quarantinedSize⟩, ⟨[], batchBytes⟩)
  else none

/-! ## Caches -/

/-- `QuarantineCache`. -/
structure Cache (α : Type) where
  /-- The batches. -/
  list : List (Batch α)
  size : ℕ

/-- The pointers of a cache, in the order of its batches. -/
def Cache.ptrs (c : Cache α) : List α := c.list.flatMap Batch.batch

/-- `QuarantineCache()`. -/
def Cache.new : Cache α := ⟨[], 0⟩

/-- `OverheadSize`. -/
def Cache.overheadSize (c : Cache α) : ℕ := c.list.length * batchBytes % 2^64

/-- `EnqueueBatch`. -/
def Cache.enqueueBatch (c : Cache α) (b : Batch α) : Cache α :=
  ⟨c.list ++ [b], Word.add 64 c.size b.size⟩

/-- `DequeueBatch`. -/
def Cache.dequeueBatch (c : Cache α) : Option (Batch α × Cache α) :=
  match c.list with
  | [] => none
  | b :: l => some (b, ⟨l, Word.sub 64 c.size b.size⟩)

/-- `Enqueue`. -/
def Cache.enqueue (c : Cache α) (ptr : α) (size : ℕ) : Option (Cache α) :=
  match c.list.getLast? with
  | none => some (c.enqueueBatch (Batch.init ptr size))
  | some b =>
    if b.batch.length = kSize then some (c.enqueueBatch (Batch.init ptr size))
    else (b.pushBack ptr size).map fun b' => ⟨c.list.dropLast ++ [b'], Word.add 64 c.size size⟩

/-- `Transfer`: the cache, and the one that it has been filled from. -/
def Cache.transfer (c src : Cache α) : Cache α × Cache α :=
  (⟨c.list ++ src.list, Word.add 64 c.size src.size⟩, ⟨[], 0⟩)

/-- The loop of `MergeBatches`, from a batch and those after it: the batches that stay,
`extracted_size`, and `to_deallocate`. -/
def mergeLoop (current : Batch α) : List (Batch α) → ℕ → Cache α →
    Option (List (Batch α) × ℕ × Cache α)
  | [], extracted, dealloc => some ([current], extracted, dealloc)
  | next :: rest, extracted, dealloc =>
    if current.canMerge next then
      (current.merge next).bind fun p =>
        mergeLoop p.1 rest (Word.add 64 extracted p.2.size) (dealloc.enqueueBatch p.2)
    else
      (mergeLoop next rest extracted dealloc).map fun p => (current :: p.1, p.2)

/-- `MergeBatches`. -/
def Cache.mergeBatches (c dealloc : Cache α) : Option (Cache α × Cache α) :=
  match c.list with
  | [] => some (c, dealloc)
  | b :: l => (mergeLoop b l 0 dealloc).map fun p => (⟨p.1, Word.sub 64 c.size p.2.1⟩, p.2.2)

/-! ## The critical section of `Recycle` -/

/-- The condition for a merge: the overhead exceeds the limit. -/
def Cache.needsMerge (c : Cache α) : Bool :=
  c.overheadSize < c.size && c.size * 100 % 2^64 < c.overheadSize * (100 + 100) % 2^64

/-- `while (cache_.Size() > min_size) tmp.EnqueueBatch(cache_.DequeueBatch())`, which has no batch to
enqueue if the list runs out. -/
def extractLoop (minSize : ℕ) : List (Batch α) → ℕ → Cache α → Option (Cache α × Cache α)
  | [], size, tmp => if minSize < size then none else some (⟨[], size⟩, tmp)
  | b :: l, size, tmp =>
    if minSize < size then extractLoop minSize l (Word.sub 64 size b.size) (tmp.enqueueBatch b)
    else some (⟨b :: l, size⟩, tmp)

/-- What `Recycle` does under `cache_mutex_`: the cache, and `tmp`. -/
def Cache.recycle (c : Cache α) (minSize : ℕ) : Option (Cache α × Cache α) :=
  if c.overheadSize ≤ c.size then
    (if c.needsMerge then c.mergeBatches Cache.new else some (c, Cache.new)).bind fun p =>
      extractLoop minSize p.1.list p.1.size p.2
  else none

/-! ## The pointers -/

theorem ptrs_append (l : List (Batch α)) (b : Batch α) (n : ℕ) :
    Cache.ptrs ⟨l ++ [b], n⟩ = l.flatMap Batch.batch ++ b.batch := by
  simp [Cache.ptrs]

theorem Cache.enqueueBatch_ptrs (c : Cache α) (b : Batch α) :
    (c.enqueueBatch b).ptrs = c.ptrs ++ b.batch := ptrs_append c.list b _

theorem Cache.enqueue_ptrs {c c' : Cache α} {ptr : α} {size : ℕ}
    (h : c.enqueue ptr size = some c') : c'.ptrs = c.ptrs ++ [ptr] := by
  unfold Cache.enqueue at h
  split at h
  · obtain rfl := Option.some.inj h
    exact c.enqueueBatch_ptrs _
  · next b hb =>
    split_ifs at h
    · obtain rfl := Option.some.inj h
      exact c.enqueueBatch_ptrs _
    · obtain ⟨b', hb', rfl⟩ := Option.map_eq_some_iff.mp h
      unfold Batch.pushBack at hb'
      split_ifs at hb'
      obtain rfl := Option.some.inj hb'
      have hlist : c.list = c.list.dropLast ++ [b] :=
        (List.dropLast_append_getLast? b hb).symm
      rw [ptrs_append, Cache.ptrs]
      nth_rewrite 2 [hlist]
      simp

theorem Cache.transfer_ptrs (c src : Cache α) :
    (c.transfer src).1.ptrs = c.ptrs ++ src.ptrs ∧ (c.transfer src).2.ptrs = [] := by
  simp [Cache.transfer, Cache.ptrs]

/-- The loop of `MergeBatches` keeps the pointers and their order, and extracts empty batches. -/
theorem mergeLoop_ptrs {current : Batch α} {l : List (Batch α)} {extracted : ℕ}
    {dealloc : Cache α} {p : List (Batch α) × ℕ × Cache α}
    (h : mergeLoop current l extracted dealloc = some p) :
    p.1.flatMap Batch.batch = current.batch ++ l.flatMap Batch.batch ∧
      ∃ es, p.2.2.list = dealloc.list ++ es ∧ ∀ e ∈ es, e.batch = [] := by
  induction l generalizing current extracted dealloc p with
  | nil =>
    obtain rfl := Option.some.inj h
    exact ⟨by simp, [], by simp, by simp⟩
  | cons next rest ih =>
    unfold mergeLoop at h
    split_ifs at h
    · obtain ⟨q, hq, h⟩ := Option.bind_eq_some_iff.mp h
      unfold Batch.merge at hq
      split_ifs at hq
      obtain rfl := Option.some.inj hq
      obtain ⟨hptrs, es, hes, hempty⟩ := ih h
      refine ⟨by simpa using hptrs, ⟨[], batchBytes⟩ :: es, ?_, ?_⟩
      · rw [hes]
        simp [Cache.enqueueBatch]
      · intro e he
        rcases List.mem_cons.mp he with rfl | he
        · rfl
        · exact hempty e he
    · obtain ⟨q, hq, rfl⟩ := Option.map_eq_some_iff.mp h
      obtain ⟨hptrs, hes⟩ := ih hq
      exact ⟨by simp [hptrs], hes⟩

theorem Cache.mergeBatches_ptrs {c dealloc : Cache α} {p : Cache α × Cache α}
    (h : c.mergeBatches dealloc = some p) :
    p.1.ptrs = c.ptrs ∧ ∃ es, p.2.list = dealloc.list ++ es ∧ ∀ e ∈ es, e.batch = [] := by
  unfold Cache.mergeBatches at h
  split at h
  · obtain rfl := Option.some.inj h
    exact ⟨rfl, [], by simp, by simp⟩
  · next b l hl =>
    obtain ⟨q, hq, rfl⟩ := Option.map_eq_some_iff.mp h
    obtain ⟨hptrs, hes⟩ := mergeLoop_ptrs hq
    refine ⟨?_, hes⟩
    simp [Cache.ptrs, hptrs, hl]

theorem extractLoop_ptrs {minSize : ℕ} {l : List (Batch α)} {size : ℕ} {tmp : Cache α}
    {p : Cache α × Cache α} (h : extractLoop minSize l size tmp = some p) :
    tmp.ptrs ++ l.flatMap Batch.batch = p.2.ptrs ++ p.1.ptrs := by
  induction l generalizing size tmp with
  | nil =>
    unfold extractLoop at h
    split_ifs at h
    obtain rfl := Option.some.inj h
    rfl
  | cons b l ih =>
    unfold extractLoop at h
    split_ifs at h
    · rw [← ih h, Cache.enqueueBatch_ptrs]
      simp
    · obtain rfl := Option.some.inj h
      rfl

theorem Cache.recycle_ptrs {c : Cache α} {minSize : ℕ} {p : Cache α × Cache α}
    (h : c.recycle minSize = some p) : c.ptrs = p.2.ptrs ++ p.1.ptrs := by
  unfold Cache.recycle at h
  split_ifs at h with hcheck hmerge
  · obtain ⟨q, hq, h⟩ := Option.bind_eq_some_iff.mp h
    obtain ⟨hptrs, es, hes, hempty⟩ := Cache.mergeBatches_ptrs hq
    rw [← extractLoop_ptrs h, ← hptrs]
    have htmp : q.2.ptrs = [] := by
      rw [Cache.ptrs, hes]
      simpa [Cache.new] using hempty
    rw [htmp]
    rfl
  · rw [← extractLoop_ptrs h]
    rfl

/-! ## The sizes -/

section Sizes

variable (bytes : α → ℕ)

/-- The memory that a batch accounts for. -/
def Batch.memory (b : Batch α) : ℕ := (b.batch.map bytes).sum + batchBytes

/-- A batch has space for its pointers, and its size is right modulo the word. -/
def Batch.Ok (b : Batch α) : Prop := b.batch.length ≤ kSize ∧ b.size = b.memory bytes % 2^64

/-- The memory that a list of batches accounts for. -/
def memory (l : List (Batch α)) : ℕ := (l.map (Batch.memory bytes)).sum

/-- The batches of a cache are in order, and its size is right modulo the word. -/
def Cache.Ok (c : Cache α) : Prop :=
  (∀ b ∈ c.list, b.Ok bytes) ∧ c.size = memory bytes c.list % 2^64

variable {bytes}

@[simp]
theorem memory_nil : memory bytes ([] : List (Batch α)) = 0 := rfl

@[simp]
theorem memory_cons (b : Batch α) (l : List (Batch α)) :
    memory bytes (b :: l) = b.memory bytes + memory bytes l := by
  simp [memory]

@[simp]
theorem memory_append (l l' : List (Batch α)) :
    memory bytes (l ++ l') = memory bytes l + memory bytes l' := by
  simp [memory]

theorem Cache.new_ok : (Cache.new : Cache α).Ok bytes := ⟨by simp [Cache.new], rfl⟩

theorem Batch.init_ok (ptr : α) : (Batch.init ptr (bytes ptr)).Ok bytes := by
  constructor
  · simp [Batch.init, kSize]
  · simp [Batch.init, Batch.memory, Word.add]

theorem Cache.enqueueBatch_ok {c : Cache α} (hc : c.Ok bytes) {b : Batch α} (hb : b.Ok bytes) :
    (c.enqueueBatch b).Ok bytes := by
  obtain ⟨hlist, hsize⟩ := hc
  refine ⟨?_, ?_⟩
  · intro b' hb'
    rcases List.mem_append.mp hb' with h | h
    · exact hlist b' h
    · rw [List.mem_singleton.mp h]
      exact hb
  · have hbsize := hb.2
    simp only [Cache.enqueueBatch, Word.add, memory_append, memory_cons, memory_nil]
    omega

/-- `Enqueue` does not fail and keeps a cache in order. -/
theorem Cache.enqueue_ok {c : Cache α} (hc : c.Ok bytes) (ptr : α) :
    ∃ c', c.enqueue ptr (bytes ptr) = some c' ∧ c'.Ok bytes := by
  unfold Cache.enqueue
  split
  · exact ⟨_, rfl, Cache.enqueueBatch_ok hc (Batch.init_ok ptr)⟩
  · next b hb =>
    have hlist : c.list = c.list.dropLast ++ [b] := (List.dropLast_append_getLast? b hb).symm
    obtain ⟨hcount, hbsize⟩ := hc.1 b (by rw [hlist]; simp)
    split_ifs with hfull
    · exact ⟨_, rfl, Cache.enqueueBatch_ok hc (Batch.init_ok ptr)⟩
    · have hlt : b.batch.length < kSize := by omega
      refine ⟨_, by rw [Batch.pushBack, if_pos hlt]; rfl, ?_, ?_⟩
      · intro b' hb'
        rcases List.mem_append.mp hb' with h | h
        · exact hc.1 b' (List.mem_of_mem_dropLast h)
        · rw [List.mem_singleton.mp h]
          refine ⟨by simpa using hlt, ?_⟩
          simp only [Word.add, hbsize, Batch.memory, List.map_append, List.sum_append, List.map_cons,
            List.map_nil, List.sum_cons, List.sum_nil]
          omega
      · have hsize := hc.2
        rw [hlist] at hsize
        simp only [memory_append, memory_cons, memory_nil] at hsize
        simp only [Word.add, hsize, memory_append, memory_cons, memory_nil, Batch.memory,
          List.map_append, List.sum_append, List.map_cons, List.map_nil, List.sum_cons, List.sum_nil]
        omega

theorem Cache.transfer_ok {c src : Cache α} (hc : c.Ok bytes) (hsrc : src.Ok bytes) :
    (c.transfer src).1.Ok bytes ∧ (c.transfer src).2.Ok bytes := by
  refine ⟨⟨?_, ?_⟩, Cache.new_ok⟩
  · intro b hb
    rcases List.mem_append.mp hb with h | h
    · exact hc.1 b h
    · exact hsrc.1 b h
  · have hsize := hc.2
    have hsize' := hsrc.2
    simp only [Cache.transfer, Word.add, memory_append]
    omega

theorem Batch.merge_ok {b src : Batch α} (hb : b.Ok bytes) (hsrc : src.Ok bytes)
    {p : Batch α × Batch α} (h : b.merge src = some p) :
    p.1.Ok bytes ∧ p.1.memory bytes + batchBytes = b.memory bytes + src.memory bytes ∧
      p.2.size = batchBytes := by
  unfold Batch.merge at h
  split_ifs at h with hcheck
  obtain rfl := Option.some.inj h
  have hmem : Batch.memory bytes ⟨b.batch ++ src.batch, Word.add 64 b.size src.quarantinedSize⟩ +
      batchBytes = b.memory bytes + src.memory bytes := by
    simp only [Batch.memory, List.map_append, List.sum_append]
    omega
  refine ⟨⟨by simpa using hcheck.1, ?_⟩, hmem, rfl⟩
  have hbsize := hb.2
  have hssize := hsrc.2
  have hbytes : batchBytes = 8192 := rfl
  simp only [Word.add, Batch.quarantinedSize, Word.sub, hbytes] at hmem ⊢
  omega

/-- The loop of `MergeBatches` keeps the batches in order and counts what it has extracted. -/
theorem mergeLoop_ok {current : Batch α} {l : List (Batch α)} {extracted : ℕ} {dealloc : Cache α}
    {p : List (Batch α) × ℕ × Cache α} (hcur : current.Ok bytes) (hl : ∀ b ∈ l, b.Ok bytes)
    (hex : extracted < 2^64) (h : mergeLoop current l extracted dealloc = some p) :
    (∀ b ∈ p.1, b.Ok bytes) ∧ ∃ n, p.2.1 = (extracted + n) % 2^64 ∧
      memory bytes p.1 + n = current.memory bytes + memory bytes l := by
  induction l generalizing current extracted dealloc p with
  | nil =>
    obtain rfl := Option.some.inj h
    exact ⟨by simpa using hcur, 0, (Nat.mod_eq_of_lt hex).symm, by simp⟩
  | cons next rest ih =>
    have hnext := hl next List.mem_cons_self
    have hrest : ∀ b ∈ rest, b.Ok bytes := fun b hb => hl b (List.mem_cons_of_mem _ hb)
    unfold mergeLoop at h
    split_ifs at h
    · obtain ⟨q, hq, h⟩ := Option.bind_eq_some_iff.mp h
      obtain ⟨hq1, hmem, hq2⟩ := Batch.merge_ok hcur hnext hq
      obtain ⟨hok, n, hn, hsum⟩ := ih hq1 hrest (Nat.mod_lt _ (by positivity)) h
      refine ⟨hok, n + batchBytes, ?_, ?_⟩
      · rw [hn, hq2]
        omega
      · rw [memory_cons]
        omega
    · obtain ⟨q, hq, rfl⟩ := Option.map_eq_some_iff.mp h
      obtain ⟨hok, n, hn, hsum⟩ := ih hnext hrest hex hq
      refine ⟨?_, n, hn, ?_⟩
      · intro b hb
        rcases List.mem_cons.mp hb with rfl | hb
        · exact hcur
        · exact hok b hb
      · simp only [memory_cons]
        omega

theorem Cache.mergeBatches_ok {c dealloc : Cache α} (hc : c.Ok bytes) {p : Cache α × Cache α}
    (h : c.mergeBatches dealloc = some p) :
    p.1.Ok bytes ∧ memory bytes p.1.list ≤ memory bytes c.list := by
  unfold Cache.mergeBatches at h
  split at h
  · obtain rfl := Option.some.inj h
    exact ⟨hc, le_rfl⟩
  · next b l hl =>
    obtain ⟨q, hq, rfl⟩ := Option.map_eq_some_iff.mp h
    have hb : b.Ok bytes := hc.1 b (by simp [hl])
    have hrest : ∀ b' ∈ l, b'.Ok bytes := fun b' h' => hc.1 b' (by simp [hl, h'])
    obtain ⟨hok, n, hn, hsum⟩ := mergeLoop_ok hb hrest (by positivity) hq
    have hsize := hc.2
    rw [hl, memory_cons] at hsize
    rw [hl, memory_cons]
    refine ⟨⟨hok, ?_⟩, by dsimp only; omega⟩
    simp only [Word.sub]
    omega

theorem extractLoop_ok (minSize : ℕ) {l : List (Batch α)} {size : ℕ} (tmp : Cache α)
    (hl : ∀ b ∈ l, b.Ok bytes) (hsize : size = memory bytes l % 2^64) :
    ∃ p, extractLoop minSize l size tmp = some p ∧ p.1.Ok bytes := by
  induction l generalizing size tmp with
  | nil =>
    have hzero : size = 0 := by simpa using hsize
    refine ⟨(⟨[], size⟩, tmp), ?_, by simp, by simpa using hsize⟩
    unfold extractLoop
    rw [if_neg (by omega)]
  | cons b l ih =>
    have hb := hl b List.mem_cons_self
    unfold extractLoop
    split_ifs
    · apply ih _ fun b' h' => hl b' (List.mem_cons_of_mem _ h')
      have hbsize := hb.2
      rw [memory_cons] at hsize
      simp only [Word.sub]
      omega
    · exact ⟨_, rfl, hl, hsize⟩

theorem Cache.recycle_ok {c : Cache α} (hc : c.Ok bytes) {minSize : ℕ} {p : Cache α × Cache α}
    (h : c.recycle minSize = some p) : p.1.Ok bytes := by
  unfold Cache.recycle at h
  split_ifs at h with hcheck hmerge
  · obtain ⟨q, hq, h⟩ := Option.bind_eq_some_iff.mp h
    obtain ⟨hok, -⟩ := Cache.mergeBatches_ok hc hq
    obtain ⟨p', hp', hp'ok⟩ := extractLoop_ok minSize q.2 hok.1 hok.2
    rw [hp'] at h
    exact Option.some.inj h ▸ hp'ok
  · obtain ⟨p', hp', hp'ok⟩ := extractLoop_ok minSize Cache.new hc.1 hc.2
    rw [Option.bind_some, hp'] at h
    exact Option.some.inj h ▸ hp'ok

/-! ## Sizes that fit -/

/-- With sizes that fit, the loop of `MergeBatches` does not fail. -/
theorem mergeLoop_some {current : Batch α} {l : List (Batch α)} (extracted : ℕ) (dealloc : Cache α)
    (hcur : current.Ok bytes) (hl : ∀ b ∈ l, b.Ok bytes)
    (hfits : current.memory bytes + memory bytes l < 2^64) :
    ∃ p, mergeLoop current l extracted dealloc = some p := by
  induction l generalizing current extracted dealloc with
  | nil => exact ⟨_, rfl⟩
  | cons next rest ih =>
    have hnext := hl next List.mem_cons_self
    have hrest : ∀ b ∈ rest, b.Ok bytes := fun b hb => hl b (List.mem_cons_of_mem _ hb)
    rw [memory_cons] at hfits
    unfold mergeLoop
    split_ifs with hcan
    · have hcheck : current.batch.length + next.batch.length ≤ kSize ∧ batchBytes ≤ current.size := by
        refine ⟨of_decide_eq_true hcan, ?_⟩
        rw [hcur.2, Nat.mod_eq_of_lt (by omega)]
        exact Nat.le_add_left _ _
      have hq : current.merge next = some (⟨current.batch ++ next.batch,
          Word.add 64 current.size next.quarantinedSize⟩, ⟨[], batchBytes⟩) := if_pos hcheck
      obtain ⟨hok, hmem, -⟩ := Batch.merge_ok hcur hnext hq
      rw [hq, Option.bind_some]
      exact ih _ _ hok hrest (by omega)
    · obtain ⟨p, hp⟩ := ih extracted dealloc hnext hrest (by omega)
      exact ⟨_, by rw [hp]; rfl⟩

theorem extractLoop_zero {l : List (Batch α)} {size : ℕ} {tmp : Cache α} {p : Cache α × Cache α}
    (hl : ∀ b ∈ l, b.Ok bytes) (hsize : size = memory bytes l % 2^64)
    (hfits : memory bytes l < 2^64) (h : extractLoop 0 l size tmp = some p) : p.1.list = [] := by
  induction l generalizing size tmp with
  | nil =>
    unfold extractLoop at h
    split_ifs at h
    obtain rfl := Option.some.inj h
    rfl
  | cons b l ih =>
    have hbsize := (hl b List.mem_cons_self).2
    have hpos : 0 < b.memory bytes := Nat.lt_of_lt_of_le (by decide) (Nat.le_add_left batchBytes _)
    rw [memory_cons] at hsize hfits
    unfold extractLoop at h
    rw [if_pos (by omega)] at h
    refine ih (fun b' h' => hl b' (List.mem_cons_of_mem _ h')) ?_ (by omega) h
    simp only [Word.sub]
    omega

theorem overhead_le_memory (l : List (Batch α)) : l.length * batchBytes ≤ memory bytes l := by
  induction l with
  | nil => simp
  | cons b l ih =>
    rw [memory_cons, List.length_cons, Nat.succ_mul]
    have hb : batchBytes ≤ b.memory bytes := Nat.le_add_left _ _
    omega

/-- With sizes that fit, `Recycle` does not fail, and down to zero it takes everything. -/
theorem Cache.recycle_some {c : Cache α} (hc : c.Ok bytes) (hfits : memory bytes c.list < 2^64)
    (minSize : ℕ) : ∃ p, c.recycle minSize = some p ∧ (minSize = 0 → p.1.list = []) := by
  have hover : c.list.length * batchBytes ≤ memory bytes c.list := overhead_le_memory c.list
  have hsize := hc.2
  have hcheck : c.overheadSize ≤ c.size := by
    rw [Cache.overheadSize]
    omega
  obtain ⟨q, hq, hok, hle⟩ : ∃ q : Cache α × Cache α,
      (if c.needsMerge then c.mergeBatches Cache.new else some (c, Cache.new)) = some q ∧
        q.1.Ok bytes ∧ memory bytes q.1.list ≤ memory bytes c.list := by
    split_ifs with hmerge
    · obtain ⟨q, hq⟩ : ∃ q, c.mergeBatches Cache.new = some q := by
        unfold Cache.mergeBatches
        split
        · exact ⟨_, rfl⟩
        · next b l hl =>
          rw [hl, memory_cons] at hfits
          obtain ⟨p, hp⟩ := mergeLoop_some 0 Cache.new (hc.1 b (by simp [hl]))
            (fun b' h' => hc.1 b' (by simp [hl, h'])) hfits
          exact ⟨_, by rw [hp]; rfl⟩
      exact ⟨q, hq, Cache.mergeBatches_ok hc hq⟩
    · exact ⟨_, rfl, hc, le_rfl⟩
  obtain ⟨p, hp, -⟩ := extractLoop_ok minSize q.2 hok.1 hok.2
  refine ⟨p, ?_, ?_⟩
  · rw [Cache.recycle, if_pos hcheck, hq, Option.bind_some, hp]
  · rintro rfl
    exact extractLoop_zero hok.1 hok.2 (by omega) hp

end Sizes

end Tasan.Quarantine
