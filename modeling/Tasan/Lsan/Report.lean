import Tasan.Lsan.Model
import Tasan.Sorting.HeapSort
import Tasan.StackStore.Model

/-!
# The leak report

`LeakReport` groups the leaked chunks by the stack that allocated them and by whether they are
leaked directly. A vector holds one entry for each pair, in the order in which the pairs come up.
It takes `kMaxLeaksConsidered` of them: at the first chunk of one more pair `AddLeakedChunks`
returns, and leaves out what comes after this chunk as well. `addLeakedChunks_exact_iff` says when
the entries are nevertheless the whole of their pairs: when no chunk of theirs comes later.

The chunks are disjoint parts of one address space, so the sums of their sizes do not wrap, and
counts and sizes are natural numbers.
-/

namespace Tasan.Lsan

open StackStore (StackTrace)

/-- `kMaxLeaksConsidered`. -/
def kMaxLeaksConsidered : ℕ := 5000

/-- `Leak`. -/
structure Leak where
  id : ℕ
  hitCount : ℕ
  totalSize : ℕ
  stackTraceId : ℕ
  isDirectlyLeaked : Bool
  isSuppressed : Bool
  deriving DecidableEq, Inhabited

/-- `LeakedObject`. -/
structure LeakedObject where
  leakId : ℕ
  addr : ℕ
  size : ℕ
  deriving DecidableEq

/-- `LeakReport`. -/
structure LeakReport where
  nextId : ℕ := 0
  leaks : List Leak := []
  leakedObjects : List LeakedObject := []

/-- The flags, the stack depot and the allocator, as the report sees them. -/
structure ReportEnv where
  resolution : ℕ
  reportObjects : Bool
  stackDepotGet : ℕ → StackTrace
  stackDepotPut : StackTrace → ℕ
  getUserAddr : ℕ → ℕ

/-- The stack under which `AddLeakedChunks` enters a chunk: the stack of the chunk, cut down to
`resolution` frames unless that is 0. -/
def ReportEnv.stackId (E : ReportEnv) (stackTraceId : ℕ) : ℕ :=
  if E.resolution ≠ 0 then
    let stack := E.stackDepotGet stackTraceId
    E.stackDepotPut { stack with frames := stack.frames.take E.resolution }
  else stackTraceId

namespace LeakReport

/-- The loop over `leaks_` of `AddLeakedChunks`: the value of `i` after it. -/
def find (r : LeakReport) (stackTraceId : ℕ) (isDirectlyLeaked : Bool) : ℕ :=
  r.leaks.findIdx fun leak =>
    leak.stackTraceId == stackTraceId && leak.isDirectlyLeaked == isDirectlyLeaked

/-- `leaks_[i].hit_count++` and `leaks_[i].total_size += leaked_size`. -/
def hit (r : LeakReport) (i leakedSize : ℕ) : LeakReport :=
  { r with
    leaks := r.leaks.modify i fun leak =>
      { leak with hitCount := leak.hitCount + 1, totalSize := leak.totalSize + leakedSize } }

/-- `leaks_.push_back(leak)`. -/
def pushLeak (r : LeakReport) (stackTraceId : ℕ) (isDirectlyLeaked : Bool) (leakedSize : ℕ) :
    LeakReport :=
  { r with
    nextId := r.nextId + 1
    leaks := r.leaks ++ [⟨r.nextId, 1, leakedSize, stackTraceId, isDirectlyLeaked, false⟩] }

/-- `leaked_objects_.push_back(obj)`, under `report_objects`. -/
def pushObject (E : ReportEnv) (r : LeakReport) (i chunk leakedSize : ℕ) : LeakReport :=
  if E.reportObjects then
    { r with
      leakedObjects := r.leakedObjects ++
        [⟨(r.leaks.getD i default).id, E.getUserAddr chunk, leakedSize⟩] }
  else r

/-- `AddLeakedChunks`; `none` for a failed `CHECK`. -/
def addLeakedChunks (E : ReportEnv) (r : LeakReport) : List LeakedChunk → Option LeakReport
  | [] => some r
  | leak :: chunks =>
    if leak.tag = .kDirectlyLeaked ∨ leak.tag = .kIndirectlyLeaked then
      let stackTraceId := E.stackId leak.stackTraceId
      let isDirectlyLeaked := decide (leak.tag = .kDirectlyLeaked)
      let i := r.find stackTraceId isDirectlyLeaked
      if i = r.leaks.length then
        -- the `return` inside of the loop over the chunks
        if r.leaks.length = kMaxLeaksConsidered then some r
        else
          addLeakedChunks E
            ((r.pushLeak stackTraceId isDirectlyLeaked leak.leakedSize).pushObject E i leak.chunk
              leak.leakedSize) chunks
      else
        addLeakedChunks E
          ((r.hit i leak.leakedSize).pushObject E i leak.chunk leak.leakedSize) chunks
    else none

/-- `ApplySuppressions`, with the number that it returns. -/
def applySuppressions (suppress : ℕ → ℕ → ℕ → Bool) (r : LeakReport) : LeakReport × ℕ :=
  let matched (leak : Leak) := suppress leak.stackTraceId leak.hitCount leak.totalSize
  ({ r with
      leaks := r.leaks.map fun leak =>
        if matched leak then { leak with isSuppressed := true } else leak },
    r.leaks.countP matched)

/-- `UnsuppressedLeakCount`. -/
def unsuppressedLeakCount (r : LeakReport) : ℕ := r.leaks.countP fun leak => !leak.isSuppressed

end LeakReport

/-- `LeakComparator`. -/
def leakComparator (leak1 leak2 : Leak) : Bool :=
  if leak1.isDirectlyLeaked = leak2.isDirectlyLeaked then leak1.totalSize > leak2.totalSize
  else leak1.isDirectlyLeaked

/-- What `PrintReportForLeak` prints of a leak. -/
structure LeakText where
  /-- Whether the leak is called direct. -/
  isDirectlyLeaked : Bool
  /-- The bytes. -/
  totalSize : ℕ
  /-- The objects. -/
  hitCount : ℕ
  /-- The stack. -/
  stack : StackTrace
  /-- The objects under "Objects leaked above:". -/
  objects : List LeakedObject

/-- What `ReportTopLeaks` prints. -/
structure TopLeaks where
  /-- Whether there are "Too many leaks!". -/
  tooMany : Bool
  /-- Whether the leaks are called the top leaks. -/
  top : Bool
  /-- The leaks. -/
  leaks : List LeakText
  /-- How many leaks are omitted. -/
  omitted : ℕ

namespace LeakReport

/-- `PrintReportForLeak`; `none` for a failed `CHECK`. -/
def printReportForLeak (E : ReportEnv) (r : LeakReport) (leak : Leak) : Option LeakText :=
  if leak.stackTraceId ≠ 0 then
    some ⟨leak.isDirectlyLeaked, leak.totalSize, leak.hitCount, E.stackDepotGet leak.stackTraceId,
      if E.reportObjects then r.leakedObjects.filter fun obj => obj.leakId = leak.id else []⟩
  else none

/-- The loop of `ReportTopLeaks`, after `leaksReported` leaks. -/
def reportLoop (E : ReportEnv) (r : LeakReport) (numLeaksToReport : ℕ) :
    List Leak → ℕ → Option (List LeakText)
  | [], _ => some []
  | leak :: leaks, leaksReported =>
    if leak.isSuppressed then reportLoop E r numLeaksToReport leaks leaksReported
    else
      (r.printReportForLeak E leak).bind fun text =>
        if leaksReported + 1 = numLeaksToReport then some [text]
        else (reportLoop E r numLeaksToReport leaks (leaksReported + 1)).map (text :: ·)

/-- `ReportTopLeaks`; `none` for a failed `CHECK`. -/
def reportTopLeaks (E : ReportEnv) (r : LeakReport) (numLeaksToReport : ℕ) :
    Option (LeakReport × TopLeaks) :=
  if r.leaks.length ≤ kMaxLeaksConsidered then
    let unsuppressedCount := r.unsuppressedLeakCount
    let sorted := { r with leaks := Sorting.sortList leakComparator r.leaks }
    (sorted.reportLoop E numLeaksToReport sorted.leaks 0).map fun texts =>
      (sorted,
        ⟨r.leaks.length = kMaxLeaksConsidered,
          0 < numLeaksToReport ∧ numLeaksToReport < unsuppressedCount, texts,
          unsuppressedCount - texts.length⟩)
  else none

/-- The bytes and the allocations that `PrintSummary` prints; `none` for a failed `CHECK`. -/
def printSummary (r : LeakReport) : Option (ℕ × ℕ) :=
  if r.leaks.length ≤ kMaxLeaksConsidered then
    let unsuppressed := r.leaks.filter fun leak => !leak.isSuppressed
    some ((unsuppressed.map Leak.totalSize).sum, (unsuppressed.map Leak.hitCount).sum)
  else none

end LeakReport

/-! ## What the report says -/

section Spec

variable (E : ReportEnv)

/-- The pair of a chunk: its stack, and whether it is leaked directly. -/
def pair (c : LeakedChunk) : ℕ × Bool := (E.stackId c.stackTraceId, decide (c.tag = .kDirectlyLeaked))

/-- The pairs of the chunks, in the order of their first occurrences. -/
def pairs (chunks : List LeakedChunk) : List (ℕ × Bool) := (chunks.map (pair E)).eraseDups

/-- The pairs that a report has room for. -/
def considered (chunks : List LeakedChunk) : List (ℕ × Bool) :=
  (pairs E chunks).take kMaxLeaksConsidered

/-- The chunks of a pair. -/
def ofPair (k : ℕ × Bool) (chunks : List LeakedChunk) : List LeakedChunk :=
  chunks.filter fun c => pair E c = k

/-- The number and the total size of the chunks of a pair. -/
def hitCount (k : ℕ × Bool) (chunks : List LeakedChunk) : ℕ := (ofPair E k chunks).length

/-- The total size of the chunks of a pair. -/
def totalSize (k : ℕ × Bool) (chunks : List LeakedChunk) : ℕ :=
  ((ofPair E k chunks).map LeakedChunk.leakedSize).sum

/-- The entries of pairs, over all the chunks of each. -/
def leaksOf (ks : List (ℕ × Bool)) (chunks : List LeakedChunk) : List Leak :=
  ks.mapIdx fun i k => ⟨i, hitCount E k chunks, totalSize E k chunks, k.1, k.2, false⟩

/-- The objects of pairs: all the chunks of each, under the entry of the pair. -/
def objectsOf (ks : List (ℕ × Bool)) (chunks : List LeakedChunk) : List LeakedObject :=
  if E.reportObjects then
    (chunks.filter fun c => pair E c ∈ ks).map fun c =>
      ⟨ks.idxOf (pair E c), E.getUserAddr c.chunk, c.leakedSize⟩
  else []

/-- The totals over the pairs that are not suppressed. -/
def summaryOf (suppress : ℕ → ℕ → ℕ → Bool) (ks : List (ℕ × Bool)) (chunks : List LeakedChunk) :
    ℕ × ℕ :=
  let unsuppressed := ks.filter fun k => !suppress k.1 (hitCount E k chunks) (totalSize E k chunks)
  ((unsuppressed.map (totalSize E · chunks)).sum, (unsuppressed.map (hitCount E · chunks)).sum)

/-- A report is exact: it has one entry for each of the pairs that there is room for, with the
number and the total size of all its chunks; the objects are all the chunks of these pairs; and the
totals that it prints, before and after the leaks are sorted, are those over the pairs that are not
suppressed. -/
structure Exact (chunks : List LeakedChunk) (r : LeakReport) : Prop where
  /-- The entries. -/
  leaks : r.leaks = leaksOf E (considered E chunks) chunks
  /-- The objects. -/
  leakedObjects : r.leakedObjects = objectsOf E (considered E chunks) chunks
  /-- The totals. -/
  summary : ∀ suppress, (r.applySuppressions suppress).1.printSummary =
    some (summaryOf E suppress (considered E chunks) chunks)
  /-- The totals after `ReportTopLeaks`. -/
  summary_reportTopLeaks : ∀ suppress n r' t,
    (r.applySuppressions suppress).1.reportTopLeaks E n = some (r', t) →
      r'.printSummary = some (summaryOf E suppress (considered E chunks) chunks)

end Spec

/-! ## Pairs -/

theorem nodup_eraseDups {α : Type*} [BEq α] [LawfulBEq α] (l : List α) : l.eraseDups.Nodup := by
  induction l using List.reverseRecOn with
  | nil => exact List.nodup_nil
  | append_singleton l a ih =>
    rw [List.eraseDups_append]
    refine ih.append ?_ fun x hx hx' => ?_
    · by_cases ha : a ∈ l <;> simp [List.removeAll, List.eraseDups_cons, ha]
    · rw [List.mem_eraseDups] at hx hx'
      simp only [List.removeAll, List.mem_filter] at hx'
      simp_all

section Spec

variable (E : ReportEnv) (seen : List LeakedChunk) (c : LeakedChunk)

theorem nodup_pairs : (pairs E seen).Nodup := nodup_eraseDups _

theorem mem_pairs {k : ℕ × Bool} : k ∈ pairs E seen ↔ ∃ c ∈ seen, pair E c = k := by
  simp [pairs, List.mem_eraseDups]

theorem pairs_append_of_mem (hc : pair E c ∈ pairs E seen) : pairs E (seen ++ [c]) = pairs E seen := by
  have hmem : pair E c ∈ seen.map (pair E) := List.mem_eraseDups.mp hc
  rw [pairs, List.map_append, List.eraseDups_append]
  simp [pairs, List.removeAll, List.mem_map.mp hmem]

theorem pairs_append_of_notMem (hc : pair E c ∉ pairs E seen) :
    pairs E (seen ++ [c]) = pairs E seen ++ [pair E c] := by
  have hmem : pair E c ∉ seen.map (pair E) := fun h => hc (List.mem_eraseDups.mpr h)
  rw [pairs, List.map_append, List.eraseDups_append]
  simp [pairs, List.removeAll, mt List.mem_map.mpr hmem, List.eraseDups_cons]

theorem pairs_take (rest : List LeakedChunk) : pairs E seen <+: pairs E (seen ++ rest) := by
  rw [pairs, pairs, List.map_append, List.eraseDups_append]
  exact List.prefix_append _ _

theorem hitCount_append (k : ℕ × Bool) (rest : List LeakedChunk) :
    hitCount E k (seen ++ rest) = hitCount E k seen + hitCount E k rest := by
  simp [hitCount, ofPair]

theorem totalSize_append (k : ℕ × Bool) (rest : List LeakedChunk) :
    totalSize E k (seen ++ rest) = totalSize E k seen + totalSize E k rest := by
  simp [totalSize, ofPair]

@[simp] theorem hitCount_singleton (k : ℕ × Bool) :
    hitCount E k [c] = if pair E c = k then 1 else 0 := by
  by_cases h : pair E c = k <;> simp [hitCount, ofPair, h]

@[simp] theorem totalSize_singleton (k : ℕ × Bool) :
    totalSize E k [c] = if pair E c = k then c.leakedSize else 0 := by
  by_cases h : pair E c = k <;> simp [totalSize, ofPair, h]

theorem ofPair_eq_nil {k : ℕ × Bool} (hk : k ∉ pairs E seen) : ofPair E k seen = [] :=
  List.filter_eq_nil_iff.mpr fun c hc hck => hk ((mem_pairs E seen).mpr ⟨c, hc, by simpa using hck⟩)

end Spec

/-! ## The loop over the chunks -/

section Run

variable {E : ReportEnv} {seen : List LeakedChunk} {r : LeakReport} {c : LeakedChunk}

/-- The report after the chunks `seen`. -/
structure Describes (E : ReportEnv) (seen : List LeakedChunk) (r : LeakReport) : Prop where
  /-- The leaks are the pairs that have come up. -/
  leaks : r.leaks = leaksOf E (pairs E seen) seen
  /-- The objects are the chunks. -/
  leakedObjects : r.leakedObjects = objectsOf E (pairs E seen) seen
  /-- The next id is the number of pairs. -/
  nextId : r.nextId = (pairs E seen).length
  /-- There is room for the pairs. -/
  length_le : (pairs E seen).length ≤ kMaxLeaksConsidered

theorem describes_nil : Describes E [] {} where
  leaks := rfl
  leakedObjects := by simp [objectsOf]
  nextId := rfl
  length_le := Nat.zero_le _

theorem length_leaksOf (ks : List (ℕ × Bool)) : (leaksOf E ks seen).length = ks.length :=
  List.length_mapIdx

theorem find_eq (hr : r.leaks = leaksOf E (pairs E seen) seen) :
    r.find (E.stackId c.stackTraceId) (decide (c.tag = .kDirectlyLeaked)) =
      (pairs E seen).idxOf (pair E c) := by
  have hmap : r.leaks.map (fun l => (l.stackTraceId, l.isDirectlyLeaked)) = pairs E seen := by
    refine List.ext_getElem (by simp [hr, leaksOf]) fun i h1 h2 => ?_
    simp [hr, leaksOf]
  rw [← hmap, List.idxOf, List.findIdx_map]
  rfl

@[simp] theorem LeakReport.pushObject_leaks (r : LeakReport) (i chunk leakedSize : ℕ) :
    (r.pushObject E i chunk leakedSize).leaks = r.leaks := by
  rw [LeakReport.pushObject]
  split <;> rfl

@[simp] theorem LeakReport.pushObject_nextId (r : LeakReport) (i chunk leakedSize : ℕ) :
    (r.pushObject E i chunk leakedSize).nextId = r.nextId := by
  rw [LeakReport.pushObject]
  split <;> rfl

theorem LeakReport.pushObject_leakedObjects {r : LeakReport} {i : ℕ} (chunk leakedSize : ℕ)
    (hid : (r.leaks.getD i default).id = i) :
    (r.pushObject E i chunk leakedSize).leakedObjects = r.leakedObjects ++
      if E.reportObjects then [⟨i, E.getUserAddr chunk, leakedSize⟩] else [] := by
  rw [LeakReport.pushObject, hid]
  split <;> simp

theorem leaksOf_id {ks : List (ℕ × Bool)} {i : ℕ} (hi : i < ks.length) :
    ((leaksOf E ks seen).getD i default).id = i := by
  simp [leaksOf, hi]

theorem objectsOf_append {ks ks' : List (ℕ × Bool)} (hks : ks <+: ks') (hc : pair E c ∈ ks')
    (hseen : ∀ d ∈ seen, pair E d ∈ ks) :
    objectsOf E ks' (seen ++ [c]) = objectsOf E ks seen ++
      if E.reportObjects then [⟨ks'.idxOf (pair E c), E.getUserAddr c.chunk, c.leakedSize⟩]
      else [] := by
  obtain ⟨t, rfl⟩ := hks
  rcases hobj : E.reportObjects
  · simp [objectsOf, hobj]
  have hold : (seen.filter fun d => pair E d ∈ ks ++ t) = seen.filter fun d => pair E d ∈ ks :=
    List.filter_congr fun d hd => by simp [hseen d hd]
  simp only [objectsOf, hobj, if_true, List.filter_append, List.map_append, hold]
  congr 1
  · refine List.map_congr_left fun d hd => ?_
    rw [List.idxOf_append_of_mem (hseen d (List.mem_of_mem_filter hd))]
  · simp [List.mem_append.mp hc]

/-- A chunk of a known pair is counted in. -/
theorem Describes.hit (h : Describes E seen r) (hc : pair E c ∈ pairs E seen) :
    Describes E (seen ++ [c]) ((r.hit ((pairs E seen).idxOf (pair E c)) c.leakedSize).pushObject E
      ((pairs E seen).idxOf (pair E c)) c.chunk c.leakedSize) := by
  set i := (pairs E seen).idxOf (pair E c) with hi
  have hlt : i < (pairs E seen).length := List.idxOf_lt_length_of_mem hc
  have hleaks : (r.hit i c.leakedSize).leaks = leaksOf E (pairs E seen) (seen ++ [c]) := by
    refine List.ext_getElem (by simp [LeakReport.hit, h.leaks, leaksOf]) fun j h1 h2 => ?_
    have hj : j < (pairs E seen).length := by simpa [leaksOf] using h2
    -- the entry at `j` is the one of the pair of `c` exactly when `j` is its position
    have hpos : i = j ↔ pair E c = (pairs E seen)[j] := by
      constructor
      · rintro rfl
        exact (List.getElem_idxOf hlt).symm
      · intro hck
        rw [hi, hck, (nodup_pairs E seen).idxOf_getElem]
    simp only [LeakReport.hit, h.leaks, leaksOf, List.getElem_modify, List.getElem_mapIdx,
      hitCount_append, totalSize_append]
    by_cases hij : i = j
    · simp [hij, hpos.mp hij]
    · have hne : ¬pair E c = (pairs E seen)[j] := mt hpos.mpr hij
      simp [hij, hne]
  have hobjects : ((r.hit i c.leakedSize).pushObject E i c.chunk c.leakedSize).leakedObjects =
      objectsOf E (pairs E seen) (seen ++ [c]) := by
    rw [LeakReport.pushObject_leakedObjects _ _ (by rw [hleaks]; exact leaksOf_id hlt),
      objectsOf_append (List.prefix_refl _) hc fun d hd => (mem_pairs E seen).mpr ⟨d, hd, rfl⟩,
      ← h.leakedObjects]
    rfl
  rw [← pairs_append_of_mem E seen c hc] at hleaks hobjects
  exact
    { leaks := by rw [LeakReport.pushObject_leaks, hleaks]
      leakedObjects := hobjects
      nextId := by
        rw [LeakReport.pushObject_nextId, pairs_append_of_mem E seen c hc]
        exact h.nextId
      length_le := by rw [pairs_append_of_mem E seen c hc]; exact h.length_le }

/-- A chunk of a new pair is entered, while there is room. -/
theorem Describes.push (h : Describes E seen r) (hc : pair E c ∉ pairs E seen)
    (hroom : (pairs E seen).length ≠ kMaxLeaksConsidered) :
    Describes E (seen ++ [c])
      ((r.pushLeak (pair E c).1 (pair E c).2 c.leakedSize).pushObject E (pairs E seen).length c.chunk
        c.leakedSize) := by
  set r' := r.pushLeak (pair E c).1 (pair E c).2 c.leakedSize with hr'
  have hks := pairs_append_of_notMem E seen c hc
  have hleaks : r'.leaks = leaksOf E (pairs E (seen ++ [c])) (seen ++ [c]) := by
    have hold : leaksOf E (pairs E seen) (seen ++ [c]) = leaksOf E (pairs E seen) seen := by
      refine List.ext_getElem (by simp [leaksOf]) fun j h1 h2 => ?_
      have hj : j < (pairs E seen).length := by simpa [leaksOf] using h2
      have hne : ¬pair E c = (pairs E seen)[j] := fun h => hc (h ▸ List.getElem_mem _)
      simp [leaksOf, hitCount_append, totalSize_append, hne]
    rw [hks, leaksOf, List.mapIdx_append, ← leaksOf, hold, ← h.leaks]
    have hcount : hitCount E (pair E c) seen = 0 := by simp [hitCount, ofPair_eq_nil E seen hc]
    have hsize : totalSize E (pair E c) seen = 0 := by simp [totalSize, ofPair_eq_nil E seen hc]
    simp [hr', LeakReport.pushLeak, hitCount_append, totalSize_append, h.nextId, hcount, hsize]
  have hobjects : (r'.pushObject E (pairs E seen).length c.chunk c.leakedSize).leakedObjects =
      objectsOf E (pairs E (seen ++ [c])) (seen ++ [c]) := by
    have hmem : pair E c ∈ pairs E seen ++ [pair E c] := List.mem_append_right _ List.mem_cons_self
    have hidx : (pairs E seen ++ [pair E c]).idxOf (pair E c) = (pairs E seen).length := by
      rw [List.idxOf_append_of_notMem hc, List.idxOf_cons_self, Nat.add_zero]
    rw [LeakReport.pushObject_leakedObjects _ _
        (by rw [hleaks]; exact leaksOf_id (by simp [hks])), hks,
      objectsOf_append (List.prefix_append _ _) hmem fun d hd => (mem_pairs E seen).mpr ⟨d, hd, rfl⟩,
      hidx, ← h.leakedObjects]
    rfl
  exact
    { leaks := by rw [LeakReport.pushObject_leaks, hleaks]
      leakedObjects := hobjects
      nextId := by
        rw [LeakReport.pushObject_nextId, hks, List.length_append, ← h.nextId]
        rfl
      length_le := by
        have := h.length_le
        rw [hks, List.length_append, List.length_singleton]
        omega }

/-- The tags of leaked chunks. -/
def Leaked (chunks : List LeakedChunk) : Prop :=
  ∀ c ∈ chunks, c.tag = .kDirectlyLeaked ∨ c.tag = .kIndirectlyLeaked

/-- A run of the loop describes a beginning of the chunks: all of them, or those before the first
chunk of a pair that there is no room for. -/
theorem addLeakedChunks_describes (h : Describes E seen r) {chunks : List LeakedChunk}
    (htags : Leaked chunks) : ∃ r' done rest, r.addLeakedChunks E chunks = some r' ∧
      chunks = done ++ rest ∧ Describes E (seen ++ done) r' ∧
      (rest = [] ∨ ∃ c post, rest = c :: post ∧ pair E c ∉ pairs E (seen ++ done) ∧
        (pairs E (seen ++ done)).length = kMaxLeaksConsidered) := by
  induction chunks generalizing seen r with
  | nil => exact ⟨r, [], [], rfl, rfl, by rwa [List.append_nil], .inl rfl⟩
  | cons c chunks ih =>
    have hlen : r.leaks.length = (pairs E seen).length := by rw [h.leaks, length_leaksOf]
    have hfind := find_eq (c := c) h.leaks
    -- what the step leaves describes `seen ++ [c]`, and the rest of the run goes on from there
    have next : ∀ r₁, Describes E (seen ++ [c]) r₁ →
        r.addLeakedChunks E (c :: chunks) = r₁.addLeakedChunks E chunks →
        ∃ r' done rest, r.addLeakedChunks E (c :: chunks) = some r' ∧
          c :: chunks = done ++ rest ∧ Describes E (seen ++ done) r' ∧
          (rest = [] ∨ ∃ c post, rest = c :: post ∧ pair E c ∉ pairs E (seen ++ done) ∧
            (pairs E (seen ++ done)).length = kMaxLeaksConsidered) := by
      intro r₁ h₁ hrun
      obtain ⟨r', done, rest, hr', hsplit, hdesc, hrest⟩ :=
        ih h₁ fun d hd => htags d (List.mem_cons_of_mem c hd)
      rw [List.append_assoc, List.singleton_append] at hdesc hrest
      exact ⟨r', c :: done, rest, hrun.trans hr', by rw [hsplit, List.cons_append], hdesc, hrest⟩
    by_cases hc : pair E c ∈ pairs E seen
    · refine next _ (h.hit hc) ?_
      have hlt : (pairs E seen).idxOf (pair E c) ≠ r.leaks.length := by
        rw [hlen]
        exact (List.idxOf_lt_length_of_mem hc).ne
      simp only [LeakReport.addLeakedChunks, if_pos (htags c List.mem_cons_self), hfind, if_neg hlt]
    · have hnew : (pairs E seen).idxOf (pair E c) = (pairs E seen).length :=
        List.idxOf_eq_length_iff.mpr hc
      by_cases hroom : (pairs E seen).length = kMaxLeaksConsidered
      · refine ⟨r, [], c :: chunks, ?_, rfl, by rwa [List.append_nil],
          .inr ⟨c, chunks, rfl, by rwa [List.append_nil], by rwa [List.append_nil]⟩⟩
        simp only [LeakReport.addLeakedChunks, if_pos (htags c List.mem_cons_self), hfind, hlen,
          if_pos hnew, if_pos hroom]
      · refine next _ (h.push hc hroom) ?_
        simp only [LeakReport.addLeakedChunks, if_pos (htags c List.mem_cons_self), hfind, hlen,
          if_pos hnew, if_neg hroom]
        rw [hnew]
        rfl

end Run

/-! ## The totals -/

section Summary

variable {E : ReportEnv} {r : LeakReport} {ks : List (ℕ × Bool)} {chunks : List LeakedChunk}

theorem map_filter_mapIdx {α β γ : Type*} {p : β → Bool} {q : α → Bool} {g : β → γ} {h : α → γ}
    {f : ℕ → α → β} (hp : ∀ i a, p (f i a) = q a) (hg : ∀ i a, g (f i a) = h a) (l : List α) :
    ((l.mapIdx f).filter p).map g = (l.filter q).map h := by
  induction l generalizing f with
  | nil => rfl
  | cons a l ih =>
    have := ih (f := fun i => f (i + 1)) (fun i => hp (i + 1)) fun i => hg (i + 1)
    rw [List.mapIdx_cons, List.filter_cons, List.filter_cons, hp]
    split <;> simp [hg, this]

theorem printSummary_applySuppressions (suppress : ℕ → ℕ → ℕ → Bool)
    (hr : r.leaks = leaksOf E ks chunks) (hks : ks.length ≤ kMaxLeaksConsidered) :
    (r.applySuppressions suppress).1.printSummary = some (summaryOf E suppress ks chunks) := by
  have hleaks : (r.applySuppressions suppress).1.leaks = ks.mapIdx fun i k =>
      ⟨i, hitCount E k chunks, totalSize E k chunks, k.1, k.2,
        suppress k.1 (hitCount E k chunks) (totalSize E k chunks)⟩ := by
    refine List.ext_getElem (by simp [LeakReport.applySuppressions, hr, leaksOf]) fun i h1 h2 => ?_
    simp only [LeakReport.applySuppressions, hr, leaksOf, List.getElem_map, List.getElem_mapIdx]
    split
    · next hmatch => simp [hmatch]
    · next hmatch => simp [hmatch]
  rw [LeakReport.printSummary, hleaks, List.length_mapIdx, if_pos hks]
  refine congrArg some (Prod.ext (congrArg List.sum ?_) (congrArg List.sum ?_))
  · exact map_filter_mapIdx (by exact fun _ _ => rfl) (by exact fun _ _ => rfl) ks
  · exact map_filter_mapIdx (by exact fun _ _ => rfl) (by exact fun _ _ => rfl) ks

theorem printSummary_reportTopLeaks {n : ℕ} {r' : LeakReport} {t : TopLeaks}
    (h : r.reportTopLeaks E n = some (r', t)) : r'.printSummary = r.printSummary := by
  have hperm : r'.leaks.Perm r.leaks := by
    rw [LeakReport.reportTopLeaks] at h
    split at h
    · obtain ⟨texts, -, heq⟩ := Option.map_eq_some_iff.mp h
      rw [← (Prod.mk.inj heq).1]
      exact Sorting.sortList_perm leakComparator r.leaks
    · exact (Option.some_ne_none _ h.symm).elim
  have hsum (f : Leak → ℕ) : ((r'.leaks.filter fun leak => !leak.isSuppressed).map f).sum =
      ((r.leaks.filter fun leak => !leak.isSuppressed).map f).sum :=
    ((hperm.filter _).map f).sum_eq
  simp only [LeakReport.printSummary, hperm.length_eq, hsum]

end Summary

/-! ## When the report is exact -/

section Exact

variable {E : ReportEnv} {chunks done rest : List LeakedChunk} {r : LeakReport}

/-- No chunk of a pair that there is room for comes after a chunk of one that there is not. -/
def NoneLate (E : ReportEnv) (chunks : List LeakedChunk) : Prop :=
  chunks.Pairwise fun c d => pair E d ∈ considered E chunks → pair E c ∈ considered E chunks

theorem considered_eq (hlen : (pairs E done).length ≤ kMaxLeaksConsidered)
    (hrest : rest = [] ∨ ∃ c post, rest = c :: post ∧ pair E c ∉ pairs E done ∧
      (pairs E done).length = kMaxLeaksConsidered) :
    considered E (done ++ rest) = pairs E done := by
  rcases hrest with rfl | ⟨c, post, rfl, -, hfull⟩
  · rw [List.append_nil]
    exact List.take_of_length_le hlen
  · rw [considered, ← hfull]
    exact (List.prefix_iff_eq_take.mp (pairs_take E done _)).symm

theorem leaksOf_append (ks : List (ℕ × Bool)) :
    leaksOf E ks done = leaksOf E ks (done ++ rest) ↔ ∀ d ∈ rest, pair E d ∉ ks := by
  constructor
  · intro h d hd hk
    obtain ⟨i, hi, hik⟩ := List.getElem_of_mem hk
    have hentry := congrArg (fun l => (l.getD i default).hitCount) h
    have hpos : 0 < hitCount E (pair E d) rest :=
      List.length_pos_of_mem (List.mem_filter.mpr ⟨hd, by simp⟩)
    simp only [leaksOf, hitCount_append, List.getD_eq_getElem?_getD, List.getElem?_mapIdx,
      List.getElem?_eq_getElem hi, hik, Option.map_some, Option.getD_some] at hentry
    omega
  · intro h
    refine List.ext_getElem (by simp [leaksOf]) fun i h1 h2 => ?_
    have hi : i < ks.length := by simpa [leaksOf] using h1
    have hnil : ofPair E ks[i] rest = [] := List.filter_eq_nil_iff.mpr fun d hd hdk =>
      h d hd (of_decide_eq_true hdk ▸ List.getElem_mem hi)
    have hcount : hitCount E ks[i] rest = 0 := by rw [hitCount, hnil, List.length_nil]
    have hsize : totalSize E ks[i] rest = 0 := by rw [totalSize, hnil, List.map_nil, List.sum_nil]
    simp [leaksOf, hitCount_append, totalSize_append, hcount, hsize]

/-- The report that a run leaves is exact just when no chunk of a pair that there is room for comes
too late. -/
theorem addLeakedChunks_exact (htags : Leaked chunks)
    (h : ({} : LeakReport).addLeakedChunks E chunks = some r) :
    Exact E chunks r ↔ NoneLate E chunks := by
  obtain ⟨r', done, rest, hr', hsplit, hdesc, hrest⟩ :=
    addLeakedChunks_describes (describes_nil (E := E)) htags
  obtain rfl : r = r' := Option.some.inj (h.symm.trans hr')
  subst hsplit
  rw [List.nil_append] at hdesc hrest
  have hks := considered_eq hdesc.length_le hrest
  have hdone : ∀ c ∈ done, pair E c ∈ pairs E done := fun c hc => (mem_pairs E done).mpr ⟨c, hc, rfl⟩
  -- both sides say that no chunk of a considered pair is left
  suffices hrest' : (∀ d ∈ rest, pair E d ∉ pairs E done) ↔ NoneLate E (done ++ rest) by
    rw [← hrest']
    constructor
    · intro hexact
      rw [← leaksOf_append, ← hdesc.leaks, ← hks]
      exact hexact.leaks
    · intro hnone
      have hleaks : r.leaks = leaksOf E (considered E (done ++ rest)) (done ++ rest) := by
        rw [hks, ← (leaksOf_append _).mpr hnone]
        exact hdesc.leaks
      have hobjects : r.leakedObjects = objectsOf E (pairs E done) (done ++ rest) := by
        have hnil : rest.filter (fun c => pair E c ∈ pairs E done) = [] :=
          List.filter_eq_nil_iff.mpr fun d hd hdk => hnone d hd (of_decide_eq_true hdk)
        rw [hdesc.leakedObjects, objectsOf, objectsOf, List.filter_append, hnil, List.append_nil]
      have hlen : (considered E (done ++ rest)).length ≤ kMaxLeaksConsidered := by
        rw [hks]
        exact hdesc.length_le
      exact
        { leaks := hleaks
          leakedObjects := by rw [hks, hobjects]
          summary := fun suppress => printSummary_applySuppressions suppress hleaks hlen
          summary_reportTopLeaks := fun suppress n r' t hr' =>
            (printSummary_reportTopLeaks hr').trans
              (printSummary_applySuppressions suppress hleaks hlen) }
  rw [NoneLate, hks, List.pairwise_append]
  constructor
  · intro hnone
    exact ⟨List.pairwise_of_forall_mem_list fun c hc _ _ _ => hdone c hc,
      List.pairwise_of_forall_mem_list fun _ _ d hd hk => absurd hk (hnone d hd),
      fun c hc _ _ _ => hdone c hc⟩
  · rintro ⟨-, hpair, -⟩ d hd hk
    rcases hrest with rfl | ⟨c, post, rfl, hc, -⟩
    · exact absurd hd List.not_mem_nil
    rcases List.mem_cons.mp hd with rfl | hpost
    · exact hc hk
    · exact hc ((List.pairwise_cons.mp hpair).1 d hpost hk)

/-- `AddLeakedChunks` fails no check, and its report is exact if and only if no chunk of one of the
first `kMaxLeaksConsidered` pairs comes after a chunk of another pair. -/
theorem addLeakedChunks_exact_iff (E : ReportEnv) (chunks : List LeakedChunk)
    (htags : Leaked chunks) :
    ∃ r, ({} : LeakReport).addLeakedChunks E chunks = some r ∧
      (Exact E chunks r ↔ NoneLate E chunks) := by
  obtain ⟨r, done, rest, hr, -, -, -⟩ := addLeakedChunks_describes (describes_nil (E := E)) htags
  exact ⟨r, hr, addLeakedChunks_exact htags hr⟩

/-- An environment without `resolution`, in which the stacks are numbered. -/
def plainEnv : ReportEnv where
  resolution := 0
  reportObjects := true
  stackDepotGet := fun id => { tag := id }
  stackDepotPut := StackTrace.tag
  getUserAddr := id

/-- Two chunks of one stack. -/
theorem addLeakedChunks_exact_iff_two :
    ∃ r, ({} : LeakReport).addLeakedChunks plainEnv
        [⟨16, 1, 8, .kDirectlyLeaked⟩, ⟨32, 1, 8, .kDirectlyLeaked⟩] = some r ∧
      (Exact plainEnv [⟨16, 1, 8, .kDirectlyLeaked⟩, ⟨32, 1, 8, .kDirectlyLeaked⟩] r ↔
        NoneLate plainEnv [⟨16, 1, 8, .kDirectlyLeaked⟩, ⟨32, 1, 8, .kDirectlyLeaked⟩]) :=
  addLeakedChunks_exact_iff plainEnv _ (by simp [Leaked])

/-- As many chunks of as many stacks as there is room for. -/
def fullChunks : List LeakedChunk :=
  (List.range kMaxLeaksConsidered).map fun i => ⟨16 * (i + 1), i + 1, 8, .kDirectlyLeaked⟩

/-- After them, a chunk of one more stack, and then one of the first stack. -/
def lateChunks : List LeakedChunk :=
  fullChunks ++ [⟨16 * (kMaxLeaksConsidered + 1), kMaxLeaksConsidered + 1, 8, .kDirectlyLeaked⟩,
    ⟨16 * (kMaxLeaksConsidered + 2), 1, 8, .kDirectlyLeaked⟩]

/-- The chunk that comes last is left out of the entry of its stack. -/
theorem addLeakedChunks_lateChunks : Leaked lateChunks ∧
    ¬∃ r, ({} : LeakReport).addLeakedChunks plainEnv lateChunks = some r ∧
      Exact plainEnv lateChunks r := by
  have htags : Leaked lateChunks := by
    intro c hc
    rcases List.mem_append.mp hc with hc | hc
    · obtain ⟨i, -, rfl⟩ := List.mem_map.mp hc
      exact .inl rfl
    · rcases List.mem_pair.mp hc with rfl | rfl <;> exact .inl rfl
  refine ⟨htags, ?_⟩
  rintro ⟨r, hr, hexact⟩
  have hmem : ∀ n, (n, true) ∈ pairs plainEnv fullChunks ↔ ∃ i < kMaxLeaksConsidered, i + 1 = n := by
    intro n
    simp [mem_pairs, fullChunks, pair, plainEnv, ReportEnv.stackId]
  have hlen : (pairs plainEnv fullChunks).length = kMaxLeaksConsidered := by
    have hnodup : (fullChunks.map (pair plainEnv)).Nodup := by
      rw [fullChunks, List.map_map]
      exact List.nodup_range.map fun i j hij => by simpa [pair, plainEnv, ReportEnv.stackId] using hij
    have hperm : (pairs plainEnv fullChunks).Perm (fullChunks.map (pair plainEnv)) :=
      (List.perm_ext_iff_of_nodup (nodup_pairs _ _) hnodup).mpr fun _ => List.mem_eraseDups
    rw [hperm.length_eq, List.length_map, fullChunks, List.length_map, List.length_range]
  have hlast : (kMaxLeaksConsidered + 1, true) ∉ pairs plainEnv fullChunks := fun h => by
    obtain ⟨i, hi, hik⟩ := (hmem _).mp h
    omega
  have hfirst : (1, true) ∈ pairs plainEnv fullChunks :=
    (hmem 1).mpr ⟨0, Nat.lt_of_sub_pos (by decide), rfl⟩
  have hks : considered plainEnv lateChunks = pairs plainEnv fullChunks :=
    considered_eq hlen.le (.inr ⟨_, _, rfl, hlast, hlen⟩)
  have hnone := (addLeakedChunks_exact htags hr).mp hexact
  rw [NoneLate, hks, lateChunks, List.pairwise_append] at hnone
  exact hlast (List.rel_of_pairwise_cons hnone.2.1 (List.mem_singleton_self _) hfirst)

end Exact

end Tasan.Lsan
