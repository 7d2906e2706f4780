import Tasan.Fuel
import Tasan.Search

/-!
# The cycle check of the adjacency-list detector

`CycleCheck` of `sanitizer_deadlock_detector2.cpp` looks for a chain of links from a mutex back to it. The links
that are still to be followed are in `pending`, where the marker `kEndId` lies under the links of each mutex
of the current path. A link whose sequence number is not the one of its mutex is stale.

The loop is a depth-first search with a stack: `cycleCheckLoop_explore` says that it does what the search does,
or writes outside `pending` when the search needs more room than that. `cycleCheck_spec` is what the search
finds.
-/

namespace Tasan.DD

/-! ## The table of mutexes -/

/-- What goes wrong. -/
inductive Fault
  /-- A `CHECK` fails. -/
  | check
  /-- An element outside an array is accessed. -/
  | outside
  deriving DecidableEq

/-- `kEndId`. -/
def kEndId : ℕ := 2^32 - 2

/-- `kMaxLink`. -/
def kMaxLink : ℕ := 8

/-- `kMaxMutex`. -/
def kMaxMutex : ℕ := 1024 * 1024

/-- `Link`. -/
structure Link where
  id : ℕ
  seq : BitVec 32
  tid : BitVec 32
  stk0 : BitVec 32
  stk1 : BitVec 32
  deriving DecidableEq

/-- `Link(kEndId)`. -/
def Link.endMarker : Link := ⟨kEndId, 0, 0, 0, 0⟩

/-- `MutexState`. -/
structure MutexState where
  seq : BitVec 32
  /-- `link`, the first `nlink` of them. -/
  link : List Link
  /-- There is room for the links. -/
  link_le : link.length ≤ kMaxLink

/-- The mutex table, whose links lead to mutexes of the table. -/
structure Table where
  getMutex : ℕ → MutexState
  /-- The links are ids of mutexes. -/
  id_lt : ∀ id, ∀ l ∈ (getMutex id).link, l.id < kMaxMutex

/-! ## The check -/

/-- `pending[npending++] = link`, for a list that has the last element in front. -/
def pushPending (size : ℕ) (pending : List Link) (link : Link) : Outcome Fault (List Link) :=
  if pending.length < size then .returned (link :: pending) else .stopped .outside

/-- `path[npath++] = link`. -/
def pushPath (size : ℕ) (path : List Link) (link : Link) : Outcome Fault (List Link) :=
  if path.length < size then .returned (path ++ [link]) else .stopped .outside

variable (size : ℕ) (T : Table) (m : ℕ)

/-- The loop of `CycleCheck`, with arrays of `size` elements. It returns the path that is reported. -/
def cycleCheckLoop :
    ℕ → Finset ℕ → List Link → List Link → Outcome Fault (Option (List Link))
  | 0, _, _, _ => .unfinished
  | _ + 1, _, _, [] => .returned none
  | fuel + 1, visited, path, link :: pending =>
    if link.id = kEndId then cycleCheckLoop fuel visited path.dropLast pending
    else if kMaxMutex ≤ link.id then .stopped .outside
    else if link.id ∈ visited then cycleCheckLoop fuel visited path pending
    else if (T.getMutex link.id).seq ≠ link.seq then cycleCheckLoop fuel visited path pending
    else if (T.getMutex link.id).link.length = 0 then
      cycleCheckLoop fuel (insert link.id visited) path pending
    else do
      let path ← pushPath size path link
      let pending ← pushPending size pending .endMarker
      if link.id = m then .returned (some path)
      else
        let pending ← (T.getMutex link.id).link.foldlM (pushPending size) pending
        cycleCheckLoop fuel (insert link.id visited) path pending

/-- `CycleCheck`. -/
def cycleCheck (fuel : ℕ) : Outcome Fault (Option (List Link)) := do
  let pending ← (T.getMutex m).link.foldlM (pushPending size) []
  cycleCheckLoop size T m fuel ∅ [] pending

/-! ## The graph of the links -/

/-- The links of the table, the last one of each mutex first. -/
def Table.graph (T : Table) : Search.Graph ℕ Link where
  out id := (T.getMutex id).link.reverse
  target := Link.id
  live link := (T.getMutex link.id).seq = link.seq

/-- A mutex has a live link to another. -/
def Table.LiveLink (T : Table) (a b : ℕ) : Prop :=
  ∃ l ∈ (T.getMutex a).link, l.id = b ∧ l.seq = (T.getMutex b).seq

/-- Live links that go from a mutex around to itself and meet no mutex twice. -/
structure IsCycle (T : Table) (m : ℕ) (path : List Link) : Prop where
  /-- The mutexes are distinct. -/
  nodup : (path.map Link.id).Nodup
  /-- The links are live. -/
  live : ∀ l ∈ path, l.seq = (T.getMutex l.id).seq
  /-- The first link is one of the mutex. -/
  head : ∃ l ∈ path.head?, l ∈ (T.getMutex m).link
  /-- Each further link is one of the mutex that the link before it leads to. -/
  chain : path.IsChain fun a b => b ∈ (T.getMutex a.id).link
  /-- The last link leads back. -/
  last : path.getLast?.map Link.id = some m

variable {size T m}

theorem step_graph : T.graph.Step = T.LiveLink := by
  funext a b
  refine propext ⟨?_, ?_⟩
  · rintro ⟨l, hl, hlive, rfl⟩
    exact ⟨l, List.mem_reverse.mp hl, rfl, (of_decide_eq_true hlive).symm⟩
  · rintro ⟨l, hl, rfl, hseq⟩
    exact ⟨l, List.mem_reverse.mpr hl, decide_eq_true hseq.symm, rfl⟩

/-- A path of the search from a mutex to itself is a cycle. -/
theorem isCycle_of_isPath {path : List Link}
    (h : Search.IsPath T.graph m (T.graph.out m) path) : IsCycle T m path := by
  -- The mutex from which the path starts may be another one.
  have hgen : ∀ {as path}, Search.IsPath T.graph m as path →
      (path.map Link.id).Nodup ∧ (∀ l ∈ path, l.seq = (T.getMutex l.id).seq) ∧
        (∃ l ∈ path.head?, l ∈ as) ∧ path.IsChain (fun a b => b ∈ (T.getMutex a.id).link) ∧
        path.getLast?.map Link.id = some m := by
    intro as path h
    induction h with
    | last hmem hlive hgoal =>
      refine ⟨List.nodup_singleton _, fun l hl => ?_, ⟨_, rfl, hmem⟩, .singleton _, congrArg some hgoal⟩
      rw [List.mem_singleton.mp hl]
      exact (of_decide_eq_true hlive).symm
    | @cons as a p hmem hlive hnew htail ih =>
      obtain ⟨hnodup, hall, ⟨l, hl, hout⟩, hchain, hlast⟩ := ih
      refine ⟨List.nodup_cons.mpr ⟨hnew, hnodup⟩, fun x hx => ?_, ⟨a, rfl, hmem⟩, ?_, ?_⟩
      · rcases List.mem_cons.mp hx with rfl | hx
        · exact (of_decide_eq_true hlive).symm
        · exact hall x hx
      · refine List.isChain_cons.mpr ⟨fun b hb => ?_, hchain⟩
        rw [Option.mem_def.mp hl] at hb
        exact Option.some.inj hb ▸ List.mem_reverse.mp hout
      · rcases p with _ | ⟨b, p⟩
        · exact absurd hl (Option.not_mem_none l)
        · rw [List.getLast?_cons_cons]
          exact hlast
  obtain ⟨hnodup, hlive, ⟨l, hl, hmem⟩, hchain, hlast⟩ := hgen h
  exact ⟨hnodup, hlive, ⟨l, hl, List.mem_reverse.mp hmem⟩, hchain, hlast⟩

/-! ## The loop is the search -/

theorem foldlM_pushPending (links pending : List Link) (h : pending.length ≤ size) :
    links.foldlM (pushPending size) pending =
      if pending.length + links.length ≤ size then .returned (links.reverse ++ pending)
      else .stopped .outside := by
  induction links generalizing pending with
  | nil => simp [h]
  | cons l links ih =>
    rw [List.foldlM_cons, pushPending]
    by_cases hroom : pending.length < size
    · rw [if_pos hroom, Outcome.returned_bind, ih (l :: pending) hroom]
      simp only [List.length_cons, List.reverse_cons, List.append_assoc, List.singleton_append,
        Nat.add_assoc, Nat.add_comm 1]
    · rw [if_neg hroom, Outcome.stopped_bind, if_neg]
      rw [List.length_cons]
      omega

theorem ne_kEndId {id : ℕ} (h : id < kMaxMutex) : id ≠ kEndId := by
  unfold kMaxMutex at h
  unfold kEndId
  omega

section

variable {a : Link} {visited : Finset ℕ} {path pending : List Link}

theorem round_skip (ha : a.id < kMaxMutex) (h : a.id ∈ visited ∨ T.graph.live a = false) (fuel : ℕ) :
    cycleCheckLoop size T m (fuel + 1) visited path (a :: pending) =
      cycleCheckLoop size T m fuel visited path pending := by
  rw [cycleCheckLoop, if_neg (ne_kEndId ha), if_neg (Nat.not_le.mpr ha)]
  rcases h with hmem | hdead
  · rw [if_pos hmem]
  · rw [if_pos (of_decide_eq_false hdead), ite_self]

theorem round_leaf (ha : a.id < kMaxMutex) (hnew : a.id ∉ visited) (hlive : T.graph.live a = true)
    (hout : T.graph.out a.id = []) (fuel : ℕ) :
    cycleCheckLoop size T m (fuel + 1) visited path (a :: pending) =
      cycleCheckLoop size T m fuel (insert a.id visited) path pending := by
  have hseq : (T.getMutex a.id).seq = a.seq := of_decide_eq_true hlive
  have hempty : (T.getMutex a.id).link = [] := List.reverse_eq_nil_iff.mp hout
  rw [cycleCheckLoop, if_neg (ne_kEndId ha), if_neg (Nat.not_le.mpr ha), if_neg hnew,
    if_neg (not_not.mpr hseq), if_pos (by rw [hempty, List.length_nil])]

theorem round_enter (ha : a.id < kMaxMutex) (hnew : a.id ∉ visited) (hlive : T.graph.live a = true)
    (hout : T.graph.out a.id ≠ []) (hpath : path.length < size) (hpending : pending.length < size)
    (fuel : ℕ) :
    cycleCheckLoop size T m (fuel + 1) visited path (a :: pending) =
      if a.id = m then .returned (some (path ++ [a]))
      else (T.getMutex a.id).link.foldlM (pushPending size) (.endMarker :: pending) >>=
        cycleCheckLoop size T m fuel (insert a.id visited) (path ++ [a]) := by
  have hseq : (T.getMutex a.id).seq = a.seq := of_decide_eq_true hlive
  have hne : (T.getMutex a.id).link.length ≠ 0 := fun h =>
    hout (List.reverse_eq_nil_iff.mpr (List.length_eq_zero_iff.mp h))
  rw [cycleCheckLoop, if_neg (ne_kEndId ha), if_neg (Nat.not_le.mpr ha), if_neg hnew,
    if_neg (not_not.mpr hseq), if_neg hne, pushPath, if_pos hpath, Outcome.returned_bind, pushPending,
    if_pos hpending, Outcome.returned_bind]

theorem round_into (ha : a.id < kMaxMutex) (hnew : a.id ∉ visited) (hlive : T.graph.live a = true)
    (hout : T.graph.out a.id ≠ []) (hgoal : a.id ≠ m) (hpath : path.length < size)
    (hpending : pending.length < size) (fuel : ℕ) :
    cycleCheckLoop size T m (fuel + 1) visited path (a :: pending) =
      if pending.length + 1 + (T.graph.out a.id).length ≤ size then
        cycleCheckLoop size T m fuel (insert a.id visited) (path ++ [a])
          (T.graph.out a.id ++ .endMarker :: pending)
      else .stopped .outside := by
  have hlen : (T.graph.out a.id).length = (T.getMutex a.id).link.length := List.length_reverse
  rw [round_enter ha hnew hlive hout hpath hpending, if_neg hgoal, foldlM_pushPending _ _ hpending, hlen,
    List.length_cons]
  split_ifs with hroom
  · rfl
  · rfl

theorem round_marker (fuel : ℕ) :
    cycleCheckLoop size T m (fuel + 1) visited path (.endMarker :: pending) =
      cycleCheckLoop size T m fuel visited path.dropLast pending := by
  have hid : Link.endMarker.id = kEndId := rfl
  rw [cycleCheckLoop, if_pos hid]

end

/-- The state of the loop in which the arrays are known to be in range: the path is among the visited mutexes,
which are mutexes of the table. -/
structure InRange (visited : Finset ℕ) (path : List Link) : Prop where
  /-- The path is not longer than what was visited. -/
  length_le : path.length ≤ visited.card
  /-- Mutexes of the table were visited. -/
  subset : visited ⊆ Finset.range kMaxMutex

namespace InRange

variable {visited visited' : Finset ℕ} {path : List Link} {a : Link}

theorem insert (h : InRange visited path) (ha : a.id < kMaxMutex) : InRange (insert a.id visited) path :=
  ⟨h.length_le.trans (Finset.card_le_card (Finset.subset_insert _ _)),
    Finset.insert_subset (Finset.mem_range.mpr ha) h.subset⟩

theorem push (h : InRange visited path) (ha : a.id < kMaxMutex) (hnew : a.id ∉ visited) :
    InRange (Insert.insert a.id visited) (path ++ [a]) := by
  refine ⟨?_, (h.insert ha).subset⟩
  rw [List.length_append, List.length_singleton, Finset.card_insert_of_notMem hnew]
  exact Nat.add_le_add_right h.length_le 1

theorem length_lt (h : InRange visited path) (ha : a.id < kMaxMutex) (hnew : a.id ∉ visited) :
    path.length < kMaxMutex := by
  have hle := (h.push ha hnew).length_le.trans (Finset.card_le_card (h.push ha hnew).subset)
  rw [List.length_append, List.length_singleton, Finset.card_range] at hle
  omega

theorem explore {as : List Link} {r : Option (List Link)} {n : ℕ} (h : InRange visited path)
    (has : ∀ a ∈ as, a.id < kMaxMutex) (hex : Search.Explore T.graph m visited as visited' r n) :
    InRange visited' path := by
  refine ⟨h.length_le.trans (Finset.card_le_card hex.mono), ?_⟩
  have hout : ∀ id, ∀ a ∈ T.graph.out id, a.id < kMaxMutex := fun id a ha =>
    T.id_lt id a (List.mem_reverse.mp ha)
  have hsub := h.subset
  clear h
  induction hex with
  | nil => exact hsub
  | skip _ _ ih => exact ih (fun b hb => has b (List.mem_cons_of_mem _ hb)) hsub
  | @leaf _ a _ _ _ _ _ _ _ _ ih =>
    exact ih (fun b hb => has b (List.mem_cons_of_mem _ hb))
      (Finset.insert_subset (Finset.mem_range.mpr (has a List.mem_cons_self)) hsub)
  | @goal _ a _ => exact Finset.insert_subset (Finset.mem_range.mpr (has a List.mem_cons_self)) hsub
  | @found _ a _ _ _ _ _ _ _ _ _ ih =>
    exact ih (hout a.id) (Finset.insert_subset (Finset.mem_range.mpr (has a List.mem_cons_self)) hsub)
  | @back _ a _ _ _ _ _ _ _ _ _ _ _ _ ihin ih =>
    exact ih (fun b hb => has b (List.mem_cons_of_mem _ hb))
      (ihin (hout a.id) (Finset.insert_subset (Finset.mem_range.mpr (has a List.mem_cons_self)) hsub))

end InRange

/-- What the loop does after a search: it goes on with the links below those of the search when nothing was found,
and otherwise returns the longer path. -/
def afterSearch (size : ℕ) (T : Table) (m fuel : ℕ) (visited : Finset ℕ) (path base : List Link) :
    Option (List Link) → Outcome Fault (Option (List Link))
  | none => cycleCheckLoop size T m fuel visited path base
  | some p => .returned (some (path ++ p))

/-- The rounds from a state on do what a search does, when `pending` has room for it. -/
theorem cycleCheckLoop_explore (hsize : kMaxMutex ≤ size) {visited visited' : Finset ℕ}
    {as : List Link} {r : Option (List Link)} {n : ℕ}
    (hex : Search.Explore T.graph m visited as visited' r n) (has : ∀ a ∈ as, a.id < kMaxMutex)
    {path : List Link} (hrange : InRange visited path) (base : List Link)
    (hroom : base.length + n ≤ size) :
    ∃ k, ∀ fuel, cycleCheckLoop size T m (fuel + k) visited path (as ++ base) =
      afterSearch size T m fuel visited' path base r := by
  have hout : ∀ id, ∀ a ∈ T.graph.out id, a.id < kMaxMutex := fun id a ha =>
    T.id_lt id a (List.mem_reverse.mp ha)
  induction hex generalizing path base with
  | nil => exact ⟨0, fun _ => rfl⟩
  | @skip visited a as visited' r n hskip hrest ih =>
    obtain ⟨k, hk⟩ := ih (fun b hb => has b (List.mem_cons_of_mem _ hb)) hrange base (by omega)
    exact ⟨k + 1, fun fuel => (round_skip (has a List.mem_cons_self) hskip (fuel + k)).trans (hk fuel)⟩
  | @leaf visited a as visited' r n hnew hlive hempty hrest ih =>
    have ha := has a List.mem_cons_self
    obtain ⟨k, hk⟩ := ih (fun b hb => has b (List.mem_cons_of_mem _ hb)) (hrange.insert ha) base (by omega)
    exact ⟨k + 1, fun fuel => (round_leaf ha hnew hlive hempty (fuel + k)).trans (hk fuel)⟩
  | @goal visited a as hnew hlive hne hgoal =>
    have ha := has a List.mem_cons_self
    refine ⟨1, fun fuel => ?_⟩
    rw [List.cons_append, round_enter ha hnew hlive hne ((hrange.length_lt ha hnew).trans_le hsize)
      (by rw [List.length_append]; omega), if_pos (show a.id = m from hgoal)]
    rfl
  | @found visited a as visited' p n hnew hlive hne hgoal hin ih =>
    have ha := has a List.mem_cons_self
    have hlen : (T.graph.out a.id).length ≤ n := hin.length_le
    obtain ⟨k, hk⟩ := ih (hout a.id) (hrange.push ha hnew) (.endMarker :: (as ++ base)) (by
      rw [List.length_cons, List.length_append]
      omega)
    refine ⟨k + 1, fun fuel => ?_⟩
    rw [List.cons_append, ← Nat.add_assoc, round_into ha hnew hlive hne hgoal
      ((hrange.length_lt ha hnew).trans_le hsize) (by rw [List.length_append]; omega),
      if_pos (by rw [List.length_append]; omega)]
    refine (hk fuel).trans ?_
    rw [afterSearch, afterSearch, List.append_assoc, List.singleton_append]
  | @back visited a as visited' visited'' r n n' hnew hlive hne hgoal hin hrest ihin ih =>
    have ha := has a List.mem_cons_self
    have hlen : (T.graph.out a.id).length ≤ n := hin.length_le
    obtain ⟨k, hk⟩ := ihin (hout a.id) (hrange.push ha hnew) (.endMarker :: (as ++ base)) (by
      rw [List.length_cons, List.length_append]
      omega)
    obtain ⟨k', hk'⟩ := ih (fun b hb => has b (List.mem_cons_of_mem _ hb))
      ((hrange.insert ha).explore (hout a.id) hin) base (by omega)
    refine ⟨k' + 1 + k + 1, fun fuel => ?_⟩
    rw [List.cons_append, show fuel + (k' + 1 + k + 1) = fuel + k' + 1 + k + 1 by omega,
      round_into ha hnew hlive hne hgoal ((hrange.length_lt ha hnew).trans_le hsize)
      (by rw [List.length_append]; omega), if_pos (by rw [List.length_append]; omega)]
    refine (hk (fuel + k' + 1)).trans ?_
    rw [afterSearch, round_marker, List.dropLast_concat]
    exact hk' fuel

/-- When `pending` has no room for the search, the rounds end outside of it. -/
theorem cycleCheckLoop_outside (hsize : kMaxMutex ≤ size) {visited visited' : Finset ℕ}
    {as : List Link} {r : Option (List Link)} {n : ℕ}
    (hex : Search.Explore T.graph m visited as visited' r n) (has : ∀ a ∈ as, a.id < kMaxMutex)
    {path : List Link} (hrange : InRange visited path) (base : List Link)
    (hfits : base.length + as.length ≤ size) (hroom : size < base.length + n) :
    ∃ k, ∀ fuel, cycleCheckLoop size T m (fuel + k) visited path (as ++ base) = .stopped .outside := by
  have hout : ∀ id, ∀ a ∈ T.graph.out id, a.id < kMaxMutex := fun id a ha =>
    T.id_lt id a (List.mem_reverse.mp ha)
  -- The round at a mutex, whose own search has no room.
  have hinto : ∀ {visited : Finset ℕ} {a : Link} {as base path : List Link},
      a.id < kMaxMutex → a.id ∉ visited → T.graph.live a = true → T.graph.out a.id ≠ [] → a.id ≠ m →
      InRange visited path → base.length + (as.length + 1) ≤ size →
      (base.length + (as.length + 1 + (T.graph.out a.id).length) ≤ size →
        ∃ k, ∀ fuel, cycleCheckLoop size T m (fuel + k) (insert a.id visited) (path ++ [a])
          (T.graph.out a.id ++ .endMarker :: (as ++ base)) = .stopped .outside) →
      ∃ k, ∀ fuel, cycleCheckLoop size T m (fuel + k) visited path (a :: as ++ base) =
        .stopped .outside := by
    intro visited a as base path ha hnew hlive hne hgoal hrange hfits hin
    have hpending : (as ++ base).length < size := by rw [List.length_append]; omega
    have hround := round_into ha hnew hlive hne hgoal ((hrange.length_lt ha hnew).trans_le hsize) hpending
    by_cases hpush : base.length + (as.length + 1 + (T.graph.out a.id).length) ≤ size
    · obtain ⟨k, hk⟩ := hin hpush
      refine ⟨k + 1, fun fuel => ?_⟩
      rw [List.cons_append, ← Nat.add_assoc, hround, if_pos (by rw [List.length_append]; omega)]
      exact hk fuel
    · refine ⟨1, fun fuel => ?_⟩
      rw [List.cons_append, hround, if_neg (by rw [List.length_append]; omega)]
  induction hex generalizing path base with
  | nil => exact absurd hroom (by omega)
  | @skip visited a as visited' r n hskip hrest ih =>
    rw [List.length_cons] at hfits
    obtain ⟨k, hk⟩ := ih (fun b hb => has b (List.mem_cons_of_mem _ hb)) hrange base (by omega) (by omega)
    exact ⟨k + 1, fun fuel => (round_skip (has a List.mem_cons_self) hskip (fuel + k)).trans (hk fuel)⟩
  | @leaf visited a as visited' r n hnew hlive hempty hrest ih =>
    have ha := has a List.mem_cons_self
    rw [List.length_cons] at hfits
    obtain ⟨k, hk⟩ := ih (fun b hb => has b (List.mem_cons_of_mem _ hb)) (hrange.insert ha) base (by omega)
      (by omega)
    exact ⟨k + 1, fun fuel => (round_leaf ha hnew hlive hempty (fuel + k)).trans (hk fuel)⟩
  | goal => exact absurd hroom (by rw [List.length_cons] at hfits; omega)
  | @found visited a as visited' p n hnew hlive hne hgoal hin ih =>
    have ha := has a List.mem_cons_self
    rw [List.length_cons] at hfits
    refine hinto ha hnew hlive hne hgoal hrange hfits fun hpush => ?_
    exact ih (hout a.id) (hrange.push ha hnew) _
      (by rw [show T.graph.target a = a.id from rfl, List.length_cons, List.length_append]; omega)
      (by rw [List.length_cons, List.length_append]; omega)
  | @back visited a as visited' visited'' r n n' hnew hlive hne hgoal hin hrest ihin ih =>
    have ha := has a List.mem_cons_self
    rw [List.length_cons] at hfits
    by_cases hhere : base.length + (as.length + 1 + n) ≤ size
    · -- The search of the mutex has room, and what comes after it has none.
      obtain ⟨k, hk⟩ := cycleCheckLoop_explore hsize hin (hout a.id) (hrange.push ha hnew)
        (.endMarker :: (as ++ base)) (by rw [List.length_cons, List.length_append]; omega)
      obtain ⟨k', hk'⟩ := ih (fun b hb => has b (List.mem_cons_of_mem _ hb))
        ((hrange.insert ha).explore (hout a.id) hin) base (by omega) (by omega)
      have hlen : (T.graph.out a.id).length ≤ n := hin.length_le
      refine ⟨k' + 1 + k + 1, fun fuel => ?_⟩
      rw [List.cons_append, show fuel + (k' + 1 + k + 1) = fuel + k' + 1 + k + 1 by omega,
        round_into ha hnew hlive hne hgoal ((hrange.length_lt ha hnew).trans_le hsize)
        (by rw [List.length_append]; omega), if_pos (by rw [List.length_append]; omega)]
      refine (hk (fuel + k' + 1)).trans ?_
      rw [afterSearch, round_marker, List.dropLast_concat]
      exact hk' fuel
    · refine hinto ha hnew hlive hne hgoal hrange hfits fun hpush => ?_
      exact ihin (hout a.id) (hrange.push ha hnew) _
        (by rw [show T.graph.target a = a.id from rfl, List.length_cons, List.length_append]; omega)
        (by rw [List.length_cons, List.length_append]; omega)

/-! ## The result -/

theorem graph_target_lt (T : Table) :
    ∀ x ∈ Finset.range kMaxMutex, ∀ a ∈ T.graph.out x, T.graph.target a ∈ Finset.range kMaxMutex :=
  fun x _ a ha => Finset.mem_range.mpr (T.id_lt x a (List.mem_reverse.mp ha))

/-- The check does what the search does, and goes outside `pending` when there is no room for that. -/
theorem cycleCheck_explore (hsize : kMaxMutex ≤ size) {visited : Finset ℕ} {r : Option (List Link)}
    {n : ℕ} (hex : Search.Explore T.graph m ∅ (T.graph.out m) visited r n) :
    ∃ k, ∀ fuel ≥ k, cycleCheck size T m fuel = if n ≤ size then .returned r else .stopped .outside := by
  have hout : ∀ a ∈ T.graph.out m, a.id < kMaxMutex := fun a ha => T.id_lt m a (List.mem_reverse.mp ha)
  have hrange : InRange ∅ [] := ⟨le_rfl, Finset.empty_subset _⟩
  have hfew : (T.getMutex m).link.length ≤ size :=
    ((T.getMutex m).link_le.trans (by decide)).trans hsize
  have hpush : (T.getMutex m).link.foldlM (pushPending size) [] = .returned (T.graph.out m ++ []) := by
    rw [foldlM_pushPending _ _ (Nat.zero_le size), if_pos (by rw [List.length_nil]; omega)]
    rfl
  by_cases hn : n ≤ size
  · obtain ⟨k, hk⟩ := cycleCheckLoop_explore hsize hex hout hrange [] (by rw [List.length_nil]; omega)
    refine ⟨k + 1, fun fuel hfuel => ?_⟩
    obtain ⟨f, rfl⟩ : ∃ f, fuel = f + 1 + k := ⟨fuel - 1 - k, by omega⟩
    rw [cycleCheck, hpush, Outcome.returned_bind, hk, if_pos hn]
    cases r with
    | none => rw [afterSearch, cycleCheckLoop]
    | some p => rw [afterSearch, List.nil_append]
  · obtain ⟨k, hk⟩ := cycleCheckLoop_outside hsize hex hout hrange [] (by
      have : (T.graph.out m).length = (T.getMutex m).link.length := List.length_reverse
      rw [List.length_nil]
      omega) (by rw [List.length_nil]; omega)
    refine ⟨k, fun fuel hfuel => ?_⟩
    obtain ⟨f, rfl⟩ : ∃ f, fuel = f + k := ⟨fuel - k, by omega⟩
    rw [cycleCheck, hpush, Outcome.returned_bind, hk, if_neg hn]

/-- With room for nine elements a mutex, the check ends, and it reports a cycle just when live links lead from the
mutex back to it. -/
theorem cycleCheck_spec (T : Table) (m size : ℕ) (hm : (T.getMutex m).link ≠ [])
    (hsize : 9 * kMaxMutex + kMaxLink ≤ size) :
    ∃ r, (∃ k, ∀ fuel ≥ k, cycleCheck size T m fuel = .returned r) ∧
      (r ≠ none ↔ Relation.TransGen T.LiveLink m m) ∧ ∀ path, r = some path → IsCycle T m path := by
  obtain ⟨visited, r, n, hex⟩ := Search.Explore.total (graph_target_lt T) m ∅ (T.graph.out m)
    fun a ha => Finset.mem_range.mpr (T.id_lt m a (List.mem_reverse.mp ha))
  have hout : T.graph.out m ≠ [] := fun h => hm (List.reverse_eq_nil_iff.mp h)
  have hn : n ≤ size := by
    have hlinks : (T.graph.out m).length ≤ kMaxLink := by
      rw [show (T.graph.out m).length = (T.getMutex m).link.length from List.length_reverse]
      exact (T.getMutex m).link_le
    have hle := hex.le (graph_target_lt T) (fun a ha => Finset.mem_range.mpr
      (T.id_lt m a (List.mem_reverse.mp ha))) (d := kMaxLink) fun x => by
        rw [show (T.graph.out x).length = (T.getMutex x).link.length from List.length_reverse]
        exact (T.getMutex x).link_le
    rw [Finset.sdiff_empty, Finset.card_range] at hle
    unfold kMaxLink at hle hlinks hsize
    omega
  have hmutex : kMaxMutex ≤ size := by omega
  obtain ⟨k, hk⟩ := cycleCheck_explore hmutex hex
  refine ⟨r, ⟨k, fun fuel hfuel => ?_⟩, ⟨fun hne => ?_, fun hreach hnone => ?_⟩, fun path hr => ?_⟩
  · rw [hk fuel hfuel, if_pos hn]
  · obtain ⟨path, rfl⟩ := Option.ne_none_iff_exists'.mp hne
    rw [← step_graph]
    exact hex.isPath.1.reaches
  · subst hnone
    rw [← step_graph] at hreach
    exact hex.not_reaches hout hreach
  · subst hr
    exact isCycle_of_isPath hex.isPath.1

/-- Two mutexes that have a link to each other. -/
def twoMutexes : Table where
  getMutex id := ⟨0, if id < 2 then [⟨1 - id, 0, 0, 0, 0⟩] else [], by
    split_ifs
    · exact (by decide : 1 ≤ kMaxLink)
    · exact Nat.zero_le kMaxLink⟩
  id_lt id l hl := by
    dsimp only at hl
    split_ifs at hl with hid
    · rw [List.mem_singleton.mp hl]
      exact lt_of_le_of_lt (Nat.sub_le 1 id) (by decide)
    · exact absurd hl List.not_mem_nil

/-- Their cycle is reported. -/
theorem cycleCheck_spec_two : ∃ r, (∃ k, ∀ fuel ≥ k,
    cycleCheck (9 * kMaxMutex + kMaxLink) twoMutexes 0 fuel = .returned r) ∧ r ≠ none := by
  obtain ⟨r, hrun, hiff, -⟩ := cycleCheck_spec twoMutexes 0 (9 * kMaxMutex + kMaxLink) (by decide) le_rfl
  refine ⟨r, hrun, hiff.mpr ?_⟩
  have hstep : ∀ id < 2, twoMutexes.LiveLink id (1 - id) := fun id hid =>
    ⟨⟨1 - id, 0, 0, 0, 0⟩, by simp [twoMutexes]; omega, rfl, rfl⟩
  exact .tail (.single (hstep 0 (by decide))) (hstep 1 (by decide))

end Tasan.DD
