import Tasan.StackStore.Model

/-!
# The stack depot

`sanitizer_stackdepotbase.h` over `TwoLevelMap` of `sanitizer_flat_map.h`: a hash table from stacks to
ids, where `Put` searches a bucket without its lock first. Any number of threads are in `Put` or `Get`;
one step of a thread is one access to what they share (a bucket word, the counter of ids, the pointer of a
second-level array, the mutex of the map, a field of a node) together with the local code up to its next
access. The relaxed load of `GetOrCreate` may miss a pointer that is there, and a weak compare-exchange may
fail.
-/

namespace Tasan.StackDepot

open Codec StackStore

/-! ## Nodes -/

/-- What the depot needs of `Node`: `is_valid` and `hash`. `eq` compares the hash. -/
structure NodeType (Args : Type) where
  isValid : Args → Bool
  hash : Args → ℕ

/-- `MurMur2Hash64Builder`. -/
structure MurMur2Hash64Builder where
  h : Word64

namespace MurMur2Hash64Builder

/-- `m`. -/
def m : Word64 := 0xc6a4a7935bd1e995

/-- The constructor. -/
def init (init : Word64) : MurMur2Hash64Builder := ⟨0x9747b28c9747b28c ^^^ (init * m)⟩

/-- `add`. -/
def add (b : MurMur2Hash64Builder) (k : Word64) : MurMur2Hash64Builder :=
  let k := k * m
  let k := k ^^^ (k >>> 47)
  let k := k * m
  ⟨(b.h ^^^ k) * m⟩

/-- `get`. -/
def get (b : MurMur2Hash64Builder) : Word64 :=
  let x := b.h
  let x := x ^^^ (x >>> 47)
  let x := x * m
  x ^^^ (x >>> 47)

end MurMur2Hash64Builder

/-- `StackDepotNode`. -/
def stackDepotNode : NodeType StackTrace where
  isValid args := decide (0 < args.frames.length)
  hash args :=
    let H := MurMur2Hash64Builder.init (BitVec.ofNat 64 (args.frames.length * 8))
    let H := args.frames.foldl (fun H frame => H.add frame) H
    (H.add (BitVec.ofNat 64 args.tag)).get.toNat

/-- The fields of a node. -/
structure Node (Args : Type) where
  /-- `stack_hash`. -/
  hash : ℕ := 0
  /-- What `store` has stored. -/
  args : Option Args := none
  link : ℕ := 0

/-! ## Parameters -/

/-- The template parameters. -/
structure Params (Args : Type) extends NodeType Args where
  kReservedBits : ℕ
  kTabSizeLog : ℕ

namespace Params

variable {Args : Type} (P : Params Args)

/-- `kIdSizeLog`. -/
def kIdSizeLog : ℕ := 32 - max P.kReservedBits 1

/-- `kNodesSize1Log`. -/
def kNodesSize1Log : ℕ := P.kIdSizeLog / 2

/-- `kNodesSize2`. -/
def kNodesSize2 : ℕ := 2^(P.kIdSizeLog - P.kNodesSize1Log)

/-- `kTabSize`. -/
def kTabSize : ℕ := 2^P.kTabSizeLog

/-- `kUnlockMask`. -/
def kUnlockMask : ℕ := 2^P.kIdSizeLog - 1

/-- `kLockMask`. -/
def kLockMask : ℕ := Word.compl 32 P.kUnlockMask

/-- The bucket of a stack. -/
def bucket (args : Args) : ℕ := P.hash args % P.kTabSize

end Params

/-! ## Threads -/

/-- What a thread needs `nodes[s]` for. -/
inductive Access (Args : Type)
  /-- `find`, from the head `s` of the bucket, at the node `cur`; `locked` is the search under the lock. -/
  | find (args : Args) (locked : Bool) (s cur : ℕ)
  /-- The new node of `Put`, behind which `s2` comes. -/
  | store (args : Args) (s2 s : ℕ)
  | get (id : ℕ)

/-- The index of the node. -/
def Access.index {Args : Type} : Access Args → ℕ
  | find _ _ _ cur => cur
  | store _ _ s => s
  | get id => id

/-- The next access of a thread. -/
inductive Pc (Args : Type)
  /-- The thread is in no call. -/
  | idle
  /-- The load of the bucket in `Put`. -/
  | load (args : Args)
  /-- The load in `lock`, after a search from `s`. -/
  | lockLoad (args : Args) (s : ℕ)
  /-- The compare-exchange in `lock`. -/
  | lockCas (args : Args) (s cmp : ℕ)
  /-- The `fetch_add` on `n_uniq_ids`. -/
  | fetchAdd (args : Args) (s2 : ℕ)
  /-- `nodes.contains` in `Get`. -/
  | contains (id : ℕ)
  /-- The relaxed load of `GetOrCreate`. -/
  | mapLoad (acc : Access Args)
  /-- `mu_.Lock` in `Create`. -/
  | mapLock (acc : Access Args)
  /-- The load under `mu_`. -/
  | mapGet (acc : Access Args)
  /-- The map of a new array, and the store of its pointer. -/
  | mapStore (acc : Access Args)
  /-- `mu_.Unlock`, with the pointer. -/
  | mapUnlock (acc : Access Args) (p : ℕ)
  /-- The first access to the node: `eq`, `store` or `load`. -/
  | use (acc : Access Args) (p : ℕ)
  /-- The load of `node.link` in `find`. -/
  | readLink (args : Args) (locked : Bool) (s cur p : ℕ)
  /-- The store of `new_node.link`. -/
  | writeLink (args : Args) (s2 s p : ℕ)
  /-- `unlock`, after which `Put` returns `id`. -/
  | unlock (args : Args) (word id : ℕ) (inserted : Bool)

/-- A call of `Put` that has returned. -/
structure Completed (Args : Type) where
  /-- The argument. -/
  args : Args
  /-- The id. -/
  id : ℕ
  inserted : Bool

/-- What the threads share, their next accesses, and the calls of `Put` that have returned. -/
structure State (T Args : Type) where
  tab : ℕ → ℕ := fun _ => 0
  nUniqIds : ℕ := 0
  /-- `map1_`: pointers to second-level arrays. -/
  map1 : ℕ → Option ℕ := fun _ => none
  /-- The second-level arrays, by pointer. -/
  arrays : ℕ → ℕ → Node Args := fun _ _ => {}
  /-- The number of arrays that have been mapped. -/
  mapped : ℕ := 0
  /-- The holder of `mu_`. -/
  mu : Option T := none
  /-- The next accesses. -/
  pcs : T → Pc Args := fun _ => .idle
  /-- The calls of `Put` that have returned, the last one first. -/
  history : List (Completed Args) := []

variable {T Args : Type} [DecidableEq T]

namespace State

/-- The thread goes on. -/
def goto (st : State T Args) (t : T) (pc : Pc Args) : State T Args :=
  { st with pcs := Function.update st.pcs t pc }

/-- The thread returns from `Put`. -/
def complete (st : State T Args) (t : T) (args : Args) (id : ℕ) (inserted : Bool) : State T Args :=
  { st.goto t .idle with history := { args := args, id := id, inserted := inserted } :: st.history }

/-- A bucket word is stored. -/
def setTab (st : State T Args) (b word : ℕ) : State T Args :=
  { st with tab := Function.update st.tab b word }

/-- A node is stored. -/
def setNode (st : State T Args) (p i : ℕ) (node : Node Args) : State T Args :=
  { st with arrays := Function.update st.arrays p (Function.update (st.arrays p) i node) }

end State

/-- The loop of `find` at `cur`, and what follows when it ends without a node. -/
def findLoop (args : Args) (locked : Bool) (s cur : ℕ) : Pc Args :=
  if cur = 0 then (if locked then .fetchAdd args s else .lockLoad args s)
  else .mapLoad (.find args locked s cur)

/-- A failed `CHECK`. -/
inductive Stop
  /-- A failed `CHECK`. -/
  | check
  deriving DecidableEq

/-- `CHECK_EQ(id & (((u32)-1) >> kReservedBits), id)`. -/
def checkId (P : Params Args) (id : ℕ) : Except Stop Unit :=
  if id &&& ((2^32 - 1) >>> P.kReservedBits) = id then .ok () else .error .check

/-- A thread calls `Put`. -/
def put (P : Params Args) (st : State T Args) (t : T) (args : Args) : State T Args :=
  if !P.isValid args then st.complete t args 0 false else st.goto t (.load args)

/-- A thread calls `Get`. -/
def get (P : Params Args) (st : State T Args) (t : T) (id : ℕ) : Except Stop (State T Args) :=
  if id = 0 then .ok st
  else do
    checkId P id
    if id < 2^P.kIdSizeLog then return st.goto t (.contains id) else .error .check

/-- The next access of a thread. `miss` makes the relaxed load miss the pointer, and the weak
compare-exchange fail. -/
def step (P : Params Args) (st : State T Args) (t : T) (miss : Bool) : Except Stop (State T Args) :=
  match st.pcs t with
  | .idle => .ok st
  | .load args =>
    let s := st.tab (P.bucket args) &&& P.kUnlockMask
    .ok (st.goto t (findLoop args false s s))
  | .lockLoad args s =>
    let cmp := st.tab (P.bucket args)
    if cmp &&& P.kLockMask = 0 then .ok (st.goto t (.lockCas args s cmp)) else .ok st
  | .lockCas args s cmp =>
    if st.tab (P.bucket args) = cmp ∧ !miss then
      .ok ((st.setTab (P.bucket args) (cmp ||| P.kLockMask)).goto t
        (if cmp ≠ s then findLoop args true cmp cmp else .fetchAdd args cmp))
    else .ok (st.goto t (.lockLoad args s))
  | .fetchAdd args s2 => do
    let s := (st.nUniqIds + 1) % 2^32
    if s &&& P.kUnlockMask = s then
      checkId P s
      return { st.goto t (.mapLoad (.store args s2 s)) with nUniqIds := s }
    else .error .check
  | .contains id =>
    match st.map1 (id / P.kNodesSize2) with
    | none => .ok (st.goto t .idle)
    | some _ => .ok (st.goto t (.mapLoad (.get id)))
  | .mapLoad acc =>
    match st.map1 (acc.index / P.kNodesSize2) with
    | some p => .ok (st.goto t (if miss then .mapLock acc else .use acc p))
    | none => .ok (st.goto t (.mapLock acc))
  | .mapLock acc =>
    if st.mu = none then .ok { st.goto t (.mapGet acc) with mu := some t } else .ok st
  | .mapGet acc =>
    match st.map1 (acc.index / P.kNodesSize2) with
    | some p => .ok (st.goto t (.mapUnlock acc p))
    | none => .ok (st.goto t (.mapStore acc))
  | .mapStore acc =>
    .ok { st.goto t (.mapUnlock acc st.mapped) with
      map1 := Function.update st.map1 (acc.index / P.kNodesSize2) (some st.mapped)
      arrays := Function.update st.arrays st.mapped fun _ => {}
      mapped := st.mapped + 1 }
  | .mapUnlock acc p => .ok { st.goto t (.use acc p) with mu := none }
  | .use (.find args locked s cur) p =>
    if P.hash args = (st.arrays p (cur % P.kNodesSize2)).hash then
      if locked then .ok (st.goto t (.unlock args s cur false))
      else .ok (st.complete t args cur false)
    else .ok (st.goto t (.readLink args locked s cur p))
  | .use (.store args s2 s) p =>
    let node := st.arrays p (s % P.kNodesSize2)
    .ok ((st.setNode p (s % P.kNodesSize2) { node with hash := P.hash args, args := some args }).goto t
      (.writeLink args s2 s p))
  | .use (.get _) _ => .ok (st.goto t .idle)
  | .readLink args locked s cur p =>
    .ok (st.goto t (findLoop args locked s (st.arrays p (cur % P.kNodesSize2)).link))
  | .writeLink args s2 s p =>
    let node := st.arrays p (s % P.kNodesSize2)
    .ok ((st.setNode p (s % P.kNodesSize2) { node with link := s2 }).goto t (.unlock args s s true))
  | .unlock args word id inserted =>
    .ok ((st.setTab (P.bucket args) word).complete t args id inserted)

end Tasan.StackDepot
