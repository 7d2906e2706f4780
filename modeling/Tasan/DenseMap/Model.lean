import Tasan.Word

/-!
# DenseMap

`DenseMapBase` and `DenseMap` of `sanitizer_dense_map.h`. The keys are of any type, with an empty key,
a tombstone key and any hash function, and the counters are words of 32 bits. A failed `CHECK` and a
probe that does not end are `none`: a probe sequence visits every bucket in its first `NumBuckets`
rounds, so a loop that has not ended by then does not end.

The buffer pointer is null exactly when `NumBuckets` is zero. The lifetimes of values are not modelled:
a bucket keeps its old value when its key becomes a marker.
-/

namespace Tasan.DenseMap

/-- What the map is instantiated with: `KeyInfoT`, `sizeof(BucketT)` and the page size. -/
structure Config (K V : Type) where
  /-- `getEmptyKey()`. -/
  emptyKey : K
  /-- `getTombstoneKey()`. -/
  tombstoneKey : K
  /-- The two markers are distinct. -/
  empty_ne_tombstone : emptyKey ≠ tombstoneKey
  /-- `getHashValue`. -/
  hash : K → ℕ
  /-- `is_trivially_destructible<ValueT>`. -/
  trivial : Bool
  /-- `ValueT()`. -/
  defaultValue : V
  /-- What a new buffer holds. -/
  fresh : ℕ → K × V
  /-- `sizeof(BucketT)`. -/
  bucketSize : ℕ
  /-- A bucket has a size. -/
  bucketSize_pos : 0 < bucketSize
  /-- The size of a buffer is a word. -/
  bucketSize_lt : bucketSize < 2^32
  /-- `GetPageSizeCached()`. -/
  pageSize : ℕ
  /-- A page has no more buckets than a counter can count. -/
  pageSize_le : pageSize ≤ 2^31

/-- `DenseMap`. -/
structure Map (K V : Type) where
  buckets : ℕ → K × V
  numEntries : ℕ
  numTombstones : ℕ
  numBuckets : ℕ

variable {K V : Type} [DecidableEq K]

/-- The key of a bucket. -/
def Map.key (m : Map K V) (b : ℕ) : K := (m.buckets b).1

/-- The key is neither of the markers. -/
def Config.live (cfg : Config K V) (key : K) : Bool :=
  key ≠ cfg.emptyKey && key ≠ cfg.tombstoneKey

/-! ## Probing -/

/-- The loop of `doFind`. -/
def Map.findLoop (cfg : Config K V) (m : Map K V) (val : K) : ℕ → ℕ → ℕ → Option (Option ℕ)
  | 0, _, _ => none
  | fuel + 1, bucketNo, probeAmt =>
    if m.key bucketNo = val then some (some bucketNo)
    else if m.key bucketNo = cfg.emptyKey then some none
    else m.findLoop cfg val fuel
      (Word.add 32 bucketNo probeAmt &&& Word.sub 32 m.numBuckets 1) (Word.add 32 probeAmt 1)

/-- `doFind`: the bucket, or null. -/
def Map.doFind (cfg : Config K V) (m : Map K V) (val : K) : Option (Option ℕ) :=
  if m.numBuckets = 0 then some none
  else m.findLoop cfg val m.numBuckets (cfg.hash val &&& Word.sub 32 m.numBuckets 1) 1

/-- The loop of `LookupBucketFor`. -/
def Map.lookupLoop (cfg : Config K V) (m : Map K V) (val : K) :
    ℕ → ℕ → ℕ → Option ℕ → Option (Bool × ℕ)
  | 0, _, _, _ => none
  | fuel + 1, bucketNo, probeAmt, foundTombstone =>
    if m.key bucketNo = val then some (true, bucketNo)
    else if m.key bucketNo = cfg.emptyKey then some (false, foundTombstone.getD bucketNo)
    else m.lookupLoop cfg val fuel
      (Word.add 32 bucketNo probeAmt &&& Word.sub 32 m.numBuckets 1) (Word.add 32 probeAmt 1)
      (if m.key bucketNo = cfg.tombstoneKey ∧ foundTombstone = none then some bucketNo
        else foundTombstone)

/-- `LookupBucketFor`: the result, and `FoundBucket`. -/
def Map.lookupBucketFor (cfg : Config K V) (m : Map K V) (val : K) : Option (Bool × Option ℕ) :=
  if m.numBuckets = 0 then some (false, none)
  else if val = cfg.emptyKey ∨ val = cfg.tombstoneKey then none
  else (m.lookupLoop cfg val m.numBuckets (cfg.hash val &&& Word.sub 32 m.numBuckets 1) 1 none).map
    fun p => (p.1, some p.2)

/-! ## Buffers -/

/-- `RoundUpToPowerOfTwo`, of a size that is not zero. -/
def roundUpToPowerOfTwo (size : ℕ) : ℕ :=
  if Word.isPowerOfTwo 64 size then size else 2^(Nat.log2 size + 1)

/-- `getMinBucketToReserveForEntries`. -/
def getMinBucketToReserveForEntries (numEntries : ℕ) : ℕ :=
  if numEntries = 0 then 0
  else roundUpToPowerOfTwo (Word.add 32 (Word.add 32 (numEntries * 4 % 2^32 / 3) 1) 1) % 2^32

/-- `allocateBuckets`: `NumBuckets`, and whether there is a buffer. -/
def allocateBuckets (cfg : Config K V) (num : ℕ) : Option (ℕ × Bool) :=
  if num = 0 then some (0, false)
  else
    let size := cfg.bucketSize * num % 2^64
    if size * 2 % 2^64 ≤ cfg.pageSize then
      let log2 := Nat.log2 (cfg.pageSize / size)
      let size := size * 2^log2 % 2^64
      let num := num * 2^log2 % 2^32
      if size = cfg.bucketSize * num % 2^64 ∧ cfg.pageSize < size * 2 % 2^64 then some (num, true)
      else none
    else some (num, true)

/-- `initEmpty`, of a map with a new buffer of `num` buckets. -/
def initEmpty (cfg : Config K V) (num : ℕ) : Option (Map K V) :=
  if num &&& Word.sub 32 num 1 = 0 then
    some ⟨fun b => if b < num then (cfg.emptyKey, (cfg.fresh b).2) else cfg.fresh b, 0, 0, num⟩
  else none

/-- `init`. -/
def Map.init (cfg : Config K V) (initNumEntries : ℕ) : Option (Map K V) :=
  (allocateBuckets cfg (getMinBucketToReserveForEntries initNumEntries)).bind fun p =>
    if p.2 then initEmpty cfg p.1 else some ⟨cfg.fresh, 0, 0, p.1⟩

/-- One round of `moveFromOldBuckets`. -/
def moveBucket (cfg : Config K V) (old m : Map K V) (b : ℕ) : Option (Map K V) :=
  if cfg.live (old.key b) then
    (m.lookupBucketFor cfg (old.key b)).bind fun p =>
      match p with
      | (false, some dest) => some
          { m with
            buckets := Function.update m.buckets dest (old.buckets b)
            numEntries := Word.add 32 m.numEntries 1 }
      | _ => none
  else some m

/-- `moveFromOldBuckets`, into a new buffer of `num` buckets. -/
def moveFromOldBuckets (cfg : Config K V) (num : ℕ) (old : Map K V) : Option (Map K V) :=
  (initEmpty cfg num).bind fun m => (List.range old.numBuckets).foldlM (moveBucket cfg old) m

/-- `grow`. -/
def Map.grow (cfg : Config K V) (m : Map K V) (atLeast : ℕ) : Option (Map K V) :=
  (allocateBuckets cfg (roundUpToPowerOfTwo (max 64 atLeast) % 2^32)).bind fun p =>
    if p.2 then
      if m.numBuckets = 0 then initEmpty cfg p.1 else moveFromOldBuckets cfg p.1 m
    else none

/-- `reserve`. -/
def Map.reserve (cfg : Config K V) (m : Map K V) (numEntries : ℕ) : Option (Map K V) :=
  if m.numBuckets < getMinBucketToReserveForEntries numEntries then
    m.grow cfg (getMinBucketToReserveForEntries numEntries)
  else some m

/-- The map is grown, and the bucket looked up again. -/
def Map.growFor (cfg : Config K V) (m : Map K V) (key : K) (atLeast : ℕ) :
    Option (Map K V × Option ℕ) :=
  (m.grow cfg atLeast).bind fun m => (m.lookupBucketFor cfg key).map fun p => (m, p.2)

/-- The first part of `InsertIntoBucketImpl`: the map is grown if it is too full. -/
def Map.makeRoom (cfg : Config K V) (m : Map K V) (key : K) (bucket : Option ℕ) :
    Option (Map K V × Option ℕ) :=
  let newNumEntries := Word.add 32 m.numEntries 1
  if m.numBuckets * 3 % 2^32 ≤ newNumEntries * 4 % 2^32 then
    m.growFor cfg key (m.numBuckets * 2 % 2^32)
  else if Word.sub 32 m.numBuckets (Word.add 32 newNumEntries m.numTombstones) ≤ m.numBuckets / 8 then
    m.growFor cfg key m.numBuckets
  else some (m, bucket)

/-- The rest of `InsertIntoBucketImpl` and of `InsertIntoBucket`. -/
def Map.fill (cfg : Config K V) (m : Map K V) (b : ℕ) (key : K) (value : V) : Map K V :=
  { m with
    buckets := Function.update m.buckets b (key, value)
    numEntries := Word.add 32 m.numEntries 1
    numTombstones :=
      if m.key b ≠ cfg.emptyKey then Word.sub 32 m.numTombstones 1 else m.numTombstones }

/-- `InsertIntoBucket`. -/
def Map.insertIntoBucket (cfg : Config K V) (m : Map K V) (bucket : Option ℕ) (key : K) (value : V) :
    Option (Map K V × ℕ) :=
  (m.makeRoom cfg key bucket).bind fun p =>
    p.2.map fun b => (p.1.fill cfg b key value, b)

/-! ## The operations -/

/-- `try_emplace`, which `insert` calls: the bucket, and whether the key is new. -/
def Map.tryEmplace (cfg : Config K V) (m : Map K V) (key : K) (value : V) :
    Option (Map K V × ℕ × Bool) :=
  (m.lookupBucketFor cfg key).bind fun p =>
    match p with
    | (true, some b) => some (m, b, false)
    | (true, none) => none
    | (false, bucket) =>
      (m.insertIntoBucket cfg bucket key value).map fun q => (q.1, q.2, true)

/-- `FindAndConstruct`, which `operator[]` calls. -/
def Map.findAndConstruct (cfg : Config K V) (m : Map K V) (key : K) : Option (Map K V × ℕ) :=
  (m.tryEmplace cfg key cfg.defaultValue).map fun p => (p.1, p.2.1)

/-- A value is assigned through the pointer to a bucket. -/
def Map.assign (m : Map K V) (b : ℕ) (value : V) : Map K V :=
  { m with buckets := Function.update m.buckets b (m.key b, value) }

/-- `erase` of a bucket. -/
def Map.eraseBucket (cfg : Config K V) (m : Map K V) (b : ℕ) : Map K V :=
  { m with
    buckets := Function.update m.buckets b (cfg.tombstoneKey, (m.buckets b).2)
    numEntries := Word.sub 32 m.numEntries 1
    numTombstones := Word.add 32 m.numTombstones 1 }

/-- `erase` of a key: whether it was in the map. -/
def Map.erase (cfg : Config K V) (m : Map K V) (key : K) : Option (Map K V × Bool) :=
  (m.doFind cfg key).map fun bucket =>
    match bucket with
    | none => (m, false)
    | some b => (m.eraseBucket cfg b, true)

/-- The buckets after the loops of `clear`. -/
def Map.clearKeys (cfg : Config K V) (m : Map K V) (b : ℕ) : K × V :=
  if b < m.numBuckets then (cfg.emptyKey, (m.buckets b).2) else m.buckets b

/-- The entries that the loop of `clear` counts down. -/
def Map.liveBuckets (cfg : Config K V) (m : Map K V) : List ℕ :=
  (List.range m.numBuckets).filter fun b => cfg.live (m.key b)

/-- `clear`. The count is checked if values have destructors. -/
def Map.clear (cfg : Config K V) (m : Map K V) : Option (Map K V) :=
  if m.numEntries = 0 ∧ m.numTombstones = 0 then some m
  else if cfg.trivial ∨ Word.sub 32 m.numEntries (m.liveBuckets cfg).length = 0 then
    some ⟨m.clearKeys cfg, 0, 0, m.numBuckets⟩
  else none

/-- `forEach`, with the state that the function works on; the function tells whether to go on. -/
def Map.forEach {σ : Type} (cfg : Config K V) (m : Map K V) (fn : K × V → σ → σ × Bool) (s : σ) :
    σ :=
  ((List.range m.numBuckets).foldl (fun (s : σ × Bool) b =>
    if s.2 ∧ cfg.live (m.key b) then fn (m.buckets b) s.1 else s) (s, true)).1

/-- `copyFrom` another map. -/
def copyFrom (cfg : Config K V) (other : Map K V) : Option (Map K V) :=
  (allocateBuckets cfg other.numBuckets).bind fun p =>
    if p.2 then
      if p.1 = other.numBuckets then
        some ⟨fun b => if b < p.1 then other.buckets b else cfg.fresh b, other.numEntries,
          other.numTombstones, p.1⟩
      else none
    else some ⟨cfg.fresh, 0, 0, p.1⟩

end Tasan.DenseMap
