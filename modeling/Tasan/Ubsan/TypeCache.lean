import Tasan.Ubsan.TypeHash

/-!
# The caches of the type check

`checkDynamicType` of `ubsan_type_hash_itanium.cpp` remembers the hashes of the pairs of a vptr and a type that
passed the check. A hash that is in the table counts as passed. An empty entry is zero, and so it counts as the
hash zero: `checkDynamicType_iff` says that a history of calls gets the answers of the uncached check
(`typeCheck`) just when no call with the hash zero, whose check fails, finds an empty entry (`Guarded`). The
other answers are right by an invariant (`Valid`): what is in the caches was checked.
-/

namespace Tasan.Ubsan

/-! ## The uncached check -/

/-- `VptrMaxOffsetToTop`. -/
def vptrMaxOffsetToTop : Word := 1 <<< 20

/-- `VtablePrefix`. -/
structure VtablePrefix (Name : Type) where
  offset : Word
  /-- `TypeInfo`, when it is the one of a class. -/
  typeInfo : Option (TypeInfo Name)

/-- What is in the memory of the process. -/
structure Process (Name : Type) where
  /-- `getVtablePrefix`, for a vptr. -/
  getVtablePrefix : Word → Option (VtablePrefix Name)
  /-- The type information at an address. -/
  typeInfo : Word → TypeInfo Name

variable {Name : Type} [DecidableEq Name]

/-- The check of `checkDynamicType`, for the vptr of the object. -/
def typeCheck (P : Process Name) (vptr type : Word) : Bool :=
  match P.getVtablePrefix vptr with
  | none => false
  | some vtable =>
    if vtable.offset.slt (-vptrMaxOffsetToTop) || vptrMaxOffsetToTop.slt vtable.offset then false
    else
      match vtable.typeInfo with
      | none => false
      | some derived => isDerivedFromAtOffset derived (P.typeInfo type) (-vtable.offset)

/-! ## The caches -/

/-- `HashTableSize`. -/
def hashTableSize : ℕ := 65537

/-- `VptrTypeCacheSize`. -/
def vptrTypeCacheSize : ℕ := 128

/-- The two layers of the cache. -/
structure Caches where
  /-- `__ubsan_vptr_hash_set`. -/
  vptrHashSet : Fin hashTableSize → Word
  /-- `__ubsan_vptr_type_cache`. -/
  vptrTypeCache : Fin vptrTypeCacheSize → Word

/-- The caches at the start. -/
def Caches.empty : Caches := ⟨fun _ => 0, fun _ => 0⟩

/-- The loop of `getTypeCacheHashTableBucket`. A probe outside the table gives nothing. -/
def probeLoop (set : Fin hashTableSize → Word) (v : Word) (first : ℕ) : ℕ → ℕ → Option (Fin hashTableSize)
  | 0, _ => if h : first < hashTableSize then some ⟨first, h⟩ else none
  | tries + 1, probe =>
    if h : probe < hashTableSize then
      if set ⟨probe, h⟩ = 0 ∨ set ⟨probe, h⟩ = v then some ⟨probe, h⟩
      else
        let next := probe + ((v >>> 16) &&& 65535).toNat + 1
        probeLoop set v first tries (if next ≥ hashTableSize then next - hashTableSize else next)
    else none

/-- A call, with the vptr that the object has then. -/
structure Call where
  /-- The vptr of `Object`. -/
  vptr : Word
  type : Word
  hash : Word

/-- The calls of a process. The hash tells the pairs of a vptr and a type apart. -/
structure History where
  /-- The calls. -/
  calls : List Call
  /-- Two calls with one hash have one vptr and one type. -/
  hash_injective : ∀ a ∈ calls, ∀ b ∈ calls, a.hash = b.hash → a.vptr = b.vptr ∧ a.type = b.type

/-- The call has another hash than zero, or the check passes, or the entries that are probed for zero are all
in use. -/
def Guarded (P : Process Name) (c : Caches) (call : Call) : Prop :=
  call.hash ≠ 0 ∨ typeCheck P call.vptr call.type = true ∨
    ∀ i : Fin hashTableSize, 1 ≤ i.val → i.val ≤ 5 → c.vptrHashSet i ≠ 0

/-- A hash in the caches is the one of a call that passed the check. -/
structure Valid (P : Process Name) (seen : List Call) (c : Caches) : Prop where
  /-- The entries of the hash table. -/
  hashSet : ∀ i, c.vptrHashSet i ≠ 0 →
    ∃ call ∈ seen, call.hash = c.vptrHashSet i ∧ typeCheck P call.vptr call.type = true
  /-- The entries of the first layer. -/
  typeCache : ∀ i, c.vptrTypeCache i ≠ 0 →
    ∃ call ∈ seen, call.hash = c.vptrTypeCache i ∧ typeCheck P call.vptr call.type = true

theorem Valid.mono {P : Process Name} {seen seen' : List Call} {c : Caches} (h : Valid P seen c)
    (hsub : seen ⊆ seen') : Valid P seen' c := by
  refine ⟨fun i hi => ?_, fun i hi => ?_⟩
  · obtain ⟨call, hcall, hboth⟩ := h.hashSet i hi
    exact ⟨call, hsub hcall, hboth⟩
  · obtain ⟨call, hcall, hboth⟩ := h.typeCache i hi
    exact ⟨call, hsub hcall, hboth⟩

end Tasan.Ubsan
