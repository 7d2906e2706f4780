import Tasan.Allocator.Heap

/-!
# The chunk that an address belongs to

`FindHeapChunkByAddress` names the allocation that a bad access is reported with. An address in the left
redzone of a chunk may be a right overflow of the chunk before, so the bytes below it are searched, one by
one, for a block with another chunk, and `ChooseChunk` decides between the two.

The search goes back by less than a page, and it sees a block at its last byte. `Answers` is what is asked
of the function, for any notion of how near a block has to be. It holds of the blocks whose last byte is
less than a page below the address (`findHeapChunkByAddress_spec`), which leaves out a block whose end
is a page less one byte below (`findHeapChunkByAddress_boundary`).
-/

namespace Tasan.Allocator

/-! ## The model -/

/-- `LargeChunkHeader::Get`. Null is `none`. -/
def largeChunkHeaderGet (mem : Mem) (allocBeg : ℕ) : Option ℕ :=
  if mem.readLE allocBeg 8 = kAllocBegMagic ∧ mem.readLE (allocBeg + 8) 8 ≠ 0 then
    some (mem.readLE (allocBeg + 8) 8)
  else none

/-- The chunk that `GetAsanChunk` looks at. -/
def candidate (mem : Mem) (b : Block) : Option ℕ :=
  match largeChunkHeaderGet mem b.allocBeg with
  | some p => some p
  | none => if b.primary then some b.allocBeg else none

/-- `GetAsanChunk` of a block. -/
def getAsanChunk (mem : Mem) (b : Block) : Option ℕ :=
  if b.allocBeg = 0 then none
  else (candidate mem b).filter fun p => mem p == CHUNK_ALLOCATED || mem p == CHUNK_QUARANTINE

/-- `AsanChunkView::End`. -/
def viewEnd (mem : Mem) (m : ℕ) : ℕ := beg m + chunkUsedSize mem m

/-- `sptr`. -/
def sptr (n : ℕ) : ℤ := (BitVec.ofNat 64 n).toInt

/-- `AsanChunkView::AddrIsAtLeft`, with the offset if it holds. -/
def addrIsAtLeft (m addr : ℕ) : Option ℤ :=
  if addr < beg m then some (sptr (Word.sub 64 (beg m) addr)) else none

/-- `AsanChunkView::AddrIsAtRight`, with the offset if it holds. -/
def addrIsAtRight (mem : Mem) (m addr accessSize : ℕ) : Option ℤ :=
  if viewEnd mem m < Word.add 64 addr accessSize then some (sptr (Word.sub 64 addr (viewEnd mem m)))
  else none

/-- `ChooseChunk` by the states of the chunks, if they decide. -/
def chooseByState (mem : Mem) (l r : ℕ) : Option ℕ :=
  if mem l ≠ mem r then
    if mem l = CHUNK_ALLOCATED then some l
    else if mem r = CHUNK_ALLOCATED then some r
    else if mem l = CHUNK_QUARANTINE then some l
    else if mem r = CHUNK_QUARANTINE then some r
    else none
  else none

/-- `ChooseChunk` by the offsets. `none` is a failed `CHECK`. -/
def chooseByOffset (mem : Mem) (addr l r : ℕ) : Option ℕ := do
  let lOffset ← addrIsAtRight mem l addr 1
  let rOffset ← addrIsAtLeft r addr
  return if lOffset < rOffset then l else r

/-- `ChooseChunk`. `none` is a failed `CHECK`. -/
def chooseChunk (mem : Mem) (addr : ℕ) : Option ℕ → Option ℕ → Option (Option ℕ)
  | none, r => some r
  | some l, none => some (some l)
  | some l, some r => some <$> (chooseByState mem l r <|> chooseByOffset mem addr l r)

/-- The addresses whose `GetBlockBegin` is this block: those of its mapping, if it has one of its own. -/
def Block.Owns (b : Block) (a : ℕ) : Prop := b.mapBeg ≤ a ∧ a < b.mapBeg + b.mapSize

instance (b : Block) (a : ℕ) : Decidable (b.Owns a) := inferInstanceAs (Decidable (_ ∧ _))

/-- The end of the addresses of a block. -/
def Block.mapEnd (b : Block) : ℕ := b.mapBeg + b.mapSize

/-- What a lookup reads: the memory, the blocks that `GetBlockBegin` knows and the size of a page. -/
structure BlockHeap where
  /-- The memory with the chunk headers. -/
  mem : Mem
  /-- The blocks, handed out or not. -/
  blocks : List Block
  /-- `GetPageSizeCached`. -/
  pageSize : ℕ
  /-- No address is in two blocks. -/
  disjoint : blocks.Pairwise fun b c => ∀ a, ¬ (b.Owns a ∧ c.Owns a)
  /-- A valid chunk and its user's memory are in its block. -/
  chunk_mem : ∀ b ∈ blocks, ∀ m, getAsanChunk mem b = some m → b.mapBeg ≤ m ∧ viewEnd mem m ≤ b.mapEnd
  /-- The blocks are in the lower half of the address space. -/
  mapEnd_lt : ∀ b ∈ blocks, b.mapEnd + pageSize < 2^63

/-- The search of `FindHeapChunkByAddress` for a chunk other than `m₁`, `n` steps from `l` on. `chunk` is
the chunk by its distance from the address. -/
def searchBack (chunk : ℕ → Option ℕ) (m₁ : Option ℕ) : ℕ → ℕ → Option ℕ → Option ℕ
  | 0, _, m₂ => m₂
  | n + 1, l, _ => if chunk l = m₁ then searchBack chunk m₁ n (l + 1) (chunk l) else chunk l

namespace BlockHeap

variable (h : BlockHeap)

/-- `GetAsanChunkByAddr`. -/
def getAsanChunkByAddr (a : ℕ) : Option ℕ :=
  (h.blocks.find? fun b => b.Owns a).bind (getAsanChunk h.mem)

/-- `m2` of `FindHeapChunkByAddress`, after the loop. -/
def chunkBefore (addr : ℕ) : Option ℕ :=
  searchBack (fun l => h.getAsanChunkByAddr (Word.sub 64 addr l)) (h.getAsanChunkByAddr addr)
    (h.pageSize - 1) 1 none

/-- The address is to the left of the chunk, or there is no chunk. -/
def atLeft (m : Option ℕ) (addr : ℕ) : Bool := m.all fun m => (addrIsAtLeft m addr).isSome

/-- `FindHeapChunkByAddress`. `none` is a failed `CHECK`, and `some none` the view of no chunk. -/
def findHeapChunkByAddress (addr : ℕ) : Option (Option ℕ) :=
  let m₁ := h.getAsanChunkByAddr addr
  if atLeft m₁ addr then
    let m₂ := h.chunkBefore addr
    if m₂.any fun m => (addrIsAtRight h.mem m addr 1).isSome then chooseChunk h.mem addr m₂ m₁
    else some m₁
  else some m₁

/-! ## What is asked for -/

/-- A block holds a valid chunk. -/
def Holds (b : Block) (m : ℕ) : Prop := b ∈ h.blocks ∧ getAsanChunk h.mem b = some m

/-- The left one of two chunks is the better guess for an address between them. -/
def Preferred (addr l r : ℕ) : Prop :=
  (h.mem l = CHUNK_ALLOCATED ∧ h.mem r ≠ CHUNK_ALLOCATED) ∨
    (h.mem l = h.mem r ∧ addr - viewEnd h.mem l < beg r - addr)

instance (addr l r : ℕ) : Decidable (h.Preferred addr l r) := inferInstanceAs (Decidable (_ ∨ _))

/-- The chunk that is asked for, where `Near` says which blocks below the address are near enough. -/
structure Answers (Near : Block → Prop) (addr : ℕ) (answer : Option ℕ) : Prop where
  /-- At or after the user's memory of a chunk, it is that chunk. -/
  user : ∀ b m, h.Holds b m → b.Owns addr → beg m ≤ addr → answer = some m
  /-- In the left redzone of a chunk, it is the chunk before it if that is preferred. -/
  left : ∀ b r, h.Holds b r → b.Owns addr → addr < beg r → ∀ c l, h.Holds c l →
    c.mapEnd = b.mapBeg → Near c → h.Preferred addr l r → answer = some l
  /-- Otherwise it is the chunk of the redzone. -/
  redzone : ∀ b r, h.Holds b r → b.Owns addr → addr < beg r → (∀ c l, h.Holds c l →
    c.mapEnd = b.mapBeg → Near c → ¬ h.Preferred addr l r) → answer = some r
  /-- Outside of the blocks with a chunk, it is the nearest chunk below. -/
  nearest : (∀ b m, h.Holds b m → ¬ b.Owns addr) → ∀ c l, h.Holds c l → c.mapEnd ≤ addr → Near c →
    (∀ d m, h.Holds d m → d.mapEnd ≤ addr → d.mapEnd ≤ c.mapEnd) → answer = some l
  /-- If none is near enough, there is none. -/
  alone : (∀ b m, h.Holds b m → ¬ b.Owns addr) →
    (∀ c l, h.Holds c l → c.mapEnd ≤ addr → ¬ Near c) → answer = none

/-! ## The blocks -/

variable {h} {b c : Block} {m l r a addr : ℕ}

theorem Holds.bounds (hb : h.Holds b m) : b.mapBeg ≤ m ∧ viewEnd h.mem m ≤ b.mapEnd :=
  h.chunk_mem b hb.1 m hb.2

theorem Holds.owns (hb : h.Holds b m) : b.Owns m := by
  have := hb.bounds
  simp only [viewEnd, beg, kChunkHeaderSize, Block.mapEnd, Block.Owns] at *
  omega

theorem block_unique (hb : b ∈ h.blocks) (hc : c ∈ h.blocks) (hba : b.Owns a) (hca : c.Owns a) : b = c := by
  by_contra hne
  have : Std.Symm fun b c : Block => ∀ a, ¬ (b.Owns a ∧ c.Owns a) := ⟨fun _ _ hbc a hcb => hbc a hcb.symm⟩
  exact h.disjoint.forall hb hc hne a ⟨hba, hca⟩

theorem Holds.block_unique (hb : h.Holds b m) (hc : h.Holds c m) : b = c :=
  BlockHeap.block_unique hb.1 hc.1 hb.owns hc.owns

theorem Holds.chunk_unique (hb : h.Holds b m) (hb' : h.Holds b r) : m = r :=
  Option.some_injective _ (hb.2.symm.trans hb'.2)

theorem Holds.getAsanChunkByAddr (hb : h.Holds b m) (ha : b.Owns a) :
    h.getAsanChunkByAddr a = some m := by
  have hfind : h.blocks.find? (fun b => b.Owns a) = some b := by
    cases hf : h.blocks.find? (fun b => b.Owns a) with
    | none => exact absurd ha (by simpa using List.find?_eq_none.mp hf b hb.1)
    | some c =>
      have hc : c.Owns a := by simpa using List.find?_some hf
      rw [BlockHeap.block_unique (List.mem_of_find?_eq_some hf) hb.1 hc ha]
  rw [BlockHeap.getAsanChunkByAddr, hfind]
  exact hb.2

theorem holds_of_getAsanChunkByAddr (ha : h.getAsanChunkByAddr a = some m) :
    ∃ b, h.Holds b m ∧ b.Owns a := by
  obtain ⟨b, hf, hm⟩ := Option.bind_eq_some_iff.mp ha
  exact ⟨b, ⟨List.mem_of_find?_eq_some hf, hm⟩, by simpa using List.find?_some hf⟩

theorem getAsanChunkByAddr_eq_none (hno : ∀ b m, h.Holds b m → ¬ b.Owns a) :
    h.getAsanChunkByAddr a = none := by
  cases ha : h.getAsanChunkByAddr a with
  | none => rfl
  | some m =>
    obtain ⟨b, hb, hown⟩ := holds_of_getAsanChunkByAddr ha
    exact absurd hown (hno b m hb)

/-! ## The search -/

theorem searchBack_of_first {chunk : ℕ → Option ℕ} {m₁ : Option ℕ} {j : ℕ} (hne : chunk j ≠ m₁) :
    ∀ {n l : ℕ} {m₂ : Option ℕ}, l ≤ j → j < l + n → (∀ k, l ≤ k → k < j → chunk k = m₁) →
      searchBack chunk m₁ n l m₂ = chunk j
  | 0, l, m₂, hl, hj, _ => absurd hj (by omega)
  | n + 1, l, m₂, hl, hj, hsame => by
    rw [searchBack]
    rcases Nat.eq_or_lt_of_le hl with rfl | hlt
    · rw [if_neg hne]
    · rw [if_pos (hsame l le_rfl hlt)]
      exact searchBack_of_first hne hlt (by omega) fun k hk => hsame k (by omega)

theorem searchBack_mem {chunk : ℕ → Option ℕ} {m₁ : Option ℕ} :
    ∀ {n l : ℕ} {m₂ : Option ℕ}, searchBack chunk m₁ n l m₂ = m₂ ∨
      ∃ k, l ≤ k ∧ k < l + n ∧ searchBack chunk m₁ n l m₂ = chunk k
  | 0, _, _ => .inl rfl
  | n + 1, l, m₂ => by
    rw [searchBack]
    split_ifs
    · rcases @searchBack_mem chunk m₁ n (l + 1) (chunk l) with heq | ⟨k, hk, hlt, heq⟩
      · exact .inr ⟨l, le_rfl, by omega, heq⟩
      · exact .inr ⟨k, by omega, by omega, heq⟩
    · exact .inr ⟨l, le_rfl, by omega, rfl⟩

theorem chunkBefore_of_first {j : ℕ} (hpos : 1 ≤ j) (hj : j < h.pageSize)
    (hne : h.getAsanChunkByAddr (Word.sub 64 addr j) ≠ h.getAsanChunkByAddr addr)
    (hsame : ∀ k, 1 ≤ k → k < j →
      h.getAsanChunkByAddr (Word.sub 64 addr k) = h.getAsanChunkByAddr addr) :
    h.chunkBefore addr = h.getAsanChunkByAddr (Word.sub 64 addr j) :=
  @searchBack_of_first (fun l => h.getAsanChunkByAddr (Word.sub 64 addr l)) _ j hne _ _ _ hpos (by omega)
    hsame

theorem chunkBefore_mem (h : BlockHeap) (addr : ℕ) : h.chunkBefore addr = none ∨
    ∃ k, 1 ≤ k ∧ k < h.pageSize ∧ h.chunkBefore addr = h.getAsanChunkByAddr (Word.sub 64 addr k) := by
  rcases @searchBack_mem (fun l => h.getAsanChunkByAddr (Word.sub 64 addr l)) (h.getAsanChunkByAddr addr)
    (h.pageSize - 1) 1 none with hnone | ⟨k, hk, hlt, heq⟩
  · exact .inl hnone
  · exact .inr ⟨k, hk, by omega, heq⟩

theorem getAsanChunkByAddr_sub {k : ℕ} (haddr : addr < 2^64) (hk : k < h.pageSize)
    (hb : h.Holds b m) (hown : b.Owns (Word.sub 64 addr k)) : k ≤ addr ∧ b.Owns (addr - k) := by
  have hle := h.mapEnd_lt b hb.1
  rcases Nat.lt_or_ge addr k with hlt | hge
  · rw [Word.sub_of_lt hlt (by omega)] at hown
    simp only [Block.Owns, Block.mapEnd] at hown hle
    omega
  · rw [Word.sub_of_le hge haddr] at hown
    exact ⟨hge, hown⟩

/-! ## The choice -/

theorem sptr_of_lt {n : ℕ} (hn : n < 2^63) : sptr n = n := by
  have hmod : (BitVec.ofNat 64 n).toNat = n := by
    rw [BitVec.toNat_ofNat, Nat.mod_eq_of_lt (by omega)]
  rw [sptr, BitVec.toInt_eq_toNat_of_lt (by omega), hmod]

theorem addrIsAtRight_of_le {mem : Mem} (hle : viewEnd mem m ≤ addr) (haddr : addr < 2^63) :
    addrIsAtRight mem m addr 1 = some ((addr - viewEnd mem m : ℕ) : ℤ) := by
  rw [addrIsAtRight, Word.add_of_lt (by omega), if_pos (by omega), Word.sub_of_le hle (by omega),
    sptr_of_lt (by omega)]

theorem addrIsAtRight_of_lt {mem : Mem} (hlt : addr < viewEnd mem m) (haddr : addr < 2^63) :
    addrIsAtRight mem m addr 1 = none := by
  rw [addrIsAtRight, Word.add_of_lt (by omega), if_neg (by omega)]

theorem addrIsAtLeft_of_lt (hlt : addr < beg m) (hbeg : beg m < 2^63) :
    addrIsAtLeft m addr = some ((beg m - addr : ℕ) : ℤ) := by
  rw [addrIsAtLeft, if_pos hlt, Word.sub_of_le hlt.le (by omega), sptr_of_lt (by omega)]

theorem addrIsAtLeft_of_le (hle : beg m ≤ addr) : addrIsAtLeft m addr = none := if_neg (by omega)

theorem Holds.state (hb : h.Holds b m) : h.mem m = CHUNK_ALLOCATED ∨ h.mem m = CHUNK_QUARANTINE := by
  have hvalid := hb.2
  rw [getAsanChunk] at hvalid
  split_ifs at hvalid
  simpa using (Option.filter_eq_some_iff.mp hvalid).2

theorem Holds.lt (hb : h.Holds b m) : beg m ≤ viewEnd h.mem m ∧ viewEnd h.mem m + h.pageSize < 2^63 :=
  ⟨Nat.le_add_right _ _, lt_of_le_of_lt (Nat.add_le_add_right hb.bounds.2 _) (h.mapEnd_lt b hb.1)⟩

/-- `ChooseChunk` between two valid chunks with the address between them fails no `CHECK`, and chooses
the left one if that is preferred. -/
theorem chooseChunk_eq (hl : h.Holds b l) (hr : h.Holds c r) (hle : viewEnd h.mem l ≤ addr)
    (hlt : addr < beg r) (hbeg : beg r < 2^63) :
    chooseChunk h.mem addr (some l) (some r) = some (some (if h.Preferred addr l r then l else r)) := by
  have hoffset : chooseByOffset h.mem addr l r =
      some (if addr - viewEnd h.mem l < beg r - addr then l else r) := by
    rw [chooseByOffset, addrIsAtRight_of_le hle (by omega), addrIsAtLeft_of_lt hlt hbeg]
    simp only [Option.bind_eq_bind, Option.bind_some, Nat.cast_lt]
    rfl
  have hne : CHUNK_ALLOCATED ≠ CHUNK_QUARANTINE := by decide
  rw [chooseChunk, hoffset]
  rcases hl.state with hsl | hsl <;> rcases hr.state with hsr | hsr <;>
    simp [chooseByState, Preferred, hsl, hsr, hne, hne.symm]

/-! ## `FindHeapChunkByAddress` -/

/-- The last byte of a block below the address is less than a page below it. -/
def Near (h : BlockHeap) (addr : ℕ) (b : Block) : Prop := addr - (b.mapEnd - 1) < h.pageSize

instance (h : BlockHeap) (addr : ℕ) (b : Block) : Decidable (h.Near addr b) :=
  inferInstanceAs (Decidable (_ < _))

theorem findHeapChunkByAddress_user (hb : h.Holds b m) (hown : b.Owns addr) (hle : beg m ≤ addr) :
    h.findHeapChunkByAddress addr = some (some m) := by
  simp [findHeapChunkByAddress, hb.getAsanChunkByAddr hown, atLeft, addrIsAtLeft_of_le hle]

theorem Holds.last (hb : h.Holds b m) : b.Owns (b.mapEnd - 1) ∧ 0 < b.mapEnd := by
  have := hb.owns
  simp only [Block.Owns, Block.mapEnd] at *
  omega

/-- From the left redzone of a chunk, the search finds the chunk before if it is near. -/
theorem chunkBefore_left (haddr : addr < 2^64) (hb : h.Holds b r) (hown : b.Owns addr)
    (hc : h.Holds c l) (hend : c.mapEnd = b.mapBeg) (hnear : h.Near addr c) :
    h.chunkBefore addr = some l := by
  have ⟨hlast, hpos⟩ := hc.last
  have hbeg := hown.1
  have hj : h.getAsanChunkByAddr (Word.sub 64 addr (addr - (c.mapEnd - 1))) = some l := by
    rw [Word.sub_of_le (by omega) haddr, show addr - (addr - (c.mapEnd - 1)) = c.mapEnd - 1 by omega]
    exact hc.getAsanChunkByAddr hlast
  have hr := hb.getAsanChunkByAddr hown
  rw [chunkBefore_of_first (by omega) hnear, hj]
  · rw [hj, hr]
    intro heq
    -- The address would be in the block that ends below it.
    obtain rfl := Option.some_injective _ heq
    obtain rfl := hb.block_unique hc
    have hlt := hown.2
    simp only [Block.mapEnd] at hend
    omega
  · intro k _ hk
    rw [hr, Word.sub_of_le (by omega) haddr]
    exact hb.getAsanChunkByAddr ⟨by omega, by have := hown.2; omega⟩

/-- From the left redzone of a chunk, the search finds nothing, the same chunk, or the chunk before. -/
theorem chunkBefore_redzone (haddr : addr < 2^64) (hb : h.Holds b r) (hown : b.Owns addr) :
    h.chunkBefore addr = none ∨ h.chunkBefore addr = some r ∨
      ∃ c l, h.Holds c l ∧ c.mapEnd = b.mapBeg ∧ h.Near addr c ∧ h.chunkBefore addr = some l := by
  have hr := hb.getAsanChunkByAddr hown
  have ⟨hbeg, hlt⟩ := hown
  have hsame : ∀ k, k ≤ addr - b.mapBeg → h.getAsanChunkByAddr (Word.sub 64 addr k) = some r := by
    intro k hk
    rw [Word.sub_of_le (by omega) haddr]
    exact hb.getAsanChunkByAddr ⟨by omega, by omega⟩
  -- The first byte outside of the block is at the distance `addr - b.mapBeg + 1`.
  rcases Nat.lt_or_ge (addr - b.mapBeg + 1) h.pageSize with hnear | hfar
  · cases hj : h.getAsanChunkByAddr (Word.sub 64 addr (addr - b.mapBeg + 1)) with
    | none =>
      have hbefore : ∀ k, 1 ≤ k → k < addr - b.mapBeg + 1 →
          h.getAsanChunkByAddr (Word.sub 64 addr k) = h.getAsanChunkByAddr addr := fun k _ hk =>
        (hsame k (by omega)).trans hr.symm
      exact .inl ((chunkBefore_of_first (by omega) hnear (by simp [hj, hr]) hbefore).trans hj)
    | some l =>
      obtain ⟨c, hc, hcown⟩ := holds_of_getAsanChunkByAddr hj
      obtain ⟨hle, hcown⟩ := getAsanChunkByAddr_sub haddr hnear hc hcown
      have hnot : ¬ c.Owns b.mapBeg := fun hown' => by
        obtain rfl := block_unique hb.1 hc.1 (a := b.mapBeg) ⟨le_rfl, by omega⟩ hown'
        have := hcown.1
        omega
      have hend : c.mapEnd = b.mapBeg := by
        simp only [Block.Owns, Block.mapEnd] at *
        omega
      have hcnear : h.Near addr c := by
        rw [Near]
        omega
      exact .inr (.inr ⟨c, l, hc, hend, hcnear, chunkBefore_left haddr hb hown hc hend hcnear⟩)
  · rcases chunkBefore_mem h addr with hnone | ⟨k, _, hk, heq⟩
    · exact .inl hnone
    · exact .inr (.inl (heq.trans (hsame k (by omega))))

theorem findHeapChunkByAddress_redzone (hb : h.Holds b r) (hown : b.Owns addr) (hlt : addr < beg r)
    (hc : h.Holds c l) (hend : c.mapEnd = b.mapBeg) (hbefore : h.chunkBefore addr = some l) :
    h.findHeapChunkByAddress addr = some (some (if h.Preferred addr l r then l else r)) := by
  have hle : viewEnd h.mem l ≤ addr := hc.bounds.2.trans (hend.trans_le hown.1)
  have hbeg : addr < 2^63 ∧ beg r < 2^63 := by
    have := hb.lt
    omega
  rw [← chooseChunk_eq hc hb hle hlt hbeg.2]
  simp [findHeapChunkByAddress, hb.getAsanChunkByAddr hown, atLeft, addrIsAtLeft_of_lt hlt hbeg.2, hbefore,
    addrIsAtRight_of_le hle hbeg.1]

theorem findHeapChunkByAddress_alone (hb : h.Holds b r) (hown : b.Owns addr) (hlt : addr < beg r)
    (hbefore : h.chunkBefore addr = none ∨ h.chunkBefore addr = some r) :
    h.findHeapChunkByAddress addr = some (some r) := by
  have hbeg := hb.lt
  have hnot : addrIsAtRight h.mem r addr 1 = none := addrIsAtRight_of_lt (by omega) (by omega)
  rcases hbefore with hnone | hsome
  · simp [findHeapChunkByAddress, hb.getAsanChunkByAddr hown, hnone]
  · simp [findHeapChunkByAddress, hb.getAsanChunkByAddr hown, hsome, hnot]

theorem mapEnd_le_of_owns (hno : ∀ b m, h.Holds b m → ¬ b.Owns addr) (hc : h.Holds c l) {k : ℕ}
    (hown : c.Owns (addr - k)) : c.mapEnd ≤ addr ∧ addr - (c.mapEnd - 1) ≤ k := by
  have := hno c l hc
  simp only [Block.Owns, Block.mapEnd] at *
  omega

theorem chunkBefore_outside (haddr : addr < 2^64) (hno : ∀ b m, h.Holds b m → ¬ b.Owns addr)
    (hbefore : h.chunkBefore addr = some l) : ∃ c, h.Holds c l ∧ c.mapEnd ≤ addr ∧ h.Near addr c := by
  rcases chunkBefore_mem h addr with hnone | ⟨k, _, hk, heq⟩
  · exact absurd (hnone.symm.trans hbefore) (by simp)
  · obtain ⟨c, hc, hown⟩ := holds_of_getAsanChunkByAddr (heq.symm.trans hbefore)
    obtain ⟨hle, hnear⟩ := mapEnd_le_of_owns hno hc (getAsanChunkByAddr_sub haddr hk hc hown).2
    exact ⟨c, hc, hle, hnear.trans_lt hk⟩

theorem chunkBefore_nearest (haddr : addr < 2^64) (hno : ∀ b m, h.Holds b m → ¬ b.Owns addr)
    (hc : h.Holds c l) (hle : c.mapEnd ≤ addr) (hnear : h.Near addr c)
    (hmax : ∀ d m, h.Holds d m → d.mapEnd ≤ addr → d.mapEnd ≤ c.mapEnd) :
    h.chunkBefore addr = some l := by
  have ⟨hlast, hpos⟩ := hc.last
  have hnone := getAsanChunkByAddr_eq_none hno
  have hj : h.getAsanChunkByAddr (Word.sub 64 addr (addr - (c.mapEnd - 1))) = some l := by
    rw [Word.sub_of_le (by omega) haddr, show addr - (addr - (c.mapEnd - 1)) = c.mapEnd - 1 by omega]
    exact hc.getAsanChunkByAddr hlast
  have hbetween : ∀ k, 1 ≤ k → k < addr - (c.mapEnd - 1) →
      h.getAsanChunkByAddr (Word.sub 64 addr k) = h.getAsanChunkByAddr addr := by
    intro k _ hk
    rw [hnone, Word.sub_of_le (by omega) haddr]
    apply getAsanChunkByAddr_eq_none
    intro d m hd hown
    -- A block with a chunk in between would end above the nearest one.
    have hend := mapEnd_le_of_owns hno hd hown
    have := hmax d m hd hend.1
    omega
  rw [chunkBefore_of_first (by omega) hnear (by simp [hj, hnone]) hbetween, hj]

theorem findHeapChunkByAddress_outside (haddr : addr < 2^64) (hno : ∀ b m, h.Holds b m → ¬ b.Owns addr) :
    h.findHeapChunkByAddress addr = some (h.chunkBefore addr) := by
  have hnone := getAsanChunkByAddr_eq_none hno
  cases hbefore : h.chunkBefore addr with
  | none => simp [findHeapChunkByAddress, hnone, hbefore]
  | some l =>
    obtain ⟨c, hc, hle, hnear⟩ := chunkBefore_outside haddr hno hbefore
    have hright : addrIsAtRight h.mem l addr 1 = some ((addr - viewEnd h.mem l : ℕ) : ℤ) := by
      refine addrIsAtRight_of_le (hc.bounds.2.trans hle) ?_
      have := h.mapEnd_lt c hc.1
      have := hc.last.2
      rw [Near] at hnear
      omega
    simp [findHeapChunkByAddress, hnone, atLeft, hbefore, hright, chooseChunk]

theorem Holds.eq_of_mapEnd_eq (hb : h.Holds b m) (hc : h.Holds c l) (hend : b.mapEnd = c.mapEnd) : b = c :=
  BlockHeap.block_unique hb.1 hc.1 hb.last.1 (hend ▸ hc.last.1)

/-- At an address in the block of a chunk, the answer is right. -/
theorem findHeapChunkByAddress_inside (haddr : addr < 2^64) (hb : h.Holds b m) (hown : b.Owns addr) :
    ∃ answer, h.findHeapChunkByAddress addr = some answer ∧ h.Answers (h.Near addr) addr answer := by
  -- The block is the only one with the address, so the clauses are about its chunk.
  have hunique : ∀ c r, h.Holds c r → c.Owns addr → c = b ∧ r = m := by
    intro c r hc hcown
    obtain rfl := block_unique hc.1 hb.1 hcown hown
    exact ⟨rfl, hc.chunk_unique hb⟩
  have hout : (∀ b m, h.Holds b m → ¬ b.Owns addr) → False := fun hno => hno b m hb hown
  rcases Nat.lt_or_ge addr (beg m) with hlt | hge
  · by_cases hleft : ∃ c l, h.Holds c l ∧ c.mapEnd = b.mapBeg ∧ h.Near addr c
    · obtain ⟨c, l, hc, hend, hnear⟩ := hleft
      have hbefore := chunkBefore_left haddr hb hown hc hend hnear
      refine ⟨_, findHeapChunkByAddress_redzone hb hown hlt hc hend hbefore, ?_⟩
      constructor
      case user =>
        intro b' r hr hrown hle
        obtain ⟨rfl, rfl⟩ := hunique b' r hr hrown
        omega
      case left =>
        intro b' r hr hrown _ c' l' hc' hend' _ hpref
        obtain ⟨rfl, rfl⟩ := hunique b' r hr hrown
        obtain rfl := hc'.eq_of_mapEnd_eq hc (hend'.trans hend.symm)
        obtain rfl := hc'.chunk_unique hc
        rw [if_pos hpref]
      case redzone =>
        intro b' r hr hrown _ hnot
        obtain ⟨rfl, rfl⟩ := hunique b' r hr hrown
        rw [if_neg (hnot c l hc hend hnear)]
      case nearest => exact fun hno => (hout hno).elim
      case alone => exact fun hno => (hout hno).elim
    · have hbefore : h.chunkBefore addr = none ∨ h.chunkBefore addr = some m := by
        rcases chunkBefore_redzone haddr hb hown with hnone | hsome | ⟨c, l, hc, hend, hnear, -⟩
        · exact .inl hnone
        · exact .inr hsome
        · exact absurd ⟨c, l, hc, hend, hnear⟩ hleft
      refine ⟨_, findHeapChunkByAddress_alone hb hown hlt hbefore, ?_⟩
      constructor
      case user => exact fun b' r hr hrown _ => by rw [(hunique b' r hr hrown).2]
      case left =>
        intro b' r hr hrown _ c l hc hend hnear
        obtain ⟨rfl, rfl⟩ := hunique b' r hr hrown
        exact absurd ⟨c, l, hc, hend, hnear⟩ hleft
      case redzone => exact fun b' r hr hrown _ _ => by rw [(hunique b' r hr hrown).2]
      case nearest => exact fun hno => (hout hno).elim
      case alone => exact fun hno => (hout hno).elim
  · refine ⟨_, findHeapChunkByAddress_user hb hown hge, ?_⟩
    constructor
    case user => exact fun b' r hr hrown _ => by rw [(hunique b' r hr hrown).2]
    case left =>
      intro b' r hr hrown hlt
      obtain ⟨rfl, rfl⟩ := hunique b' r hr hrown
      omega
    case redzone => exact fun b' r hr hrown _ _ => by rw [(hunique b' r hr hrown).2]
    case nearest => exact fun hno => (hout hno).elim
    case alone => exact fun hno => (hout hno).elim

theorem findHeapChunkByAddress_of_no_chunk (haddr : addr < 2^64)
    (hno : ∀ b m, h.Holds b m → ¬ b.Owns addr) :
    ∃ answer, h.findHeapChunkByAddress addr = some answer ∧ h.Answers (h.Near addr) addr answer := by
  refine ⟨_, findHeapChunkByAddress_outside haddr hno, ?_⟩
  constructor
  case user => exact fun b m hb hown _ => absurd hown (hno b m hb)
  case left => exact fun b r hb hown _ => absurd hown (hno b r hb)
  case redzone => exact fun b r hb hown _ => absurd hown (hno b r hb)
  case nearest => exact fun _ c l hc hle hnear hmax => chunkBefore_nearest haddr hno hc hle hnear hmax
  case alone =>
    intro _ hfar
    cases hbefore : h.chunkBefore addr with
    | none => rfl
    | some l =>
      obtain ⟨c, hc, hle, hnear⟩ := chunkBefore_outside haddr hno hbefore
      exact absurd hnear (hfar c l hc hle)

/-- `FindHeapChunkByAddress` fails no `CHECK`, and it finds what is asked for, among the blocks whose last
byte is less than a page below the address. -/
theorem findHeapChunkByAddress_spec (h : BlockHeap) (addr : ℕ) (haddr : addr < 2^64) :
    ∃ answer, h.findHeapChunkByAddress addr = some answer ∧ h.Answers (h.Near addr) addr answer := by
  by_cases hno : ∀ b m, h.Holds b m → ¬ b.Owns addr
  · exact findHeapChunkByAddress_of_no_chunk haddr hno
  · push Not at hno
    obtain ⟨b, m, hb, hown⟩ := hno
    exact findHeapChunkByAddress_inside haddr hb hown

/-! ## The end of the search -/

/-- The memory of `boundaryHeap`: an allocated chunk of 100 bytes at the beginning of a block, and a chunk
in the quarantine that an alignment of 8192 has put in the middle of the block after it. -/
def boundaryMem : Mem :=
  let mem : Mem := fun _ => 0
  let mem := setUsedSize (mem.set 0x10000 CHUNK_ALLOCATED) 0x10000 100
  let mem := setUsedSize (mem.set 0x15ff0 CHUNK_QUARANTINE) 0x15ff0 100
  setLargeChunkHeader mem 0x14000 0x15ff0

/-- The blocks of `boundaryHeap`, of the primary allocator. -/
def boundaryBlocks : List Block :=
  [⟨0x10000, 0x4000, true, 0x10000, 0x4000, 0x10000⟩, ⟨0x14000, 0x4000, true, 0x14000, 0x4000, 0x15ff0⟩]

theorem boundaryBlocks_chunk : boundaryBlocks.all (fun b => (getAsanChunk boundaryMem b).all fun m =>
    decide (b.mapBeg ≤ m ∧ viewEnd boundaryMem m ≤ b.mapEnd)) = true := by
  decide +kernel

/-- Two neighbouring blocks with a chunk each. -/
def boundaryHeap : BlockHeap where
  mem := boundaryMem
  blocks := boundaryBlocks
  pageSize := 4096
  disjoint := by
    simp only [boundaryBlocks, List.pairwise_cons, List.mem_singleton, forall_eq, Block.Owns,
      List.not_mem_nil, false_imp_iff, implies_true, List.Pairwise.nil, and_true]
    omega
  chunk_mem := by
    intro b hb m hm
    have hchunk := List.all_eq_true.mp boundaryBlocks_chunk b hb
    rw [hm] at hchunk
    simpa using hchunk
  mapEnd_lt := by
    decide

theorem boundaryHeap_left :
    boundaryHeap.Holds ⟨0x10000, 0x4000, true, 0x10000, 0x4000, 0x10000⟩ 0x10000 :=
  ⟨List.mem_cons_self, by decide +kernel⟩

theorem boundaryHeap_right :
    boundaryHeap.Holds ⟨0x14000, 0x4000, true, 0x14000, 0x4000, 0x15ff0⟩ 0x15ff0 :=
  ⟨List.mem_cons_of_mem _ List.mem_cons_self, by decide +kernel⟩

theorem boundaryHeap_preferred (addr : ℕ) : boundaryHeap.Preferred addr 0x10000 0x15ff0 :=
  .inl (by decide +kernel)

/-- The last address in the redzone from which the block before is searched. -/
theorem findHeapChunkByAddress_spec_boundary :
    boundaryHeap.findHeapChunkByAddress 0x14ffe = some (some 0x10000) := by
  obtain ⟨answer, hfind, hanswer⟩ := findHeapChunkByAddress_spec boundaryHeap 0x14ffe (by norm_num)
  rw [hfind, hanswer.left _ _ boundaryHeap_right (by decide) (by decide) _ _ boundaryHeap_left rfl
    (by decide) (boundaryHeap_preferred _)]

/-- The next address is still less than a page above the end of the block before, but that block is not
searched. -/
theorem findHeapChunkByAddress_boundary :
    ¬ ∃ answer, boundaryHeap.findHeapChunkByAddress 0x14fff = some answer ∧
      boundaryHeap.Answers (fun c => 0x14fff - c.mapEnd < boundaryHeap.pageSize) 0x14fff answer := by
  rintro ⟨answer, hfind, hanswer⟩
  have hbefore : boundaryHeap.chunkBefore 0x14fff = none ∨
      boundaryHeap.chunkBefore 0x14fff = some 0x15ff0 := by
    have hown : Block.Owns ⟨0x14000, 0x4000, true, 0x14000, 0x4000, 0x15ff0⟩ 0x14fff := by decide
    rcases chunkBefore_redzone (by norm_num) boundaryHeap_right hown
      with hnone | hsome | ⟨c, l, hc, hend, hnear, -⟩
    · exact .inl hnone
    · exact .inr hsome
    · rw [Near, hend] at hnear
      exact absurd hnear (by decide)
  have hright := findHeapChunkByAddress_alone boundaryHeap_right (by decide) (by decide) hbefore
  have hleft := hanswer.left _ _ boundaryHeap_right (by decide) (by decide) _ _ boundaryHeap_left rfl
    (by decide) (boundaryHeap_preferred _)
  rw [hright, hleft] at hfind
  exact absurd hfind (by decide)

end BlockHeap
end Tasan.Allocator
