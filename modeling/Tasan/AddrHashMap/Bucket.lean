import Tasan.Word

/-!
# The buckets of the address hash map

A bucket of `AddrHashMap` has three cells embedded, and an array of more cells once these are full.
The array is a header, `AddBucket`, which declares one cell and is followed by the others. Its first
allocation is of `kInitSize` bytes whatever the cells are, and each next one of twice the bytes that
the header and the cells take; the number of cells comes from the bytes by unsigned arithmetic.

One handle at a time is open on a bucket: a handle that creates or removes holds its mutex.
`acquire_inside_iff` says for which cells those that `acquire` hands out lie inside the allocation.
-/

namespace Tasan.AddrHashMap

/-- The layout of `Cell`: an address, and a value. -/
structure Layout where
  sizeofUptr : ℕ
  alignofCell : ℕ
  sizeofCell : ℕ
  /-- Words are not empty. -/
  sizeofUptr_pos : 0 < sizeofUptr
  /-- A cell is aligned at least as a word is. -/
  sizeofUptr_dvd : sizeofUptr ∣ alignofCell
  /-- The size of a cell is a multiple of its alignment. -/
  alignofCell_dvd : alignofCell ∣ sizeofCell
  /-- A cell holds more than the address. -/
  sizeofCell_gt : sizeofUptr < sizeofCell

namespace Layout

variable (L : Layout)

/-- The bits of a `uptr`. -/
def width : ℕ := 8 * L.sizeofUptr

/-- The offset of `cells` in `AddBucket`: two words, and the padding that the alignment needs. -/
def cellsOffset : ℕ := (2 * L.sizeofUptr + L.alignofCell - 1) / L.alignofCell * L.alignofCell

/-- `sizeof(AddBucket)`, with its one cell. -/
def sizeofAddBucket : ℕ := L.cellsOffset + L.sizeofCell

/-- `(bytes - sizeof(*add)) / sizeof(add->cells[0]) + 1`. -/
def capFor (bytes : ℕ) : ℕ :=
  Word.add L.width (Word.sub L.width bytes L.sizeofAddBucket / L.sizeofCell) 1

/-- `oldsize`: `sizeof(*add) + (cap - 1) * sizeof(add->cells[0])`. -/
def sizeFor (cap : ℕ) : ℕ :=
  Word.add L.width L.sizeofAddBucket (Word.sub L.width cap 1 * L.sizeofCell % 2^L.width)

/-- The bytes that an array of `cap` cells takes. -/
def bytesOf (cap : ℕ) : ℕ := L.sizeofAddBucket + (cap - 1) * L.sizeofCell

end Layout

/-- `kInitSize`. -/
def kInitSize : ℕ := 64

/-- `Cell`. -/
structure Cell (T : Type*) where
  addr : ℕ
  val : T

/-- `AddBucket`, as it lies in memory. -/
structure AddBucket (T : Type*) where
  /-- The bytes that were allocated for it. -/
  bytes : ℕ
  cap : ℕ
  size : ℕ
  cells : ℕ → Cell T

/-- `Bucket`. -/
structure Bucket (T : Type*) where
  /-- `cells`, of which there are `kBucketSize`. -/
  cells : Fin 3 → Cell T
  add : Option (AddBucket T)

/-- A cell of a bucket. -/
inductive CellRef
  /-- One of the embedded cells. -/
  | embed (i : Fin 3)
  /-- One of the cells of the add array. -/
  | add (i : ℕ)

/-- `Handle`. -/
structure Handle where
  addr : ℕ
  /-- `cell_` and `addidx_`. -/
  cell : Option CellRef
  created : Bool
  remove : Bool

variable {T : Type*} [Zero T]

/-- A cell of zero bytes. -/
def Cell.zero : Cell T := ⟨0, 0⟩

namespace AddBucket

/-- The first add array. -/
def first (L : Layout) : AddBucket T where
  bytes := kInitSize
  cap := L.capFor kInitSize
  size := 0
  cells := fun _ => Cell.zero

/-- "Grow existing add array." -/
def grow (L : Layout) (add : AddBucket T) : AddBucket T :=
  let newsize := L.sizeFor add.cap * 2 % 2^L.width
  { bytes := newsize
    cap := L.capFor newsize
    size := add.size
    cells := fun i => if i < add.size then add.cells i else Cell.zero }

end AddBucket

namespace Bucket

/-- A bucket of zero bytes. -/
def empty : Bucket T := ⟨fun _ => Cell.zero, none⟩

/-- The first embedded cell with an address. -/
def findEmbed (b : Bucket T) (addr : ℕ) : Option (Fin 3) :=
  (List.finRange 3).find? fun i => (b.cells i).addr = addr

/-- The first cell of the add array with an address. -/
def findAdd (b : Bucket T) (addr : ℕ) : Option ℕ :=
  b.add.bind fun add => (List.range add.size).find? fun i => (add.cells i).addr = addr

/-- The cell with an address: of the embedded cells, or else of the add array. -/
def find (b : Bucket T) (addr : ℕ) : Option CellRef :=
  ((b.findEmbed addr).map .embed).or ((b.findAdd addr).map .add)

/-- "Store in the add cells." `none` is a failed `CHECK_EQ`. -/
def storeAdd (L : Layout) (b : Bucket T) : Option (Bucket T × CellRef) :=
  let add := b.add.getD (AddBucket.first L)
  let add := if add.size = add.cap then add.grow L else add
  if (add.cells add.size).addr = 0 then
    some ({ b with add := some { add with size := add.size + 1 } }, .add add.size)
  else none

/-- `acquire`, while no other handle is open on the bucket. It looks for the address without the
mutex and then once more under it, and finds the same both times. `none` is a failed `CHECK`. -/
def acquire (L : Layout) (b : Bucket T) (addr : ℕ) (remove create : Bool) :
    Option (Bucket T × Handle) :=
  match b.find addr with
  | some ref => some (b, ⟨addr, some ref, false, remove⟩)
  | none =>
    if remove || !create then some (b, ⟨addr, none, false, remove⟩)
    else
      match b.findEmbed 0 with
      | some i => some (b, ⟨addr, some (.embed i), true, remove⟩)
      | none => (b.storeAdd L).map fun (b', ref) => (b', ⟨addr, some ref, true, remove⟩)

/-- What a cell holds. A cell of the add array is only looked at while there is one. -/
def cell (b : Bucket T) : CellRef → Option (Cell T)
  | .embed i => some (b.cells i)
  | .add i => b.add.map (·.cells i)

/-- A store to a cell. -/
def set (b : Bucket T) (ref : CellRef) (c : Cell T) : Bucket T :=
  match ref with
  | .embed i => { b with cells := Function.update b.cells i c }
  | .add i => { b with add := b.add.map fun add => { add with cells := Function.update add.cells i c } }

/-- `*h = v`, of a handle that has a cell. -/
def write (b : Bucket T) (h : Handle) (v : T) : Bucket T :=
  match h.cell with
  | none => b
  | some ref =>
    match b.cell ref with
    | none => b
    | some c => b.set ref { c with val := v }

/-- What `release` does to a bucket one of whose cells it has emptied: the last cell of the add
array is moved to it. -/
def compact (b : Bucket T) (ref : CellRef) : Bucket T :=
  match b.add with
  | none => b
  | some add =>
    let last := add.size - 1
    let c1 := add.cells last
    let emptied : AddBucket T :=
      { add with size := last, cells := Function.update add.cells last { c1 with addr := 0 } }
    match ref with
    | .embed _ => if add.size ≠ 0 then ({ b with add := some emptied }).set ref c1 else b
    | .add i =>
      if i ≠ last then ({ b with add := some emptied }).set ref c1
      else { b with add := some { add with size := last } }

/-- `release`; `none` is a failed `CHECK`. -/
def release (b : Bucket T) (h : Handle) : Option (Bucket T) :=
  match h.cell with
  | none => some b
  | some ref =>
    (b.cell ref).bind fun c =>
      if h.created then
        if c.addr = 0 then some (b.set ref { c with addr := h.addr }) else none
      else if h.remove then
        if c.addr = h.addr then some ((b.set ref { c with addr := 0 }).compact ref) else none
      else if c.addr = h.addr then some b
      else none

end Bucket

/-! ## Sizes -/

namespace Layout

variable (L : Layout)

theorem bounds : 2 ≤ L.sizeofCell ∧ L.sizeofCell ≤ L.sizeofAddBucket ∧ kInitSize < 2^L.width := by
  have hpos := L.sizeofUptr_pos
  have hgt := L.sizeofCell_gt
  refine ⟨by omega, Nat.le_add_left _ _, ?_⟩
  calc kInitSize < 2^8 := by decide
    _ ≤ 2^L.width := Nat.pow_le_pow_right (by decide) (Nat.le_mul_of_pos_right 8 hpos)

/-- The number of cells for an allocation that has room for the header: it is positive, the header
and the cells fit into the allocation, and one more cell does not. -/
theorem capFor_spec {bytes : ℕ} (h : L.sizeofAddBucket ≤ bytes) (hbytes : bytes < 2^L.width) :
    0 < L.capFor bytes ∧ L.bytesOf (L.capFor bytes) ≤ bytes ∧
      bytes < L.bytesOf (L.capFor bytes + 1) := by
  obtain ⟨hcell, hhead, -⟩ := L.bounds
  set q := (bytes - L.sizeofAddBucket) / L.sizeofCell with hq
  have hmod : L.sizeofCell * q + (bytes - L.sizeofAddBucket) % L.sizeofCell =
      bytes - L.sizeofAddBucket := Nat.div_add_mod _ _
  have hlt := Nat.mod_lt (bytes - L.sizeofAddBucket) (show 0 < L.sizeofCell by omega)
  have hq_le : q ≤ bytes - L.sizeofAddBucket := Nat.div_le_self _ _
  have hcap : L.capFor bytes = q + 1 := by
    rw [capFor, Word.sub_of_le h hbytes, ← hq, Word.add_of_lt (by omega)]
  rw [hcap, bytesOf, bytesOf, Nat.add_sub_cancel, Nat.add_sub_cancel, Nat.add_one_mul,
    Nat.mul_comm q]
  exact ⟨Nat.succ_pos q, by omega, by omega⟩

theorem sizeFor_eq {cap : ℕ} (hcap : 0 < cap) (h : L.bytesOf cap < 2^L.width) :
    L.sizeFor cap = L.bytesOf cap := by
  obtain ⟨hcell, hhead, -⟩ := L.bounds
  have hle : cap - 1 ≤ (cap - 1) * L.sizeofCell := Nat.le_mul_of_pos_right _ (by omega)
  rw [bytesOf] at h ⊢
  rw [sizeFor, Word.sub_of_le (show 1 ≤ cap from hcap) (by omega), Nat.mod_eq_of_lt (by omega), Word.add_of_lt h]

theorem capFor_pos (bytes : ℕ) : 0 < L.capFor bytes := by
  obtain ⟨hcell, -, -⟩ := L.bounds
  have hlt : Word.sub L.width bytes L.sizeofAddBucket < 2^L.width := Nat.mod_lt _ (Nat.two_pow_pos _)
  have hdiv : Word.sub L.width bytes L.sizeofAddBucket / L.sizeofCell + 1 < 2^L.width := by
    have h2 : 2 * (Word.sub L.width bytes L.sizeofAddBucket / L.sizeofCell) ≤
        Word.sub L.width bytes L.sizeofAddBucket :=
      (Nat.mul_le_mul_right _ hcell).trans (Nat.mul_div_le _ _)
    have hw : 64 < 2^L.width := L.bounds.2.2
    omega
  rw [capFor, Word.add_of_lt hdiv]
  exact Nat.succ_pos _

theorem cell_end_le {i cap : ℕ} (h : i < cap) :
    L.cellsOffset + (i + 1) * L.sizeofCell ≤ L.bytesOf cap := by
  have : i * L.sizeofCell ≤ (cap - 1) * L.sizeofCell := Nat.mul_le_mul_right _ (by omega)
  rw [bytesOf, sizeofAddBucket, Nat.add_one_mul]
  omega

end Layout

/-! ## What every step keeps -/

namespace AddBucket

omit [Zero T] in
/-- What holds of an add array at any time: its header and its cells lie in the allocation, it has
no more elements than cells, and the cells after its elements are free. -/
structure Sound (L : Layout) (add : AddBucket T) : Prop where
  /-- There is a cell. -/
  cap_pos : 0 < add.cap
  /-- The header and the cells lie in the allocation. -/
  bytesOf_le : L.bytesOf add.cap ≤ add.bytes
  /-- The size of the allocation does not wrap. -/
  bytes_lt : add.bytes < 2^L.width
  /-- There are no more elements than cells. -/
  size_le : add.size ≤ add.cap
  /-- The other cells are free. -/
  free : ∀ i, add.size ≤ i → (add.cells i).addr = 0

theorem sound_first {L : Layout} (hL : L.sizeofAddBucket ≤ kInitSize) :
    (first L : AddBucket T).Sound L := by
  obtain ⟨hpos, hle, -⟩ := L.capFor_spec hL L.bounds.2.2
  exact ⟨hpos, hle, L.bounds.2.2, Nat.zero_le _, fun _ _ => rfl⟩

/-- A doubled array has room for another element. -/
theorem Sound.grow {L : Layout} {add : AddBucket T} (h : add.Sound L)
    (hfits : L.bytesOf add.cap * 2 < 2^L.width) :
    (add.grow L).Sound L ∧ add.size < (add.grow L).cap := by
  have hsize : L.sizeFor add.cap * 2 % 2^L.width = L.bytesOf add.cap * 2 := by
    rw [L.sizeFor_eq h.cap_pos (by omega), Nat.mod_eq_of_lt hfits]
  have hroom : L.sizeofAddBucket ≤ L.bytesOf add.cap * 2 := by
    rw [Layout.bytesOf]
    omega
  obtain ⟨hpos, hle, hlt⟩ := L.capFor_spec hroom hfits
  have hcap : add.cap < L.capFor (L.bytesOf add.cap * 2) := by
    -- the header's own cell alone takes as much as one more cell
    have hhead := L.bounds.2.1
    generalize L.capFor (L.bytesOf add.cap * 2) = cap' at hlt ⊢
    obtain ⟨k, hk⟩ : ∃ k, add.cap = k + 1 := ⟨add.cap - 1, by have := h.cap_pos; omega⟩
    rw [hk] at hlt ⊢
    rw [Layout.bytesOf, Layout.bytesOf, Nat.add_sub_cancel, Nat.add_sub_cancel] at hlt
    refine Nat.lt_of_mul_lt_mul_right (a := L.sizeofCell) ?_
    rw [Nat.add_one_mul]
    omega
  have hgrow : (add.grow L).bytes = L.bytesOf add.cap * 2 ∧
      (add.grow L).cap = L.capFor (L.bytesOf add.cap * 2) := by
    rw [AddBucket.grow, hsize]
    exact ⟨rfl, rfl⟩
  refine ⟨⟨?_, ?_, ?_, ?_, fun i hi => ?_⟩, ?_⟩
  · rwa [hgrow.2]
  · rwa [hgrow.1, hgrow.2]
  · rwa [hgrow.1]
  · exact h.size_le.trans (hgrow.2 ▸ hcap.le)
  · exact congrArg Cell.addr (if_neg (Nat.not_lt.mpr hi))
  · exact hgrow.2 ▸ h.size_le.trans_lt hcap

omit [Zero T] in
theorem Sound.set {L : Layout} {add : AddBucket T} (h : add.Sound L) {i : ℕ} (hi : i < add.size)
    (c : Cell T) : ({ add with cells := Function.update add.cells i c } : AddBucket T).Sound L where
  cap_pos := h.cap_pos
  bytesOf_le := h.bytesOf_le
  bytes_lt := h.bytes_lt
  size_le := h.size_le
  free := fun j hj => by
    have hne : j ≠ i := fun hji => Nat.not_lt.mpr (hji ▸ hj) hi
    exact (congrArg Cell.addr (Function.update_of_ne hne c add.cells)).trans (h.free j hj)

omit [Zero T] in
theorem Sound.pop {L : Layout} {add : AddBucket T} (h : add.Sound L) {cells : ℕ → Cell T}
    (hlast : (cells (add.size - 1)).addr = 0) (hfree : ∀ j, add.size ≤ j → cells j = add.cells j) :
    ({ add with size := add.size - 1, cells := cells } : AddBucket T).Sound L where
  cap_pos := h.cap_pos
  bytesOf_le := h.bytesOf_le
  bytes_lt := h.bytes_lt
  size_le := (Nat.sub_le _ _).trans h.size_le
  free := fun j hj => by
    rcases Nat.lt_or_ge j add.size with hlt | hge
    · obtain rfl : j = add.size - 1 := by
        have : add.size - 1 ≤ j := hj
        omega
      exact hlast
    · exact (congrArg Cell.addr (hfree j hge)).trans (h.free j hge)

end AddBucket

namespace Bucket

variable {L : Layout} {b b' : Bucket T}

omit [Zero T] in
/-- The add array of a bucket is sound. -/
def Sound (L : Layout) (b : Bucket T) : Prop := ∀ add, b.add = some add → add.Sound L

/-- A cell of the add array is that of an element. -/
def Valid (b : Bucket T) (ref : CellRef) : Prop :=
  ∀ i, ref = .add i → ∃ add, b.add = some add ∧ i < add.size

/-- The array that the next creation may have to double is less than half of the address space. -/
def GrowthFits (L : Layout) (b : Bucket T) : Prop :=
  ∀ add, b.add = some add → add.size = add.cap → L.bytesOf add.cap * 2 < 2^L.width

omit [Zero T] in
theorem valid_of_find {addr : ℕ} {ref : CellRef} (h : b.find addr = some ref) : b.Valid ref := by
  rintro i rfl
  rw [find, Option.or_eq_some_iff] at h
  rcases h with h | ⟨-, h⟩
  · obtain ⟨j, -, hj⟩ := Option.map_eq_some_iff.mp h
    exact CellRef.noConfusion hj
  · obtain ⟨j, hfind, hj⟩ := Option.map_eq_some_iff.mp h
    obtain rfl : j = i := CellRef.add.inj hj
    obtain ⟨add, hadd, hmem⟩ := Option.bind_eq_some_iff.mp hfind
    exact ⟨add, hadd, List.mem_range.mp (List.mem_of_find?_eq_some hmem)⟩

/-- A new element of the add array has a cell. -/
theorem storeAdd_spec (hL : L.sizeofAddBucket ≤ kInitSize) (hb : b.Sound L) (hfits : b.GrowthFits L) :
    ∃ add i, b.storeAdd L = some ({ b with add := some add }, .add i) ∧ add.Sound L ∧
      i < add.size := by
  have room : ∀ add : AddBucket T, add.Sound L → add.size < add.cap →
      ({ add with size := add.size + 1 } : AddBucket T).Sound L := fun add h hlt =>
    ⟨h.cap_pos, h.bytesOf_le, h.bytes_lt, hlt, fun i hi => h.free i (Nat.le_of_succ_le hi)⟩
  -- the array before the element is stored has room for it
  suffices h : ∃ add : AddBucket T, add.Sound L ∧ add.size < add.cap ∧
      (let add := b.add.getD (AddBucket.first L)
       if add.size = add.cap then add.grow L else add) = add by
    obtain ⟨add, hsound, hlt, heq⟩ := h
    refine ⟨{ add with size := add.size + 1 }, add.size, ?_, room add hsound hlt, Nat.lt_succ_self _⟩
    simp only [storeAdd, heq]
    exact if_pos (hsound.free add.size le_rfl)
  rcases hadd : b.add with - | add
  · have hfirst := AddBucket.sound_first (T := T) hL
    refine ⟨AddBucket.first L, hfirst, hfirst.cap_pos, ?_⟩
    exact if_neg hfirst.cap_pos.ne
  · have hsound := hb add hadd
    by_cases hfull : add.size = add.cap
    · obtain ⟨hgrow, hlt⟩ := hsound.grow (hfits add hadd hfull)
      exact ⟨add.grow L, hgrow, hlt, if_pos hfull⟩
    · exact ⟨add, hsound, Nat.lt_of_le_of_ne hsound.size_le hfull, if_neg hfull⟩

/-- `acquire` does not fail, keeps the bucket sound and returns the cell of an element, if any. -/
theorem acquire_spec (hL : L.sizeofAddBucket ≤ kInitSize) (hb : b.Sound L) (hfits : b.GrowthFits L)
    (addr : ℕ) (remove create : Bool) :
    ∃ b' h, b.acquire L addr remove create = some (b', h) ∧ b'.Sound L ∧
      ∀ ref, h.cell = some ref → b'.Valid ref := by
  rw [acquire]
  cases hfind : b.find addr with
  | some ref =>
    refine ⟨b, _, rfl, hb, fun ref' href => ?_⟩
    obtain rfl : ref = ref' := Option.some.inj href
    exact valid_of_find hfind
  | none =>
    by_cases hcreate : (remove || !create) = true
    · exact ⟨b, _, if_pos hcreate, hb, fun ref href => (Option.some_ne_none _ href.symm).elim⟩
    · simp only [if_neg hcreate]
      cases hempty : b.findEmbed 0 with
      | some i =>
        refine ⟨b, _, rfl, hb, fun ref href j hj => ?_⟩
        obtain rfl : CellRef.embed i = ref := Option.some.inj href
        exact CellRef.noConfusion hj
      | none =>
        obtain ⟨add, i, hstore, hsound, hlt⟩ := storeAdd_spec hL hb hfits
        refine ⟨{ b with add := some add }, ⟨addr, some (.add i), true, remove⟩, by rw [hstore]; rfl,
          fun add' hadd' => ?_, fun ref href j hj => ?_⟩
        · obtain rfl : add = add' := Option.some.inj hadd'
          exact hsound
        · obtain rfl : i = j := CellRef.add.inj ((Option.some.inj href).trans hj)
          exact ⟨add, rfl, hlt⟩

omit [Zero T] in
theorem Sound.set (hb : b.Sound L) {ref : CellRef} (href : b.Valid ref) (c : Cell T) :
    (b.set ref c).Sound L := by
  cases ref with
  | embed i => exact hb
  | add i =>
    obtain ⟨add, hadd, hi⟩ := href i rfl
    intro add' hadd'
    obtain rfl := Option.some.inj ((congrArg (Option.map _) hadd).symm.trans hadd')
    exact (hb add hadd).set hi c

omit [Zero T] in
theorem Valid.set {ref ref' : CellRef} (href : b.Valid ref) (c : Cell T) :
    (b.set ref' c).Valid ref := by
  cases ref' with
  | embed i => exact href
  | add i =>
    rintro j rfl
    obtain ⟨add, hadd, hj⟩ := href j rfl
    exact ⟨_, congrArg (Option.map _) hadd, hj⟩

omit [Zero T] in
theorem cell_set {ref : CellRef} (href : b.Valid ref) (c : Cell T) :
    (b.set ref c).cell ref = some c := by
  cases ref with
  | embed i => exact congrArg some (Function.update_self ..)
  | add i =>
    obtain ⟨add, hadd, -⟩ := href i rfl
    rw [cell, Bucket.set, hadd]
    exact congrArg some (Function.update_self ..)

omit [Zero T] in
/-- The add array loses its last element, which moves to the cell that has become free. -/
theorem Sound.compact (hb : b.Sound L) {ref : CellRef} (href : b.Valid ref)
    (hfree : ∀ c, b.cell ref = some c → c.addr = 0) : (b.compact ref).Sound L := by
  cases hadd : b.add with
  | none =>
    rw [Bucket.compact, hadd]
    exact hb
  | some add =>
    have hsound := hb add hadd
    -- the last cell emptied
    set emptied : AddBucket T :=
      { add with
        size := add.size - 1
        cells := Function.update add.cells (add.size - 1) { add.cells (add.size - 1) with addr := 0 } }
      with hemptied
    have hzero : (emptied.cells (add.size - 1)).addr = 0 := by
      simp only [hemptied, Function.update_self]
    cases ref with
    | embed i =>
      by_cases hsize : add.size ≠ 0
      · have hres : (b.compact (.embed i)).add = some emptied := by
          simp only [Bucket.compact, hadd, if_pos hsize]
          rfl
        intro add' hadd'
        obtain rfl : emptied = add' := Option.some.inj (hres.symm.trans hadd')
        refine hsound.pop hzero fun j hj => ?_
        exact Function.update_of_ne (show j ≠ add.size - 1 by omega) _ _
      · have hres : b.compact (.embed i) = b := by simp only [Bucket.compact, hadd, if_neg hsize]
        rwa [hres]
    | add i =>
      obtain ⟨add', hadd', hi⟩ := href i rfl
      obtain rfl : add = add' := Option.some.inj (hadd.symm.trans hadd')
      by_cases hlast : i ≠ add.size - 1
      · have hres : (b.compact (.add i)).add =
            some { emptied with cells := Function.update emptied.cells i (add.cells (add.size - 1)) } := by
          simp only [Bucket.compact, hadd, if_pos hlast]
          rfl
        intro add' hadd''
        obtain rfl := Option.some.inj (hres.symm.trans hadd'')
        refine hsound.pop ?_ fun j hj => ?_
        · rwa [Function.update_of_ne hlast.symm]
        · rw [Function.update_of_ne (by omega)]
          exact Function.update_of_ne (show j ≠ add.size - 1 by omega) _ _
      · have hres : (b.compact (.add i)).add = some { add with size := add.size - 1 } := by
          simp only [Bucket.compact, hadd, if_neg hlast]
        intro add' hadd''
        obtain rfl := Option.some.inj (hres.symm.trans hadd'')
        have hfree' : (add.cells i).addr = 0 := hfree _ (congrArg (Option.map _) hadd)
        exact hsound.pop (not_not.mp hlast ▸ hfree') fun _ _ => rfl

omit [Zero T] in
theorem Sound.write (hb : b.Sound L) {h : Handle} (hh : ∀ ref, h.cell = some ref → b.Valid ref)
    (v : T) : (b.write h v).Sound L ∧ ∀ ref, h.cell = some ref → (b.write h v).Valid ref := by
  rw [Bucket.write]
  split
  · exact ⟨hb, hh⟩
  · next ref href =>
    split
    · exact ⟨hb, hh⟩
    · exact ⟨hb.set (hh ref href) _, fun ref' href' => (hh ref' href').set _⟩

omit [Zero T] in
theorem Sound.release (hb : b.Sound L) {h : Handle} (hh : ∀ ref, h.cell = some ref → b.Valid ref)
    (hrel : b.release h = some b') : b'.Sound L := by
  rw [Bucket.release] at hrel
  split at hrel
  · exact Option.some.inj hrel ▸ hb
  · next ref href =>
    obtain ⟨c, -, hrel⟩ := Option.bind_eq_some_iff.mp hrel
    have hvalid := hh ref href
    split_ifs at hrel
    · exact Option.some.inj hrel ▸ hb.set hvalid _
    · refine Option.some.inj hrel ▸ (hb.set hvalid _).compact (hvalid.set _) fun c' hc' => ?_
      exact (congrArg Cell.addr (Option.some.inj ((cell_set hvalid _).symm.trans hc'))).symm
    · exact Option.some.inj hrel ▸ hb

end Bucket

/-! ## Runs -/

section Runs

/-- The states of a bucket that has been empty at first: after each step one more handle has been
acquired, written to, and released. No step has had to double an array of half the address space or
more. -/
inductive Reachable (T : Type*) [Zero T] (L : Layout) : Bucket T → Prop
  /-- The empty bucket. -/
  | empty : Reachable T L Bucket.empty
  /-- A handle. -/
  | step {b b₁ b' : Bucket T} {h : Handle} {addr : ℕ} {remove create : Bool} (v : T) :
    Reachable T L b → b.GrowthFits L → b.acquire L addr remove create = some (b₁, h) →
      (b₁.write h v).release h = some b' → Reachable T L b'

/-- What a handle is promised: the header of the add array and its cells lie in the allocation, the
array has no more elements than cells, and the cell of the handle, where it is one of the array, lies
in the allocation. -/
structure Inside (L : Layout) (b : Bucket T) (h : Handle) : Prop where
  /-- The header and the cells lie in the allocation. -/
  bytesOf_le : ∀ add, b.add = some add → L.bytesOf add.cap ≤ add.bytes
  /-- There are no more elements than cells. -/
  size_le : ∀ add, b.add = some add → add.size ≤ add.cap
  /-- The cell lies in the allocation. -/
  cell_le : ∀ i, h.cell = some (.add i) →
    ∃ add, b.add = some add ∧ L.cellsOffset + (i + 1) * L.sizeofCell ≤ add.bytes

variable {L : Layout} {b b₁ : Bucket T} {h : Handle}

theorem Reachable.sound (hL : L.sizeofAddBucket ≤ kInitSize) (h : Reachable T L b) : b.Sound L := by
  induction h with
  | empty => exact fun add hadd => (Option.some_ne_none _ hadd.symm).elim
  | step v _ hfits hacq hrel ih =>
    obtain ⟨b₁, h, hacq', hsound, hvalid⟩ := Bucket.acquire_spec hL ih hfits _ _ _
    obtain ⟨rfl, rfl⟩ := Prod.mk.inj (Option.some.inj (hacq.symm.trans hacq'))
    have hwrite := hsound.write hvalid v
    exact hwrite.1.release hwrite.2 hrel

omit [Zero T] in
theorem inside_of_sound (hb : b.Sound L) (hh : ∀ ref, h.cell = some ref → b.Valid ref) :
    Inside L b h where
  bytesOf_le := fun add hadd => (hb add hadd).bytesOf_le
  size_le := fun add hadd => (hb add hadd).size_le
  cell_le := fun i hi => by
    obtain ⟨add, hadd, hlt⟩ := hh _ hi i rfl
    have hsound := hb add hadd
    exact ⟨add, hadd, (L.cell_end_le (hlt.trans_le hsound.size_le)).trans hsound.bytesOf_le⟩

/-- Three embedded cells in use. -/
def threeKeys : Bucket T := ⟨fun i => ⟨i + 1, 0⟩, none⟩

theorem reachable_threeKeys : Reachable T L threeKeys := by
  have step : ∀ (b : Bucket T) (i : Fin 3), Reachable T L b → b.add = none →
      b.find (i + 1) = none → b.findEmbed 0 = some i → (b.cells i).addr = 0 → 
      Reachable T L ⟨Function.update b.cells i ⟨i + 1, 0⟩, none⟩ := by
    intro b i hb hadd hfind hempty haddr
    have hacq : b.acquire L (i + 1) false true = some (b, ⟨i + 1, some (.embed i), true, false⟩) := by
      simp [Bucket.acquire, hfind, hempty]
    refine .step (0 : T) hb (fun add h => ?_) hacq ?_
    · exact (Option.some_ne_none _ (h.symm.trans hadd)).elim
    · simp [Bucket.write, Bucket.release, Bucket.cell, Bucket.set, haddr, hadd]
  have h1 := step Bucket.empty 0 .empty rfl rfl rfl rfl
  have h2 := step _ 1 h1 rfl rfl rfl rfl
  have h3 := step _ 2 h2 rfl rfl rfl rfl
  convert h3 using 2
  · funext i
    fin_cases i <;> rfl
  · rfl

theorem acquire_threeKeys : ∃ b₁ h, (threeKeys : Bucket T).acquire L 4 false true = some (b₁, h) ∧
    h.cell = some (.add 0) ∧ ∃ add, b₁.add = some add ∧ add.bytes = kInitSize := by
  have hcap := (L.capFor_pos kInitSize).ne
  refine ⟨⟨threeKeys.cells, some { AddBucket.first L with size := 1 }⟩,
    ⟨4, some (.add 0), true, false⟩, ?_, rfl, _, rfl, rfl⟩
  have hstore : (threeKeys : Bucket T).storeAdd L =
      some (⟨threeKeys.cells, some { AddBucket.first L with size := 1 }⟩, .add 0) := by
    simp [Bucket.storeAdd, threeKeys, AddBucket.first, hcap, Cell.zero]
  have hfind : (threeKeys : Bucket T).find 4 = none := rfl
  have hempty : (threeKeys : Bucket T).findEmbed 0 = none := rfl
  simp [Bucket.acquire, hfind, hempty, hstore]

/-- In every run, `acquire` fails no check and what it hands out lies in the allocation, if and only
if the header of the add array, with the one cell that it declares, fits into the first allocation of
`kInitSize` bytes. -/
theorem acquire_inside_iff (T : Type*) [Zero T] (L : Layout) :
    (∀ b : Bucket T, Reachable T L b → b.GrowthFits L → ∀ addr remove create,
      ∃ b₁ h, b.acquire L addr remove create = some (b₁, h) ∧ Inside L b₁ h) ↔
    L.sizeofAddBucket ≤ kInitSize := by
  constructor
  · intro hall
    obtain ⟨b₁, h, hacq, -, add, hadd, hbytes⟩ := acquire_threeKeys (T := T) (L := L)
    obtain ⟨b₂, h₂, hacq₂, hinside⟩ := hall threeKeys reachable_threeKeys
      (fun add h => (Option.some_ne_none _ h.symm).elim) 4 false true
    obtain ⟨rfl, rfl⟩ := Prod.mk.inj (Option.some.inj (hacq.symm.trans hacq₂))
    calc L.sizeofAddBucket ≤ L.bytesOf add.cap := Nat.le_add_right _ _
      _ ≤ add.bytes := hinside.bytesOf_le add hadd
      _ = kInitSize := hbytes
  · intro hL b hb hfits addr remove create
    obtain ⟨b₁, h, hacq, hsound, hvalid⟩ :=
      Bucket.acquire_spec hL (hb.sound hL) hfits addr remove create
    exact ⟨b₁, h, hacq, inside_of_sound hsound hvalid⟩

theorem sizeof_uptr_pos : 0 < 8 := by decide

/-- The layout of cells with values of 48 bytes, on a 64-bit machine. -/
def wideLayout : Layout where
  sizeofUptr := 8
  alignofCell := 8
  sizeofCell := 56
  sizeofUptr_pos := sizeof_uptr_pos
  sizeofUptr_dvd := by decide
  alignofCell_dvd := by decide
  sizeofCell_gt := by decide

/-- With values of 48 bytes the fourth colliding address is handed a cell that ends 8 bytes past the
allocation. -/
theorem acquire_wideLayout : Reachable ℕ wideLayout threeKeys ∧
    ∃ b₁ h, (threeKeys : Bucket ℕ).acquire wideLayout 4 false true = some (b₁, h) ∧
      h.cell = some (.add 0) ∧ ¬Inside wideLayout b₁ h := by
  obtain ⟨b₁, h, hacq, hcell, add, hadd, hbytes⟩ := acquire_threeKeys (T := ℕ) (L := wideLayout)
  refine ⟨reachable_threeKeys, b₁, h, hacq, hcell, fun hinside => ?_⟩
  obtain ⟨add', hadd', hle⟩ := hinside.cell_le 0 hcell
  obtain rfl : add = add' := Option.some.inj (hadd.symm.trans hadd')
  rw [hbytes] at hle
  exact absurd hle (by decide)

end Runs

end Tasan.AddrHashMap
