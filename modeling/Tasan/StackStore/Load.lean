import Tasan.Codec.LzwRuns
import Tasan.StackStore.Alloc

/-!
# Every stored trace is loaded back

A run of the store is any sequence of `Store`, `Pack` and `Load`. Behind the representation of a
block, which changes with packing and unpacking, there is its content, a function from positions to
words, and `Holds` says that a block represents a content. `Store` changes the content of a block only
inside the range it was given, `Pack` and `Load` change no content at all, and both codecs are
lossless on an encoding that left an eighth of the block unused. So a trace whose range was written
stays where it is, and `Load` finds it.
-/

namespace Tasan.StackStore

open Codec

variable {P : Params}

/-! ## Blocks and their contents -/

/-- The block represents the content `f`. -/
def BlockInfo.Holds (P : Params) (b : BlockInfo) (f : ℕ → Word64) : Prop :=
  match b.data with
  | none => b.state ≠ .packed ∧ f = fun _ => 0
  | some (.raw frames _) => b.state ≠ .packed ∧ ∀ i < P.kBlockSizeFrames, frames i = f i
  | some (.packed type data) => b.state = .packed ∧ uncompress type data = some (frameList P f) ∧
      sizeofPackedHeader ≤ packedDataOffset + data.length ∧
      packedDataOffset + data.length ≤ P.kBlockSizeBytes

/-- The block can still be written. -/
def BlockInfo.Writable (b : BlockInfo) : Prop :=
  b.data = none ∨ ∃ frames, b.data = some (.raw frames false)

/-- The block `b'` has replaced `b` without a change of its content. -/
structure Repacked (P : Params) (f : ℕ → Word64) (b b' : BlockInfo) : Prop where
  /-- The content is the same. -/
  holds : b'.Holds P f
  /-- The counter is the same. -/
  stored : b'.stored = b.stored
  /-- Memory is not lost. -/
  data : b.data ≠ none → b'.data ≠ none
  /-- A block that is not complete is not protected. -/
  writable : b.stored ≠ P.kBlockSizeFrames → b.Writable → b'.Writable

theorem Repacked.refl {f : ℕ → Word64} {b : BlockInfo} (h : b.Holds P f) : Repacked P f b b :=
  ⟨h, rfl, id, fun _ => id⟩

theorem frameList_congr {f g : ℕ → Word64} (h : ∀ i < P.kBlockSizeFrames, f i = g i) :
    frameList P f = frameList P g :=
  List.map_congr_left fun i hi => h i (List.mem_range.mp hi)

theorem frameList_getD (f : ℕ → Word64) {i : ℕ} (hi : i < P.kBlockSizeFrames) :
    (frameList P f).getD i 0 = f i := by
  simp [frameList, hi]

theorem length_frameList (f : ℕ → Word64) : (frameList P f).length = P.kBlockSizeFrames := by
  simp [frameList]

/-! ## Packing -/

theorem length_lt_cap {n : ℕ}
    (h : ¬ P.kBlockSizeBytes - (packedDataOffset + n) < P.kBlockSizeBytes / 8) :
    n < P.kBlockSizeBytes - packedDataOffset := by
  have := P.lt
  unfold Params.kBlockSizeBytes packedDataOffset at h ⊢
  omega

theorem lzw_frameList (f : ℕ → Word64) :
    ∃ ws, lzwEncode (fun a b => decide (a ≤ b)) id (frameList P f) = some ws ∧
      lzwDecode id ws = some (frameList P f) ∧ P.kBlockSizeFrames ≤ ws.length * ws.length := by
  have hlen : 2 * (frameList P f).length < kNoPrefix := by
    rw [length_frameList]
    have := P.le
    unfold kNoPrefix
    omega
  obtain ⟨ws, hws, hdec, hsq⟩ := lzwDecode_lzwEncode (fun a b => decide (a ≤ b)) id id
    (fun _ => rfl) (frameList P f) hlen
  rw [length_frameList] at hsq
  exact ⟨ws, hws, hdec, hsq⟩

/-- What was compressed without filling the block is uncompressed to the same words, and is not
shorter than a header with its padding. -/
theorem uncompress_compress {type : Compression} {f : ℕ → Word64} {data : List Byte}
    (hdata : compress P type (frameList P f) = some data)
    (hsize : ¬ P.kBlockSizeBytes - (packedDataOffset + data.length) < P.kBlockSizeBytes / 8) :
    uncompress type data = some (frameList P f) ∧
      sizeofPackedHeader ≤ packedDataOffset + data.length ∧
      packedDataOffset + data.length ≤ P.kBlockSizeBytes := by
  have hB := P.lt
  have hcap := length_lt_cap hsize
  have hle : packedDataOffset + data.length ≤ P.kBlockSizeBytes := by omega
  have hmin : 16 ≤ data.length → sizeofPackedHeader ≤ packedDataOffset + data.length := by
    intro h
    unfold sizeofPackedHeader packedDataOffset
    omega
  cases type with
  | none => exact absurd hdata (by simp [compress])
  | delta =>
    simp only [compress, Option.some.injEq] at hdata
    subst hdata
    have hlen := length_le_encodeDelta_length 0 _ _ hcap
    rw [length_frameList] at hlen
    exact ⟨decodeDelta_encodeDelta 0 _ _ _ hcap le_rfl, hmin (by omega), hle⟩
  | lzw =>
    obtain ⟨ws, hws, hdec, hsq⟩ := lzw_frameList (P := P) f
    simp only [compress, hws, Option.map_some, Option.some.injEq] at hdata
    subst hdata
    have hlen := length_le_encodeDelta_length 0 _ _ hcap
    -- The square of the number of codes is at least the number of words.
    have h16 : 16 ≤ ws.length := by
      by_contra hlt
      have := Nat.mul_le_mul (show ws.length ≤ 15 by omega) (show ws.length ≤ 15 by omega)
      omega
    refine ⟨?_, hmin (by omega), hle⟩
    simp only [uncompress, decodeDelta_encodeDelta 0 ws _ _ hcap le_rfl, Option.bind_some, hdec]

theorem compress_isSome {type : Compression} (h : type ≠ .none) (f : ℕ → Word64) :
    ∃ data, compress P type (frameList P f) = some data := by
  cases type with
  | none => exact absurd rfl h
  | delta => exact ⟨_, rfl⟩
  | lzw =>
    obtain ⟨ws, hws, -⟩ := lzw_frameList (P := P) f
    simp only [compress, hws, Option.map_some]
    exact ⟨_, rfl⟩

/-- `Pack` of a block changes its representation only, and leaves a block alone that is not
complete. -/
theorem BlockInfo.pack_spec {b : BlockInfo} {f : ℕ → Word64} (h : b.Holds P f) (type : Compression)
    (allocated : ℕ) : ∃ b' allocated' released,
      b.pack P type allocated = .ok (b', allocated', released) ∧ Repacked P f b b' := by
  unfold BlockInfo.pack
  by_cases h1 : type = .none ∨ b.state ≠ .storing
  · rw [if_pos h1]
    exact ⟨_, _, _, rfl, Repacked.refl h⟩
  · rw [if_neg h1]
    obtain ⟨htype, hstate⟩ := not_or.mp h1
    rw [not_not] at hstate
    unfold BlockInfo.Holds at h
    match hd : b.data with
    | none => exact ⟨_, _, _, rfl, Repacked.refl (by simpa only [BlockInfo.Holds, hd] using h)⟩
    | some (.packed _ _) =>
      rw [hd] at h
      exact absurd h.1 (by rw [hstate]; decide)
    | some (.raw frames ro) =>
      rw [hd] at h
      by_cases h2 : b.stored = P.kBlockSizeFrames
      · have hfull : (b.addStored P 0).2 = true := by simp [BlockInfo.addStored, h2]
        obtain ⟨data, hdata⟩ := compress_isSome (P := P) htype f
        simp only [hfull, frameList_congr h.2, hdata, Bool.not_true, Bool.false_eq_true, if_false]
        split_ifs with h3
        · exact ⟨_, _, _, rfl, ⟨by simp, h.2⟩, rfl, by simp, fun h4 => absurd h2 h4⟩
        · exact ⟨_, _, _, rfl, ⟨rfl, uncompress_compress hdata h3⟩, rfl, by simp,
            fun h4 => absurd h2 h4⟩
      · have hfull : (b.addStored P 0).2 = false := by simp [BlockInfo.addStored, h2]
        simp only [hfull, Bool.not_false, if_true]
        exact ⟨_, _, _, rfl, Repacked.refl (by simpa only [BlockInfo.Holds, hd] using h)⟩

/-- `GetOrUnpack` changes the representation only, and leaves frames or no memory at all. -/
theorem BlockInfo.getOrUnpack_spec {b : BlockInfo} {f : ℕ → Word64} (h : b.Holds P f)
    (allocated : ℕ) : ∃ b' allocated', b.getOrUnpack P allocated = .ok (b', allocated') ∧
      Repacked P f b b' ∧ b'.state = .unpacked := by
  unfold BlockInfo.getOrUnpack
  match hs : b.state with
  | .unpacked => exact ⟨_, _, rfl, Repacked.refl h, hs⟩
  | .storing =>
    refine ⟨_, _, rfl, ⟨?_, rfl, id, fun _ => id⟩, rfl⟩
    unfold BlockInfo.Holds at h ⊢
    match hd : b.data with
    | none =>
      rw [hd] at h
      exact ⟨by simp, h.2⟩
    | some (.raw frames ro) =>
      rw [hd] at h
      exact ⟨by simp, h.2⟩
    | some (.packed _ _) =>
      rw [hd] at h
      exact absurd h.1 (by rw [hs]; decide)
  | .packed =>
    unfold BlockInfo.Holds at h
    match hd : b.data with
    | none =>
      rw [hd] at h
      exact absurd hs h.1
    | some (.raw frames ro) =>
      rw [hd] at h
      exact absurd hs h.1
    | some (.packed type data) =>
      rw [hd] at h
      obtain ⟨-, hun, hmin, hmax⟩ := h
      simp only [hun, length_frameList, check, hmin, hmax, decide_true, if_true, ok_bind, beq_self_eq_true]
      refine ⟨_, _, rfl, ⟨⟨by simp, fun i hi => frameList_getD f hi⟩, rfl, by simp, ?_⟩, rfl⟩
      rintro - (hw | ⟨_, hw⟩)
      · exact absurd (hd.symm.trans hw) (by simp)
      · exact absurd (hd.symm.trans hw) (by simp)

/-! ## Traces -/

/-- The trace is at position `pos` of a content. -/
def TraceAt (f : ℕ → Word64) (pos : ℕ) (trace : StackTrace) : Prop :=
  f pos = headerToUptr (headerSize trace) trace.tag ∧
    ∀ k < headerSize trace, f (pos + 1 + k) = trace.frames.getD k 0

theorem headerToUptr_toNat {size tag : ℕ} (hsize : size < 256) (htag : tag < 256) :
    (headerToUptr size tag).toNat = tag * 256 + size := by
  have h := Nat.shiftLeft_add_eq_or_of_lt (i := 8) (b := size) (by omega) tag
  unfold headerToUptr
  rw [BitVec.toNat_ofNat, Nat.or_comm, ← h, Nat.shiftLeft_eq]
  omega

theorem readTrace_of_traceAt {f : ℕ → Word64} {pos : ℕ} {trace : StackTrace}
    (h : TraceAt f pos trace) (htag : trace.tag < 256) :
    readTrace f pos = ⟨trace.frames.take 255, trace.tag⟩ := by
  have hsize : headerSize trace < 256 := by
    unfold headerSize
    omega
  have hhead := headerToUptr_toNat hsize htag
  have h1 : (trace.tag * 256 + headerSize trace) % 2^8 = headerSize trace := by omega
  have h2 : (trace.tag * 256 + headerSize trace) / 2^8 % 2^8 = trace.tag := by omega
  unfold readTrace
  simp only [h.1, hhead, Nat.shiftRight_eq_div_pow, h1, h2, StackTrace.mk.injEq, and_true]
  apply List.ext_getElem
  · simp [headerSize, min_comm]
  · intro k hk1 hk2
    simp only [List.length_map, List.length_range] at hk1
    simp only [List.getElem_map, List.getElem_range, List.getElem_take, h.2 k hk1]
    unfold headerSize at hk1
    exact List.getD_eq_getElem _ _ (by omega)

theorem traceAt_writeTrace (f : ℕ → Word64) (pos : ℕ) (trace : StackTrace) :
    TraceAt (writeTrace f pos trace) pos trace := by
  unfold writeTrace
  refine ⟨if_pos rfl, fun k hk => ?_⟩
  dsimp only
  rw [if_neg (by omega), if_pos (by omega), show pos + 1 + k - pos - 1 = k by omega]

theorem TraceAt.writeTrace {f : ℕ → Word64} {pos pos' : ℕ} {trace trace' : StackTrace}
    (h : TraceAt f pos trace)
    (hd : pos + headerSize trace < pos' ∨ pos' + headerSize trace' < pos) :
    TraceAt (writeTrace f pos' trace') pos trace := by
  unfold StackStore.writeTrace
  refine ⟨?_, fun k hk => ?_⟩
  · dsimp only
    rw [if_neg (by omega), if_neg (by omega), h.1]
  · dsimp only
    rw [if_neg (by omega), if_neg (by omega), h.2 k hk]

/-! ## The invariant -/

/-- The trace was stored under the id. -/
structure Stored (P : Params) (s : Store) (g : ℕ → ℕ → Word64) (idx : ℕ) (trace : StackTrace) :
    Prop where
  /-- The id does not wrap. -/
  id_lt : idx + 1 < 2^32
  /-- Its range was handed out. -/
  le : idx + headerSize trace + 1 ≤ s.totalFrames
  /-- Its range lies in one block. -/
  single : idx % P.kBlockSizeFrames + headerSize trace < P.kBlockSizeFrames
  /-- The block has memory. -/
  data : (s.blocks (idx / P.kBlockSizeFrames)).data ≠ none
  /-- The trace is in the content of the block. -/
  traceAt : TraceAt (g (idx / P.kBlockSizeFrames)) (idx % P.kBlockSizeFrames) trace
  /-- The tag fits in the header. -/
  tag : trace.tag < 256

/-- The invariant of a run that has not used up the frames: `g` is the content of the blocks, and the
traces of the log are in it. -/
structure Inv (P : Params) (s : Store) (g : ℕ → ℕ → Word64) (log : List (ℕ × StackTrace)) :
    Prop where
  /-- Every frame that was handed out is credited. -/
  credited : s.Credited P
  /-- The blocks have the content `g`. -/
  holds : ∀ b, (s.blocks b).Holds P (g b)
  /-- A block that is not complete is not protected. -/
  writable : ∀ b, s.totalFrames < b * P.kBlockSizeFrames + P.kBlockSizeFrames →
    (s.blocks b).Writable
  /-- The traces that were stored under an id. -/
  log : ∀ e ∈ log, e.1 ≠ 0 → ∃ idx, e.1 = idx + 1 ∧ Stored P s g idx e.2

theorem Inv.init : Inv P {} (fun _ _ => 0) [] where
  credited := fun b => by simp [fill]
  holds := fun b => ⟨by simp, rfl⟩
  writable := fun b _ => Or.inl rfl
  log := by simp

theorem Inv.stored_ne {s : Store} {g : ℕ → ℕ → Word64} {log : List (ℕ × StackTrace)}
    (h : Inv P s g log) {b : ℕ}
    (hb : s.totalFrames < b * P.kBlockSizeFrames + P.kBlockSizeFrames) :
    (s.blocks b).stored ≠ P.kBlockSizeFrames := by
  rw [h.credited b]
  exact ((fill_lt_iff P.pos b).mpr hb).ne

/-- A block may be replaced by one with the same content. -/
theorem Inv.setBlock {s : Store} {g : ℕ → ℕ → Word64} {log : List (ℕ × StackTrace)}
    (h : Inv P s g log) {i : ℕ} {b : BlockInfo} (hb : Repacked P (g i) (s.blocks i) b)
    (allocated : ℕ) : Inv P { s.setBlock i b with allocated := allocated } g log := by
  refine ⟨fun j => ?_, fun j => ?_, fun j hj => ?_, fun e he hid => ?_⟩
  · by_cases hji : j = i
    · subst hji
      simpa [hb.stored] using h.credited j
    · simpa [hji] using h.credited j
  · by_cases hji : j = i
    · subst hji
      simpa using hb.holds
    · simpa [hji] using h.holds j
  · by_cases hji : j = i
    · subst hji
      simpa using hb.writable (h.stored_ne hj) (h.writable j hj)
    · simpa [hji] using h.writable j hj
  · obtain ⟨idx, hidx, hst⟩ := h.log e he hid
    refine ⟨idx, hidx, hst.id_lt, hst.le, hst.single, ?_, hst.traceAt, hst.tag⟩
    by_cases hji : idx / P.kBlockSizeFrames = i
    · simpa [hji] using hb.data (hji ▸ hst.data)
    · simpa [hji] using hst.data

theorem Inv.pack {s : Store} {g : ℕ → ℕ → Word64} {log : List (ℕ × StackTrace)}
    (h : Inv P s g log) (type : Compression) (n : ℕ) :
    ∃ s' res, s.packBlocks P type n = .ok (s', res) ∧ Inv P s' g log ∧
      s'.totalFrames = s.totalFrames := by
  induction n with
  | zero => exact ⟨s, 0, rfl, h, rfl⟩
  | succ n ih =>
    obtain ⟨s1, res, hs1, h1, htotal⟩ := ih
    obtain ⟨b, allocated, released, hb, hrep⟩ :=
      BlockInfo.pack_spec (h1.holds n) type s1.allocated
    simp only [Store.packBlocks, hs1, ok_bind, hb]
    exact ⟨_, _, rfl, h1.setBlock hrep allocated, htotal⟩

/-- `Load` keeps the invariant, and returns the trace stored under its id. -/
theorem Inv.load {s : Store} {g : ℕ → ℕ → Word64} {log : List (ℕ × StackTrace)}
    (h : Inv P s g log) {id : ℕ} (hid : id < 2^32) :
    ∃ s' trace, s.load P id = .ok (s', trace) ∧ Inv P s' g log ∧
      s'.totalFrames = s.totalFrames ∧
      ∀ e ∈ log, e.1 ≠ 0 → e.1 = id → trace = ⟨e.2.frames.take 255, e.2.tag⟩ := by
  unfold Store.load
  by_cases h0 : id = 0
  · rw [if_pos h0]
    exact ⟨_, _, rfl, h, rfl, fun e _ hne heq => absurd (heq.trans h0) hne⟩
  · obtain ⟨b, allocated, hb, hrep, hstate⟩ :=
      BlockInfo.getOrUnpack_spec (h.holds ((id - 1) / P.kBlockSizeFrames)) s.allocated
    have hcheck : check (decide ((id - 1) / P.kBlockSizeFrames < P.kBlockCount)) = .ok () := by
      rw [decide_eq_true (P.div_lt (by omega))]
      rfl
    have hinv := h.setBlock hrep allocated
    have hholds := hrep.holds
    simp only [if_neg h0, hcheck, ok_bind, hb]
    unfold BlockInfo.Holds at hholds
    match hd : b.data with
    | none =>
      refine ⟨_, _, rfl, hinv, rfl, fun e he hne heq => ?_⟩
      obtain ⟨idx, hidx, hst⟩ := h.log e he hne
      exact absurd hd (hrep.data (by rw [← heq, hidx]; exact hst.data))
    | some (.packed _ _) =>
      rw [hd] at hholds
      exact absurd hholds.1 (by rw [hstate]; decide)
    | some (.raw frames _) =>
      refine ⟨_, _, rfl, hinv, rfl, fun e he hne heq => ?_⟩
      obtain ⟨idx, hidx, hst⟩ := h.log e he hne
      rw [hd] at hholds
      have hi : id - 1 = idx := by omega
      rw [hi] at hholds ⊢
      -- The frames of the block are those of its content.
      have htrace : TraceAt frames (idx % P.kBlockSizeFrames) e.2 := by
        refine ⟨?_, fun k hk => ?_⟩
        · rw [hholds.2 _ (Nat.mod_lt _ P.pos), hst.traceAt.1]
        · have := hst.single
          rw [hholds.2 _ (by omega), hst.traceAt.2 k hk]
      exact readTrace_of_traceAt htrace hst.tag

theorem Inv.here {s s' : Store} {g : ℕ → ℕ → Word64} {log : List (ℕ × StackTrace)} {c idx : ℕ}
    (h : Inv P s g log) (ha : Allocated P s s' c idx) :
    ∃ frames, (s'.blocks (idx / P.kBlockSizeFrames)).data = some (.raw frames false) ∧
      (s'.blocks (idx / P.kBlockSizeFrames)).state ≠ .packed ∧
      ∀ i < P.kBlockSizeFrames, frames i = g (idx / P.kBlockSizeFrames) i := by
  have hdiv := Nat.div_add_mod' idx P.kBlockSizeFrames
  have hmod := Nat.mod_lt idx P.pos
  have hle := ha.le
  have hholds := h.holds (idx / P.kBlockSizeFrames)
  unfold BlockInfo.Holds at hholds
  rw [ha.here, ha.state]
  rcases h.writable (idx / P.kBlockSizeFrames) (by omega) with hd | ⟨frames, hd⟩
  · rw [hd] at hholds ⊢
    exact ⟨_, rfl, hholds.1, fun i _ => by rw [hholds.2]⟩
  · rw [hd] at hholds ⊢
    exact ⟨_, rfl, hholds.1, hholds.2⟩

/-- The store after a trace is written to its range and credited. -/
def Store.written (P : Params) (s : Store) (idx : ℕ) (frames : ℕ → Word64) (trace : StackTrace) :
    Store :=
  let i := idx / P.kBlockSizeFrames
  s.setBlock i { s.blocks i with
    data := some (.raw (writeTrace frames (idx % P.kBlockSizeFrames) trace) false)
    stored := ((s.blocks i).stored + (headerSize trace + 1)) % 2^32 }

theorem Store.write_addStored (s : Store) {idx : ℕ} {frames : ℕ → Word64} (trace : StackTrace)
    (hi : idx / P.kBlockSizeFrames < P.kBlockCount)
    (hd : (s.blocks (idx / P.kBlockSizeFrames)).data = some (.raw frames false)) :
    ∃ s1 full, s.write P idx trace = .ok s1 ∧
      s1.addStored P (idx / P.kBlockSizeFrames) (headerSize trace + 1) =
        .ok (s.written P idx frames trace, full) := by
  simp only [Store.write, hd]
  refine ⟨_, ((s.blocks (idx / P.kBlockSizeFrames)).addStored P (headerSize trace + 1)).2.toNat,
    rfl, ?_⟩
  rw [Store.addStored_of_lt _ _ hi, Store.setBlock_blocks, if_pos rfl, Store.setBlock_setBlock]
  rfl

/-- Writing a trace to the range that `Alloc` has returned. -/
theorem Inv.written {s s' : Store} {g : ℕ → ℕ → Word64} {log : List (ℕ × StackTrace)} {idx : ℕ}
    {trace : StackTrace} {frames : ℕ → Word64} (h : Inv P s g log)
    (ha : Allocated P s s' (headerSize trace + 1) idx)
    (h32 : idx + (headerSize trace + 1) ≤ 2^32) (htag : trace.tag < 256)
    (hd : (s'.blocks (idx / P.kBlockSizeFrames)).data = some (.raw frames false))
    (hstate : (s'.blocks (idx / P.kBlockSizeFrames)).state ≠ .packed)
    (hframes : ∀ i < P.kBlockSizeFrames, frames i = g (idx / P.kBlockSizeFrames) i) :
    Inv P (s'.written P idx frames trace)
      (Function.update g (idx / P.kBlockSizeFrames)
        (writeTrace (g (idx / P.kBlockSizeFrames)) (idx % P.kBlockSizeFrames) trace))
      ((offsetToId idx, trace) :: log) := by
  have hle := ha.le
  have htotal : (s'.written P idx frames trace).totalFrames = idx + (headerSize trace + 1) := ha.total
  refine ⟨fun b => ?_, fun b => ?_, fun b hb => ?_, fun e he hid => ?_⟩
  · have hst := ha.stored b
    have hfl := fill_le P.kBlockSizeFrames (idx + (headerSize trace + 1)) b
    have hB := P.le
    rw [htotal, ← hst]
    unfold Store.written
    by_cases hb : b = idx / P.kBlockSizeFrames
    · subst hb
      rw [if_pos rfl] at hst ⊢
      simp only [Store.setBlock_blocks, if_true]
      exact Nat.mod_eq_of_lt (by omega)
    · simp only [Store.setBlock_blocks, if_neg hb, add_zero]
  · unfold Store.written
    by_cases hb : b = idx / P.kBlockSizeFrames
    · subst hb
      simp only [Store.setBlock_blocks, if_true, Function.update_self]
      refine ⟨hstate, fun i hi => ?_⟩
      unfold writeTrace
      rw [hframes i hi]
    · have hholds := h.holds b
      simp only [Store.setBlock_blocks, if_neg hb, Function.update_of_ne hb]
      unfold BlockInfo.Holds at hholds ⊢
      rw [ha.data b hb, ha.state b]
      exact hholds
  · unfold Store.written
    by_cases hb' : b = idx / P.kBlockSizeFrames
    · subst hb'
      simp only [Store.setBlock_blocks, if_true]
      exact Or.inr ⟨_, rfl⟩
    · have hw := h.writable b (by omega)
      simp only [Store.setBlock_blocks, if_neg hb']
      unfold BlockInfo.Writable at hw ⊢
      rw [ha.data b hb']
      exact hw
  · rcases List.mem_cons.mp he with rfl | he
    · have hoff : offsetToId idx = (idx + 1) % 2^32 := by
        unfold offsetToId Word.add
        omega
      have hsingle := ha.single
      have hlt : idx % P.kBlockSizeFrames + headerSize trace < P.kBlockSizeFrames := by omega
      simp only [hoff] at hid ⊢
      refine ⟨idx, by omega, by omega, ?_, hlt, ?_, ?_, htag⟩
      · rw [htotal]
        exact le_rfl
      · simp [Store.written]
      · rw [Function.update_self]
        exact traceAt_writeTrace _ _ _
    · obtain ⟨idx', hidx, hst⟩ := h.log e he hid
      have hle' := hst.le
      refine ⟨idx', hidx, hst.id_lt, by omega, hst.single, ?_, ?_, hst.tag⟩
      · by_cases hb : idx' / P.kBlockSizeFrames = idx / P.kBlockSizeFrames
        · simp [Store.written, hb]
        · simp only [Store.written, Store.setBlock_blocks, if_neg hb, ha.data _ hb]
          exact hst.data
      · by_cases hb : idx' / P.kBlockSizeFrames = idx / P.kBlockSizeFrames
        · -- The new range starts after the old one.
          have h1 := Nat.div_add_mod' idx P.kBlockSizeFrames
          have h2 := Nat.div_add_mod' idx' P.kBlockSizeFrames
          have htr := hst.traceAt
          rw [hb] at h2 htr ⊢
          rw [Function.update_self]
          exact htr.writeTrace (Or.inl (by omega))
        · rw [Function.update_of_ne hb]
          exact hst.traceAt

theorem Inv.store {s : Store} {g : ℕ → ℕ → Word64} {log : List (ℕ × StackTrace)}
    (h : Inv P s g log) {trace : StackTrace} (hne : ¬ (trace.frames.length = 0 ∧ trace.tag = 0))
    (htag : trace.tag < 256)
    (hspace : nextTotal P.kBlockSizeFrames s.totalFrames (headerSize trace + 1) ≤ 2^32) :
    ∃ s' id pack g', s.store P trace = .ok (s', id, pack) ∧ Inv P s' g' ((id, trace) :: log) ∧
      s'.totalFrames = nextTotal P.kBlockSizeFrames s.totalFrames (headerSize trace + 1) := by
  have hsize : headerSize trace + 1 ≤ 256 := by
    unfold headerSize
    omega
  obtain ⟨s1, idx, pack, halloc, ha, hnext⟩ :=
    s.alloc_spec h.credited (Nat.succ_pos (headerSize trace)) hsize hspace
  rw [Nat.succ_eq_add_one] at halloc ha hnext
  obtain ⟨frames, hd, hstate, hframes⟩ := h.here ha
  obtain ⟨s2, full, hwrite, hstored⟩ :=
    s1.write_addStored trace (P.div_lt (by omega : idx < 2^32)) hd
  refine ⟨_, _, some (pack + full), _, ?_, h.written ha (by omega) htag hd hstate hframes, ?_⟩
  · simp only [Store.store, if_neg hne, check_tag htag, ok_bind, halloc, hwrite, hstored]
    rfl
  · rw [← hnext]
    exact ha.total

/-! ## Runs -/

/-- An operation on the store. -/
inductive Op where
  | store (trace : StackTrace)
  | pack (type : Compression)
  | load (id : BitVec 32)

/-- One operation, on the store and the log of the ids that `Store` has returned. -/
def step (P : Params) (c : Store × List (ℕ × StackTrace)) :
    Op → Except Fault (Store × List (ℕ × StackTrace))
  | .store trace => do
    let (s, id, _) ← c.1.store P trace
    return (s, (id, trace) :: c.2)
  | .pack type => do
    let (s, _) ← c.1.pack P type
    return (s, c.2)
  | .load id => do
    let (s, _) ← c.1.load P id.toNat
    return (s, c.2)

/-- A sequence of operations on an empty store. -/
def run (P : Params) (ops : List Op) : Except Fault (Store × List (ℕ × StackTrace)) :=
  ops.foldlM (step P) ({}, [])

/-- The number of frames in use after one operation. -/
def framesUsedStep (P : Params) (total : ℕ) : Op → ℕ
  | .store trace =>
    if trace.frames.length = 0 ∧ trace.tag = 0 then total
    else nextTotal P.kBlockSizeFrames total (headerSize trace + 1)
  | _ => total

/-- The number of frames in use after a sequence of operations, those given up included. -/
def framesUsed (P : Params) (ops : List Op) : ℕ := ops.foldl (framesUsedStep P) 0

theorem le_framesUsedStep (total : ℕ) (op : Op) : total ≤ framesUsedStep P total op := by
  cases op with
  | store trace =>
    have := add_le_nextTotal P.kBlockSizeFrames total (headerSize trace + 1)
    simp only [framesUsedStep]
    split_ifs <;> omega
  | pack type => exact le_rfl
  | load id => exact le_rfl

/-- One operation keeps the invariant while there is space, and fails only for a tag that does not
fit in the header. -/
theorem step_inv {c : Store × List (ℕ × StackTrace)} {g : ℕ → ℕ → Word64} (h : Inv P c.1 g c.2)
    (op : Op) (hspace : framesUsedStep P c.1.totalFrames op ≤ 2^32) :
    (∃ c' g', step P c op = .ok c' ∧ Inv P c'.1 g' c'.2 ∧
      c'.1.totalFrames = framesUsedStep P c.1.totalFrames op) ∨
    step P c op = .error .check ∧ ∃ trace, op = .store trace ∧ 256 ≤ trace.tag := by
  cases op with
  | store trace =>
    by_cases hempty : trace.frames.length = 0 ∧ trace.tag = 0
    · refine Or.inl ⟨(c.1, (0, trace) :: c.2), g, ?_, ⟨h.credited, h.holds, h.writable, ?_⟩, ?_⟩
      · simp only [step, Store.store, if_pos hempty]
        rfl
      · intro e he hid
        rcases List.mem_cons.mp he with rfl | he
        · exact absurd rfl hid
        · exact h.log e he hid
      · simp only [framesUsedStep, if_pos hempty]
    · simp only [framesUsedStep, if_neg hempty] at hspace ⊢
      by_cases htag : trace.tag < 256
      · obtain ⟨s', id, pack, g', hs, hinv, htotal⟩ := h.store hempty htag hspace
        refine Or.inl ⟨(s', (id, trace) :: c.2), g', ?_, hinv, htotal⟩
        simp only [step, hs, ok_bind]
        rfl
      · refine Or.inr ⟨?_, trace, rfl, by omega⟩
        simp only [step, c.1.store_tag (P := P) (not_lt.mp htag)]
        rfl
  | pack type =>
    obtain ⟨s', res, hs, hinv, htotal⟩ := h.pack type P.kBlockCount
    refine Or.inl ⟨(s', c.2), g, ?_, hinv, htotal⟩
    simp only [step, Store.pack, hs, ok_bind]
    rfl
  | load id =>
    obtain ⟨s', trace, hs, hinv, htotal, -⟩ := h.load id.isLt
    refine Or.inl ⟨(s', c.2), g, ?_, hinv, htotal⟩
    simp only [step, hs, ok_bind]
    rfl

theorem run_inv (ops : List Op) (hspace : framesUsed P ops ≤ 2^32) :
    (∃ c g, run P ops = .ok c ∧ Inv P c.1 g c.2 ∧ c.1.totalFrames = framesUsed P ops) ∨
    run P ops = .error .check ∧ ∃ trace, .store trace ∈ ops ∧ 256 ≤ trace.tag := by
  induction ops using List.reverseRecOn with
  | nil => exact Or.inl ⟨({}, []), _, rfl, Inv.init, rfl⟩
  | append_singleton ops op ih =>
    have hused : framesUsed P (ops ++ [op]) = framesUsedStep P (framesUsed P ops) op := by
      simp [framesUsed]
    have hrun : run P (ops ++ [op]) = run P ops >>= fun c => step P c op := by
      simp [run, List.foldlM_append]
    rw [hused] at hspace ⊢
    rw [hrun]
    rcases ih (le_trans (le_framesUsedStep _ op) hspace) with ⟨c, g, hc, hinv, htotal⟩ | ⟨herr, hmem⟩
    · rw [hc, ok_bind, ← htotal]
      rcases step_inv hinv op (htotal ▸ hspace) with ⟨c', g', hc', hinv', ht⟩ | ⟨herr, trace, rfl, htag⟩
      · exact Or.inl ⟨c', g', hc', hinv', ht⟩
      · exact Or.inr ⟨herr, trace, by simp, htag⟩
    · obtain ⟨trace, hin, htag⟩ := hmem
      rw [herr]
      exact Or.inr ⟨rfl, trace, List.mem_append_left _ hin, htag⟩

/-- In every sequence of `Store`, `Pack` and `Load` that has not used up the frames, `Load` returns
the tag and the first 255 frames of every trace that was stored under an id. The sequence fails only
where `Store` checks that the tag fits in a byte. -/
theorem load_returns_stored (P : Params) (ops : List Op) (hspace : framesUsed P ops ≤ 2^32) :
    match run P ops with
    | .ok (s, log) => s.totalFrames = framesUsed P ops ∧ ∀ e ∈ log, e.1 ≠ 0 →
        ∃ s', s.load P e.1 = .ok (s', ⟨e.2.frames.take 255, e.2.tag⟩)
    | .error f => f = .check ∧ ∃ trace, .store trace ∈ ops ∧ 256 ≤ trace.tag := by
  rcases run_inv ops hspace with ⟨c, g, hc, hinv, htotal⟩ | ⟨herr, hmem⟩
  · rw [hc]
    refine ⟨htotal, fun e he hid => ?_⟩
    obtain ⟨idx, hidx, hst⟩ := hinv.log e he hid
    have hlt : e.1 < 2^32 := by
      rw [hidx]
      exact hst.id_lt
    obtain ⟨s', trace, hload, -, -, htrace⟩ := hinv.load hlt
    exact ⟨s', by rw [hload, htrace e he hid rfl]⟩
  · rw [herr]
    exact ⟨rfl, hmem⟩

/-- A trace of three frames that is stored, loaded, and stored again, under the ids 1 and 5. -/
theorem load_returns_stored_twice :
    let trace : StackTrace := ⟨[5, 6, 7], 9⟩
    let ops : List Op := [.store trace, .load 1, .store trace]
    (∃ s, run Params.default ops = .ok (s, [(5, trace), (1, trace)])) ∧
      framesUsed Params.default ops ≤ 2^32 ∧
      match run Params.default ops with
      | .ok (s, log) => s.totalFrames = framesUsed Params.default ops ∧ ∀ e ∈ log, e.1 ≠ 0 →
          ∃ s', s.load Params.default e.1 = .ok (s', ⟨e.2.frames.take 255, e.2.tag⟩)
      | .error f => f = .check ∧ ∃ trace, .store trace ∈ ops ∧ 256 ≤ trace.tag := by
  intro trace ops
  have hrun : ∃ s, run Params.default ops = .ok (s, [(5, trace), (1, trace)]) := by
    unfold ops trace
    exact ⟨_, rfl⟩
  have h : framesUsed Params.default ops ≤ 2^32 := by decide
  clear_value ops
  exact ⟨hrun, h, load_returns_stored Params.default ops h⟩

end Tasan.StackStore
