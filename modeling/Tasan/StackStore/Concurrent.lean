import Tasan.StackStore.Load

/-!
# Concurrent calls of `Store`

Any number of calls of `Store` run at once, and their atomic steps interleave: the `fetch_add` on
`total_frames_`, the two credits for a range that straddles two blocks, the write of the frames, and
the credit after the write. A schedule is a list of events that start a call or let one call make its
next step. The counters `stored_` are a window of memory, whose indices from `kBlockCount` on lie
after `blocks_` and hold what was there before.

The invariant says for each block where its frames are: what was handed out of a block is what its
counter has, plus what the calls still owe it. A call owes both parts of a straddling range until it
has credited them, and its own range until it has written it. So a counter that is full leaves no call
in the middle of a write, and the credit that fills a counter is seen by exactly one call.
-/

namespace Tasan.StackStore.Concurrent

open Codec

/-! ## The calls -/

/-- The next step of a call. -/
inductive Pc where
  /-- The `fetch_add` of `Alloc`. -/
  | alloc
  /-- The credit of the first part of a straddling range. -/
  | creditFirst (start : ℕ)
  /-- The credit of its second part. -/
  | creditSecond (start : ℕ)
  /-- The write of the frames. -/
  | write (idx : ℕ)
  /-- The credit of the range after the write. -/
  | stored (idx : ℕ)
  /-- None; the call has returned, with its range unless there was no space. -/
  | done (idx : Option ℕ)
  /-- None; the check of the tag has failed. -/
  | failed
  deriving DecidableEq

/-- A call of `Store`. -/
structure Call where
  /-- The argument. -/
  trace : StackTrace
  pack : ℕ := 0
  /-- The next step. -/
  pc : Pc

/-- The number of frames that a call needs. -/
def Call.count (call : Call) : ℕ := headerSize call.trace + 1

/-- A call that has just started. -/
def Call.start (trace : StackTrace) : Call where
  trace := trace
  pc :=
    if trace.frames.length = 0 ∧ trace.tag = 0 then .done none
    else if trace.tag = trace.tag % 256 then .alloc
    else .failed

/-- The range that was handed out to a call, by its first frame. -/
def Call.range (call : Call) : Option ℕ :=
  match call.pc with
  | .write idx => some idx
  | .stored idx => some idx
  | .done idx => idx
  | _ => none

/-- The call has written its range. -/
def Call.Written (call : Call) : Prop :=
  match call.pc with
  | .stored _ => True
  | .done _ => True
  | _ => False

/-- The call makes no more steps. -/
def Call.Finished (call : Call) : Prop :=
  match call.pc with
  | .done _ => True
  | .failed => True
  | _ => False

/-- The memory that the calls share. -/
structure Shared where
  totalFrames : ℕ
  /-- The counters `stored_`, and the memory after them. -/
  stored : ℕ → ℕ
  /-- The frames, by their index over all blocks. -/
  frames : ℕ → Word64

/-- `blocks_[i].Stored(n)`. -/
def Shared.addStored (P : Params) (m : Shared) (i n : ℕ) : Shared × ℕ :=
  ({ m with stored := Function.update m.stored i ((m.stored i + n) % 2^32) },
    (n + m.stored i == P.kBlockSizeFrames).toNat)

/-- The next step of a call. -/
def Call.step (P : Params) (m : Shared) (call : Call) : Shared × Call :=
  match call.pc with
  | .alloc =>
    let start := m.totalFrames
    let m := { m with totalFrames := Word.add 64 start call.count }
    let blockIdx := start / P.kBlockSizeFrames
    let lastIdx := Word.sub 64 (Word.add 64 start call.count) 1 / P.kBlockSizeFrames
    if blockIdx = lastIdx then
      if P.kBlockCount ≤ blockIdx then (m, { call with pc := .done none })
      else (m, { call with pc := .write start })
    else (m, { call with pc := .creditFirst start })
  | .creditFirst start =>
    let (m, full) := m.addStored P (start / P.kBlockSizeFrames)
      (P.kBlockSizeFrames - start % P.kBlockSizeFrames)
    (m, { call with pack := call.pack + full, pc := .creditSecond start })
  | .creditSecond start =>
    let (m, full) := m.addStored P
      (Word.sub 64 (Word.add 64 start call.count) 1 / P.kBlockSizeFrames)
      (call.count - (P.kBlockSizeFrames - start % P.kBlockSizeFrames))
    (m, { call with pack := call.pack + full, pc := .alloc })
  | .write idx =>
    ({ m with frames := writeTrace m.frames idx call.trace }, { call with pc := .stored idx })
  | .stored idx =>
    let (m, full) := m.addStored P (idx / P.kBlockSizeFrames) call.count
    (m, { call with pack := call.pack + full, pc := .done (some idx) })
  | .done _ => (m, call)
  | .failed => (m, call)

/-- The shared memory and all calls so far. -/
structure Config where
  /-- The shared memory. -/
  shared : Shared
  /-- The calls, in the order in which they started. -/
  calls : List Call

/-- An event of a schedule. -/
inductive Event where
  /-- A new call. -/
  | call (trace : StackTrace)
  /-- The next step of call `i`. -/
  | step (i : ℕ)

/-- One event. -/
def Config.step (P : Params) (c : Config) : Event → Config
  | .call trace => { c with calls := c.calls ++ [Call.start trace] }
  | .step i =>
    match c.calls[i]? with
    | none => c
    | some call =>
      let (shared, call) := call.step P c.shared
      { shared := shared, calls := c.calls.set i call }

/-- No calls, empty blocks, and other memory after them. -/
def Config.init (P : Params) (past : ℕ → ℕ) : Config where
  shared := {
    totalFrames := 0
    stored := fun i => if i < P.kBlockCount then 0 else past i
    frames := fun _ => 0 }
  calls := []

/-- A schedule. -/
def runEvents (P : Params) (past : ℕ → ℕ) (events : List Event) : Config :=
  events.foldl (Config.step P) (Config.init P past)

/-- The event is not a `fetch_add` that wraps the counter or ends outside of the existing blocks in
another block than it starts in. -/
def InBounds (P : Params) (c : Config) : Event → Prop
  | .call _ => True
  | .step i => ∀ call ∈ c.calls[i]?, call.pc = .alloc →
      let last := c.shared.totalFrames + call.count - 1
      c.shared.totalFrames + call.count < 2^64 ∧
        (c.shared.totalFrames / P.kBlockSizeFrames = last / P.kBlockSizeFrames ∨
          last / P.kBlockSizeFrames < P.kBlockCount)

instance (P : Params) (c : Config) (e : Event) : Decidable (InBounds P c e) :=
  match e with
  | .call _ => inferInstanceAs (Decidable True)
  | .step i => inferInstanceAs (Decidable (∀ call ∈ c.calls[i]?, call.pc = .alloc → _ ∧ (_ ∨ _)))

/-- Every event of the schedule meets the condition in the configuration before it. -/
def AllInBounds (P : Params) (past : ℕ → ℕ) (events : List Event) : Prop :=
  ∀ before e after, events = before ++ e :: after → InBounds P (runEvents P past before) e

/-! ## The invariant -/

variable {P : Params}

/-- The frames of block `b` that a call owes to its counter. -/
def Call.owes (P : Params) (b : ℕ) (call : Call) : ℕ :=
  match call.pc with
  | .creditFirst start =>
    (if b = start / P.kBlockSizeFrames then P.kBlockSizeFrames - start % P.kBlockSizeFrames else 0) +
      if b = start / P.kBlockSizeFrames + 1 then
        call.count - (P.kBlockSizeFrames - start % P.kBlockSizeFrames) else 0
  | .creditSecond start =>
    if b = start / P.kBlockSizeFrames + 1 then
      call.count - (P.kBlockSizeFrames - start % P.kBlockSizeFrames) else 0
  | .write idx => if b = idx / P.kBlockSizeFrames then call.count else 0
  | .stored idx => if b = idx / P.kBlockSizeFrames then call.count else 0
  | _ => 0

/-- A range that was handed out. -/
structure Range (P : Params) (m : Shared) (idx count : ℕ) : Prop where
  /-- It lies in an existing block. -/
  lt : idx / P.kBlockSizeFrames < P.kBlockCount
  /-- It lies in one block. -/
  single : idx % P.kBlockSizeFrames + count ≤ P.kBlockSizeFrames
  /-- It lies below the counter. -/
  le : idx + count ≤ m.totalFrames

/-- A range that straddles two existing blocks. -/
structure Straddle (P : Params) (start count : ℕ) : Prop where
  /-- Its second block exists. -/
  lt : start / P.kBlockSizeFrames + 1 < P.kBlockCount
  /-- It straddles two blocks. -/
  straddle : P.kBlockSizeFrames < start % P.kBlockSizeFrames + count

/-- What is known about one call. -/
def CallOk (P : Params) (m : Shared) (call : Call) : Prop :=
  match call.pc with
  | .creditFirst start => Straddle P start call.count
  | .creditSecond start => Straddle P start call.count
  | .write idx => Range P m idx call.count
  | .stored idx => Range P m idx call.count ∧ TraceAt m.frames idx call.trace
  | .done (some idx) => Range P m idx call.count ∧ TraceAt m.frames idx call.trace
  | _ => True

/-- The ranges of two calls are disjoint. -/
def DisjointRanges (a b : Call) : Prop :=
  ∀ x y, a.range = some x → b.range = some y → x + a.count ≤ y ∨ y + b.count ≤ x

/-- The number of blocks whose counter is full. -/
def Shared.fullBlocks (P : Params) (m : Shared) : ℕ :=
  ((Finset.range P.kBlockCount).filter fun b => m.stored b = P.kBlockSizeFrames).card

/-- The invariant of every schedule that meets the condition. -/
structure Inv (P : Params) (c : Config) : Prop where
  /-- What was handed out of a block is credited or owed. -/
  credited : ∀ b < P.kBlockCount, c.shared.stored b + (c.calls.map (Call.owes P b)).sum =
    fill P.kBlockSizeFrames c.shared.totalFrames b
  /-- What is known about each call. -/
  calls : ∀ call ∈ c.calls, CallOk P c.shared call
  /-- The ranges are disjoint. -/
  disjoint : c.calls.Pairwise DisjointRanges
  /-- Every full block was counted once. -/
  packs : (c.calls.map Call.pack).sum = c.shared.fullBlocks P

theorem DisjointRanges.symm {a b : Call} (h : DisjointRanges a b) : DisjointRanges b a :=
  fun x y hx hy => (h y x hy hx).symm

theorem Inv.stored_add_owes_le {c : Config} (h : Inv P c) {call : Call} (hmem : call ∈ c.calls)
    {b : ℕ} (hb : b < P.kBlockCount) : c.shared.stored b + call.owes P b ≤ P.kBlockSizeFrames := by
  have h1 := h.credited b hb
  have h2 := fill_le P.kBlockSizeFrames c.shared.totalFrames b
  have h3 : call.owes P b ≤ (c.calls.map (Call.owes P b)).sum :=
    List.le_sum_of_mem (List.mem_map_of_mem hmem)
  omega

/-- One call is replaced, with the shared memory. -/
theorem Inv.replace {m m' : Shared} {call call' : Call} {l₁ l₂ : List Call}
    (h : Inv P ⟨m, l₁ ++ call :: l₂⟩)
    (hcredit : ∀ b < P.kBlockCount,
      m'.stored b + call'.owes P b + fill P.kBlockSizeFrames m.totalFrames b =
        m.stored b + call.owes P b + fill P.kBlockSizeFrames m'.totalFrames b)
    (hcall : CallOk P m' call') (hothers : ∀ other ∈ l₁ ++ l₂, CallOk P m' other)
    (hdisj : ∀ other ∈ l₁ ++ l₂, DisjointRanges call' other)
    (hpack : call'.pack + m.fullBlocks P = call.pack + m'.fullBlocks P) :
    Inv P ⟨m', l₁ ++ call' :: l₂⟩ := by
  refine ⟨fun b hb => ?_, fun other hother => ?_, ?_, ?_⟩
  · have h1 := h.credited b hb
    have h2 := hcredit b hb
    simp only [List.map_append, List.map_cons, List.sum_append, List.sum_cons] at h1 ⊢
    omega
  · rcases List.mem_append.mp hother with hl | hr
    · exact hothers other (List.mem_append_left _ hl)
    · rcases List.mem_cons.mp hr with rfl | hr
      · exact hcall
      · exact hothers other (List.mem_append_right _ hr)
  · have h1 := h.disjoint
    simp only [List.pairwise_append, List.pairwise_cons, List.mem_cons] at h1 ⊢
    obtain ⟨hl, ⟨-, hr⟩, hlr⟩ := h1
    refine ⟨hl, ⟨fun b hb => hdisj b (List.mem_append_right _ hb), hr⟩, fun a ha b hb => ?_⟩
    rcases hb with rfl | hb
    · exact (hdisj a (List.mem_append_left _ ha)).symm
    · exact hlr a ha b (Or.inr hb)
  · have h1 := h.packs
    simp only [List.map_append, List.map_cons, List.sum_append, List.sum_cons] at h1 ⊢
    omega

theorem Inv.others {m : Shared} {call : Call} {l₁ l₂ : List Call} (h : Inv P ⟨m, l₁ ++ call :: l₂⟩)
    {other : Call} (hother : other ∈ l₁ ++ l₂) : CallOk P m other ∧ DisjointRanges call other := by
  have hdisj := h.disjoint
  simp only [List.pairwise_append, List.pairwise_cons, List.mem_cons] at hdisj
  rcases List.mem_append.mp hother with hl | hr
  · exact ⟨h.calls other (by simp [hl]), (hdisj.2.2 other hl call (Or.inl rfl)).symm⟩
  · exact ⟨h.calls other (by simp [hr]), hdisj.2.1.1 other hr⟩

theorem CallOk.mono {m m' : Shared} {call : Call} (h : CallOk P m call)
    (hle : m.totalFrames ≤ m'.totalFrames) (hframes : m'.frames = m.frames) : CallOk P m' call := by
  have hrange : ∀ {idx}, Range P m idx call.count → Range P m' idx call.count :=
    fun hr => ⟨hr.lt, hr.single, hr.le.trans hle⟩
  unfold CallOk at h ⊢
  rw [hframes]
  split at h
  · exact h
  · exact h
  · exact hrange h
  · exact ⟨hrange h.1, h.2⟩
  · exact ⟨hrange h.1, h.2⟩
  · exact trivial

theorem CallOk.range {m : Shared} {call : Call} (h : CallOk P m call) {idx : ℕ}
    (hr : call.range = some idx) : Range P m idx call.count := by
  unfold CallOk at h
  unfold Call.range at hr
  cases hpc : call.pc with
  | write i =>
    rw [hpc] at h hr
    exact Option.some.inj hr ▸ h
  | stored i =>
    rw [hpc] at h hr
    exact Option.some.inj hr ▸ h.1
  | done i =>
    rw [hpc] at h hr
    subst hr
    exact h.1
  | _ =>
    rw [hpc] at hr
    exact absurd hr (by simp)

/-! ## Credits -/

/-- A credit that fits counts the block that it fills. -/
theorem Shared.addStored_fullBlocks (m : Shared) {i n : ℕ} (hi : i < P.kBlockCount) (hn : 0 < n)
    (hle : m.stored i + n ≤ P.kBlockSizeFrames) :
    (m.addStored P i n).2 + m.fullBlocks P = (m.addStored P i n).1.fullBlocks P := by
  have hB := P.le
  have hmod : (m.stored i + n) % 2^32 = m.stored i + n := Nat.mod_eq_of_lt (by omega)
  unfold Shared.fullBlocks Shared.addStored
  simp only [hmod]
  by_cases hfull : m.stored i + n = P.kBlockSizeFrames
  · have hnot : i ∉ (Finset.range P.kBlockCount).filter fun b => m.stored b = P.kBlockSizeFrames := by
      simp only [Finset.mem_filter, not_and]
      omega
    rw [Nat.add_comm n, beq_iff_eq.mpr hfull, Bool.toNat_true, Nat.add_comm,
      ← Finset.card_insert_of_notMem hnot]
    congr 1
    ext b
    by_cases hb : b = i
    · subst hb
      simp [hi, hfull]
    · simp [hb]
  · rw [Nat.add_comm n, beq_false_of_ne hfull, Bool.toNat_false, Nat.zero_add]
    congr 1
    ext b
    by_cases hb : b = i
    · subst hb
      simp only [Finset.mem_filter, Function.update_self]
      omega
    · simp [hb]

theorem Shared.addStored_stored (m : Shared) {i n : ℕ} (hle : m.stored i + n ≤ P.kBlockSizeFrames)
    (b : ℕ) : (m.addStored P i n).1.stored b = m.stored b + if b = i then n else 0 := by
  have hB := P.le
  unfold Shared.addStored
  by_cases hb : b = i
  · subst hb
    simp only [Function.update_self, if_true]
    exact Nat.mod_eq_of_lt (by omega)
  · simp [hb]

/-- A call that credits `n` frames to block `i`, which it owes, and then owes them no more. -/
theorem Inv.credit {m : Shared} {call : Call} {l₁ l₂ : List Call} (h : Inv P ⟨m, l₁ ++ call :: l₂⟩)
    {i n : ℕ} {pc : Pc} (hi : i < P.kBlockCount) (hn : 0 < n)
    (howes : ∀ b, call.owes P b =
      Call.owes P b { call with pack := call.pack + (m.addStored P i n).2, pc := pc } +
        if b = i then n else 0)
    (hrange : Call.range { call with pack := call.pack + (m.addStored P i n).2, pc := pc } = call.range ∨
      Call.range { call with pack := call.pack + (m.addStored P i n).2, pc := pc } = none)
    (hok : CallOk P (m.addStored P i n).1
      { call with pack := call.pack + (m.addStored P i n).2, pc := pc }) :
    Inv P ⟨(m.addStored P i n).1,
      l₁ ++ { call with pack := call.pack + (m.addStored P i n).2, pc := pc } :: l₂⟩ := by
  have hle : m.stored i + n ≤ P.kBlockSizeFrames := by
    have hmem : call ∈ (⟨m, l₁ ++ call :: l₂⟩ : Config).calls := by simp
    have h1 := h.stored_add_owes_le hmem hi
    rw [howes i, if_pos rfl] at h1
    dsimp only at h1
    omega
  refine h.replace (fun b _ => ?_) hok (fun other hother => ?_) (fun other hother => ?_) ?_
  · rw [m.addStored_stored hle b, howes b]
    show _ = _ + fill P.kBlockSizeFrames m.totalFrames b
    omega
  · exact (h.others hother).1.mono le_rfl rfl
  · intro x y hx hy
    rcases hrange with hr | hr
    · exact (h.others hother).2 x y (hr ▸ hx) hy
    · exact absurd (hr.symm.trans hx) (by simp)
  · have h1 := m.addStored_fullBlocks hi hn hle
    dsimp only
    omega

/-! ## The steps of a call -/

theorem Call.count_bounds (P : Params) (call : Call) :
    0 < call.count ∧ call.count ≤ P.kBlockSizeFrames := by
  have := P.lt
  unfold Call.count headerSize
  omega

/-- A new range is handed out, or given up, or there is no more space. -/
theorem Inv.alloc {m : Shared} {call : Call} {l₁ l₂ : List Call} (h : Inv P ⟨m, l₁ ++ call :: l₂⟩)
    (hpc : call.pc = .alloc) (hlt : m.totalFrames + call.count < 2^64)
    (hin : m.totalFrames / P.kBlockSizeFrames =
        (m.totalFrames + call.count - 1) / P.kBlockSizeFrames ∨
      (m.totalFrames + call.count - 1) / P.kBlockSizeFrames < P.kBlockCount) :
    Inv P ⟨(call.step P m).1, l₁ ++ (call.step P m).2 :: l₂⟩ := by
  obtain ⟨hpos, hcB⟩ := call.count_bounds P
  obtain ⟨hadd, hlast⟩ := range_last hpos hlt
  rw [hadd] at hlast
  have howes : ∀ b, call.owes P b = 0 := fun b => by simp only [Call.owes, hpc]
  have hothers : ∀ other ∈ l₁ ++ l₂,
      CallOk P { m with totalFrames := m.totalFrames + call.count } other :=
    fun other hother => (h.others hother).1.mono (Nat.le_add_right _ _) rfl
  simp only [Call.step, hpc, hlast, hadd]
  by_cases hsingle : m.totalFrames % P.kBlockSizeFrames + call.count ≤ P.kBlockSizeFrames
  · have hfill := fill_add_single P.pos hsingle
    rw [if_pos ((single_iff P.pos hpos).mpr hsingle)]
    split_ifs with hblock
    · -- No more space: the range lies after the existing blocks.
      refine h.replace (fun b hb => ?_) trivial hothers (fun _ _ _ _ hx => ?_) rfl
      · rw [hfill b, if_neg (by omega), howes]
        simp only [Call.owes]
        omega
      · exact absurd hx (by simp [Call.range])
    · refine h.replace (fun b _ => ?_) ⟨by omega, hsingle, le_rfl⟩ hothers
        (fun other hother x y hx hy => ?_) rfl
      · rw [hfill b, howes]
        simp only [Call.owes, Call.count]
        omega
      · -- Every other range lies below the counter.
        obtain rfl : m.totalFrames = x := by simpa [Call.range] using hx
        exact Or.inr ((h.others hother).1.range hy).le
  · have hstr : P.kBlockSizeFrames < m.totalFrames % P.kBlockSizeFrames + call.count := by omega
    have hne := fun heq => hsingle ((single_iff P.pos hpos).mp heq)
    have hexists := hin.resolve_left hne
    rw [straddle_last P.pos hcB hstr] at hexists
    rw [if_neg hne]
    refine h.replace (fun b _ => ?_) ⟨hexists, hstr⟩ hothers (fun _ _ _ _ hx => ?_) rfl
    · rw [fill_add_straddle P.pos hcB hstr b, howes]
      simp only [Call.owes, Call.count]
      omega
    · exact absurd hx (by simp [Call.range])

theorem Inv.creditFirst {m : Shared} {call : Call} {l₁ l₂ : List Call} {start : ℕ}
    (h : Inv P ⟨m, l₁ ++ call :: l₂⟩) (hpc : call.pc = .creditFirst start) :
    Inv P ⟨(call.step P m).1, l₁ ++ (call.step P m).2 :: l₂⟩ := by
  have hok := h.calls call (by simp)
  have hmod := Nat.mod_lt start P.pos
  simp only [CallOk, hpc] at hok
  simp only [Call.step, hpc]
  refine h.credit (Nat.lt_of_succ_lt hok.lt) (by omega) (fun b => ?_) (Or.inr rfl) hok
  simp only [Call.owes, hpc, Call.count]
  omega

theorem Inv.creditSecond {m : Shared} {call : Call} {l₁ l₂ : List Call} {start : ℕ}
    (h : Inv P ⟨m, l₁ ++ call :: l₂⟩) (hpc : call.pc = .creditSecond start) :
    Inv P ⟨(call.step P m).1, l₁ ++ (call.step P m).2 :: l₂⟩ := by
  obtain ⟨hpos, hcB⟩ := call.count_bounds P
  have hok := h.calls call (by simp)
  simp only [CallOk, hpc] at hok
  have hmod := Nat.mod_lt start P.pos
  have hstr := hok.straddle
  -- The range lies in existing blocks, so it does not wrap.
  have hlt : start + call.count < 2^64 := by
    have h1 := Nat.mul_le_mul_right P.kBlockSizeFrames (Nat.succ_le_of_lt hok.lt)
    rw [P.ids, Nat.succ_mul, Nat.succ_mul] at h1
    have h2 := Nat.div_add_mod' start P.kBlockSizeFrames
    omega
  obtain ⟨hadd, hlast⟩ := range_last hpos hlt
  rw [hadd] at hlast
  simp only [Call.step, hpc, hadd, hlast, straddle_last P.pos hcB hstr]
  refine h.credit hok.lt (by omega) (fun b => ?_) (Or.inr rfl) trivial
  simp only [Call.owes, hpc]
  omega

/-- The write of the frames: the range is nobody else's. -/
theorem Inv.write {m : Shared} {call : Call} {l₁ l₂ : List Call} {idx : ℕ}
    (h : Inv P ⟨m, l₁ ++ call :: l₂⟩) (hpc : call.pc = .write idx) :
    Inv P ⟨(call.step P m).1, l₁ ++ (call.step P m).2 :: l₂⟩ := by
  have hok := h.calls call (by simp)
  simp only [CallOk, hpc] at hok
  have hrange : call.range = some idx := by simp only [Call.range, hpc]
  simp only [Call.step, hpc]
  refine h.replace (fun b _ => ?_) ⟨⟨hok.lt, hok.single, hok.le⟩, traceAt_writeTrace _ _ _⟩
    (fun other hother => ?_) (fun other hother => ?_) rfl
  · simp only [Call.owes, hpc, Call.count]
  · obtain ⟨hother, hdisj⟩ := h.others hother
    have htrace : ∀ {x}, other.range = some x → TraceAt m.frames x other.trace →
        TraceAt (writeTrace m.frames idx call.trace) x other.trace := by
      intro x hx ht
      apply ht.writeTrace
      have := hdisj idx x hrange hx
      unfold Call.count at this
      omega
    unfold CallOk at hother ⊢
    unfold Call.range at htrace
    split at hother
    · exact hother
    · exact hother
    · exact ⟨hother.lt, hother.single, hother.le⟩
    · rename_i hpc'
      rw [hpc'] at htrace
      exact ⟨⟨hother.1.lt, hother.1.single, hother.1.le⟩, htrace rfl hother.2⟩
    · rename_i hpc'
      rw [hpc'] at htrace
      exact ⟨⟨hother.1.lt, hother.1.single, hother.1.le⟩, htrace rfl hother.2⟩
    · trivial
  · intro x y hx hy
    exact (h.others hother).2 x y (hrange.trans (by simpa [Call.range] using hx)) hy

theorem Inv.stored {m : Shared} {call : Call} {l₁ l₂ : List Call} {idx : ℕ}
    (h : Inv P ⟨m, l₁ ++ call :: l₂⟩) (hpc : call.pc = .stored idx) :
    Inv P ⟨(call.step P m).1, l₁ ++ (call.step P m).2 :: l₂⟩ := by
  have hok := h.calls call (by simp)
  simp only [CallOk, hpc] at hok
  simp only [Call.step, hpc]
  refine h.credit hok.1.lt (call.count_bounds P).1 (fun b => ?_) (Or.inl ?_)
    ⟨⟨hok.1.lt, hok.1.single, hok.1.le⟩, hok.2⟩
  · simp only [Call.owes, hpc]
    omega
  · simp only [Call.range, hpc]

/-- Every event that meets the condition keeps the invariant. -/
theorem Inv.step {c : Config} (h : Inv P c) {e : Event} (he : InBounds P c e) :
    Inv P (c.step P e) := by
  cases e with
  | call trace =>
    have hpc : (Call.start trace).pc = .done none ∨ (Call.start trace).pc = .alloc ∨
        (Call.start trace).pc = .failed := by
      unfold Call.start
      dsimp only
      split_ifs <;> simp
    have howes : ∀ b, (Call.start trace).owes P b = 0 := by
      intro b
      unfold Call.owes
      rcases hpc with hpc | hpc | hpc <;> rw [hpc]
    have hrange : (Call.start trace).range = none := by
      unfold Call.range
      rcases hpc with hpc | hpc | hpc <;> rw [hpc]
    refine ⟨fun b hb => ?_, fun call hcall => ?_, ?_, ?_⟩
    · simpa [Config.step, howes] using h.credited b hb
    · rcases List.mem_append.mp hcall with hold | hnew
      · exact h.calls call hold
      · obtain rfl := List.mem_singleton.mp hnew
        unfold CallOk
        rcases hpc with hpc | hpc | hpc <;> rw [hpc] <;> trivial
    · refine List.pairwise_append.mpr ⟨h.disjoint, List.pairwise_singleton _ _, fun a _ b hb x y _ hy => ?_⟩
      obtain rfl := List.mem_singleton.mp hb
      exact absurd (hrange.symm.trans hy) (by simp)
    · simpa [Config.step, Call.start] using h.packs
  | step i =>
    cases hi : c.calls[i]? with
    | none => simpa only [Config.step, hi] using h
    | some call =>
      obtain ⟨hlt, hget⟩ := List.getElem?_eq_some_iff.mp hi
      obtain ⟨l₁, l₂, hcalls, hset⟩ : ∃ l₁ l₂, c.calls = l₁ ++ call :: l₂ ∧
          c.calls.set i (call.step P c.shared).2 = l₁ ++ (call.step P c.shared).2 :: l₂ := by
        obtain ⟨l₁, l₂, hcalls, -, hset⟩ := List.exists_of_set hlt
        exact ⟨l₁, l₂, hget ▸ hcalls, hset⟩
      simp only [Config.step, hi, hset]
      have h' : Inv P ⟨c.shared, l₁ ++ call :: l₂⟩ := by
        rw [← hcalls]
        exact h
      cases hpc : call.pc with
      | alloc =>
        obtain ⟨hlt, hin⟩ := he call hi hpc
        exact h'.alloc hpc hlt hin
      | creditFirst start => exact h'.creditFirst hpc
      | creditSecond start => exact h'.creditSecond hpc
      | write idx => exact h'.write hpc
      | stored idx => exact h'.stored hpc
      | done idx => simpa only [Call.step, hpc] using h'
      | failed => simpa only [Call.step, hpc] using h'

theorem Inv.init (P : Params) (past : ℕ → ℕ) : Inv P (Config.init P past) where
  credited := fun b hb => by simp [Config.init, fill, hb]
  calls := by simp [Config.init]
  disjoint := List.Pairwise.nil
  packs := by
    have hB := P.pos
    have hempty : ∀ b ∈ Finset.range P.kBlockCount,
        ¬ (Config.init P past).shared.stored b = P.kBlockSizeFrames := by
      intro b hb
      simp only [Config.init, if_pos (Finset.mem_range.mp hb)]
      omega
    unfold Shared.fullBlocks
    rw [Finset.filter_false_of_mem hempty]
    rfl

theorem runEvents_inv (P : Params) (past : ℕ → ℕ) (events : List Event)
    (h : AllInBounds P past events) : Inv P (runEvents P past events) := by
  induction events using List.reverseRecOn with
  | nil => exact Inv.init P past
  | append_singleton events e ih =>
    have hpre : AllInBounds P past events := fun before e' after heq =>
      h before e' (after ++ [e]) (by rw [heq]; simp)
    rw [runEvents, List.foldl_append]
    exact (ih hpre).step (h events e [] (by simp))

theorem Call.Finished.owes {call : Call} (h : call.Finished) (b : ℕ) : call.owes P b = 0 := by
  unfold Call.Finished at h
  unfold Call.owes
  cases hpc : call.pc <;> simp_all

theorem Inv.stored_of_finished {c : Config} (h : Inv P c) (hfin : ∀ call ∈ c.calls, call.Finished)
    {b : ℕ} (hb : b < P.kBlockCount) :
    c.shared.stored b = fill P.kBlockSizeFrames c.shared.totalFrames b := by
  have hsum : (c.calls.map (Call.owes P b)).sum = 0 := by
    rw [List.sum_eq_zero_iff]
    intro n hn
    obtain ⟨call, hcall, rfl⟩ := List.mem_map.mp hn
    exact (hfin call hcall).owes b
  rw [← h.credited b hb, hsum, Nat.add_zero]

/-- A full counter leaves no call before its write. -/
theorem Inv.written_of_full {c : Config} (h : Inv P c) {call : Call} (hcall : call ∈ c.calls)
    {idx : ℕ} (hidx : call.range = some idx)
    (hfull : c.shared.stored (idx / P.kBlockSizeFrames) = P.kBlockSizeFrames) :
    call.Written ∧ TraceAt c.shared.frames idx call.trace := by
  have hok := h.calls call hcall
  have hle := h.stored_add_owes_le hcall (hok.range hidx).lt
  have hpos := (call.count_bounds P).1
  unfold Call.range at hidx
  unfold CallOk at hok
  unfold Call.owes at hle
  cases hpc : call.pc with
  | write i =>
    rw [hpc] at hidx hle
    obtain rfl := Option.some.inj hidx
    simp only [if_true] at hle
    omega
  | stored i =>
    rw [hpc] at hidx hok
    obtain rfl := Option.some.inj hidx
    exact ⟨by simp [Call.Written, hpc], hok.2⟩
  | done i =>
    rw [hpc] at hidx hok
    subst hidx
    exact ⟨by simp [Call.Written, hpc], hok.2⟩
  | _ =>
    rw [hpc] at hidx
    exact absurd hidx (by simp)

/-- In every interleaving whose `fetch_add` steps all meet the condition: the ranges handed out are
pairwise disjoint, and each lies in one existing block; no counter exceeds the size of a block, and
one that reaches it leaves every range of its block written, with the trace of its call; the outputs
`*pack` of all calls count every block with a full counter once; and when all calls have finished the
counters have every frame that was handed out. -/
theorem interleaved_stores (P : Params) (past : ℕ → ℕ) (events : List Event)
    (h : AllInBounds P past events) :
    let c := runEvents P past events
    c.calls.Pairwise DisjointRanges ∧
      (∀ call ∈ c.calls, ∀ idx, call.range = some idx →
        idx / P.kBlockSizeFrames = (idx + call.count - 1) / P.kBlockSizeFrames ∧
          idx / P.kBlockSizeFrames < P.kBlockCount) ∧
      (∀ b < P.kBlockCount, c.shared.stored b ≤ P.kBlockSizeFrames) ∧
      (∀ b < P.kBlockCount, c.shared.stored b = P.kBlockSizeFrames →
        ∀ call ∈ c.calls, ∀ idx, call.range = some idx → idx / P.kBlockSizeFrames = b →
          call.Written ∧ TraceAt c.shared.frames idx call.trace) ∧
      (c.calls.map Call.pack).sum = c.shared.fullBlocks P ∧
      ((∀ call ∈ c.calls, call.Finished) → ∀ b < P.kBlockCount,
        c.shared.stored b = fill P.kBlockSizeFrames c.shared.totalFrames b) := by
  intro c
  have hinv : Inv P c := runEvents_inv P past events h
  refine ⟨hinv.disjoint, ?_, ?_, ?_, hinv.packs, fun hfin b hb => hinv.stored_of_finished hfin hb⟩
  · intro call hcall idx hidx
    have hr := (hinv.calls call hcall).range hidx
    exact ⟨(single_iff P.pos (call.count_bounds P).1).mpr hr.single, hr.lt⟩
  · intro b hb
    have h1 := hinv.credited b hb
    have h2 := fill_le P.kBlockSizeFrames c.shared.totalFrames b
    omega
  · rintro b hb hfull call hcall idx hidx rfl
    exact hinv.written_of_full hcall hidx hfull

/-! ## Schedules of calls one after the other -/

theorem AllInBounds.snoc {past : ℕ → ℕ} {events : List Event} (h : AllInBounds P past events)
    {e : Event} (he : InBounds P (runEvents P past events) e) :
    AllInBounds P past (events ++ [e]) := by
  intro before e' after heq
  rcases List.eq_nil_or_concat after with rfl | ⟨after', a, rfl⟩
  · obtain ⟨rfl, hcons⟩ := List.append_inj' heq rfl
    obtain rfl : e = e' := by simpa using hcons
    exact he
  · refine h before e' after' ?_
    have heq' : events ++ [e] = (before ++ e' :: after') ++ [a] := by simpa using heq
    exact (List.append_inj' heq' rfl).1

theorem runEvents_snoc (past : ℕ → ℕ) (events : List Event) (e : Event) :
    runEvents P past (events ++ [e]) = (runEvents P past events).step P e := by
  simp [runEvents]

theorem Config.step_last (m : Shared) (l : List Call) (call : Call) :
    Config.step P ⟨m, l ++ [call]⟩ (.step l.length) =
      ⟨(call.step P m).1, l ++ [(call.step P m).2]⟩ := by
  simp [Config.step]

theorem inBounds_last {m : Shared} {l : List Call} {call : Call} (h : call.pc ≠ .alloc) :
    InBounds P ⟨m, l ++ [call]⟩ (.step l.length) := by
  intro call' hcall' hpc
  obtain rfl : call = call' := by simpa using hcall'
  exact absurd hpc h

/-- A call for a tag alone, and its three steps. -/
def tagEvents (i : ℕ) : List Event := [.call ⟨[], 1⟩, .step i, .step i, .step i]

/-- A call for a tag alone takes one frame, while there is space. -/
theorem tagEvents_spec {past : ℕ → ℕ} {events : List Event} {m : Shared} {l : List Call}
    (h : AllInBounds P past events) (hrun : runEvents P past events = ⟨m, l⟩)
    (hlt : m.totalFrames < 2^32) :
    AllInBounds P past (events ++ tagEvents l.length) ∧ ∃ m' call,
      runEvents P past (events ++ tagEvents l.length) = ⟨m', l ++ [call]⟩ ∧
        m'.totalFrames = m.totalFrames + 1 ∧ call.Finished ∧
        ∀ i, P.kBlockCount ≤ i → m'.stored i = m.stored i := by
  have hadd : Word.add 64 m.totalFrames 1 = m.totalFrames + 1 := Word.add_of_lt (by omega)
  have hlast : Word.sub 64 (m.totalFrames + 1) 1 = m.totalFrames :=
    Word.sub_of_le (by omega) (by omega)
  have hblock := P.div_lt hlt
  have hstep : (Call.start ⟨[], 1⟩).step P m = ({ m with totalFrames := m.totalFrames + 1 },
      { Call.start ⟨[], 1⟩ with pc := .write m.totalFrames }) := by
    have hcount : (Call.start ⟨[], 1⟩).count = 1 := rfl
    have hpc : (Call.start ⟨[], 1⟩).pc = .alloc := rfl
    simp only [Call.step, hpc, hcount, hadd, hlast, if_true, if_neg (not_le.mpr hblock)]
  have hrun1 : runEvents P past (events ++ [.call ⟨[], 1⟩]) = ⟨m, l ++ [Call.start ⟨[], 1⟩]⟩ := by
    rw [runEvents_snoc, hrun]
    rfl
  have hrun2 : runEvents P past (events ++ [.call ⟨[], 1⟩] ++ [.step l.length]) =
      ⟨{ m with totalFrames := m.totalFrames + 1 },
        l ++ [{ Call.start ⟨[], 1⟩ with pc := .write m.totalFrames }]⟩ := by
    rw [runEvents_snoc, hrun1, Config.step_last, hstep]
  have hrun3 := runEvents_snoc (P := P) past
    (events ++ [.call ⟨[], 1⟩] ++ [.step l.length]) (.step l.length)
  rw [hrun2, Config.step_last] at hrun3
  have hrun4 := runEvents_snoc (P := P) past
    (events ++ [.call ⟨[], 1⟩] ++ [.step l.length] ++ [.step l.length]) (.step l.length)
  rw [hrun3, Config.step_last] at hrun4
  have hevents : events ++ tagEvents l.length =
      events ++ [.call ⟨[], 1⟩] ++ [.step l.length] ++ [.step l.length] ++ [.step l.length] := by
    simp [tagEvents]
  rw [hevents]
  refine ⟨(((h.snoc ?_).snoc ?_).snoc ?_).snoc ?_, _, _, hrun4, rfl, trivial, fun i hi => ?_⟩
  · trivial
  · rw [hrun1]
    intro call hcall _
    obtain rfl : Call.start ⟨[], 1⟩ = call := by simpa using hcall
    exact ⟨show m.totalFrames + 1 < 2^64 by omega, Or.inl rfl⟩
  · rw [hrun2]
    exact inBounds_last (by simp)
  · rw [hrun3]
    exact inBounds_last (by simp [Call.step])
  · exact Function.update_of_ne (by omega) _ _

/-- Calls for a tag alone, one after the other. -/
def serialEvents : ℕ → List Event
  | 0 => []
  | n + 1 => serialEvents n ++ tagEvents n

theorem serialEvents_spec (past : ℕ → ℕ) {n : ℕ} (hn : n ≤ 2^32) :
    AllInBounds P past (serialEvents n) ∧ ∃ m l, runEvents P past (serialEvents n) = ⟨m, l⟩ ∧
      m.totalFrames = n ∧ l.length = n ∧ (∀ call ∈ l, call.Finished) ∧
      ∀ i, P.kBlockCount ≤ i → m.stored i = past i := by
  induction n with
  | zero =>
    refine ⟨fun before e after heq => absurd heq (by simp [serialEvents]), _, _, rfl, rfl, rfl,
      by simp, fun i hi => ?_⟩
    exact if_neg (by omega)
  | succ n ih =>
    obtain ⟨hall, m, l, hrun, htotal, hlen, hfin, hpast⟩ := ih (by omega)
    obtain ⟨hall', m', call, hrun', htotal', hcall, hpast'⟩ :=
      tagEvents_spec hall hrun (by omega)
    rw [hlen] at hall' hrun'
    refine ⟨hall', m', _, hrun', by omega, by simp [hlen], ?_, ?_⟩
    · intro call' hmem
      rcases List.mem_append.mp hmem with hmem | hmem
      · exact hfin call' hmem
      · exact List.mem_singleton.mp hmem ▸ hcall
    · exact fun i hi => (hpast' i hi).trans (hpast i hi)

theorem Shared.addStored_past (m : Shared) {i : ℕ} (n : ℕ) (hi : P.kBlockCount ≤ i) :
    (m.addStored P i n).1.fullBlocks P = m.fullBlocks P := by
  unfold Shared.fullBlocks Shared.addStored
  congr 1
  apply Finset.filter_congr
  intro b hb
  rw [Finset.mem_range] at hb
  dsimp only
  rw [Function.update_of_ne (by omega)]

/-- The call that straddles the end of the last block counts two blocks, and completes one. -/
theorem straddle_last_block (past : ℕ → ℕ) {events : List Event} {m : Shared} {l : List Call}
    (hrun : runEvents Params.default past events = ⟨m, l⟩) (htotal : m.totalFrames = 2^32 - 1)
    (hstored : m.stored 4095 = 0xfffff) (hpast : m.stored 4096 = 0xfffff) :
    let c := runEvents Params.default past
      (events ++ [.call ⟨[7], 0⟩, .step l.length, .step l.length, .step l.length])
    (c.calls.map Call.pack).sum = (l.map Call.pack).sum + 2 ∧
      c.shared.fullBlocks Params.default = m.fullBlocks Params.default + 1 := by
  intro c
  generalize hm1 : ({ m with totalFrames := 2^32 + 1 } : Shared) = m1
  have hst1 : m1.stored = m.stored := by rw [← hm1]
  have hstep1 : (Call.start ⟨[7], 0⟩).step Params.default m =
      (m1, ⟨⟨[7], 0⟩, 0, .creditFirst (2^32 - 1)⟩) := by
    simp only [Call.step, htotal, ← hm1]
    rfl
  have hone : (m1.addStored Params.default 4095 1).2 = 1 := by
    simp only [Shared.addStored, hst1, hstored]
    rfl
  have hfull := m1.addStored_fullBlocks (P := Params.default) (i := 4095) (n := 1) (by decide)
    (by decide) (by rw [hst1, hstored]; decide)
  have hst2 : (m1.addStored Params.default 4095 1).1.stored 4096 = 0xfffff := by
    simp only [Shared.addStored, hst1]
    rw [Function.update_of_ne (by decide), hpast]
  have hstep2 : Call.step Params.default m1 ⟨⟨[7], 0⟩, 0, .creditFirst (2^32 - 1)⟩ =
      ((m1.addStored Params.default 4095 1).1,
        ⟨⟨[7], 0⟩, 0 + (m1.addStored Params.default 4095 1).2, .creditSecond (2^32 - 1)⟩) := rfl
  rw [hone] at hstep2 hfull
  generalize (m1.addStored Params.default 4095 1).1 = m2 at hst2 hstep2 hfull
  have htwo : (m2.addStored Params.default 4096 1).2 = 1 := by
    simp only [Shared.addStored, hst2]
    rfl
  have hstep3 : Call.step Params.default m2 ⟨⟨[7], 0⟩, 0 + 1, .creditSecond (2^32 - 1)⟩ =
      ((m2.addStored Params.default 4096 1).1,
        ⟨⟨[7], 0⟩, 0 + 1 + (m2.addStored Params.default 4096 1).2, .alloc⟩) := rfl
  have hc : c = ⟨(m2.addStored Params.default 4096 1).1,
      l ++ [⟨⟨[7], 0⟩, 0 + 1 + (m2.addStored Params.default 4096 1).2, .alloc⟩]⟩ := by
    have hevents : events ++ [.call ⟨[7], 0⟩, .step l.length, .step l.length, .step l.length] =
        events ++ [.call ⟨[7], 0⟩] ++ [.step l.length] ++ [.step l.length] ++ [.step l.length] := by
      simp
    have hcall : Config.step Params.default ⟨m, l⟩ (.call ⟨[7], 0⟩) =
        ⟨m, l ++ [Call.start ⟨[7], 0⟩]⟩ := rfl
    unfold c
    rw [hevents, runEvents_snoc, runEvents_snoc, runEvents_snoc, runEvents_snoc, hrun, hcall,
      Config.step_last, hstep1, Config.step_last, hstep2, Config.step_last, hstep3]
  rw [hc, htwo]
  constructor
  · simp
  · show (m2.addStored Params.default 4096 1).1.fullBlocks Params.default = _
    rw [m2.addStored_past 1 (by decide), ← hfull, Nat.add_comm]
    unfold Shared.fullBlocks
    rw [hst1]

theorem serialEvents_straddle {n : ℕ} (hn : n = 2^32 - 1) :
    let c := runEvents Params.default (fun _ => 0xfffff)
      (serialEvents n ++ [.call ⟨[7], 0⟩, .step n, .step n, .step n])
    (c.calls.map Call.pack).sum ≠ c.shared.fullBlocks Params.default := by
  intro c
  obtain ⟨hall, m, l, hrun, htotal, hlen, hfin, hpast⟩ := serialEvents_spec (P := Params.default)
    (fun _ => 0xfffff) (show n ≤ 2^32 by omega)
  have hinv := runEvents_inv _ _ _ hall
  rw [hrun] at hinv
  have hstored : m.stored 4095 = 0xfffff := by
    rw [hinv.stored_of_finished hfin (show 4095 < Params.default.kBlockCount by decide), htotal, hn]
    decide
  obtain ⟨hsum, hfull⟩ :=
    straddle_last_block _ hrun (htotal.trans hn) hstored (hpast 4096 (by decide))
  have hpacks : (l.map Call.pack).sum = m.fullBlocks Params.default := hinv.packs
  rw [hlen] at hsum hfull
  rw [hsum, hfull]
  omega

/-- A schedule in which the memory after the blocks looks like the counter of an almost full block:
the outputs `*pack` count one block more than were filled. -/
theorem interleaved_stores_miscount :
    let c := runEvents Params.default (fun _ => 0xfffff) (serialEvents (2^32 - 1) ++
      [.call ⟨[7], 0⟩, .step (2^32 - 1), .step (2^32 - 1), .step (2^32 - 1)])
    (c.calls.map Call.pack).sum ≠ c.shared.fullBlocks Params.default :=
  serialEvents_straddle rfl

/-- Two calls whose steps interleave. -/
theorem interleaved_stores_two :
    let events : List Event :=
      [.call ⟨[7], 0⟩, .call ⟨[8, 9], 1⟩, .step 0, .step 1, .step 1, .step 0]
    AllInBounds Params.default (fun _ => 0) events ∧
      let c := runEvents Params.default (fun _ => 0) events
      c.calls.Pairwise DisjointRanges ∧
        (∀ call ∈ c.calls, ∀ idx, call.range = some idx →
          idx / 0x100000 = (idx + call.count - 1) / 0x100000 ∧ idx / 0x100000 < 0x1000) ∧
        (∀ b < 0x1000, c.shared.stored b ≤ 0x100000) ∧
        (∀ b < 0x1000, c.shared.stored b = 0x100000 →
          ∀ call ∈ c.calls, ∀ idx, call.range = some idx → idx / 0x100000 = b →
            call.Written ∧ TraceAt c.shared.frames idx call.trace) ∧
        (c.calls.map Call.pack).sum = c.shared.fullBlocks Params.default ∧
        ((∀ call ∈ c.calls, call.Finished) → ∀ b < 0x1000,
          c.shared.stored b = fill 0x100000 c.shared.totalFrames b) := by
  intro events
  have h : AllInBounds Params.default (fun _ => 0) events := by
    have hnil : AllInBounds Params.default (fun _ => 0) [] :=
      fun before e after heq => absurd heq (by simp)
    exact (((((hnil.snoc (e := .call ⟨[7], 0⟩) (by decide)).snoc (e := .call ⟨[8, 9], 1⟩)
      (by decide)).snoc (e := .step 0) (by decide)).snoc (e := .step 1) (by decide)).snoc
      (e := .step 1) (by decide)).snoc (e := .step 0) (by decide)
  exact ⟨h, interleaved_stores Params.default (fun _ => 0) events h⟩

end Tasan.StackStore.Concurrent
