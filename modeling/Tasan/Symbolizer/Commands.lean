import Tasan.Symbolizer.Answers

/-!
# Commands to the symbolizer

What the callers of `ReadFromSymbolizer` make of an answer. The `ret` that `ReadFromSymbolizer` returns is
never false, so that an answer that breaks off passes for a complete one: `SendCommandImpl` hands it on,
`SendCommand` does not restart the symbolizer, and `Addr2LineProcess` looks for a terminator that has not
arrived. `answerContract_iff` says for each of the four promises about an answer when it is kept.
-/

namespace Tasan.Symbolizer

open FlagParser (nul)

/-! ## The terminator of addr2line -/

theorem exists_find?_infix (l needle : List Char) (hle : needle.length ≤ l.length) :
    (∃ pos, ((List.range (l.length - needle.length + 1)).find? fun pos =>
      (l.drop pos).take needle.length == needle) = some pos) ↔ needle <:+: l := by
  rw [← Option.isSome_iff_exists, List.find?_isSome]
  constructor
  · rintro ⟨pos, -, h⟩
    rw [beq_iff_eq] at h
    exact h ▸ (List.take_prefix _ _).isInfix.trans (List.drop_suffix _ _).isInfix
  · rintro ⟨before, after, rfl⟩
    refine ⟨before.length, ?_, ?_⟩
    · simp only [List.mem_range, List.length_append]
      omega
    · rw [beq_iff_eq, List.append_assoc, List.drop_left, List.take_left]

theorem not_infix_of_length_lt {l needle : List Char} (h : l.length < needle.length) :
    ¬ needle <:+: l := fun hfound => absurd hfound.length_le (not_le.mpr h)

theorem takeWhile_append_zeros (l : List Char) (n : ℕ) :
    (l ++ List.replicate (n + 1) nul).takeWhile (· ≠ nul) = l.takeWhile (· ≠ nul) := by
  induction l with
  | nil => rw [List.nil_append, List.replicate_succ, List.takeWhile_cons_of_neg (by simp)]; rfl
  | cons c l ih =>
    rw [List.cons_append]
    by_cases hc : c = nul
    · rw [List.takeWhile_cons_of_neg (by simp [hc]), List.takeWhile_cons_of_neg (by simp [hc])]
    · rw [List.takeWhile_cons_of_pos (by simp [hc]), List.takeWhile_cons_of_pos (by simp [hc]), ih]

theorem internalStrstr_zeros (l needle : List Char) (n : ℕ) :
    (needle <:+: l.takeWhile (· ≠ nul) ∧ ∃ pos,
        internalStrstr (l ++ List.replicate (n + 1) nul) needle = .returned (some pos)) ∨
      ¬ needle <:+: l.takeWhile (· ≠ nul) ∧
        internalStrstr (l ++ List.replicate (n + 1) nul) needle = .returned none := by
  unfold internalStrstr
  rw [if_pos (List.mem_append_right _ (List.mem_replicate.mpr ⟨Nat.succ_ne_zero n, rfl⟩)),
    takeWhile_append_zeros]
  dsimp only
  split_ifs with hlt
  · exact Or.inr ⟨not_infix_of_length_lt hlt, rfl⟩
  · have hiff := exists_find?_infix (l.takeWhile (· ≠ nul)) needle (not_lt.mp hlt)
    by_cases hfound : needle <:+: l.takeWhile (· ≠ nul)
    · obtain ⟨pos, hpos⟩ := hiff.mpr hfound
      exact Or.inl ⟨hfound, pos, congrArg _ hpos⟩
    · refine Or.inr ⟨hfound, congrArg _ ?_⟩
      exact Option.eq_none_iff_forall_ne_some.mpr fun pos hpos => hfound (hiff.mp ⟨pos, hpos⟩)

/-- The terminator is in what has arrived, after the first byte and before a NUL. -/
def TerminatorIn (acc : List Char) : Prop := outputTerminator <:+: (acc.drop 1).takeWhile (· ≠ nul)

/-- The vector in which a read has ended. -/
theorem trimGarbage_cases (pageLog : ℕ) (s : SymbolizerProcess) {acc : List Char} {n : ℕ}
    (hle : acc.length ≤ n) (hmax : maxLength ≤ n) :
    let s' := { s with buffer := (filled acc n).pushBack pageLog nul }
    (TerminatorIn acc ∧ ∃ s'', trimGarbage pageLog s' = .returned s'') ∨
      ¬ TerminatorIn acc ∧ trimGarbage pageLog s' = .stopped .garbage := by
  obtain ⟨n', hn, hlt, hpush⟩ := pushBack_filled pageLog hle
  dsimp only
  rw [hpush]
  have hpos : 1 < n' := lt_of_lt_of_le (by decide) (hmax.trans hn)
  obtain ⟨m, hm⟩ : ∃ m, n' - acc.length - (1 - acc.length) = m + 1 :=
    ⟨n' - acc.length - (1 - acc.length) - 1, by omega⟩
  have hdrop : (acc ++ List.replicate (n' - acc.length) nul).drop 1 =
      acc.drop 1 ++ List.replicate (m + 1) nul := by
    rw [List.drop_append, List.drop_replicate, hm]
  unfold trimGarbage TerminatorIn
  dsimp only
  rw [hdrop]
  rcases internalStrstr_zeros (acc.drop 1) outputTerminator m with ⟨hin, pos, h⟩ | ⟨hin, h⟩
  · rw [h]
    exact Or.inl ⟨hin, _, rfl⟩
  · rw [h]
    exact Or.inr ⟨hin, rfl⟩

/-! ## Answers -/

section Answer

variable (pipe : Pipe) (pageLog : ℕ) (kind : Kind) (s : SymbolizerProcess)

/-- The answer to a process is complete after so many reads. -/
abbrev Answered (m : ℕ) : Prop :=
  AnsweredAt pipe pageLog (reachedEndOfOutput kind) s.reads s.buffer.capacity m

/-- The answer to a process breaks off after so many reads. -/
abbrev Broken (m : ℕ) : Prop :=
  BrokenAt pipe pageLog (reachedEndOfOutput kind) s.reads s.buffer.capacity m

/-- What arrives at a process in so many reads. -/
abbrev received (m : ℕ) : List Char := output pipe pageLog s.reads s.buffer.capacity m

/-- What has arrived passes `CHECK(garbage)`, which only `Addr2LineProcess` makes. -/
def PassesCheck (acc : List Char) : Prop := kind = .addr2line → TerminatorIn acc

variable {pipe pageLog kind s}

theorem holds_clear : Holds pipe pageLog s.reads s.buffer.capacity 0 s.buffer.clear :=
  ⟨List.take_zero, rfl, rfl, Nat.zero_le _⟩

theorem readFromSymbolizerBase_of_finishedAt {reachedEnd : List Char → Bool} {m : ℕ}
    (h : FinishedAt pipe pageLog reachedEnd s.reads s.buffer.capacity m) :
    ∃ fuel n i, (received pipe pageLog s m).length ≤ n ∧ maxLength ≤ n ∧
      readFromSymbolizerBase pipe pageLog reachedEnd fuel s = .returned (true,
        { s with buffer := (filled (received pipe pageLog s m) n).pushBack pageLog nul, reads := i }) := by
  obtain ⟨fuel, n, i, hle, hmax, hloop⟩ := readLoop_of_finishedAt holds_clear h
  refine ⟨fuel, n, i, hle, hmax, ?_⟩
  unfold readFromSymbolizerBase
  rw [hloop]
  rfl

theorem finishedAt_of_readFromSymbolizerBase {reachedEnd : List Char → Bool} {fuel : ℕ} {ret : Bool}
    {s' : SymbolizerProcess}
    (h : readFromSymbolizerBase pipe pageLog reachedEnd fuel s = .returned (ret, s')) :
    ret = true ∧ ∃ m n i, FinishedAt pipe pageLog reachedEnd s.reads s.buffer.capacity m ∧
      (received pipe pageLog s m).length ≤ n ∧ maxLength ≤ n ∧
      s' = { s with buffer := (filled (received pipe pageLog s m) n).pushBack pageLog nul, reads := i } := by
  unfold readFromSymbolizerBase at h
  obtain ⟨⟨v, i⟩, hloop, h⟩ := Outcome.bind_eq_returned.mp h
  obtain ⟨rfl, rfl⟩ := Prod.mk.inj (Outcome.returned.inj h)
  obtain ⟨m, n, hfinished, hle, hmax, rfl⟩ :=
    finishedAt_of_readLoop holds_clear (fun _ hj => absurd hj (Nat.not_lt_zero _))
      (fun h => absurd h (lt_irrefl 0)) hloop
  exact ⟨rfl, m, n, i, hfinished, hle, hmax, rfl⟩

theorem readFromSymbolizerBase_ne_stopped {reachedEnd : List Char → Bool} {fuel : ℕ} {e : Stop} :
    readFromSymbolizerBase pipe pageLog reachedEnd fuel s ≠ .stopped e := by
  unfold readFromSymbolizerBase
  cases hloop : readLoop pipe pageLog reachedEnd fuel s.buffer.clear s.reads with
  | returned r => nofun
  | stopped e' => exact absurd hloop (readLoop_ne_stopped _ _ _ _)
  | unfinished => nofun

/-- When there is nothing more to read, `ReadFromSymbolizer` returns true or fails its check. -/
theorem readFromSymbolizer_of_finishedAt {m : ℕ} (h : FinishedAt pipe pageLog
    (reachedEndOfOutput kind) s.reads s.buffer.capacity m) : ∃ fuel,
    (PassesCheck kind (received pipe pageLog s m) ∧
        ∃ s', readFromSymbolizer pipe pageLog kind fuel s = .returned (true, s')) ∨
      ¬ PassesCheck kind (received pipe pageLog s m) ∧
        readFromSymbolizer pipe pageLog kind fuel s = .stopped .garbage := by
  obtain ⟨fuel, n, i, hle, hmax, hbase⟩ := readFromSymbolizerBase_of_finishedAt h
  refine ⟨fuel, ?_⟩
  unfold readFromSymbolizer PassesCheck
  rw [hbase, Outcome.returned_bind]
  cases kind with
  | llvm => exact Or.inl ⟨nofun, _, rfl⟩
  | atos => exact Or.inl ⟨nofun, _, rfl⟩
  | addr2line =>
    dsimp only
    rw [if_neg (by decide)]
    rcases trimGarbage_cases pageLog { s with reads := i } hle hmax with ⟨hin, s', h⟩ | ⟨hin, h⟩
    · rw [h]
      exact Or.inl ⟨fun _ => hin, _, rfl⟩
    · rw [h]
      exact Or.inr ⟨fun hpass => hin (hpass rfl), rfl⟩

theorem finishedAt_of_readFromSymbolizer {fuel : ℕ} {ret : Bool} {s' : SymbolizerProcess}
    (h : readFromSymbolizer pipe pageLog kind fuel s = .returned (ret, s')) :
    ret = true ∧ ∃ m, FinishedAt pipe pageLog (reachedEndOfOutput kind) s.reads s.buffer.capacity m ∧
      PassesCheck kind (received pipe pageLog s m) := by
  unfold readFromSymbolizer at h
  obtain ⟨⟨ret', s₁⟩, hbase, h⟩ := Outcome.bind_eq_returned.mp h
  obtain ⟨rfl, m, n, i, hfinished, hle, hmax, rfl⟩ := finishedAt_of_readFromSymbolizerBase hbase
  cases kind with
  | llvm => exact ⟨(Prod.mk.inj (Outcome.returned.inj h)).1.symm, m, hfinished, nofun⟩
  | atos => exact ⟨(Prod.mk.inj (Outcome.returned.inj h)).1.symm, m, hfinished, nofun⟩
  | addr2line =>
    dsimp only at h
    rw [if_neg (by decide)] at h
    obtain ⟨s₂, htrim, h⟩ := Outcome.bind_eq_returned.mp h
    rcases trimGarbage_cases pageLog { s with reads := i } hle hmax with ⟨hin, -⟩ | ⟨-, hstop⟩
    · exact ⟨(Prod.mk.inj (Outcome.returned.inj h)).1.symm, m, hfinished, fun _ => hin⟩
    · exact absurd (htrim.symm.trans hstop) nofun

/-- When the check fails, there is nothing more to read. -/
theorem finishedAt_of_garbage {fuel : ℕ} (h : readFromSymbolizer pipe pageLog kind fuel s =
    .stopped .garbage) :
    ∃ m, FinishedAt pipe pageLog (reachedEndOfOutput kind) s.reads s.buffer.capacity m ∧
      ¬ PassesCheck kind (received pipe pageLog s m) := by
  unfold readFromSymbolizer at h
  rcases Outcome.bind_eq_fail.mp (show _ = Outcome.fail (some Stop.garbage) from h) with
    hbase | ⟨⟨ret, s₁⟩, hbase, hrest⟩
  · exact absurd hbase readFromSymbolizerBase_ne_stopped
  · obtain ⟨rfl, m, n, i, hfinished, hle, hmax, rfl⟩ := finishedAt_of_readFromSymbolizerBase hbase
    refine ⟨m, hfinished, fun hpass => ?_⟩
    cases kind with
    | llvm => exact absurd hrest nofun
    | atos => exact absurd hrest nofun
    | addr2line =>
      dsimp only at hrest
      rw [if_neg (by decide)] at hrest
      rcases trimGarbage_cases pageLog { s with reads := i } hle hmax with
        ⟨-, s', htrim⟩ | ⟨hin, -⟩
      · rw [htrim] at hrest
        exact absurd hrest nofun
      · exact hin (hpass rfl)

end Answer

/-! ## Commands -/

section Command

variable (pipe : Pipe) (pageLog : ℕ) (isSameModule : Bool) (kind : Kind) (command : List Char)

/-- `SendCommandImpl` gets as far as to read: there are pipes, and the command is written. -/
def getsToRead (s : SymbolizerProcess) : Bool :=
  s.inputFd ≠ kInvalidFd && s.outputFd ≠ kInvalidFd && (writeToSymbolizer pipe command s).1

/-- A process after an attempt that does not get to read. -/
def afterUnsent (s : SymbolizerProcess) : SymbolizerProcess :=
  if s.inputFd = kInvalidFd ∨ s.outputFd = kInvalidFd then s else (writeToSymbolizer pipe command s).2

/-- A process for the next attempt. -/
def restarted (s : SymbolizerProcess) : SymbolizerProcess :=
  { restart pipe s with timesRestarted := (restart pipe s).timesRestarted + 1 }

/-- The process in the first of so many attempts that gets to read. -/
def firstReading : ℕ → SymbolizerProcess → Option SymbolizerProcess
  | 0, _ => none
  | n + 1, s =>
    if getsToRead pipe command s then some s
    else firstReading n (restarted pipe (afterUnsent pipe command s))

/-- The process in the first attempt of a command that gets to read. -/
def firstReadingOf (s : SymbolizerProcess) : Option SymbolizerProcess :=
  if s.failedToStart || isSameModule then none
  else firstReading pipe command (kMaxTimesRestarted - s.timesRestarted) s

/-- The attempt in a state brings a complete answer. -/
def Complete (s : SymbolizerProcess) : Prop :=
  getsToRead pipe command s = true ∧ ∃ m, Answered pipe pageLog kind s m

/-- The first promise: `ReadFromSymbolizer` of the base class returns true exactly when the answer is
complete. -/
def ReadContract (s : SymbolizerProcess) : Prop :=
  (∃ fuel s', readFromSymbolizerBase pipe pageLog (reachedEndOfOutput kind) fuel s =
    .returned (true, s')) ↔ ∃ m, Answered pipe pageLog kind s m

/-- The second promise: `SendCommandImpl` hands a buffer on only after a complete answer. -/
def ImplContract (s : SymbolizerProcess) : Prop :=
  ∀ fuel buffer s', sendCommandImpl pipe pageLog kind command fuel s = .returned (some buffer, s') →
    Complete pipe pageLog kind command s

/-- The third promise: `SendCommand` restarts the symbolizer after every attempt that brings no complete
answer. -/
def SendContract (s : SymbolizerProcess) : Prop :=
  ∀ fuel res s' events,
    sendCommand pipe pageLog isSameModule kind command fuel s = .returned (res, s', events) →
    ∀ i s₁, events[i]? = some (.attempt s₁) → ¬ Complete pipe pageLog kind command s₁ →
      events[i + 1]? = some .restart

/-- The fourth promise: `CHECK(garbage)` does not fail. -/
def GarbageContract (s : SymbolizerProcess) : Prop :=
  ∀ fuel, readFromSymbolizer pipe pageLog kind fuel s ≠ .stopped .garbage

variable {pipe pageLog isSameModule kind command}

theorem writeToSymbolizer_reads (pipe : Pipe) (command : List Char) (s : SymbolizerProcess) :
    (writeToSymbolizer pipe command s).2.reads = s.reads ∧
      (writeToSymbolizer pipe command s).2.buffer = s.buffer := by
  unfold writeToSymbolizer
  split_ifs <;> exact ⟨rfl, rfl⟩

theorem sendCommandImpl_of_unsent {s : SymbolizerProcess} (h : getsToRead pipe command s = false)
    (fuel : ℕ) : sendCommandImpl pipe pageLog kind command fuel s =
      .returned (none, afterUnsent pipe command s) := by
  unfold sendCommandImpl afterUnsent
  split_ifs with hfd
  · rfl
  · obtain ⟨h1, h2⟩ := not_or.mp hfd
    have hwritten : (writeToSymbolizer pipe command s).1 = false := by
      simpa [getsToRead, h1, h2] using h
    dsimp only
    rw [if_pos (by rw [hwritten]; decide)]

theorem sendCommandImpl_of_sent {s : SymbolizerProcess} (h : getsToRead pipe command s = true)
    (fuel : ℕ) : sendCommandImpl pipe pageLog kind command fuel s =
      (do
        let (ret, s') ← readFromSymbolizer pipe pageLog kind fuel (writeToSymbolizer pipe command s).2
        if !ret then return (none, s') else return (some s'.buffer, s')) := by
  simp only [getsToRead, Bool.and_eq_true, decide_eq_true_eq] at h
  unfold sendCommandImpl
  rw [if_neg (not_or.mpr h.1)]
  dsimp only
  rw [if_neg (by rw [h.2]; decide)]

theorem finishedAt_of_sendCommandImpl {s s' : SymbolizerProcess} {fuel : ℕ} {res : Option MmapVector}
    (h : getsToRead pipe command s = true)
    (hrun : sendCommandImpl pipe pageLog kind command fuel s = .returned (res, s')) :
    res = some s'.buffer ∧ ∃ m,
      FinishedAt pipe pageLog (reachedEndOfOutput kind) s.reads s.buffer.capacity m ∧
        PassesCheck kind (received pipe pageLog s m) := by
  rw [sendCommandImpl_of_sent h] at hrun
  obtain ⟨⟨ret, s₁⟩, hread, hrun⟩ := Outcome.bind_eq_returned.mp hrun
  obtain ⟨rfl, hfinished⟩ := finishedAt_of_readFromSymbolizer hread
  rw [(writeToSymbolizer_reads pipe command s).1, (writeToSymbolizer_reads pipe command s).2] at hfinished
  dsimp only at hrun
  rw [if_neg (by decide)] at hrun
  obtain ⟨rfl, rfl⟩ := Prod.mk.inj (Outcome.returned.inj hrun)
  refine ⟨rfl, ?_⟩
  unfold received at hfinished ⊢
  rwa [(writeToSymbolizer_reads pipe command s).1, (writeToSymbolizer_reads pipe command s).2] at hfinished

theorem sendCommandImpl_of_finishedAt {s : SymbolizerProcess} {m : ℕ}
    (h : getsToRead pipe command s = true)
    (hm : FinishedAt pipe pageLog (reachedEndOfOutput kind) s.reads s.buffer.capacity m)
    (hpass : PassesCheck kind (received pipe pageLog s m)) :
    ∃ fuel buffer s', sendCommandImpl pipe pageLog kind command fuel s =
      .returned (some buffer, s') := by
  obtain ⟨hreads, hbuffer⟩ := writeToSymbolizer_reads pipe command s
  rw [← hreads, ← hbuffer] at hm
  unfold received at hpass
  rw [← hreads, ← hbuffer] at hpass
  obtain ⟨fuel, ⟨-, s', hread⟩ | ⟨hfail, -⟩⟩ := readFromSymbolizer_of_finishedAt hm
  · refine ⟨fuel, s'.buffer, s', ?_⟩
    rw [sendCommandImpl_of_sent h, hread]
    rfl
  · exact absurd hpass hfail

theorem readContract_iff {s : SymbolizerProcess} :
    ReadContract pipe pageLog kind s ↔ ¬ ∃ m, Broken pipe pageLog kind s m := by
  unfold ReadContract
  constructor
  · rintro h ⟨m, hm⟩
    obtain ⟨fuel, n, i, -, -, hrun⟩ := readFromSymbolizerBase_of_finishedAt (Or.inr hm)
    obtain ⟨m', hm'⟩ := h.mp ⟨fuel, _, hrun⟩
    exact hm.not_answeredAt hm'
  · intro h
    constructor
    · rintro ⟨fuel, s', hrun⟩
      obtain ⟨-, m, n, i, hm, -⟩ := finishedAt_of_readFromSymbolizerBase hrun
      exact ⟨m, hm.resolve_right fun hbroken => h ⟨m, hbroken⟩⟩
    · rintro ⟨m, hm⟩
      obtain ⟨fuel, n, i, -, -, hrun⟩ := readFromSymbolizerBase_of_finishedAt (Or.inl hm)
      exact ⟨fuel, _, hrun⟩

theorem implContract_iff {s : SymbolizerProcess} : ImplContract pipe pageLog kind command s ↔
    ¬ (getsToRead pipe command s = true ∧ ∃ m, Broken pipe pageLog kind s m ∧
      PassesCheck kind (received pipe pageLog s m)) := by
  constructor
  · rintro h ⟨hsent, m, hm, hpass⟩
    obtain ⟨fuel, buffer, s', hrun⟩ := sendCommandImpl_of_finishedAt hsent (Or.inr hm) hpass
    obtain ⟨-, m', hm'⟩ := h fuel buffer s' hrun
    exact hm.not_answeredAt hm'
  · intro h fuel buffer s' hrun
    cases hsent : getsToRead pipe command s with
    | false =>
      rw [sendCommandImpl_of_unsent hsent] at hrun
      exact absurd hrun nofun
    | true =>
      obtain ⟨-, m, hm, hpass⟩ := finishedAt_of_sendCommandImpl hsent hrun
      exact ⟨hsent, m, hm.resolve_right fun hbroken => h ⟨hsent, m, hbroken, hpass⟩⟩

theorem garbageContract_iff {s : SymbolizerProcess} : GarbageContract pipe pageLog kind s ↔
    ¬ ∃ m, (Answered pipe pageLog kind s m ∨ Broken pipe pageLog kind s m) ∧
      ¬ PassesCheck kind (received pipe pageLog s m) := by
  constructor
  · rintro h ⟨m, hm, hfail⟩
    obtain ⟨fuel, ⟨hpass, -⟩ | ⟨-, hrun⟩⟩ := readFromSymbolizer_of_finishedAt hm
    · exact hfail hpass
    · exact h fuel hrun
  · intro h fuel hrun
    exact h (finishedAt_of_garbage hrun)

theorem getsToRead_of_firstReading {n : ℕ} {s s₁ : SymbolizerProcess}
    (h : firstReading pipe command n s = some s₁) : getsToRead pipe command s₁ = true := by
  induction n generalizing s with
  | zero => exact absurd h nofun
  | succ n ih =>
    rw [firstReading] at h
    split_ifs at h with hsent
    · obtain rfl := Option.some.inj h
      exact hsent
    · exact ih h

theorem sendCommandLoop_of_unsent {s : SymbolizerProcess} (h : getsToRead pipe command s = false)
    (fuel n : ℕ) : sendCommandLoop pipe pageLog kind command fuel (n + 1) s =
      (do
        let (res, s', events) ← sendCommandLoop pipe pageLog kind command fuel n
          (restarted pipe (afterUnsent pipe command s))
        return (res, s', .attempt s :: .restart :: events)) := by
  rw [sendCommandLoop, sendCommandImpl_of_unsent h]
  rfl

/-- The first attempt that gets to read, when it hands on a buffer, is the last. -/
theorem sendCommandLoop_of_firstReading {n : ℕ} {s s₁ s' : SymbolizerProcess} {fuel : ℕ}
    {buffer : MmapVector} (h : firstReading pipe command n s = some s₁)
    (hrun : sendCommandImpl pipe pageLog kind command fuel s₁ = .returned (some buffer, s')) :
    ∃ before, sendCommandLoop pipe pageLog kind command fuel n s =
      .returned (some buffer, s', before ++ [.attempt s₁]) := by
  induction n generalizing s with
  | zero => exact absurd h nofun
  | succ n ih =>
    rw [firstReading] at h
    cases hsent : getsToRead pipe command s with
    | true =>
      rw [hsent, if_pos rfl] at h
      obtain rfl := Option.some.inj h
      refine ⟨[], ?_⟩
      rw [sendCommandLoop, hrun]
      rfl
    | false =>
      rw [hsent, if_neg (by decide)] at h
      obtain ⟨before, hloop⟩ := ih h
      refine ⟨.attempt s :: .restart :: before, ?_⟩
      rw [sendCommandLoop_of_unsent hsent, hloop]
      rfl

/-- After each attempt there is a restart, unless it is the first that gets to read. -/
theorem restart_of_sendCommandLoop {n : ℕ} {s s' : SymbolizerProcess} {fuel : ℕ}
    {res : Option MmapVector} {events : List Event}
    (h : sendCommandLoop pipe pageLog kind command fuel n s = .returned (res, s', events)) {i : ℕ}
    {s₁ : SymbolizerProcess} (hi : events[i]? = some (.attempt s₁)) :
    events[i + 1]? = some .restart ∨ firstReading pipe command n s = some s₁ ∧
      getsToRead pipe command s₁ = true ∧
      ∃ s₂, sendCommandImpl pipe pageLog kind command fuel s₁ = .returned (res, s₂) := by
  induction n generalizing s events i with
  | zero =>
    obtain ⟨-, h⟩ := Prod.mk.inj (Outcome.returned.inj h)
    obtain ⟨-, rfl⟩ := Prod.mk.inj h
    exact absurd hi nofun
  | succ n ih =>
    rw [firstReading]
    cases hsent : getsToRead pipe command s with
    | false =>
      rw [sendCommandLoop_of_unsent hsent] at h
      obtain ⟨⟨res', s₂, events'⟩, hloop, hend⟩ := Outcome.bind_eq_returned.mp h
      obtain ⟨rfl, htail⟩ := Prod.mk.inj (Outcome.returned.inj hend)
      obtain ⟨rfl, rfl⟩ := Prod.mk.inj htail
      rw [if_neg (by decide)]
      match i with
      | 0 => exact Or.inl rfl
      | 1 => exact absurd hi nofun
      | i + 2 => exact ih hloop hi
    | true =>
      rw [sendCommandLoop] at h
      obtain ⟨⟨res', s₂⟩, hrun, hend⟩ := Outcome.bind_eq_returned.mp h
      obtain ⟨rfl, -⟩ := finishedAt_of_sendCommandImpl hsent hrun
      obtain ⟨rfl, htail⟩ := Prod.mk.inj (Outcome.returned.inj hend)
      obtain ⟨rfl, rfl⟩ := Prod.mk.inj htail
      rw [if_pos rfl]
      match i with
      | 0 =>
        obtain rfl := Event.attempt.inj (Option.some.inj hi)
        exact Or.inr ⟨rfl, hsent, _, hrun⟩
      | i + 1 => exact absurd hi nofun

/-- The third promise is kept when the first answer that is read does not break off and pass the check. -/
theorem sendContract_iff {s : SymbolizerProcess} :
    SendContract pipe pageLog isSameModule kind command s ↔
      ¬ ∃ s₁ m, firstReadingOf pipe isSameModule command s = some s₁ ∧
        Broken pipe pageLog kind s₁ m ∧ PassesCheck kind (received pipe pageLog s₁ m) := by
  unfold SendContract sendCommand firstReadingOf
  cases hfailed : s.failedToStart with
  | true =>
    simp only [Bool.true_or, if_true]
    refine iff_of_true (fun fuel res s' events h i s₁ hi => ?_) (by rintro ⟨s₁, m, h, -⟩; exact absurd h nofun)
    obtain ⟨-, h⟩ := Prod.mk.inj (Outcome.returned.inj h)
    obtain ⟨-, rfl⟩ := Prod.mk.inj h
    exact absurd hi nofun
  | false =>
    cases isSameModule with
    | true =>
      simp only [Bool.or_true, if_true]
      refine iff_of_true (fun fuel res s' events h i s₁ hi => ?_) (by rintro ⟨s₁, m, h, -⟩; exact absurd h nofun)
      obtain ⟨-, h⟩ := Prod.mk.inj (Outcome.returned.inj h)
      obtain ⟨-, rfl⟩ := Prod.mk.inj h
      exact absurd hi nofun
    | false =>
      simp only [Bool.or_false, Bool.false_eq_true, if_false]
      constructor
      · rintro h ⟨s₁, m, hfirst, hm, hpass⟩
        have hsent := getsToRead_of_firstReading hfirst
        obtain ⟨fuel, buffer, s', hrun⟩ := sendCommandImpl_of_finishedAt hsent (Or.inr hm) hpass
        obtain ⟨before, hloop⟩ := sendCommandLoop_of_firstReading hfirst hrun
        have hlast : (before ++ [Event.attempt s₁])[before.length + 1]? = none :=
          List.getElem?_eq_none (by simp)
        have hrestart := h fuel _ _ _ hloop before.length s₁ (by simp)
          fun hcomplete => hcomplete.2.elim fun m' hm' => hm.not_answeredAt hm'
        exact absurd (hlast.symm.trans hrestart) nofun
      · intro h fuel res s' events hloop i s₁ hi hincomplete
        refine (restart_of_sendCommandLoop hloop hi).resolve_right ?_
        rintro ⟨hfirst, hsent, s₂, hrun⟩
        obtain ⟨-, m, hm, hpass⟩ := finishedAt_of_sendCommandImpl hsent hrun
        rcases hm with hm | hm
        · exact hincomplete ⟨hsent, m, hm⟩
        · exact h ⟨s₁, m, hfirst, hm, hpass⟩

/-- **When the promises about an answer are kept**: each of them exactly when the answer does not break off
in a way that the code takes for a complete answer. -/
theorem answerContract_iff (pipe : Pipe) (pageLog : ℕ) (isSameModule : Bool) (kind : Kind)
    (command : List Char) (s : SymbolizerProcess) :
    (ReadContract pipe pageLog kind s ↔ ¬ ∃ m, Broken pipe pageLog kind s m) ∧
    (ImplContract pipe pageLog kind command s ↔
      ¬ (getsToRead pipe command s = true ∧ ∃ m, Broken pipe pageLog kind s m ∧
        PassesCheck kind (received pipe pageLog s m))) ∧
    (SendContract pipe pageLog isSameModule kind command s ↔
      ¬ ∃ s₁ m, firstReadingOf pipe isSameModule command s = some s₁ ∧
        Broken pipe pageLog kind s₁ m ∧ PassesCheck kind (received pipe pageLog s₁ m)) ∧
    (GarbageContract pipe pageLog kind s ↔
      ¬ ∃ m, (Answered pipe pageLog kind s m ∨ Broken pipe pageLog kind s m) ∧
        ¬ PassesCheck kind (received pipe pageLog s m)) :=
  ⟨readContract_iff, implContract_iff, sendContract_iff, garbageContract_iff⟩

/-- A symbolizer that answers with four letters, and then has closed its end of the pipe. -/
def dying : Pipe where
  read i count := if i = 0 ∧ 4 ≤ count then some ['m', 'a', 'i', 'n'] else some []
  read_le := by
    intro i count chunk h
    split_ifs at h with hfirst
    · obtain rfl := Option.some.inj h
      exact hfirst.2
    · obtain rfl := Option.some.inj h
      exact Nat.zero_le _
  write _ count := some count
  start _ := .failed

/-- A process that has just been started. -/
def fresh : SymbolizerProcess where
  inputFd := 3
  outputFd := 4
  buffer := { data := [], size := 0 }
  timesRestarted := 0
  failedToStart := false
  reads := 0
  writes := 0
  starts := 0

theorem dying_broken (kind : Kind) : Broken dying 12 kind fresh 1 := by
  refine ⟨fun j hj => ?_, fun _ => by cases kind <;> decide, ?_⟩
  · obtain rfl := Nat.lt_one_iff.mp hj
    exact ⟨⟨['m', 'a', 'i', 'n'], by decide, by decide⟩, fun h => absurd h (lt_irrefl 0)⟩
  · rintro ⟨chunk, h, hne⟩
    exact hne (Option.some.inj h).symm

/-- The four letters pass for an answer of llvm-symbolizer, and addr2line's terminator is not in them. -/
theorem dying_answer : ¬ ReadContract dying 12 .llvm fresh ∧ ¬ ImplContract dying 12 .llvm ['0'] fresh ∧
    ¬ SendContract dying 12 false .llvm ['0'] fresh ∧ ¬ GarbageContract dying 12 .addr2line fresh := by
  rw [readContract_iff, implContract_iff, sendContract_iff, garbageContract_iff]
  refine ⟨not_not.mpr ⟨1, dying_broken _⟩, not_not.mpr ⟨by decide, 1, dying_broken _, nofun⟩,
    not_not.mpr ⟨fresh, 1, by rfl, dying_broken _, nofun⟩,
    not_not.mpr ⟨1, Or.inr (dying_broken _), fun h => ?_⟩⟩
  exact not_infix_of_length_lt (by decide) (h rfl)

end Command

end Tasan.Symbolizer
