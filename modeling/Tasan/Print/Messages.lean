import Tasan.Print.Buffers

/-!
# Messages

`SharedPrintfCodeNoBuffer` of `sanitizer_printf.cpp` prints the parts of a message into a local
buffer, and then into mappings that are as large as the last attempt has shown to be needed. Each
attempt comes one part further than the one before, so that there are few of them
(`mmapLoop_fits`). The capacity of a mapping is an `int` for it: from `2^31` on it is not positive,
and the next attempt fails a `CHECK`. What is printed is written up to the first NUL, so that the
rendering must not have a NUL of its own either.

`print_iff` puts the formatter and the two callers together.
-/

namespace Tasan.Print

open FlagParser (nul)
open Format (toInt)

/-- The sum of two numbers of type `int` that are not negative. -/
def addInt (a b : ℕ) : Outcome Failure ℕ :=
  if a + b < 2^31 then .returned (a + b) else .stopped .overflow

/-- One attempt to print a message: how long it would have been so far, the buffer, and whether it
fits. The parts of the message are printed one after the other, as long as they fit. -/
def attempt (T : Target) (bufferSize : ℤ) :
    List (List Char × List Arg) → ℕ → List Char → Outcome Failure (ℕ × List Char × Bool)
  | [], neededLength, buffer => .returned (neededLength, buffer, true)
  | (format, args) :: parts, neededLength, buffer => do
    let (bytes, n) ← lift .print
      (vsnprintf T (bufferSize - neededLength) (buffer.drop neededLength) format args)
    let buffer := buffer.take neededLength ++ bytes
    let neededLength ← addInt neededLength n
    if bufferSize ≤ neededLength then return (neededLength, buffer, false)
    else attempt T bufferSize parts neededLength buffer

/-- An `int` as a word. -/
def ofInt (n : ℤ) : ℕ := (n % 2^64).toNat

/-- The vector for a message that did not fit, and `buffer_size`. -/
def growBuffer (E : MmapEnv) (v : InternalMmapVector) (neededLength : ℕ) :
    Outcome Failure (ℤ × InternalMmapVector) := do
  let size ← addInt neededLength 1
  let v ← lift .mmap (v.resize E size)
  let bufferSize := toInt v.capacity
  let v ← lift .mmap (v.resize E (ofInt bufferSize))
  if v.size = 0 then .stopped (.mmap .check) else return (bufferSize, v)

/-- The loop of `SharedPrintfCodeNoBuffer`, from the first attempt with a vector on: the buffer that
is written. -/
def mmapLoop (T : Target) (E : MmapEnv) (parts : List (List Char × List Arg)) :
    ℕ → InternalMmapVector → ℕ → Outcome Failure (List Char)
  | 0, _, _ => .unfinished
  | fuel + 1, v, neededLength => do
    let (bufferSize, v) ← growBuffer E v neededLength
    let (neededLength, buffer, fits) ← attempt T bufferSize parts 0 v.data
    if fits then return buffer
    else mmapLoop T E parts fuel ⟨buffer, v.size⟩ neededLength

/-- What a message begins with. -/
structure Process where
  logExeName : Bool
  /-- `GetProcessName`, which may be the null pointer. -/
  exeName : Option (List Char)
  /-- The name is a string that is shorter than `kMaxPathLength`. -/
  exeName_ok : ∀ name ∈ exeName, nul ∉ name ∧ name.length < 4096
  /-- `internal_getpid`. -/
  pid : BitVec 32

/-- The formats of a message with their arguments. -/
def messageParts (P : Process) (appendPid : Bool) (format : List Char) (args : List Arg) :
    List (List Char × List Arg) :=
  (if appendPid && P.logExeName && P.exeName.isSome then
    [(['=', '=', '%', 's'], [.str P.exeName])] else []) ++
  ((if appendPid then [(['=', '=', '%', 'd', '=', '='], [.int P.pid])] else []) ++
    [(format, args)])

/-- `SharedPrintfCodeNoBuffer`: what `RawWrite` writes, which ends at the first NUL. Each attempt
prints one part more than the one before, at least. -/
def sharedPrintfCodeNoBuffer (T : Target) (E : MmapEnv) (P : Process) (appendPid : Bool)
    (localBuffer : List Char) (bufferSize : ℕ) (format : List Char) (args : List Arg) :
    Outcome Failure (List Char) := do
  let parts := messageParts P appendPid format args
  let (neededLength, buffer, fits) ← attempt T bufferSize parts 0 localBuffer
  let buffer ← if fits then .returned buffer
    else mmapLoop T E parts (parts.length + 1) ⟨[], 0⟩ neededLength
  return buffer.takeWhile (· ≠ nul)

theorem ofInt_of_lt {n : ℕ} (hn : n < 2^31) : ofInt n = n := by
  unfold ofInt
  omega

/-! ## Attempts -/

/-- The formats and arguments of some parts. -/
def formats (parts : List (List Item)) : List (List Char × List Arg) :=
  parts.map fun items => (formatOf items, argsOf items)

/-- What some parts print. -/
def textOf (T : Target) (parts : List (List Item)) : List Char := parts.flatMap (rendering T)

theorem length_textOf_take_le (T : Target) (parts : List (List Item)) (k : ℕ) :
    (textOf T (parts.take k)).length ≤ (textOf T parts).length := by
  have happend : textOf T parts = textOf T (parts.take k) ++ textOf T (parts.drop k) := by
    unfold textOf
    rw [← List.flatMap_append, List.take_append_drop]
  rw [happend, List.length_append]
  exact Nat.le_add_right _ _

/-- How an attempt ends, when some of the text is there already. -/
inductive Attempt (T : Target) (bufferSize : ℕ) (parts : List (List Item))
    (done buffer : List Char) : Outcome Failure (ℕ × List Char × Bool) → Prop
  /-- The text fits. -/
  | fits (rest : List Char) (hlt : (done ++ textOf T parts).length < bufferSize) :
    Attempt T bufferSize parts done buffer (.returned
      ((done ++ textOf T parts).length, done ++ textOf T parts ++ nul :: rest, true))
  /-- The first parts do not fit. -/
  | long (k : ℕ) (buffer' : List Char) (hk : k ≤ parts.length)
      (hle : bufferSize ≤ (done ++ textOf T (parts.take k)).length)
      (hbuffer : buffer'.length = buffer.length) :
    Attempt T bufferSize parts done buffer (.returned
      ((done ++ textOf T (parts.take k)).length, buffer', false))
  /-- The length of the text is no `int`. -/
  | overflow (hle : 2^31 ≤ (done ++ textOf T parts).length) :
    Attempt T bufferSize parts done buffer (.stopped .overflow)

/-- An attempt ends in one of these ways. -/
theorem attempt_cases (T : Target) {parts : List (List Item)} {done buffer : List Char}
    {bufferSize : ℕ} (hok : ∀ items ∈ parts, ∀ item ∈ items, item.Ok)
    (hroom : done.length < bufferSize) (hbuffer : bufferSize ≤ buffer.length)
    (hdone : buffer.take done.length = done)
    (hnul : parts = [] → ∃ rest, buffer = done ++ nul :: rest) :
    Attempt T bufferSize parts done buffer
      (attempt T bufferSize (formats parts) done.length buffer) := by
  induction parts generalizing done buffer with
  | nil =>
    obtain ⟨rest, rfl⟩ := hnul rfl
    have htext : done ++ textOf T [] = done := List.append_nil done
    have hfits := @Attempt.fits T bufferSize [] done (done ++ nul :: rest) rest (by rwa [htext])
    rw [htext] at hfits
    exact hfits
  | cons items parts ih =>
    have htext : textOf T (items :: parts) = rendering T items ++ textOf T parts :=
      List.flatMap_cons
    have hcast : (bufferSize : ℤ) - done.length = (bufferSize - done.length : ℕ) := by omega
    have hmem : bufferSize - done.length ≤ (buffer.drop done.length).length := by
      rw [List.length_drop]
      omega
    have hformats : formats (items :: parts) =
        (formatOf items, argsOf items) :: formats parts := rfl
    rw [hformats, attempt, hcast, vsnprintf_eq T (hok items List.mem_cons_self) (by omega) hmem,
      lift, Outcome.returned_bind]
    dsimp only
    rw [hdone]
    unfold addInt
    split_ifs with hint
    · rw [Outcome.returned_bind]
      have hbytes := length_printed (by omega) hmem (rendering T items)
      split_ifs with hlong
      · have hone : textOf T ((items :: parts).take 1) = rendering T items := by
          rw [List.take_succ_cons, List.take_zero]
          exact List.append_nil _
        have hstop := @Attempt.long T bufferSize (items :: parts) done buffer 1
          (done ++ printed (bufferSize - done.length) (buffer.drop done.length) (rendering T items))
          (Nat.le_add_left _ _) (by rw [hone, List.length_append]; exact_mod_cast hlong)
          (by rw [List.length_append, hbytes, List.length_drop]; omega)
        rw [hone, List.length_append] at hstop
        exact hstop
      · -- the part fits, and the next one follows it
        have hshort : done.length + (rendering T items).length < bufferSize := by
          exact_mod_cast not_le.mp hlong
        obtain ⟨rest, hrest⟩ := @printed_fits (bufferSize - done.length)
          (buffer.drop done.length) (rendering T items) (by omega)
        rw [hrest] at hbytes ⊢
        have hassoc : done ++ (rendering T items ++ nul :: rest) =
            done ++ rendering T items ++ nul :: rest := (List.append_assoc _ _ _).symm
        have hlen : (done ++ rendering T items ++ nul :: rest).length = buffer.length := by
          rw [← hassoc, List.length_append, hbytes, List.length_drop]
          omega
        have hnext := @ih (done ++ rendering T items)
          (done ++ rendering T items ++ nul :: rest)
          (fun p hp => hok p (List.mem_cons_of_mem _ hp)) (by rwa [List.length_append])
          (by rwa [hlen]) (List.take_left' rfl) (fun _ => ⟨rest, rfl⟩)
        rw [hassoc, ← List.length_append]
        generalize attempt T bufferSize (formats parts) (done ++ rendering T items).length
          (done ++ rendering T items ++ nul :: rest) = result at hnext ⊢
        cases hnext with
        | fits rest' hlt =>
          have hall : done ++ rendering T items ++ textOf T parts =
              done ++ textOf T (items :: parts) := by rw [htext, List.append_assoc]
          rw [hall] at hlt ⊢
          exact Attempt.fits rest' hlt
        | long k buffer' hk hle hlen' =>
          have hall : done ++ rendering T items ++ textOf T (parts.take k) =
              done ++ textOf T ((items :: parts).take (k + 1)) := by
            rw [List.take_succ_cons, List.append_assoc]
            rfl
          rw [hall] at hle ⊢
          exact Attempt.long (k + 1) buffer' (Nat.succ_le_succ hk) hle (hlen'.trans hlen)
        | overflow hle =>
          refine Attempt.overflow ?_
          rwa [htext, ← List.append_assoc]
    · rw [Outcome.stopped_bind]
      exact Attempt.overflow (by rw [htext]; simp only [List.length_append]; omega)

/-! ## Growing the buffer -/

section grow

variable {T : Target} {E : MmapEnv} {v w : InternalMmapVector} {m : ℕ}

theorem toInt_roundUp {n : ℕ} (hn : n ≤ 2^31) : E.roundUp n < 2^31 ∨ toInt (E.roundUp n) ≤ 0 := by
  have hle : n ≤ 2^63 := hn.trans (by norm_num)
  rcases Nat.lt_or_ge E.pageLog 32 with hlog | hlog
  · -- `2^31` is a number of whole pages
    have hround : E.roundUp n ≤ 2^31 := E.roundUp_le hle (Nat.pow_dvd_pow 2 (by omega)) hn
    rcases hround.lt_or_eq with hlt | heq
    · exact Or.inl hlt
    · rw [heq]
      exact Or.inr (by decide)
  · -- a page is larger than that, and nothing is left of it
    obtain ⟨pages, hpages⟩ : 2^32 ∣ E.roundUp n :=
      (Nat.pow_dvd_pow 2 hlog).trans (E.dvd_roundUp hle)
    right
    unfold toInt
    rw [BitVec.toInt_eq_toNat_cond, BitVec.toNat_ofNat, hpages, Nat.mul_mod_right]
    decide

theorem growBuffer_resize (hsize : v.size ≤ v.capacity) (hcap : v.capacity ≤ m)
    (hm : m + 1 < 2^31) :
    (∃ u : InternalMmapVector, u.size ≤ u.capacity ∧ u.capacity = E.roundUp (m + 1) ∧
      growBuffer E v m = (do
        let w ← lift .mmap (u.resize E (ofInt (toInt (E.roundUp (m + 1)))))
        if w.size = 0 then .stopped (.mmap .check)
        else return (toInt (E.roundUp (m + 1)), w))) ∨
    growBuffer E v m = .stopped (.mmap .mmapOrDie) ∧ E.maps (E.roundUp (m + 1)) = false := by
  unfold growBuffer addInt
  rw [if_pos hm, Outcome.returned_bind]
  rcases InternalMmapVector.resize_grow E (n := m + 1) hsize (by omega) (by omega) with
    ⟨u, hu, husize, hle, -, hucap⟩ | ⟨hu, hfail⟩
  · rw [if_pos (by omega)] at hucap
    rw [hu, lift, Outcome.returned_bind, hucap]
    exact Or.inl ⟨u, husize.le.trans hle, hucap, rfl⟩
  · rw [hu]
    exact Or.inr ⟨rfl, hfail⟩

theorem growBuffer_fits (hsize : v.size ≤ v.capacity) (hcap : v.capacity ≤ m)
    (hround : E.roundUp (m + 1) < 2^31) (hmaps : E.maps (E.roundUp (m + 1)) = true)
    (hm : m < 2^63) :
    ∃ w, growBuffer E v m = .returned ((E.roundUp (m + 1) : ℕ), w) ∧
      w.size = w.capacity ∧ w.capacity = E.roundUp (m + 1) := by
  have hle : m + 1 ≤ E.roundUp (m + 1) := E.le_roundUp (by omega)
  rcases growBuffer_resize (E := E) hsize hcap (hle.trans_lt hround) with
    ⟨u, husize, hucap, hrun⟩ | ⟨-, hfail⟩
  · obtain ⟨data, hdata, hlen, -⟩ := InternalMmapVector.resize_capacity E husize
    rw [hucap] at hdata hlen
    rw [hrun, toInt_of_lt hround, ofInt_of_lt hround, hdata, lift, Outcome.returned_bind,
      if_neg (show E.roundUp (m + 1) ≠ 0 by omega)]
    exact ⟨_, rfl, hlen.symm, hlen⟩
  · rw [hmaps] at hfail
    cases hfail

/-- A buffer of a positive size has a size that is an `int`. -/
theorem growBuffer_returned (hsize : v.size ≤ v.capacity) (hcap : v.capacity ≤ m) {b : ℤ}
    (hrun : growBuffer E v m = .returned (b, w)) (hb : 0 < b) :
    b = (E.roundUp (m + 1) : ℕ) ∧ E.roundUp (m + 1) < 2^31 ∧ w.size = w.capacity ∧
      w.capacity = E.roundUp (m + 1) := by
  have hm : m + 1 < 2^31 := by
    by_contra hlarge
    unfold growBuffer addInt at hrun
    rw [if_neg hlarge] at hrun
    cases hrun
  rcases growBuffer_resize (E := E) hsize hcap hm with ⟨u, husize, hucap, heq⟩ | ⟨heq, -⟩
  · rw [heq] at hrun
    obtain ⟨w', hw', hcheck⟩ := Outcome.bind_eq_returned.mp hrun
    split_ifs at hcheck
    cases hcheck
    have hround := (toInt_roundUp (E := E) hm.le).resolve_right (not_le.mpr hb)
    obtain ⟨data, hdata, hlen, -⟩ := InternalMmapVector.resize_capacity E husize
    rw [hucap] at hdata hlen
    rw [toInt_of_lt hround, ofInt_of_lt hround, hdata] at hw'
    cases hw'
    exact ⟨toInt_of_lt hround, hround, hlen.symm, hlen⟩
  · rw [heq] at hrun
    cases hrun

theorem attempt_empty {parts : List (List Item)} (hparts : parts ≠ []) {b : ℤ} (hb : b ≤ 0)
    (buffer : List Char) :
    attempt T b (formats parts) 0 buffer = .stopped (.print .check) := by
  obtain ⟨items, rest, rfl⟩ := List.exists_cons_of_ne_nil hparts
  have hformats : formats (items :: rest) = (formatOf items, argsOf items) :: formats rest := rfl
  rw [hformats, attempt]
  unfold vsnprintf
  rw [if_pos (by simpa using hb)]
  rfl

variable {parts : List (List Item)} (hok : ∀ items ∈ parts, ∀ item ∈ items, item.Ok)

include hok

theorem attempt_start (T : Target) (hparts : parts ≠ []) {bufferSize : ℕ} {buffer : List Char}
    (hpos : 0 < bufferSize) (hbuffer : bufferSize ≤ buffer.length) :
    Attempt T bufferSize parts [] buffer (attempt T bufferSize (formats parts) 0 buffer) :=
  attempt_cases T hok hpos hbuffer rfl fun h => absurd h hparts

/-- The loop ends with the whole text if its size is an `int` and the mappings succeed. -/
theorem mmapLoop_fits (hparts : parts ≠ [])
    (hround : E.roundUp ((textOf T parts).length + 1) < 2^31)
    (hmaps : ∀ k ≤ E.roundUp ((textOf T parts).length + 1), E.maps k = true)
    (htext : (textOf T parts).length < 2^63) {fuel k : ℕ} (hk : k ≤ parts.length)
    (hfuel : parts.length < fuel + k)
    (hsize : v.size ≤ v.capacity) (hcap : v.capacity ≤ (textOf T (parts.take k)).length) :
    ∃ rest, mmapLoop T E (formats parts) fuel v (textOf T (parts.take k)).length =
      .returned (textOf T parts ++ nul :: rest) := by
  induction fuel generalizing v k with
  | zero => omega
  | succ fuel ih =>
    have hm := length_textOf_take_le T parts k
    have hmono : E.roundUp ((textOf T (parts.take k)).length + 1) ≤
        E.roundUp ((textOf T parts).length + 1) := E.roundUp_mono (by omega) (by omega)
    have hle : (textOf T (parts.take k)).length + 1 ≤
        E.roundUp ((textOf T (parts.take k)).length + 1) := E.le_roundUp (by omega)
    obtain ⟨w, hw, hwsize, hwcap⟩ := growBuffer_fits (E := E) hsize hcap (hmono.trans_lt hround)
      (hmaps _ hmono) (by omega)
    have hstart := attempt_start hok T hparts (Nat.zero_lt_of_lt hle) hwcap.ge
    rw [mmapLoop, hw, Outcome.returned_bind]
    dsimp only
    generalize attempt T (E.roundUp ((textOf T (parts.take k)).length + 1) : ℕ) (formats parts) 0
      w.data = result at hstart ⊢
    cases hstart with
    | fits rest hlt => exact ⟨rest, rfl⟩
    | long k' buffer' hk' hlong hlen =>
      rw [Outcome.returned_bind]
      dsimp only
      rw [if_neg Bool.false_ne_true]
      rw [List.nil_append] at hlong ⊢
      -- the attempt has come one part further
      have hlater : k < k' := by
        by_contra hge
        have htake : parts.take k' = (parts.take k).take k' := by
          rw [List.take_take, min_eq_left (not_lt.mp hge)]
        have hshort := length_textOf_take_le T (parts.take k) k'
        rw [← htake] at hshort
        omega
      exact ih hk' (by omega) (by rw [hwsize]; exact hlen.ge) (hlen.trans_le (hwcap.trans_le hlong))
    | overflow hlarge =>
      have hall : (textOf T parts).length + 1 ≤ E.roundUp ((textOf T parts).length + 1) :=
        E.le_roundUp (by omega)
      rw [List.nil_append] at hlarge
      omega

/-- The loop ends with the whole text only if its size is an `int`. -/
theorem mmapLoop_returned (hparts : parts ≠ []) (htext : (textOf T parts).length < 2^63)
    {fuel : ℕ} {buffer : List Char} (hm : m ≤ (textOf T parts).length)
    (hsize : v.size ≤ v.capacity) (hcap : v.capacity ≤ m)
    (hrun : mmapLoop T E (formats parts) fuel v m = .returned buffer) :
    E.roundUp ((textOf T parts).length + 1) < 2^31 ∧
      ∃ rest, buffer = textOf T parts ++ nul :: rest := by
  induction fuel generalizing v m with
  | zero => cases hrun
  | succ fuel ih =>
    rw [mmapLoop] at hrun
    obtain ⟨⟨b, w⟩, hgrow, hrun⟩ := Outcome.bind_eq_returned.mp hrun
    dsimp only at hrun
    by_cases hb : b ≤ 0
    · rw [attempt_empty hparts hb] at hrun
      cases hrun
    · obtain ⟨rfl, hround, hwsize, hwcap⟩ :=
        growBuffer_returned hsize hcap hgrow (not_le.mp hb)
      have hstart := attempt_start hok T hparts (by omega) hwcap.ge
      generalize attempt T (E.roundUp (m + 1) : ℕ) (formats parts) 0 w.data = result
        at hstart hrun
      cases hstart with
      | fits rest hlt =>
        cases hrun
        refine ⟨?_, rest, rfl⟩
        calc E.roundUp ((textOf T parts).length + 1)
            ≤ E.roundUp (m + 1) :=
              E.roundUp_le (by omega) (E.dvd_roundUp (by omega)) hlt
          _ < 2^31 := hround
      | long k buffer' hk hlong hlen =>
        rw [Outcome.returned_bind] at hrun
        dsimp only at hrun
        rw [if_neg Bool.false_ne_true, List.nil_append] at hrun
        rw [List.nil_append] at hlong
        exact ih (v := ⟨buffer', w.size⟩) (length_textOf_take_le T parts k)
          (by rw [hwsize]; exact hlen.ge) (hlen.trans_le (hwcap.trans_le hlong)) hrun
      | overflow => cases hrun

end grow

/-! ## Messages as a whole -/

/-- The parts before the message itself. -/
def prefixItems (P : Process) (appendPid : Bool) : List (List Item) :=
  (if appendPid && P.logExeName && P.exeName.isSome then
    [[.char '=', .char '=', .string none none P.exeName]] else []) ++
  (if appendPid then [[.char '=', .char '=', .int .d [] P.pid, .char '=', .char '=']] else [])

/-- The text before the message itself. -/
def messagePrefix (P : Process) (appendPid : Bool) : List Char :=
  (if appendPid && P.logExeName && P.exeName.isSome then '=' :: '=' :: P.exeName.getD [] else []) ++
  (if appendPid then '=' :: '=' :: (NumberConv.d.rendering [] P.pid.toInt ++ ['=', '=']) else [])

theorem messageParts_eq (P : Process) (appendPid : Bool) (items : List Item) :
    messageParts P appendPid (formatOf items) (argsOf items) =
      formats (prefixItems P appendPid ++ [items]) := by
  unfold messageParts prefixItems formats
  cases appendPid <;> cases P.logExeName <;> cases P.exeName.isSome <;> rfl

theorem prefixItems_ok (P : Process) (appendPid : Bool) :
    ∀ part ∈ prefixItems P appendPid, ∀ item ∈ part, item.Ok := by
  have hequals : (Item.char '=').Ok := ⟨by decide, by decide⟩
  have hname : (Item.string none none P.exeName).Ok := List.forall_mem_nil _
  have hpid : (Item.int .d [] P.pid).Ok := ⟨List.forall_mem_nil _, by decide⟩
  unfold prefixItems
  intro part hpart
  rcases List.mem_append.mp hpart with hpart | hpart
  · split_ifs at hpart
    · rw [List.mem_singleton.mp hpart]
      simp [hequals, hname]
    · cases hpart
  · split_ifs at hpart
    · rw [List.mem_singleton.mp hpart]
      simp [hequals, hpid]
    · cases hpart

theorem stringText_plain (str : List Char) : stringText 0 (-1) str = str := by
  unfold stringText
  dsimp only
  rw [if_neg (by decide), Nat.zero_sub, List.replicate_zero, List.append_nil]

/-- The text of a message is the one of its parts. -/
theorem textOf_prefixItems (T : Target) (P : Process) (appendPid : Bool) (items : List Item) :
    textOf T (prefixItems P appendPid ++ [items]) =
      messagePrefix P appendPid ++ rendering T items := by
  have hname : ∀ name, rendering T [.char '=', .char '=', .string none none (some name)] =
      '=' :: '=' :: name := by
    intro name
    calc rendering T [.char '=', .char '=', .string none none (some name)]
        = '=' :: '=' :: (stringText 0 (-1) name ++ []) := rfl
      _ = '=' :: '=' :: name := by rw [stringText_plain, List.append_nil]
  have hpid : rendering T [.char '=', .char '=', .int .d [] P.pid, .char '=', .char '='] =
      '=' :: '=' :: (NumberConv.d.rendering [] P.pid.toInt ++ ['=', '=']) := rfl
  have hlast : ∀ part, textOf T [part] = rendering T part := fun _ => List.append_nil _
  have happend : ∀ parts parts', textOf T (parts ++ parts') = textOf T parts ++ textOf T parts' :=
    fun _ _ => List.flatMap_append
  rw [happend, hlast]
  congr 1
  unfold prefixItems messagePrefix
  rw [happend]
  congr 1
  · cases hexe : appendPid && P.logExeName && P.exeName.isSome with
    | false => rfl
    | true =>
      obtain ⟨name, hsome⟩ := Option.isSome_iff_exists.mp (Bool.and_eq_true_iff.mp hexe).2
      rw [if_pos rfl, if_pos rfl, hlast, hsome, hname]
      rfl
  · cases appendPid with
    | false => rfl
    | true => rw [if_pos rfl, if_pos rfl, hlast, hpid]

theorem length_rendering_d_le (v : BitVec 32) :
    (NumberConv.d.rendering [] v.toInt).length ≤ 11 := by
  have hlen : (Nat.toDigits 10 v.toInt.natAbs).length ≤ 10 := by
    rw [Nat.length_toDigits_le_iff (by decide) (by decide)]
    have hle := BitVec.le_two_mul_toInt (x := v)
    have hlt := BitVec.two_mul_toInt_lt (x := v)
    omega
  rw [rendering_d_nil, List.length_append]
  split_ifs
  · simp only [List.length_singleton]
    omega
  · simp only [List.length_nil]
    omega

/-- The text before the message has no NUL, and is short. -/
theorem messagePrefix_ok (P : Process) (appendPid : Bool) :
    nul ∉ messagePrefix P appendPid ∧ (messagePrefix P appendPid).length < 2^13 := by
  have hpid := nul_not_mem_rendering_d P.pid.toInt
  have hlen := length_rendering_d_le P.pid
  have hexe : ∀ (b : Bool), (b = true → P.exeName.isSome = true) →
      nul ∉ (if b = true then '=' :: '=' :: P.exeName.getD [] else []) ∧
        (if b = true then '=' :: '=' :: P.exeName.getD [] else []).length ≤ 4097 := by
    intro b hb
    cases b with
    | false => exact ⟨List.not_mem_nil, Nat.zero_le _⟩
    | true =>
      obtain ⟨name, hsome⟩ := Option.isSome_iff_exists.mp (hb rfl)
      obtain ⟨hname, hshort⟩ := P.exeName_ok name hsome
      rw [hsome, if_pos rfl, Option.getD_some]
      refine ⟨?_, ?_⟩
      · simp only [List.mem_cons, not_or]
        exact ⟨by decide, by decide, hname⟩
      · rw [List.length_cons, List.length_cons]
        omega
  obtain ⟨hnul, hshort⟩ := hexe (appendPid && P.logExeName && P.exeName.isSome)
    fun h => (Bool.and_eq_true_iff.mp h).2
  unfold messagePrefix
  rw [List.mem_append, not_or, List.length_append]
  cases appendPid with
  | false =>
    refine ⟨⟨hnul, List.not_mem_nil⟩, ?_⟩
    simp only [Bool.false_eq_true, if_false, List.length_nil]
    omega
  | true =>
    rw [if_pos rfl]
    refine ⟨⟨hnul, ?_⟩, ?_⟩
    · simp only [List.mem_cons, List.mem_append, not_or]
      exact ⟨by decide, by decide, hpid, by decide⟩
    · simp only [List.length_cons, List.length_append, List.length_nil]
      omega

/-- A message fits into the local buffer, or the mapping for it has a size that is an `int`. -/
def FitsMessage (E : MmapEnv) (bufferSize : ℕ) (text : List Char) : Prop :=
  text.length < bufferSize ∨ E.roundUp (text.length + 1) < 2^31

theorem takeWhile_eq_iff (text rest : List Char) :
    (text ++ nul :: rest).takeWhile (· ≠ nul) = text ↔ nul ∉ text := by
  constructor
  · intro heq hmem
    rw [← heq] at hmem
    exact absurd (List.mem_takeWhile_imp hmem) (by decide)
  · intro hnul
    have hall : ∀ c ∈ text, decide (c ≠ nul) = true :=
      fun c hc => decide_eq_true fun h => hnul (h ▸ hc)
    rw [List.takeWhile_append_of_pos hall, List.takeWhile_cons_of_neg (by decide), List.append_nil]

/-- `SharedPrintfCodeNoBuffer` writes the whole message exactly if its size is an `int` and it has
no NUL. -/
theorem sharedPrintfCodeNoBuffer_iff (T : Target) (E : MmapEnv) (P : Process) (appendPid : Bool)
    {items : List Item} (hok : ∀ item ∈ items, item.Ok) (hlen : (rendering T items).length < 2^31)
    {localBuffer : List Char} (hpos : 0 < localBuffer.length) (hint : localBuffer.length < 2^31)
    (hmaps : ∀ k ≤ E.roundUp ((messagePrefix P appendPid ++ rendering T items).length + 1),
      E.maps k = true) :
    sharedPrintfCodeNoBuffer T E P appendPid localBuffer localBuffer.length (formatOf items)
        (argsOf items) = .returned (messagePrefix P appendPid ++ rendering T items) ↔
      nul ∉ rendering T items ∧
        FitsMessage E localBuffer.length (messagePrefix P appendPid ++ rendering T items) := by
  obtain ⟨hfront, hshort⟩ := messagePrefix_ok P appendPid
  have hnul : nul ∉ rendering T items ↔ nul ∉ messagePrefix P appendPid ++ rendering T items := by
    rw [List.mem_append, not_or]
    exact ⟨fun h => ⟨hfront, h⟩, fun h => h.2⟩
  have hparts : prefixItems P appendPid ++ [items] ≠ [] :=
    List.append_ne_nil_of_right_ne_nil _ (List.cons_ne_nil _ _)
  have hokall : ∀ part ∈ prefixItems P appendPid ++ [items], ∀ item ∈ part, item.Ok := by
    intro part hpart
    rcases List.mem_append.mp hpart with hpart | hpart
    · exact prefixItems_ok P appendPid part hpart
    · rwa [List.mem_singleton.mp hpart]
  have htext := textOf_prefixItems T P appendPid items
  have hsmall : (messagePrefix P appendPid ++ rendering T items).length < 2^32 := by
    rw [List.length_append]
    omega
  have hle : (messagePrefix P appendPid ++ rendering T items).length + 1 ≤
      E.roundUp ((messagePrefix P appendPid ++ rendering T items).length + 1) :=
    E.le_roundUp (by omega)
  rw [hnul]
  unfold sharedPrintfCodeNoBuffer FitsMessage
  dsimp only
  rw [messageParts_eq]
  rw [← htext] at hmaps hsmall hle ⊢
  generalize prefixItems P appendPid ++ [items] = parts at *
  have hstart := attempt_start hokall T hparts hpos le_rfl
  generalize attempt T (localBuffer.length : ℕ) (formats parts) 0 localBuffer = result
    at hstart ⊢
  cases hstart with
  | fits rest hlt =>
    rw [Outcome.returned_bind]
    dsimp only
    rw [if_pos rfl, Outcome.returned_bind, Outcome.pure_eq, Outcome.returned.injEq,
      List.nil_append, takeWhile_eq_iff]
    exact ⟨fun h => ⟨h, Or.inl hlt⟩, fun h => h.1⟩
  | overflow hlarge =>
    rw [List.nil_append] at hlarge
    refine ⟨fun h => ?_, fun h => ?_⟩
    · cases h
    · rcases h.2 with h | h <;> omega
  | long k buffer' hk hlong hbuffer =>
    have hm := length_textOf_take_le T parts k
    rw [List.nil_append] at hlong ⊢
    rw [Outcome.returned_bind]
    dsimp only
    rw [if_neg Bool.false_ne_true]
    constructor
    · intro h
      obtain ⟨buffer, hloop, hwritten⟩ := Outcome.bind_eq_returned.mp h
      obtain ⟨hround, rest, rfl⟩ := mmapLoop_returned (v := ⟨[], 0⟩) hokall hparts (by omega) hm
        le_rfl (Nat.zero_le _) hloop
      rw [Outcome.pure_eq, Outcome.returned.injEq, takeWhile_eq_iff] at hwritten
      exact ⟨hwritten, Or.inr hround⟩
    · rintro ⟨hfree, hfits | hround⟩
      · omega
      · have hfuel : parts.length < (formats parts).length + 1 + k := by
          rw [formats, List.length_map]
          omega
        obtain ⟨rest, hloop⟩ := mmapLoop_fits (v := ⟨[], 0⟩) hokall hparts hround hmaps
          (by omega) hk hfuel le_rfl (Nat.zero_le _)
        rw [hloop, Outcome.returned_bind, Outcome.pure_eq, (takeWhile_eq_iff _ rest).mpr hfree]

/-- For every supported format with its arguments, `VSNPrintf` leaves as much of the rendering as
fits, and returns its length. The two callers that retry with a larger buffer, `AppendF` and
`SharedPrintfCodeNoBuffer`, come to the whole rendering, with the text before it as it was, exactly
if it has no NUL, and the sizes of their last buffers stay as they are when they are narrowed to an
`int`. -/
theorem print_iff (T : Target) (E : MmapEnv) (P : Process) (appendPid : Bool) {items : List Item}
    (hok : ∀ item ∈ items, item.Ok) (hlen : (rendering T items).length < 2^31) {n : ℕ} (hn : 1 ≤ n)
    {mem : List Char} (hmem : n ≤ mem.length) {v : InternalMmapVector} (hv : IsString E v)
    {localBuffer : List Char} (hpos : 0 < localBuffer.length) (hint : localBuffer.length < 2^31)
    (hstring : ∀ k ≤ (v.size + (rendering T items).length) * 2, E.maps k = true)
    (hmessage : ∀ k ≤ E.roundUp ((messagePrefix P appendPid ++ rendering T items).length + 1),
      E.maps k = true) :
    vsnprintf T n mem (formatOf items) (argsOf items) =
      .returned (printed n mem (rendering T items), (rendering T items).length) ∧
    ((∃ w, appendF T E v (formatOf items) (argsOf items) = .returned w ∧
        Appended v w (rendering T items)) ∧
      sharedPrintfCodeNoBuffer T E P appendPid localBuffer localBuffer.length (formatOf items)
        (argsOf items) = .returned (messagePrefix P appendPid ++ rendering T items) ↔
      nul ∉ rendering T items ∧ FitsString v (rendering T items) ∧
        FitsMessage E localBuffer.length (messagePrefix P appendPid ++ rendering T items)) := by
  have hshared :=
    sharedPrintfCodeNoBuffer_iff T E P appendPid hok hlen hpos hint hmessage
  refine ⟨vsnprintf_eq T hok hn hmem, ?_⟩
  rw [hshared]
  constructor
  · rintro ⟨⟨w, hrun, hright⟩, hnul, hfits⟩
    refine ⟨hnul, ?_, hfits⟩
    by_contra hnarrow
    exact appendF_narrow hok hv hlen hstring hnul hnarrow hrun hright
  · rintro ⟨hnul, hstringFits, hfits⟩
    exact ⟨appendF_fits hok hv hlen hstring hstringFits, hnul, hfits⟩

theorem twelve_lt : 12 < 64 := by norm_num

theorem twelve_lt_thirty : 12 < 30 := by norm_num

/-- A target with pointers of 12 digits. -/
def wideTarget : Target := ⟨12, twelve_lt_thirty⟩

/-- A system that has memory. -/
def smallPages : MmapEnv := ⟨12, twelve_lt, fun _ => true⟩

/-- A string that has just been constructed. -/
def newString : InternalMmapVector := ⟨List.replicate 4096 nul, 1⟩

theorem capacity_newString : newString.capacity = 4096 := List.length_replicate

theorem isString_newString : IsString smallPages newString := by
  refine ⟨le_rfl, ?_, ?_, ?_⟩
  · rw [capacity_newString]
    decide
  · rw [capacity_newString]
    exact dvd_refl (2^12)
  · rw [capacity_newString]
    norm_num

/-- A process that logs no name. -/
def unnamedProcess : Process := ⟨false, none, fun _ h => absurd h (Option.not_mem_none _), 7⟩

/-- A character, with a buffer of one character, a new string and a local buffer as in
`SharedPrintfCode`. -/
theorem print_iff_a :
    vsnprintf wideTarget 1 ['b'] ['a'] [] = .returned ([nul], 1) ∧
      (∃ w, appendF wideTarget smallPages newString ['a'] [] = .returned w ∧
        Appended newString w ['a']) ∧
      sharedPrintfCodeNoBuffer wideTarget smallPages unnamedProcess true (List.replicate 400 nul)
        (List.replicate 400 nul).length ['a'] [] =
          .returned ['=', '=', '7', '=', '=', 'a'] := by
  have hok : ∀ item ∈ [Item.char 'a'], item.Ok :=
    List.forall_mem_singleton.mpr ⟨by decide, by decide⟩
  have hlocal : (List.replicate 400 nul).length = 400 := List.length_replicate
  obtain ⟨hprint, hiff⟩ := @print_iff wideTarget smallPages unnamedProcess true [.char 'a'] hok
    (by decide) 1 le_rfl ['b'] le_rfl newString isString_newString (List.replicate 400 nul)
    (by rw [hlocal]; decide) (by rw [hlocal]; decide) (fun _ _ => rfl) (fun _ _ => rfl)
  obtain ⟨hstring, hmessage⟩ := hiff.mpr ⟨by decide, by
    unfold FitsString
    rw [capacity_newString]
    decide, Or.inl (by rw [hlocal]; decide)⟩
  exact ⟨hprint, hstring, hmessage⟩

/-- A string of `2^30` characters is not appended to a new string: the capacity that is large enough
is `2^31`, and the room in it is negative as an `int`. -/
theorem appendF_long :
    ¬ ∃ w, appendF wideTarget smallPages newString ['%', 's']
        [.str (some (List.replicate (2^30) 'a'))] = .returned w ∧
      Appended newString w (List.replicate (2^30) 'a') := by
  have hlen : (List.replicate (2^30) 'a').length = 2^30 := List.length_replicate
  have hnul : nul ∉ List.replicate (2^30) 'a' :=
    fun h => absurd (List.eq_of_mem_replicate h) (by decide)
  generalize List.replicate (2^30) 'a' = str at *
  have hrendering : rendering wideTarget [.string none none (some str)] = str :=
    calc rendering wideTarget [.string none none (some str)]
        = stringText 0 (-1) str ++ [] := rfl
      _ = str := by rw [stringText_plain, List.append_nil]
  have hnarrow : ¬ FitsString newString str := by
    unfold FitsString
    rw [capacity_newString, hlen]
    decide +kernel
  rintro ⟨w, hrun, hright⟩
  have hok : ∀ item ∈ [Item.string none none (some str)], item.Ok :=
    List.forall_mem_singleton.mpr (List.forall_mem_nil _)
  rw [← hrendering] at hlen hnul hnarrow hright
  exact appendF_narrow hok isString_newString (by omega) (fun _ _ => rfl) hnul hnarrow hrun hright

end Tasan.Print
