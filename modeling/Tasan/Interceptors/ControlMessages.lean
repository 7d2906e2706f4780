import Tasan.Memory
import Tasan.Search
import Tasan.Word

/-!
# The control messages of `sendmsg`

`read_msghdr_control` of `sanitizer_common_interceptors.inc` goes from header to header by their rounded
lengths and checks what the call has read. The walk trusts the lengths: a length of zero leaves it where
it is, and one that is close to `2^64` takes it back. On well-formed messages it leaves out a last one
whose padding does not fit, and what of a message is behind `2^32` bytes of data.

`readMsghdrControl_iff` is the exact condition. `Walk` is the meaning of the loop without fuel.
-/

namespace Tasan.Interceptors

/-! ## The model -/

/-- `sizeof(__sanitizer_cmsghdr)`. -/
def sizeofCmsghdr : ℕ := 16

/-- `sizeof(uptr)`. -/
def sizeofUptr : ℕ := 8

/-- `kCmsgDataOffset`. -/
def kCmsgDataOffset : ℕ := Word.roundUpTo 64 sizeofCmsghdr sizeofUptr

/-- An access of the interceptor. -/
inductive Access
  /-- A load. -/
  | load (a n : ℕ)
  /-- `COMMON_INTERCEPTOR_READ_RANGE`. -/
  | readRange (a n : ℕ)
  deriving DecidableEq

/-- The start of an access. -/
def Access.start : Access → ℕ
  | load a _ => a
  | readRange a _ => a

/-- The number of bytes. -/
def Access.size : Access → ℕ
  | load _ n => n
  | readRange _ n => n

variable (m : Mem) (controlEnd : ℕ)

/-- `cmsg->cmsg_len`. -/
def cmsgLen (p : ℕ) : ℕ := m.readLE p 8

/-- `p + RoundUpTo(cmsg->cmsg_len, sizeof(uptr))`. -/
def nextCmsg (p : ℕ) : ℕ := Word.add 64 p (Word.roundUpTo 64 (cmsgLen m p) sizeofUptr)

/-- The accesses up to the second test of a round. -/
def readLength (p : ℕ) : List Access := [.readRange p 8, .load p 8]

/-- The accesses of a round after it. -/
def readRest (p : ℕ) : List Access :=
  let header := [.readRange (Word.add 64 p 8) 4, .readRange (Word.add 64 p 12) 4]
  if kCmsgDataOffset < cmsgLen m p then
    let data := Word.add 64 p kCmsgDataOffset
    let dataLen := (cmsgLen m p - kCmsgDataOffset) % 2^32
    if 0 < dataLen then header ++ [.readRange data dataLen] else header
  else header

/-- The loop of `read_msghdr_control`. -/
def readMsghdrControlLoop : ℕ → ℕ → Option (List Access)
  | 0, _ => none
  | fuel + 1, p =>
    if controlEnd < Word.add 64 p sizeofCmsghdr then some []
    else if controlEnd < nextCmsg m p then some (readLength p)
    else do
      let rest ← readMsghdrControlLoop fuel (nextCmsg m p)
      some (readLength p ++ readRest m p ++ rest)

/-- `read_msghdr_control`. -/
def readMsghdrControl (control controllen fuel : ℕ) : Option (List Access) :=
  readMsghdrControlLoop m (Word.add 64 control controllen) fuel control

/-! ## The walk -/

/-- There is room for a header. -/
def HeaderFits (p : ℕ) : Prop := Word.add 64 p sizeofCmsghdr ≤ controlEnd

/-- The walk goes on from one header to the next. -/
def Step (p q : ℕ) : Prop := HeaderFits controlEnd p ∧ q = nextCmsg m p ∧ q ≤ controlEnd

/-- The walk from a header ends, with those accesses. -/
inductive Walk : ℕ → List Access → Prop
  /-- There is no room for a header. -/
  | short {p} (hroom : ¬ HeaderFits controlEnd p) : Walk p []
  /-- The message goes over the end. -/
  | cut {p} (hroom : HeaderFits controlEnd p) (hcut : controlEnd < nextCmsg m p) : Walk p (readLength p)
  /-- The walk goes on. -/
  | next {p rest} (hroom : HeaderFits controlEnd p) (hnext : nextCmsg m p ≤ controlEnd)
    (hrest : Walk (nextCmsg m p) rest) : Walk p (readLength p ++ readRest m p ++ rest)

variable {m controlEnd}

/-- The loop ends just when the walk does. -/
theorem readMsghdrControlLoop_iff {p : ℕ} {as : List Access} :
    (∃ k, ∀ fuel ≥ k, readMsghdrControlLoop m controlEnd fuel p = some as) ↔ Walk m controlEnd p as := by
  constructor
  · rintro ⟨k, hk⟩
    have hrun := hk k le_rfl
    clear hk
    induction k generalizing p as with
    | zero => cases hrun
    | succ k ih =>
      rw [readMsghdrControlLoop] at hrun
      split_ifs at hrun with hroom hcut
      · cases hrun
        exact .short (Nat.not_le.mpr hroom)
      · cases hrun
        exact .cut (Nat.not_lt.mp hroom) hcut
      · obtain ⟨rest, hrest, has⟩ := Option.bind_eq_some_iff.mp hrun
        cases has
        exact .next (Nat.not_lt.mp hroom) (Nat.not_lt.mp hcut) (ih hrest)
  · intro h
    induction h with
    | short hroom =>
      refine ⟨1, fun fuel hfuel => ?_⟩
      obtain ⟨f, rfl⟩ := Nat.exists_eq_add_of_le' hfuel
      rw [readMsghdrControlLoop, if_pos (Nat.not_le.mp hroom)]
    | cut hroom hcut =>
      refine ⟨1, fun fuel hfuel => ?_⟩
      obtain ⟨f, rfl⟩ := Nat.exists_eq_add_of_le' hfuel
      rw [readMsghdrControlLoop, if_neg (Nat.not_lt.mpr hroom), if_pos hcut]
    | next hroom hnext _ ih =>
      obtain ⟨k, hk⟩ := ih
      refine ⟨k + 1, fun fuel hfuel => ?_⟩
      obtain ⟨f, rfl⟩ : ∃ f, fuel = f + 1 := ⟨fuel - 1, by omega⟩
      rw [readMsghdrControlLoop, if_neg (Nat.not_lt.mpr hroom), if_neg (Nat.not_lt.mpr hnext),
        hk f (by omega)]
      rfl

theorem nextCmsg_lt (p : ℕ) : nextCmsg m p < 2^64 := Nat.mod_lt _ (by norm_num)

/-- The walk from a header ends just when it comes to no header again. -/
theorem exists_walk_iff {p : ℕ} (hp : p < 2^64) : (∃ as, Walk m controlEnd p as) ↔
    ∀ q, Relation.ReflTransGen (Step m controlEnd) p q → ¬ Relation.TransGen (Step m controlEnd) q q := by
  have hfin : {q | Relation.ReflTransGen (Step m controlEnd) p q}.Finite := by
    refine (Set.finite_Iio (2^64)).subset fun q hq => ?_
    rcases hq.cases_tail with rfl | ⟨_, _, -, rfl, -⟩
    · exact hp
    · exact nextCmsg_lt _
  rw [← Search.acc_iff_acyclic hfin]
  constructor
  · rintro ⟨as, h⟩
    induction h with
    | short hroom => exact ⟨_, fun q hq => absurd hq.1 hroom⟩
    | cut _ hcut => exact ⟨_, fun q hq => absurd (hq.2.1 ▸ hq.2.2) (Nat.not_le.mpr hcut)⟩
    | next hroom hnext _ ih =>
      refine ⟨_, fun q hq => ?_⟩
      obtain ⟨-, rfl, -⟩ := hq
      refine ih (nextCmsg_lt _) ?_
      exact hfin.subset fun q hq => Relation.ReflTransGen.head ⟨hroom, rfl, hnext⟩ hq
  · intro hacc
    clear hfin hp
    induction hacc with
    | intro p _ ih =>
      by_cases hroom : HeaderFits controlEnd p
      · by_cases hnext : nextCmsg m p ≤ controlEnd
        · obtain ⟨rest, hrest⟩ := ih (nextCmsg m p) ⟨hroom, rfl, hnext⟩
          exact ⟨_, .next hroom hnext hrest⟩
        · exact ⟨_, .cut hroom (Nat.not_le.mp hnext)⟩
      · exact ⟨_, .short hroom⟩

/-! ## The addresses -/

variable (m) in
/-- The length of a message with its padding. -/
def paddedLen (p : ℕ) : ℕ := (cmsgLen m p + 7) / 8 * 8

theorem cmsgLen_lt (p : ℕ) : cmsgLen m p < 2^64 := by
  have h := Mem.readLE_lt m p 8
  norm_num at h ⊢
  exact h

theorem paddedLen_bounds (p : ℕ) : cmsgLen m p ≤ paddedLen m p ∧ paddedLen m p ≤ 2^64 := by
  have h := cmsgLen_lt (m := m) p
  unfold paddedLen
  omega

theorem nextCmsg_eq (p : ℕ) : nextCmsg m p = (p + paddedLen m p) % 2^64 := by
  have h := cmsgLen_lt (m := m) p
  rw [nextCmsg, sizeofUptr, show (8 : ℕ) = 2^3 from rfl, Word.roundUpTo_two_pow (by decide), Word.add,
    paddedLen]
  omega

theorem kCmsgDataOffset_eq : kCmsgDataOffset = 16 := by decide

/-- No object reaches the last bytes of the address space, so that a header may be asked for at its end. -/
def HasSpace (controlEnd : ℕ) : Prop := controlEnd + sizeofCmsghdr < 2^64

theorem headerFits_iff (hspace : HasSpace controlEnd) {p : ℕ} (hp : p ≤ controlEnd) :
    HeaderFits controlEnd p ↔ p + 16 ≤ controlEnd := by
  unfold HasSpace sizeofCmsghdr at hspace
  rw [HeaderFits, sizeofCmsghdr, Word.add_of_lt (by omega)]

theorem mem_readRest (hspace : HasSpace controlEnd) {p : ℕ} (hp : p ≤ controlEnd) (a : Access) :
    a ∈ readRest m p ↔ a = .readRange (p + 8) 4 ∨ a = .readRange (p + 12) 4 ∨
      16 < cmsgLen m p ∧ 0 < (cmsgLen m p - 16) % 2^32 ∧
        a = .readRange (p + 16) ((cmsgLen m p - 16) % 2^32) := by
  unfold HasSpace sizeofCmsghdr at hspace
  unfold readRest
  rw [kCmsgDataOffset_eq, Word.add_of_lt (by omega), Word.add_of_lt (by omega), Word.add_of_lt (by omega)]
  dsimp only
  generalize (cmsgLen m p - 16) % 2^32 = dataLen
  split_ifs with hdata hlen
  · simp [hdata, hlen]
  · simp [hlen]
  · simp [hdata]

/-! ## What is asked for -/

/-- An access is inside the buffer. -/
def Access.Inside (control controlEnd : ℕ) (a : Access) : Prop :=
  control ≤ a.start ∧ a.start + a.size ≤ controlEnd

@[simp]
theorem inside_load {control a n : ℕ} :
    (Access.load a n).Inside control controlEnd ↔ control ≤ a ∧ a + n ≤ controlEnd := Iff.rfl

@[simp]
theorem inside_readRange {control a n : ℕ} :
    (Access.readRange a n).Inside control controlEnd ↔ control ≤ a ∧ a + n ≤ controlEnd := Iff.rfl

/-- A byte is checked by one of the accesses. -/
def Checked (as : List Access) (x : ℕ) : Prop := ∃ a n, Access.readRange a n ∈ as ∧ a ≤ x ∧ x < a + n

variable (m controlEnd) in
/-- The messages from an address on are well formed: each is at least a header long and ends in the buffer,
without its padding. -/
inductive WellFormed : ℕ → List ℕ → Prop
  /-- There is no room for another message. -/
  | nil {p} (hroom : controlEnd < p + 16) : WellFormed p []
  /-- A message. -/
  | cons {p ps} (hheader : 16 ≤ cmsgLen m p) (hend : p + cmsgLen m p ≤ controlEnd)
    (hrest : WellFormed (p + paddedLen m p) ps) : WellFormed p (p :: ps)

/-- The walk ends, stays inside the buffer and checks each byte of well-formed messages. -/
def ChecksControl (m : Mem) (control controllen : ℕ) : Prop :=
  ∃ as, (∃ k, ∀ fuel ≥ k, readMsghdrControl m control controllen fuel = some as) ∧
    (∀ a ∈ as, a.Inside control (control + controllen)) ∧
    ∀ ps, WellFormed m (control + controllen) control ps → ∀ p ∈ ps, ∀ x, p ≤ x → x < p + cmsgLen m p →
      Checked as x

/-- A header that the walk comes to. -/
def Reached (m : Mem) (control controlEnd p : ℕ) : Prop :=
  Relation.ReflTransGen (Step m controlEnd) control p

/-- The lengths with which the walk does its work. -/
structure SoundLengths (m : Mem) (control controlEnd : ℕ) : Prop where
  /-- The walk comes to no header again. -/
  acyclic : ∀ p, Reached m control controlEnd p → ¬ Relation.TransGen (Step m controlEnd) p p
  /-- A length that takes it back over the end of the address space takes it back into the buffer, and
  what is left of the length of the data in 32 bits is in the buffer too. -/
  back : ∀ p, Reached m control controlEnd p → Step m controlEnd p (nextCmsg m p) →
    2^64 ≤ p + paddedLen m p → control + 2^64 ≤ p + paddedLen m p ∧
      p + 16 + (cmsgLen m p - 16) % 2^32 ≤ controlEnd
  /-- The padding of well-formed messages is in the buffer, and the length of their data in 32 bits. -/
  complete : ∀ ps, WellFormed m controlEnd control ps → ∀ p ∈ ps,
    p + paddedLen m p ≤ controlEnd ∧ cmsgLen m p - 16 < 2^32

/-! ## The walk in the buffer -/

section

variable {control p q : ℕ} {as : List Access}

theorem Walk.subset (h : Walk m controlEnd p as) (hq : Relation.ReflTransGen (Step m controlEnd) p q)
    (hroom : HeaderFits controlEnd q) :
    readLength q ⊆ as ∧ (nextCmsg m q ≤ controlEnd → readRest m q ⊆ as) := by
  induction h with
  | short hshort =>
    rcases hq.cases_head with rfl | ⟨_, hstep, -⟩
    · exact absurd hroom hshort
    · exact absurd hstep.1 hshort
  | cut _ hcut =>
    rcases hq.cases_head with rfl | ⟨_, hstep, -⟩
    · exact ⟨List.Subset.refl _, fun h => absurd h (Nat.not_le.mpr hcut)⟩
    · exact absurd (hstep.2.1 ▸ hstep.2.2) (Nat.not_le.mpr hcut)
  | next _ hnext _ ih =>
    rcases hq.cases_head with rfl | ⟨q', hstep, hq'⟩
    · exact ⟨fun a ha => List.mem_append_left _ (List.mem_append_left _ ha),
        fun _ a ha => List.mem_append_left _ (List.mem_append_right _ ha)⟩
    · obtain ⟨-, rfl, -⟩ := hstep
      obtain ⟨hlength, hrest⟩ := ih hq'
      exact ⟨List.Subset.trans hlength (List.subset_append_right _ _),
        fun h => List.Subset.trans (hrest h) (List.subset_append_right _ _)⟩

theorem Reached.le (h : Reached m control controlEnd p) (hcontrol : control ≤ controlEnd) :
    p ≤ controlEnd := by
  rcases h.cases_tail with rfl | ⟨_, _, -, -, hle⟩
  · exact hcontrol
  · exact hle

/-- When all accesses are inside the buffer, a length that goes back goes back into the buffer. -/
theorem back_of_inside (hspace : HasSpace controlEnd) (hcontrol : control ≤ controlEnd)
    (hwalk : Walk m controlEnd control as) (hinside : ∀ a ∈ as, a.Inside control controlEnd)
    (hp : Reached m control controlEnd p) (hstep : Step m controlEnd p (nextCmsg m p))
    (hback : 2^64 ≤ p + paddedLen m p) :
    control + 2^64 ≤ p + paddedLen m p ∧ p + 16 + (cmsgLen m p - 16) % 2^32 ≤ controlEnd := by
  have hle := hp.le hcontrol
  have hfits := (headerFits_iff hspace hle).mp hstep.1
  have hpad := paddedLen_bounds (m := m) p
  have hspace' := hspace
  unfold HasSpace sizeofCmsghdr at hspace'
  have hnext := nextCmsg_eq (m := m) p
  constructor
  · -- The next header is before this one, so there is room for it, and its length is loaded.
    have hq : Reached m control controlEnd (nextCmsg m p) := hp.tail hstep
    have hroom : HeaderFits controlEnd (nextCmsg m p) :=
      (headerFits_iff hspace (hq.le hcontrol)).mpr (by omega)
    have hmem : Access.load (nextCmsg m p) 8 ∈ as :=
      (hwalk.subset hq hroom).1 (List.mem_cons_of_mem _ (List.mem_singleton_self _))
    have hload := (inside_load.mp (hinside _ hmem)).1
    omega
  · rcases Nat.eq_zero_or_pos ((cmsgLen m p - 16) % 2^32) with hzero | hpos
    · omega
    · have hlong : 16 < cmsgLen m p := by
        by_contra hshort
        rw [Nat.sub_eq_zero_of_le (Nat.not_lt.mp hshort), Nat.zero_mod] at hpos
        exact hpos.false
      have hdata := (hwalk.subset hp hstep.1).2 hstep.2.2 ((mem_readRest hspace hle _).mpr
        (.inr (.inr ⟨hlong, hpos, rfl⟩)))
      exact (inside_readRange.mp (hinside _ hdata)).2

theorem SoundLengths.control_le (h : SoundLengths m control controlEnd) (hspace : HasSpace controlEnd)
    (hcontrol : control ≤ controlEnd) (hp : Reached m control controlEnd p) : control ≤ p := by
  unfold HasSpace at hspace
  induction hp with
  | refl => exact le_rfl
  | @tail p q hp hstep ih =>
    obtain rfl := hstep.2.1
    have hle : p ≤ controlEnd := Reached.le hp hcontrol
    have hnext := nextCmsg_eq (m := m) p
    have hpad := paddedLen_bounds (m := m) p
    have hlt := nextCmsg_lt (m := m) p
    rcases Nat.lt_or_ge (p + paddedLen m p) (2^64) with hforth | hback
    · rw [hnext, Nat.mod_eq_of_lt hforth]
      omega
    · have := (h.back p hp hstep hback).1
      omega

/-- With sound lengths all accesses are inside the buffer. -/
theorem SoundLengths.inside (h : SoundLengths m control controlEnd) (hspace : HasSpace controlEnd)
    (hcontrol : control ≤ controlEnd) (hp : Reached m control controlEnd p)
    (hwalk : Walk m controlEnd p as) : ∀ a ∈ as, a.Inside control controlEnd := by
  have hspace' := hspace
  unfold HasSpace sizeofCmsghdr at hspace'
  -- The length of a header that fits is inside.
  have hlength : ∀ {p}, Reached m control controlEnd p → HeaderFits controlEnd p →
      ∀ a ∈ readLength p, a.Inside control controlEnd := by
    intro p hp hroom a ha
    have hge := h.control_le hspace hcontrol hp
    have hfits := (headerFits_iff hspace (hp.le hcontrol)).mp hroom
    simp only [readLength, List.mem_cons, List.not_mem_nil, or_false] at ha
    rcases ha with rfl | rfl
    · exact inside_readRange.mpr ⟨hge, by omega⟩
    · exact inside_load.mpr ⟨hge, by omega⟩
  induction hwalk with
  | short => exact fun a ha => absurd ha List.not_mem_nil
  | cut hroom _ => exact hlength hp hroom
  | @next p rest hroom hnext _ ih =>
    have hstep : Step m controlEnd p (nextCmsg m p) := ⟨hroom, rfl, hnext⟩
    have hge := h.control_le hspace hcontrol hp
    have hle := hp.le hcontrol
    have hfits := (headerFits_iff hspace hle).mp hroom
    intro a ha
    rcases List.mem_append.mp ha with ha | ha
    · rcases List.mem_append.mp ha with ha | ha
      · exact hlength hp hroom a ha
      · rcases (mem_readRest hspace hle a).mp ha with rfl | rfl | ⟨hlong, -, rfl⟩
        · exact inside_readRange.mpr ⟨by omega, by omega⟩
        · exact inside_readRange.mpr ⟨by omega, by omega⟩
        · refine inside_readRange.mpr ⟨by omega, ?_⟩
          rcases Nat.lt_or_ge (p + paddedLen m p) (2^64) with hforth | hback
          · have heq := nextCmsg_eq (m := m) p
            have hpad := paddedLen_bounds (m := m) p
            have hmod := Nat.mod_le (cmsgLen m p - 16) (2^32)
            rw [Nat.mod_eq_of_lt hforth] at heq
            omega
          · exact (h.back p hp hstep hback).2
    · exact ih (hp.tail hstep) a ha

/-! ## Well-formed messages -/

variable {ps : List ℕ} {rest : List Access} {x : ℕ}

theorem WellFormed.le (h : WellFormed m controlEnd p ps) : ∀ q ∈ ps, p ≤ q := by
  induction h with
  | nil => exact fun q hq => absurd hq List.not_mem_nil
  | @cons p ps _ _ _ ih =>
    intro q hq
    rcases List.mem_cons.mp hq with rfl | hq
    · exact le_rfl
    · exact (Nat.le_add_right _ _).trans (ih q hq)

theorem nextCmsg_of_wellFormed (hspace : HasSpace controlEnd) (hend : p + cmsgLen m p ≤ controlEnd) :
    nextCmsg m p = p + paddedLen m p := by
  unfold HasSpace sizeofCmsghdr at hspace
  have hpad : paddedLen m p ≤ cmsgLen m p + 7 := Nat.div_mul_le_self _ _
  rw [nextCmsg_eq, Nat.mod_eq_of_lt (by omega)]

theorem walk_of_wellFormed (hspace : HasSpace controlEnd) (hp : p ≤ controlEnd)
    (hheader : 16 ≤ cmsgLen m p) (hend : p + cmsgLen m p ≤ controlEnd) (hwalk : Walk m controlEnd p as) :
    controlEnd < p + paddedLen m p ∧ as = readLength p ∨
      p + paddedLen m p ≤ controlEnd ∧ ∃ rest, as = readLength p ++ readRest m p ++ rest ∧
        Walk m controlEnd (p + paddedLen m p) rest := by
  have hnext := nextCmsg_of_wellFormed hspace hend
  cases hwalk with
  | short hroom => exact absurd ((headerFits_iff hspace hp).mpr (by omega)) hroom
  | cut _ hcut => exact .inl ⟨hnext ▸ hcut, rfl⟩
  | next _ hle hrest => exact .inr ⟨hnext ▸ hle, _, rfl, hnext ▸ hrest⟩

theorem checked_append {bs : List Access} : Checked (as ++ bs) x ↔ Checked as x ∨ Checked bs x := by
  simp only [Checked, List.mem_append, or_and_right, exists_or]

theorem checked_readLength : Checked (readLength p) x ↔ p ≤ x ∧ x < p + 8 := by
  simp [Checked, readLength]

theorem checked_readRest (hspace : HasSpace controlEnd) (hp : p ≤ controlEnd) :
    Checked (readRest m p) x ↔ p + 8 ≤ x ∧ x < p + 16 ∨
      p + 16 ≤ x ∧ x < p + 16 + (cmsgLen m p - 16) % 2^32 := by
  simp only [Checked, mem_readRest hspace hp, Access.readRange.injEq]
  constructor
  · rintro ⟨a, n, ⟨rfl, rfl⟩ | ⟨rfl, rfl⟩ | ⟨-, -, rfl, rfl⟩, hx⟩
    · exact .inl (by omega)
    · exact .inl (by omega)
    · exact .inr hx
  · rintro (hx | hx)
    · by_cases hlevel : x < p + 12
      · exact ⟨p + 8, 4, .inl ⟨rfl, rfl⟩, by omega⟩
      · exact ⟨p + 12, 4, .inr (.inl ⟨rfl, rfl⟩), by omega⟩
    · have hpos : 0 < (cmsgLen m p - 16) % 2^32 := by omega
      have hlong : 16 < cmsgLen m p := by
        have := Nat.mod_le (cmsgLen m p - 16) (2^32)
        omega
      exact ⟨p + 16, _, .inr (.inr ⟨hlong, hpos, rfl, rfl⟩), hx⟩

theorem WellFormed.le_checked (h : WellFormed m controlEnd p ps) (hspace : HasSpace controlEnd)
    (hp : p ≤ controlEnd) (hwalk : Walk m controlEnd p as) (hx : Checked as x) : p ≤ x := by
  induction h generalizing as with
  | @nil p hroom =>
    cases hwalk with
    | short => exact absurd hx (by simp [Checked])
    | cut hfits => exact absurd ((headerFits_iff hspace hp).mp hfits) (Nat.not_le.mpr hroom)
    | next hfits => exact absurd ((headerFits_iff hspace hp).mp hfits) (Nat.not_le.mpr hroom)
  | @cons p ps hheader hend _ ih =>
    rcases walk_of_wellFormed hspace hp hheader hend hwalk with ⟨-, rfl⟩ | ⟨hle, rest, rfl, hrest⟩
    · exact (checked_readLength.mp hx).1
    · rw [checked_append, checked_append, checked_readLength, checked_readRest hspace hp] at hx
      rcases hx with (hx | hx) | hx
      · omega
      · omega
      · have := ih hle hrest hx
        omega

/-- When each byte of the messages is checked, their padding fits, and so does the length of their data. -/
theorem WellFormed.fits_of_checked (h : WellFormed m controlEnd p ps) (hspace : HasSpace controlEnd)
    (hp : p ≤ controlEnd) (hwalk : Walk m controlEnd p as)
    (hall : ∀ q ∈ ps, ∀ x, q ≤ x → x < q + cmsgLen m q → Checked as x) :
    ∀ q ∈ ps, q + paddedLen m q ≤ controlEnd ∧ cmsgLen m q - 16 < 2^32 := by
  induction h generalizing as with
  | nil => exact fun q hq => absurd hq List.not_mem_nil
  | @cons p ps hheader hend hwf ih =>
    have hpad := paddedLen_bounds (m := m) p
    rcases walk_of_wellFormed hspace hp hheader hend hwalk with ⟨-, rfl⟩ | ⟨hle, rest, rfl, hrest⟩
    · -- The level of the message is not checked.
      have := checked_readLength.mp (hall p List.mem_cons_self (p + 8) (by omega) (by omega))
      omega
    · have hmod := Nat.mod_lt (cmsgLen m p - 16) (show 0 < 2^32 by decide)
      simp only [checked_append, checked_readLength, checked_readRest hspace hp] at hall
      intro q hq
      rcases List.mem_cons.mp hq with rfl | hq
      · refine ⟨hle, ?_⟩
        -- Otherwise the byte behind the data that are left is not checked.
        by_contra hlong
        have hx := hall q List.mem_cons_self (q + 16 + (cmsgLen m q - 16) % 2^32) (by omega) (by omega)
        rcases hx with hx | hx
        · omega
        · have := hwf.le_checked hspace hle hrest hx
          omega
      · refine ih hle hrest (fun q hq x hx hx' => ?_) q hq
        have hq' := hwf.le q hq
        have hmod' := Nat.mod_le (cmsgLen m p - 16) (2^32)
        exact (hall q (List.mem_cons_of_mem p hq) x hx hx').resolve_left (by omega)

theorem WellFormed.checked_of_fits (h : WellFormed m controlEnd p ps) (hspace : HasSpace controlEnd)
    (hp : p ≤ controlEnd) (hwalk : Walk m controlEnd p as)
    (hfits : ∀ q ∈ ps, q + paddedLen m q ≤ controlEnd ∧ cmsgLen m q - 16 < 2^32) :
    ∀ q ∈ ps, ∀ x, q ≤ x → x < q + cmsgLen m q → Checked as x := by
  induction h generalizing as with
  | nil => exact fun q hq => absurd hq List.not_mem_nil
  | @cons p ps hheader hend _ ih =>
    obtain ⟨hpad, hlen⟩ := hfits p List.mem_cons_self
    rcases walk_of_wellFormed hspace hp hheader hend hwalk with ⟨hcut, -⟩ | ⟨hle, rest, rfl, hrest⟩
    · exact absurd hpad (Nat.not_le.mpr hcut)
    · intro q hq x hx hx'
      rw [checked_append, checked_append, checked_readLength, checked_readRest hspace hp]
      rcases List.mem_cons.mp hq with rfl | hq
      · rw [Nat.mod_eq_of_lt hlen]
        omega
      · exact .inr (ih hle hrest (fun q hq => hfits q (List.mem_cons_of_mem p hq)) q hq x hx hx')

end

/-! ## The result -/

/-- The walk ends, stays inside the buffer and checks well-formed messages just when the lengths are
sound. -/
theorem readMsghdrControl_iff (m : Mem) (control controllen : ℕ)
    (hspace : HasSpace (control + controllen)) :
    ChecksControl m control controllen ↔ SoundLengths m control (control + controllen) := by
  have hle : control ≤ control + controllen := Nat.le_add_right _ _
  have hlt : control + controllen < 2^64 := (Nat.le_add_right _ _).trans_lt hspace
  have hrun : ∀ as, (∃ k, ∀ fuel ≥ k, readMsghdrControl m control controllen fuel = some as) ↔
      Walk m (control + controllen) control as := fun as => by
    simp only [readMsghdrControl, Word.add_of_lt hlt]
    exact readMsghdrControlLoop_iff
  constructor
  · rintro ⟨as, hwalk, hinside, hchecked⟩
    rw [hrun] at hwalk
    exact {
      acyclic := (exists_walk_iff (by omega)).mp ⟨as, hwalk⟩
      back := fun p hp hstep hback => back_of_inside hspace hle hwalk hinside hp hstep hback
      complete := fun ps hps => hps.fits_of_checked hspace hle hwalk (hchecked ps hps) }
  · intro h
    have hwalks : ∃ as, Walk m (control + controllen) control as :=
      (exists_walk_iff (by omega)).mpr h.acyclic
    obtain ⟨as, hwalk⟩ := hwalks
    exact ⟨as, (hrun as).mpr hwalk, h.inside hspace hle .refl hwalk,
      fun ps hps => hps.checked_of_fits hspace hle hwalk (h.complete ps hps)⟩

/-- A buffer with one message of a header alone. -/
def oneMessage : Mem := fun a => if a = 4096 then 16 else 0

/-- The message is checked. -/
theorem readMsghdrControl_iff_oneMessage : ChecksControl oneMessage 4096 16 := by
  have hspace : HasSpace (4096 + 16) := (by decide : 4096 + 16 + sizeofCmsghdr < 2^64)
  have hlen : cmsgLen oneMessage 4096 = 16 := by decide
  have hnext : nextCmsg oneMessage 4096 = 4112 := by decide
  have hfits : HeaderFits (4096 + 16) 4096 := (headerFits_iff hspace (by decide)).mpr le_rfl
  have hend : ¬ HeaderFits (4096 + 16) 4112 := fun h =>
    absurd ((headerFits_iff hspace le_rfl).mp h) (by decide)
  -- The walk goes from the message to the end of the buffer.
  have hreached : ∀ p, Reached oneMessage 4096 (4096 + 16) p → p = 4096 ∨ p = 4112 := fun p hp => by
    induction hp with
    | refl => exact .inl rfl
    | tail _ hstep ih =>
      obtain ⟨hroom, rfl, -⟩ := hstep
      rcases ih with rfl | rfl
      · exact .inr hnext
      · exact absurd hroom hend
  refine (readMsghdrControl_iff oneMessage 4096 16 hspace).mpr ⟨?_, fun p hp hstep hback => ?_, ?_⟩
  · have hrest : Walk oneMessage (4096 + 16) (nextCmsg oneMessage 4096) [] := hnext ▸ .short hend
    exact (exists_walk_iff (by decide)).mp ⟨_, .next hfits (by rw [hnext]) hrest⟩
  · rcases hreached p hp with rfl | rfl
    · rw [paddedLen, hlen] at hback
      omega
    · exact absurd hstep.1 hend
  · intro ps hps p hp
    cases hps with
    | nil => exact absurd hp List.not_mem_nil
    | cons _ _ hrest =>
      rw [paddedLen, hlen] at hrest
      rcases List.mem_cons.mp hp with rfl | hp
      · rw [paddedLen, hlen]
        decide
      · cases hrest with
        | nil => exact absurd hp List.not_mem_nil
        | cons hheader hend => omega

/-- A header of zeros: the walk stays where it is. -/
theorem readMsghdrControl_zero : ¬ ChecksControl (fun _ => 0) 4096 16 := by
  rintro ⟨as, hrun, -, -⟩
  have hwalk : Walk (fun _ => 0) 4112 4096 as := readMsghdrControlLoop_iff.mp hrun
  have hnext : nextCmsg (fun _ => 0) 4096 = 4096 := by decide
  have hstep : Step (fun _ => 0) 4112 4096 4096 := 
    ⟨(by decide : Word.add 64 4096 sizeofCmsghdr ≤ 4112), hnext.symm, by decide⟩
  exact (exists_walk_iff (by decide)).mp ⟨as, hwalk⟩ 4096 .refl (.single hstep)

end Tasan.Interceptors
