import Tasan.MutexCheck.Detector

/-!
# Runs of threads that announce their locks

A thread announces a mutex through `Lock` before it blocks on it, acquires it later, and announces its release
through `Unlock`; it may release its mutexes in any order. When a mutex can be acquired is left open, so that
mutexes of all kinds are included. In every run the detector of a thread holds the types of the mutexes that
the thread has or waits for (`Agrees`). The thread waits for the last one, so that the types of the mutexes of
a cycle come before each other all the way round, which only one type with the mark `MutexMulti` can do.
-/

namespace Tasan.MutexCheck

open Relation

variable {Thread Mutex : Type}

/-- What a thread does. -/
inductive Phase (Mutex : Type)
  /-- Neither of the others. -/
  | running
  /-- It has announced a mutex, and waits for it. -/
  | waiting (m : Mutex)
  /-- It has announced the release of a mutex. -/
  | releasing (m : Mutex)

/-- The mutexes that a thread has announced: those that it has, and the one that it waits for. -/
def Phase.announced (held : List Mutex) : Phase Mutex → List Mutex
  | .waiting m => m :: held
  | .running | .releasing _ => held

/-- All threads. -/
structure World (Thread Mutex : Type) where
  /-- The global variables. -/
  tables : Option Tables
  /-- The detectors. -/
  detector : Thread → Detector
  /-- The mutexes that a thread has acquired, and not begun to release. -/
  held : Thread → List Mutex
  /-- What a thread does. -/
  phase : Thread → Phase Mutex

/-- The start. -/
def World.initial : World Thread Mutex := ⟨none, fun _ => .zero, fun _ => [], fun _ => .running⟩

/-- The mutexes that a thread has announced. -/
def World.announced (w : World Thread Mutex) (t : Thread) : List Mutex :=
  (w.phase t).announced (w.held t)

/-- A thread has a mutex. -/
def World.Has (w : World Thread Mutex) (t : Thread) (m : Mutex) : Prop :=
  m ∈ w.held t ∨ w.phase t = .releasing m

variable [DecidableEq Thread] [DecidableEq Mutex]

/-- One step of a thread. No check fails. -/
inductive Step (mutexMeta : MetaTable) (type : Mutex → ℤ) : World Thread Mutex → World Thread Mutex → Prop
  /-- `Lock` is called. -/
  | lock {w : World Thread Mutex} (t : Thread) (m : Mutex) (pc : ℕ) {tables : Option Tables} {d : Detector}
      (hphase : w.phase t = .running)
      (hlock : MutexCheck.lock mutexMeta w.tables (w.detector t) (type m) pc = .ok (tables, d)) :
      Step mutexMeta type w { w with
        tables := tables
        detector := Function.update w.detector t d
        phase := Function.update w.phase t (.waiting m) }
  /-- The mutex is acquired. -/
  | acquire {w : World Thread Mutex} (t : Thread) (m : Mutex) (hphase : w.phase t = .waiting m) :
      Step mutexMeta type w { w with
        held := Function.update w.held t (m :: w.held t)
        phase := Function.update w.phase t .running }
  /-- `Unlock` is called. -/
  | unlock {w : World Thread Mutex} (t : Thread) (m : Mutex) {tables : Option Tables} {d : Detector}
      (hphase : w.phase t = .running) (hheld : m ∈ w.held t)
      (hunlock : MutexCheck.unlock mutexMeta w.tables (w.detector t) (type m) = .ok (tables, d)) :
      Step mutexMeta type w { w with
        tables := tables
        detector := Function.update w.detector t d
        held := Function.update w.held t ((w.held t).erase m)
        phase := Function.update w.phase t (.releasing m) }
  /-- The mutex is released. -/
  | release {w : World Thread Mutex} (t : Thread) (m : Mutex) (hphase : w.phase t = .releasing m) :
      Step mutexMeta type w { w with phase := Function.update w.phase t .running }

/-- The worlds of the runs. -/
def Reachable (mutexMeta : MetaTable) (type : Mutex → ℤ) (w : World Thread Mutex) : Prop :=
  ReflTransGen (Step mutexMeta type) .initial w

/-! ## Lock and Unlock -/

/-- What is known of the global variables and of a detector. -/
structure Known (mutexMeta : MetaTable) (tables : Option Tables) (d : Detector) : Prop where
  /-- The tables are those of a table that is accepted. -/
  accepted : ∀ T, tables = some T → Accepted mutexMeta T
  /-- A detector that checks has tables. -/
  ready : 0 < d.initialized → tables ≠ none
  /-- A detector that is off has nothing to check. -/
  off : d.initialized < 0 → typeCount mutexMeta = 0
  /-- Nothing is held without tables. -/
  used : ∀ t, (d.locked t).seq ≠ 0 → tables ≠ none
  /-- The detector is valid. -/
  valid : Valid mutexMeta d

variable {mutexMeta : MetaTable} {tables tables' : Option Tables} {d d' : Detector} {type : ℤ}

theorem Valid.setInitialized (hd : Valid mutexMeta d) (initialized : ℤ) :
    Valid mutexMeta { d with initialized := initialized } :=
  ⟨hd.checked, hd.le, hd.inj, hd.recursion, hd.chain, hd.once⟩

theorem accepted_of_tables (hd : Known mutexMeta tables d) {T : Tables}
    (h : getTables mutexMeta tables = .ok T) :
    Accepted mutexMeta T ∧ ∀ T', tables = some T' → some T = some T' := by
  cases tables with
  | none => exact ⟨debugMutexInit_spec h, nofun⟩
  | some T' =>
    obtain rfl := Except.ok.inj h
    exact ⟨hd.accepted _ rfl, fun _ h => h⟩

/-- What `Initialize` leaves. Where it says that there is nothing to check, the type is none of the table. -/
theorem initializeDetector_spec {ready : Bool} (hd : Known mutexMeta tables d)
    (h : initializeDetector mutexMeta tables d type = .ok (tables', d', ready)) :
    Known mutexMeta tables' d' ∧ d'.locked = d.locked ∧ (∀ T, tables = some T → tables' = some T) ∧
      (ready = true → type ≠ mutexInvalid ∧ tables' ≠ none) ∧
      (ready = false → ∀ z : ℕ, IsChecked mutexMeta z → type ≠ z) := by
  rw [initializeDetector] at h
  split_ifs at h with hskip hinit
  · obtain ⟨rfl, rfl, rfl⟩ : tables = tables' ∧ d = d' ∧ false = ready := by
      simpa using Except.ok.inj h
    refine ⟨hd, rfl, fun _ h => h, fun h => Bool.noConfusion h, fun _ z hz htype => ?_⟩
    have := hz.1
    rcases hskip with hskip | hskip <;>
    · rw [htype] at hskip
      simp only [mutexUnchecked, mutexInvalid] at hskip
      omega
  · obtain ⟨rfl, rfl, rfl⟩ : tables = tables' ∧ d = d' ∧ decide (0 < d.initialized) = ready := by
      simpa using Except.ok.inj h
    refine ⟨hd, rfl, fun _ h => h, fun hready => ?_, fun hready z hz => ?_⟩
    · exact ⟨fun h0 => hskip (Or.inr h0), hd.ready (of_decide_eq_true hready)⟩
    · have hoff := hd.off (lt_of_le_of_ne (not_lt.mp (of_decide_eq_false hready)) hinit)
      exact absurd hz.2 (hoff ▸ Nat.not_lt_zero z)
  · obtain ⟨T, hT, h⟩ := bind_eq_ok.mp h
    obtain ⟨haccepted, hmono⟩ := accepted_of_tables hd hT
    have hknown : ∀ T', some T = some T' → Accepted mutexMeta T' := fun T' h =>
      Option.some.inj h ▸ haccepted
    dsimp only at h
    split_ifs at h with hcount
    · obtain ⟨rfl, rfl, rfl⟩ : some T = tables' ∧ { d with initialized := 1 } = d' ∧ true = ready := by
        simpa using Except.ok.inj h
      exact ⟨⟨hknown, fun _ => Option.some_ne_none T, fun h => absurd h (show ¬ (1 : ℤ) < 0 by decide),
        fun _ _ => Option.some_ne_none T, hd.valid.setInitialized 1⟩, rfl, fun T' h => hmono T' h,
        fun _ => ⟨fun h0 => hskip (Or.inr h0), Option.some_ne_none T⟩, fun h => Bool.noConfusion h⟩
    · obtain ⟨rfl, rfl, rfl⟩ : some T = tables' ∧ { d with initialized := -1 } = d' ∧ false = ready := by
        simpa using Except.ok.inj h
      have hzero : typeCount mutexMeta = 0 := haccepted.count ▸ not_not.mp hcount
      exact ⟨⟨hknown, fun h => absurd h (show ¬ (0 : ℤ) < -1 by decide), fun _ => hzero,
        fun _ _ => Option.some_ne_none T, hd.valid.setInitialized (-1)⟩, rfl,
        fun T' h => hmono T' h, fun h => Bool.noConfusion h, fun _ z hz => absurd hz.2 (hzero ▸ Nat.not_lt_zero z)⟩

theorem announce_cases {check : Tables → Detector → Except Stop Detector} (hd : Known mutexMeta tables d)
    (h : announce mutexMeta tables d type check = .ok (tables', d')) :
    (∀ T, tables = some T → tables' = some T) ∧ ∃ d₁, Known mutexMeta tables' d₁ ∧
      d₁.locked = d.locked ∧
      ((∃ T, tables' = some T ∧ type ≠ mutexInvalid ∧ check T d₁ = .ok d') ∨
        d' = d₁ ∧ ∀ z : ℕ, IsChecked mutexMeta z → type ≠ z) := by
  obtain ⟨⟨tables₁, d₁, ready⟩, hinit, h⟩ := bind_eq_ok.mp h
  obtain ⟨hknown, hlocked, hmono, hready, hskip⟩ := initializeDetector_spec hd hinit
  cases ready with
  | false =>
    obtain ⟨rfl, rfl⟩ := Prod.mk.inj (Except.ok.inj h)
    exact ⟨hmono, d₁, hknown, hlocked, Or.inr ⟨rfl, hskip rfl⟩⟩
  | true =>
    obtain ⟨htype, hsome⟩ := hready rfl
    obtain ⟨T, rfl⟩ := Option.ne_none_iff_exists'.mp hsome
    obtain ⟨d₂, hcheck, h⟩ := bind_eq_ok.mp h
    obtain ⟨rfl, rfl⟩ := Prod.mk.inj (Except.ok.inj h)
    exact ⟨hmono, d₁, hknown, hlocked, Or.inl ⟨T, rfl, htype, hcheck⟩⟩

theorem Known.of_valid {T : Tables} (hd : Known mutexMeta (some T) d) (hvalid : Valid mutexMeta d')
    (hinit : d'.initialized = d.initialized) : Known mutexMeta (some T) d' :=
  ⟨hd.accepted, fun _ => nofun, fun h => hd.off (hinit ▸ h), fun _ _ => nofun, hvalid⟩

theorem lock_spec {pc : ℕ} (hd : Known mutexMeta tables d)
    (h : lock mutexMeta tables d type pc = .ok (tables', d')) :
    Known mutexMeta tables' d' ∧ (∀ T, tables = some T → tables' = some T) ∧
      (∀ z : ℕ, IsChecked mutexMeta z →
        (d'.locked z).recursion = (d.locked z).recursion + if type = z then 1 else 0) ∧
      ∀ z : ℕ, IsChecked mutexMeta z → type = z → ∀ i, (d'.locked i).seq ≤ (d'.locked z).seq := by
  obtain ⟨hmono, d₁, hknown, hlocked, hcase⟩ := announce_cases hd h
  rcases hcase with ⟨T, rfl, htype, hcheck⟩ | ⟨rfl, hskip⟩
  · obtain ⟨hvalid, hinit, hrec, hlast⟩ :=
      lockChecked_spec (hknown.accepted T rfl) hknown.valid htype hcheck
    exact ⟨hknown.of_valid hvalid hinit, hmono, fun z _ => hlocked ▸ hrec z, fun z _ => hlast z⟩
  · refine ⟨hknown, hmono, fun z hz => ?_, fun z hz htype => absurd htype (hskip z hz)⟩
    rw [hlocked, if_neg (hskip z hz), Nat.add_zero]

theorem unlock_spec (hd : Known mutexMeta tables d)
    (h : unlock mutexMeta tables d type = .ok (tables', d')) :
    Known mutexMeta tables' d' ∧ (∀ T, tables = some T → tables' = some T) ∧
      ∀ z : ℕ, IsChecked mutexMeta z →
        (d.locked z).recursion = (d'.locked z).recursion + if type = z then 1 else 0 := by
  obtain ⟨hmono, d₁, hknown, hlocked, hcase⟩ := announce_cases hd h
  rcases hcase with ⟨T, rfl, htype, hcheck⟩ | ⟨rfl, hskip⟩
  · obtain ⟨hvalid, hinit, hrec⟩ := unlockChecked_spec hknown.valid hcheck
    exact ⟨hknown.of_valid hvalid hinit, hmono, fun z _ => hlocked ▸ hrec z⟩
  · refine ⟨hknown, hmono, fun z hz => ?_⟩
    rw [hlocked, if_neg (hskip z hz), Nat.add_zero]

/-! ## Runs -/

section Runs

omit [DecidableEq Thread] [DecidableEq Mutex]

variable {type : Mutex → ℤ} {w w' : World Thread Mutex}

/-- The invariant of all threads: the detectors agree with what the threads have announced. -/
structure Agrees (mutexMeta : MetaTable) (type : Mutex → ℤ) (w : World Thread Mutex) : Prop where
  /-- What is known of the detectors. -/
  known : ∀ t, Known mutexMeta w.tables (w.detector t)
  /-- A detector counts the mutexes of each type. -/
  recursion : ∀ t, ∀ z : ℕ, IsChecked mutexMeta z →
    ((w.detector t).locked z).recursion = (w.announced t).countP (type · = z)
  /-- A thread waits for the last mutex. -/
  last : ∀ t m, w.phase t = .waiting m → ∀ z : ℕ, IsChecked mutexMeta z → type m = z →
    ∀ i, ((w.detector t).locked i).seq ≤ ((w.detector t).locked z).seq

theorem agrees_initial : Agrees mutexMeta type (.initial : World Thread Mutex) where
  known _ := ⟨nofun, fun h => absurd h (lt_irrefl _), fun h => absurd h (lt_irrefl _),
    fun _ h => absurd rfl h, valid_zero⟩
  recursion _ _ _ := rfl
  last _ _ h := absurd h nofun

theorem Known.mono (hd : Known mutexMeta tables d) (hd' : Known mutexMeta tables' d')
    (hmono : ∀ T, tables = some T → tables' = some T) : Known mutexMeta tables' d where
  accepted := hd'.accepted
  ready h hnone := by
    obtain ⟨T, hT⟩ := Option.ne_none_iff_exists'.mp (hd.ready h)
    exact absurd ((hmono T hT).symm.trans hnone) nofun
  off := hd.off
  used t h hnone := by
    obtain ⟨T, hT⟩ := Option.ne_none_iff_exists'.mp (hd.used t h)
    exact absurd ((hmono T hT).symm.trans hnone) nofun
  valid := hd.valid

theorem Agrees.acyclic (h : Agrees mutexMeta type w) {t : Thread} {m : Mutex}
    (hwait : w.phase t = .waiting m) {z : ℕ} (hz : IsChecked mutexMeta z) (hm : type m = z) :
    ∀ t, ¬ TransGen (CanLock mutexMeta) t t := by
  have hrec := h.recursion t z hz
  rw [World.announced, hwait, Phase.announced, List.countP_cons, hm, if_pos (by simp)] at hrec
  have hseq : ((w.detector t).locked z).seq ≠ 0 := fun h0 => by
    have := ((h.known t).valid.recursion z).mp h0
    omega
  obtain ⟨T, hT⟩ := Option.ne_none_iff_exists'.mp ((h.known t).used z hseq)
  exact ((h.known t).accepted T hT).acyclic

/-- A mutex that a thread has when it waits for another one: its type comes before the other, or they are of
one type with the mark `MutexMulti`. -/
theorem Agrees.before (h : Agrees mutexMeta type w) {t : Thread} {m m' : Mutex}
    (hwait : w.phase t = .waiting m) (hhas : w.Has t m') {z z' : ℕ} (hz : IsChecked mutexMeta z)
    (hz' : IsChecked mutexMeta z') (hm : type m = z) (hm' : type m' = z') :
    TransGen (CanLock mutexMeta) z' z ∨ z' = z ∧ IsMulti mutexMeta z := by
  have hd := (h.known t).valid
  have hheld : m' ∈ w.held t := hhas.resolve_right fun h => by
    rw [hwait] at h
    exact absurd h nofun
  have hannounced : w.announced t = m :: w.held t := by rw [World.announced, hwait, Phase.announced]
  have hpos' : 0 < (w.held t).countP (type · = z') :=
    List.countP_pos_iff.mpr ⟨m', hheld, decide_eq_true hm'⟩
  have hrec' := h.recursion t z' hz'
  rw [hannounced, List.countP_cons] at hrec'
  rcases eq_or_ne z' z with rfl | hne
  · -- The type is locked twice.
    right
    refine ⟨rfl, by_contra fun hmulti => ?_⟩
    have honce := hd.once z' hmulti
    rw [hm, if_pos (by simp)] at hrec'
    omega
  · left
    have hseq' : ((w.detector t).locked z').seq ≠ 0 := fun h0 => by
      have := (hd.recursion z').mp h0
      omega
    refine hd.chain z' z hseq' (lt_of_le_of_ne (h.last t m hwait z hz hm z') fun heq => ?_)
    exact hne (hd.inj z' z hseq' heq)

variable [DecidableEq Thread]

/-- The invariant is kept when one thread changes and its detector still agrees. -/
theorem Agrees.update (h : Agrees mutexMeta type w) (t : Thread) (held : List Mutex)
    (phase : Phase Mutex) (hmono : ∀ T, w.tables = some T → tables = some T)
    (hknown : Known mutexMeta tables d)
    (hrec : ∀ z : ℕ, IsChecked mutexMeta z →
      (d.locked z).recursion = (phase.announced held).countP (type · = z))
    (hlast : ∀ m, phase = .waiting m → ∀ z : ℕ, IsChecked mutexMeta z → type m = z →
      ∀ i, (d.locked i).seq ≤ (d.locked z).seq) :
    Agrees mutexMeta type ⟨tables, Function.update w.detector t d, Function.update w.held t held,
      Function.update w.phase t phase⟩ where
  known u := by
    dsimp only
    rcases eq_or_ne u t with rfl | hu
    · rw [Function.update_self]
      exact hknown
    · rw [Function.update_of_ne hu]
      exact (h.known u).mono hknown hmono
  recursion u z hz := by
    unfold World.announced
    dsimp only
    rcases eq_or_ne u t with rfl | hu
    · rw [Function.update_self, Function.update_self, Function.update_self]
      exact hrec z hz
    · rw [Function.update_of_ne hu, Function.update_of_ne hu, Function.update_of_ne hu]
      exact h.recursion u z hz
  last u m := by
    dsimp only
    rcases eq_or_ne u t with rfl | hu
    · rw [Function.update_self, Function.update_self]
      exact hlast m
    · rw [Function.update_of_ne hu, Function.update_of_ne hu]
      exact h.last u m

/-- A step of a thread keeps the invariant. -/
theorem Agrees.step [DecidableEq Mutex] (h : Agrees mutexMeta type w)
    (hstep : Step mutexMeta type w w') : Agrees mutexMeta type w' := by
  cases hstep with
  | @lock t m pc tables d hphase hlock =>
    obtain ⟨hknown, hmono, hrec, hlast⟩ := lock_spec (h.known t) hlock
    have hcount : ∀ z : ℕ, IsChecked mutexMeta z → (d.locked z).recursion =
        (Phase.announced (w.held t) (.waiting m)).countP (type · = z) := by
      intro z hz
      rw [hrec z hz, h.recursion t z hz, World.announced, hphase, Phase.announced, Phase.announced,
        List.countP_cons]
      simp only [decide_eq_true_eq]
    have hnew := h.update t (w.held t) (.waiting m) hmono hknown hcount fun m' hm' => by
      obtain rfl := Phase.waiting.inj hm'
      exact hlast
    rwa [Function.update_eq_self] at hnew
  | acquire t m hphase =>
    have hcount : ∀ z : ℕ, IsChecked mutexMeta z → ((w.detector t).locked z).recursion =
        (Phase.announced (m :: w.held t) .running).countP (type · = z) := by
      intro z hz
      rw [h.recursion t z hz, World.announced, hphase, Phase.announced, Phase.announced]
    have hnew := h.update t (m :: w.held t) .running (fun _ h => h) (h.known t) hcount nofun
    rwa [Function.update_eq_self] at hnew
  | @unlock t m tables d hphase hheld hunlock =>
    obtain ⟨hknown, hmono, hrec⟩ := unlock_spec (h.known t) hunlock
    have hcount : ∀ z : ℕ, IsChecked mutexMeta z → (d.locked z).recursion =
        (Phase.announced ((w.held t).erase m) (.releasing m)).countP (type · = z) := by
      intro z hz
      have hbefore := h.recursion t z hz
      rw [hrec z hz, World.announced, hphase, Phase.announced,
        (List.perm_cons_erase hheld).countP_eq, List.countP_cons] at hbefore
      simp only [decide_eq_true_eq] at hbefore
      rw [Phase.announced]
      omega
    exact h.update t ((w.held t).erase m) (.releasing m) hmono hknown hcount nofun
  | release t m hphase =>
    have hcount : ∀ z : ℕ, IsChecked mutexMeta z → ((w.detector t).locked z).recursion =
        (Phase.announced (w.held t) .running).countP (type · = z) := by
      intro z hz
      rw [h.recursion t z hz, World.announced, hphase, Phase.announced, Phase.announced]
    have hnew := h.update t (w.held t) .running (fun _ h => h) (h.known t) hcount nofun
    rwa [Function.update_eq_self, Function.update_eq_self] at hnew

theorem Agrees.of_reachable [DecidableEq Mutex] (h : Reachable mutexMeta type w) :
    Agrees mutexMeta type w := by
  induction h with
  | refl => exact agrees_initial
  | tail _ hstep ih => exact ih.step hstep

/-- What the mutex hierarchy is for. -/
structure Hierarchy (mutexMeta : MetaTable) (type : Mutex → ℤ) (w : World Thread Mutex) : Prop where
  /-- The types that a thread holds are those of the mutexes that it has announced. -/
  announced : ∀ t, ∀ z : ℕ, IsChecked mutexMeta z →
    (z ∈ heldTypes (w.detector t) ↔ ∃ m ∈ w.announced t, type m = z)
  /-- Listed by increasing sequence number, they are a chain of the transitive closure of `can_lock`. -/
  chain : ∀ t, (heldTypes (w.detector t)).IsChain (TransGen (CanLock mutexMeta))
  /-- A type without the mark `MutexMulti` is announced once. -/
  once : ∀ t, ∀ z : ℕ, IsChecked mutexMeta z → ¬ IsMulti mutexMeta z →
    (w.announced t).countP (type · = z) ≤ 1
  /-- When threads wait for each other in a cycle, all its mutexes are of one type with this mark. -/
  cycle : ∀ (n : ℕ) (thread : ℕ → Thread) (mutex : ℕ → Mutex), 0 < n → thread n = thread 0 →
    (∀ i < n, w.phase (thread i) = .waiting (mutex i) ∧ w.Has (thread (i + 1)) (mutex i)) →
    (∀ i < n, ∃ z : ℕ, IsChecked mutexMeta z ∧ type (mutex i) = z) →
    ∃ z : ℕ, IsMulti mutexMeta z ∧ ∀ i < n, type (mutex i) = z

/-- The hierarchy holds in every run in which no check fails. -/
theorem hierarchy_of_reachable [DecidableEq Mutex] (h : Reachable mutexMeta type w) :
    Hierarchy mutexMeta type w := by
  have hagrees := Agrees.of_reachable h
  refine ⟨fun t z hz => ?_, fun t => isChain_heldTypes (hagrees.known t).valid,
    fun t z hz hmulti => ?_, ?_⟩
  · have hvalid := (hagrees.known t).valid
    rw [mem_heldTypes hvalid, ne_eq, hvalid.recursion, ← ne_eq, ← Nat.pos_iff_ne_zero,
      hagrees.recursion t z hz, List.countP_pos_iff]
    simp only [decide_eq_true_eq]
  · rw [← hagrees.recursion t z hz]
    exact (hagrees.known t).valid.once z hmulti
  · intro n thread mutex hn hround hcycle hchecked
    -- The type of the mutex at each place; the last place is the first one.
    have hplace : ∀ i, ∃ z : ℕ, i ≤ n → IsChecked mutexMeta z ∧
        type (mutex (if i = n then 0 else i)) = z ∧
        w.phase (thread i) = .waiting (mutex (if i = n then 0 else i)) := by
      intro i
      rcases lt_trichotomy i n with hi | rfl | hi
      · obtain ⟨z, hz, htype⟩ := hchecked i hi
        rw [if_neg hi.ne]
        exact ⟨z, fun _ => ⟨hz, htype, (hcycle i hi).1⟩⟩
      · obtain ⟨z, hz, htype⟩ := hchecked 0 hn
        rw [if_pos rfl, hround]
        exact ⟨z, fun _ => ⟨hz, htype, (hcycle 0 hn).1⟩⟩
      · exact ⟨0, fun hle => absurd hle (not_le.mpr hi)⟩
    choose z hz using hplace
    have htype : ∀ i < n, type (mutex i) = z i := by
      intro i hi
      have := (hz i hi.le).2.1
      rwa [if_neg hi.ne] at this
    have hnext : ∀ i < n, TransGen (CanLock mutexMeta) (z i) (z (i + 1)) ∨
        z i = z (i + 1) ∧ IsMulti mutexMeta (z (i + 1)) := by
      intro i hi
      obtain ⟨hchecked', htype', hwait⟩ := hz (i + 1) hi
      exact hagrees.before hwait (hcycle i hi).2 hchecked' (hz i hi.le).1 htype' (htype i hi)
    have hlast : z n = z 0 := by
      have := (hz n le_rfl).2.1
      rw [if_pos rfl, htype 0 hn] at this
      exact (Nat.cast_injective this).symm
    obtain ⟨hmulti, hsame⟩ := multi_of_cycle (hagrees.acyclic (hcycle 0 hn).1 (hz 0 (Nat.zero_le n)).1
      (htype 0 hn)) hn hlast hnext
    exact ⟨z 0, hmulti, fun i hi => by rw [htype i hi, hsame i hi]⟩

end Runs

/-- A table with two types, of which the second can be locked under the first, and several times. -/
def twoTypes : MetaTable
  | 0 => ⟨0, some "MutexInvalid", []⟩
  | 1 => ⟨1, some "MutexTypeA", [2]⟩
  | 2 => ⟨2, some "MutexTypeB", [mutexMulti]⟩
  | _ => ⟨0, none, []⟩

/-- A thread has a mutex of the first type and waits for one of the second. -/
theorem hierarchy_of_reachable_twoTypes : ∃ w : World ℕ ℕ,
    Reachable twoTypes (fun m : ℕ => (m : ℤ)) w ∧ w.phase 0 = .waiting 2 ∧ w.held 0 = [1] ∧
      Hierarchy twoTypes (fun m : ℕ => (m : ℤ)) w := by
  have hrun : ∃ w : World ℕ ℕ, Reachable twoTypes (fun m : ℕ => (m : ℤ)) w ∧
      w.phase 0 = .waiting 2 ∧ w.held 0 = [1] :=
    ⟨_, ReflTransGen.tail (ReflTransGen.tail (ReflTransGen.tail .refl
      (Step.lock 0 1 7 rfl rfl)) (Step.acquire 0 1 rfl)) (Step.lock 0 2 7 rfl rfl), rfl, rfl⟩
  obtain ⟨w, hw, hphase, hheld⟩ := hrun
  exact ⟨w, hw, hphase, hheld, hierarchy_of_reachable hw⟩

end Tasan.MutexCheck
