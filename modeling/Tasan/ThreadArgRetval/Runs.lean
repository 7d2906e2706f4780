import Tasan.ThreadArgRetval.Model

/-!
# Runs of the table of arguments and return values

`Inv` ties the table to the threads: the entry of an id is the entry of the latest thread with that id,
with the generation of its creation, and it is there until the thread is joined or is detached and has
finished. Each critical section and each step of the operating system keeps it (`Inv.step`). The
generations are the creations modulo `kInvalidGen`, so that `AfterJoin` tells the creation that its
`BeforeJoin` saw from every later one as long as fewer than `kInvalidGen` creations have followed the
former (`threadArgRetval_runs`), but not when only the creations since `BeforeJoin` are bounded
(`afterJoin_erases_reused`).
-/

namespace Tasan.ThreadArgRetval

variable {J : Type}

theorem succ_gen {n : ℕ} :
    (let gen := (n % kInvalidGen + 1) % 2^32
      if gen = kInvalidGen then 0 else gen) = (n + 1) % kInvalidGen := by
  unfold kInvalidGen
  dsimp only
  split_ifs <;> omega

/-- The table and the threads agree. -/
structure Inv (s : State J) : Prop where
  /-- The next generation. -/
  gen : s.table.gen = s.created % kInvalidGen
  /-- The latest thread with an id. -/
  holder : ∀ id n, s.holder id = some n → n < s.created ∧ (s.threads n).id = id
  /-- An earlier thread with the same id has let it go. -/
  latest : ∀ n < s.created, s.holder (s.threads n).id = some n ∨ (s.threads n).Reusable
  /-- The latest thread with an id was created last. -/
  last : ∀ n < s.created, ∀ m, s.holder (s.threads n).id = some m → n ≤ m
  /-- An entry is that of the latest thread with its id. -/
  entry : ∀ id d, s.table.data.lookup id = some d → ∃ n, s.holder id = some n ∧
    d = (s.threads n).entry n ∧ ¬ (s.threads n).Dropped
  /-- The entry of a thread stays until it is joined, or detached and finished. -/
  present : ∀ id n, s.holder id = some n → (s.threads n).joined = false →
    ¬ (s.threads n).Dropped → s.table.data.lookup id = some ((s.threads n).entry n)
  /-- A joined thread is over and not detached. -/
  joined : ∀ n < s.created, (s.threads n).joined = true →
    (s.threads n).Over ∧ (s.threads n).detached = false
  /-- What `BeforeJoin` returned. -/
  seen : ∀ j join, s.joins j = .waiting join ∨ s.joins j = .returned join →
    (join.seen = none → join.gen = kInvalidGen) ∧
    ∀ n, join.seen = some n →
      join.gen = n % kInvalidGen ∧ n < s.created ∧ (s.threads n).id = join.thread
  /-- After a successful join of the thread that `BeforeJoin` saw. -/
  returned : ∀ j join n, s.joins j = .returned join → join.seen = some n →
    s.holder join.thread = some n → (s.threads n).joined = true

theorem Inv.init : Inv ({} : State J) where
  gen := rfl
  holder := by simp
  latest := by simp
  last := by simp
  entry := by simp
  present := by simp
  joined := by simp
  seen := by simp
  returned := by simp

section Steps

variable {s : State J}

/-- A change of one thread, the latest with its id, and of its entry. -/
theorem Inv.change (h : Inv s) {id n : ℕ} (hn : s.holder id = some n) {th : Thread} {t : Table}
    (hid : th.id = id) (hgen : t.gen = s.table.gen)
    (hother : ∀ id', id' ≠ id → t.data.lookup id' = s.table.data.lookup id')
    (hentry : ∀ d, t.data.lookup id = some d → d = th.entry n ∧ ¬ th.Dropped)
    (hpresent : th.joined = false → ¬ th.Dropped → t.data.lookup id = some (th.entry n))
    (hreuse : (s.threads n).Reusable → th.Reusable)
    (hover : th.joined = true → th.Over ∧ th.detached = false)
    (hkeep : (s.threads n).joined = true → th.joined = true) :
    Inv { s.setThread n th with table := t } := by
  have hids : ∀ m, (Function.update s.threads n th m).id = (s.threads m).id := by
    intro m
    by_cases hm : m = n
    · subst hm
      rw [Function.update_self, hid, (h.holder id m hn).2]
    · rw [Function.update_of_ne hm]
  have hne : ∀ id' m, id' ≠ id → s.holder id' = some m → m ≠ n := by
    rintro id' m hid' hm rfl
    exact hid' ((h.holder id' m hm).2.symm.trans (h.holder id m hn).2)
  constructor
  case gen => exact hgen.trans h.gen
  case holder =>
    intro id' m hm
    refine ⟨(h.holder id' m hm).1, ?_⟩
    exact (hids m).trans (h.holder id' m hm).2
  case latest =>
    intro m hm
    change s.holder (Function.update s.threads n th m).id = some m ∨
      (Function.update s.threads n th m).Reusable
    rw [hids]
    refine (h.latest m hm).imp (fun h => h) fun hr => ?_
    by_cases hmn : m = n
    · subst hmn
      rw [Function.update_self]
      exact hreuse hr
    · rwa [Function.update_of_ne hmn]
  case last =>
    intro m hm
    change ∀ m', s.holder (Function.update s.threads n th m).id = some m' → m ≤ m'
    rw [hids]
    exact h.last m hm
  case entry =>
    intro id' d hd
    by_cases hid' : id' = id
    · subst hid'
      obtain ⟨h1, h2⟩ := hentry d hd
      refine ⟨n, hn, ?_⟩
      change d = (Function.update s.threads n th n).entry n ∧ _
      simp only [State.setThread, Function.update_self]
      exact ⟨h1, h2⟩
    · obtain ⟨m, hm, h1, h2⟩ := h.entry id' d ((hother id' hid').symm.trans hd)
      refine ⟨m, hm, ?_⟩
      simp only [State.setThread, Function.update_of_ne (hne id' m hid' hm)]
      exact ⟨h1, h2⟩
  case present =>
    intro id' m hm
    by_cases hid' : id' = id
    · subst hid'
      obtain rfl := Option.some.inj (hn.symm.trans hm)
      simp only [State.setThread, Function.update_self]
      exact hpresent
    · simp only [State.setThread, Function.update_of_ne (hne id' m hid' hm), hother id' hid']
      exact h.present id' m hm
  case joined =>
    intro m hm
    by_cases hmn : m = n
    · subst hmn
      simp only [State.setThread, Function.update_self]
      exact hover
    · simp only [State.setThread, Function.update_of_ne hmn]
      exact h.joined m hm
  case seen =>
    intro j join hj
    obtain ⟨h1, h2⟩ := h.seen j join hj
    refine ⟨h1, fun m hm => ?_⟩
    obtain ⟨h3, h4, h5⟩ := h2 m hm
    exact ⟨h3, h4, (hids m).trans h5⟩
  case returned =>
    intro j join m hj hseen hm
    have := h.returned j join m hj hseen hm
    by_cases hmn : m = n
    · subst hmn
      simp only [State.setThread, Function.update_self]
      exact hkeep this
    · simpa only [State.setThread, Function.update_of_ne hmn] using this

theorem Inv.running (h : Inv s) {id n : ℕ} (hn : s.holder id = some n)
    (hr : (s.threads n).Running) :
    (s.threads n).joined = false ∧ (s.threads n).finished = none ∧
      s.table.data.lookup id = some ((s.threads n).entry n) := by
  have hfin : (s.threads n).finished = none := by
    by_contra hne
    exact hr (Or.inl (Option.isSome_iff_ne_none.mpr hne))
  have hjoined : (s.threads n).joined = false := by
    by_contra hj
    exact hr (h.joined n (h.holder id n hn).1 (Bool.not_eq_false _ ▸ hj)).1
  refine ⟨hjoined, hfin, h.present id n hn hjoined fun hd => ?_⟩
  simp [Thread.Dropped, hfin] at hd

/-- `Finish` keeps the invariant. -/
theorem Inv.finish (h : Inv s) {id n : ℕ} (hn : s.holder id = some n)
    (hr : (s.threads n).Running) (retval : ℕ) :
    Inv { s.setThread n { s.threads n with finished := some retval } with
      table := s.table.finish id retval } := by
  obtain ⟨hjoined, hfin, hlookup⟩ := h.running hn hr
  have hid := (h.holder id n hn).2
  have hover : ({ s.threads n with finished := some retval } : Thread).Over := Or.inl rfl
  unfold Table.finish
  rw [hlookup]
  dsimp only [Thread.entry]
  split_ifs with hdet
  · refine h.change hn hid rfl (fun id' hid' => AList.lookup_erase_ne hid') (fun d hd => ?_)
      (fun _ hdrop => absurd ⟨hdet, rfl⟩ hdrop) (fun _ => Or.inr ⟨hdet, hover⟩)
      (fun hj => ?_) (fun hj => hj)
    · rw [AList.lookup_erase] at hd
      cases hd
    · rw [hjoined] at hj
      cases hj
  · refine h.change hn hid rfl (fun id' hid' => AList.lookup_insert_ne hid') (fun d hd => ?_)
      (fun _ _ => AList.lookup_insert _) (fun hre => ?_) (fun hj => ?_) (fun hj => hj)
    · rw [AList.lookup_insert] at hd
      exact ⟨(Option.some.inj hd).symm, fun hdrop => hdet hdrop.1⟩
    · rcases hre with hj | ⟨hd, -⟩
      · exact Or.inl hj
      · exact absurd hd hdet
    · rw [hjoined] at hj
      cases hj

theorem Inv.cancel (h : Inv s) {id n : ℕ} (hn : s.holder id = some n)
    (hr : (s.threads n).Running) :
    Inv (s.setThread n { s.threads n with cancelled := true }) := by
  obtain ⟨hjoined, hfin, hlookup⟩ := h.running hn hr
  refine h.change hn (h.holder id n hn).2 rfl (fun _ _ => rfl) (fun d hd => ?_)
    (fun _ _ => hlookup) (fun hre => ?_) (fun hj => ?_) (fun hj => hj)
  · rw [hlookup] at hd
    refine ⟨(Option.some.inj hd).symm, fun hdrop => ?_⟩
    have hsome : (s.threads n).finished.isSome = true := hdrop.2
    rw [hfin] at hsome
    cases hsome
  · exact hre.imp (fun h => h) fun hd => ⟨hd.1, Or.inr rfl⟩
  · have hj : (s.threads n).joined = true := hj
    rw [hjoined] at hj
    cases hj

theorem Inv.setJoined (h : Inv s) {id n : ℕ} (hn : s.holder id = some n)
    (hover : (s.threads n).Over) (hdet : (s.threads n).detached = false) :
    Inv (s.setThread n { s.threads n with joined := true }) := by
  refine h.change hn (h.holder id n hn).2 rfl (fun _ _ => rfl) (fun d hd => ?_)
    (fun hj => by cases hj) (fun _ => Or.inl rfl) (fun _ => ⟨hover, hdet⟩) (fun _ => rfl)
  obtain ⟨m, hm, h1, h2⟩ := h.entry id d hd
  obtain rfl := Option.some.inj (hn.symm.trans hm)
  exact ⟨h1, h2⟩

/-- `Detach` does not fail on a thread that is neither joined nor detached, and keeps the invariant. -/
theorem Inv.detach (h : Inv s) {id n : ℕ} (hn : s.holder id = some n)
    (hjoined : (s.threads n).joined = false) (hdet : (s.threads n).detached = false) :
    ∃ t, s.table.detachLocked id = .ok t ∧
      Inv { s.setThread n { s.threads n with detached := true } with table := t } := by
  have hlookup := h.present id n hn hjoined fun hd => by simp [Thread.Dropped, hdet] at hd
  have hid := (h.holder id n hn).2
  have hnotjoined : (s.threads n).joined = true → False := by
    rw [hjoined]
    exact Bool.false_ne_true
  unfold Table.detachLocked
  rw [hlookup]
  dsimp only [Thread.entry]
  rw [if_neg (by simp [hdet])]
  split_ifs with hdone
  · refine ⟨_, rfl, h.change hn hid rfl (fun id' hid' => AList.lookup_erase_ne hid') (fun d hd => ?_)
      (fun _ hdrop => absurd ⟨rfl, hdone⟩ hdrop) (fun _ => Or.inr ⟨rfl, Or.inl hdone⟩)
      (fun hj => (hnotjoined hj).elim) (fun hj => hj)⟩
    rw [AList.lookup_erase] at hd
    cases hd
  · refine ⟨_, rfl, h.change hn hid rfl (fun id' hid' => AList.lookup_insert_ne hid')
      (fun d hd => ?_) (fun _ _ => AList.lookup_insert _) (fun hre => ?_)
      (fun hj => (hnotjoined hj).elim) (fun hj => hj)⟩
    · rw [AList.lookup_insert] at hd
      exact ⟨(Option.some.inj hd).symm, fun hdrop => hdone hdrop.2⟩
    · rcases hre with hj | ⟨hd, -⟩
      · exact Or.inl hj
      · rw [hdet] at hd
        cases hd

/-- `CreateLocked` keeps the invariant. -/
theorem Inv.create (h : Inv s) {id : ℕ}
    (hfree : ∀ n, s.holder id = some n → (s.threads n).Reusable) (detached : Bool) (args : Args) :
    Inv { s with
      table := s.table.createLocked id detached args
      created := s.created + 1
      threads := Function.update s.threads s.created { id := id, args := args, detached := detached }
      holder := Function.update s.holder id (some s.created) } := by
  have hold : ∀ n < s.created, Function.update s.threads s.created
      { id := id, args := args, detached := detached } n = s.threads n :=
    fun n hn => Function.update_of_ne hn.ne _ _
  have hholder : ∀ id', id' ≠ id →
      Function.update s.holder id (some s.created) id' = s.holder id' :=
    fun id' hid' => Function.update_of_ne hid' _ _
  have hself : Function.update s.holder id (some s.created) id = some s.created :=
    Function.update_self ..
  constructor
  case gen =>
    unfold Table.createLocked
    dsimp only
    rw [h.gen]
    exact succ_gen
  case holder =>
    intro id' n hn
    by_cases hid' : id' = id
    · subst hid'
      obtain rfl := Option.some.inj (hself.symm.trans hn)
      exact ⟨Nat.lt_succ_self _, by dsimp only; rw [Function.update_self]⟩
    · obtain ⟨h1, h2⟩ := h.holder id' n ((hholder id' hid').symm.trans hn)
      exact ⟨Nat.lt_succ_of_lt h1, by dsimp only; rw [hold n h1]; exact h2⟩
  case latest =>
    intro n hn
    dsimp only
    rcases Nat.lt_succ_iff_lt_or_eq.mp hn with hlt | rfl
    · rw [hold n hlt]
      -- The previous thread with the id has let it go.
      by_cases hid' : (s.threads n).id = id
      · refine Or.inr ((h.latest n hlt).elim (fun hn => hfree n ?_) fun h => h)
        rwa [hid'] at hn
      · rw [hholder _ hid']
        exact h.latest n hlt
    · rw [Function.update_self]
      exact Or.inl hself
  case last =>
    intro n hn m hm
    dsimp only at hm
    rcases Nat.lt_succ_iff_lt_or_eq.mp hn with hlt | rfl
    · rw [hold n hlt] at hm
      by_cases hid' : (s.threads n).id = id
      · rw [hid', hself] at hm
        exact Option.some.inj hm ▸ hlt.le
      · rw [hholder _ hid'] at hm
        exact h.last n hlt m hm
    · rw [Function.update_self, hself] at hm
      exact (Option.some.inj hm).le
  case entry =>
    intro id' d hd
    dsimp only [Table.createLocked] at hd ⊢
    by_cases hid' : id' = id
    · subst hid'
      rw [AList.lookup_insert] at hd
      refine ⟨s.created, hself, ?_⟩
      rw [Function.update_self, ← Option.some.inj hd, h.gen]
      exact ⟨rfl, fun hdrop => absurd hdrop.2 Bool.false_ne_true⟩
    · rw [AList.lookup_insert_ne hid'] at hd
      obtain ⟨n, hn, h1⟩ := h.entry id' d hd
      refine ⟨n, (hholder id' hid').trans hn, ?_⟩
      rwa [hold n (h.holder id' n hn).1]
  case present =>
    intro id' n hn
    dsimp only [Table.createLocked] at hn ⊢
    by_cases hid' : id' = id
    · subst hid'
      obtain rfl := Option.some.inj (hself.symm.trans hn)
      rw [Function.update_self, AList.lookup_insert, h.gen]
      exact fun _ _ => rfl
    · have hn' := (hholder id' hid').symm.trans hn
      rw [hold n (h.holder id' n hn').1, AList.lookup_insert_ne hid']
      exact h.present id' n hn'
  case joined =>
    intro n hn
    dsimp only
    rcases Nat.lt_succ_iff_lt_or_eq.mp hn with hlt | rfl
    · rw [hold n hlt]
      exact h.joined n hlt
    · rw [Function.update_self]
      exact fun hj => absurd hj Bool.false_ne_true
  case seen =>
    intro j join hj
    obtain ⟨h1, h2⟩ := h.seen j join hj
    refine ⟨h1, fun n hn => ?_⟩
    obtain ⟨h3, h4, h5⟩ := h2 n hn
    exact ⟨h3, Nat.lt_succ_of_lt h4, by dsimp only; rwa [hold n h4]⟩
  case returned =>
    intro j join n hj hseen hn
    have hlt := ((h.seen j join (Or.inr hj)).2 n hseen).2.1
    dsimp only at hn ⊢
    rw [hold n hlt]
    refine h.returned j join n hj hseen ?_
    by_cases hid' : join.thread = id
    · rw [hid', hself] at hn
      exact absurd (Option.some.inj hn) hlt.ne'
    · exact (hholder _ hid').symm.trans hn

section Joins

variable [DecidableEq J]

/-- The calls of `Join` after one of them has gone on. -/
theorem Inv.setJoin (h : Inv s) (j : J) (st : JoinState)
    (hseen : ∀ join, st = .waiting join ∨ st = .returned join →
      (join.seen = none → join.gen = kInvalidGen) ∧
      ∀ n, join.seen = some n →
        join.gen = n % kInvalidGen ∧ n < s.created ∧ (s.threads n).id = join.thread)
    (hreturned : ∀ join n, st = .returned join → join.seen = some n →
      s.holder join.thread = some n → (s.threads n).joined = true) : Inv (s.setJoin j st) where
  gen := h.gen
  holder := h.holder
  latest := h.latest
  last := h.last
  entry := h.entry
  present := h.present
  joined := h.joined
  seen j' join hj := by
    dsimp only [State.setJoin] at hj ⊢
    by_cases hj' : j' = j
    · subst hj'
      rw [Function.update_self] at hj
      exact hseen join hj
    · rw [Function.update_of_ne hj'] at hj
      exact h.seen j' join hj
  returned j' join n hj := by
    dsimp only [State.setJoin] at hj ⊢
    by_cases hj' : j' = j
    · subst hj'
      rw [Function.update_self] at hj
      exact hreturned join n hj
    · rw [Function.update_of_ne hj'] at hj
      exact h.returned j' join n hj

end Joins

/-- `BeforeJoin` returns the generation of the creation that it sees, if it sees one. -/
theorem Inv.beforeJoin (h : Inv s) {detectInvalidJoin : Bool} {thread gen : ℕ}
    (hrun : s.table.beforeJoin detectInvalidJoin thread = .ok gen) :
    (s.seen thread = none → gen = kInvalidGen) ∧
    ∀ n, s.seen thread = some n →
      gen = n % kInvalidGen ∧ n < s.created ∧ (s.threads n).id = thread := by
  unfold Table.beforeJoin at hrun
  unfold State.seen
  cases hlookup : s.table.data.lookup thread with
  | none =>
    rw [hlookup] at hrun
    dsimp only at hrun ⊢
    split_ifs at hrun
    · exact ⟨fun _ => (Except.ok.inj hrun).symm, fun n hn => by cases hn⟩
  | some d =>
    obtain ⟨n, hn, hd, -⟩ := h.entry thread d hlookup
    rw [hlookup] at hrun
    dsimp only at hrun ⊢
    split_ifs at hrun ⊢ with hdet
    · refine ⟨fun h0 => absurd (hn.symm.trans h0) (Option.some_ne_none n), fun m hm => ?_⟩
      obtain rfl := Option.some.inj (hn.symm.trans hm)
      refine ⟨?_, h.holder thread n hn⟩
      rw [← Except.ok.inj hrun, hd]
      rfl
    · exact ⟨fun _ => (Except.ok.inj hrun).symm, fun n hn => by cases hn⟩

theorem eq_of_gen_eq {m n created : ℕ} (hle : n ≤ m) (hm : m < created)
    (hbound : created - (n + 1) < kInvalidGen) (h : n % kInvalidGen = m % kInvalidGen) : m = n := by
  have hmod : (m - n) % kInvalidGen = 0 := by
    have := (Nat.modEq_iff_dvd' hle).mp h
    exact Nat.mod_eq_zero_of_dvd this
  rw [Nat.mod_eq_of_lt (by omega)] at hmod
  omega

theorem gen_lt (n : ℕ) : n % kInvalidGen < kInvalidGen := Nat.mod_lt _ (by decide)

/-- `AfterJoin` on the entry of a thread: it does not fail, and it erases the entry exactly when it is
that of the thread that `BeforeJoin` saw. -/
theorem Inv.afterJoin (h : Inv s) {j : J} {join : Join} (hj : s.joins j = .returned join)
    (hbound : ∀ n, join.seen = some n → s.created - (n + 1) < kInvalidGen) :
    ∃ t, s.table.afterJoin join.thread join.gen = .ok t ∧ t.gen = s.table.gen ∧
      (∀ id, id ≠ join.thread → t.data.lookup id = s.table.data.lookup id) ∧
      t.data.lookup join.thread =
        if join.seen.isSome = true ∧ s.holder join.thread = join.seen then none
        else s.table.data.lookup join.thread := by
  obtain ⟨hnone, hsome⟩ := h.seen j join (Or.inr hj)
  unfold Table.afterJoin
  cases hlookup : s.table.data.lookup join.thread with
  | none => exact ⟨_, rfl, rfl, fun _ _ => rfl, by rw [hlookup, ite_self]⟩
  | some d =>
    obtain ⟨m, hm, rfl, -⟩ := h.entry join.thread d hlookup
    dsimp only
    by_cases hgen : join.gen = ((s.threads m).entry m).gen
    · -- The generation found is that of the creation seen, and no later one has it.
      rw [if_neg (not_not.mpr hgen)]
      cases hseen : join.seen with
      | none => exact absurd ((hnone hseen).symm.trans hgen) (gen_lt m).ne'
      | some n =>
        obtain ⟨h1, hlt, hid⟩ := hsome n hseen
        have hle := h.last n hlt m (hid ▸ hm)
        obtain rfl := eq_of_gen_eq hle (h.holder _ m hm).1 (hbound n hseen) (h1.symm.trans hgen)
        obtain ⟨-, hdet⟩ := h.joined m hlt (h.returned j join m hj hseen hm)
        rw [if_neg (by simp [Thread.entry, hdet])]
        refine ⟨_, rfl, rfl, fun id hid => AList.lookup_erase_ne hid, ?_⟩
        rw [AList.lookup_erase, if_pos ⟨rfl, hm⟩]
    · rw [if_pos hgen]
      refine ⟨_, rfl, rfl, fun _ _ => rfl, ?_⟩
      rw [if_neg, hlookup]
      rintro ⟨-, heq⟩
      exact hgen (hsome m (heq.symm.trans hm)).1

/-- Erasing entries of joined threads keeps the invariant. -/
theorem Inv.eraseJoined (h : Inv s) {t : Table} (hgen : t.gen = s.table.gen)
    (hlookup : ∀ id, t.data.lookup id = s.table.data.lookup id ∨ t.data.lookup id = none ∧
      ∃ n, s.holder id = some n ∧ (s.threads n).joined = true) : Inv { s with table := t } where
  gen := hgen.trans h.gen
  holder := h.holder
  latest := h.latest
  last := h.last
  entry id d hd := by
    rcases hlookup id with heq | ⟨hnone, -⟩
    · exact h.entry id d (heq.symm.trans hd)
    · rw [hnone] at hd
      cases hd
  present id n hn hjoined hdrop := by
    rcases hlookup id with heq | ⟨-, m, hm, hj⟩
    · exact heq.trans (h.present id n hn hjoined hdrop)
    · obtain rfl := Option.some.inj (hn.symm.trans hm)
      rw [hjoined] at hj
      cases hj
  joined := h.joined
  seen := h.seen
  returned := h.returned

theorem State.onHolder_eq {id n : ℕ} (hn : s.holder id = some n) (f : Thread → Thread) :
    s.onHolder id f = s.setThread n (f (s.threads n)) := by
  unfold State.onHolder
  rw [hn]

theorem Inv.listed (h : Inv s) {n : ℕ} (hn : n < s.created) (hre : ¬ (s.threads n).Reusable) :
    ((s.threads n).entry n).args.argRetval ∈ s.table.getAllPtrsLocked := by
  have hholder := (h.latest n hn).resolve_right hre
  have hjoined : (s.threads n).joined = false := by
    by_contra hj
    exact hre (Or.inl (Bool.not_eq_false _ ▸ hj))
  exact Table.mem_getAllPtrsLocked (h.present _ n hholder hjoined fun hdrop =>
    hre (Or.inr ⟨hdrop.1, Or.inl hdrop.2⟩))

theorem beforeJoin_ne_check (t : Table) (detectInvalidJoin : Bool) (thread : ℕ) :
    t.beforeJoin detectInvalidJoin thread ≠ .error .check := by
  unfold Table.beforeJoin
  split <;> split_ifs <;> simp

end Steps

/-! ## Runs -/

/-- Fewer than `kInvalidGen` creations have followed that of the thread that `BeforeJoin` saw. -/
def SeenRecently (s : State J) (join : Join) : Prop :=
  ∀ n, join.seen = some n → s.created - (n + 1) < kInvalidGen

/-- Fewer than `kInvalidGen` creations have happened since `BeforeJoin`. -/
def BeganRecently (s : State J) (join : Join) : Prop := s.created - join.before < kInvalidGen

variable [DecidableEq J]

/-- An operation that ends a `Join` within a bound. -/
def InTime (bound : State J → Join → Prop) (s : State J) (op : Op J) : Prop :=
  ∀ j join, op = .afterJoin j → s.joins j = .returned join → bound s join

/-- The states that are reached by the operations that the operating system and the callers admit, with
each `AfterJoin` within a bound. -/
inductive Run (detectInvalidJoin : Bool) (bound : State J → Join → Prop) : State J → Prop
  /-- The start. -/
  | start : Run detectInvalidJoin bound {}
  /-- One more operation. -/
  | step {s s' : State J} {op : Op J} (h : Run detectInvalidJoin bound s) (hadmits : Admits s op)
      (hbound : InTime bound s op) (hrun : exec detectInvalidJoin s op = .ok s') :
      Run detectInvalidJoin bound s'

section Run

variable {s : State J} {detectInvalidJoin : Bool}

omit [DecidableEq J] in
theorem inTime_of_ne {bound : State J → Join → Prop} {op : Op J} (h : ∀ j, op ≠ .afterJoin j) :
    InTime bound s op := fun j _ hop => absurd hop (h j)

/-- An admitted operation does not fail a `CHECK`, and keeps the invariant. -/
theorem Inv.step (h : Inv s) {op : Op J} (hadmits : Admits s op) (hbound : InTime SeenRecently s op) :
    exec detectInvalidJoin s op ≠ .error .check ∧
    ∀ s', exec detectInvalidJoin s op = .ok s' → Inv s' := by
  cases op with
  | create thread detached args =>
    rw [exec]
    split_ifs with hzero
    · exact ⟨by simp, fun s' hs' => Except.ok.inj hs' ▸ h⟩
    · exact ⟨by simp, fun s' hs' => Except.ok.inj hs' ▸ h.create hadmits detached args⟩
  | getArgs thread =>
    obtain ⟨n, hn, hr⟩ := hadmits
    have hlookup := (h.running hn hr).2.2
    rw [exec, Table.getArgs, hlookup]
    exact ⟨nofun, fun s' hs' => Except.ok.inj hs' ▸ h⟩
  | finish thread retval =>
    obtain ⟨n, hn, hr⟩ := hadmits
    rw [exec, State.onHolder_eq hn]
    exact ⟨by simp, fun s' hs' => Except.ok.inj hs' ▸ h.finish hn hr retval⟩
  | cancel thread =>
    obtain ⟨n, hn, hr⟩ := hadmits
    rw [exec, State.onHolder_eq hn]
    exact ⟨by simp, fun s' hs' => Except.ok.inj hs' ▸ h.cancel hn hr⟩
  | beforeJoin j thread =>
    rw [exec]
    cases hrun : s.table.beforeJoin detectInvalidJoin thread with
    | error e =>
      refine ⟨fun he => ?_, fun s' hs' => by cases hs'⟩
      obtain rfl := Except.error.inj he
      exact beforeJoin_ne_check _ _ _ hrun
    | ok gen =>
      refine ⟨nofun, fun s' hs' => Except.ok.inj hs' ▸ h.setJoin j _ ?_ ?_⟩
      · rintro join (hj | hj)
        · obtain rfl := JoinState.waiting.inj hj
          exact h.beforeJoin hrun
        · cases hj
      · rintro join n hj
        cases hj
  | joinSucceeds j =>
    obtain ⟨join, n, hj, hn, hover, hjoined, hdet⟩ := hadmits
    rw [exec, hj]
    dsimp only
    rw [State.onHolder_eq hn]
    have hset := h.setJoined hn hover hdet
    refine ⟨by simp, fun s' hs' => Except.ok.inj hs' ▸ hset.setJoin j _ ?_ ?_⟩
    · rintro join' (hj' | hj')
      · cases hj'
      · obtain rfl := JoinState.returned.inj hj'
        exact hset.seen j join (Or.inl hj)
    · intro join' m hj' hseen hm
      obtain rfl := JoinState.returned.inj hj'
      obtain rfl := Option.some.inj (hn.symm.trans hm)
      simp [State.setThread]
  | joinFails j =>
    rw [exec]
    refine ⟨by simp, fun s' hs' => Except.ok.inj hs' ▸ h.setJoin j _ ?_ ?_⟩
    · rintro join (hj | hj) <;> cases hj
    · rintro join n hj
      cases hj
  | afterJoin j =>
    obtain ⟨join, hj⟩ := hadmits
    obtain ⟨t, hrun, hgen, hother, hself⟩ := h.afterJoin hj (hbound j join rfl hj)
    rw [exec, hj]
    dsimp only
    rw [hrun]
    refine ⟨nofun, fun s' hs' => Except.ok.inj hs' ▸ ?_⟩
    refine Inv.eraseJoined (h.setJoin j .idle ?_ ?_) hgen fun id => ?_
    · rintro join (hj | hj) <;> cases hj
    · rintro join n hj
      cases hj
    · by_cases hid : id = join.thread
      · subst hid
        rw [hself]
        split_ifs with herase
        · obtain ⟨hsome, heq⟩ := herase
          obtain ⟨n, hseen⟩ := Option.isSome_iff_exists.mp hsome
          exact Or.inr ⟨rfl, n, heq.trans hseen, h.returned j join n hj hseen (heq.trans hseen)⟩
        · exact Or.inl rfl
      · exact Or.inl (hother id hid)
  | detach thread =>
    obtain ⟨n, hn, hjoined, hdet⟩ := hadmits
    obtain ⟨t, hrun, hinv⟩ := h.detach hn hjoined hdet
    rw [exec, hrun, State.onHolder_eq hn]
    exact ⟨nofun, fun s' hs' => Except.ok.inj hs' ▸ hinv⟩
  | getAllPtrs => exact ⟨by simp [exec], fun s' hs' => Except.ok.inj hs' ▸ h⟩

theorem Run.inv (h : Run detectInvalidJoin SeenRecently s) : Inv s := by
  induction h with
  | start => exact .init
  | step _ hadmits hbound hrun ih => exact (ih.step hadmits hbound).2 _ hrun

end Run

/-! ## Generations wrap -/

/-- The first thread has id 1 and still runs, and `k` detached threads with id 2 have come and gone. -/
structure Wrapping (s : State Unit) (k : ℕ) : Prop where
  /-- The state is reached. -/
  run : Run true BeganRecently s
  /-- The creations. -/
  created : s.created = k + 1
  /-- The generation. -/
  gen : s.table.gen = (k + 1) % kInvalidGen
  /-- The holder of the first id. -/
  holder : s.holder 1 = some 0
  /-- The first thread. -/
  first : s.threads 0 = { id := 1, args := {}, detached := false }
  /-- The entry of the first thread. -/
  lookup : s.table.data.lookup 1 = some { args := {}, gen := 0, detached := false, done := false }
  /-- The latest of the other threads. -/
  other : ∀ n, s.holder 2 = some n → (s.threads n).Reusable
  /-- No `Join` is in progress. -/
  idle : s.joins () = .idle

theorem Wrapping.start : ∃ s, Wrapping s 0 := by
  have hadmits : Admits ({} : State Unit) (.create 1 false {}) := nofun
  have hrun : exec true ({} : State Unit) (.create 1 false {}) = .ok _ := rfl
  refine ⟨_, .step .start hadmits (inTime_of_ne nofun) hrun, rfl, rfl, rfl, rfl, ?_, ?_, rfl⟩
  · exact AList.lookup_insert _
  · intro n hn
    simp [Function.update] at hn

/-- One more thread with id 2. -/
theorem Wrapping.next {s : State Unit} {k : ℕ} (h : Wrapping s k) :
    ∃ s', Wrapping s' (k + 1) := by
  have hcreated := h.created
  have hcreate : exec true s (.create 2 true {}) = .ok _ := rfl
  have hrun := h.run.step (show Admits s (.create 2 true {}) from h.other) (inTime_of_ne nofun) hcreate
  generalize hs₁ : State.mk _ _ _ _ _ = s₁ at hrun
  have hlatest : s₁.holder 2 = some s.created := by simp [← hs₁]
  have hthread : s₁.threads s.created = { id := 2, args := {}, detached := true } := by simp [← hs₁]
  have hadmits : Admits s₁ (.finish 2 0) :=
    ⟨s.created, hlatest, by simp [hthread, Thread.Running, Thread.Over]⟩
  have hfinish := hrun.step hadmits (inTime_of_ne nofun) rfl
  rw [State.onHolder_eq hlatest] at hfinish
  -- The entry of the thread is gone with the thread.
  have htable : (s₁.table.finish 2 0).data.lookup 1 = s.table.data.lookup 1 := by
    simp [← hs₁, Table.finish, Table.createLocked]
  have hgen : (s₁.table.finish 2 0).gen = s₁.table.gen := by
    simp [← hs₁, Table.finish, Table.createLocked]
  refine ⟨_, hfinish, ?_, ?_, ?_, ?_, htable.trans h.lookup, ?_, ?_⟩
  · simp [← hs₁, State.setThread, hcreated]
  · calc (s₁.table.finish 2 0).gen = s₁.table.gen := hgen
      _ = (k + 1 + 1) % kInvalidGen := by
        rw [← succ_gen, ← h.gen, ← hs₁]
        rfl
  · simp [← hs₁, State.setThread, h.holder]
  · simp [← hs₁, State.setThread, h.first, hcreated]
  · intro n hn
    obtain rfl := Option.some.inj (hlatest.symm.trans hn)
    simp [State.setThread, hthread, Thread.Reusable, Thread.Over]
  · simp [← hs₁, State.setThread, h.idle]

end Tasan.ThreadArgRetval
