import Tasan.Fuel

/-!
# Buffers with bounds

Loads and stores of a buffer by an index that may be outside it, which is then the outcome, and the
loop that walks over a buffer as long as what it meets lets it (`walk`). What a program sees from an
index on is `b.drop i`: a load of `b.drop i = a :: rest` gives `a`, and a walk over
`b.drop i = seg ++ c :: rest` ends in front of the first `c` that stops it (`walk_eq`). On a buffer
about which nothing is known, a walk stays inside it if an element ahead stops it in every state
(`walk_of_stop`).
-/

namespace Tasan.Buffer

variable {ε α β : Type} (e : ε)

/-- `b[i]`. -/
def read (b : List α) (i : ℕ) : Outcome ε α :=
  match b[i]? with
  | some a => .returned a
  | none => .stopped e

/-- `b[i] = a`. -/
def write (b : List α) (i : ℕ) (a : α) : Outcome ε (List α) :=
  if i < b.length then .returned (b.set i a) else .stopped e

/-- `b[i]`, where the index may be negative. -/
def readAt (b : List α) : ℤ → Outcome ε α
  | .ofNat i => read e b i
  | .negSucc _ => .stopped e

/-- The `n` elements from `i` on. -/
def readBlock (b : List α) (i n : ℕ) : Outcome ε (List α) :=
  if i + n ≤ b.length then .returned ((b.drop i).take n) else .stopped e

/-- The elements `l` are stored from `i` on. -/
def writeBlock (b : List α) (i : ℕ) (l : List α) : Outcome ε (List α) :=
  if i + l.length ≤ b.length then .returned (b.take i ++ l ++ b.drop (i + l.length)) else .stopped e

/-- The loop of `walk`. -/
def walkLoop (f : β → α → Option β) (b : List α) : ℕ → ℕ → β → Outcome ε (β × ℕ)
  | 0, _, _ => .unfinished
  | fuel + 1, i, s => do
    match f s (← read e b i) with
    | some s => walkLoop f b fuel (i + 1) s
    | none => return (s, i)

/-- From `i` on, as long as `f` takes the next element: what `f` makes of the elements, and where it
stops. A walk that nothing stops leaves the buffer, so that the fuel suffices. -/
def walk (f : β → α → Option β) (b : List α) (i : ℕ) (s : β) : Outcome ε (β × ℕ) :=
  walkLoop e f b (b.length + 1 - i) i s

/-- The elements with a property are taken, and nothing is made of them. -/
def takes (p : α → Bool) (_ : Unit) (a : α) : Option Unit := if p a then some () else none

/-- `while (p(b[i])) i++`. -/
def scan (p : α → Bool) (b : List α) (i : ℕ) : Outcome ε ℕ := Prod.snd <$> walk e (takes p) b i ()

/-- `while (i < end && p(b[i])) i++`, with `n` elements up to the end. -/
def scanWithin (p : α → Bool) (b : List α) : ℕ → ℕ → Outcome ε ℕ
  | 0, i => .returned i
  | n + 1, i => do
    let a ← read e b i
    if p a then scanWithin p b n (i + 1) else return i

variable {e} {b seg rest : List α} {i : ℕ} {a : α} {f : β → α → Option β} {s t : β}

/-! ## Single elements -/

theorem lt_of_drop_eq (h : b.drop i = a :: rest) : i < b.length := by
  have hlength := congrArg List.length h
  rw [List.length_drop, List.length_cons] at hlength
  omega

theorem drop_add (h : b.drop i = seg ++ rest) : b.drop (i + seg.length) = rest := by
  rw [← List.drop_drop, h, List.drop_left]

theorem drop_succ (h : b.drop i = a :: rest) : b.drop (i + 1) = rest :=
  @drop_add _ b [a] rest i h

theorem getElem?_of_drop_eq (h : b.drop i = a :: rest) : b[i]? = some a := by
  rw [← List.head?_drop, h, List.head?_cons]

theorem read_of_getElem? (h : b[i]? = some a) : read e b i = .returned a := by
  unfold read
  rw [h]

theorem read_eq (h : b.drop i = a :: rest) : read e b i = .returned a :=
  read_of_getElem? (getElem?_of_drop_eq h)

theorem readAt_natCast (b : List α) (i : ℕ) : readAt e b (i : ℤ) = read e b i := rfl

theorem exists_drop_eq (h : i < b.length) : ∃ a, b.drop i = a :: b.drop (i + 1) :=
  ⟨b[i], List.drop_eq_getElem_cons h⟩

theorem readBlock_eq (h : b.drop i = seg ++ rest) (hi : i ≤ b.length) :
    readBlock e b i seg.length = .returned seg := by
  have hlength := congrArg List.length h
  rw [List.length_drop, List.length_append] at hlength
  unfold readBlock
  rw [if_pos (by omega), h, List.take_left]

/-! ## Walks -/

theorem walkLoop_eq {fuel : ℕ} {c : α} (h : b.drop i = seg ++ c :: rest)
    (hseg : seg.foldlM f s = some t) (hc : f t c = none) (hfuel : seg.length < fuel) :
    walkLoop e f b fuel i s = .returned (t, i + seg.length) := by
  induction seg generalizing fuel i s with
  | nil =>
    obtain ⟨fuel, rfl⟩ := Nat.exists_eq_succ_of_ne_zero hfuel.ne'
    obtain rfl := Option.some.inj hseg
    rw [walkLoop, read_eq h, Outcome.returned_bind, hc]
    rfl
  | cons d seg ih =>
    obtain ⟨fuel, rfl⟩ := Nat.exists_eq_succ_of_ne_zero (Nat.zero_lt_of_lt hfuel).ne'
    rw [List.foldlM_cons, Option.bind_eq_bind, Option.bind_eq_some_iff] at hseg
    obtain ⟨next, hnext, hseg⟩ := hseg
    rw [List.length_cons] at hfuel ⊢
    rw [walkLoop, read_eq h, Outcome.returned_bind, hnext]
    dsimp only
    rw [ih (drop_succ h) hseg (by omega), Nat.add_assoc, Nat.add_comm 1]

theorem walk_eq {c : α} (h : b.drop i = seg ++ c :: rest) (hseg : seg.foldlM f s = some t)
    (hc : f t c = none) : walk e f b i s = .returned (t, i + seg.length) := by
  have hlength := congrArg List.length h
  rw [List.length_drop, List.length_append, List.length_cons] at hlength
  exact walkLoop_eq h hseg hc (by omega)

theorem walkLoop_of_stop {fuel j : ℕ} (hi : i ≤ j) (h : ∃ a, b[j]? = some a ∧ ∀ s, f s a = none)
    (hfuel : j - i < fuel) :
    ∃ t k, walkLoop e f b fuel i s = .returned (t, k) ∧ i ≤ k ∧ k ≤ j := by
  induction fuel generalizing i s with
  | zero => omega
  | succ fuel ih =>
    obtain ⟨a, ha, hstop⟩ := h
    have hlt : j < b.length := (List.getElem?_eq_some_iff.mp ha).1
    obtain ⟨c, hc⟩ := exists_drop_eq (show i < b.length by omega)
    rw [walkLoop, read_eq hc, Outcome.returned_bind]
    cases hf : f s c with
    | none => exact ⟨s, i, rfl, le_rfl, hi⟩
    | some next =>
      have hne : i ≠ j := by
        rintro rfl
        obtain rfl := Option.some.inj ((getElem?_of_drop_eq hc).symm.trans ha)
        rw [hstop] at hf
        cases hf
      obtain ⟨t, k, hrun, h1, h2⟩ := ih (i := i + 1) (s := next) (by omega) (by omega)
      exact ⟨t, k, hrun, by omega, h2⟩

theorem walk_of_stop {j : ℕ} (hi : i ≤ j) (h : ∃ a, b[j]? = some a ∧ ∀ s, f s a = none) :
    ∃ t k, walk e f b i s = .returned (t, k) ∧ i ≤ k ∧ k ≤ j := by
  obtain ⟨a, ha, hstop⟩ := h
  have hlt : j < b.length := (List.getElem?_eq_some_iff.mp ha).1
  exact walkLoop_of_stop hi ⟨a, ha, hstop⟩ (by omega)

theorem foldlM_takes {p : α → Bool} (h : ∀ a ∈ seg, p a = true) :
    seg.foldlM (takes p) () = some () := by
  induction seg with
  | nil => rfl
  | cons c seg ih =>
    rw [List.foldlM_cons, takes, if_pos (h c List.mem_cons_self)]
    exact ih fun a ha => h a (List.mem_cons_of_mem c ha)

theorem takes_of_false {p : α → Bool} (h : p a = false) (u : Unit) : takes p u a = none := by
  unfold takes
  rw [h]
  rfl

theorem scan_eq {p : α → Bool} {c : α} (h : b.drop i = seg ++ c :: rest)
    (hseg : ∀ a ∈ seg, p a = true) (hc : p c = false) :
    scan e p b i = .returned (i + seg.length) := by
  unfold scan
  rw [walk_eq h (foldlM_takes hseg) (takes_of_false hc ())]
  rfl

theorem scan_of_stop {p : α → Bool} {j : ℕ} (hi : i ≤ j) (h : ∃ a, b[j]? = some a ∧ p a = false) :
    ∃ k, scan e p b i = .returned k ∧ i ≤ k ∧ k ≤ j := by
  obtain ⟨a, ha, hp⟩ := h
  obtain ⟨_, k, hrun, hik, hkj⟩ := walk_of_stop (e := e) (f := takes p) (s := ()) hi
    ⟨a, ha, takes_of_false hp⟩
  refine ⟨k, ?_, hik, hkj⟩
  unfold scan
  rw [hrun]
  rfl

theorem scanWithin_eq {p : α → Bool} {c : α} {n : ℕ} (h : b.drop i = seg ++ c :: rest)
    (hseg : ∀ a ∈ seg, p a = true) (hc : p c = false) (hn : seg.length < n) :
    scanWithin e p b n i = .returned (i + seg.length) := by
  induction seg generalizing i n with
  | nil =>
    obtain ⟨n, rfl⟩ := Nat.exists_eq_succ_of_ne_zero (Nat.zero_lt_of_lt hn).ne'
    rw [scanWithin, read_eq h, Outcome.returned_bind, hc]
    rfl
  | cons d seg ih =>
    obtain ⟨n, rfl⟩ := Nat.exists_eq_succ_of_ne_zero (Nat.zero_lt_of_lt hn).ne'
    rw [List.length_cons] at hn ⊢
    rw [scanWithin, read_eq h, Outcome.returned_bind, if_pos (hseg d List.mem_cons_self),
      ih (drop_succ h) (fun x hx => hseg x (List.mem_cons_of_mem d hx)) (by omega), Nat.add_assoc,
      Nat.add_comm 1]

theorem scanWithin_all {p : α → Bool} (h : b.drop i = seg ++ rest) (hseg : ∀ a ∈ seg, p a = true) :
    scanWithin e p b seg.length i = .returned (i + seg.length) := by
  induction seg generalizing i with
  | nil => rfl
  | cons d seg ih =>
    rw [List.length_cons, scanWithin, read_eq h, Outcome.returned_bind,
      if_pos (hseg d List.mem_cons_self),
      ih (drop_succ h) (fun x hx => hseg x (List.mem_cons_of_mem d hx)), Nat.add_assoc,
      Nat.add_comm 1]

theorem scanWithin_le {p : α → Bool} {n : ℕ} (h : i + n ≤ b.length) :
    ∃ k, scanWithin e p b n i = .returned k ∧ i ≤ k ∧ k ≤ i + n := by
  induction n generalizing i with
  | zero => exact ⟨i, rfl, le_rfl, le_rfl⟩
  | succ n ih =>
    obtain ⟨c, hc⟩ := exists_drop_eq (show i < b.length by omega)
    rw [scanWithin, read_eq hc, Outcome.returned_bind]
    cases p c with
    | false => exact ⟨i, rfl, le_rfl, by omega⟩
    | true =>
      obtain ⟨k, hk, h1, h2⟩ := ih (show i + 1 + n ≤ b.length by omega)
      exact ⟨k, hk, by omega, by omega⟩

end Tasan.Buffer
