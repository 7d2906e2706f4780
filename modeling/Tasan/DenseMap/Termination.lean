import Tasan.DenseMap.Refinement

/-!
# The probe loops end

The loops of `doFind` and `LookupBucketFor` have no bound of their own. They end because the triangular
probe sequence visits every bucket of a table whose size is a power of two, and some bucket is empty.
Both facts are part of the invariant `Map.Ok`, which every public operation keeps while the tables have
fewer than `2^29` entries.
-/

namespace Tasan.DenseMap

open Probing

variable {ι K V : Type} [DecidableEq ι] [DecidableEq K] {cfg : Config K V}

/-! ## The loops -/

theorem findLoop_isSome {m : Map K V} {k : ℕ} (hk : k ≤ 31) (hn : m.numBuckets = 2^k) (val : K)
    {h T : ℕ} (hT : T < 2^k) (hempty : m.key (probe (2^k) h T) = cfg.emptyKey) (fuel : ℕ) {t : ℕ}
    (hle : t ≤ T) (hfuel : T < t + fuel) :
    (m.findLoop cfg val fuel (probe (2^k) h t) (t + 1)).isSome = true := by
  induction fuel generalizing t with
  | zero => omega
  | succ fuel ih =>
    unfold Map.findLoop
    split_ifs with hval hkey
    · rfl
    · rfl
    · have hne : t ≠ T := by
        rintro rfl
        exact hkey hempty
      obtain ⟨hb, hp⟩ := probe_next hk h (t := t) (by omega)
      rw [hn, hb, hp]
      exact ih (by omega) (by omega)

theorem lookupLoop_isSome {m : Map K V} {k : ℕ} (hk : k ≤ 31) (hn : m.numBuckets = 2^k) (val : K)
    {h T : ℕ} (hT : T < 2^k) (hempty : m.key (probe (2^k) h T) = cfg.emptyKey) (fuel : ℕ) {t : ℕ}
    (hle : t ≤ T) (hfuel : T < t + fuel) (tombstone : Option ℕ) :
    (m.lookupLoop cfg val fuel (probe (2^k) h t) (t + 1) tombstone).isSome = true := by
  induction fuel generalizing t tombstone with
  | zero => omega
  | succ fuel ih =>
    unfold Map.lookupLoop
    split_ifs with hval hkey
    · rfl
    · rfl
    all_goals
      have hne : t ≠ T := by
        rintro rfl
        exact hkey hempty
      obtain ⟨hb, hp⟩ := probe_next hk h (t := t) (by omega)
      rw [hn, hb, hp]
      exact ih (by omega) (by omega) _

/-- The buckets that are not empty. -/
def Map.usedSet (cfg : Config K V) (m : Map K V) : Finset ℕ :=
  (Finset.range m.numBuckets).filter fun b => m.key b ≠ cfg.emptyKey

/-- The counters count the buckets that are not empty. -/
theorem Map.Ok.card_usedSet {m : Map K V} (hm : m.Ok cfg) :
    (m.usedSet cfg).card = m.numEntries + m.numTombstones := by
  have hunion : m.usedSet cfg = m.liveSet cfg ∪ m.tombSet cfg := by
    ext b
    simp only [Map.usedSet, Map.liveSet, Map.tombSet, Finset.mem_union, Finset.mem_filter,
      Config.live_iff]
    have hmarkers := cfg.empty_ne_tombstone
    constructor
    · rintro ⟨hb, hne⟩
      rcases eq_or_ne (m.key b) cfg.tombstoneKey with ht | ht
      · exact Or.inr ⟨hb, ht⟩
      · exact Or.inl ⟨hb, hne, ht⟩
    · rintro (⟨hb, hne, -⟩ | ⟨hb, ht⟩)
      · exact ⟨hb, hne⟩
      · exact ⟨hb, by rw [ht]; exact hmarkers.symm⟩
  have hdisj : Disjoint (m.liveSet cfg) (m.tombSet cfg) := by
    rw [Finset.disjoint_left]
    intro b hlive htomb
    rw [Map.liveSet, Finset.mem_filter] at hlive
    rw [Map.tombSet, Finset.mem_filter] at htomb
    exact (Config.live_iff.mp hlive.2).2 htomb.2
  rw [hunion, Finset.card_union_of_disjoint hdisj, ← hm.entries, ← hm.tombstones]

/-! ## Runs -/

/-- The key that an operation is called with is not one of the markers. -/
def Op.KeyLive (cfg : Config K V) : Op ι K V → Prop
  | .insert _ key _ | .index _ key | .assign _ key _ | .erase _ key | .eraseBucket _ key
  | .find _ key | .lookup _ key => cfg.live key = true
  | _ => True

/-- The operation does not bring a table to `2^29` entries. -/
def Op.Fits (ms : ι → Map K V) : Op ι K V → Prop
  | .insert i key _ | .index i key | .assign i key _ =>
    (∃ b < (ms i).numBuckets, (ms i).key b = key) ∨ (ms i).numEntries + 1 < 2^29
  | _ => True

/-- The tables that can be reached by public operations, with fewer than `2^29` entries. -/
inductive Reachable (cfg : Config K V) : (ι → Map K V) → Prop
  /-- Constructors. -/
  | init {reserve : ι → ℕ} {ms : ι → Map K V} :
      (∀ i, Map.init cfg (reserve i) = some (ms i)) → Reachable cfg ms
  /-- A table is destroyed and constructed again. -/
  | renew {ms : ι → Map K V} {i : ι} {reserve : ℕ} {m : Map K V} :
      Reachable cfg ms → Map.init cfg reserve = some m → Reachable cfg (Function.update ms i m)
  /-- An operation. -/
  | op {ms ms' : ι → Map K V} {op : Op ι K V} {r : Result V} :
      Reachable cfg ms → op.KeyLive cfg → op.Fits ms → op.exec cfg ms = some (ms', r) →
      Reachable cfg ms'

open Classical in
/-- The partial function that a table represents. -/
noncomputable def Map.toFun (cfg : Config K V) (m : Map K V) (key : K) : Option V :=
  if h : cfg.live key = true ∧ ∃ b < m.numBuckets, m.key b = key then
    some (m.buckets h.2.choose).2
  else none

theorem Map.Ok.represents_toFun {m : Map K V} (hm : m.Ok cfg) : m.Represents cfg (m.toFun cfg) := by
  intro key value
  rw [Map.toFun]
  split_ifs with h
  · obtain ⟨hb, hkey⟩ := h.2.choose_spec
    constructor
    · intro hvalue
      exact ⟨h.1, _, hb, Prod.ext hkey (Option.some.inj hvalue)⟩
    · rintro ⟨-, b, hb', hbucket⟩
      have hkey' : m.key b = key := by rw [Map.key, hbucket]
      have heq := hm.inj b hb' _ hb (by rw [hkey']; exact h.1) (hkey'.trans hkey.symm)
      rw [← heq, hbucket]
  · refine iff_of_false (by simp) ?_
    rintro ⟨hlive, b, hb, hbucket⟩
    exact h ⟨hlive, b, hb, by rw [Map.key, hbucket]⟩

theorem insertNew_isSome {m : Map K V} (hm : m.Ok cfg) {f : K → Option V}
    (hf : m.Represents cfg f) {key : K} (hlive : cfg.live key = true)
    (hfits : (∃ b < m.numBuckets, m.key b = key) ∨ m.numEntries + 1 < 2^29) (value : V) :
    ∃ f', insertNew f key value = some f' := by
  unfold insertNew
  split_ifs with hnone hsmall
  · exact ⟨_, rfl⟩
  · exact ⟨_, rfl⟩
  · exfalso
    rcases hfits with ⟨b, hb, rfl⟩ | hlt
    · have hsome : f (m.key b) = some (m.buckets b).2 := (hf _ _).mpr ⟨hlive, b, hb, rfl⟩
      exact hnone (by rw [hsome]; simp)
    · rw [hm.numEntries_eq hf] at hlt
      exact hsmall hlt

/-- An operation that has been carried out is defined on the partial functions. -/
theorem Op.denote_isSome {ms : ι → Map K V} {fs : ι → K → Option V} (hrel : Related cfg ms fs)
    {op : Op ι K V} (hlive : op.KeyLive cfg) (hfits : op.Fits ms)
    {p : (ι → Map K V) × Result V} (hexec : op.exec cfg ms = some p) :
    ∃ q, op.denote cfg fs = some q := by
  cases op with
  | insert i key value =>
    obtain ⟨f', hf'⟩ := insertNew_isSome (hrel i).1 (hrel i).2 hlive hfits value
    exact ⟨_, (if_pos hlive).trans (by rw [hf']; rfl)⟩
  | index i key =>
    obtain ⟨f', hf'⟩ := insertNew_isSome (hrel i).1 (hrel i).2 hlive hfits cfg.defaultValue
    exact ⟨_, (if_pos hlive).trans (by rw [hf']; rfl)⟩
  | assign i key value =>
    obtain ⟨f', hf'⟩ := insertNew_isSome (hrel i).1 (hrel i).2 hlive hfits value
    exact ⟨_, (if_pos hlive).trans (by rw [hf']; rfl)⟩
  | erase i key => exact ⟨_, if_pos hlive⟩
  | eraseBucket i key =>
    -- A null bucket cannot have been erased.
    have hsome : fs i key ≠ none := by
      intro hnone
      rcases (hrel i).1.doFind_eq (hrel i).2 hlive with ⟨b, -, -, -, hs⟩ | ⟨hfind, -⟩
      · rw [hnone] at hs
        exact absurd hs (by simp)
      · rw [Op.exec, hfind] at hexec
        exact absurd hexec (by simp)
    exact ⟨_, if_pos ⟨hlive, hsome⟩⟩
  | clear i => exact ⟨_, rfl⟩
  | reserve i n => exact ⟨_, rfl⟩
  | find i key => exact ⟨_, if_pos hlive⟩
  | lookup i key => exact ⟨_, if_pos hlive⟩
  | size i => exact ⟨_, rfl⟩
  | swap i j => exact ⟨_, rfl⟩
  | copy i j => exact ⟨_, rfl⟩

/-- Every table that can be reached is in order. -/
theorem Reachable.ok {ms : ι → Map K V} (h : Reachable cfg ms) (i : ι) : (ms i).Ok cfg := by
  induction h generalizing i with
  | init hinit =>
    rename_i reserve ms
    obtain ⟨m, hm, hok, -⟩ := init_spec cfg (reserve i)
    rw [hinit i] at hm
    rw [Option.some.inj hm]
    exact hok
  | renew _ hinit ih =>
    rename_i ms j reserve m _
    obtain ⟨m', hm', hok, -⟩ := init_spec cfg reserve
    rw [hinit] at hm'
    obtain rfl := Option.some.inj hm'
    rcases eq_or_ne i j with rfl | hne
    · rwa [Function.update_self]
    · rw [Function.update_of_ne hne]
      exact ih i
  | op _ hlive hfits hexec ih =>
    rename_i ms ms' op r _
    have hrel : Related cfg ms fun j => (ms j).toFun cfg := fun j => ⟨ih j, (ih j).represents_toFun⟩
    obtain ⟨q, hq⟩ := Op.denote_isSome hrel hlive hfits hexec
    obtain ⟨ms'', hexec', hrel'⟩ := Op.exec_simulates hrel hq
    rw [hexec] at hexec'
    obtain ⟨rfl, -⟩ := Prod.mk.inj (Option.some.inj hexec')
    exact (hrel' i).1

/-! ## Termination -/

/-- In every state that public operations can reach with fewer than `2^29` entries, a table with
buckets has a power of two of them, the counters count the buckets that are not empty, and one bucket
is empty. The probe sequence from any hash value visits every bucket, so that the loops of `doFind` and
`LookupBucketFor` end for every key and every hash value. -/
theorem probes_terminate (ms : ι → Map K V) (h : Reachable cfg ms) (i : ι) :
    (ms i).numEntries + (ms i).numTombstones = ((ms i).usedSet cfg).card ∧
    ((ms i).numBuckets ≠ 0 →
      (∃ k, (ms i).numBuckets = 2^k) ∧
      (∃ b < (ms i).numBuckets, (ms i).key b = cfg.emptyKey) ∧
      (∀ hash, ∀ b < (ms i).numBuckets, ∃ t < (ms i).numBuckets,
        probe (ms i).numBuckets hash t = b) ∧
      ∀ val hash,
        ((ms i).findLoop cfg val (ms i).numBuckets
          (hash &&& Word.sub 32 (ms i).numBuckets 1) 1).isSome = true ∧
        ((ms i).lookupLoop cfg val (ms i).numBuckets
          (hash &&& Word.sub 32 (ms i).numBuckets 1) 1 none).isSome = true) ∧
    ∀ val, ((ms i).doFind cfg val).isSome = true := by
  have hm := h.ok i
  generalize ms i = m at hm
  have hloops : m.numBuckets ≠ 0 → ∀ val hash,
      (m.findLoop cfg val m.numBuckets (hash &&& Word.sub 32 m.numBuckets 1) 1).isSome = true ∧
      (m.lookupLoop cfg val m.numBuckets (hash &&& Word.sub 32 m.numBuckets 1) 1 none).isSome =
        true := by
    intro h0 val hash
    obtain ⟨k, hk, hn⟩ := hm.pow.resolve_left h0
    obtain ⟨T, hT, hempty, -⟩ := hm.first_empty hn hash
    rw [hn, probe_start hk]
    exact ⟨findLoop_isSome hk hn val hT hempty (2^k) (Nat.zero_le T) (by omega),
      lookupLoop_isSome hk hn val hT hempty (2^k) (Nat.zero_le T) (by omega) none⟩
  refine ⟨hm.card_usedSet.symm, fun h0 => ⟨?_, hm.exists_empty h0, ?_, hloops h0⟩, fun val => ?_⟩
  · obtain ⟨k, -, hn⟩ := hm.pow.resolve_left h0
    exact ⟨k, hn⟩
  · intro hash b hb
    obtain ⟨k, -, hn⟩ := hm.pow.resolve_left h0
    rw [hn] at hb ⊢
    exact exists_probe_eq hash hb
  · unfold Map.doFind
    split_ifs with h0
    · rfl
    · exact (hloops h0 val (cfg.hash val)).1

/-- A table in which a key has been inserted still has an empty bucket. -/
theorem probes_terminate_insert : ∃ ms : Unit → Map ℕ ℕ, Reachable numbers ms ∧
    (ms ()).numBuckets ≠ 0 ∧ ∃ b < (ms ()).numBuckets, (ms ()).key b = numbers.emptyKey := by
  obtain ⟨m₀, hinit, hok, hrep⟩ := init_spec numbers 0
  have hlive : numbers.live 5 = true := by decide
  have hsize : size (fun _ : ℕ => (none : Option ℕ)) = 0 := by simp [size]
  have h₀ : Reachable numbers (fun _ : Unit => m₀) := Reachable.init fun _ => hinit
  have hrel : Related numbers (fun _ : Unit => m₀) fun _ _ => none := fun _ => ⟨hok, hrep⟩
  have hdenote : (Op.insert () 5 7).denote numbers (fun _ _ => none) =
      some (Function.update (fun _ _ => none) () (Function.update (fun _ => none) 5 (some 7)),
        .inserted 7 true) := by
    simp [Op.denote, insertNew, hlive, hsize]
  obtain ⟨ms, hexec, hrel'⟩ := Op.exec_simulates hrel hdenote
  have hfits : (Op.insert () 5 7).Fits (fun _ : Unit => m₀) :=
    Or.inr (by rw [hok.numEntries_eq hrep, hsize]; norm_num)
  have hkey : (Op.insert () 5 7 : Op Unit ℕ ℕ).KeyLive numbers := hlive
  have h₁ : Reachable numbers ms := h₀.op hkey hfits hexec
  obtain ⟨-, b, hb, -⟩ := ((hrel' ()).2 5 7).mp (by simp)
  have h0 : (ms ()).numBuckets ≠ 0 := by omega
  exact ⟨ms, h₁, h0, ((probes_terminate ms h₁ ()).2.1 h0).2.1⟩

end Tasan.DenseMap
