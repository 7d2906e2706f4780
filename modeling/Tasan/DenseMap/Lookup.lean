import Tasan.Probing
import Tasan.DenseMap.Model

/-!
# The invariant of a DenseMap, and what a lookup finds

Every key in the table can be reached: no empty bucket comes before it in its probe sequence. There is
always an empty bucket, so that a lookup of an absent key ends at one, and then the key is nowhere in
the table. A bucket that `LookupBucketFor` offers for an absent key is one that keeps this so.
-/

namespace Tasan.DenseMap

open Probing

variable {K V : Type} [DecidableEq K] {cfg : Config K V}

/-- The buckets with live keys. -/
def Map.liveSet (cfg : Config K V) (m : Map K V) : Finset ℕ :=
  (Finset.range m.numBuckets).filter fun b => cfg.live (m.key b) = true

/-- The buckets with tombstones. -/
def Map.tombSet (cfg : Config K V) (m : Map K V) : Finset ℕ :=
  (Finset.range m.numBuckets).filter fun b => m.key b = cfg.tombstoneKey

/-- A bucket is in the probe sequence of a key before any empty bucket, or it is the first one. -/
def Map.Reaches (cfg : Config K V) (m : Map K V) (key : K) (b : ℕ) : Prop :=
  ∃ t < m.numBuckets, probe m.numBuckets (cfg.hash key) t = b ∧
    ∀ s < t, m.key (probe m.numBuckets (cfg.hash key) s) ≠ cfg.emptyKey

/-- The invariant of a map. -/
structure Map.Ok (cfg : Config K V) (m : Map K V) : Prop where
  /-- The number of buckets is zero or a power of two. -/
  pow : m.numBuckets = 0 ∨ ∃ k ≤ 31, m.numBuckets = 2^k
  /-- The buffer fills more than half a page. -/
  page : m.numBuckets = 0 ∨ cfg.pageSize < cfg.bucketSize * m.numBuckets * 2
  /-- `NumEntries` counts the live buckets. -/
  entries : m.numEntries = (m.liveSet cfg).card
  /-- `NumTombstones` counts the tombstones. -/
  tombstones : m.numTombstones = (m.tombSet cfg).card
  /-- There is an empty bucket. -/
  room : m.numBuckets ≠ 0 → m.numEntries + m.numTombstones < m.numBuckets
  /-- No key is in two buckets. -/
  inj : ∀ b < m.numBuckets, ∀ c < m.numBuckets, cfg.live (m.key b) = true →
    m.key b = m.key c → b = c
  /-- Every key can be reached. -/
  path : ∀ b < m.numBuckets, cfg.live (m.key b) = true → m.Reaches cfg (m.key b) b

theorem Config.live_iff {key : K} :
    cfg.live key = true ↔ key ≠ cfg.emptyKey ∧ key ≠ cfg.tombstoneKey := by
  simp [Config.live]

theorem Map.Ok.exists_empty {m : Map K V} (hm : m.Ok cfg) (h0 : m.numBuckets ≠ 0) :
    ∃ b < m.numBuckets, m.key b = cfg.emptyKey := by
  by_contra hall
  push Not at hall
  have hcover : Finset.range m.numBuckets ⊆ m.liveSet cfg ∪ m.tombSet cfg := by
    intro b hb
    rw [Finset.mem_union, Map.liveSet, Map.tombSet, Finset.mem_filter, Finset.mem_filter]
    by_cases ht : m.key b = cfg.tombstoneKey
    · exact Or.inr ⟨hb, ht⟩
    · exact Or.inl ⟨hb, Config.live_iff.mpr ⟨hall b (Finset.mem_range.mp hb), ht⟩⟩
  have hcard := (Finset.card_le_card hcover).trans (Finset.card_union_le _ _)
  rw [Finset.card_range, ← hm.entries, ← hm.tombstones] at hcard
  have hroom := hm.room h0
  omega

/-! ## The probe sequence -/

theorem probe_start {k : ℕ} (hk : k ≤ 31) (h : ℕ) :
    h &&& Word.sub 32 (2^k) 1 = probe (2^k) h 0 := by
  rw [Word.and_mask (by omega)]
  simp [probe]

theorem probe_next {k : ℕ} (hk : k ≤ 31) (h : ℕ) {t : ℕ} (ht : t < 2^k) :
    Word.add 32 (probe (2^k) h t) (t + 1) &&& Word.sub 32 (2^k) 1 = probe (2^k) h (t + 1) ∧
      Word.add 32 (t + 1) 1 = t + 1 + 1 := by
  have hpow : 2^k ≤ 2^31 := Nat.pow_le_pow_right (by norm_num) hk
  constructor
  · rw [Word.and_mask (by omega), Word.add, probe_succ]
    exact Nat.mod_mod_of_dvd _ (pow_dvd_pow 2 (by omega))
  · apply Word.add_of_lt
    omega

theorem probe_lt {k : ℕ} (h t : ℕ) : probe (2^k) h t < 2^k := Nat.mod_lt _ (by positivity)

theorem Map.Ok.first_empty {m : Map K V} (hm : m.Ok cfg) {k : ℕ} (hn : m.numBuckets = 2^k)
    (h : ℕ) : ∃ t < 2^k, m.key (probe (2^k) h t) = cfg.emptyKey ∧
      ∀ s < t, m.key (probe (2^k) h s) ≠ cfg.emptyKey := by
  classical
  obtain ⟨b, hb, hempty⟩ := hm.exists_empty (by rw [hn]; positivity)
  rw [hn] at hb
  obtain ⟨t, ht, hprobe⟩ := exists_probe_eq h hb
  have hex : ∃ t, m.key (probe (2^k) h t) = cfg.emptyKey := ⟨t, by rw [hprobe]; exact hempty⟩
  refine ⟨Nat.find hex, ?_, Nat.find_spec hex, fun s hs => Nat.find_min hex hs⟩
  exact lt_of_le_of_lt (Nat.find_min' hex (by rw [hprobe]; exact hempty)) ht

/-- The loop of `doFind` ends at the key, or at the first empty bucket. -/
theorem findLoop_spec {m : Map K V} {k : ℕ} (hk : k ≤ 31) (hn : m.numBuckets = 2^k) {val : K}
    {T : ℕ} (hT : T < 2^k) (hempty : m.key (probe (2^k) (cfg.hash val) T) = cfg.emptyKey)
    (fuel : ℕ) {t : ℕ} (hle : t ≤ T) (hfuel : T < t + fuel)
    (hbefore : ∀ s < t, m.key (probe (2^k) (cfg.hash val) s) ≠ val) :
    (∃ s, m.findLoop cfg val fuel (probe (2^k) (cfg.hash val) t) (t + 1) =
        some (some (probe (2^k) (cfg.hash val) s)) ∧ m.key (probe (2^k) (cfg.hash val) s) = val) ∨
      m.findLoop cfg val fuel (probe (2^k) (cfg.hash val) t) (t + 1) = some none ∧
        ∃ T' ≤ T, m.key (probe (2^k) (cfg.hash val) T') = cfg.emptyKey ∧
          ∀ s ≤ T', m.key (probe (2^k) (cfg.hash val) s) ≠ val := by
  induction fuel generalizing t with
  | zero => omega
  | succ fuel ih =>
    unfold Map.findLoop
    split_ifs with hval hkey
    · exact Or.inl ⟨t, rfl, hval⟩
    · refine Or.inr ⟨rfl, t, hle, hkey, fun s hs => ?_⟩
      rcases Nat.lt_or_eq_of_le hs with hlt | rfl
      · exact hbefore s hlt
      · exact hval
    · have hne : t ≠ T := by
        rintro rfl
        exact hkey hempty
      obtain ⟨hb, hp⟩ := probe_next hk (cfg.hash val) (t := t) (by omega)
      rw [hn, hb, hp]
      apply ih (by omega) (by omega)
      intro s hs
      rcases Nat.lt_succ_iff_lt_or_eq.mp hs with hlt | rfl
      · exact hbefore s hlt
      · exact hval

theorem Map.Ok.absent {m : Map K V} (hm : m.Ok cfg) {k : ℕ} (hn : m.numBuckets = 2^k) {val : K}
    (hlive : cfg.live val = true) {T : ℕ}
    (hempty : m.key (probe (2^k) (cfg.hash val) T) = cfg.emptyKey)
    (hbefore : ∀ s ≤ T, m.key (probe (2^k) (cfg.hash val) s) ≠ val) :
    ∀ b < m.numBuckets, m.key b ≠ val := by
  rintro b hb rfl
  obtain ⟨t, -, hprobe, hpath⟩ := hm.path b hb hlive
  rw [hn] at hprobe hpath
  rcases Nat.lt_or_ge T t with hlt | hge
  · exact hpath T hlt hempty
  · exact hbefore t hge (by rw [hprobe])

theorem Map.Ok.doFind_spec {m : Map K V} (hm : m.Ok cfg) {val : K} (hlive : cfg.live val = true) :
    (∃ b < m.numBuckets, m.doFind cfg val = some (some b) ∧ m.key b = val) ∨
      (m.doFind cfg val = some none ∧ ∀ b < m.numBuckets, m.key b ≠ val) := by
  unfold Map.doFind
  split_ifs with h0
  · exact Or.inr ⟨rfl, fun b hb => absurd hb (by omega)⟩
  · obtain ⟨k, hk, hn⟩ := hm.pow.resolve_left h0
    obtain ⟨T, hT, hempty, -⟩ := hm.first_empty hn (cfg.hash val)
    have hloop := findLoop_spec hk hn hT hempty (2^k) (Nat.zero_le T) (by omega) (by simp)
    rw [hn, probe_start hk]
    rcases hloop with ⟨s, hloop, hkey⟩ | ⟨hloop, T', -, hempty', hbefore⟩
    · exact Or.inl ⟨_, probe_lt _ _, hloop, hkey⟩
    · exact Or.inr ⟨hloop, fun b hb => hm.absent hn hlive hempty' hbefore b (by rw [hn]; exact hb)⟩

/-- A bucket holds a marker. -/
def Map.Vacant (cfg : Config K V) (m : Map K V) (b : ℕ) : Prop :=
  m.key b = cfg.emptyKey ∨ m.key b = cfg.tombstoneKey

/-- The loop of `LookupBucketFor` ends at the key, or offers a bucket before the first empty one. -/
theorem lookupLoop_spec {m : Map K V} {k : ℕ} (hk : k ≤ 31) (hn : m.numBuckets = 2^k) {val : K}
    {T : ℕ} (hT : T < 2^k) (hempty : m.key (probe (2^k) (cfg.hash val) T) = cfg.emptyKey)
    (fuel : ℕ) {t : ℕ} (ft : Option ℕ) (hle : t ≤ T) (hfuel : T < t + fuel)
    (hbefore : ∀ s < t, m.key (probe (2^k) (cfg.hash val) s) ≠ val)
    (hft : ∀ b, ft = some b → m.key b = cfg.tombstoneKey ∧
      ∃ s < t, probe (2^k) (cfg.hash val) s = b) :
    (∃ s, m.lookupLoop cfg val fuel (probe (2^k) (cfg.hash val) t) (t + 1) ft =
        some (true, probe (2^k) (cfg.hash val) s) ∧
        m.key (probe (2^k) (cfg.hash val) s) = val) ∨
      ∃ s T', s ≤ T' ∧ T' ≤ T ∧
        m.lookupLoop cfg val fuel (probe (2^k) (cfg.hash val) t) (t + 1) ft =
          some (false, probe (2^k) (cfg.hash val) s) ∧
        m.Vacant cfg (probe (2^k) (cfg.hash val) s) ∧
        m.key (probe (2^k) (cfg.hash val) T') = cfg.emptyKey ∧
        ∀ r ≤ T', m.key (probe (2^k) (cfg.hash val) r) ≠ val := by
  induction fuel generalizing t ft with
  | zero => omega
  | succ fuel ih =>
    unfold Map.lookupLoop
    split_ifs with hval hkey htomb
    · exact Or.inl ⟨t, rfl, hval⟩
    · have hnone : ∀ r ≤ t, m.key (probe (2^k) (cfg.hash val) r) ≠ val := by
        intro r hr
        rcases Nat.lt_or_eq_of_le hr with hlt | rfl
        · exact hbefore r hlt
        · exact hval
      cases ft with
      | none => exact Or.inr ⟨t, t, le_rfl, hle, rfl, Or.inl hkey, hkey, hnone⟩
      | some b =>
        obtain ⟨hb, s, hs, rfl⟩ := hft b rfl
        exact Or.inr ⟨s, t, hs.le, hle, rfl, Or.inr hb, hkey, hnone⟩
    all_goals
      have hne : t ≠ T := by
        rintro rfl
        exact hkey hempty
      obtain ⟨hb, hp⟩ := probe_next hk (cfg.hash val) (t := t) (by omega)
      rw [hn, hb, hp]
      apply ih _ (by omega) (by omega)
    · intro s hs
      rcases Nat.lt_succ_iff_lt_or_eq.mp hs with hlt | rfl
      · exact hbefore s hlt
      · exact hval
    · intro b hb
      obtain rfl := Option.some.inj hb
      exact ⟨htomb.1, t, Nat.lt_succ_self t, rfl⟩
    · intro s hs
      rcases Nat.lt_succ_iff_lt_or_eq.mp hs with hlt | rfl
      · exact hbefore s hlt
      · exact hval
    · intro b hb
      obtain ⟨hkeyb, s, hs, hprobe⟩ := hft b hb
      exact ⟨hkeyb, s, Nat.lt_succ_of_lt hs, hprobe⟩

/-- `LookupBucketFor` finds the bucket of a key that is in the table. For one that is not it offers a
bucket that the key can be stored in. -/
theorem Map.Ok.lookupBucketFor_spec {m : Map K V} (hm : m.Ok cfg) (h0 : m.numBuckets ≠ 0) {val : K}
    (hlive : cfg.live val = true) :
    (∃ b < m.numBuckets, m.lookupBucketFor cfg val = some (true, some b) ∧ m.key b = val) ∨
      ∃ b < m.numBuckets, m.lookupBucketFor cfg val = some (false, some b) ∧ m.Vacant cfg b ∧
        m.Reaches cfg val b ∧ ∀ c < m.numBuckets, m.key c ≠ val := by
  obtain ⟨k, hk, hn⟩ := hm.pow.resolve_left h0
  obtain ⟨T, hT, hempty, hfirst⟩ := hm.first_empty hn (cfg.hash val)
  have hmarker : ¬(val = cfg.emptyKey ∨ val = cfg.tombstoneKey) := by
    rw [not_or]
    exact Config.live_iff.mp hlive
  unfold Map.lookupBucketFor
  rw [if_neg h0, if_neg hmarker, hn, probe_start hk]
  rcases lookupLoop_spec hk hn hT hempty (2^k) none (Nat.zero_le T) (by omega)
    (by simp) (by simp) with ⟨s, hloop, hkey⟩ | ⟨s, T', hs, hT', hloop, hvacant, hempty', hbefore⟩
  · refine Or.inl ⟨_, probe_lt _ s, ?_, hkey⟩
    rw [hloop]
    rfl
  · have hTT : T' = T := by
      rcases Nat.lt_or_eq_of_le hT' with hlt | heq
      · exact absurd hempty' (hfirst T' hlt)
      · exact heq
    refine Or.inr ⟨_, probe_lt _ s, ?_, hvacant, ⟨s, by omega, by rw [hn], ?_⟩, ?_⟩
    · rw [hloop]
      rfl
    · intro r hr
      rw [hn]
      exact hfirst r (by omega)
    · intro c hc
      exact hm.absent hn hlive hempty' hbefore c (by rw [hn]; exact hc)

end Tasan.DenseMap
