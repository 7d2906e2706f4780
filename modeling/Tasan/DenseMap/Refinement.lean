import Tasan.Simulation
import Tasan.DenseMap.Update

/-!
# A DenseMap is a finite map

The operations of `DenseMap` do what the same operations do on a partial function from keys to values,
while the map has fewer than `2^29` entries. The entries are moved to a new buffer when the old one is
too full or has too many tombstones; `grow` keeps the pairs in the table and leaves no tombstones.
-/

namespace Tasan.DenseMap

open Simulation

variable {K V : Type} [DecidableEq K] {cfg : Config K V}

/-! ## Growing -/

/-- The live buckets below `j`. -/
def Map.liveBelow (cfg : Config K V) (m : Map K V) (j : ℕ) : Finset ℕ :=
  (Finset.range j).filter fun b => cfg.live (m.key b) = true

theorem card_liveBelow_succ (m : Map K V) (j : ℕ) : (m.liveBelow cfg (j + 1)).card =
    (m.liveBelow cfg j).card + if cfg.live (m.key j) = true then 1 else 0 := by
  unfold Map.liveBelow
  rw [Finset.range_add_one, Finset.filter_insert]
  split_ifs
  · rw [Finset.card_insert_of_notMem (by simp)]
  · rfl

/-- The first `j` rounds of `moveFromOldBuckets`. -/
theorem foldlM_moveBucket {old : Map K V} (hold : old.Ok cfg) {m₀ : Map K V} (hm₀ : m₀.Ok cfg)
    (hkeys : ∀ b < m₀.numBuckets, m₀.key b = cfg.emptyKey) (he : m₀.numEntries = 0)
    (ht : m₀.numTombstones = 0) (hlt : old.numEntries < m₀.numBuckets) {j : ℕ}
    (hj : j ≤ old.numBuckets) :
    ∃ m, (List.range j).foldlM (moveBucket cfg old) m₀ = some m ∧ m.Ok cfg ∧
      m.numBuckets = m₀.numBuckets ∧ m.numTombstones = 0 ∧
      m.numEntries = (old.liveBelow cfg j).card ∧
      ∀ k, cfg.live k = true → ∀ v, m.Holds k v ↔ ∃ b < j, old.buckets b = (k, v) := by
  induction j with
  | zero =>
    refine ⟨m₀, rfl, hm₀, rfl, ht, by rw [he]; rfl, fun k hk v => ?_⟩
    simpa using not_holds_of_empty hkeys hk v
  | succ j ih =>
    obtain ⟨m, hfold, hm, hn, htomb, hentries, hholds⟩ := ih (by omega)
    rw [List.range_succ, List.foldlM_append, hfold, Option.bind_eq_bind, Option.bind_some,
      List.foldlM_cons]
    by_cases hlive : cfg.live (old.key j) = true
    · -- the key is not yet in the new table, and there is room for it
      have habsent : ∀ c < m.numBuckets, m.key c ≠ old.key j := by
        intro c hc heq
        obtain ⟨b, hb, hbeq⟩ := (hholds _ hlive (m.buckets c).2).mp
          ⟨c, hc, Prod.ext heq rfl⟩
        have hkey : old.key b = old.key j := by rw [Map.key, hbeq]
        have hbj : b = j := hold.inj b (by omega) j (by omega) (by rw [hkey]; exact hlive) hkey
        omega
      have hcount : (old.liveBelow cfg (j + 1)).card ≤ old.numEntries := by
        rw [hold.entries]
        apply Finset.card_le_card
        apply Finset.filter_subset_filter
        exact Finset.range_subset_range.mpr hj
      rw [card_liveBelow_succ, if_pos hlive] at hcount
      have hle := hm.numBuckets_le
      rcases hm.lookupBucketFor_spec (by omega) hlive with
        ⟨b, hb, -, hkey⟩ | ⟨b, hb, hlook, hvacant, hreach, -⟩
      · exact absurd hkey (habsent b hb)
      have hempty : m.key b = cfg.emptyKey := by
        refine hvacant.resolve_right fun h => ?_
        have hmem : b ∈ m.tombSet cfg := Finset.mem_filter.mpr ⟨Finset.mem_range.mpr hb, h⟩
        have hpos := Finset.card_pos.mpr ⟨b, hmem⟩
        rw [← hm.tombstones] at hpos
        omega
      have hmove : moveBucket cfg old m j =
          some (m.fill cfg b (old.key j) (old.buckets j).2) := by
        unfold moveBucket Map.fill
        rw [if_pos hlive, hlook, Option.bind_some, hempty, if_neg (not_not_intro rfl)]
        rfl
      rw [hmove]
      refine ⟨_, rfl, hm.fill hb hlive hvacant hreach habsent (by omega) _, hn, ?_, ?_, ?_⟩
      · simpa [Map.fill, hempty] using htomb
      · rw [card_liveBelow_succ, if_pos hlive, ← hentries]
        exact Word.add_of_lt (by omega)
      · intro k hk v
        rw [Map.holds_fill hb hvacant _ _ hk, hholds k hk]
        constructor
        · rintro (⟨rfl, rfl⟩ | ⟨c, hc, heq⟩)
          · exact ⟨j, Nat.lt_succ_self j, rfl⟩
          · exact ⟨c, Nat.lt_succ_of_lt hc, heq⟩
        · rintro ⟨c, hc, heq⟩
          rcases Nat.lt_succ_iff_lt_or_eq.mp hc with hlt | rfl
          · exact Or.inr ⟨c, hlt, heq⟩
          · exact Or.inl ⟨by rw [Map.key, heq], by rw [heq]⟩
    · have hmove : moveBucket cfg old m j = some m := if_neg hlive
      rw [hmove]
      refine ⟨m, rfl, hm, hn, htomb, ?_, ?_⟩
      · rw [card_liveBelow_succ, if_neg hlive, hentries]
        rfl
      · intro k hk v
        rw [hholds k hk]
        constructor
        · rintro ⟨c, hc, heq⟩
          exact ⟨c, Nat.lt_succ_of_lt hc, heq⟩
        · rintro ⟨c, hc, heq⟩
          rcases Nat.lt_succ_iff_lt_or_eq.mp hc with hlt | rfl
          · exact ⟨c, hlt, heq⟩
          · rw [Map.key, heq] at hlive
            exact absurd hk hlive

/-- `grow` keeps the pairs, leaves no tombstones, and makes the table large enough. -/
theorem Map.Ok.grow {m : Map K V} (hm : m.Ok cfg) {atLeast : ℕ} (hle : atLeast ≤ 2^31)
    (hlt : m.numEntries < max 64 atLeast) :
    ∃ m', m.grow cfg atLeast = some m' ∧ m'.Ok cfg ∧ max 64 atLeast ≤ m'.numBuckets ∧
      m'.numTombstones = 0 ∧ m'.numEntries = m.numEntries ∧
      ∀ k, cfg.live k = true → ∀ v, m'.Holds k v ↔ m.Holds k v := by
  obtain ⟨j, hj, hround, hjle⟩ := roundUpToPowerOfTwo_spec (n := max 64 atLeast) (by omega)
    (by omega)
  obtain ⟨k, hk, hjk, halloc, hpage, -⟩ := allocateBuckets_spec cfg hj
  obtain ⟨m₀, hinit, hm₀, hn₀, he₀, ht₀, hkeys₀⟩ := initEmpty_spec cfg hk hpage
  have hpow : 2^j ≤ 2^k := Nat.pow_le_pow_right (by norm_num) hjk
  have hmod : 2^j % 2^32 = 2^j :=
    Nat.mod_eq_of_lt (Nat.pow_lt_pow_right (by norm_num) (by omega))
  unfold Map.grow
  rw [hround, hmod, halloc, Option.bind_some]
  by_cases h0 : m.numBuckets = 0
  · refine ⟨m₀, by simp [h0, hinit], hm₀, by omega, ht₀, ?_, fun k' hk' v => ?_⟩
    · rw [he₀, hm.entries, Map.liveSet, h0]
      rfl
    · refine iff_of_false (not_holds_of_empty hkeys₀ hk' v) ?_
      rintro ⟨b, hb, -⟩
      omega
  · obtain ⟨m', hfold, hm', hn', ht', he', hholds⟩ := foldlM_moveBucket hm hm₀ hkeys₀ he₀ ht₀
      (by omega) le_rfl
    refine ⟨m', by simp [h0, moveFromOldBuckets, hinit, hfold], hm', by omega, ht', ?_, ?_⟩
    · rw [he', hm.entries]
      rfl
    · exact fun k' hk' v => hholds k' hk' v

/-- `makeRoom` leaves a table with room for the key, and a bucket for it. -/
theorem Map.Ok.makeRoom {m : Map K V} (hm : m.Ok cfg) {key : K} (hlive : cfg.live key = true)
    (habsent : ∀ v, ¬m.Holds key v) (hsmall : m.numEntries + 1 < 2^29) {bucket : Option ℕ}
    (hlook : m.lookupBucketFor cfg key = some (false, bucket)) :
    ∃ m' b, m.makeRoom cfg key bucket = some (m', some b) ∧ m'.Ok cfg ∧ b < m'.numBuckets ∧
      m'.Vacant cfg b ∧ m'.Reaches cfg key b ∧ (∀ c < m'.numBuckets, m'.key c ≠ key) ∧
      m'.numEntries + 1 + m'.numTombstones < m'.numBuckets ∧
      ∀ k, cfg.live k = true → ∀ v, m'.Holds k v ↔ m.Holds k v := by
  have hnew : Word.add 32 m.numEntries 1 = m.numEntries + 1 := Word.add_of_lt (by omega)
  have hgrown : ∀ atLeast, atLeast ≤ 2^31 → m.numEntries + 1 < max 64 atLeast →
      ∃ m' b, m.growFor cfg key atLeast = some (m', some b) ∧ m'.Ok cfg ∧ b < m'.numBuckets ∧
        m'.Vacant cfg b ∧ m'.Reaches cfg key b ∧ (∀ c < m'.numBuckets, m'.key c ≠ key) ∧
        m'.numEntries + 1 + m'.numTombstones < m'.numBuckets ∧
        ∀ k, cfg.live k = true → ∀ v, m'.Holds k v ↔ m.Holds k v := by
    intro atLeast hle hlt
    obtain ⟨m', hgrow, hm', hbig, ht', he', hholds⟩ := hm.grow hle (by omega)
    rcases hm'.lookupBucketFor_spec (by omega) hlive with
      ⟨b, hb, -, hkey⟩ | ⟨b, hb, hlook', hvacant, hreach, habs⟩
    · exact absurd ((hholds key hlive _).mp ⟨b, hb, Prod.ext hkey rfl⟩) (habsent _)
    · refine ⟨m', b, ?_, hm', hb, hvacant, hreach, habs, by omega, hholds⟩
      unfold Map.growFor
      rw [hgrow, Option.bind_some, hlook']
      rfl
  have hle := hm.numBuckets_le
  -- below the load limit there are more buckets than entries
  have hcap : ¬m.numBuckets * 3 % 2^32 ≤ (m.numEntries + 1) * 4 % 2^32 →
      m.numEntries + 1 < m.numBuckets := by
    intro hload
    rcases hm.pow with h0 | ⟨k, hk, hn⟩
    · rw [h0] at hload
      exact absurd (Nat.zero_le _) hload
    · rcases Nat.lt_or_eq_of_le hk with hlt | rfl
      · have hpow : 2^k ≤ 2^30 := Nat.pow_le_pow_right (by norm_num) (by omega)
        rw [Nat.mod_eq_of_lt (a := m.numBuckets * 3) (by omega),
          Nat.mod_eq_of_lt (a := (m.numEntries + 1) * 4) (by omega)] at hload
        omega
      · omega
  unfold Map.makeRoom
  dsimp only
  rw [hnew]
  split_ifs with hload htombs
  · -- the load is too high: with fewer than 2^29 entries the number of buckets can be doubled
    have hn : m.numBuckets ≤ 2^30 := by
      rcases hm.pow with h0 | ⟨k, hk, hn⟩
      · omega
      · rcases Nat.lt_or_eq_of_le hk with hlt | rfl
        · rw [hn]
          exact Nat.pow_le_pow_right (by norm_num) (by omega)
        · rw [hn] at hload
          omega
    have hroom := hm.room
    rw [Nat.mod_eq_of_lt (a := m.numBuckets * 2) (by omega)]
    apply hgrown _ (by omega)
    rcases Nat.eq_zero_or_pos m.numBuckets with h0 | hpos
    · have hzero : m.numEntries = 0 := by
        rw [hm.entries, Map.liveSet, h0]
        rfl
      omega
    · have := hroom (by omega)
      omega
  · apply hgrown _ hle
    have := hcap hload
    omega
  · have hcap := hcap hload
    have hroom := hm.room (by omega)
    rw [Word.add_of_lt (by omega), Word.sub_of_le (by omega) (by omega)] at htombs
    rcases hm.lookupBucketFor_spec (by omega) hlive with
      ⟨b, hb, -, hkey⟩ | ⟨b, hb, hlook', hvacant, hreach, habs⟩
    · exact absurd ⟨b, hb, Prod.ext hkey rfl⟩ (habsent _)
    · obtain rfl : bucket = some b := by
        rw [hlook] at hlook'
        simpa using hlook'
      exact ⟨m, b, rfl, hm, hb, hvacant, hreach, habs, by omega, fun _ _ _ => Iff.rfl⟩

/-! ## The map that a table represents -/

/-- The table represents a partial function from keys to values. -/
def Map.Represents (cfg : Config K V) (m : Map K V) (f : K → Option V) : Prop :=
  ∀ k v, f k = some v ↔ cfg.live k = true ∧ m.Holds k v

/-- The number of keys that a partial function is defined for. -/
noncomputable def size (f : K → Option V) : ℕ := Set.ncard {k | f k ≠ none}

theorem Map.Represents.eq_some {m : Map K V} {f : K → Option V} (hf : m.Represents cfg f) {b : ℕ}
    (hb : b < m.numBuckets) (hlive : cfg.live (m.key b) = true) :
    f (m.key b) = some (m.buckets b).2 := (hf _ _).mpr ⟨hlive, b, hb, rfl⟩

theorem Map.Represents.eq_none {m : Map K V} {f : K → Option V} (hf : m.Represents cfg f) {k : K}
    (habsent : ∀ b < m.numBuckets, m.key b ≠ k) : f k = none := by
  rw [Option.eq_none_iff_forall_ne_some]
  intro v hv
  obtain ⟨-, b, hb, heq⟩ := (hf k v).mp hv
  exact habsent b hb (by rw [Map.key, heq])

theorem Map.Ok.numEntries_eq {m : Map K V} (hm : m.Ok cfg) {f : K → Option V}
    (hf : m.Represents cfg f) : m.numEntries = size f := by
  have hkeys : {k | f k ≠ none} = ((m.liveSet cfg).image m.key : Finset K) := by
    ext k
    simp only [Set.mem_ofPred_eq, Finset.coe_image, Set.mem_image, Finset.mem_coe, Map.liveSet,
      Finset.mem_filter, Finset.mem_range, Option.ne_none_iff_exists']
    constructor
    · rintro ⟨v, hv⟩
      obtain ⟨hk, b, hb, heq⟩ := (hf k v).mp hv
      have hkey : m.key b = k := by rw [Map.key, heq]
      exact ⟨b, ⟨hb, by rw [hkey]; exact hk⟩, hkey⟩
    · rintro ⟨b, ⟨hb, hlive⟩, rfl⟩
      exact ⟨_, hf.eq_some hb hlive⟩
  rw [size, hkeys, Set.ncard_coe_finset, Finset.card_image_of_injOn, hm.entries]
  intro b hb c hc heq
  simp only [Map.liveSet, Finset.coe_filter, Finset.mem_range, Set.mem_ofPred_eq] at hb hc
  exact hm.inj b hb.1 c hc.1 hb.2 heq

theorem Map.Ok.doFind_eq {m : Map K V} (hm : m.Ok cfg) {f : K → Option V} (hf : m.Represents cfg f)
    {k : K} (hk : cfg.live k = true) :
    (∃ b < m.numBuckets, m.doFind cfg k = some (some b) ∧ m.key b = k ∧
      f k = some (m.buckets b).2) ∨ (m.doFind cfg k = some none ∧ f k = none) := by
  rcases hm.doFind_spec hk with ⟨b, hb, hfind, rfl⟩ | ⟨hfind, habsent⟩
  · exact Or.inl ⟨b, hb, hfind, rfl, hf.eq_some hb hk⟩
  · exact Or.inr ⟨hfind, hf.eq_none habsent⟩

theorem Map.Ok.tryEmplace_old {m : Map K V} (hm : m.Ok cfg) {f : K → Option V}
    (hf : m.Represents cfg f) {k : K} (hk : cfg.live k = true) {v₀ : V} (hv₀ : f k = some v₀)
    (v : V) : ∃ b < m.numBuckets, m.tryEmplace cfg k v = some (m, b, false) ∧
      m.buckets b = (k, v₀) := by
  obtain ⟨-, c, hc, hceq⟩ := (hf k v₀).mp hv₀
  have hckey : m.key c = k := by rw [Map.key, hceq]
  rcases hm.lookupBucketFor_spec (by omega) hk with ⟨b, hb, hlook, hkey⟩ | ⟨b, -, -, -, -, habsent⟩
  · have hbc : b = c := hm.inj b hb c hc (by rw [hkey]; exact hk) (by rw [hkey, hckey])
    refine ⟨b, hb, ?_, by rw [hbc, hceq]⟩
    unfold Map.tryEmplace
    rw [hlook]
    rfl
  · exact absurd hckey (habsent c hc)

/-- `try_emplace` of a key that the map does not have. -/
theorem Map.Ok.tryEmplace_new {m : Map K V} (hm : m.Ok cfg) {f : K → Option V}
    (hf : m.Represents cfg f) {k : K} (hk : cfg.live k = true) (hnone : f k = none)
    (hsmall : size f + 1 < 2^29) (v : V) :
    ∃ m' b, m.tryEmplace cfg k v = some (m', b, true) ∧ b < m'.numBuckets ∧
      m'.buckets b = (k, v) ∧ m'.Ok cfg ∧ m'.Represents cfg (Function.update f k (some v)) := by
  have habsent : ∀ v, ¬m.Holds k v := by
    intro v hv
    rw [(hf k v).mpr ⟨hk, hv⟩] at hnone
    exact absurd hnone (by simp)
  rw [← hm.numEntries_eq hf] at hsmall
  obtain ⟨bucket, hlook⟩ : ∃ bucket, m.lookupBucketFor cfg k = some (false, bucket) := by
    by_cases h0 : m.numBuckets = 0
    · exact ⟨none, if_pos h0⟩
    · rcases hm.lookupBucketFor_spec h0 hk with ⟨b, hb, -, hkey⟩ | ⟨b, -, hlook, -⟩
      · exact absurd ⟨b, hb, Prod.ext hkey rfl⟩ (habsent _)
      · exact ⟨some b, hlook⟩
  obtain ⟨m', b, hroom, hm', hb, hvacant, hreach, habs, hlt, hholds⟩ :=
    hm.makeRoom hk habsent hsmall hlook
  refine ⟨m'.fill cfg b k v, b, ?_, hb, by simp [Map.fill],
    hm'.fill hb hk hvacant hreach habs hlt v, ?_⟩
  · unfold Map.tryEmplace Map.insertIntoBucket
    rw [hlook, Option.bind_some]
    simp only [hroom]
    rfl
  · intro k' v'
    by_cases hkk : k' = k
    · subst hkk
      rw [Function.update_self, Map.holds_fill hb hvacant _ _ hk, hholds _ hk]
      simp [hk, habsent, eq_comm]
    · rw [Function.update_of_ne hkk, hf k' v']
      refine and_congr_right fun hk' => ?_
      rw [Map.holds_fill hb hvacant _ _ hk', hholds _ hk']
      simp [hkk]

theorem Map.Ok.eraseBucket_represents {m : Map K V} (hm : m.Ok cfg) {f : K → Option V}
    (hf : m.Represents cfg f) {b : ℕ} (hb : b < m.numBuckets) (hlive : cfg.live (m.key b) = true) :
    (m.eraseBucket cfg b).Represents cfg (Function.update f (m.key b) none) := by
  intro k v
  by_cases hkk : k = m.key b
  · rw [hkk, Function.update_self]
    refine iff_of_false (by simp) fun h => ?_
    exact ((hm.holds_eraseBucket hb hlive hlive v).mp h.2).1 rfl
  · rw [Function.update_of_ne hkk, hf k v]
    refine and_congr_right fun hk => ?_
    rw [hm.holds_eraseBucket hb hlive hk]
    simp [hkk]

theorem Map.Ok.assign_represents {m : Map K V} (hm : m.Ok cfg) {f : K → Option V}
    (hf : m.Represents cfg f) {b : ℕ} (hb : b < m.numBuckets) (hlive : cfg.live (m.key b) = true)
    (v : V) : (m.assign b v).Represents cfg (Function.update f (m.key b) (some v)) := by
  intro k v'
  rw [hm.holds_assign hb hlive]
  by_cases hkk : k = m.key b
  · rw [hkk, Function.update_self]
    simp [hlive, eq_comm]
  · rw [Function.update_of_ne hkk, hf k v']
    simp [hkk]

theorem Map.Ok.length_liveBuckets {m : Map K V} (hm : m.Ok cfg) :
    (m.liveBuckets cfg).length = m.numEntries := by
  have hset : m.liveSet cfg = (m.liveBuckets cfg).toFinset := by
    ext b
    simp [Map.liveSet, Map.liveBuckets]
  have hnodup : (m.liveBuckets cfg).Nodup := List.nodup_range.filter _
  rw [hm.entries, hset, List.toFinset_card_of_nodup hnodup]

/-- `clear` empties the map. -/
theorem Map.Ok.clear_spec {m : Map K V} (hm : m.Ok cfg) :
    ∃ m', m.clear cfg = some m' ∧ m'.Ok cfg ∧ m'.Represents cfg fun _ => none := by
  have hle := hm.numBuckets_le
  unfold Map.clear
  split_ifs with h0 hcheck
  · -- a map without entries and tombstones is left alone
    refine ⟨m, rfl, hm, fun k v => iff_of_false (by simp) ?_⟩
    rintro ⟨hk, b, hb, heq⟩
    have hmem : b ∈ m.liveSet cfg :=
      Finset.mem_filter.mpr ⟨Finset.mem_range.mpr hb, by rw [Map.key, heq]; exact hk⟩
    have hpos := Finset.card_pos.mpr ⟨b, hmem⟩
    rw [← hm.entries] at hpos
    omega
  · have hkeys : ∀ b < m.numBuckets,
        Map.key (⟨m.clearKeys cfg, 0, 0, m.numBuckets⟩ : Map K V) b = cfg.emptyKey := by
      intro b hb
      simp [Map.key, Map.clearKeys, hb]
    refine ⟨_, rfl, ?_, fun k v => iff_of_false (by simp) ?_⟩
    · rcases hm.pow with hn | ⟨k, hk, hn⟩
      · exact ok_of_null hn rfl rfl
      · have hpage := hm.page.resolve_left (by rw [hn]; positivity)
        rw [hn] at hpage
        exact ok_of_empty hk hn hpage hkeys rfl rfl
    · rintro ⟨hk, hv⟩
      exact not_holds_of_empty hkeys hk v hv
  · exfalso
    apply hcheck
    refine Or.inr ?_
    have hroom := hm.room
    have hzero : m.numBuckets = 0 → m.numEntries = 0 := by
      intro hn
      rw [hm.entries, Map.liveSet, hn]
      rfl
    rw [hm.length_liveBuckets, Word.sub_of_le le_rfl (by omega), Nat.sub_self]

/-- `reserve` changes the buffer at most. -/
theorem Map.Ok.reserve_spec {m : Map K V} (hm : m.Ok cfg) {f : K → Option V}
    (hf : m.Represents cfg f) (n : ℕ) :
    ∃ m', m.reserve cfg n = some m' ∧ m'.Ok cfg ∧ m'.Represents cfg f := by
  unfold Map.reserve
  split_ifs with hlt
  · rcases getMinBucketToReserveForEntries_spec n with h0 | ⟨k, hk, hn⟩
    · omega
    · have hle : getMinBucketToReserveForEntries n ≤ 2^31 := by
        rw [hn]
        exact Nat.pow_le_pow_right (by norm_num) hk
      have hentries : m.numEntries < max 64 (getMinBucketToReserveForEntries n) := by
        by_cases h0 : m.numBuckets = 0
        · have hzero : m.numEntries = 0 := by
            rw [hm.entries, Map.liveSet, h0]
            rfl
          omega
        · have hroom := hm.room h0
          omega
      obtain ⟨m', hgrow, hm', -, -, -, hholds⟩ := hm.grow hle hentries
      refine ⟨m', hgrow, hm', fun k v => ?_⟩
      rw [hf k v]
      exact and_congr_right fun hk => (hholds k hk v).symm
  · exact ⟨m, rfl, hm, hf⟩

theorem init_spec (cfg : Config K V) (n : ℕ) :
    ∃ m, Map.init cfg n = some m ∧ m.Ok cfg ∧ m.Represents cfg fun _ => none := by
  unfold Map.init
  rcases getMinBucketToReserveForEntries_spec n with h0 | ⟨j, hj, hn⟩
  · rw [h0]
    refine ⟨_, rfl, ok_of_null rfl rfl rfl, fun k v => iff_of_false (by simp) ?_⟩
    rintro ⟨-, b, hb, -⟩
    exact absurd hb (Nat.not_lt_zero b)
  · rw [hn]
    obtain ⟨k, hk, -, halloc, hpage, -⟩ := allocateBuckets_spec cfg hj
    obtain ⟨m, hinit, hm, -, -, -, hkeys⟩ := initEmpty_spec cfg hk hpage
    refine ⟨m, ?_, hm, fun k v => iff_of_false (by simp) ?_⟩
    · rw [halloc]
      exact hinit
    · rintro ⟨hk, hv⟩
      exact not_holds_of_empty hkeys hk v hv

/-- `copyFrom` copies a map. -/
theorem Map.Ok.copyFrom_spec {m : Map K V} (hm : m.Ok cfg) {f : K → Option V}
    (hf : m.Represents cfg f) :
    ∃ m', copyFrom cfg m = some m' ∧ m'.Ok cfg ∧ m'.Represents cfg f := by
  unfold copyFrom
  rcases hm.pow with h0 | ⟨j, hj, hn⟩
  · rw [h0]
    refine ⟨_, rfl, ok_of_null rfl rfl rfl, fun k v => ?_⟩
    rw [hf k v]
    refine and_congr_right fun _ => iff_of_false ?_ ?_
    · rintro ⟨b, hb, -⟩
      omega
    · rintro ⟨b, hb, -⟩
      exact absurd hb (Nat.not_lt_zero b)
  · have hpage := hm.page.resolve_left (by rw [hn]; positivity)
    obtain ⟨k, -, -, halloc, -, hsame⟩ := allocateBuckets_spec cfg hj
    rw [hsame (by rw [← hn]; exact hpage)] at halloc
    rw [hn, halloc, Option.bind_some, if_pos rfl, if_pos rfl]
    refine ⟨_, rfl, hm.congr hn.symm (fun b hb => ?_) rfl rfl, fun k v => ?_⟩
    · rw [hn] at hb
      simp [Map.key, hb]
    · rw [hf k v]
      refine and_congr_right fun _ => exists_congr fun b => ?_
      rw [hn]
      refine and_congr_right fun hb => ?_
      simp only [if_pos hb]

/-! ## forEach -/

/-- What `forEach` passes to a function that never stops. -/
def Map.visited (cfg : Config K V) (m : Map K V) : List (K × V) :=
  m.forEach cfg (fun kv l => (l ++ [kv], true)) []

theorem Map.visited_eq (cfg : Config K V) (m : Map K V) :
    m.visited cfg = (m.liveBuckets cfg).map m.buckets := by
  have hfold : ∀ (l : List ℕ) (acc : List (K × V)),
      l.foldl (fun (s : List (K × V) × Bool) b => if s.2 ∧ cfg.live (m.key b) then
        (s.1 ++ [m.buckets b], true) else s) (acc, true) =
        (acc ++ (l.filter fun b => cfg.live (m.key b)).map m.buckets, true) := by
    intro l
    induction l with
    | nil => simp
    | cons b l ih =>
      intro acc
      rw [List.foldl_cons]
      by_cases hb : cfg.live (m.key b) = true
      · rw [if_pos ⟨rfl, hb⟩, ih]
        simp [hb]
      · rw [if_neg fun h => hb h.2, ih]
        simp [hb]
  unfold Map.visited Map.forEach
  rw [hfold]
  rfl

theorem Map.Ok.visited_spec {m : Map K V} (hm : m.Ok cfg) {f : K → Option V}
    (hf : m.Represents cfg f) : ((m.visited cfg).map Prod.fst).Nodup ∧
      ∀ k v, (k, v) ∈ m.visited cfg ↔ f k = some v := by
  rw [Map.visited_eq]
  have hmem : ∀ b, b ∈ m.liveBuckets cfg ↔ b < m.numBuckets ∧ cfg.live (m.key b) = true := by
    intro b
    simp [Map.liveBuckets]
  constructor
  · rw [List.map_map]
    refine List.Nodup.map_on (fun b hb c hc heq => ?_) (List.nodup_range.filter _)
    exact hm.inj b ((hmem b).mp hb).1 c ((hmem c).mp hc).1 ((hmem b).mp hb).2 heq
  · intro k v
    rw [List.mem_map, hf k v]
    constructor
    · rintro ⟨b, hb, heq⟩
      obtain ⟨hlt, hlive⟩ := (hmem b).mp hb
      rw [Map.key, heq] at hlive
      exact ⟨hlive, b, hlt, heq⟩
    · rintro ⟨hk, b, hb, heq⟩
      exact ⟨b, (hmem b).mpr ⟨hb, by rw [Map.key, heq]; exact hk⟩, heq⟩

/-! ## Sequences of operations -/

/-- An operation on a map of a family. -/
inductive Op (ι K V : Type)
  /-- `ms[i].insert({key, value})`, or `try_emplace`. -/
  | insert (i : ι) (key : K) (value : V)
  /-- `ms[i][key]`. -/
  | index (i : ι) (key : K)
  /-- `ms[i][key] = value`. -/
  | assign (i : ι) (key : K) (value : V)
  /-- `ms[i].erase(key)`. -/
  | erase (i : ι) (key : K)
  /-- `ms[i].erase(ms[i].find(key))`. -/
  | eraseBucket (i : ι) (key : K)
  | clear (i : ι)
  /-- `ms[i].reserve(n)`. -/
  | reserve (i : ι) (n : ℕ)
  /-- `ms[i].find(key)`. -/
  | find (i : ι) (key : K)
  /-- `ms[i].lookup(key)`. -/
  | lookup (i : ι) (key : K)
  | size (i : ι)
  /-- `ms[i].swap(ms[j])`. -/
  | swap (i j : ι)
  /-- `ms[i] = ms[j]`. -/
  | copy (i j : ι)

/-- What an operation returns. -/
inductive Result (V : Type)
  /-- Nothing. -/
  | unit
  /-- Whether the key was in the map. -/
  | flag (b : Bool)
  /-- A value, by the bucket that holds it, or null. -/
  | found (value : Option V)
  /-- The value in the bucket of the key, and whether the key is new. -/
  | inserted (value : V) (new : Bool)
  /-- A number. -/
  | count (n : ℕ)

variable {ι : Type} [DecidableEq ι]

/-- `std::swap` of two elements of a family. -/
def swapAt {α : Type} (f : ι → α) (i j : ι) : ι → α :=
  Function.update (Function.update f i (f j)) j (f i)

/-- An operation on the tables. -/
def Op.exec (cfg : Config K V) (ms : ι → Map K V) : Op ι K V → Option ((ι → Map K V) × Result V)
  | .insert i key value =>
    ((ms i).tryEmplace cfg key value).map fun p =>
      (Function.update ms i p.1, .inserted (p.1.buckets p.2.1).2 p.2.2)
  | .index i key =>
    ((ms i).findAndConstruct cfg key).map fun p =>
      (Function.update ms i p.1, .found (some (p.1.buckets p.2).2))
  | .assign i key value =>
    ((ms i).findAndConstruct cfg key).map fun p =>
      (Function.update ms i (p.1.assign p.2 value), .unit)
  | .erase i key =>
    ((ms i).erase cfg key).map fun p => (Function.update ms i p.1, .flag p.2)
  | .eraseBucket i key =>
    ((ms i).doFind cfg key).bind fun bucket =>
      bucket.map fun b => (Function.update ms i ((ms i).eraseBucket cfg b), .unit)
  | .clear i => ((ms i).clear cfg).map fun m => (Function.update ms i m, .unit)
  | .reserve i n => ((ms i).reserve cfg n).map fun m => (Function.update ms i m, .unit)
  | .find i key =>
    ((ms i).doFind cfg key).map fun bucket =>
      (ms, .found (bucket.map fun b => ((ms i).buckets b).2))
  | .lookup i key =>
    ((ms i).doFind cfg key).map fun bucket =>
      (ms, .found (some ((bucket.map fun b => ((ms i).buckets b).2).getD cfg.defaultValue)))
  | .size i => some (ms, .count (ms i).numEntries)
  | .swap i j => some (swapAt ms i j, .unit)
  | .copy i j =>
    if i = j then some (ms, .unit)
    else (copyFrom cfg (ms j)).map fun m => (Function.update ms i m, .unit)

open Classical in
/-- A key is associated with a value if it has none; there is a limit for the number of keys. -/
noncomputable def insertNew (f : K → Option V) (key : K) (value : V) : Option (K → Option V) :=
  if f key ≠ none then some f
  else if size f + 1 < 2^29 then some (Function.update f key (some value)) else none

open Classical in
/-- What an operation does on partial functions. It is not defined for the markers, for the null
bucket, and for an insertion beyond the limit. -/
noncomputable def Op.denote (cfg : Config K V) (fs : ι → K → Option V) :
    Op ι K V → Option ((ι → K → Option V) × Result V)
  | .insert i key value =>
    if cfg.live key then (insertNew (fs i) key value).map fun f =>
      (Function.update fs i f, .inserted ((fs i key).getD value) (fs i key).isNone)
    else none
  | .index i key =>
    if cfg.live key then (insertNew (fs i) key cfg.defaultValue).map fun f =>
      (Function.update fs i f, .found (f key))
    else none
  | .assign i key value =>
    if cfg.live key then (insertNew (fs i) key value).map fun f =>
      (Function.update fs i (Function.update f key (some value)), .unit)
    else none
  | .erase i key =>
    if cfg.live key then
      some (Function.update fs i (Function.update (fs i) key none), .flag (fs i key).isSome)
    else none
  | .eraseBucket i key =>
    if cfg.live key ∧ fs i key ≠ none then
      some (Function.update fs i (Function.update (fs i) key none), .unit)
    else none
  | .clear i => some (Function.update fs i fun _ => none, .unit)
  | .reserve _ _ => some (fs, .unit)
  | .find i key => if cfg.live key then some (fs, .found (fs i key)) else none
  | .lookup i key =>
    if cfg.live key then some (fs, .found (some ((fs i key).getD cfg.defaultValue))) else none
  | .size i => some (fs, .count (DenseMap.size (fs i)))
  | .swap i j => some (swapAt fs i j, .unit)
  | .copy i j => some (Function.update fs i (fs j), .unit)

/-- The tables are in order and represent the partial functions. -/
def Related (cfg : Config K V) (ms : ι → Map K V) (fs : ι → K → Option V) : Prop :=
  ∀ i, (ms i).Ok cfg ∧ (ms i).Represents cfg (fs i)

theorem Related.update {ms : ι → Map K V} {fs : ι → K → Option V} (h : Related cfg ms fs) {i : ι}
    {m : Map K V} {f : K → Option V} (hm : m.Ok cfg) (hf : m.Represents cfg f) :
    Related cfg (Function.update ms i m) (Function.update fs i f) := by
  intro j
  by_cases hji : j = i
  · subst hji
    rw [Function.update_self, Function.update_self]
    exact ⟨hm, hf⟩
  · rw [Function.update_of_ne hji, Function.update_of_ne hji]
    exact h j

theorem Related.update_left {ms : ι → Map K V} {fs : ι → K → Option V} (h : Related cfg ms fs)
    {i : ι} {m : Map K V} (hm : m.Ok cfg) (hf : m.Represents cfg (fs i)) :
    Related cfg (Function.update ms i m) fs := by
  have hrel := h.update (i := i) hm hf
  rw [Function.update_eq_self] at hrel
  exact hrel

/-- `try_emplace` does what `insertNew` does. -/
theorem Map.Ok.tryEmplace_spec {m : Map K V} (hm : m.Ok cfg) {f f' : K → Option V}
    (hf : m.Represents cfg f) {k : K} (hk : cfg.live k = true) {v : V}
    (h : insertNew f k v = some f') :
    ∃ m' b, m.tryEmplace cfg k v = some (m', b, (f k).isNone) ∧ b < m'.numBuckets ∧
      m'.buckets b = (k, (f k).getD v) ∧ m'.Ok cfg ∧ m'.Represents cfg f' ∧
      f' k = some ((f k).getD v) := by
  unfold insertNew at h
  split_ifs at h with hnone hsmall
  · obtain ⟨v₀, hv₀⟩ := Option.ne_none_iff_exists'.mp hnone
    obtain rfl := Option.some.inj h
    obtain ⟨b, hb, hemplace, hbucket⟩ := hm.tryEmplace_old hf hk hv₀ v
    refine ⟨m, b, ?_, hb, ?_, hm, hf, ?_⟩
    · rw [hemplace, hv₀]
      rfl
    · rw [hbucket, hv₀]
      rfl
    · rw [hv₀]
      rfl
  · rw [not_not] at hnone
    obtain rfl := Option.some.inj h
    obtain ⟨m', b, hemplace, hb, hbucket, hm', hf'⟩ := hm.tryEmplace_new hf hk hnone hsmall v
    refine ⟨m', b, ?_, hb, ?_, hm', hf', ?_⟩
    · rw [hemplace, hnone]
      rfl
    · rw [hbucket, hnone]
      rfl
    · rw [Function.update_self, hnone]
      rfl

theorem insertNew_assign {f f' : K → Option V} {k : K} {v : V}
    (h : insertNew f k v = some f') (d : V) :
    ∃ f'', insertNew f k d = some f'' ∧
      Function.update f'' k (some v) = Function.update f' k (some v) := by
  unfold insertNew at h ⊢
  split_ifs at h ⊢
  · exact ⟨f, rfl, by rw [← Option.some.inj h]⟩
  · refine ⟨_, rfl, ?_⟩
    rw [← Option.some.inj h, Function.update_idem, Function.update_idem]

/-- One operation does on the tables what it does on the partial functions, with the same result. -/
theorem Op.exec_simulates {ms : ι → Map K V} {fs : ι → K → Option V} (hrel : Related cfg ms fs)
    {op : Op ι K V} {p : (ι → K → Option V) × Result V} (h : op.denote cfg fs = some p) :
    ∃ ms', op.exec cfg ms = some (ms', p.2) ∧ Related cfg ms' p.1 := by
  cases op with
  | insert i key value =>
    obtain ⟨hm, hf⟩ := hrel i
    rw [Op.denote] at h
    split_ifs at h with hk
    obtain ⟨f', hf', rfl⟩ := Option.map_eq_some_iff.mp h
    obtain ⟨m', b, hemplace, -, hbucket, hm', hrep, -⟩ := hm.tryEmplace_spec hf hk hf'
    refine ⟨_, ?_, hrel.update hm' hrep⟩
    rw [Op.exec, hemplace, Option.map_some, hbucket]
  | index i key =>
    obtain ⟨hm, hf⟩ := hrel i
    rw [Op.denote] at h
    split_ifs at h with hk
    obtain ⟨f', hf', rfl⟩ := Option.map_eq_some_iff.mp h
    obtain ⟨m', b, hemplace, -, hbucket, hm', hrep, hval⟩ := hm.tryEmplace_spec hf hk hf'
    refine ⟨_, ?_, hrel.update hm' hrep⟩
    simp only [Op.exec, Map.findAndConstruct, hemplace, Option.map_some, hbucket, hval]
  | assign i key value =>
    obtain ⟨hm, hf⟩ := hrel i
    rw [Op.denote] at h
    split_ifs at h with hk
    obtain ⟨f', hf', rfl⟩ := Option.map_eq_some_iff.mp h
    obtain ⟨f'', hf'', hsame⟩ := insertNew_assign hf' cfg.defaultValue
    obtain ⟨m', b, hemplace, hb, hbucket, hm', hrep, -⟩ := hm.tryEmplace_spec hf hk hf''
    have hkey : m'.key b = key := by rw [Map.key, hbucket]
    have hassign := hm'.assign_represents hrep hb (by rw [hkey]; exact hk) value
    rw [hkey, hsame] at hassign
    refine ⟨_, ?_, hrel.update (hm'.assign b value) hassign⟩
    simp only [Op.exec, Map.findAndConstruct, hemplace, Option.map_some]
  | erase i key =>
    obtain ⟨hm, hf⟩ := hrel i
    rw [Op.denote] at h
    split_ifs at h with hk
    obtain rfl := Option.some.inj h
    rcases hm.doFind_eq hf hk with ⟨b, hb, hfind, rfl, hsome⟩ | ⟨hfind, hnone⟩
    · refine ⟨_, ?_, hrel.update (hm.eraseBucket hb hk) (hm.eraseBucket_represents hf hb hk)⟩
      simp [Op.exec, Map.erase, hfind, hsome]
    · have hsame : Function.update (fs i) key none = fs i := by
        rw [← hnone, Function.update_eq_self]
      refine ⟨_, ?_, hrel.update (i := i) hm (by rw [hsame]; exact hf)⟩
      simp [Op.exec, Map.erase, hfind, hnone]
  | eraseBucket i key =>
    obtain ⟨hm, hf⟩ := hrel i
    rw [Op.denote] at h
    split_ifs at h with hk
    obtain rfl := Option.some.inj h
    rcases hm.doFind_eq hf hk.1 with ⟨b, hb, hfind, rfl, -⟩ | ⟨-, hnone⟩
    · refine ⟨_, ?_, hrel.update (hm.eraseBucket hb hk.1) (hm.eraseBucket_represents hf hb hk.1)⟩
      simp [Op.exec, hfind]
    · exact absurd hnone hk.2
  | clear i =>
    obtain ⟨hm, -⟩ := hrel i
    obtain rfl := Option.some.inj h
    obtain ⟨m', hclear, hm', hf'⟩ := hm.clear_spec
    exact ⟨_, by rw [Op.exec, hclear]; rfl, hrel.update hm' hf'⟩
  | reserve i n =>
    obtain ⟨hm, hf⟩ := hrel i
    obtain rfl := Option.some.inj h
    obtain ⟨m', hreserve, hm', hf'⟩ := hm.reserve_spec hf n
    exact ⟨_, by rw [Op.exec, hreserve]; rfl, hrel.update_left hm' hf'⟩
  | find i key =>
    obtain ⟨hm, hf⟩ := hrel i
    rw [Op.denote] at h
    split_ifs at h with hk
    obtain rfl := Option.some.inj h
    rcases hm.doFind_eq hf hk with ⟨b, -, hfind, -, hsome⟩ | ⟨hfind, hnone⟩
    · exact ⟨ms, by simp [Op.exec, hfind, hsome], hrel⟩
    · exact ⟨ms, by simp [Op.exec, hfind, hnone], hrel⟩
  | lookup i key =>
    obtain ⟨hm, hf⟩ := hrel i
    rw [Op.denote] at h
    split_ifs at h with hk
    obtain rfl := Option.some.inj h
    rcases hm.doFind_eq hf hk with ⟨b, -, hfind, -, hsome⟩ | ⟨hfind, hnone⟩
    · exact ⟨ms, by simp [Op.exec, hfind, hsome], hrel⟩
    · exact ⟨ms, by simp [Op.exec, hfind, hnone], hrel⟩
  | size i =>
    obtain ⟨hm, hf⟩ := hrel i
    obtain rfl := Option.some.inj h
    exact ⟨ms, by rw [Op.exec, hm.numEntries_eq hf], hrel⟩
  | swap i j =>
    obtain rfl := Option.some.inj h
    refine ⟨_, rfl, ?_⟩
    have hi := hrel i
    have hj := hrel j
    exact (hrel.update hj.1 hj.2).update hi.1 hi.2
  | copy i j =>
    obtain rfl := Option.some.inj h
    by_cases hij : i = j
    · subst hij
      refine ⟨ms, if_pos rfl, ?_⟩
      rw [Function.update_eq_self]
      exact hrel
    · obtain ⟨hm, hf⟩ := hrel j
      obtain ⟨m', hcopy, hm', hf'⟩ := hm.copyFrom_spec hf
      refine ⟨_, ?_, hrel.update hm' hf'⟩
      rw [Op.exec, if_neg hij, hcopy]
      rfl

/-- Every sequence of operations on maps that have been initialised, over keys other than the markers
and with fewer than `2^29` entries, returns what it returns on partial functions. The tables hold the
pairs of the partial functions, and no key is in two buckets; `NumEntries` is the number of keys, and
`forEach` visits each of them once. -/
theorem denseMap_refines (cfg : Config K V) (reserve : ι → ℕ) (ops : List (Op ι K V))
    (fs : ι → K → Option V) (rs : List (Result V))
    (h : runOps (Op.denote cfg) ops (fun _ _ => none) = some (fs, rs)) :
    ∃ ms₀ ms, (∀ i, Map.init cfg (reserve i) = some (ms₀ i)) ∧
      runOps (Op.exec cfg) ops ms₀ = some (ms, rs) ∧
      ∀ i, (∀ k v, fs i k = some v ↔
          cfg.live k = true ∧ ∃ b < (ms i).numBuckets, (ms i).buckets b = (k, v)) ∧
        (∀ b < (ms i).numBuckets, ∀ c < (ms i).numBuckets, cfg.live ((ms i).key b) = true →
          (ms i).key b = (ms i).key c → b = c) ∧
        (ms i).numEntries = size (fs i) ∧
        (((ms i).visited cfg).map Prod.fst).Nodup ∧
        ∀ k v, (k, v) ∈ (ms i).visited cfg ↔ fs i k = some v := by
  choose ms₀ hinit hok hrep using fun i => init_spec cfg (reserve i)
  have hstep : ∀ (ms : ι → Map K V) (fs : ι → K → Option V) (op : Op ι K V)
      (p : (ι → K → Option V) × Result V), Related cfg ms fs → op.denote cfg fs = some p →
      ∃ ms', op.exec cfg ms = some (ms', p.2) ∧ Related cfg ms' p.1 :=
    fun _ _ _ _ hrel hop => Op.exec_simulates hrel hop
  obtain ⟨ms, hrun, hrel⟩ := runOps_simulates hstep
    (fun i => ⟨hok i, hrep i⟩ : Related cfg ms₀ fun _ _ => none) h
  refine ⟨ms₀, ms, hinit, hrun, fun i => ?_⟩
  obtain ⟨hm, hf⟩ := hrel i
  obtain ⟨hnodup, hvisited⟩ := hm.visited_spec hf
  exact ⟨hf, hm.inj, hm.numEntries_eq hf, hnodup, hvisited⟩

/-- Numbers as keys and values, with `0` and `1` as the markers and one hash value for all keys. -/
def numbers : Config ℕ ℕ where
  emptyKey := 0
  tombstoneKey := 1
  empty_ne_tombstone := by decide
  hash _ := 3
  trivial := false
  defaultValue := 0
  fresh _ := (0, 0)
  bucketSize := 16
  bucketSize_pos := by decide
  bucketSize_lt := by decide
  pageSize := 4096
  pageSize_le := by decide

/-- A key is inserted, found and erased. -/
theorem denseMap_refines_insert : ∃ ms₀ ms : Unit → Map ℕ ℕ,
    (∀ i, Map.init numbers 0 = some (ms₀ i)) ∧
    runOps (Op.exec numbers) [.insert () 5 7, .find () 5, .erase () 5, .find () 5] ms₀ =
      some (ms, [.inserted 7 true, .found (some 7), .flag true, .found none]) := by
  have hlive : numbers.live 5 = true := by decide
  have hsize : size (fun _ : ℕ => (none : Option ℕ)) = 0 := by simp [size]
  obtain ⟨ms₀, ms, hinit, hrun, -⟩ := denseMap_refines numbers (fun _ : Unit => 0)
    [.insert () 5 7, .find () 5, .erase () 5, .find () 5] (fun _ _ => none)
    [.inserted 7 true, .found (some 7), .flag true, .found none]
    (by simp [runOps, Op.denote, insertNew, hlive, hsize])
  exact ⟨ms₀, ms, hinit, hrun⟩

end Tasan.DenseMap
