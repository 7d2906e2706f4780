import Tasan.DenseMap.Lookup

/-!
# Changes of a DenseMap

A bucket is filled or erased, the buffer is replaced, and the keys are cleared. Each change keeps the
invariant, and `Holds` says what it does to the pairs in the table.
-/

namespace Tasan.DenseMap

open Probing

variable {K V : Type} [DecidableEq K] {cfg : Config K V}

/-- The table holds a key with a value. -/
def Map.Holds (m : Map K V) (key : K) (value : V) : Prop :=
  ∃ b < m.numBuckets, m.buckets b = (key, value)

theorem Map.Ok.numBuckets_le {m : Map K V} (hm : m.Ok cfg) : m.numBuckets ≤ 2^31 := by
  rcases hm.pow with h0 | ⟨k, hk, hn⟩
  · omega
  · rw [hn]
    exact Nat.pow_le_pow_right (by norm_num) hk

/-- The invariant is about the keys and the counters. -/
theorem Map.Ok.congr {m m' : Map K V} (hm : m.Ok cfg) (hn : m'.numBuckets = m.numBuckets)
    (hkey : ∀ b < m.numBuckets, m'.key b = m.key b) (he : m'.numEntries = m.numEntries)
    (ht : m'.numTombstones = m.numTombstones) : m'.Ok cfg := by
  have hlive : m'.liveSet cfg = m.liveSet cfg := by
    unfold Map.liveSet
    rw [hn]
    apply Finset.filter_congr
    intro b hb
    rw [hkey b (Finset.mem_range.mp hb)]
  have htomb : m'.tombSet cfg = m.tombSet cfg := by
    unfold Map.tombSet
    rw [hn]
    apply Finset.filter_congr
    intro b hb
    rw [hkey b (Finset.mem_range.mp hb)]
  refine ⟨by rw [hn]; exact hm.pow, by rw [hn]; exact hm.page, ?_, ?_, ?_, ?_, ?_⟩
  · rw [he, hlive, hm.entries]
  · rw [ht, htomb, hm.tombstones]
  · rw [hn, he, ht]
    exact hm.room
  · intro b hb c hc
    rw [hn] at hb hc
    rw [hkey b hb, hkey c hc]
    exact hm.inj b hb c hc
  · intro b hb
    rw [hn] at hb
    rw [hkey b hb]
    intro hl
    obtain ⟨t, hlt, hprobe, hbefore⟩ := hm.path b hb hl
    refine ⟨t, by rw [hn]; exact hlt, by rw [hn]; exact hprobe, fun s hs => ?_⟩
    have hprobelt : probe m.numBuckets (cfg.hash (m.key b)) s < m.numBuckets :=
      Nat.mod_lt _ (by omega)
    rw [hn, hkey _ hprobelt]
    exact hbefore s hs

/-! ## Filling and erasing a bucket -/

omit [DecidableEq K] in
theorem key_update (f : ℕ → K × V) (b : ℕ) (p : K × V) (c : ℕ) (x y z : ℕ) :
    Map.key ⟨Function.update f b p, x, y, z⟩ c = if c = b then p.1 else (f c).1 := by
  unfold Map.key
  by_cases h : c = b
  · subst h
    simp
  · simp [h]

omit [DecidableEq K] in
theorem Map.Reaches.mono {m m' : Map K V} (hn : m'.numBuckets = m.numBuckets)
    (hkeep : ∀ c, m.key c ≠ cfg.emptyKey → m'.key c ≠ cfg.emptyKey) {key : K} {b : ℕ}
    (h : m.Reaches cfg key b) : m'.Reaches cfg key b := by
  obtain ⟨t, ht, hprobe, hbefore⟩ := h
  refine ⟨t, by rw [hn]; exact ht, by rw [hn]; exact hprobe, fun s hs => ?_⟩
  rw [hn]
  exact hkeep _ (hbefore s hs)

/-- A key is stored in a bucket that a lookup has offered. -/
theorem Map.Ok.fill {m : Map K V} (hm : m.Ok cfg) {b : ℕ} (hb : b < m.numBuckets) {key : K}
    (hlive : cfg.live key = true) (hvacant : m.Vacant cfg b) (hreach : m.Reaches cfg key b)
    (habsent : ∀ c < m.numBuckets, m.key c ≠ key)
    (hroom : m.numEntries + 1 + m.numTombstones < m.numBuckets) (value : V) :
    (m.fill cfg b key value).Ok cfg := by
  have hkey : ∀ c, (m.fill cfg b key value).key c = if c = b then key else m.key c :=
    fun c => key_update m.buckets b (key, value) c _ _ _
  obtain ⟨hne, hnt⟩ := Config.live_iff.mp hlive
  have hdead : cfg.live (m.key b) = false := by
    rcases hvacant with h | h <;> simp [Config.live, h]
  have hle := hm.numBuckets_le
  have hliveSet : (m.fill cfg b key value).liveSet cfg = insert b (m.liveSet cfg) := by
    ext c
    rw [Finset.mem_insert, Map.liveSet, Map.liveSet, Finset.mem_filter, Finset.mem_filter, hkey]
    by_cases hcb : c = b
    · simp [hcb, hb, hlive, Map.fill]
    · simp [hcb, Map.fill]
  have hentries : Word.add 32 m.numEntries 1 = m.numEntries + 1 := Word.add_of_lt (by omega)
  have htombSet : (m.fill cfg b key value).tombSet cfg = (m.tombSet cfg).erase b := by
    ext c
    rw [Finset.mem_erase, Map.tombSet, Map.tombSet, Finset.mem_filter, Finset.mem_filter, hkey]
    by_cases hcb : c = b
    · simp [hcb, hnt]
    · simp [hcb, Map.fill]
  have htomb : (m.fill cfg b key value).numTombstones = ((m.tombSet cfg).erase b).card ∧
      (m.fill cfg b key value).numTombstones ≤ m.numTombstones := by
    rcases hvacant with h | h
    · have hnot : b ∉ m.tombSet cfg := by
        rw [Map.tombSet, Finset.mem_filter, h]
        exact fun hmem => cfg.empty_ne_tombstone hmem.2
      rw [Finset.erase_eq_of_notMem hnot, ← hm.tombstones]
      simp [Map.fill, h]
    · have hmem : b ∈ m.tombSet cfg := Finset.mem_filter.mpr ⟨Finset.mem_range.mpr hb, h⟩
      have hpos := Finset.card_pos.mpr ⟨b, hmem⟩
      rw [← hm.tombstones] at hpos
      rw [Finset.card_erase_of_mem hmem, ← hm.tombstones]
      have hsub : Word.sub 32 m.numTombstones 1 = m.numTombstones - 1 :=
        Word.sub_of_le (by omega) (by omega)
      have hfield : (m.fill cfg b key value).numTombstones = m.numTombstones - 1 := by
        unfold Map.fill
        dsimp only
        rw [h, if_pos cfg.empty_ne_tombstone.symm, hsub]
      rw [hfield]
      exact ⟨rfl, Nat.sub_le _ _⟩
  refine ⟨hm.pow, hm.page, ?_, ?_, ?_, ?_, ?_⟩
  · rw [hliveSet, Finset.card_insert_of_notMem, ← hm.entries]
    · exact hentries
    · rw [Map.liveSet, Finset.mem_filter, hdead]
      simp
  · rw [htombSet]
    exact htomb.1
  · intro _
    have hfields : (m.fill cfg b key value).numEntries = m.numEntries + 1 := hentries
    rw [hfields]
    have hnb : (m.fill cfg b key value).numBuckets = m.numBuckets := rfl
    omega
  · intro c hc d hd
    rw [hkey, hkey]
    split_ifs with h1 h2 h2
    · intro _ _
      rw [h1, h2]
    · intro _ heq
      exact absurd heq.symm (habsent d hd)
    · intro _ heq
      exact absurd heq (habsent c hc)
    · exact hm.inj c hc d hd
  · have hkeep : ∀ c, m.key c ≠ cfg.emptyKey → (m.fill cfg b key value).key c ≠ cfg.emptyKey := by
      intro c hc
      rw [hkey]
      split_ifs
      · exact hne
      · exact hc
    intro c hc
    rw [hkey]
    split_ifs with h1
    · intro _
      rw [h1]
      exact Map.Reaches.mono (by rfl) hkeep hreach
    · intro hl
      exact Map.Reaches.mono (by rfl) hkeep (hm.path c hc hl)

/-- The pairs after a key has been stored that was not in the table. -/
theorem Map.holds_fill {m : Map K V} {b : ℕ} (hb : b < m.numBuckets) (hvacant : m.Vacant cfg b)
    (key : K) (value : V) {k : K} (hk : cfg.live k = true) (v : V) :
    (m.fill cfg b key value).Holds k v ↔ (k = key ∧ v = value) ∨ m.Holds k v := by
  have hdead : cfg.live (m.key b) = false := by
    rcases hvacant with h | h <;> simp [Config.live, h]
  constructor
  · rintro ⟨c, hc, heq⟩
    by_cases hcb : c = b
    · subst hcb
      simp only [Map.fill, Function.update_self, Prod.mk.injEq] at heq
      exact Or.inl ⟨heq.1.symm, heq.2.symm⟩
    · simp only [Map.fill, Function.update_of_ne hcb] at heq
      exact Or.inr ⟨c, hc, heq⟩
  · rintro (⟨rfl, rfl⟩ | ⟨c, hc, heq⟩)
    · exact ⟨b, hb, by simp [Map.fill]⟩
    · have hcb : c ≠ b := by
        rintro rfl
        rw [Map.key, heq, hk] at hdead
        exact absurd hdead (by simp)
      refine ⟨c, hc, ?_⟩
      simpa [Map.fill, Function.update_of_ne hcb] using heq

/-- A live bucket is erased. -/
theorem Map.Ok.eraseBucket {m : Map K V} (hm : m.Ok cfg) {b : ℕ} (hb : b < m.numBuckets)
    (hlive : cfg.live (m.key b) = true) : (m.eraseBucket cfg b).Ok cfg := by
  have hkey : ∀ c, (m.eraseBucket cfg b).key c = if c = b then cfg.tombstoneKey else m.key c :=
    fun c => key_update m.buckets b _ c _ _ _
  obtain ⟨hne, hnt⟩ := Config.live_iff.mp hlive
  have hdead : cfg.live cfg.tombstoneKey = false := by simp [Config.live]
  have hle := hm.numBuckets_le
  have hroom := hm.room (by omega)
  have hmem : b ∈ m.liveSet cfg := Finset.mem_filter.mpr ⟨Finset.mem_range.mpr hb, hlive⟩
  have hpos := Finset.card_pos.mpr ⟨b, hmem⟩
  rw [← hm.entries] at hpos
  have hliveSet : (m.eraseBucket cfg b).liveSet cfg = (m.liveSet cfg).erase b := by
    ext c
    rw [Finset.mem_erase, Map.liveSet, Map.liveSet, Finset.mem_filter, Finset.mem_filter, hkey]
    by_cases hcb : c = b
    · simp [hcb, hdead]
    · simp [hcb, Map.eraseBucket]
  have htombSet : (m.eraseBucket cfg b).tombSet cfg = insert b (m.tombSet cfg) := by
    ext c
    rw [Finset.mem_insert, Map.tombSet, Map.tombSet, Finset.mem_filter, Finset.mem_filter, hkey]
    by_cases hcb : c = b
    · simp [hcb, hb, Map.eraseBucket]
    · simp [hcb, Map.eraseBucket]
  have hentries : (m.eraseBucket cfg b).numEntries = m.numEntries - 1 :=
    Word.sub_of_le (by omega) (by omega)
  have htombs : (m.eraseBucket cfg b).numTombstones = m.numTombstones + 1 :=
    Word.add_of_lt (by omega)
  refine ⟨hm.pow, hm.page, ?_, ?_, ?_, ?_, ?_⟩
  · rw [hliveSet, Finset.card_erase_of_mem hmem, ← hm.entries, hentries]
  · rw [htombSet, Finset.card_insert_of_notMem, ← hm.tombstones, htombs]
    rw [Map.tombSet, Finset.mem_filter]
    exact fun h => hnt h.2
  · intro _
    have hnb : (m.eraseBucket cfg b).numBuckets = m.numBuckets := rfl
    omega
  · intro c hc d hd
    rw [hkey, hkey]
    split_ifs with h1 h2 h2
    · intro _ _
      rw [h1, h2]
    · intro h
      rw [hdead] at h
      exact absurd h (by simp)
    · intro h heq
      rw [heq, hdead] at h
      exact absurd h (by simp)
    · exact hm.inj c hc d hd
  · have hkeep : ∀ c, m.key c ≠ cfg.emptyKey → (m.eraseBucket cfg b).key c ≠ cfg.emptyKey := by
      intro c hc
      rw [hkey]
      split_ifs
      · exact cfg.empty_ne_tombstone.symm
      · exact hc
    intro c hc
    rw [hkey]
    split_ifs with h1
    · intro h
      rw [hdead] at h
      exact absurd h (by simp)
    · intro hl
      exact Map.Reaches.mono (by rfl) hkeep (hm.path c hc hl)

theorem Map.Ok.holds_eraseBucket {m : Map K V} (hm : m.Ok cfg) {b : ℕ} (hb : b < m.numBuckets)
    (hlive : cfg.live (m.key b) = true) {k : K} (hk : cfg.live k = true) (v : V) :
    (m.eraseBucket cfg b).Holds k v ↔ k ≠ m.key b ∧ m.Holds k v := by
  constructor
  · rintro ⟨c, hc, heq⟩
    by_cases hcb : c = b
    · subst hcb
      simp only [Map.eraseBucket, Function.update_self, Prod.mk.injEq] at heq
      rw [← heq.1] at hk
      exact absurd hk (by simp [Config.live])
    · simp only [Map.eraseBucket, Function.update_of_ne hcb] at heq
      refine ⟨?_, c, hc, heq⟩
      rintro rfl
      exact hcb (hm.inj b hb c hc hlive (by simp [Map.key, heq])).symm
  · rintro ⟨hne, c, hc, heq⟩
    have hcb : c ≠ b := by
      rintro rfl
      exact hne (by simp [Map.key, heq])
    refine ⟨c, hc, ?_⟩
    simpa [Map.eraseBucket, Function.update_of_ne hcb] using heq

theorem Map.Ok.assign {m : Map K V} (hm : m.Ok cfg) (b : ℕ) (value : V) :
    (m.assign b value).Ok cfg := by
  refine hm.congr rfl (fun c _ => ?_) rfl rfl
  have hkey := key_update m.buckets b (m.key b, value) c m.numEntries m.numTombstones m.numBuckets
  refine hkey.trans ?_
  split_ifs with h
  · rw [h]
  · rfl

theorem Map.Ok.holds_assign {m : Map K V} (hm : m.Ok cfg) {b : ℕ} (hb : b < m.numBuckets)
    (hlive : cfg.live (m.key b) = true) (value : V) (k : K) (v : V) :
    (m.assign b value).Holds k v ↔ (k = m.key b ∧ v = value) ∨ (k ≠ m.key b ∧ m.Holds k v) := by
  constructor
  · rintro ⟨c, hc, heq⟩
    by_cases hcb : c = b
    · subst hcb
      simp only [Map.assign, Function.update_self, Prod.mk.injEq] at heq
      exact Or.inl ⟨heq.1.symm, heq.2.symm⟩
    · simp only [Map.assign, Function.update_of_ne hcb] at heq
      refine Or.inr ⟨?_, c, hc, heq⟩
      rintro rfl
      exact hcb (hm.inj b hb c hc hlive (by simp [Map.key, heq])).symm
  · rintro (⟨rfl, rfl⟩ | ⟨hne, c, hc, heq⟩)
    · exact ⟨b, hb, by simp [Map.assign]⟩
    · have hcb : c ≠ b := by
        rintro rfl
        exact hne (by simp [Map.key, heq])
      refine ⟨c, hc, ?_⟩
      simpa [Map.assign, Function.update_of_ne hcb] using heq

/-! ## New buffers -/

/-- A table of empty buckets is in order. -/
theorem ok_of_empty {m : Map K V} {k : ℕ} (hk : k ≤ 31) (hn : m.numBuckets = 2^k)
    (hpage : cfg.pageSize < cfg.bucketSize * 2^k * 2)
    (hkeys : ∀ b < m.numBuckets, m.key b = cfg.emptyKey) (he : m.numEntries = 0)
    (ht : m.numTombstones = 0) : m.Ok cfg := by
  have hdead : cfg.live cfg.emptyKey = false := by simp [Config.live]
  refine ⟨Or.inr ⟨k, hk, hn⟩, Or.inr (by rw [hn]; exact hpage), ?_, ?_, ?_, ?_, ?_⟩
  · rw [he, eq_comm, Finset.card_eq_zero, Map.liveSet, Finset.filter_eq_empty_iff]
    intro b hb
    rw [hkeys b (Finset.mem_range.mp hb), hdead]
    simp
  · rw [ht, eq_comm, Finset.card_eq_zero, Map.tombSet, Finset.filter_eq_empty_iff]
    intro b hb
    rw [hkeys b (Finset.mem_range.mp hb)]
    exact cfg.empty_ne_tombstone
  · intro h0
    omega
  · intro b hb c _ hl
    rw [hkeys b hb, hdead] at hl
    exact absurd hl (by simp)
  · intro b hb hl
    rw [hkeys b hb, hdead] at hl
    exact absurd hl (by simp)

theorem not_holds_of_empty {m : Map K V} (hkeys : ∀ b < m.numBuckets, m.key b = cfg.emptyKey)
    {k : K} (hk : cfg.live k = true) (v : V) : ¬m.Holds k v := by
  rintro ⟨b, hb, heq⟩
  have hkey := hkeys b hb
  rw [Map.key, heq] at hkey
  exact (Config.live_iff.mp hk).1 hkey

theorem ok_of_null {m : Map K V} (hn : m.numBuckets = 0) (he : m.numEntries = 0)
    (ht : m.numTombstones = 0) : m.Ok cfg := by
  refine ⟨Or.inl hn, Or.inl hn, ?_, ?_, fun h => absurd hn h, ?_, ?_⟩
  · rw [he, Map.liveSet, hn]
    rfl
  · rw [ht, Map.tombSet, hn]
    rfl
  · intro b hb
    omega
  · intro b hb
    omega

omit [DecidableEq K] in
/-- `allocateBuckets` gives a power of two that fills more than half a page. -/
theorem allocateBuckets_spec (cfg : Config K V) {j : ℕ} (hj : j ≤ 31) :
    ∃ k ≤ 31, j ≤ k ∧ allocateBuckets cfg (2^j) = some (2^k, true) ∧
      cfg.pageSize < cfg.bucketSize * 2^k * 2 ∧
      (cfg.pageSize < cfg.bucketSize * 2^j * 2 → k = j) := by
  have hpow : 2^j ≤ 2^31 := Nat.pow_le_pow_right (by norm_num) hj
  have hsize : cfg.bucketSize * 2^j < 2^63 := by
    calc cfg.bucketSize * 2^j < 2^32 * 2^j :=
          Nat.mul_lt_mul_of_pos_right cfg.bucketSize_lt (by positivity)
      _ ≤ 2^32 * 2^31 := Nat.mul_le_mul_left _ hpow
      _ = 2^63 := by norm_num
  have hmod : cfg.bucketSize * 2^j % 2^64 = cfg.bucketSize * 2^j := Nat.mod_eq_of_lt (by omega)
  have hmod2 : cfg.bucketSize * 2^j * 2 % 2^64 = cfg.bucketSize * 2^j * 2 :=
    Nat.mod_eq_of_lt (by omega)
  have hsizepos : 0 < cfg.bucketSize * 2^j := Nat.mul_pos cfg.bucketSize_pos (by positivity)
  unfold allocateBuckets
  rw [if_neg (by positivity)]
  simp only [hmod, hmod2]
  by_cases hsmall : cfg.bucketSize * 2^j * 2 ≤ cfg.pageSize
  · -- the buffer is extended to the whole page
    have hpage := cfg.pageSize_le
    have hq : cfg.pageSize / (cfg.bucketSize * 2^j) ≠ 0 := by
      rw [ne_eq, Nat.div_eq_zero_iff]
      omega
    have hlog := Nat.log2_self_le hq
    have hlog' := Nat.lt_log2_self (n := cfg.pageSize / (cfg.bucketSize * 2^j))
    generalize Nat.log2 (cfg.pageSize / (cfg.bucketSize * 2^j)) = l at hlog hlog' ⊢
    have hfits : cfg.bucketSize * 2^j * 2^l ≤ cfg.pageSize := by
      rw [Nat.mul_comm]
      exact (Nat.le_div_iff_mul_le hsizepos).mp hlog
    have hover : cfg.pageSize < cfg.bucketSize * 2^j * 2^l * 2 := by
      have hlt := (Nat.div_lt_iff_lt_mul hsizepos).mp hlog'
      calc cfg.pageSize < 2^(l + 1) * (cfg.bucketSize * 2^j) := hlt
        _ = cfg.bucketSize * 2^j * 2^l * 2 := by ring
    have hnum : 2^j * 2^l ≤ 2^31 := by
      calc 2^j * 2^l ≤ cfg.bucketSize * (2^j * 2^l) :=
            Nat.le_mul_of_pos_left _ cfg.bucketSize_pos
        _ = cfg.bucketSize * 2^j * 2^l := by ring
        _ ≤ 2^31 := hfits.trans hpage
    have hkle : j + l ≤ 31 := by
      rw [← pow_add] at hnum
      exact (Nat.pow_le_pow_iff_right (by norm_num)).mp hnum
    have hnummod : 2^j * 2^l % 2^32 = 2^(j + l) := by
      rw [pow_add]
      exact Nat.mod_eq_of_lt (by omega)
    have hassoc : cfg.bucketSize * 2^(j + l) = cfg.bucketSize * 2^j * 2^l := by
      rw [pow_add]
      ring
    refine ⟨j + l, hkle, Nat.le_add_right j l, ?_, ?_, fun h => absurd hsmall (by omega)⟩
    · rw [if_pos hsmall, hnummod, hassoc, if_pos]
      refine ⟨rfl, ?_⟩
      rw [Nat.mod_eq_of_lt (a := cfg.bucketSize * 2^j * 2^l) (by omega), Nat.mod_eq_of_lt (by omega)]
      exact hover
    · rw [hassoc]
      exact hover
  · rw [if_neg hsmall]
    exact ⟨j, hj, le_rfl, rfl, by omega, fun _ => rfl⟩

theorem roundUpToPowerOfTwo_spec {n : ℕ} (hpos : 0 < n) (hn : n ≤ 2^31) :
    ∃ k ≤ 31, roundUpToPowerOfTwo n = 2^k ∧ n ≤ 2^k := by
  unfold roundUpToPowerOfTwo
  split_ifs with hpow
  · rcases (Word.isPowerOfTwo_iff (by omega)).mp hpow with h0 | ⟨a, -, rfl⟩
    · omega
    · exact ⟨a, (Nat.pow_le_pow_iff_right (by norm_num)).mp hn, rfl, le_rfl⟩
  · have hne : n ≠ 2^31 := by
      rintro rfl
      exact hpow ((Word.isPowerOfTwo_iff (by norm_num)).mpr (Or.inr ⟨31, by norm_num, rfl⟩))
    have hlog : Nat.log2 n < 31 := (Nat.log2_lt (by omega)).mpr (by omega)
    exact ⟨Nat.log2 n + 1, by omega, rfl, (Nat.lt_log2_self).le⟩

theorem getMinBucketToReserveForEntries_spec (n : ℕ) :
    getMinBucketToReserveForEntries n = 0 ∨
      ∃ k ≤ 31, getMinBucketToReserveForEntries n = 2^k := by
  unfold getMinBucketToReserveForEntries
  split_ifs
  · exact Or.inl rfl
  · have hdiv : n * 4 % 2^32 / 3 ≤ 1431655765 := by omega
    have hsum : Word.add 32 (Word.add 32 (n * 4 % 2^32 / 3) 1) 1 = n * 4 % 2^32 / 3 + 1 + 1 := by
      rw [Word.add_of_lt (a := n * 4 % 2^32 / 3) (by omega), Word.add_of_lt (by omega)]
    rw [hsum]
    obtain ⟨k, hk, hround, -⟩ := roundUpToPowerOfTwo_spec (n := n * 4 % 2^32 / 3 + 1 + 1)
      (by omega) (by omega)
    refine Or.inr ⟨k, hk, ?_⟩
    rw [hround]
    exact Nat.mod_eq_of_lt (Nat.pow_lt_pow_right (by norm_num) (by omega))

theorem initEmpty_spec (cfg : Config K V) {k : ℕ} (hk : k ≤ 31)
    (hpage : cfg.pageSize < cfg.bucketSize * 2^k * 2) :
    ∃ m, initEmpty cfg (2^k) = some m ∧ m.Ok cfg ∧ m.numBuckets = 2^k ∧ m.numEntries = 0 ∧
      m.numTombstones = 0 ∧ ∀ b < m.numBuckets, m.key b = cfg.emptyKey := by
  have hkeys : ∀ b < 2^k, Map.key (⟨fun b => if b < 2^k then (cfg.emptyKey, (cfg.fresh b).2)
      else cfg.fresh b, 0, 0, 2^k⟩ : Map K V) b = cfg.emptyKey := by
    intro b hb
    simp only [Map.key]
    rw [if_pos hb]
  refine ⟨_, if_pos ?_, ok_of_empty hk rfl hpage hkeys rfl rfl, rfl, rfl, rfl, hkeys⟩
  rw [Word.and_mask (by omega), Nat.mod_self]

end Tasan.DenseMap
