import Tasan.Codec.Lzw

/-!
# The encoder and the decoder step by step

The loops of `LzwEncode` and `LzwDecode` as steps on states, one for each item that the encoder reads
and one for each code that the decoder reads. `InStep` is the invariant that carries the two along
together: the numbers of `prefix_to_code` and `code_to_substr` agree on all substrings that the
decoder knows, the decoder lacks exactly the last one, and it can emit the encoder's current match.
From it a sequence is read back as it was, as long as the dictionary stays small enough for codes of
32 bits.
-/

namespace Tasan.Codec

variable {α : Type} [DecidableEq α]

/-! ## States -/

/-- The state of `LzwEncode` in its main loop. -/
structure Encoder (α : Type) where
  /-- `prefix_to_code`. -/
  map : CodeMap α
  /-- The code of the current match. -/
  code : ℕ
  /-- The codes that have been emitted. -/
  codes : List ℕ

/-- One item in the loop of `LzwEncode`. -/
def Encoder.step (s : Encoder α) (x : α) : Option (Encoder α) :=
  match s.map.find (s.code, x) with
  | some code => some { s with code := code }
  | none =>
    let m := s.map.insert (s.code, x) (s.map.size % 2^32)
    (m.find (kNoPrefix, x)).map fun next => ⟨m, next, s.codes ++ [s.code]⟩

/-- `dict_len1` after the sort. -/
def lzwDict (le : α → α → Bool) (vs : List α) : List α := (collectDict vs).2.mergeSort le

/-- `LzwEncode` after the first item and `n` more. -/
def Encoder.after (le : α → α → Bool) (vs : List α) (n : ℕ) : Option (Encoder α) :=
  match vs with
  | [] => none
  | v :: items => do
    let m := remapDict (collectDict vs).1 (lzwDict le vs)
    let code ← m.find (kNoPrefix, v)
    (items.take n).foldlM Encoder.step ⟨m, code, []⟩

/-- The state of `LzwDecode` in its main loop. -/
structure Decoder (α : Type) where
  /-- `code_to_substr`. -/
  substr : List (ℕ × ℕ)
  /-- `prev_code`. -/
  prev : ℕ
  /-- The output. -/
  out : List α

/-- One code in the loop of `LzwDecode`. -/
def Decoder.step (dict : List α) (d : Decoder α) (code : ℕ) : Option (Decoder α) := do
  let out ← lzwEmit dict d.substr d.prev code d.out
  let len ← lzwCodeToLen dict d.substr d.prev
  return ⟨d.substr ++ [(d.out.length - len, d.out.length + 1)], code, out⟩

/-- `LzwDecode` after the codes. -/
def Decoder.after (dict : List α) : List ℕ → Option (Decoder α)
  | [] => none
  | code :: codes => do
    let out ← lzwCopy dict [] code []
    codes.foldlM (Decoder.step dict) ⟨[], code, out⟩

theorem lzwEncodeLoop_eq (s : Encoder α) (items : List α) :
    (lzwEncodeLoop s.map s.code items).map (s.codes ++ ·) =
      (items.foldlM Encoder.step s).map fun s' => s'.codes ++ [s'.code] := by
  induction items generalizing s with
  | nil => rfl
  | cons x xs ih =>
    rw [lzwEncodeLoop, List.foldlM_cons, Encoder.step]
    cases s.map.find (s.code, x) with
    | some c => exact ih { s with code := c }
    | none =>
      dsimp only
      cases hnext : CodeMap.find _ (kNoPrefix, x) with
      | none => rfl
      | some next =>
        have h := ih ⟨s.map.insert (s.code, x) (s.map.size % 2^32), next, s.codes ++ [s.code]⟩
        simp only [Option.map_some, Option.bind_eq_bind, Option.bind_some] at h ⊢
        rw [← h]
        cases lzwEncodeLoop _ next xs <;> simp

omit [DecidableEq α] in
theorem lzwDecodeLoop_eq (dict : List α) (d : Decoder α) (codes : List ℕ) :
    lzwDecodeLoop dict d.substr d.prev d.out codes =
      (codes.foldlM (Decoder.step dict) d).map Decoder.out := by
  induction codes generalizing d with
  | nil => rfl
  | cons code codes ih =>
    rw [lzwDecodeLoop, List.foldlM_cons, Decoder.step]
    cases lzwEmit dict d.substr d.prev code d.out with
    | none => rfl
    | some out =>
      cases lzwCodeToLen dict d.substr d.prev with
      | none => rfl
      | some len => exact ih ⟨_, code, out⟩

omit [DecidableEq α] in
theorem Decoder.after_append {dict : List α} {codes : List ℕ} {d : Decoder α}
    (h : Decoder.after dict codes = some d) (code : ℕ) :
    Decoder.after dict (codes ++ [code]) = d.step dict code := by
  cases codes with
  | nil => exact absurd h (by simp [Decoder.after])
  | cons c cs =>
    obtain ⟨out, hout, hrun⟩ := Option.bind_eq_some_iff.mp h
    rw [List.cons_append, Decoder.after, Option.bind_eq_bind, hout, Option.bind_some,
      List.foldlM_append, hrun]
    simp

/-! ## The invariant -/

/-- The encoder has read the items `seen` and inserted the extensions `E` and that of the last emitted
code, and the decoder has read the emitted codes and knows the extensions `E`. -/
structure InStep (dict : List α) (E : List (ℕ × α)) (y : α) (seen : List α) (s : Encoder α)
    (d : Decoder α) : Prop where
  /-- The numbers of `prefix_to_code`. -/
  map : MapInv dict (E ++ [(d.prev, y)]) s.map
  /-- Every extension extends a code before it. -/
  ext : ExtInv dict (E ++ [(d.prev, y)])
  /-- The numbers of `code_to_substr`: the ranges of the output hold the strings of `E`, in order. -/
  substr : SubstrInv dict E d.substr d.out
  /-- The previous code is one that the decoder knows. -/
  prev_lt : d.prev < dict.length + d.substr.length
  /-- Its string has just been emitted. -/
  suffix : str dict E d.prev <:+ d.out
  /-- The current match is a code that the decoder knows, or the one that it is about to define. -/
  code_le : s.code ≤ dict.length + d.substr.length
  /-- The last extension is by the first item of the current match. -/
  first : (str dict (E ++ [(d.prev, y)]) s.code).head? = some y
  /-- The items that the decoder has emitted, and the current match. -/
  seen_eq : d.out ++ str dict (E ++ [(d.prev, y)]) s.code = seen

theorem InStep.decode {dict : List α} {E : List (ℕ × α)} {y : α} {seen : List α} {s : Encoder α}
    {d : Decoder α} (h : InStep dict E y seen s d) :
    ∃ d', d.step dict s.code = some d' ∧ d'.prev = s.code ∧ d'.out = seen ∧
      SubstrInv dict (E ++ [(d.prev, y)]) d'.substr d'.out := by
  have hlen := h.substr.length_eq
  have hcode := h.code_le
  obtain ⟨pre, hpre⟩ := h.suffix
  obtain ⟨hemit, hclen, hsub⟩ := h.substr.step (hlen ▸ h.prev_lt) hpre.symm
    (show s.code < dict.length + (E ++ [(d.prev, y)]).length by
      rw [List.length_append, List.length_singleton]; omega) h.first
  refine ⟨⟨_, s.code, _⟩, ?_, rfl, h.seen_eq, hsub⟩
  rw [Decoder.step, hemit, hclen]
  rfl

/-- The encoder has read the items `seen` and has emitted codes that it had given out, and none yet or
the decoder is in step. -/
def Synced (dict seen : List α) (s : Encoder α) : Prop :=
  (∀ c ∈ s.codes, c < s.map.size) ∧
    ((s.codes = [] ∧ MapInv dict [] s.map ∧ s.code < dict.length ∧ str dict [] s.code = seen) ∨
      ∃ E y d, Decoder.after dict s.codes = some d ∧ InStep dict E y seen s d)

theorem Synced.code_lt_size {dict seen : List α} {s : Encoder α} (h : Synced dict seen s) :
    s.code < s.map.size := by
  rcases h.2 with ⟨-, hm, hc, -⟩ | ⟨E, y, d, -, h⟩
  · rw [hm.size_eq]
    simpa using hc
  · have hlen := h.substr.length_eq
    have hcode := h.code_le
    rw [h.map.size_eq, List.length_append, List.length_singleton]
    omega

/-- A code is emitted and the match is reset to the next item. -/
theorem Synced.emit {dict seen : List α} {s : Encoder α} (h : Synced dict seen s) {x : α}
    (hx : x ∈ dict) (hnew : s.map.find (s.code, x) = none) (hsize : s.map.size < kNoPrefix) :
    ∃ s', s.step x = some s' ∧ s'.map.size = s.map.size + 1 ∧ Synced dict (seen ++ [x]) s' := by
  have hk : kNoPrefix < 2^32 := by decide
  have hne : s.code ≠ kNoPrefix := (h.code_lt_size.trans hsize).ne
  -- The decoder reads the code, and then knows all extensions but the new one.
  obtain ⟨E, d, hd, hmap, hext, hsub, hprev, hout⟩ : ∃ E d,
      Decoder.after dict (s.codes ++ [s.code]) = some d ∧ MapInv dict E s.map ∧ ExtInv dict E ∧
        SubstrInv dict E d.substr d.out ∧ d.prev = s.code ∧
        d.out = seen ∧ str dict E s.code <:+ d.out := by
    rcases h.2 with ⟨hcodes, hm, hc, hseen⟩ | ⟨E, y, d, hd, h⟩
    · have hsub : SubstrInv dict ([] : List (ℕ × α)) [] [] := ⟨rfl, fun i s hi => by simp at hi⟩
      have hcopy := hsub.copy_eq (show s.code < dict.length + 0 from hc)
      refine ⟨[], ⟨[], s.code, str dict [] s.code⟩, ?_, hm, fun i e hi => by simp at hi,
        ⟨rfl, fun i s hi => by simp at hi⟩, rfl, hseen, List.suffix_rfl⟩
      rw [hcodes, List.nil_append, Decoder.after, hcopy]
      rfl
    · obtain ⟨d', hstep, hprev, hout, hsub⟩ := h.decode
      refine ⟨_, d', by rw [Decoder.after_append hd, hstep], h.map, h.ext, hsub, hprev, hout, ?_⟩
      rw [hout, ← h.seen_eq]
      exact List.suffix_append _ _
  have hlen := hsub.length_eq
  have hlt : s.code < dict.length + E.length := by
    have := h.code_lt_size
    rwa [hmap.size_eq] at this
  have hmap' := hmap.insert hne hnew (by omega)
  obtain ⟨hnext, hnextlt, hnextstr⟩ := hmap'.single_eq hx
  refine ⟨⟨s.map.insert (s.code, x) (s.map.size % 2^32), dict.idxOf x, s.codes ++ [s.code]⟩,
    ?_, rfl, ?_, Or.inr ⟨E, x, d, hd, ?_⟩⟩
  · rw [Encoder.step, hnew]
    dsimp only
    rw [hnext]
    rfl
  · intro c hc
    rw [CodeMap.size_insert]
    rcases List.mem_append.mp hc with hc | hc
    · exact (h.1 c hc).trans (Nat.lt_succ_self _)
    · rw [List.mem_singleton.mp hc]
      exact h.code_lt_size.trans (Nat.lt_succ_self _)
  · rw [← hprev] at hmap' hlt hnextstr hout ⊢
    refine ⟨hmap', hext.snoc hlt, hsub, hlen ▸ hlt, hout.2, ?_, ?_, ?_⟩
    · dsimp only
      omega
    · rw [hnextstr]
      rfl
    · rw [hnextstr, hout.1]

/-- One item of the encoder's loop. -/
theorem Synced.step {dict seen : List α} {s : Encoder α} (h : Synced dict seen s) {x : α}
    (hx : x ∈ dict) (hsize : s.map.size < kNoPrefix) :
    ∃ s', s.step x = some s' ∧ s'.map.size ≤ s.map.size + 1 ∧ Synced dict (seen ++ [x]) s' := by
  cases hfind : s.map.find (s.code, x) with
  | none =>
    obtain ⟨s', hs', hsz, hsync⟩ := h.emit hx hfind hsize
    exact ⟨s', hs', hsz.le, hsync⟩
  | some c =>
    -- The match is extended, which needs an extension, so that something has been emitted.
    have hne : s.code ≠ kNoPrefix := (h.code_lt_size.trans hsize).ne
    refine ⟨{ s with code := c }, by rw [Encoder.step, hfind], Nat.le_succ _, h.1, ?_⟩
    rcases h.2 with ⟨-, hm, -, -⟩ | ⟨E, y, d, hd, h⟩
    · rw [hm.ext _ _ hne] at hfind
      simp at hfind
    · obtain ⟨hc, hstr⟩ := h.map.str_of_find h.ext hne hfind
      refine Or.inr ⟨E, y, d, hd, h.map, h.ext, h.substr, h.prev_lt, h.suffix, ?_, ?_, ?_⟩
      · have hlen := h.substr.length_eq
        rw [List.length_append, List.length_singleton] at hc
        dsimp only
        omega
      · rw [hstr, List.head?_append, h.first]
        rfl
      · rw [hstr, ← List.append_assoc, h.seen_eq]

/-! ## Whole runs -/

/-- As long as the map is small the encoder and the decoder stay in step. -/
theorem Synced.run {dict seen : List α} {s : Encoder α} (h : Synced dict seen s) (items : List α)
    (hitems : ∀ x ∈ items, x ∈ dict)
    (hsize : ∀ n s', (items.take n).foldlM Encoder.step s = some s' → s'.map.size < kNoPrefix)
    (n : ℕ) :
    ∃ s', (items.take n).foldlM Encoder.step s = some s' ∧ Synced dict (seen ++ items.take n) s' := by
  induction items generalizing seen s n with
  | nil => exact ⟨s, by rw [List.take_nil]; rfl, by simpa using h⟩
  | cons x xs ih =>
    cases n with
    | zero => exact ⟨s, rfl, by simpa using h⟩
    | succ n =>
      obtain ⟨s₁, hs₁, -, hsync⟩ := h.step (hitems x (by simp)) (hsize 0 s rfl)
      have hrest : ∀ k s', (xs.take k).foldlM Encoder.step s₁ = some s' → s'.map.size < kNoPrefix := by
        intro k s' hs'
        apply hsize (k + 1) s'
        rw [List.take_succ_cons, List.foldlM_cons, hs₁]
        exact hs'
      obtain ⟨s', hs', hsync'⟩ := ih hsync (fun z hz => hitems z (by simp [hz])) hrest n
      refine ⟨s', ?_, ?_⟩
      · rw [List.take_succ_cons, List.foldlM_cons, hs₁]
        exact hs'
      · rw [List.take_succ_cons, List.append_cons]
        exact hsync'

theorem synced_start (le : α → α → Bool) (v : α) (vs : List α)
    (hlen : (collectDict (v :: vs)).2.length ≤ 2^32) :
    ∃ code, (remapDict (collectDict (v :: vs)).1 (lzwDict le (v :: vs))).find (kNoPrefix, v) =
        some code ∧
      Synced (lzwDict le (v :: vs)) [v]
        ⟨remapDict (collectDict (v :: vs)).1 (lzwDict le (v :: vs)), code, []⟩ := by
  have hm := remapDict_spec le (v :: vs) hlen
  have hv : v ∈ lzwDict le (v :: vs) := ((sortedDict_spec le (v :: vs)).1 v).mpr (by simp)
  obtain ⟨hfind, hlt, hstr⟩ := hm.single_eq hv
  exact ⟨_, hfind, by simp, Or.inl ⟨rfl, hm, hlt, hstr⟩⟩

theorem size_remapDict (le : α → α → Bool) (vs : List α) :
    (remapDict (collectDict vs).1 (lzwDict le vs)).size = (collectDict vs).2.length := by
  have h := collectDict_spec vs
  have hperm := List.mergeSort_perm (collectDict vs).2 le
  rw [remapDict, lzwDict, (remapDict_from 0 (hperm.nodup_iff.mpr h.nodup)
    (fun x hx => (h.find_isSome x).mpr (hperm.mem_iff.mp hx))).1, h.size_eq]

theorem Encoder.after_zero (le : α → α → Bool) (v : α) (vs : List α) :
    ∃ s, Encoder.after le (v :: vs) 0 = some s ∧ s.map.size = (collectDict (v :: vs)).2.length := by
  have h := collectDict_spec (v :: vs)
  have hperm := List.mergeSort_perm (collectDict (v :: vs)).2 le
  have hfind := (remapDict_from 0 (hperm.nodup_iff.mpr h.nodup)
    (fun x hx => (h.find_isSome x).mpr (hperm.mem_iff.mp hx))).2.1 v
  rw [if_pos (hperm.mem_iff.mpr ((h.mem_iff v).mpr (by simp)))] at hfind
  refine ⟨⟨remapDict (collectDict (v :: vs)).1 (lzwDict le (v :: vs)),
    (0 + (lzwDict le (v :: vs)).idxOf v) % 2^32, []⟩, ?_, size_remapDict le (v :: vs)⟩
  rw [Encoder.after, remapDict, lzwDict, hfind]
  rfl

theorem synced_after (le : α → α → Bool) (vs : List α)
    (hsize : ∀ n s, Encoder.after le vs n = some s → s.map.size < kNoPrefix) (n : ℕ)
    (hn : n < vs.length) :
    ∃ s, Encoder.after le vs n = some s ∧ Synced (lzwDict le vs) (vs.take (n + 1)) s := by
  have hk : kNoPrefix < 2^32 := by decide
  cases vs with
  | nil => exact absurd hn (Nat.not_lt_zero n)
  | cons v items =>
    obtain ⟨s₀, hs₀, hlen⟩ := Encoder.after_zero le v items
    obtain ⟨code, hfind, hsync⟩ := synced_start le v items
      (by rw [← hlen]; exact (hsize 0 s₀ hs₀).le.trans hk.le)
    have hrun : ∀ k, Encoder.after le (v :: items) k = (items.take k).foldlM Encoder.step
        ⟨remapDict (collectDict (v :: items)).1 (lzwDict le (v :: items)), code, []⟩ := by
      intro k
      rw [Encoder.after, hfind]
      rfl
    obtain ⟨s, hs, hs'⟩ := hsync.run items
      (fun x hx => ((sortedDict_spec le (v :: items)).1 x).mpr (by simp [hx]))
      (fun k s' hs' => hsize k s' ((hrun k).trans hs')) n
    exact ⟨s, (hrun n).trans hs, by simpa using hs'⟩

theorem Synced.decode {dict seen : List α} {s : Encoder α} (h : Synced dict seen s) :
    ∃ d, Decoder.after dict (s.codes ++ [s.code]) = some d ∧ d.out = seen := by
  rcases h.2 with ⟨hcodes, hm, hc, hseen⟩ | ⟨E, y, d, hd, h⟩
  · have hsub : SubstrInv dict ([] : List (ℕ × α)) [] [] := ⟨rfl, fun i s hi => by simp at hi⟩
    have hcopy := hsub.copy_eq (show s.code < dict.length + 0 from hc)
    refine ⟨⟨[], s.code, str dict [] s.code⟩, ?_, hseen⟩
    rw [hcodes, List.nil_append, Decoder.after, hcopy]
    rfl
  · obtain ⟨d', hstep, -, hout, -⟩ := h.decode
    exact ⟨d', by rw [Decoder.after_append hd, hstep], hout⟩

/-! ## Words -/

/-- What `LzwEncode` writes for a sequence that is not empty. -/
theorem lzwEncode_eq {le : α → α → Bool} (enc : α → Word64) {v : α} {vs : List α} {s : Encoder α}
    (hs : Encoder.after le (v :: vs) vs.length = some s) :
    lzwEncode le enc (v :: vs) =
      some (BitVec.ofNat 64 (lzwDict le (v :: vs)).length :: (lzwDict le (v :: vs)).map enc ++
        (s.codes ++ [s.code]).map (BitVec.ofNat 64)) := by
  rw [Encoder.after] at hs
  obtain ⟨code, hfind, hrun⟩ := Option.bind_eq_some_iff.mp hs
  rw [List.take_length] at hrun
  have hloop := lzwEncodeLoop_eq
    ⟨remapDict (collectDict (v :: vs)).1 (lzwDict le (v :: vs)), code, []⟩ vs
  rw [hrun, Option.map_some] at hloop
  simp only [List.nil_append, Option.map_id'] at hloop
  have hsize := size_remapDict le (v :: vs)
  have hlen : (lzwDict le (v :: vs)).length = (collectDict (v :: vs)).2.length :=
    List.length_mergeSort _
  rw [lzwDict] at hfind hsize hloop hlen ⊢
  rw [lzwEncode]
  generalize collectDict (v :: vs) = p at hfind hsize hloop hlen ⊢
  obtain ⟨m, dict⟩ := p
  dsimp only at hfind hsize hloop hlen ⊢
  rw [if_neg (by rw [hsize, hlen]; simp), hfind]
  simp only [Option.bind_eq_bind, Option.bind_some]
  rw [hloop]
  rfl

omit [DecidableEq α] in
/-- What `LzwDecode` reads: the dictionary and the codes. -/
theorem lzwDecode_eq {enc : α → Word64} {dec : Word64 → α} (hdec : ∀ x, dec (enc x) = x)
    {dict : List α} (hdict : dict ≠ []) (hlen : dict.length < 2^64) {codes : List ℕ}
    (hcodes : ∀ c ∈ codes, c < 2^32) (hne : codes ≠ []) :
    lzwDecode dec (BitVec.ofNat 64 dict.length :: dict.map enc ++ codes.map (BitVec.ofNat 64)) =
      (Decoder.after dict codes).map Decoder.out := by
  have hn : (BitVec.ofNat 64 dict.length).toNat = dict.length := by
    rw [BitVec.toNat_ofNat]
    exact Nat.mod_eq_of_lt hlen
  have htake : ((dict.map enc ++ codes.map (BitVec.ofNat 64)).take dict.length).map dec = dict := by
    rw [List.take_left' (List.length_map ..), List.map_map]
    exact (List.map_congr_left fun x _ => hdec x).trans (List.map_id _)
  have hdrop : (dict.map enc ++ codes.map (BitVec.ofNat 64)).drop dict.length =
      codes.map (BitVec.ofNat 64) := List.drop_left' (List.length_map ..)
  have hcode : ∀ c ∈ codes, (BitVec.ofNat 64 c).toNat % 2^32 = c := by
    intro c hc
    have := hcodes c hc
    rw [BitVec.toNat_ofNat]
    omega
  obtain ⟨x, xs, rfl⟩ := List.exists_cons_of_ne_nil hdict
  obtain ⟨c, cs, rfl⟩ := List.exists_cons_of_ne_nil hne
  have hcs : (cs.map (BitVec.ofNat 64)).map (fun c => c.toNat % 2^32) = cs := by
    rw [List.map_map]
    exact (List.map_congr_left fun c' hc' => hcode c' (by simp [hc'])).trans (List.map_id _)
  rw [List.cons_append, List.map_cons, List.cons_append, lzwDecode]
  · rw [← List.cons_append, ← List.map_cons, hn, htake, hdrop, List.map_cons]
    simp only [hcs, hcode c (by simp), Decoder.after]
    cases lzwCopy (x :: xs) [] c [] with
    | none => rfl
    | some out => exact lzwDecodeLoop_eq (x :: xs) ⟨[], c, out⟩ cs
  · simp

/-- What the encoder writes is read back by the decoder. -/
theorem decode_encode (le : α → α → Bool) {enc : α → Word64} {dec : Word64 → α}
    (hdec : ∀ x, dec (enc x) = x) (vs : List α)
    (hsize : ∀ n s, Encoder.after le vs n = some s → s.map.size < kNoPrefix) :
    ∃ ws, lzwEncode le enc vs = some ws ∧ lzwDecode dec ws = some vs := by
  have hk : kNoPrefix < 2^32 := by decide
  cases vs with
  | nil => exact ⟨[BitVec.ofNat 64 0], by simp [lzwEncode, collectDict, remapDict, CodeMap.empty], rfl⟩
  | cons v items =>
    obtain ⟨s, hs, hsync⟩ := synced_after le (v :: items) hsize items.length (by simp)
    obtain ⟨s₀, hs₀, hlen⟩ := Encoder.after_zero le v items
    obtain ⟨d, hd, hout⟩ := hsync.decode
    have hv : v ∈ lzwDict le (v :: items) := ((sortedDict_spec le (v :: items)).1 v).mpr (by simp)
    have hdlen : (lzwDict le (v :: items)).length < 2^64 := by
      rw [lzwDict, List.length_mergeSort, ← hlen]
      exact (hsize 0 s₀ hs₀).trans (hk.trans (by norm_num))
    have hfits := hsize items.length s hs
    refine ⟨_, lzwEncode_eq enc hs, ?_⟩
    rw [lzwDecode_eq hdec (List.ne_nil_of_mem hv) hdlen, hd, Option.map_some, hout]
    · simp
    · intro c hc
      rcases List.mem_append.mp hc with hc | hc
      · exact (hsync.1 c hc).trans (hfits.trans hk)
      · rw [List.mem_singleton.mp hc]
        exact hsync.code_lt_size.trans (hfits.trans hk)
    · simp

theorem Encoder.size_step {s s' : Encoder α} {x : α} (h : s.step x = some s') :
    s'.map.size ≤ s.map.size + 1 := by
  rw [Encoder.step] at h
  split at h
  · obtain rfl := Option.some.inj h
    exact Nat.le_succ _
  · obtain ⟨next, -, rfl⟩ := Option.map_eq_some_iff.mp h
    rfl

theorem Encoder.size_run {s s' : Encoder α} {items : List α}
    (h : items.foldlM Encoder.step s = some s') : s'.map.size ≤ s.map.size + items.length := by
  induction items generalizing s with
  | nil =>
    obtain rfl := Option.some.inj h
    exact Nat.le_refl _
  | cons x xs ih =>
    rw [List.foldlM_cons] at h
    obtain ⟨s₁, hs₁, hrun⟩ := Option.bind_eq_some_iff.mp h
    have h₁ := Encoder.size_step hs₁
    have h₂ := ih hrun
    rw [List.length_cons]
    omega

/-- What the encoder writes for a sequence that is not too long is read back by the decoder, and it
has enough words for the strings of its codes to cover the input. -/
theorem lzwDecode_lzwEncode (le : α → α → Bool) (enc : α → Word64) (dec : Word64 → α)
    (hdec : ∀ x, dec (enc x) = x) (vs : List α) (hlen : 2 * vs.length < kNoPrefix) :
    ∃ ws, lzwEncode le enc vs = some ws ∧ lzwDecode dec ws = some vs ∧
      vs.length ≤ ws.length * ws.length := by
  have hk : kNoPrefix < 2^32 := by decide
  have hdict : (collectDict vs).2.length ≤ vs.length := by
    have := (sortedDict_spec le vs).2
    rwa [List.length_mergeSort] at this
  have hsize : ∀ n s, Encoder.after le vs n = some s → s.map.size < kNoPrefix := by
    intro n s hs
    cases vs with
    | nil => simp [Encoder.after] at hs
    | cons v items =>
      rw [Encoder.after] at hs
      obtain ⟨code, -, hrun⟩ := Option.bind_eq_some_iff.mp hs
      have h := Encoder.size_run hrun
      have htake := List.length_take_le' n items
      rw [size_remapDict] at h
      simp only [List.length_cons] at hlen hdict
      omega
  obtain ⟨ws, hws, hws'⟩ := decode_encode le hdec vs hsize
  refine ⟨ws, hws, hws', ?_⟩
  cases vs with
  | nil => simp
  | cons v items =>
    obtain ⟨s, hs, hsync⟩ := synced_after le (v :: items) hsize items.length (by simp)
    rw [lzwEncode_eq enc hs] at hws
    obtain rfl := Option.some.inj hws
    rw [Encoder.after] at hs
    obtain ⟨code, hfind, hrun⟩ := Option.bind_eq_some_iff.mp hs
    rw [List.take_length] at hrun
    have hloop := lzwEncodeLoop_eq
      ⟨remapDict (collectDict (v :: items)).1 (lzwDict le (v :: items)), code, []⟩ items
    rw [hrun, Option.map_some] at hloop
    simp only [List.nil_append, Option.map_id'] at hloop
    have hm := remapDict_spec le (v :: items) (by omega)
    have hmem := (sortedDict_spec le (v :: items)).1
    obtain ⟨hfind', hlt, hstr⟩ := hm.single_eq ((hmem v).mpr (by simp))
    rw [lzwDict] at hfind hloop
    rw [hfind'] at hfind
    obtain rfl := Option.some.inj hfind
    have hcover := length_le_encodeLoop items hm (fun i e hi => by simp at hi) (by simpa using hlt)
      (fun x hx => (hmem x).mpr (by simp [hx]))
      (by rw [List.length_mergeSort, List.length_nil]; simp only [List.length_cons] at hlen hdict; omega)
      hloop
    rw [hstr, List.length_nil, Nat.zero_add, List.length_singleton] at hcover
    simp only [List.length_cons, List.length_append, List.length_map] at hcover ⊢
    nlinarith

/-! ## The round trip -/

end Tasan.Codec
