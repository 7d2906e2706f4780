import Tasan.Codec.Leb128

/-!
# Lempel-Ziv-Welch coding

`LzwEncode` and `LzwDecode` of `sanitizer_lzw.h`, over items of any type that a word can hold. The
encoder's `prefix_to_code` is a finite map from pairs of a code and an item to codes. The decoder's
`code_to_substr` holds ranges of the output.

A code stands for a string of items. `strTable` lists the strings of all codes, from the dictionary of
single items and the list of extensions in the order in which the encoder inserts them. The encoder
inserts an extension with each code that it emits, and the decoder learns it with the next code, so
that it is always one extension behind.
-/

namespace Tasan.Codec

/-- `kNoPrefix`, one below the empty and the tombstone key of the map. -/
def kNoPrefix : ℕ := 2^32 - 3

section Model

variable {α : Type} [DecidableEq α]

/-- `prefix_to_code`, a `DenseMap` from substrings to codes. -/
structure CodeMap (α : Type) where
  find : ℕ × α → Option ℕ
  size : ℕ

/-- An empty map. -/
def CodeMap.empty : CodeMap α := ⟨fun _ => none, 0⟩

/-- A key that is not in the map inserted. -/
def CodeMap.insert (m : CodeMap α) (key : ℕ × α) (code : ℕ) : CodeMap α :=
  ⟨fun k => if k = key then some code else m.find k, m.size + 1⟩

/-- `operator[]` and an assignment. -/
def CodeMap.assign (m : CodeMap α) (key : ℕ × α) (code : ℕ) : CodeMap α :=
  ⟨fun k => if k = key then some code else m.find k,
    if (m.find key).isSome then m.size else m.size + 1⟩

/-- All substrings of length 1, in the order of their first occurrence. -/
def collectDict (vs : List α) : CodeMap α × List α :=
  vs.foldl
    (fun s x =>
      if (s.1.find (kNoPrefix, x)).isSome then s
      else (s.1.insert (kNoPrefix, x) 0, s.2 ++ [x]))
    (CodeMap.empty, [])

/-- Remap after the sort. -/
def remapDict (m : CodeMap α) (dictLen1 : List α) : CodeMap α :=
  dictLen1.zipIdx.foldl (fun m p => m.assign (kNoPrefix, p.1) (p.2 % 2^32)) m

/-- The main encoding loop, from the code of the current match. -/
def lzwEncodeLoop (m : CodeMap α) (code : ℕ) : List α → Option (List ℕ)
  | [] => some [code]
  | x :: xs =>
    match m.find (code, x) with
    -- Already known, use as the current match.
    | some code => lzwEncodeLoop m code xs
    | none => do
      -- Emit the code for the current match and reset it to a single item.
      let m := m.insert (code, x) (m.size % 2^32)
      let next ← m.find (kNoPrefix, x)
      let codes ← lzwEncodeLoop m next xs
      return code :: codes

/-- `LzwEncode`, with `enc` for the conversion of an item to a word. -/
def lzwEncode (le : α → α → Bool) (enc : α → Word64) (vs : List α) : Option (List Word64) := do
  let (m, dict) := collectDict vs
  let dictLen1 := dict.mergeSort le
  let m := remapDict m dictLen1
  let head := BitVec.ofNat 64 dictLen1.length :: dictLen1.map enc
  if m.size ≠ dictLen1.length then none
  else match vs with
    | [] => return head
    | v :: vs => do
      let code ← m.find (kNoPrefix, v)
      let codes ← lzwEncodeLoop m code vs
      return head ++ codes.map (BitVec.ofNat 64)

/-- The loop that copies `n` items of the output from position `it` to its end. -/
def copyItems (out : List α) (it : ℕ) : ℕ → Option (List α)
  | 0 => some out
  | n + 1 => do
    let x ← out[it]?
    copyItems (out ++ [x]) (it + 1) n

/-- `copy`: the substring of a code emitted again; `none` is a read out of range. -/
def lzwCopy (dictLen1 : List α) (codeToSubstr : List (ℕ × ℕ)) (code : ℕ) (out : List α) :
    Option (List α) :=
  if code < dictLen1.length then do
    let x ← dictLen1[code]?
    return out ++ [x]
  else do
    let s ← codeToSubstr[code - dictLen1.length]?
    copyItems out s.1 (s.2 - s.1)

/-- `code_to_len`. -/
def lzwCodeToLen (dictLen1 : List α) (codeToSubstr : List (ℕ × ℕ)) (code : ℕ) : Option ℕ :=
  if code < dictLen1.length then some 1
  else do
    let s ← codeToSubstr[code - dictLen1.length]?
    return s.2 - s.1

/-- The substring of a code emitted, which may be the one that is about to be defined. -/
def lzwEmit (dictLen1 : List α) (codeToSubstr : List (ℕ × ℕ)) (prevCode code : ℕ) (out : List α) :
    Option (List α) :=
  if code = dictLen1.length + codeToSubstr.length then do
    -- The previous substring and its first item.
    let out' ← lzwCopy dictLen1 codeToSubstr prevCode out
    let x ← out'[out.length]?
    return out' ++ [x]
  else lzwCopy dictLen1 codeToSubstr code out

/-- The main decoding loop. -/
def lzwDecodeLoop (dictLen1 : List α) (codeToSubstr : List (ℕ × ℕ)) (prevCode : ℕ) (out : List α) :
    List ℕ → Option (List α)
  | [] => some out
  | code :: codes => do
    let start := out.length
    let out ← lzwEmit dictLen1 codeToSubstr prevCode code out
    let len ← lzwCodeToLen dictLen1 codeToSubstr prevCode
    lzwDecodeLoop dictLen1 (codeToSubstr ++ [(start - len, start + 1)]) code out codes

/-- `LzwDecode`, with `dec` for the conversion of a word to an item; `none` is a read out of range. -/
def lzwDecode (dec : Word64 → α) : List Word64 → Option (List α)
  | [] => some []
  | [_] => some []
  | n :: ws =>
    let dictLen1 := (ws.take n.toNat).map dec
    match ws.drop n.toNat with
    | [] => none
    | code :: codes => do
      let prevCode := code.toNat % 2^32
      let out ← lzwCopy dictLen1 [] prevCode []
      lzwDecodeLoop dictLen1 [] prevCode out (codes.map fun c => c.toNat % 2^32)

end Model

/-! ## Strings -/

section Strings

variable {α : Type}

/-- The strings of the codes: the single items and then the extensions in order. -/
def strTable (dict : List α) (E : List (ℕ × α)) : List (List α) :=
  E.foldl (fun S e => S ++ [S.getD e.1 [] ++ [e.2]]) (dict.map fun x => [x])

/-- The string of a code. -/
def str (dict : List α) (E : List (ℕ × α)) (code : ℕ) : List α := (strTable dict E).getD code []

theorem strTable_snoc (dict : List α) (E : List (ℕ × α)) (e : ℕ × α) :
    strTable dict (E ++ [e]) = strTable dict E ++ [str dict E e.1 ++ [e.2]] := by
  unfold strTable str
  rw [List.foldl_append]
  rfl

theorem length_strTable (dict : List α) (E : List (ℕ × α)) :
    (strTable dict E).length = dict.length + E.length := by
  induction E using List.reverseRecOn with
  | nil => simp [strTable]
  | append_singleton E e ih =>
    rw [strTable_snoc, List.length_append, ih, List.length_append]
    simp only [List.length_singleton]
    omega

theorem str_snoc_of_lt {dict : List α} {E : List (ℕ × α)} (e : ℕ × α) {c : ℕ}
    (h : c < dict.length + E.length) : str dict (E ++ [e]) c = str dict E c := by
  unfold str
  rw [strTable_snoc, List.getD_append]
  rw [length_strTable]
  exact h

theorem str_snoc_self (dict : List α) (E : List (ℕ × α)) (e : ℕ × α) :
    str dict (E ++ [e]) (dict.length + E.length) = str dict E e.1 ++ [e.2] := by
  unfold str
  rw [strTable_snoc, List.getD_append_right]
  · simp [length_strTable, str]
  · rw [length_strTable]

theorem str_single {dict : List α} (E : List (ℕ × α)) {c : ℕ} {x : α} (h : dict[c]? = some x) :
    str dict E c = [x] := by
  have hc : c < dict.length := (List.getElem?_eq_some_iff.mp h).1
  induction E using List.reverseRecOn with
  | nil => simp [str, strTable, h]
  | append_singleton E e ih => rw [str_snoc_of_lt e (by omega), ih]

/-- Strings are not empty, and no longer than the number of extensions and one. -/
theorem str_length {dict : List α} (E : List (ℕ × α)) {c : ℕ} (h : c < dict.length + E.length) :
    0 < (str dict E c).length ∧ (str dict E c).length ≤ E.length + 1 := by
  induction E using List.reverseRecOn generalizing c with
  | nil =>
    obtain ⟨x, hx⟩ : ∃ x, dict[c]? = some x := ⟨_, List.getElem?_eq_getElem (by simpa using h)⟩
    simp [str_single [] hx]
  | append_singleton E e ih =>
    rw [List.length_append, List.length_singleton] at h ⊢
    rcases Nat.lt_or_ge c (dict.length + E.length) with hlt | hge
    · rw [str_snoc_of_lt e hlt]
      have := ih hlt
      omega
    · obtain rfl : c = dict.length + E.length := by omega
      rw [str_snoc_self, List.length_append, List.length_singleton]
      rcases Nat.lt_or_ge e.1 (dict.length + E.length) with hp | hp
      · have := ih hp
        omega
      · have : str dict E e.1 = [] := by
          unfold str
          rw [List.getD_eq_default]
          rw [length_strTable]
          exact hp
        simp [this]

end Strings

/-! ## The encoder's map -/

section Map

variable {α : Type} [DecidableEq α]

theorem CodeMap.find_insert (m : CodeMap α) (key k : ℕ × α) (code : ℕ) :
    (m.insert key code).find k = if k = key then some code else m.find k := rfl

theorem CodeMap.size_insert (m : CodeMap α) (key : ℕ × α) (code : ℕ) :
    (m.insert key code).size = m.size + 1 := rfl

theorem CodeMap.find_assign (m : CodeMap α) (key k : ℕ × α) (code : ℕ) :
    (m.assign key code).find k = if k = key then some code else m.find k := rfl

/-- The map holds the single items of `dict` and the extensions `E`, numbered in order. -/
structure MapInv (dict : List α) (E : List (ℕ × α)) (m : CodeMap α) : Prop where
  /-- One entry for each code. -/
  size_eq : m.size = dict.length + E.length
  /-- The codes of single items. -/
  single : ∀ x, m.find (kNoPrefix, x) = if x ∈ dict then some (dict.idxOf x) else none
  /-- The codes of extensions. -/
  ext : ∀ p x, p ≠ kNoPrefix →
    m.find (p, x) = if (p, x) ∈ E then some (dict.length + E.idxOf (p, x)) else none

theorem MapInv.insert {dict : List α} {E : List (ℕ × α)} {m : CodeMap α} (h : MapInv dict E m)
    {p : ℕ} {x : α} (hp : p ≠ kNoPrefix) (hnew : m.find (p, x) = none) (hsize : m.size < 2^32) :
    MapInv dict (E ++ [(p, x)]) (m.insert (p, x) (m.size % 2^32)) := by
  have hmem : (p, x) ∉ E := by
    intro hin
    rw [h.ext p x hp, if_pos hin] at hnew
    exact absurd hnew (by simp)
  refine ⟨?_, fun y => ?_, fun q y hq => ?_⟩
  · rw [CodeMap.size_insert, List.length_append, List.length_singleton, h.size_eq, Nat.add_assoc]
  · have hne : (kNoPrefix, y) ≠ (p, x) := fun hc => hp (congrArg Prod.fst hc).symm
    rw [CodeMap.find_insert, if_neg hne, h.single y]
  · rw [CodeMap.find_insert]
    by_cases heq : (q, y) = (p, x)
    · rw [if_pos heq, heq, if_pos (by simp), List.idxOf_append_of_notMem hmem, Nat.mod_eq_of_lt hsize,
        h.size_eq]
      simp
    · rw [if_neg heq, h.ext q y hq]
      by_cases hin : (q, y) ∈ E
      · rw [if_pos hin, if_pos (by simp [hin]), List.idxOf_append_of_mem hin]
      · rw [if_neg hin, if_neg (by simpa [hin] using heq)]

/-- What the loop over the input collects: the distinct items, and a map with their keys. -/
structure DictInv (vs : List α) (s : CodeMap α × List α) : Prop where
  /-- One key for each item. -/
  size_eq : s.1.size = s.2.length
  /-- No item occurs twice. -/
  nodup : s.2.Nodup
  /-- The items are those of the input. -/
  mem_iff : ∀ x, x ∈ s.2 ↔ x ∈ vs
  /-- The keys are those of the items. -/
  find_isSome : ∀ x, (s.1.find (kNoPrefix, x)).isSome = true ↔ x ∈ s.2
  /-- There are no other keys. -/
  find_none : ∀ p x, p ≠ kNoPrefix → s.1.find (p, x) = none

/-- The loop over the input. -/
theorem collectDict_spec (vs : List α) : DictInv vs (collectDict vs) := by
  unfold collectDict
  induction vs using List.reverseRecOn with
  | nil => exact ⟨rfl, List.nodup_nil, by simp, by simp [CodeMap.empty], fun _ _ _ => rfl⟩
  | append_singleton vs v ih =>
    rw [List.foldl_append, List.foldl_cons, List.foldl_nil]
    generalize vs.foldl _ _ = s at ih ⊢
    split_ifs with hv
    · refine ⟨ih.size_eq, ih.nodup, fun x => ?_, ih.find_isSome, ih.find_none⟩
      have hvmem := (ih.mem_iff v).mp ((ih.find_isSome v).mp hv)
      rw [ih.mem_iff, List.mem_append, List.mem_singleton]
      exact ⟨Or.inl, fun h => h.elim id fun h => h ▸ hvmem⟩
    · have hvnot : v ∉ s.2 := fun hin => hv ((ih.find_isSome v).mpr hin)
      refine ⟨?_, ?_, fun x => ?_, fun x => ?_, fun p x hp => ?_⟩
      · simp [CodeMap.size_insert, ih.size_eq]
      · exact List.nodup_append.mpr ⟨ih.nodup, List.nodup_singleton v, by
          intro a ha b hb
          rw [List.mem_singleton] at hb
          exact fun hab => hvnot (hb ▸ hab ▸ ha)⟩
      · simp [ih.mem_iff]
      · rw [List.mem_append, List.mem_singleton, ← ih.find_isSome]
        rw [CodeMap.find_insert]
        by_cases hx : x = v <;> simp [hx]
      · rw [CodeMap.find_insert, if_neg (by simp [hp]), ih.find_none p x hp]

/-- Assigning their positions to distinct items that are in the map. -/
theorem remapDict_from {l : List α} (k : ℕ) (hl : l.Nodup) {m : CodeMap α}
    (hm : ∀ x ∈ l, (m.find (kNoPrefix, x)).isSome = true) :
    let m' := (l.zipIdx k).foldl (fun m p => m.assign (kNoPrefix, p.1) (p.2 % 2^32)) m
    m'.size = m.size ∧
      (∀ x, m'.find (kNoPrefix, x) =
        if x ∈ l then some ((k + l.idxOf x) % 2^32) else m.find (kNoPrefix, x)) ∧
      ∀ p x, p ≠ kNoPrefix → m'.find (p, x) = m.find (p, x) := by
  induction l generalizing k m with
  | nil => exact ⟨rfl, fun _ => rfl, fun _ _ _ => rfl⟩
  | cons a l ih =>
    obtain ⟨ha, hl'⟩ := List.nodup_cons.mp hl
    have hm' : ∀ x ∈ l, ((m.assign (kNoPrefix, a) (k % 2^32)).find
        (kNoPrefix, x)).isSome = true := by
      intro x hx
      rw [CodeMap.find_assign]
      split_ifs
      · rfl
      · exact hm x (by simp [hx])
    obtain ⟨h1, h2, h3⟩ := ih (k + 1) hl' hm'
    rw [List.zipIdx_cons, List.foldl_cons]
    refine ⟨?_, fun x => ?_, fun p x hp => ?_⟩
    · rw [h1, CodeMap.assign]
      exact if_pos (hm a (by simp))
    · rw [h2, CodeMap.find_assign]
      by_cases hxa : x = a
      · subst hxa
        rw [if_neg ha, if_pos rfl, if_pos (by simp), List.idxOf_cons_self, Nat.add_zero]
      · by_cases hxl : x ∈ l
        · rw [if_pos hxl, if_pos (by simp [hxl]), List.idxOf_cons_ne _ (Ne.symm hxa)]
          congr 2
          omega
        · rw [if_neg hxl, if_neg (by simp [hxa]), if_neg (by simp [hxa, hxl])]
    · rw [h3 p x hp, CodeMap.find_assign, if_neg (by simp [hp])]

theorem remapDict_spec (le : α → α → Bool) (vs : List α)
    (hlen : (collectDict vs).2.length ≤ 2^32) :
    MapInv ((collectDict vs).2.mergeSort le) []
      (remapDict (collectDict vs).1 ((collectDict vs).2.mergeSort le)) := by
  have h := collectDict_spec vs
  have hperm := List.mergeSort_perm (collectDict vs).2 le
  have hnd : ((collectDict vs).2.mergeSort le).Nodup := hperm.nodup_iff.mpr h.nodup
  obtain ⟨h1, h2, h3⟩ := remapDict_from 0 hnd (m := (collectDict vs).1)
    (fun x hx => (h.find_isSome x).mpr (hperm.mem_iff.mp hx))
  refine ⟨?_, fun x => ?_, fun p x hp => ?_⟩
  · rw [remapDict, h1, h.size_eq, List.length_mergeSort, List.length_nil, Nat.add_zero]
  · rw [remapDict, h2]
    split_ifs with hx
    · have hidx := List.idxOf_lt_length_of_mem hx
      rw [List.length_mergeSort] at hidx
      rw [Nat.zero_add, Nat.mod_eq_of_lt (by omega)]
    · have := (h.find_isSome x).not.mpr (fun hin => hx (hperm.mem_iff.mpr hin))
      simpa using this
  · rw [remapDict, h3 p x hp, h.find_none p x hp]
    simp

end Map

/-! ## The decoder's ranges -/

section Decoder

variable {α : Type}

/-- Every extension extends a code before it. -/
def ExtInv (dict : List α) (E : List (ℕ × α)) : Prop :=
  ∀ i e, E[i]? = some e → e.1 < dict.length + i

theorem ExtInv.snoc {dict : List α} {E : List (ℕ × α)} (h : ExtInv dict E) {e : ℕ × α}
    (he : e.1 < dict.length + E.length) : ExtInv dict (E ++ [e]) := by
  intro i e' hi
  rcases Nat.lt_trichotomy i E.length with hlt | rfl | hgt
  · rw [List.getElem?_append_left hlt] at hi
    exact h i e' hi
  · rw [List.getElem?_append_right le_rfl, Nat.sub_self] at hi
    simp only [List.getElem?_cons_zero, Option.some.injEq] at hi
    rw [← hi]
    exact he
  · rw [List.getElem?_eq_none (by simp; omega)] at hi
    exact absurd hi (by simp)

theorem ExtInv.str_eq {dict : List α} {E : List (ℕ × α)} (h : ExtInv dict E) {i : ℕ} {e : ℕ × α}
    (hi : E[i]? = some e) : str dict E (dict.length + i) = str dict E e.1 ++ [e.2] := by
  induction E using List.reverseRecOn with
  | nil => simp at hi
  | append_singleton E e' ih =>
    have hE : ExtInv dict E := fun j e hj =>
      h j e (by rw [List.getElem?_append_left (List.getElem?_eq_some_iff.mp hj).1]; exact hj)
    have hlt := h i e hi
    rcases Nat.lt_trichotomy i E.length with hlt' | rfl | hgt
    · rw [List.getElem?_append_left hlt'] at hi
      rw [str_snoc_of_lt _ (by omega), str_snoc_of_lt _ (by omega)]
      exact ih hE hi
    · rw [List.getElem?_append_right le_rfl, Nat.sub_self] at hi
      simp only [List.getElem?_cons_zero, Option.some.injEq] at hi
      rw [str_snoc_self, hi, str_snoc_of_lt _ hlt]
    · rw [List.getElem?_eq_none (by simp; omega)] at hi
      exact absurd hi (by simp)

theorem copyItems_eq (out : List α) (it n : ℕ) (h : it + n ≤ out.length) :
    copyItems out it n = some (out ++ (out.drop it).take n) := by
  induction n generalizing out it with
  | zero => simp [copyItems]
  | succ n ih =>
    have hit : it < out.length := by omega
    rw [copyItems, List.getElem?_eq_getElem hit]
    simp only [Option.bind_eq_bind, Option.bind_some]
    rw [ih _ _ (by simp; omega), List.drop_append_of_le_length (by omega),
      List.take_append_of_le_length (by simp; omega), List.append_assoc]
    congr 2
    rw [List.drop_eq_getElem_cons hit, List.take_succ_cons, List.singleton_append]

/-- The ranges of the output hold the strings of the extensions `E`. -/
structure SubstrInv (dict : List α) (E : List (ℕ × α)) (subs : List (ℕ × ℕ)) (out : List α) :
    Prop where
  /-- A range for each extension. -/
  length_eq : subs.length = E.length
  /-- The range lies in the output and holds the string. -/
  range : ∀ i s, subs[i]? = some s → s.1 ≤ s.2 ∧ s.2 ≤ out.length ∧
    (out.drop s.1).take (s.2 - s.1) = str dict E (dict.length + i)

variable {dict : List α} {E : List (ℕ × α)} {subs : List (ℕ × ℕ)} {out : List α}

theorem SubstrInv.copy_eq (h : SubstrInv dict E subs out) {code : ℕ}
    (hc : code < dict.length + E.length) :
    lzwCopy dict subs code out = some (out ++ str dict E code) := by
  unfold lzwCopy
  split_ifs with hlt
  · rw [List.getElem?_eq_getElem hlt, str_single E (List.getElem?_eq_getElem hlt)]
    rfl
  · have hi : code - dict.length < subs.length := by
      rw [h.length_eq]
      omega
    obtain ⟨h1, h2, h3⟩ := h.range _ _ (List.getElem?_eq_getElem hi)
    rw [List.getElem?_eq_getElem hi]
    simp only [Option.bind_eq_bind, Option.bind_some]
    rw [copyItems_eq _ _ _ (by omega), h3, show dict.length + (code - dict.length) = code by omega]

theorem SubstrInv.codeToLen_eq (h : SubstrInv dict E subs out) {code : ℕ}
    (hc : code < dict.length + E.length) :
    lzwCodeToLen dict subs code = some (str dict E code).length := by
  unfold lzwCodeToLen
  split_ifs with hlt
  · rw [str_single E (List.getElem?_eq_getElem hlt)]
    rfl
  · have hi : code - dict.length < subs.length := by
      rw [h.length_eq]
      omega
    obtain ⟨h1, h2, h3⟩ := h.range _ _ (List.getElem?_eq_getElem hi)
    rw [show dict.length + (code - dict.length) = code by omega] at h3
    rw [List.getElem?_eq_getElem hi, ← h3, List.length_take, List.length_drop,
      min_eq_left (by omega)]
    rfl

/-- One step of the decoder, which knows the extensions `E` and is about to learn that of the previous
code by `y`: it emits the string of the code and learns the extension. -/
theorem SubstrInv.step (h : SubstrInv dict E subs out) {pre : List α} {prev : ℕ} {y : α}
    (hprev : prev < dict.length + E.length) (hout : out = pre ++ str dict E prev) {code : ℕ}
    (hcode : code < dict.length + (E ++ [(prev, y)]).length)
    (hy : (str dict (E ++ [(prev, y)]) code).head? = some y) :
    lzwEmit dict subs prev code out = some (out ++ str dict (E ++ [(prev, y)]) code) ∧
      lzwCodeToLen dict subs prev = some (str dict E prev).length ∧
      SubstrInv dict (E ++ [(prev, y)])
        (subs ++ [(out.length - (str dict E prev).length, out.length + 1)])
        (out ++ str dict (E ++ [(prev, y)]) code) := by
  have hlen := h.length_eq
  have hnonempty := (str_length E hprev).1
  refine ⟨?_, h.codeToLen_eq hprev, ?_, ?_⟩
  · unfold lzwEmit
    rw [List.length_append, List.length_singleton] at hcode
    split_ifs with hnew
    · -- The code that is about to be defined: its string starts with its own last item.
      rw [hlen] at hnew
      rw [hnew, str_snoc_self] at hy ⊢
      obtain ⟨a, s, hs⟩ := List.exists_cons_of_length_pos hnonempty
      rw [h.copy_eq hprev]
      rw [hs] at hy ⊢
      simp only [List.cons_append, List.head?_cons, Option.some.injEq] at hy
      simp only [Option.bind_eq_bind, Option.bind_some,
        List.getElem?_append_right (le_refl out.length), Nat.sub_self, List.getElem?_cons_zero]
      rw [hy, List.append_assoc]
      rfl
    · rw [hlen] at hnew
      rw [str_snoc_of_lt _ (by omega), h.copy_eq (by omega)]
  · simp [hlen]
  · intro i s hi
    rcases Nat.lt_trichotomy i subs.length with hlt | rfl | hgt
    · rw [List.getElem?_append_left hlt] at hi
      obtain ⟨h1, h2, h3⟩ := h.range i s hi
      refine ⟨h1, by rw [List.length_append]; omega, ?_⟩
      rw [List.drop_append_of_le_length (by omega),
        List.take_append_of_le_length (by rw [List.length_drop]; omega), h3,
        str_snoc_of_lt _ (by omega)]
    · -- The new range: the previous substring and the first item of this one.
      rw [List.getElem?_append_right le_rfl, Nat.sub_self] at hi
      simp only [List.getElem?_cons_zero, Option.some.injEq] at hi
      obtain ⟨t, ht⟩ := List.head?_eq_some_iff.mp hy
      have houtlen : out.length = pre.length + (str dict E prev).length := by
        rw [hout, List.length_append]
      rw [← hi, ht, hlen, str_snoc_self]
      dsimp only
      refine ⟨by omega, by rw [List.length_append, List.length_cons]; omega, ?_⟩
      rw [show out.length - (str dict E prev).length = pre.length by omega,
        show out.length + 1 - pre.length = (str dict E prev).length + 1 by omega, hout,
        List.append_assoc, List.drop_left, List.take_append]
      simp
    · rw [List.getElem?_eq_none (by simp; omega)] at hi
      exact absurd hi (by simp)

end Decoder

/-! ## The two loops together -/

section Loops

variable {α : Type} [DecidableEq α] {dict : List α}

theorem MapInv.str_of_find {E : List (ℕ × α)} {m : CodeMap α} (h : MapInv dict E m)
    (hE : ExtInv dict E) {p c : ℕ} {x : α} (hp : p ≠ kNoPrefix) (hfind : m.find (p, x) = some c) :
    c < dict.length + E.length ∧ str dict E c = str dict E p ++ [x] := by
  rw [h.ext p x hp] at hfind
  split_ifs at hfind with hmem
  obtain rfl := Option.some.inj hfind
  have hidx := List.idxOf_lt_length_of_mem hmem
  exact ⟨by omega, hE.str_eq (List.getElem?_idxOf hmem)⟩

theorem MapInv.single_eq {E : List (ℕ × α)} {m : CodeMap α} (h : MapInv dict E m) {x : α}
    (hx : x ∈ dict) :
    m.find (kNoPrefix, x) = some (dict.idxOf x) ∧ dict.idxOf x < dict.length ∧
      str dict E (dict.idxOf x) = [x] := by
  refine ⟨by rw [h.single, if_pos hx], List.idxOf_lt_length_of_mem hx, ?_⟩
  exact str_single E (List.getElem?_idxOf hx)

/-- The loop emits at least as many codes as strings that grow by one item each can cover. -/
theorem length_le_encodeLoop (items : List α) {E : List (ℕ × α)} {code : ℕ} {m : CodeMap α}
    (hm : MapInv dict E m) (hE : ExtInv dict E) (hcode : code < dict.length + E.length)
    (hitems : ∀ x ∈ items, x ∈ dict) (hsize : dict.length + E.length + items.length < kNoPrefix)
    {codes : List ℕ} (hrun : lzwEncodeLoop m code items = some codes) :
    (str dict E code).length + items.length ≤ codes.length * (E.length + codes.length) := by
  have hk : kNoPrefix < 2^32 := by decide
  induction items generalizing E code m codes with
  | nil =>
    obtain rfl := Option.some.inj hrun
    have := (str_length E hcode).2
    simp
    omega
  | cons x xs ih =>
    rw [List.length_cons] at hsize ⊢
    have hcodek : code ≠ kNoPrefix := by omega
    rw [lzwEncodeLoop] at hrun
    cases hfind : m.find (code, x) with
    | some c =>
      rw [hfind] at hrun
      obtain ⟨hc, hstr⟩ := hm.str_of_find hE hcodek hfind
      have := ih hm hE hc (fun z hz => hitems z (by simp [hz])) (by omega) hrun
      rw [hstr, List.length_append, List.length_singleton] at this
      omega
    | none =>
      rw [hfind] at hrun
      have hm' := hm.insert hcodek hfind (by rw [hm.size_eq]; omega)
      obtain ⟨hnext, hnextlt, hnextstr⟩ := hm'.single_eq (hitems x (by simp))
      simp only [Option.bind_eq_bind, hnext, Option.bind_some, Option.bind_eq_some_iff] at hrun
      obtain ⟨rest, hrest, hcodes⟩ := hrun
      obtain rfl := Option.some.inj hcodes
      have hlen : (E ++ [(code, x)]).length = E.length + 1 := by simp
      have h1 := ih hm' (hE.snoc hcode) (by omega) (fun z hz => hitems z (by simp [hz]))
        (by omega) hrest
      have h2 := (str_length E hcode).2
      rw [hnextstr, hlen, List.length_singleton] at h1
      rw [List.length_cons]
      have h3 : (rest.length + 1) * (E.length + (rest.length + 1)) =
          rest.length * (E.length + 1 + rest.length) + (E.length + 1 + rest.length) := by ring
      omega

theorem sortedDict_spec (le : α → α → Bool) (vs : List α) :
    (∀ x, x ∈ (collectDict vs).2.mergeSort le ↔ x ∈ vs) ∧
      ((collectDict vs).2.mergeSort le).length ≤ vs.length := by
  have h := collectDict_spec vs
  have hperm := List.mergeSort_perm (collectDict vs).2 le
  refine ⟨fun x => (hperm.mem_iff).trans (h.mem_iff x), ?_⟩
  rw [hperm.length_eq]
  exact (h.nodup.subperm fun x hx => (h.mem_iff x).mp hx).length_le

end Loops

end Tasan.Codec
