import Tasan.Word
import Tasan.FlagParser.Model

/-!
# Vectors on mappings

`InternalMmapVectorNoCtor<char>` of `sanitizer_common.h`, with the bytes of its mapping. `resize`
grows the mapping to whole pages and clears what it adds (`resize_grow`); a smaller size leaves the
mapping as it is. `MmapOrDie` may fail, and its failure is the only way in which a vector whose size
is below `2^63` can stop (`resize_cases`).
-/

namespace Tasan

open FlagParser (nul)

/-- The ways in which an operation on a mapping stops. -/
inductive MmapFault
  /-- A `CHECK` fails. -/
  | check
  /-- `MmapOrDie` dies. -/
  | mmapOrDie
  /-- Not a death: memory outside of a mapping is read or written. -/
  | outside
  deriving DecidableEq

/-- The system: its pages, and which mappings succeed. -/
structure MmapEnv where
  /-- The logarithm of the page size. -/
  pageLog : ℕ
  /-- The page size is a word. -/
  pageLog_lt : pageLog < 64
  /-- Whether a mapping of so many bytes succeeds. -/
  maps : ℕ → Bool

/-- The page size. -/
def MmapEnv.pageSize (E : MmapEnv) : ℕ := 2^E.pageLog

/-- `RoundUpTo` of a size to whole pages. -/
def MmapEnv.roundUp (E : MmapEnv) (size : ℕ) : ℕ := Word.roundUpTo 64 size E.pageSize

/-- `MmapOrDie`: the bytes of a new mapping. -/
def MmapEnv.mmapOrDie (E : MmapEnv) (size : ℕ) : Outcome MmapFault (List Char) :=
  if E.maps (E.roundUp size) then .returned (List.replicate (E.roundUp size) nul)
  else .stopped .mmapOrDie

/-- `InternalMmapVectorNoCtor<char>`. -/
structure InternalMmapVector where
  /-- The bytes at `data_`, of which there are `capacity_bytes_`. -/
  data : List Char
  size : ℕ

namespace InternalMmapVector

variable (E : MmapEnv) (v : InternalMmapVector)

/-- `capacity`. -/
def capacity : ℕ := v.data.length

/-- `clear`. -/
def clear : InternalMmapVector := ⟨v.data, 0⟩

/-- `Realloc`. The bytes are copied into the new mapping. -/
def realloc (newCapacity : ℕ) : Outcome MmapFault InternalMmapVector :=
  if newCapacity = 0 ∨ newCapacity < v.size then .stopped .check
  else do
    let newData ← E.mmapOrDie newCapacity
    if newData.length < v.size then .stopped .outside
    else return ⟨v.data.take v.size ++ newData.drop v.size, v.size⟩

/-- `reserve`. -/
def reserve (newSize : ℕ) : Outcome MmapFault InternalMmapVector :=
  if v.capacity < newSize then v.realloc E newSize else .returned v

/-- `internal_memset` of the bytes from `size_` up to a new size. -/
def zero (newSize : ℕ) : Outcome MmapFault InternalMmapVector :=
  if v.capacity < newSize then .stopped .outside
  else
    .returned ⟨v.data.take v.size ++
      (List.replicate (newSize - v.size) nul ++ v.data.drop newSize), v.size⟩

/-- `resize`. -/
def resize (newSize : ℕ) : Outcome MmapFault InternalMmapVector := do
  let v ← if v.size < newSize then do
      let v ← v.reserve E newSize
      v.zero newSize
    else .returned v
  return ⟨v.data, newSize⟩

end InternalMmapVector

/-! ## Sizes -/

variable {E : MmapEnv} {v : InternalMmapVector} {n : ℕ}

theorem MmapEnv.pageSize_pos (E : MmapEnv) : 0 < E.pageSize := Nat.two_pow_pos _

theorem MmapEnv.pageSize_le (E : MmapEnv) : E.pageSize ≤ 2^63 := by
  have hlog := E.pageLog_lt
  exact Nat.pow_le_pow_right (by decide) (by omega)

theorem MmapEnv.le_roundUp (hn : n ≤ 2^63) : n ≤ E.roundUp n := by
  have hpage := E.pageSize_le
  have hpos := E.pageSize_pos
  unfold MmapEnv.roundUp MmapEnv.pageSize at *
  rw [Word.roundUpTo_of_lt E.pageLog_lt (by omega)]
  have hdiv := Nat.div_add_mod (n + 2^E.pageLog - 1) (2^E.pageLog)
  have hmod := Nat.mod_lt (n + 2^E.pageLog - 1) hpos
  rw [mul_comm] at hdiv
  omega

theorem MmapEnv.dvd_roundUp (hn : n ≤ 2^63) : E.pageSize ∣ E.roundUp n := by
  have hpage := E.pageSize_le
  unfold MmapEnv.roundUp MmapEnv.pageSize at *
  rw [Word.roundUpTo_of_lt E.pageLog_lt (by omega)]
  exact Nat.dvd_mul_left _ _

theorem MmapEnv.roundUp_le {k : ℕ} (hn : n ≤ 2^63) (hk : E.pageSize ∣ k) (hle : n ≤ k) :
    E.roundUp n ≤ k := by
  have hpage := E.pageSize_le
  obtain ⟨pages, rfl⟩ := hk
  unfold MmapEnv.roundUp MmapEnv.pageSize at *
  rw [Word.roundUpTo_of_lt E.pageLog_lt (by omega)]
  have hpos : 0 < 2^E.pageLog := Nat.two_pow_pos _
  calc (n + 2^E.pageLog - 1) / 2^E.pageLog * 2^E.pageLog
      ≤ (2^E.pageLog * pages + (2^E.pageLog - 1)) / 2^E.pageLog * 2^E.pageLog :=
        Nat.mul_le_mul_right _ (Nat.div_le_div_right (by omega))
    _ = pages * 2^E.pageLog := by
        rw [Nat.mul_add_div hpos, Nat.div_eq_of_lt (by omega), Nat.add_zero]
    _ = 2^E.pageLog * pages := Nat.mul_comm _ _

theorem MmapEnv.roundUp_mono {k : ℕ} (hle : n ≤ k) (hk : k ≤ 2^63) : E.roundUp n ≤ E.roundUp k :=
  E.roundUp_le (hle.trans hk) (E.dvd_roundUp hk) (hle.trans (E.le_roundUp hk))

theorem MmapEnv.roundUp_of_dvd (hn : n ≤ 2^63) (hdvd : E.pageSize ∣ n) : E.roundUp n = n :=
  le_antisymm (E.roundUp_le hn hdvd le_rfl) (E.le_roundUp hn)

theorem MmapEnv.mmapOrDie_cases (E : MmapEnv) (n : ℕ) :
    E.mmapOrDie n = .returned (List.replicate (E.roundUp n) nul) ∨
      E.mmapOrDie n = .stopped .mmapOrDie ∧ E.maps (E.roundUp n) = false := by
  unfold MmapEnv.mmapOrDie
  cases E.maps (E.roundUp n) with
  | false => exact Or.inr ⟨rfl, rfl⟩
  | true => exact Or.inl rfl

namespace InternalMmapVector

/-- Reserving keeps the bytes and makes room, unless the mapping fails. -/
theorem reserve_cases (E : MmapEnv) (hsize : v.size ≤ v.capacity) (hn : n ≤ 2^63) :
    (∃ v', v.reserve E n = .returned v' ∧ v'.size = v.size ∧
        v'.data.take v.size = v.data.take v.size ∧
        v'.capacity = if v.capacity < n then E.roundUp n else v.capacity) ∨
      v.reserve E n = .stopped .mmapOrDie ∧ E.maps (E.roundUp n) = false := by
  unfold reserve
  split_ifs with hlt
  · have hround := E.le_roundUp hn
    unfold realloc
    rw [if_neg (by omega)]
    rcases E.mmapOrDie_cases n with hmap | ⟨hmap, hfail⟩
    · have hlen : (List.replicate (E.roundUp n) nul).length = E.roundUp n := List.length_replicate
      have htake : (v.data.take v.size).length = v.size := List.length_take_of_le hsize
      rw [hmap, Outcome.returned_bind, hlen, if_neg (by omega)]
      refine Or.inl ⟨_, rfl, rfl, List.take_left' htake, ?_⟩
      unfold capacity
      rw [List.length_append, List.length_drop, htake, hlen]
      omega
    · rw [hmap]
      exact Or.inr ⟨rfl, hfail⟩
  · exact Or.inl ⟨v, rfl, rfl, rfl, rfl⟩

theorem resize_shrink (hn : n ≤ v.size) : v.resize E n = .returned ⟨v.data, n⟩ := by
  unfold resize
  rw [if_neg (not_lt.mpr hn)]
  rfl

theorem resize_capacity (E : MmapEnv) (hsize : v.size ≤ v.capacity) :
    ∃ data, v.resize E v.capacity = .returned ⟨data, v.capacity⟩ ∧ data.length = v.capacity ∧
      data.take v.size = v.data.take v.size := by
  rcases hsize.eq_or_lt with heq | hlt
  · exact ⟨v.data, resize_shrink heq.ge, rfl, rfl⟩
  · have htake : (v.data.take v.size).length = v.size := List.length_take_of_le hsize
    unfold resize reserve
    rw [if_pos hlt, if_neg (lt_irrefl _), Outcome.returned_bind]
    unfold zero
    rw [if_neg (lt_irrefl _)]
    refine ⟨_, rfl, ?_, List.take_left' htake⟩
    unfold capacity at *
    rw [List.length_append, List.length_append, List.length_replicate, List.length_drop, htake]
    omega

/-- A larger size keeps the bytes and adds zeros, unless the mapping fails. -/
theorem resize_grow (E : MmapEnv) (hsize : v.size ≤ v.capacity) (hlt : v.size < n) (hn : n ≤ 2^63) :
    (∃ v', v.resize E n = .returned v' ∧ v'.size = n ∧ n ≤ v'.capacity ∧
        v'.data.take n = v.data.take v.size ++ List.replicate (n - v.size) nul ∧
        v'.capacity = if v.capacity < n then E.roundUp n else v.capacity) ∨
      v.resize E n = .stopped .mmapOrDie ∧ E.maps (E.roundUp n) = false := by
  unfold resize
  rw [if_pos hlt]
  rcases reserve_cases E hsize hn with ⟨w, hrun, hwsize, htake, hcap⟩ | ⟨hrun, hfail⟩
  · have hround := E.le_roundUp hn
    have hroom : n ≤ w.capacity := by
      rw [hcap]
      split_ifs
      · exact hround
      · omega
    have hlen : (w.data.take w.size).length = w.size := List.length_take_of_le (by
      unfold capacity at hroom
      omega)
    have hzeros : (List.replicate (n - w.size) nul).length = n - w.size := List.length_replicate
    -- the new bytes stand between the old ones and what is behind the new size
    have hcapacity :
        (w.data.take w.size ++ (List.replicate (n - w.size) nul ++ w.data.drop n)).length =
          w.capacity := by
      unfold capacity at hroom ⊢
      rw [List.length_append, List.length_append, List.length_drop, hlen, hzeros]
      omega
    have hbytes :
        (w.data.take w.size ++ (List.replicate (n - w.size) nul ++ w.data.drop n)).take n =
          v.data.take v.size ++ List.replicate (n - v.size) nul := by
      rw [← List.append_assoc, List.take_left' (by rw [List.length_append, hlen, hzeros]; omega),
        hwsize, htake]
    rw [hrun, Outcome.returned_bind]
    unfold zero
    rw [if_neg (not_lt.mpr hroom)]
    exact Or.inl ⟨_, rfl, rfl, hroom.trans hcapacity.ge, hbytes, hcapacity.trans hcap⟩
  · rw [hrun]
    exact Or.inr ⟨rfl, hfail⟩

end InternalMmapVector

end Tasan
