import Tasan.MmapVector
import Tasan.Print.Rendering

/-!
# Strings that grow

`InternalScopedString::AppendF` of `sanitizer_printf.cpp` calls the formatter with the room behind
the text of the string, and again with twice the capacity as long as the result says that the text
did not fit. The room is a word here and an `int` for the formatter: a room of `2^31` or more is
narrowed, mostly to a negative number, which fails a `CHECK`. So the text is appended if the room
that is first large enough stays so when it is narrowed (`appendF_fits`), and only then
(`appendF_narrow`).
-/

namespace Tasan.Print

open FlagParser (nul)
open Format (toInt)

/-- The ways in which a print stops. -/
inductive Failure
  /-- The formatter stops. -/
  | print (f : Fault)
  /-- A vector stops. -/
  | mmap (f : MmapFault)
  /-- Not a death: a sum is no `int`. -/
  | overflow
  deriving DecidableEq

/-- A computation that stops in its own way. -/
def lift {ε α : Type} (f : ε → Failure) : Outcome ε α → Outcome Failure α
  | .returned a => .returned a
  | .stopped e => .stopped (f e)
  | .unfinished => .unfinished

/-! ## Appending to a string -/

/-- The loop of `InternalScopedString::AppendF`. -/
def appendFLoop (T : Target) (E : MmapEnv) (prevLen : ℕ) (format : List Char) (args : List Arg) :
    ℕ → InternalMmapVector → Outcome Failure InternalMmapVector
  | 0, _ => .unfinished
  | fuel + 1, buffer => do
    let buffer ← lift .mmap (buffer.resize E buffer.capacity)
    let (bytes, sz) ← lift .print
      (vsnprintf T (toInt (buffer.size - prevLen)) (buffer.data.drop prevLen) format args)
    let buffer : InternalMmapVector := ⟨buffer.data.take prevLen ++ bytes, buffer.size⟩
    if sz < buffer.size - prevLen then lift .mmap (buffer.resize E (prevLen + sz + 1))
    else do
      let buffer ← lift .mmap (buffer.reserve E (buffer.capacity * 2 % 2^64))
      appendFLoop T E prevLen format args fuel buffer

/-- `InternalScopedString::AppendF`. The capacity is doubled 64 times at most. -/
def appendF (T : Target) (E : MmapEnv) (buffer : InternalMmapVector) (format : List Char)
    (args : List Arg) : Outcome Failure InternalMmapVector := do
  let buffer ← appendFLoop T E (buffer.size - 1) format args 65 buffer
  if buffer.size = 0 ∨ buffer.data.getD (buffer.size - 1) ' ' ≠ nul then .stopped (.mmap .check)
  else return buffer

/-! ## Rooms -/

theorem toInt_of_lt {n : ℕ} (hn : n < 2^31) : toInt n = n := by
  unfold toInt
  rw [BitVec.toInt_eq_toNat_cond, BitVec.toNat_ofNat]
  split_ifs <;> omega

theorem toInt_le (n : ℕ) : toInt n ≤ n := by
  unfold toInt
  rw [BitVec.toInt_eq_toNat_cond, BitVec.toNat_ofNat]
  split_ifs <;> omega

theorem length_printed {n : ℕ} {mem : List Char} (hn : 1 ≤ n) (hmem : n ≤ mem.length)
    (text : List Char) : (printed n mem text).length = mem.length := by
  unfold printed
  rw [List.length_append, List.length_take, List.length_cons, List.length_drop]
  omega

theorem printed_fits {n : ℕ} {mem text : List Char} (hfits : text.length < n) :
    ∃ rest, printed n mem text = text ++ nul :: rest := by
  unfold printed
  exact ⟨_, by rw [List.take_of_length_le (by omega)]⟩

theorem printed_ne {n : ℕ} {mem text : List Char} (hn : 1 ≤ n) (hlong : n ≤ text.length)
    (hnul : nul ∉ text) :
    (printed n mem text).take text.length ≠ text := by
  intro heq
  have hlen : (text.take (n - 1)).length = n - 1 := List.length_take_of_le (by omega)
  have hget : text[n - 1]? = some nul :=
    calc text[n - 1]? = ((printed n mem text).take text.length)[n - 1]? := by rw [heq]
      _ = (printed n mem text)[n - 1]? := List.getElem?_take_of_lt (by omega)
      _ = some nul := by
        unfold printed
        rw [List.getElem?_append_right hlen.le, hlen, Nat.sub_self]
        rfl
  exact hnul (List.mem_of_getElem? hget)

/-! ## Growing strings -/

/-- The string that is appended to, in the loop: its old text is still there. -/
structure Growing (E : MmapEnv) (old : List Char) (v : InternalMmapVector) : Prop where
  /-- There is room for the NUL. -/
  size_gt : old.length < v.size
  /-- The size is one of bytes that there are. -/
  size_le : v.size ≤ v.capacity
  /-- The mapping has whole pages. -/
  pages : E.pageSize ∣ v.capacity
  /-- The capacity is the size of a mapping. -/
  capacity_le : v.capacity ≤ 2^63
  /-- The old text. -/
  old_eq : v.data.take old.length = old

/-- The first capacity that is large enough, doubling it so many times at most. -/
def firstFit (need : ℕ) : ℕ → ℕ → ℕ
  | 0, capacity => capacity
  | fuel + 1, capacity =>
    if need < capacity then capacity else firstFit need fuel (capacity * 2)

section append

variable {T : Target} {E : MmapEnv} {old format : List Char} {args : List Arg}
  {v : InternalMmapVector}

/-- One turn of the loop prints behind the old text. -/
theorem appendFLoop_succ (h : Growing E old v) (fuel : ℕ) :
    ∃ mem, mem.length = v.capacity - old.length ∧
      appendFLoop T E old.length format args (fuel + 1) v = (do
        let (bytes, sz) ← lift .print
          (vsnprintf T (toInt (v.capacity - old.length)) mem format args)
        let buffer : InternalMmapVector := ⟨old ++ bytes, v.capacity⟩
        if sz < v.capacity - old.length then
          lift .mmap (buffer.resize E (old.length + sz + 1))
        else do
          let buffer ← lift .mmap (buffer.reserve E (buffer.capacity * 2 % 2^64))
          appendFLoop T E old.length format args fuel buffer) := by
  obtain ⟨data, hrun, hlen, htake⟩ := InternalMmapVector.resize_capacity E h.size_le
  have hold : data.take old.length = old :=
    calc data.take old.length = (data.take v.size).take old.length := by
          rw [List.take_take, min_eq_left h.size_gt.le]
      _ = (v.data.take v.size).take old.length := by rw [htake]
      _ = old := by rw [List.take_take, min_eq_left h.size_gt.le, h.old_eq]
  refine ⟨data.drop old.length, by rw [List.length_drop, hlen], ?_⟩
  rw [appendFLoop, hrun, lift, Outcome.returned_bind]
  dsimp only
  rw [hold]

variable {items : List Item} (hok : ∀ item ∈ items, item.Ok)

include hok

/-- There is no room for the text: the capacity is doubled. -/
theorem appendFLoop_grow (h : Growing E old v) (hlen : (rendering T items).length < 2^31)
    (hcap : v.capacity ≤ 2^62) (hfull : v.capacity ≤ old.length + (rendering T items).length)
    (hmaps : E.maps (v.capacity * 2) = true) (fuel : ℕ) :
    ∃ w, appendFLoop T E old.length (formatOf items) (argsOf items) (fuel + 1) v =
        appendFLoop T E old.length (formatOf items) (argsOf items) fuel w ∧
      Growing E old w ∧ w.capacity = v.capacity * 2 := by
  obtain ⟨mem, hmem, hrun⟩ :=
    @appendFLoop_succ T E old (formatOf items) (argsOf items) v h fuel
  have hroom : 1 ≤ v.capacity - old.length := by have := h.size_gt.trans_le h.size_le; omega
  have hbytes := length_printed hroom hmem.ge (rendering T items)
  have hsize : (old ++ printed (v.capacity - old.length) mem (rendering T items)).length =
      v.capacity := by
    rw [List.length_append, hbytes, hmem]
    omega
  have hdouble : v.capacity * 2 ≤ 2^63 := by omega
  have hpages : E.pageSize ∣ v.capacity * 2 := h.pages.mul_right 2
  rw [hrun, toInt_of_lt (by omega), vsnprintf_eq T hok hroom hmem.ge, lift, Outcome.returned_bind]
  generalize hb : (⟨old ++ printed (v.capacity - old.length) mem (rendering T items),
    v.capacity⟩ : InternalMmapVector) = buffer
  have hbcap : buffer.capacity = v.capacity := by rw [← hb]; exact hsize
  have hbsize : buffer.size = v.capacity := by rw [← hb]
  have hbold : buffer.data.take old.length = old := by rw [← hb]; exact List.take_left' rfl
  dsimp only
  rw [hb, if_neg (by omega), hbcap, Nat.mod_eq_of_lt (by omega)]
  rcases InternalMmapVector.reserve_cases E (v := buffer) (by omega) hdouble with
    ⟨w, hw, hwsize, hwtake, hwcap⟩ | ⟨-, hfail⟩
  · rw [hw, lift, Outcome.returned_bind]
    rw [if_pos (by omega), E.roundUp_of_dvd hdouble hpages] at hwcap
    refine ⟨w, rfl, ⟨?_, ?_, ?_, ?_, ?_⟩, hwcap⟩
    · rw [hwsize, hbsize]
      exact h.size_gt.trans_le h.size_le
    · omega
    · rwa [hwcap]
    · rwa [hwcap]
    · have hle : old.length ≤ buffer.size := by omega
      calc w.data.take old.length = (w.data.take buffer.size).take old.length := by
            rw [List.take_take, min_eq_left hle]
        _ = (buffer.data.take buffer.size).take old.length := by rw [hwtake]
        _ = old := by rw [List.take_take, min_eq_left hle, hbold]
  · rw [E.roundUp_of_dvd hdouble hpages, hmaps] at hfail
    cases hfail

/-- The loop comes to the first capacity that is large enough. -/
theorem appendFLoop_run (h : Growing E old v) (hlen : (rendering T items).length < 2^31)
    (hold : old.length < 2^61)
    (hmaps : ∀ k ≤ (old.length + (rendering T items).length) * 2, E.maps k = true) {fuel : ℕ}
    (hfuel : old.length + (rendering T items).length < v.capacity * 2^fuel) :
    ∃ w k, appendFLoop T E old.length (formatOf items) (argsOf items) (fuel + 1) v =
        appendFLoop T E old.length (formatOf items) (argsOf items) (k + 1) w ∧
      Growing E old w ∧
      w.capacity = firstFit (old.length + (rendering T items).length) fuel v.capacity ∧
      old.length + (rendering T items).length < w.capacity := by
  induction fuel generalizing v with
  | zero =>
    rw [Nat.pow_zero, Nat.mul_one] at hfuel
    exact ⟨v, 0, rfl, h, rfl, hfuel⟩
  | succ fuel ih =>
    rw [firstFit]
    split_ifs with hfits
    · exact ⟨v, fuel + 1, rfl, h, rfl, hfits⟩
    · have hcap : v.capacity ≤ old.length + (rendering T items).length := not_lt.mp hfits
      obtain ⟨w, hrun, hw, hwcap⟩ := appendFLoop_grow hok h hlen (by omega) hcap
        (hmaps _ (Nat.mul_le_mul_right 2 hcap)) (fuel + 1)
      rw [Nat.pow_succ', ← Nat.mul_assoc, ← hwcap] at hfuel
      rw [hrun, ← hwcap]
      exact ih hw hfuel

/-- The last turn of the loop appends the text if the room is enough for it as an `int`. -/
theorem appendFLoop_last (h : Growing E old v)
    (hroom : (rendering T items).length < toInt (v.capacity - old.length)) (fuel : ℕ) :
    ∃ w, appendFLoop T E old.length (formatOf items) (argsOf items) (fuel + 1) v = .returned w ∧
      w.size = old.length + (rendering T items).length + 1 ∧
      w.data.take w.size = old ++ (rendering T items ++ [nul]) := by
  obtain ⟨mem, hmem, hrun⟩ :=
    @appendFLoop_succ T E old (formatOf items) (argsOf items) v h fuel
  have hle := toInt_le (v.capacity - old.length)
  lift toInt (v.capacity - old.length) to ℕ using (by omega) with room hr
  have hlt : (rendering T items).length < room := by omega
  obtain ⟨rest, hrest⟩ := @printed_fits room mem _ hlt
  have hbytes : ∀ k, k = old.length + (rendering T items).length + 1 →
      (old ++ printed room mem (rendering T items)).take k =
        old ++ (rendering T items ++ [nul]) := by
    rintro k rfl
    rw [hrest]
    calc (old ++ (rendering T items ++ nul :: rest)).take
          (old.length + (rendering T items).length + 1)
        = (old ++ (rendering T items ++ [nul]) ++ rest).take
            (old.length + (rendering T items).length + 1) := by simp
      _ = old ++ (rendering T items ++ [nul]) :=
        List.take_left' (by simp [Nat.add_assoc])
  rw [hrun, vsnprintf_eq T hok (by omega) (by omega), Tasan.Print.lift, Outcome.returned_bind]
  dsimp only
  rw [if_pos (by omega), InternalMmapVector.resize_shrink (by dsimp only; omega)]
  exact ⟨_, rfl, rfl, hbytes _ rfl⟩

/-- The last turn of the loop does not append the text if the room is not enough for it as an
`int`. -/
theorem appendFLoop_narrow (h : Growing E old v) (hnul : nul ∉ rendering T items)
    (hfits : old.length + (rendering T items).length < v.capacity)
    (hroom : toInt (v.capacity - old.length) ≤ (rendering T items).length) (fuel : ℕ)
    {w : InternalMmapVector}
    (hw : appendFLoop T E old.length (formatOf items) (argsOf items) (fuel + 1) v = .returned w) :
    w.data.take w.size ≠ old ++ (rendering T items ++ [nul]) := by
  obtain ⟨mem, hmem, hrun⟩ :=
    @appendFLoop_succ T E old (formatOf items) (argsOf items) v h fuel
  have hle := toInt_le (v.capacity - old.length)
  rw [hrun] at hw
  by_cases hpos : toInt (v.capacity - old.length) ≤ 0
  · unfold vsnprintf at hw
    rw [if_pos hpos, Tasan.Print.lift, Outcome.stopped_bind] at hw
    cases hw
  · lift toInt (v.capacity - old.length) to ℕ using (by omega) with room hr
    rw [vsnprintf_eq T hok (by omega) (by omega), Tasan.Print.lift, Outcome.returned_bind] at hw
    dsimp only at hw
    rw [if_pos (by omega), InternalMmapVector.resize_shrink (by dsimp only; omega)] at hw
    cases hw
    intro heq
    have hne := @printed_ne _ mem _ (by omega) (by omega : room ≤ (rendering T items).length) hnul
    apply hne
    calc (printed room mem (rendering T items)).take (rendering T items).length
        = ((old ++ printed room mem (rendering T items)).drop old.length).take
            (rendering T items).length := by rw [List.drop_left]
      _ = (((old ++ printed room mem (rendering T items)).take
            (old.length + (rendering T items).length + 1)).drop old.length).take
            (rendering T items).length := by
          rw [List.take_drop, List.take_drop, List.take_take]
          congr 2
          omega
      _ = rendering T items := by
          rw [heq, List.drop_left, List.take_left]

omit hok

/-- The buffer of an `InternalScopedString`. -/
structure IsString (E : MmapEnv) (v : InternalMmapVector) : Prop where
  /-- There is a NUL. -/
  size_pos : 1 ≤ v.size
  /-- The size is one of bytes that there are. -/
  size_le : v.size ≤ v.capacity
  /-- The mapping has whole pages. -/
  pages : E.pageSize ∣ v.capacity
  /-- The mapping is in an address space. -/
  capacity_le : v.capacity ≤ 2^61

/-- The text has been appended, and the text before it is as it was. -/
def Appended (v w : InternalMmapVector) (text : List Char) : Prop :=
  w.size = v.size + text.length ∧
    w.data.take w.size = v.data.take (v.size - 1) ++ (text ++ [nul])

/-- The capacity that is first large enough for a text stays so when the room in it is narrowed. -/
def FitsString (v : InternalMmapVector) (text : List Char) : Prop :=
  text.length < toInt (firstFit (v.size - 1 + text.length) 64 v.capacity - (v.size - 1))

theorem IsString.growing (h : IsString E v) : Growing E (v.data.take (v.size - 1)) v := by
  have hlen : (v.data.take (v.size - 1)).length = v.size - 1 :=
    List.length_take_of_le ((Nat.sub_le _ _).trans h.size_le)
  have hpos := h.size_pos
  exact ⟨by omega, h.size_le, h.pages, h.capacity_le.trans (by norm_num), by rw [hlen]⟩

include hok

/-- `AppendF` ends with the last turn of its loop. -/
theorem appendF_run (h : IsString E v) (hlen : (rendering T items).length < 2^31)
    (hmaps : ∀ k ≤ (v.size + (rendering T items).length) * 2, E.maps k = true) :
    ∃ w k, appendF T E v (formatOf items) (argsOf items) = (do
        let buffer ← appendFLoop T E (v.data.take (v.size - 1)).length (formatOf items)
          (argsOf items) (k + 1) w
        if buffer.size = 0 ∨ buffer.data.getD (buffer.size - 1) ' ' ≠ nul then
          .stopped (.mmap .check)
        else return buffer) ∧
      Growing E (v.data.take (v.size - 1)) w ∧
      w.capacity = firstFit (v.size - 1 + (rendering T items).length) 64 v.capacity ∧
      v.size - 1 + (rendering T items).length < w.capacity := by
  have hold : (v.data.take (v.size - 1)).length = v.size - 1 :=
    List.length_take_of_le ((Nat.sub_le _ _).trans h.size_le)
  have hpos := h.size_pos
  have hsize := h.size_le
  have hcap := h.capacity_le
  have hfuel : (v.data.take (v.size - 1)).length + (rendering T items).length <
      v.capacity * 2^64 := by omega
  obtain ⟨w, k, hrun, hw, hwcap, hfits⟩ := appendFLoop_run hok h.growing hlen
    (by omega) (fun k hk => hmaps k (by omega)) hfuel
  unfold appendF
  rw [hold] at hrun hwcap hfits ⊢
  exact ⟨w, k, by rw [hrun], hw, hwcap, hfits⟩

/-- `AppendF` appends a text for which the room is enough. -/
theorem appendF_fits (h : IsString E v) (hlen : (rendering T items).length < 2^31)
    (hmaps : ∀ k ≤ (v.size + (rendering T items).length) * 2, E.maps k = true)
    (hfits : FitsString v (rendering T items)) :
    ∃ w, appendF T E v (formatOf items) (argsOf items) = .returned w ∧
      Appended v w (rendering T items) := by
  have hold : (v.data.take (v.size - 1)).length = v.size - 1 :=
    List.length_take_of_le ((Nat.sub_le _ _).trans h.size_le)
  have hpos := h.size_pos
  obtain ⟨w, k, hrun, hw, hwcap, -⟩ := appendF_run hok h hlen hmaps
  unfold FitsString at hfits
  obtain ⟨u, hu, husize, hudata⟩ := appendFLoop_last hok hw (by rw [hwcap, hold]; exact hfits) k
  rw [hold] at husize
  have hlast : u.data.getD (u.size - 1) ' ' = nul := by
    have hget : u.data[u.size - 1]? = some nul :=
      calc u.data[u.size - 1]? = (u.data.take u.size)[u.size - 1]? :=
            (List.getElem?_take_of_lt (by omega)).symm
        _ = (v.data.take (v.size - 1) ++ rendering T items ++ [nul])[u.size - 1]? := by
          rw [hudata, List.append_assoc]
        _ = some nul := by
          rw [List.getElem?_append_right (by rw [List.length_append]; omega), List.length_append,
            show u.size - 1 - ((v.data.take (v.size - 1)).length + (rendering T items).length) = 0
              by omega]
          rfl
    rw [List.getD_eq_getElem?_getD, hget]
    rfl
  rw [hrun, hu, Outcome.returned_bind, if_neg (not_or.mpr ⟨by omega, not_not.mpr hlast⟩)]
  exact ⟨u, rfl, by omega, hudata⟩

theorem appendF_narrow (h : IsString E v) (hlen : (rendering T items).length < 2^31)
    (hmaps : ∀ k ≤ (v.size + (rendering T items).length) * 2, E.maps k = true)
    (hnul : nul ∉ rendering T items) (hnarrow : ¬ FitsString v (rendering T items))
    {w : InternalMmapVector} (hw : appendF T E v (formatOf items) (argsOf items) = .returned w) :
    ¬ Appended v w (rendering T items) := by
  have hold : (v.data.take (v.size - 1)).length = v.size - 1 :=
    List.length_take_of_le ((Nat.sub_le _ _).trans h.size_le)
  obtain ⟨u, k, hrun, hu, hucap, hfits⟩ := appendF_run hok h hlen hmaps
  rw [hrun] at hw
  obtain ⟨u', hu', hcheck⟩ := Outcome.bind_eq_returned.mp hw
  have hne := appendFLoop_narrow hok hu hnul (by rwa [hold])
    (by rw [hucap, hold]; exact not_lt.mp hnarrow) k hu'
  split_ifs at hcheck
  cases hcheck
  exact fun hright => hne hright.2

end append

end Tasan.Print
