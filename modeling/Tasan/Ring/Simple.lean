import Tasan.Cyclic

/-!
# The ring buffer

`RingBuffer` lies in one mapping: the pointers `last_` and `next_`, and then the elements. It fills
from the last element down. That `next_` has left the elements is seen by comparing it to its own
address, which is right because an element is at least as large as a pointer.

Addresses are integers, and `data` is the memory of the mapping, as the element at an address.
-/

namespace Tasan.Ring

open Cyclic

/-- The sizes that the buffer depends on. -/
structure Layout where
  /-- `sizeof(T *)`. -/
  sizeofPtr : ℕ
  sizeofT : ℕ
  /-- Elements are not empty. -/
  sizeofT_pos : 0 < sizeofT
  /-- `COMPILER_CHECK(sizeof(T) % sizeof(void *) == 0)`. -/
  sizeofPtr_dvd : sizeofPtr ∣ sizeofT
  /-- Pointers are not empty. -/
  sizeofPtr_pos : 0 < sizeofPtr

/-- `RingBuffer`. -/
structure RingBuffer (T : Type*) where
  /-- The address of the buffer. -/
  self : ℤ
  last : ℤ
  next : ℤ
  /-- The elements, by address. -/
  data : ℤ → T

/-- `SizeInBytes`. -/
def sizeInBytes (L : Layout) (size : ℕ) : ℕ := size * L.sizeofT + 2 * L.sizeofPtr

namespace RingBuffer

variable {T : Type*} (L : Layout)

/-- `New`, with the address that `MmapOrDie` returns. The mapping is zero. -/
def new [Zero T] (self : ℤ) (size : ℕ) : RingBuffer T where
  self := self
  last := self + sizeInBytes L size - L.sizeofT
  next := self + sizeInBytes L size - L.sizeofT
  data := fun _ => 0

/-- `size`. -/
def size (rb : RingBuffer T) : ℕ :=
  ((rb.last + L.sizeofT - (rb.self + 2 * L.sizeofPtr)) / L.sizeofT).toNat

/-- `push`. -/
def push (rb : RingBuffer T) (t : T) : RingBuffer T :=
  let next := rb.next - L.sizeofT
  { rb with
    data := Function.update rb.data rb.next t
    -- `next_` lies behind `last_`, which is the first member
    next := if next ≤ rb.self + L.sizeofPtr then rb.last else next }

/-- `operator[]`; `none` is a failed `CHECK_LT`. -/
def get (rb : RingBuffer T) (idx : ℕ) : Option T :=
  if idx < rb.size L then
    let idxNext : ℤ := idx + 1
    let idxNext := if idxNext > (rb.last - rb.next) / L.sizeofT then idxNext - rb.size L else idxNext
    some (rb.data (rb.next + idxNext * L.sizeofT))
  else none

/-- The buffer after elements are pushed. -/
def pushAll (rb : RingBuffer T) (ts : List T) : RingBuffer T := ts.foldl (push L) rb

end RingBuffer

/-! ## The history of a buffer -/

section History

variable {T : Type*} {L : Layout} {N c : ℕ} {rb : RingBuffer T} {hist : List T}

/-- The buffer has `N` elements, which are the first ones of `hist`. Slot `k` is the `k`-th element
from the last one down. -/
structure Holds (L : Layout) (N c : ℕ) (rb : RingBuffer T) (hist : List T) : Prop where
  /-- The last element. -/
  last_eq : rb.last = rb.self + 2 * L.sizeofPtr + (N - 1) * L.sizeofT
  /-- The next element. -/
  next_eq : rb.next = rb.last - c * L.sizeofT
  /-- The elements. -/
  recent : Recent N (fun k => rb.data (rb.last - k * L.sizeofT)) c hist

theorem slot_inj {p : ℤ} {k : ℕ} : p - k * L.sizeofT = p - c * L.sizeofT ↔ k = c := by
  have hpos : (L.sizeofT : ℤ) ≠ 0 := Int.natCast_ne_zero.mpr L.sizeofT_pos.ne'
  rw [sub_right_inj, mul_left_inj' hpos, Nat.cast_inj]

theorem Holds.size_eq (h : Holds L N c rb hist) : rb.size L = N := by
  have hpos : (L.sizeofT : ℤ) ≠ 0 := Int.natCast_ne_zero.mpr L.sizeofT_pos.ne'
  have hnum : rb.last + L.sizeofT - (rb.self + 2 * L.sizeofPtr) = N * L.sizeofT := by
    rw [h.last_eq]
    ring
  rw [RingBuffer.size, hnum, Int.mul_ediv_cancel _ hpos, Int.toNat_natCast]

theorem Holds.wrap_iff (h : Holds L N c rb hist) :
    rb.next - L.sizeofT ≤ rb.self + L.sizeofPtr ↔ c + 1 = N := by
  obtain ⟨k, hk⟩ := Nat.exists_eq_add_of_lt h.recent.cursor_lt
  have hle : (L.sizeofPtr : ℤ) ≤ L.sizeofT :=
    Int.ofNat_le.mpr (Nat.le_of_dvd L.sizeofT_pos L.sizeofPtr_dvd)
  have hptr : (0 : ℤ) < L.sizeofPtr := Int.natCast_pos.mpr L.sizeofPtr_pos
  have hnext : rb.next - L.sizeofT = rb.self + 2 * L.sizeofPtr + (k - 1) * L.sizeofT := by
    rw [h.next_eq, h.last_eq, hk]
    push_cast
    ring
  rw [hnext]
  rcases Nat.eq_zero_or_pos k with rfl | hpos
  · refine iff_of_true ?_ (by omega)
    push_cast
    linarith
  · refine iff_of_false (not_le.mpr ?_) (by omega)
    have : (0 : ℤ) ≤ (k - 1) * L.sizeofT :=
      mul_nonneg (by omega) (Int.natCast_nonneg _)
    linarith

theorem Holds.push (h : Holds L N c rb hist) (t : T) :
    Holds L N (next N c) (rb.push L t) (t :: hist) where
  last_eq := h.last_eq
  next_eq := by
    simp only [RingBuffer.push, h.wrap_iff, next]
    split
    · simp
    · rw [h.next_eq]
      push_cast
      ring
  recent := (h.recent.push t).congr fun k _ => by
    simp only [RingBuffer.push, Function.update_apply, h.next_eq, slot_inj]

theorem Holds.pushAll (h : Holds L N c rb hist) (ts : List T) :
    ∃ c', Holds L N c' (rb.pushAll L ts) (ts.reverse ++ hist) := by
  induction ts generalizing c rb hist with
  | nil => exact ⟨c, h⟩
  | cons t ts ih =>
    obtain ⟨c', hc'⟩ := ih (h.push t)
    rw [List.reverse_cons, List.append_assoc]
    exact ⟨c', hc'⟩

end History

end Tasan.Ring
