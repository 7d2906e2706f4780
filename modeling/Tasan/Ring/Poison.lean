import Tasan.Ring.Compact
import Tasan.Ring.Simple

/-!
# The poison history

`AddPoisonRecord` keeps the last `poison_history_size` calls that poisoned memory in a ring buffer,
which it makes at the first call, and `FindPoisonRecord` looks through it from the newest record on.
Both return at once where the flag is not positive, so the buffer is never made for no records:
`new_zero_writes` shows that it has no room for even one.
-/

namespace Tasan.Ring

/-- `PoisonRecord`. -/
structure PoisonRecord where
  stackId : ℕ
  threadId : ℕ
  begin : ℕ
  «end» : ℕ
  deriving DecidableEq

instance : Zero PoisonRecord := ⟨⟨0, 0, 0, 0⟩⟩

/-- The bytes of a record. -/
def PoisonRecord.contains (addr : ℕ) (record : PoisonRecord) : Bool :=
  record.begin ≤ addr && addr < record.end

section Poison

variable (L : Layout) (self : ℤ) (flag : PoisonHistorySize)

/-- The loop of `FindPoisonRecord` from `i` on, for `n` iterations. Its counter has 32 bits. -/
def findLoop (rb : RingBuffer PoisonRecord) (addr : ℕ) : ℕ → ℕ → Option PoisonRecord
  | 0, _ => none
  | n + 1, i =>
    if i < rb.size L then
      (rb.get L i).bind fun record =>
        if record.contains addr then some record else findLoop rb addr n ((i + 1) % 2^32)
    else none

variable {L} {self} {flag} {N c : ℕ} {rb : RingBuffer PoisonRecord} {hist : List PoisonRecord}

end Poison

/-! ## Both buffers -/

section Both

variable {T : Type*} [Zero T]

end Both

end Tasan.Ring
