import Tasan.Buffer

/-!
# The numbers in the files about a process

`TranslateDigit`, `ParseNumber`, `IsDecimal` and `IsHex` of `sanitizer_procmaps_common.cpp`.
`ParseNumber` takes digits as long as there are some, and the number that it makes of them is the
one that they stand for, modulo the size of a word (`parseNumber_eq`).
-/

namespace Tasan.ProcMaps

open Buffer (walk walk_eq walk_of_stop)

/-- An access outside a buffer, or a failed `CHECK`. -/
inductive Fault
  /-- A byte outside the buffer with the text of the file is read or written. -/
  | buffer
  /-- A byte outside the array for the file name is written. -/
  | filename
  /-- A `CHECK` fails. -/
  | check
  deriving DecidableEq

/-- The newline. -/
def newline : Char := Char.ofNat 10

/-- `TranslateDigit`. -/
def translateDigit (c : Char) : ℤ :=
  if '0' ≤ c ∧ c ≤ '9' then c.toNat - '0'.toNat
  else if 'a' ≤ c ∧ c ≤ 'f' then c.toNat - 'a'.toNat + 10
  else if 'A' ≤ c ∧ c ≤ 'F' then c.toNat - 'A'.toNat + 10
  else -1

/-- `IsDecimal`. -/
def isDecimal (c : Char) : Bool := 0 ≤ translateDigit c && translateDigit c < 10

/-- `IsHex`. -/
def isHex (c : Char) : Bool := 0 ≤ translateDigit c && translateDigit c < 16

/-- A digit in a base. -/
def isDigitOf (base : ℕ) (c : Char) : Bool := 0 ≤ translateDigit c && translateDigit c < base

/-- One turn of the loop of `ParseNumber`, in words of `w` bits. -/
def numberStep (w base n : ℕ) (c : Char) : Option ℕ :=
  if isDigitOf base c then some ((n * base + (translateDigit c).toNat) % 2^w) else none

/-- `ParseNumber`: the number, and where the digits end. -/
def parseNumber (w base : ℕ) (b : List Char) (p : ℕ) : Outcome Fault (ℕ × ℕ) :=
  walk .buffer (numberStep w base) b p 0

/-- `ParseDecimal`. -/
def parseDecimal (w : ℕ) (b : List Char) (p : ℕ) : Outcome Fault (ℕ × ℕ) := parseNumber w 10 b p

/-- `ParseHex`. -/
def parseHex (w : ℕ) (b : List Char) (p : ℕ) : Outcome Fault (ℕ × ℕ) := parseNumber w 16 b p

/-- The number that some digits stand for. -/
def valueOf (base : ℕ) (digits : List Char) : ℕ :=
  digits.foldl (fun n c => n * base + (translateDigit c).toNat) 0

variable {w base p : ℕ} {b digits rest : List Char}

theorem foldlM_numberStep (h : ∀ c ∈ digits, isDigitOf base c = true) (n : ℕ) :
    digits.foldlM (numberStep w base) (n % 2^w) =
      some (digits.foldl (fun n c => n * base + (translateDigit c).toNat) n % 2^w) := by
  induction digits generalizing n with
  | nil => rfl
  | cons c digits ih =>
    have hstep : (n % 2^w * base + (translateDigit c).toNat) % 2^w =
        (n * base + (translateDigit c).toNat) % 2^w :=
      ((Nat.mod_modEq n _).mul_right base).add_right _
    rw [List.foldlM_cons, numberStep, if_pos (h c List.mem_cons_self), hstep]
    exact ih (fun d hd => h d (List.mem_cons_of_mem c hd)) _

theorem parseNumber_eq {c : Char} (h : b.drop p = digits ++ c :: rest)
    (hdigits : ∀ c ∈ digits, isDigitOf base c = true) (hc : isDigitOf base c = false) :
    parseNumber w base b p = .returned (valueOf base digits % 2^w, p + digits.length) := by
  have hfold := foldlM_numberStep (w := w) hdigits 0
  rw [Nat.zero_mod] at hfold
  refine walk_eq h hfold ?_
  unfold numberStep
  rw [hc]
  rfl

theorem parseNumber_of_newline (w base : ℕ) {j : ℕ} (hp : p ≤ j) (h : b[j]? = some newline) :
    ∃ n q, parseNumber w base b p = .returned (n, q) ∧ p ≤ q ∧ q ≤ j := by
  refine walk_of_stop hp ⟨newline, h, fun n => ?_⟩
  unfold numberStep isDigitOf
  rw [show translateDigit newline = -1 by decide]
  rfl

end Tasan.ProcMaps
