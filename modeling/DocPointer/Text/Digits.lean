/-
  Decimal digits: numbers as lists of characters, and back.

  * `ofNat` and `ofInt` write a number in base ten.
  * `value` reads a list of digits; `readInt` reads a bounded integer the way
    keys and positions are spelled (an optional sign, then digits, leading zeros
    allowed) and says which of four things is wrong otherwise.
-/

namespace DocPointer.Digits

/-! ## Writing -/

/-- A number below sixteen as a hexadecimal digit. -/
def hexDigit (n : Nat) : Char :=
  if n < 10 then Char.ofNat (48 + n) else Char.ofNat (87 + n)

/-- A natural number in base ten. -/
def ofNat (n : Nat) : List Char := Nat.toDigits 10 n

/-- An integer in base ten. -/
def ofInt (n : Int) : List Char :=
  if n < 0 then '-' :: ofNat n.natAbs else ofNat n.natAbs

/-- A natural number in lower-case base sixteen. -/
def hexOfNat (n : Nat) : List Char := Nat.toDigits 16 n

/-! ## Reading -/

/-- The value of a decimal digit. -/
def digit? (c : Char) : Option Nat :=
  if '0' ≤ c ∧ c ≤ '9' then some (c.toNat - 48) else none

/-- Whether a character is a decimal digit of ASCII. -/
def isDigit (c : Char) : Bool := (digit? c).isSome

/-- The value of a hexadecimal digit of either case. -/
def hexDigit? (c : Char) : Option Nat :=
  if '0' ≤ c ∧ c ≤ '9' then some (c.toNat - 48)
  else if 'a' ≤ c ∧ c ≤ 'f' then some (c.toNat - 87)
  else if 'A' ≤ c ∧ c ≤ 'F' then some (c.toNat - 55)
  else none

/-- The number a list of digits spells; other characters count as zero. -/
def value (cs : List Char) : Nat :=
  cs.foldl (fun n c => 10 * n + (digit? c).getD 0) 0

/-! ## Bounded integers -/

/-- Why a text is not an integer of a given range. -/
inductive IntError where
  | empty
  | invalidDigit
  | tooLarge
  | tooSmall
  deriving DecidableEq, Repr

/-- The wording of the error. -/
def IntError.message : IntError → String
  | .empty => "cannot parse integer from empty string"
  | .invalidDigit => "invalid digit found in string"
  | .tooLarge => "number too large to fit in target type"
  | .tooSmall => "number too small to fit in target type"

/-- Reads digits after the value `n`.  The first digit that takes the magnitude
    past `bound` ends the reading with `overflow`, even if worse follows. -/
def readDigits (bound : Nat) (overflow : IntError) : Nat → List Char → Except IntError Nat
  | n, [] => .ok n
  | n, c :: cs =>
    match digit? c with
    | none => .error .invalidDigit
    | some d => if bound < 10 * n + d then .error overflow else readDigits bound overflow (10 * n + d) cs

/-- Reads an integer between `-low` and `high`.  A minus sign is a sign only
    where the range has negative numbers (`signed`). -/
def readInt (signed : Bool) (low high : Nat) : List Char → Except IntError Int
  | [] => .error .empty
  | ['+'] => .error .invalidDigit
  | ['-'] => .error .invalidDigit
  | '+' :: cs => (readDigits high .tooLarge 0 cs).map Int.ofNat
  | '-' :: cs =>
    if signed then (readDigits low .tooSmall 0 cs).map fun n => -(n : Int)
    else .error .invalidDigit
  | cs => (readDigits high .tooLarge 0 cs).map Int.ofNat

end DocPointer.Digits
