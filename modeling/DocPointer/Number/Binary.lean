/-
  Binary floating-point numbers, kept as exact dyadic rationals.

  * `BinaryFormat` says which dyadic numbers a format can hold: the precision of
    the significand, the least exponent, and the bound on the magnitude.
  * `Binary F` is a finite number of the format `F`: a sign and the fraction
    `mantissa · 2 ^ exponent` in lowest terms, so that equal numbers have equal
    fields (up to the sign of zero).
  * `ofRatio` and `ofDecimal` round an exact value to the nearest number of the
    format, a tie going to the even significand; they answer `none` when the
    magnitude is out of bounds.  `times` and `dividedBy` are the product and the
    quotient, rounded likewise.
  * `shortest` is the decimal with the fewest digits that reads back, found by
    trying ever finer powers of ten; the finest grid tried holds the number
    itself, so the search never fails.
-/

namespace DocPointer

/-! ## Formats -/

/-- Significands below `2 ^ precision`, exponents from `low`, magnitudes below
    `2 ^ high`. -/
structure BinaryFormat where
  precision : Nat
  low : Int
  high : Int
  deriving DecidableEq, Repr

namespace BinaryFormat

/-- The 64-bit format. -/
def double : BinaryFormat := ⟨53, -1074, 1024⟩

/-- The 32-bit format. -/
def single : BinaryFormat := ⟨24, -149, 128⟩

/-- `mantissa · 2 ^ exponent` is in lowest terms and belongs to the format. -/
def Canonical (F : BinaryFormat) (mantissa : Nat) (exponent : Int) : Prop :=
  (mantissa = 0 ∧ exponent = 0) ∨
    (mantissa % 2 = 1 ∧ mantissa < Nat.pow 2 F.precision ∧ F.low ≤ exponent ∧
      (mantissa.log2 : Int) + exponent < F.high)

instance (F : BinaryFormat) (m : Nat) (e : Int) : Decidable (F.Canonical m e) := by
  unfold Canonical; infer_instance

theorem canonical_zero (F : BinaryFormat) : F.Canonical 0 0 := .inl ⟨rfl, rfl⟩

end BinaryFormat

/-- A finite number of a binary format. -/
structure Binary (F : BinaryFormat) where
  negative : Bool
  mantissa : Nat
  exponent : Int
  canonical : F.Canonical mantissa exponent
  deriving DecidableEq

namespace Binary

variable {F : BinaryFormat}

instance : Repr (Binary F) where
  reprPrec x _ := repr (x.negative, x.mantissa, x.exponent)

/-- Zero, with a sign. -/
def zero (negative : Bool) : Binary F := ⟨negative, 0, 0, F.canonical_zero⟩

instance : Inhabited (Binary F) := ⟨zero false⟩

/-- Whether the number is zero, of either sign. -/
def isZero (x : Binary F) : Bool := x.mantissa == 0

/-- Equality of numbers: the two zeros are equal. -/
def sameNumber (x y : Binary F) : Bool :=
  (x.isZero && y.isZero) || (x.negative == y.negative && x.mantissa == y.mantissa &&
    x.exponent == y.exponent)

/-! ## Rounding -/

/-- The nearest integer to `num / den`, a tie going to the even one. -/
def roundEven (num den : Nat) : Nat :=
  let q := num / den
  let r := num % den
  if 2 * r < den then q else if den < 2 * r then q + 1 else q + q % 2

/-- `m · 2 ^ e` in lowest terms. -/
def lowestTerms (m : Nat) (e : Int) : Nat × Int :=
  if m = 0 then (0, 0) else if m % 2 = 0 then lowestTerms (m / 2) (e + 1) else (m, e)
termination_by m
decreasing_by omega

/-- `num · 2 ^ (-e) / den` as a pair of natural numbers. -/
def scale (num den : Nat) (e : Int) : Nat × Nat :=
  if 0 ≤ e then (num, den * Nat.pow 2 e.toNat) else (num * Nat.pow 2 (-e).toNat, den)

/-- The binary order of magnitude: the `k` with `2 ^ k ≤ num / den < 2 ^ (k + 1)`. -/
def magnitude (num den : Nat) : Int :=
  let k := (num.log2 : Int) - den.log2
  let (n, d) := scale num den k
  if n < d then k - 1 else k

/-- A number from its parts, if they belong to the format. -/
def ofParts? (negative : Bool) (m : Nat) (e : Int) : Option (Binary F) :=
  if h : F.Canonical m e then some ⟨negative, m, e, h⟩ else none

/-- The number of the format nearest to `num / den`. -/
def ofRatio (negative : Bool) (num den : Nat) : Option (Binary F) :=
  if num = 0 then some (zero negative) else
    let e := max F.low (magnitude num den - (F.precision - 1 : Nat))
    let (n, d) := scale num den e
    let (m, e) := lowestTerms (roundEven n d) e
    ofParts? negative m e

/-- `digits · 10 ^ exponent` without zeros at the end of the digits. -/
def withoutZeros (digits : Nat) (exponent : Int) : Nat × Int :=
  if digits = 0 then (0, 0)
  else if digits % 10 = 0 then withoutZeros (digits / 10) (exponent + 1)
  else (digits, exponent)
termination_by digits
decreasing_by omega

/-- The number of the format nearest to `digits · 10 ^ exponent`.  Exponents so
    large that the answer is out of bounds, or so small that it is zero, are
    settled without computing the power. -/
def ofDecimal (negative : Bool) (digits : Nat) (exponent : Int) : Option (Binary F) :=
  let (digits, exponent) := withoutZeros digits exponent
  if digits = 0 then some (zero negative)
  else if F.high ≤ 3 * exponent then none
  else if digits.log2 + 1 + 3 * exponent < F.low then some (zero negative)
  else if 0 ≤ exponent then ofRatio negative (digits * Nat.pow 10 exponent.toNat) 1
  else ofRatio negative digits (Nat.pow 10 (-exponent).toNat)

/-- The same number in another format, rounded if need be. -/
def convert {G : BinaryFormat} (x : Binary F) : Option (Binary G) :=
  match ofParts? (F := G) x.negative x.mantissa x.exponent with
  | some y => some y
  | none =>
    let (n, d) := scale x.mantissa 1 (-x.exponent)
    ofRatio x.negative n d

/-! ## Products and quotients -/

/-- The product, rounded. -/
def times (x y : Binary F) : Option (Binary F) :=
  let (n, d) := scale (x.mantissa * y.mantissa) 1 (-(x.exponent + y.exponent))
  ofRatio (x.negative != y.negative) n d

/-- The quotient by a number other than zero, rounded. -/
def dividedBy (x y : Binary F) : Option (Binary F) :=
  let (n, d) := scale x.mantissa y.mantissa (y.exponent - x.exponent)
  ofRatio (x.negative != y.negative) n d

/-! ## The shortest decimal -/

/-- The magnitude as a ratio of natural numbers. -/
def ratio (x : Binary F) : Nat × Nat := scale x.mantissa 1 (-x.exponent)

/-- The multiples of `10 ^ s` next to `num / den`, below and above, with their
    distances on a common scale. -/
def neighbours (num den : Nat) (s : Int) : (Nat × Nat) × (Nat × Nat) :=
  let (n, d) := 
    if 0 ≤ s then (num, den * Nat.pow 10 s.toNat) else (num * Nat.pow 10 (-s).toNat, den)
  ((n / d, n % d), (n / d + 1, d - n % d))

/-- The better of the two multiples of `10 ^ s` next to the number, among those
    that read back as the number: the nearer one, in a tie the even one. -/
def onGrid? (x : Binary F) (s : Int) : Option Nat :=
  let (num, den) := x.ratio
  let ((lo, dlo), (hi, dhi)) := neighbours num den s
  let reads (d : Nat) : Bool := ofDecimal (F := F) x.negative d s = some x
  match reads lo, reads hi with
  | true, true => some (if dlo < dhi then lo else if dhi < dlo then hi else if lo % 2 = 0 then lo else hi)
  | true, false => some lo
  | false, true => some hi
  | false, false => none

/-- The first grid that holds a decimal reading back, from `10 ^ (bottom + n)`
    down; on the finest the digits are exact. -/
def shortestFrom (x : Binary F) (bottom : Int) : Nat → Nat × Int
  | 0 => let (num, den) := x.ratio
    ((neighbours num den bottom).1.1, bottom)
  | n + 1 =>
    match x.onGrid? (bottom + (n + 1)) with
    | some d => (d, bottom + (n + 1))
    | none => shortestFrom x bottom n

/-- The decimal `digits · 10 ^ exponent` with the fewest digits that reads back
    as the magnitude of the number, without zeros at the end of the digits. -/
def shortest (x : Binary F) : Nat × Int :=
  if x.isZero then (0, 0) else
    let bottom := min x.exponent 0
    let top := (((x.mantissa.log2 : Int) + x.exponent + 1) * 30103) / 100000 + 1
    let (digits, exponent) := x.shortestFrom bottom (top - bottom).toNat
    withoutZeros digits exponent

end Binary

end DocPointer
