/-
  Decimals, and how they are rounded to doubles.

  A `Decimal` is kept as it is written: its sign, its digits before and after the
  point, and its exponent.

  * `nearest` is the double nearest to it.
  * `stepwise` rounds several times.  The significand is made of the digits that fit
    in 64 bits; digits of the integer part that do not fit count as powers of ten,
    and digits of the fraction that do not are dropped.  The significand is
    rounded, then its product with a rounded power of ten, or the quotient by
    rounded powers of ten that are no greater than the greatest there is.  For
    short decimals with a small exponent each step but the last is exact, so that
    the outcome is the nearest double; for others it may be off in the last place.
  * `round` does either; `none` is a magnitude out of bounds.
-/
import DocPointer.Number.Binary
import DocPointer.Text.Digits

namespace DocPointer

/-- How a decimal is rounded. -/
inductive Rounding where
  /-- To the nearest number. -/
  | nearest
  /-- The significand, the power of ten, and their product or quotient, each by
      itself. -/
  | stepwise
  deriving DecidableEq, Repr

/-- A decimal as it is written. -/
structure Decimal where
  negative : Bool
  whole : List Char
  fraction : List Char
  exponent : Int

namespace Decimal

/-- The nearest double. -/
def nearest (d : Decimal) : Option (Binary .double) :=
  Binary.ofDecimal d.negative (Digits.value (d.whole ++ d.fraction))
    (d.exponent - d.fraction.length)

/-! ## Step by step -/

/-- The number `n` with more digits behind it, as many as fit in 64 bits, and the
    digits from the first one on that does not. -/
def absorb (n : Nat) : List Char → Nat × List Char
  | [] => (n, [])
  | c :: cs =>
    let m := 10 * n + (Digits.digit? c).getD 0
    if m < 0x10000000000000000 then absorb m cs else (n, c :: cs)

/-- The greatest power of ten that is a double. -/
def maxTens : Nat := 308

/-- The number times a power of ten. -/
def timesTens (x : Binary .double) (k : Nat) : Option (Binary .double) :=
  if maxTens < k then none else (Binary.ofRatio false (Nat.pow 10 k) 1).bind x.times

/-- The number by the greatest power of ten, `n` times, then by `10 ^ k`; it ends early
    at zero. -/
def overTens (x : Binary .double) (k : Nat) : Nat → Option (Binary .double)
  | 0 => (Binary.ofRatio false (Nat.pow 10 k) 1).bind x.dividedBy
  | n + 1 =>
    if x.isZero then some x
    else ((Binary.ofRatio false (Nat.pow 10 maxTens) 1).bind x.dividedBy).bind fun y => overTens y k n

/-- The number times a power of ten, which may be negative. -/
def scaled (x : Binary .double) (e : Int) : Option (Binary .double) :=
  if x.isZero then some x
  else if 0 ≤ e then timesTens x e.toNat
  else
    let n := ((-e).toNat - 1) / maxTens
    overTens x ((-e).toNat - n * maxTens) n

/-- The double found step by step. -/
def stepwise (d : Decimal) : Option (Binary .double) :=
  let (m, left) := absorb 0 d.whole
  let (n, dropped) := absorb m d.fraction
  let e : Int := d.exponent + left.length - (d.fraction.length - dropped.length : Nat)
  (Binary.ofRatio d.negative n 1).bind (scaled · e)

/-- The double that the decimal is rounded to. -/
def round (d : Decimal) : Rounding → Option (Binary .double)
  | .nearest => d.nearest
  | .stepwise => d.stepwise

end Decimal

end DocPointer
