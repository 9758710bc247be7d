/-
  JSON as text, compact and indented.

  Strings escape the quote, the backslash and the control characters below
  U+0020, five of them by a letter and the others by four hexadecimal digits;
  all else stands for itself.  Integers have no fraction part and doubles always
  have one, or an exponent: the digits are those of `Binary.shortest`.

  * `print` puts no blank anywhere.
  * `pretty` writes one item or member to a line, indented by two blanks a
    level, with a blank after the colon; an empty container stays on its line.
-/
import DocPointer.Json.Basic
import DocPointer.Text.Digits

namespace DocPointer

/-! ## Numbers -/

namespace Number

/-- The text of an exponent, which always has a sign. -/
def printExponent (e : Int) : List Char :=
  'e' :: (if e < 0 then '-' else '+') :: Digits.ofNat e.natAbs

/-- The digits `ds` with the decimal point after the first `point` of them,
    where doubles are written positionally: magnitudes from `1e-5` to below
    `1e16`, and with an exponent otherwise. -/
def printDecimal (ds : List Char) (exponent : Int) : List Char :=
  let point : Int := ds.length + exponent
  if 0 ≤ exponent ∧ point ≤ 16 then ds ++ List.replicate exponent.toNat '0' ++ ['.', '0']
  else if 0 < point ∧ point ≤ 16 then ds.take point.toNat ++ '.' :: ds.drop point.toNat
  else if -5 < point ∧ point ≤ 0 then '0' :: '.' :: List.replicate (-point).toNat '0' ++ ds
  else match ds with
    | [] => []
    | [d] => d :: printExponent (point - 1)
    | d :: ds => d :: '.' :: ds ++ printExponent (point - 1)

/-- The text of a number. -/
def print : Number → List Char
  | int n _ => Digits.ofInt n
  | float x =>
    let (digits, exponent) := x.shortest
    (if x.negative then ['-'] else []) ++ printDecimal (Digits.ofNat digits) exponent

end Number

namespace Json

/-! ## Strings -/

/-- A character as it stands inside a string. -/
def escape (c : Char) : List Char :=
  if c = '"' then ['\\', '"']
  else if c = '\\' then ['\\', '\\']
  else if c = '\x08' then ['\\', 'b']
  else if c = '\x0c' then ['\\', 'f']
  else if c = '\n' then ['\\', 'n']
  else if c = '\r' then ['\\', 'r']
  else if c = '\t' then ['\\', 't']
  else if c.toNat < 32 then
    ['\\', 'u', '0', '0', Digits.hexDigit (c.toNat / 16), Digits.hexDigit (c.toNat % 16)]
  else [c]

/-- A string in quotes. -/
def printString (s : String) : List Char :=
  '"' :: s.toList.flatMap escape ++ ['"']

/-! ## Compact text -/

mutual

/-- The compact text of a value. -/
def print : Json → List Char
  | null => "null".toList
  | bool true => "true".toList
  | bool false => "false".toList
  | num n => n.print
  | str s => printString s
  | arr xs => '[' :: printItems xs
  | obj ms => '{' :: printMembers ms

/-- The items and the closing bracket. -/
def printItems : List Json → List Char
  | [] => [']']
  | [x] => print x ++ [']']
  | x :: xs => print x ++ ',' :: printItems xs

/-- The members and the closing brace. -/
def printMembers : List (String × Json) → List Char
  | [] => ['}']
  | [(k, v)] => printString k ++ ':' :: print v ++ ['}']
  | (k, v) :: ms => printString k ++ ':' :: print v ++ ',' :: printMembers ms

end

/-- The compact text of a value, as a string. -/
def text (j : Json) : String := String.ofList j.print

/-! ## Indented text -/

/-- A line break and the indentation of a level. -/
def newline (level : Nat) : List Char := '\n' :: List.replicate (2 * level) ' '

mutual

/-- The indented text of a value whose first line is already indented. -/
def prettyAt (level : Nat) : Json → List Char
  | arr [] => ['[', ']']
  | arr (x :: xs) => '[' :: newline (level + 1) ++ prettyAt (level + 1) x ++ prettyItems level xs
  | obj [] => ['{', '}']
  | obj ((k, v) :: ms) =>
    '{' :: newline (level + 1) ++ printString k ++ ':' :: ' ' :: prettyAt (level + 1) v ++
      prettyMembers level ms
  | j => print j

/-- The items after the first, and the closing bracket on a line of its own. -/
def prettyItems (level : Nat) : List Json → List Char
  | [] => newline level ++ [']']
  | x :: xs => ',' :: newline (level + 1) ++ prettyAt (level + 1) x ++ prettyItems level xs

/-- The members after the first, and the closing brace on a line of its own. -/
def prettyMembers (level : Nat) : List (String × Json) → List Char
  | [] => newline level ++ ['}']
  | (k, v) :: ms =>
    ',' :: newline (level + 1) ++ printString k ++ ':' :: ' ' :: prettyAt (level + 1) v ++
      prettyMembers level ms

end

/-- The indented text of a value. -/
def pretty (j : Json) : String := String.ofList (prettyAt 0 j)

end Json

end DocPointer
