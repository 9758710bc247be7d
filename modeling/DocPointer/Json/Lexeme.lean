/-
  The lexemes of JSON text.

  A text is cut by a machine that takes one character at a time.  Between
  lexemes it skips blanks; brackets, braces, commas and colons are lexemes by
  themselves; a quote starts a string, which is read to its closing quote with
  the escapes resolved; every other character starts a run that lasts up to the
  next blank, bracket, comma, colon or quote, and the run as a whole has to be a
  literal name or a number.

  * `Scan.step` is the machine, `Scan.lexemes` its run over a text.
  * `Number.read?` reads a run that spells a number: an optional minus sign, an
    integer part without leading zeros, then possibly a fraction and an exponent.
    A text with neither is an integer if it has at most 64 bits; negative zero and
    all other numbers are doubles, rounded in the way that the caller chooses.
-/
import DocPointer.Json.Basic
import DocPointer.Number.Decimal

namespace DocPointer

/-! ## Numbers -/

namespace Number

/-- The digits at the head of a text, which must have at least one, and the
    rest. -/
def digits? (cs : List Char) : Option (List Char × List Char) :=
  match cs.takeWhile Digits.isDigit with
  | [] => none
  | ds => some (ds, cs.dropWhile Digits.isDigit)

/-- The integer part: a single zero, or digits that do not start with one. -/
def whole? (cs : List Char) : Option (List Char × List Char) :=
  match digits? cs with
  | some ('0' :: _ :: _, _) => none
  | found => found

/-- The digits after the decimal point, if there is a point. -/
def fraction? : List Char → Option (Option (List Char) × List Char)
  | '.' :: cs => (digits? cs).map fun (ds, rest) => (some ds, rest)
  | cs => some (none, cs)

/-- A sign and digits. -/
def signed? : List Char → Option (Int × List Char)
  | '-' :: cs => (digits? cs).map fun (ds, rest) => (-(Digits.value ds : Int), rest)
  | '+' :: cs => (digits? cs).map fun (ds, rest) => ((Digits.value ds : Int), rest)
  | cs => (digits? cs).map fun (ds, rest) => ((Digits.value ds : Int), rest)

/-- The exponent, if there is one. -/
def exponent? : List Char → Option (Option Int × List Char)
  | 'e' :: cs => (signed? cs).map fun (e, rest) => (some e, rest)
  | 'E' :: cs => (signed? cs).map fun (e, rest) => (some e, rest)
  | cs => some (none, cs)

/-- The number of an integer part that no fraction or exponent follows. -/
def ofWhole? (rounding : Rounding) (negative : Bool) (ds : List Char) : Option Number :=
  let n := Digits.value ds
  if negative ∧ n = 0 then some (.float (.zero true))
  else match ofInt? (if negative then -(n : Int) else n) with
    | some number => some number
    | none => (Decimal.round ⟨negative, ds, [], 0⟩ rounding).map .float

/-- The number without its sign. -/
def unsigned? (rounding : Rounding) (negative : Bool) (cs : List Char) : Option Number :=
  match whole? cs with
  | none => none
  | some (ds, rest) =>
    match fraction? rest with
    | none => none
    | some (fs, rest) =>
      match exponent? rest with
      | some (e, []) =>
        match fs, e with
        | none, none => ofWhole? rounding negative ds
        | _, _ => (Decimal.round ⟨negative, ds, fs.getD [], e.getD 0⟩ rounding).map .float
      | _ => none

/-- The number a text spells; `none` also where the magnitude is out of
    bounds. -/
def read? (rounding : Rounding) : List Char → Option Number
  | '-' :: cs => unsigned? rounding true cs
  | cs => unsigned? rounding false cs

end Number

/-! ## Lexemes -/

/-- A lexeme: punctuation, or a value that holds no other. -/
inductive Lexeme where
  | openArr
  | closeArr
  | openObj
  | closeObj
  | comma
  | colon
  | scalar (j : Json)

namespace Lexeme

/-- The punctuation mark a character is. -/
def mark? : Char → Option Lexeme
  | '[' => some openArr
  | ']' => some closeArr
  | '{' => some openObj
  | '}' => some closeObj
  | ',' => some comma
  | ':' => some colon
  | _ => none

/-- The value a run spells. -/
def ofRun? (rounding : Rounding) (cs : List Char) : Option Json :=
  if cs = "null".toList then some .null
  else if cs = "true".toList then some (.bool true)
  else if cs = "false".toList then some (.bool false)
  else (Number.read? rounding cs).map .num

end Lexeme

/-! ## The machine -/

/-- Where in the text the machine stands; what has been read of the lexeme is
    kept in reverse. -/
inductive Scan where
  /-- Between lexemes. -/
  | gap
  /-- Inside a run. -/
  | run (read : List Char)
  /-- Inside a string. -/
  | text (read : List Char)
  /-- After a backslash in a string. -/
  | escape (read : List Char)
  /-- In a hexadecimal escape, with `left + 1` digits to come and the ones read
      worth `unit`; `high` is the first half of a surrogate pair read before. -/
  | hex (read : List Char) (high : Option Nat) (left unit : Nat)
  /-- After the first half of a surrogate pair: a backslash must follow. -/
  | half (read : List Char) (high : Nat)
  /-- After that backslash: the letter `u` must follow. -/
  | halfEscape (read : List Char) (high : Nat)

namespace Scan

/-- The blanks of JSON. -/
def isBlank (c : Char) : Bool := c = ' ' || c = '\t' || c = '\n' || c = '\r'

/-- The character a one-letter escape stands for. -/
def letter? : Char → Option Char
  | '"' => some '"'
  | '\\' => some '\\'
  | '/' => some '/'
  | 'b' => some '\x08'
  | 'f' => some '\x0c'
  | 'n' => some '\n'
  | 'r' => some '\r'
  | 't' => some '\t'
  | _ => none

/-- After the last digit of a hexadecimal escape: a character, the first half of
    a pair, or the second half of the pair that `high` began.  A half alone is
    refused. -/
def unit? (read : List Char) (high : Option Nat) (u : Nat) : Option Scan :=
  match high with
  | some h =>
    if 0xDC00 ≤ u ∧ u < 0xE000 then
      some (text (Char.ofNat (0x10000 + (h - 0xD800) * 0x400 + (u - 0xDC00)) :: read))
    else none
  | none =>
    if 0xD800 ≤ u ∧ u < 0xDC00 then some (half read u)
    else if 0xDC00 ≤ u ∧ u < 0xE000 then none
    else some (text (Char.ofNat u :: read))

/-- A character between lexemes: the lexeme it completes, if any, and where the
    machine stands after it. -/
def start (c : Char) : Scan × List Lexeme :=
  if isBlank c then (gap, [])
  else if c = '"' then (text [], [])
  else match Lexeme.mark? c with
    | some l => (gap, [l])
    | none => (run [c], [])

/-- Whether a character ends a run. -/
def endsRun (c : Char) : Bool := isBlank c || c = '"' || (Lexeme.mark? c).isSome

/-- One character: where the machine stands after it and the lexemes it
    completes; `none` where the text is no JSON. -/
def step (rounding : Rounding) : Scan → Char → Option (Scan × List Lexeme)
  | gap, c => some (start c)
  | run read, c =>
    if endsRun c then
      (Lexeme.ofRun? rounding read.reverse).map fun j => ((start c).1, .scalar j :: (start c).2)
    else some (run (c :: read), [])
  | text read, c =>
    if c = '"' then some (gap, [.scalar (.str (String.ofList read.reverse))])
    else if c = '\\' then some (escape read, [])
    else if c.toNat < 32 then none
    else some (text (c :: read), [])
  | escape read, c =>
    if c = 'u' then some (hex read none 3 0, [])
    else (letter? c).map fun d => (text (d :: read), [])
  | hex read high left unit, c =>
    match Digits.hexDigit? c, left with
    | none, _ => none
    | some d, 0 => (unit? read high (16 * unit + d)).map (·, [])
    | some d, left + 1 => some (hex read high left (16 * unit + d), [])
  | half read high, c => if c = '\\' then some (halfEscape read high, []) else none
  | halfEscape read high, c => if c = 'u' then some (hex read (some high) 3 0, []) else none

/-- The lexemes of a text from a given position of the machine; `none` where it
    stops inside a string or is refused. -/
def lexemes (rounding : Rounding) : Scan → List Char → Option (List Lexeme)
  | gap, [] => some []
  | run read, [] => (Lexeme.ofRun? rounding read.reverse).map fun j => [.scalar j]
  | _, [] => none
  | s, c :: cs =>
    match s.step rounding c with
    | none => none
    | some (s', ls) => (lexemes rounding s' cs).map (ls ++ ·)

end Scan

end DocPointer
