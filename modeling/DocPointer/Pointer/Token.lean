/-
  Reference tokens: the segments of a pointer.

  A token is kept as it is spelled in a pointer, where `~` is written `~0` and
  `/` is written `~1`.

  * `escape` and `unescape` pass between raw and spelled texts;
    `unescape_escape`: nothing is lost.
  * `Token.toInt?` reads the decoded token as an integer of 64 bits.
  * `Token.index` is the position a token names in a sequence whose next free
    position is given: `-` is that next position, and every other token must be
    an integer between zero and it.  `Token.existing` is the position of an element
    that is there.
-/
import DocPointer.Text.Digits
import DocPointer.Text.Quoted

namespace DocPointer

/-! ## Escaping -/

namespace Escape

/-- A character as it is spelled in a token. -/
def spell (c : Char) : List Char :=
  if c = '~' then ['~', '0'] else if c = '/' then ['~', '1'] else [c]

/-- A raw text as it is spelled in a token. -/
def escape (cs : List Char) : List Char := cs.flatMap spell

/-- The raw text of a spelled one.  A tilde that starts no escape stands for
    itself. -/
def unescape : List Char → List Char
  | [] => []
  | '~' :: '0' :: cs => '~' :: unescape cs
  | '~' :: '1' :: cs => '/' :: unescape cs
  | c :: cs => c :: unescape cs

theorem unescape_cons {c : Char} (h : c ≠ '~') (cs : List Char) :
    unescape (c :: cs) = c :: unescape cs := by
  rw [unescape]
  · rintro cs rfl; exact absurd rfl h
  · rintro cs rfl; exact absurd rfl h

/-- **Escaping loses nothing.** -/
theorem unescape_escape (cs : List Char) : unescape (escape cs) = cs := by
  induction cs with
  | nil => rfl
  | cons c cs ih =>
    change unescape (spell c ++ escape cs) = c :: cs
    by_cases h₀ : c = '~'
    · subst h₀; simpa [spell, unescape] using ih
    by_cases h₁ : c = '/'
    · subst h₁; simpa [spell, unescape] using ih
    · simp [spell, h₀, h₁, unescape_cons h₀, ih]

end Escape

/-! ## Tokens -/

/-- A reference token, as it is spelled in a pointer. -/
structure Token where
  text : String
  deriving DecidableEq, Repr, Inhabited

namespace Token

/-- The token of a raw text. -/
def ofRaw (raw : String) : Token := ⟨String.ofList (Escape.escape raw.toList)⟩

/-- The raw text the token spells. -/
def decoded (t : Token) : String := String.ofList (Escape.unescape t.text.toList)

/-- Whether the token names the position after the last element. -/
def isAppend (t : Token) : Bool := t.text == "-"

@[simp] theorem decoded_ofRaw (s : String) : (ofRaw s).decoded = s := by
  simp [ofRaw, decoded, Escape.unescape_escape]

end Token

/-! ## Positions -/

/-- The largest integer of 64 bits with a sign. -/
def maxInt : Nat := 0x7fffffffffffffff

/-- Why a token names no position. -/
inductive IndexError where
  /-- The decoded token is no integer of 64 bits. -/
  | malformed (token : String)
  /-- The integer is negative or greater than `bound`. -/
  | outOfRange (index bound : Int)
  deriving DecidableEq, Repr

/-- The wording of the error. -/
def IndexError.message : IndexError → String
  | malformed token => "malformed slice or array index " ++ Text.quoted token
  | outOfRange index bound =>
    "index out of range; expected index to be equal to or less than next (" ++ toString bound ++
      ") but is (" ++ toString index ++ ")"

namespace Token

/-- The decoded token as an integer of 64 bits. -/
def toInt? (t : Token) : Option Int :=
  (Digits.readInt true (maxInt + 1) maxInt t.decoded.toList).toOption

/-- The decoded token as a natural number of 64 bits. -/
def toNat? (t : Token) : Option Nat :=
  (Digits.readInt false 0 0xffffffffffffffff t.decoded.toList).toOption.map Int.toNat

/-- The position the token names in a sequence whose next free position is
    `next`. -/
def index (t : Token) (next : Nat) : Except IndexError Nat :=
  if t.isAppend then .ok next
  else match t.toInt? with
    | none => .error (.malformed t.decoded)
    | some i =>
      let bound : Int := min next maxInt
      if i < 0 ∨ bound < i then .error (.outOfRange i bound) else .ok i.toNat

/-- The position of an element that is there, in a sequence of length `len`: the
    next free position is out of range too. -/
def existing (t : Token) (len : Nat) : Except IndexError Nat :=
  let bound : Int := (min len maxInt : Nat) - 1
  match t.index len with
  | .ok i => if i < len then .ok i else .error (.outOfRange (min i maxInt : Nat) bound)
  | .error (.outOfRange i _) => .error (.outOfRange i bound)
  | .error e => .error e

end Token

end DocPointer
