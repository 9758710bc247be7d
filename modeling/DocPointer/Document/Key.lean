/-
  Map keys.

  * `KeyTy.ofToken` reads the text of a token as a key: texts are taken as they are,
    integers in base ten, and texts with a lead lose it; truth values cannot be
    addressed by a token.
  * `Key.text` is the name of a key in JSON and `KeyTy.ofName?` reads it back;
    there a lead is not written.
  * `Key.Before` is the order of the entries of a map.
-/
import DocPointer.Document.Ty
import DocPointer.Json.Lexeme

namespace DocPointer

/-- A map key. -/
inductive Key where
  | text (s : String)
  | bool (b : Bool)
  | int (n : Int)
  deriving DecidableEq, Repr, Inhabited

/-- Why a token is no key of a type. -/
inductive KeyError where
  /-- No token is. -/
  | unaddressable
  /-- This token is not, for the reason given. -/
  | undecodable (reason : String)
  deriving DecidableEq, Repr

/-- The wording of the error. -/
def KeyError.message : KeyError → String
  | unaddressable => "invalid key type"
  | undecodable reason => reason

namespace KeyTy

/-- A text without the lead in front of it. -/
def dropLead? : List Char → List Char → Option (List Char)
  | [], cs => some cs
  | l :: ls, c :: cs => if l = c then dropLead? ls cs else none
  | _ :: _, [] => none

/-- The key that the decoded text of a token spells. -/
def ofToken : KeyTy → String → Except KeyError Key
  | string, s => .ok (.text s)
  | bool, _ => .error .unaddressable
  | int k, s =>
    match Digits.readInt k.signed k.low k.high s.toList with
    | .ok n => .ok (.int n)
    | .error e => .error (.undecodable e.message)
  | led _ lead, s =>
    match dropLead? lead.toList s.toList with
    | some cs => .ok (.text (String.ofList cs))
    | none => .error (.undecodable ("key " ++ s ++ " lacks the " ++ lead ++ " prefix"))

/-- The integer that a name in JSON spells: digits without a leading zero, after a
    minus sign where the number is negative.  Kinds wider than 64 bits read zero with
    a sign too. -/
def readName? (k : IntKind) (cs : List Char) : Option Int :=
  let (negative, ds) := match cs with
    | '-' :: ds => (true, ds)
    | ds => (false, ds)
  match Number.whole? ds with
  | some (ds, []) =>
    let n : Int := if negative then -(Digits.value ds : Int) else Digits.value ds
    if k.Holds n ∧ (negative = true ∧ n = 0 → 64 < k.bits ∧ k.signed) then some n else none
  | _ => none

/-- The key that a name in JSON spells. -/
def ofName? : KeyTy → String → Option Key
  | string, s => some (.text s)
  | led _ _, s => some (.text s)
  | bool, s => if s = "true" then some (.bool true) else if s = "false" then some (.bool false) else none
  | int k, s => (readName? k s.toList).map .int

end KeyTy

namespace Key

/-- The name of a key in JSON. -/
def name : Key → String
  | text s => s
  | bool true => "true"
  | bool false => "false"
  | int n => String.ofList (Digits.ofInt n)

/-- The order of keys: texts by code points, integers by value, false before
    true. -/
def lt : Key → Key → Bool
  | text s, text t => s < t
  | bool a, bool b => !a && b
  | int m, int n => m < n
  | text _, _ => true
  | bool _, int _ => true
  | _, _ => false

/-- The order of the entries of a kind of maps. -/
def before : MapKind → Key → Key → Bool
  | .sorted, k, l => k.lt l
  | .hashed, k, l => k.name < l.name

end Key

end DocPointer
