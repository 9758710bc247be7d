/-
  Direct access to the parts of a value, through its face.

  Each operation answers `none` where the face of the value is of the wrong kind.
  Operations that change a value give it back changed, with what they put there.
-/
import DocPointer.Document.Codec
import DocPointer.Document.Node

namespace DocPointer

/-- The word for a face, to a reader or to a writer: the two differ on a sealed
    pointer, which a reader takes to be nil. -/
def Node.word (forWriting : Bool) : Node → String
  | .scalar => "scalar"
  | .nil => "ptr nil"
  | .ptr _ => "ptr"
  | .sealed full => if forWriting && full then "ptr" else "ptr nil"
  | .record .. => "struct"
  | .map .. => "map"
  | .slice .. => "slice"
  | .array .. => "array"
  | .raw _ => "raw"

namespace Schema

variable (Γ : Schema)

/-! ## Parts by position -/

/-- The length of a sequence. -/
def length? (v : Val) : Option Nat :=
  match Γ.node v with
  | .slice _ _ items | .array _ items => some items.length
  | _ => none

/-- The field or element at a position, or the target of a pointer. -/
def part? (i : Nat) (v : Val) : Option (Option Val) :=
  match Γ.node v with
  | .record _ fields => some fields[i]?
  | .slice _ gap items | .array gap items => some (elem? gap items i)
  | .ptr target => some (some target)
  | .nil | .sealed _ => some none
  | _ => none

/-- The sequence with a zero value behind its elements, and that value. -/
def push? (v : Val) : Option (Val × Val) :=
  match Γ.node v with
  | .slice elem _ items => some (Γ.withItems v (items ++ [Γ.zero elem]), Γ.zero elem)
  | _ => none

/-- The sequence without the element at a position. -/
def removeAt? (i : Nat) (v : Val) : Option Val :=
  match Γ.node v with
  | .slice _ _ items => some (Γ.withItems v (items.eraseIdx i))
  | _ => none

/-- The sequence cut to a length. -/
def truncate? (n : Nat) (v : Val) : Option Val :=
  match Γ.node v with
  | .slice _ _ items => some (Γ.withItems v (items.take n))
  | _ => none

/-! ## Pointers -/

/-- The pointer with a new target, and the target, unless it can get none. -/
def vivify? (shape : Shape) (v : Val) : Option (Val × Option Val) :=
  match Γ.node v with
  | .nil | .ptr _ | .sealed _ =>
    match Γ.vivified? shape v with
    | some w => some (v.withTarget w, some w)
    | none => some (v, none)
  | _ => none

/-- The pointer made nil. -/
def clear? (v : Val) : Option Val :=
  match Γ.node v with
  | .nil | .ptr _ | .sealed _ => some (Γ.cleared v)
  | _ => none

/-! ## Entries -/

/-- The type of the keys of a map. -/
def keyTy? (v : Val) : Option KeyTy :=
  match Γ.node v with
  | .map key .. => some key
  | _ => none

/-- The value under the key a token spells. -/
def entry? (t : Token) (v : Val) : Option (Except KeyError (Option Val)) :=
  match Γ.node v with
  | .map key _ _ entries => some ((key.ofToken t.decoded).map (Entries.get? · entries))
  | _ => none

/-- The map with an entry for the key a token spells, the value there, and whether it is
    new. -/
def insertEntry? (t : Token) (v : Val) : Option (Except KeyError (Val × Val × Bool)) :=
  match Γ.node v with
  | .map key order elem entries =>
    some ((key.ofToken t.decoded).map fun k =>
      match Entries.get? k entries with
      | some child => (v, child, false)
      | none => (v.withEntries (Entries.insert order k (Γ.zero elem) entries), Γ.zero elem, true))
  | _ => none

/-- The map without the key a token spells. -/
def removeEntry? (t : Token) (v : Val) : Option (Except KeyError Val) :=
  match Γ.node v with
  | .map key _ _ entries =>
    some ((key.ofToken t.decoded).map fun k => v.withEntries (Entries.remove k entries))
  | _ => none

end Schema

/-! ## Holders -/

namespace Schema

variable (Γ : Schema)

/-- What a holder holds. -/
def held? : Val → Option Val
  | .held v => some v
  | _ => none

/-- A holder of a value; a holder is not put into another. -/
def hold : Val → Val
  | .vacant => .vacant
  | .held v => .held v
  | v => .held v

/-- Whether two holders have the same content: both none, or values that have the same
    JSON form up to the order of members. -/
def sameHeld (a b : Val) : Bool :=
  match held? a, held? b with
  | none, none => true
  | some v, some w =>
    match Γ.encode v, Γ.encode w with
    | some j, some k => j.same k
    | _, _ => false
  | _, _ => false

/-- A holder in words: the type of its content, and the JSON form if it has one. -/
def heldWords (a : Val) : String :=
  match held? a with
  | none => "Dyn(None)"
  | some v =>
    match Γ.encode v with
    | some j => "Dyn(" ++ v.typeOf.name ++ ": " ++ j.text ++ ")"
    | none => "Dyn(" ++ v.typeOf.name ++ ")"

end Schema

end DocPointer
