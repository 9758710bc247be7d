/-
  One step of a walk that only looks.

  * `Schema.fieldPath` are the positions of the field a token names, and
    `Schema.follow` goes down them, through pointers that are not nil.
  * `Schema.select` is the part of a value that a token addresses.  It is looked
    for behind the pointers of the value, and in a region in the value that the region
    spells.
-/
import DocPointer.Document.Codec
import DocPointer.Document.Node
import DocPointer.Walk.Fault

namespace DocPointer.Schema

variable (Γ : Schema)

/-- The positions of the field that a token names in a record. -/
def fieldPath (name : String) (t : Token) : Except Fault (List Nat) :=
  match (Γ.fieldIndex name).lookup t.decoded with
  | .field f => .ok f.index
  | .unexported => .error (.unexportedField t.decoded)
  | .missing => .error .notFound

/-- The value at the end of a path of fields; `none` where a pointer on the way is
    nil. -/
def follow : List Nat → Val → Option Val
  | [], v => some v
  | i :: path, v =>
    match Γ.node v.target with
    | .record _ fields => fields[i]?.bind (follow path)
    | _ => none

/-- The part of a value that a token addresses, for a value that is neither a pointer
    that leads somewhere nor a region. -/
def selectBare (t : Token) (v : Val) : Except Refusal Val :=
  let refuse (fault : Fault) : Except Refusal Val := .error ⟨fault, v.typeOf⟩
  match Γ.node v with
  | .scalar => refuse .unreachable
  | .nil | .ptr _ | .sealed _ | .raw _ => refuse .notFound
  | .record name _ =>
    match Γ.fieldPath name t with
    | .error fault => refuse fault
    | .ok path =>
      match Γ.follow path v with
      | some child => .ok child
      | none => refuse .notFound
  | .map key _ _ entries =>
    match key.ofToken t.decoded with
    | .error e => refuse (.ofKeyError key t e)
    | .ok k =>
      match Entries.get? k entries with
      | some child => .ok child
      | none => refuse .notFound
  | .slice _ gap items | .array gap items =>
    match t.existing items.length with
    | .error e => refuse (.index e)
    | .ok i =>
      match elem? gap items i with
      | some child => .ok child
      | none => refuse .notFound

/-- The value a token is to be looked up in: behind pointers, and in a region the
    value it spells.  An empty region has none. -/
def opened (v : Val) : Except Refusal Val :=
  match v.target with
  | .raw bytes =>
    if bytes.isEmpty then .error ⟨.notFound, .raw⟩
    else match Γ.regionValue? bytes with
      | some j => .ok (.json j)
      | none => .error ⟨.codec, .raw⟩
  | w => .ok w

/-- The part of a value that a token addresses. -/
def select (t : Token) (v : Val) : Except Refusal Val := (Γ.opened v).bind (Γ.selectBare t)

end DocPointer.Schema
