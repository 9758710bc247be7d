/-
  Storing a value in a slot.

  A slot takes a value of its own type as it is.  A slot for JSON takes everything that
  has a JSON form, and a holder takes everything.  JSON, decoded or not, goes into a
  typed slot by decoding, and a value goes into a region by encoding.  Otherwise a
  pointer passes the value on to its target, allocating one if it is nil.

  * `Schema.fill` stores a value in a new slot of a type, `Schema.store` in a slot
    that holds a value; the outcome is a `Storing`.  A target that was allocated is
    taken back if it refuses the value.
  * `Schema.deliver` also tries, when the slot does not take a value that is a pointer,
    what the pointer leads to.
-/
import DocPointer.Document.Codec
import DocPointer.Document.Node
import DocPointer.Walk.Fault

namespace DocPointer.Schema

variable (Γ : Schema)

/-- A slot that takes a value as it is, or adopts it. -/
def adopts? (slot : Ty) (x : Val) : Option Val :=
  if x.typeOf = slot then some x
  else match slot with
    | .json => (Γ.encode x).map .json
    | .holder => some (.held x)
    | _ => none

/-- JSON decoded as a value of the slot. -/
def crosses (slot source : Ty) (j : Json) : Except Refusal Val :=
  match Γ.decode j slot with
  | some v => .ok v
  | none => .error ⟨.notAssignable slot source, slot⟩

/-- What a slot of a type does with a value before its pointers are tried; `none`
    passes the value on. -/
def offer (slot : Ty) (x : Val) : Option (Except Refusal Val) :=
  match Γ.adopts? slot x with
  | some v => some (.ok v)
  | none =>
    match x with
    | .raw bytes =>
      match Γ.regionValue? bytes with
      | some j => some (Γ.crosses slot .raw j)
      | none => some (.error ⟨.codec, slot⟩)
    | .json j => some (Γ.crosses slot .json j)
    | _ => none

/-- What storing a value left behind: the content of the slot, and the refusal if it
    failed. -/
abbrev Storing := Attempt Refusal

/-- The slot refused the value and holds `v`, as before. -/
def Storing.refuse (r : Refusal) (v : Val) : Storing := (.error r, v)

/-- What a slot that is neither null nor a pointer with a target does with a value it
    does not adopt: a region takes the encoding, and all else refuses. -/
def settleBare (slot x : Val) : Storing :=
  match Γ.node slot with
  | .raw _ =>
    match Γ.encode x with
    | some j => .done (.raw j.toBytes)
    | none => .refuse ⟨.codec, slot.typeOf⟩ slot
  | .sealed false => .refuse ⟨.nilInterface, slot.typeOf⟩ slot
  | _ => .refuse ⟨.notAssignable slot.typeOf x.typeOf, slot.typeOf⟩ slot

/-- What a slot that is no pointer with a target does with a value it does not adopt.
    Null is tried as an object, and is null again if that refuses. -/
def settle (slot x : Val) : Storing :=
  match slot with
  | .json .null => (Γ.settleBare (.json Shape.map.container) x).within id Γ.cleared
  | slot => Γ.settleBare slot x

/-- Stores a value in a new slot of a type.  A nil pointer gets a target, and is nil
    again if that refuses. -/
def fill (slot : Ty) (x : Val) : Storing :=
  match Γ.offer slot x with
  | some (.ok v) => .done v
  | some (.error r) => .refuse r (Γ.zero slot)
  | none =>
    match slot with
    | .opt t => (fill t x).within .ptr fun v => Γ.cleared (.ptr v)
    | .box t => (fill t x).inside .box
    | t => Γ.settle (Γ.zero t) x

/-- Stores a value in a slot.  A nil pointer gets a target, and is nil again if that
    refuses. -/
def store (slot x : Val) : Storing :=
  match Γ.offer slot.typeOf x with
  | some (.ok v) => .done v
  | some (.error r) => .refuse r slot
  | none =>
    match slot with
    | .nil t => (Γ.fill t x).within .ptr fun v => Γ.cleared (.ptr v)
    | .ptr v => (store v x).inside .ptr
    | .box v => (store v x).inside .box
    | v => Γ.settle v x

/-- Stores a value, or what it leads to, in a slot.  Each attempt starts from what the
    one before left in the slot. -/
def deliver (slot : Val) (x : Val) : Storing :=
  match Γ.store slot x with
  | (.ok _, v) => .done v
  | (.error e, v) =>
    if e.fault.isNotAssignable then
      match x with
      | .ptr w => deliver v w
      | .box w => deliver v w
      | .held w => deliver v w
      | _ => .refuse e v
    else .refuse e v

end DocPointer.Schema
