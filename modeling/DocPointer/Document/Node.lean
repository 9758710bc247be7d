/-
  What a value presents to a pointer.

  Values of all types, JSON among them, present one of a few faces: a scalar, a pointer,
  a record, a map, a sequence of either kind, or a region.  A walk looks at the face
  (`Schema.node`) and puts changed parts back (`withFields`, `withEntries`, `withItems`,
  `withTarget`); it never looks at the type.

  * `elem?` is an element of a sequence, which may lack the one at its gap.
  * `Shape` says what a container is that is made on demand: a sequence where the
    token names the only position of an empty one, a map otherwise.
  * `Schema.vivified?` is the target that a nil pointer gets, `Schema.cleared` makes a
    pointer nil again.
-/
import DocPointer.Document.Schema

namespace DocPointer

/-! ## Faces -/

/-- The face of a value. -/
inductive Node where
  | scalar
  /-- A pointer that is nil. -/
  | nil
  | ptr (target : Val)
  /-- A pointer whose target is out of reach. -/
  | sealed (full : Bool)
  | record (name : String) (fields : List Val)
  | map (key : KeyTy) (order : EntryOrder) (elem : Ty) (entries : Entries Val)
  /-- A sequence that grows and shrinks; `gap` is the position of an element that
      is not handed out. -/
  | slice (elem : Ty) (gap : Option Nat) (items : List Val)
  | array (gap : Option Nat) (items : List Val)
  | raw (bytes : ByteArray)

/-- The face of a JSON value: null is a nil pointer. -/
def Json.node : Json → Node
  | .null => .nil
  | .arr items => .slice .json none (items.map .json)
  | .obj members => .map .string .insertion .json (members.map fun (k, j) => (.text k, .json j))
  | _ => .scalar

/-- The position a number is, if it is one. -/
def Val.position? : Val → Option Nat
  | .int _ n => some n.toNat
  | _ => none

/-- Whether a value is the truth value true. -/
def Val.isTrue : Val → Bool
  | .bool b => b
  | _ => false

namespace Schema

variable (Γ : Schema)

/-- The face of a record. -/
def recordNode (name : String) (fields : List Val) : Node :=
  match (Γ.decl name).presentation with
  | .fields => .record name fields
  | .sealed full => .sealed ((fields[full]?.map Val.isTrue).getD false)
  | .items items hole fixed =>
    match fields[items]? with
    | some (.slice elem xs) =>
      let gap := fields[hole]?.bind Val.position?
      if (fields[fixed]?.map Val.isTrue).getD false then .array gap xs else .slice elem gap xs
    | _ => .scalar

/-- The face of a value. -/
def node : Val → Node
  | .nil _ => .nil
  | .ptr v => .ptr v
  | .box v => .ptr v
  | .slice elem items => .slice elem none items
  | .array _ items => .array none items
  | .map kind key elem entries => .map key (.byKey kind) elem entries
  | .json j => j.node
  | .vacant => .nil
  | .held v => .ptr v
  | .raw bytes => .raw bytes
  | .record name fields => Γ.recordNode name fields
  | _ => .scalar

/-- The value with other elements in its sequence. -/
def withItems : Val → List Val → Val
  | .slice elem _, xs => .slice elem xs
  | .array elem _, xs => .array elem xs
  | .json _, xs => .json (.arr (xs.map Val.asJson))
  | .record name fields, xs =>
    match (Γ.decl name).presentation with
    | .items items _ _ =>
      match fields[items]? with
      | some (.slice elem _) => .record name (fields.set items (.slice elem xs))
      | _ => .record name fields
    | _ => .record name fields
  | v, _ => v

end Schema

namespace Val

/-- The value with other fields in its record. -/
def withFields : Val → List Val → Val
  | .record name _, fields => .record name fields
  | v, _ => v

/-- The value with other entries in its map. -/
def withEntries : Val → Entries Val → Val
  | .map kind key elem _, es => .map kind key elem es
  | .json _, es => .json (.obj (es.map fun (k, v) => (k.name, v.asJson)))
  | v, _ => v

/-- The pointer with another target. -/
def withTarget : Val → Val → Val
  | .nil _, w => .ptr w
  | .ptr _, w => .ptr w
  | .box _, w => .box w
  | .vacant, w => .held w
  | .held _, w => .held w
  | .json _, w => w
  | v, _ => v

end Val

/-! ## Sequences -/

/-- The element at a position of a sequence, unless it is the gap. -/
def elem? (gap : Option Nat) (items : List Val) (i : Nat) : Option Val :=
  if gap = some i then none else items[i]?

/-! ## Containers made on demand -/

/-- The shape of a container that is made on demand. -/
inductive Shape where
  | seq
  | map
  deriving DecidableEq, Repr

namespace Shape

/-- The shape that a token asks for: a sequence if the token names a position of
    an empty one. -/
def ofToken (t : Token) : Shape :=
  match t.index 0 with
  | .ok _ => seq
  | .error _ => map

/-- The empty JSON container of a shape. -/
def container : Shape → Json
  | seq => .arr []
  | map => .obj []

end Shape

namespace Schema

variable (Γ : Schema)

/-- The target that a pointer gets when it is made to have a new one: a zero value,
    or in a holder, which knows no type, a JSON container.  A pointer that is never
    nil keeps its target. -/
def vivified? (shape : Shape) : Val → Option Val
  | .nil t => some (Γ.zero t)
  | .ptr v => some (Γ.zero v.typeOf)
  | .box v => some v
  | .vacant => some (.json shape.container)
  | .held _ => some (.json shape.container)
  | .json .null => some (.json shape.container)
  | _ => none

/-- The pointer made nil; one that is never nil gets the zero value for its
    target, and a sealed one notes that it is empty. -/
def cleared : Val → Val
  | .ptr v => .nil v.typeOf
  | .box v => .box (Γ.zero v.typeOf)
  | .held _ => .vacant
  | .json _ => .json .null
  | .record name fields =>
    match (Γ.decl name).presentation with
    | .sealed full => .record name (fields.set full (.bool false))
    | _ => .record name fields
  | v => v

end Schema

end DocPointer
