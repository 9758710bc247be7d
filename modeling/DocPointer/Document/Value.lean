/-
  Values of documents.

  A value carries enough of its type that `typeOf` can read the type off: an empty
  pointer and a container say what they would hold, and a holder says nothing.

  * `target` passes through pointers to the value they lead to.
  * `Entries` are the entries of a map; `put` keeps the place of a key that is
    there and otherwise finds the place by the order of the map.
-/
import DocPointer.Document.Key

namespace DocPointer

/-! ## Entries -/

/-- The entries of a map. -/
abbrev Entries (α : Type) := List (Key × α)

/-- Where a new entry goes: behind the others, or by the order of a kind of maps. -/
inductive EntryOrder where
  | insertion
  | byKey (kind : MapKind)
  deriving DecidableEq, Repr

namespace Entries

variable {α : Type}

/-- The value under a key. -/
def get? (key : Key) : Entries α → Option α
  | [] => none
  | (k, v) :: es => if k = key then some v else get? key es

/-- Puts a new entry in its place. -/
def insert (order : EntryOrder) (key : Key) (v : α) : Entries α → Entries α
  | [] => [(key, v)]
  | (k, w) :: es =>
    match order with
    | .insertion => (k, w) :: insert order key v es
    | .byKey kind =>
      if Key.before kind key k then (key, v) :: (k, w) :: es else (k, w) :: insert order key v es

/-- Changes the value under a key that is there. -/
def set (key : Key) (v : α) : Entries α → Entries α
  | [] => []
  | (k, w) :: es => if k = key then (k, v) :: es else (k, w) :: set key v es

/-- Sets the value under a key, new or not. -/
def put (order : EntryOrder) (key : Key) (v : α) (es : Entries α) : Entries α :=
  match get? key es with
  | some _ => set key v es
  | none => insert order key v es

/-- Takes a key out. -/
def remove (key : Key) : Entries α → Entries α
  | [] => []
  | (k, v) :: es => if k = key then es else (k, v) :: remove key es

end Entries

/-! ## Values -/

/-- A value of some type. -/
inductive Val where
  | bool (b : Bool)
  | char (c : Char)
  | int (k : IntKind) (n : Int)
  /-- `none` is a magnitude out of the bounds of the format. -/
  | float (k : FloatKind) (x : Option (Binary k.format))
  | string (s : String)
  /-- An optional pointer to a `t` that is nil. -/
  | nil (t : Ty)
  /-- An optional pointer that is not. -/
  | ptr (v : Val)
  | box (v : Val)
  | slice (elem : Ty) (items : List Val)
  | array (elem : Ty) (items : List Val)
  | map (kind : MapKind) (key : KeyTy) (elem : Ty) (entries : List (Key × Val))
  | json (j : Json)
  /-- A holder of nothing. -/
  | vacant
  /-- A holder of a value. -/
  | held (v : Val)
  | raw (bytes : ByteArray)
  | record (name : String) (fields : List Val)
  deriving Inhabited

namespace Val

/-- The type of a value. -/
def typeOf : Val → Ty
  | bool _ => .bool
  | char _ => .char
  | int k _ => .int k
  | float k _ => .float k
  | string _ => .string
  | nil t => .opt t
  | ptr v => .opt v.typeOf
  | box v => .box v.typeOf
  | slice t _ => .slice t
  | array t items => .array items.length t
  | map kind key t _ => .map kind key t
  | json _ => .json
  | vacant => .holder
  | held _ => .holder
  | raw _ => .raw
  | record name _ => .record name

/-! ## Pointers -/

/-- The value that a chain of pointers leads to; a nil pointer leads nowhere and
    stands for itself. -/
def target : Val → Val
  | ptr v => target v
  | box v => target v
  | held v => target v
  | v => v

/-- The JSON value that a value of that type is. -/
def asJson : Val → Json
  | json j => j
  | _ => .null

end Val

end DocPointer
