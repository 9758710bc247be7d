/-
  Typed values as JSON, and back.

  * `Schema.encode` fails only for undecodable regions and for integers of more than
    64 bits.  Pointers and holders are encoded as what they lead to, a nil one as
    null; a region is encoded as the value it spells, empty as null.
  * `Schema.decode` reads a JSON value as a value of a type.  Records are objects,
    whose unknown names are ignored, or arrays of their slots in order; what is
    missing takes its zero value.
  * `Schema.regionValue?` and `regionOf` pass between the bytes of a region and the
    value it spells.
-/
import DocPointer.Document.Schema
import DocPointer.Json.Reader

namespace DocPointer

/-- The region of a value that is decoded as one: null leaves it empty. -/
def regionOf (j : Json) : ByteArray := if j.isNull then .empty else j.toBytes

namespace Schema

variable (Γ : Schema)

/-- The value a region spells; an empty one spells null. -/
def regionValue? (bytes : ByteArray) : Option Json :=
  if bytes.isEmpty then some .null else Json.ofBytes? Γ.reading bytes

/-! ## Encoding -/

mutual

/-- The JSON value of a typed one. -/
def encode : Val → Option Json
  | .bool b => some (.bool b)
  | .char c => some (.str (String.singleton c))
  | .int _ n => Json.ofInt? n
  | .float .f32 x => some (((x.bind Binary.convert).map fun y => .num (.float y)).getD .null)
  | .float .f64 x => some ((x.map fun y => .num (.float y)).getD .null)
  | .string s => some (.str s)
  | .nil _ => some .null
  | .ptr v => encode v
  | .box v => encode v
  | .slice _ items => (encodeItems items).map .arr
  | .array _ items => (encodeItems items).map .arr
  | .map _ _ _ entries => (encodeEntries entries).map fun ms => .obj (Members.ofList ms)
  | .json j => some j
  | .vacant => some .null
  | .held v => encode v
  | .raw bytes => Γ.regionValue? bytes
  | .record name fields =>
    (encodeFields ((Γ.decl name).slots.map Slot.key) fields).map fun ms => .obj (Members.ofList ms)

/-- The JSON values of the elements of a sequence. -/
def encodeItems : List Val → Option (List Json)
  | [] => some []
  | v :: vs => do
    let j ← encode v
    let js ← encodeItems vs
    return j :: js

/-- The members of a map. -/
def encodeEntries : List (Key × Val) → Option (List (String × Json))
  | [] => some []
  | (k, v) :: es => do
    let j ← encode v
    let ms ← encodeEntries es
    return (k.name, j) :: ms

/-- The members of a record with the given names. -/
def encodeFields : List String → List Val → Option (List (String × Json))
  | k :: ks, v :: vs => do
    let j ← encode v
    let ms ← encodeFields ks vs
    return (k, j) :: ms
  | _, _ => some []

end

/-! ## Decoding -/

/-- Passes through the pointers of a type to what they point at. -/
def throughPointers (f : Ty → Option Val) : Ty → Option Val
  | .opt t => (throughPointers f t).map .ptr
  | .box t => (throughPointers f t).map .box
  | t => f t

/-- The types that take every JSON value. -/
def adopt? (j : Json) : Ty → Option Val
  | .json => some (.json j)
  | .holder => some (if j.isNull then .vacant else .held (.json j))
  | .raw => some (.raw (regionOf j))
  | _ => none

/-- Null as a value of a type: the outermost optional pointer is nil. -/
def decodeNull : Ty → Option Val
  | .opt t => some (.nil t)
  | .box t => (decodeNull t).map .box
  | t => adopt? .null t

/-- A number as a value of a type without pointers. -/
def decodeNumber (n : Number) : Ty → Option Val
  | .int k =>
    match n with
    | .int i _ => if k.Holds i then some (.int k i) else none
    | .float _ => none
  | .float k => some (.float k n.toBinary?)
  | t => adopt? (.num n) t

/-- A string as a value of a type without pointers. -/
def decodeString (s : String) : Ty → Option Val
  | .string => some (.string s)
  | .char => match s.toList with
    | [c] => some (.char c)
    | _ => none
  | t => adopt? (.str s) t

/-- The fields of a record from those that were read, by name; the others take
    their zero values. -/
def assemble (slots : List Slot) (zeros : List Val) (found : Members Val) : List Val :=
  (slots.zip zeros).map fun (slot, z) => (Members.get? slot.key found).getD z

mutual

/-- A JSON value as a value of a type. -/
def decode : Json → Ty → Option Val
  | .null, t => decodeNull t
  | .bool b, t => throughPointers (fun t =>
      match t with
      | .bool => some (.bool b)
      | t => adopt? (.bool b) t) t
  | .num n, t => throughPointers (decodeNumber n) t
  | .str s, t => throughPointers (decodeString s) t
  | .arr items, t => throughPointers (fun t =>
      match t with
      | .slice e => (decodeItems items e).map (.slice e)
      | .array n e => if items.length = n then (decodeItems items e).map (.array e) else none
      | .record name =>
        let d := Γ.decl name
        if items.length ≤ d.slots.length then
          (decodeSlots items (d.slots.map Slot.ty)).map fun vs =>
            .record name (vs ++ d.zero.drop vs.length)
        else none
      | t => adopt? (.arr items) t) t
  | .obj members, t => throughPointers (fun t =>
      match t with
      | .map kind key e =>
        (decodeEntries members key e).map fun es =>
          .map kind key e (es.foldl (fun acc (k, v) => Entries.put (.byKey kind) k v acc) [])
      | .record name =>
        let d := Γ.decl name
        (decodeMembers members (d.slots.map fun s => (s.key, s.ty))).map fun found =>
          .record name (assemble d.slots d.zero found)
      | t => adopt? (.obj members) t) t

/-- The elements of a sequence. -/
def decodeItems : List Json → Ty → Option (List Val)
  | [], _ => some []
  | j :: js, t => do
    let v ← decode j t
    let vs ← decodeItems js t
    return v :: vs

/-- The fields of a record in order. -/
def decodeSlots : List Json → List Ty → Option (List Val)
  | j :: js, t :: ts => do
    let v ← decode j t
    let vs ← decodeSlots js ts
    return v :: vs
  | _, _ => some []

/-- The entries of a map. -/
def decodeEntries : List (String × Json) → KeyTy → Ty → Option (List (Key × Val))
  | [], _, _ => some []
  | (name, j) :: ms, key, t => do
    let k ← key.ofName? name
    let v ← decode j t
    let es ← decodeEntries ms key t
    return (k, v) :: es

/-- The fields of a record by name; unknown names are ignored. -/
def decodeMembers : List (String × Json) → Members Ty → Option (Members Val)
  | [], _ => some []
  | (name, j) :: ms, types =>
    match Members.get? name types with
    | none => decodeMembers ms types
    | some t => do
      let v ← decode j t
      let found ← decodeMembers ms types
      return (name, v) :: found

end

end Schema

end DocPointer
