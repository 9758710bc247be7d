/-
  Declared fields of records.

  A record declares its fields in order.  A tag may rename a field or hide it, a
  field may be unexported, and a field may embed another record: untagged, the
  fields of the embedded record are promoted into the outer one.

  * `FieldDecl.naming` is what a tag says about the name.
  * `FieldDecl.role` is what the field contributes to the record: nothing, a promoted
    record, a name that is known to be out of bounds, or a visible field.
-/
import DocPointer.Json.Basic

namespace DocPointer

/-- A declared field. -/
structure FieldDecl where
  /-- The identifier. -/
  name : String
  /-- The tag: a name with options after a comma, or a lone dash. -/
  tag : Option String := none
  exported : Bool := true
  /-- The record the field embeds, if it embeds one. -/
  embeds : Option String := none
  deriving DecidableEq, Repr, Inhabited

/-- What a tag says about the name of its field. -/
inductive Naming where
  /-- The identifier is the name. -/
  | plain
  /-- The tag gives the name. -/
  | tagged (name : String)
  /-- The field has no name in documents. -/
  | hidden
  deriving DecidableEq, Repr

/-- What a field contributes to the record that declares it. -/
inductive Role where
  | nothing
  /-- The fields of an embedded record. -/
  | promotes (record : String)
  /-- An identifier that is known, but may not be addressed. -/
  | unexported (name : String)
  /-- A field of the record itself. -/
  | visible (name : String) (tagged : Bool)
  deriving DecidableEq, Repr

namespace FieldDecl

/-- The part of a tag before its first comma. -/
def tagName (tag : String) : String := String.ofList (tag.toList.takeWhile (· ≠ ','))

/-- What the tag says about the name: a lone dash hides the field, and an empty
    name counts as none. -/
def naming (f : FieldDecl) : Naming :=
  match f.tag with
  | none => .plain
  | some tag =>
    if tag = "-" then .hidden
    else if tagName tag = "" then .plain
    else .tagged (tagName tag)

/-- The name of the field in documents: that of the tag, else the identifier. -/
def jsonName (f : FieldDecl) : String :=
  match f.naming with
  | .tagged name => name
  | _ => f.name

/-- What the field contributes.  An untagged embedding promotes, whether exported or
    not. -/
def role (f : FieldDecl) : Role :=
  match f.naming, f.embeds with
  | .hidden, _ => .nothing
  | .plain, some record => .promotes record
  | .plain, none => if f.exported then .visible f.name false else .unexported f.name
  | .tagged name, _ => if f.exported then .visible name true else .unexported f.name

end FieldDecl

/-- Declarations of records, by name. -/
abbrev Family := Members (List FieldDecl)

end DocPointer
