/-
  Sample records without hooks.

  They cover what records can be: plain fields of all types, renamed, hidden and
  unexported ones (`Nested`), embedded records by value and behind pointers (`Root`,
  `Embeds`), embedded records whose descriptors fit nothing (`Fake`, `Loose`), and
  records that present themselves as something else (`Sealed`, `Holey`) or describe more
  fields than they have (`Short`).

  All names start with a `home` that the caller chooses.
-/
import DocPointer.Document.Schema

namespace DocPointer.Samples

/-! ## Declaring -/

/-- A part of a record: its slot and its field. -/
structure Part where
  slot : Slot
  field : FieldDecl

/-- A part that is addressed by its identifier. -/
def plain (key : String) (ty : Ty) (name : String) : Part := ⟨⟨key, ty⟩, { name := name }⟩

/-- A part with a tag. -/
def tagged (key : String) (ty : Ty) (name tag : String) : Part :=
  ⟨⟨key, ty⟩, { name := name, tag := some tag }⟩

/-- A part that may not be addressed. -/
def secret (key : String) (ty : Ty) (name : String) : Part :=
  ⟨⟨key, ty⟩, { name := name, exported := false }⟩

/-- A part that embeds a record. -/
def embedding (key : String) (ty : Ty) (name record : String) : Part :=
  ⟨⟨key, ty⟩, { name := name, embeds := some record }⟩

/-- The name of a sample record. -/
def nameIn (home name : String) : String := home ++ "::" ++ name

/-- Declares a record that presents itself as its parts. -/
def declareParts (Γ : Schema) (name : String) (parts : List Part) : Schema :=
  Γ.declare name (parts.map Part.slot) (parts.map Part.field) .fields .silent

/-- Declares a record that only describes fields. -/
def declareFields (Γ : Schema) (name : String) (fields : List String) : Schema :=
  Γ.declare name [] (fields.map fun name => { name := name }) .fields .silent

/-! ## Types -/

/-- The 64-bit integers. -/
def i64 : Ty := .int .i64

/-- The type of keys with a lead. -/
def keyTy (home : String) : KeyTy := .led (nameIn home "Key") "k-"

/-- A map without an order of its own from texts. -/
def hashed (t : Ty) : Ty := .map .hashed .string t

/-! ## Records -/

/-- Fields of many types. -/
def nestedParts (home : String) : List Part := [
  tagged "str" .string "Str" "str",
  plain "title" .string "Title",
  tagged "int" i64 "Int" "int",
  tagged "intptr" (.opt i64) "IntPtr" "intptr,omitempty",
  tagged "strslice" (.slice .string) "StrSlice" "strslice",
  tagged "intarray" (.array 3 i64) "IntArray" "intarray",
  tagged "strmap" (hashed .string) "StrMap" "strmap",
  tagged "intmap" (.map .sorted (.int .i64) i64) "IntMap" "intmap",
  tagged "nilmap" (.opt (hashed i64)) "NilMap" "nilmap",
  tagged "keymap" (.map .sorted (keyTy home) .string) "KeyMap" "keymap",
  tagged "slicemap" (hashed (.slice i64)) "SliceMap" "slicemap",
  tagged "raw" .raw "Raw" "raw",
  tagged "value" .json "Value" "value",
  tagged "any" .holder "Any" "any",
  secret "secret" .string "secret"]

/-- Embedded records by value and behind a nil-able pointer. -/
def rootParts (home : String) : List Part :=
  let record (name : String) : Ty := .record (nameIn home name)
  [ tagged "nested" (record "Nested") "Nested" "nested",
    tagged "nestedptr" (.opt (.box (record "Nested"))) "NestedPtr" "nestedptr",
    embedding "inline" (record "Inline") "Inline" (nameIn home "Inline"),
    embedding "anon" (.opt (record "Anon")) "Anon" (nameIn home "Anon"),
    tagged "flags" (.map .sorted .bool .string) "Flags" "flags",
    tagged "hidden" .string "Hidden" "-"]

/-- A record made to be embedded. -/
def baseParts : List Part := [
  tagged "id" i64 "Id" "id",
  plain "label" .string "Label",
  tagged "opt" (.opt i64) "Opt" "opt",
  plain "shadow" .string "Shadow",
  secret "private" .string "private"]

/-- A record that embeds and is embedded. -/
def deepParts (home : String) : List Part := [
  embedding "base" (.record (nameIn home "Base")) "Base" (nameIn home "Base"),
  embedding "anon" (.opt (.record (nameIn home "Anon"))) "Anon" (nameIn home "Anon"),
  tagged "depth" i64 "Depth" "depth",
  tagged "label2" .string "Label2" "Label",
  tagged "clash" .string "Clash" "clash"]

/-- A record with a field that clashes with one of `Deep`. -/
def extraParts : List Part := [
  tagged "extra" (.slice i64) "Extra" "extra",
  tagged "clash" .string "Clash" "clash"]

/-- Embeddings behind all kinds of pointers, and names that shadow and clash. -/
def embedsParts (home : String) : List Part :=
  let record (name : String) : Ty := .record (nameIn home name)
  [ embedding "base" (.opt (.box (record "Base"))) "Base" (nameIn home "Base"),
    embedding "deep" (.opt (record "Deep")) "Deep" (nameIn home "Deep"),
    embedding "extra" (.box (record "Extra")) "Extra" (nameIn home "Extra"),
    embedding "fake" i64 "Fake" (nameIn home "FakeDesc"),
    embedding "sealed" (record "Sealed") "Sealed" (nameIn home "SealedDesc"),
    embedding "loose" .holder "Loose" (nameIn home "LooseDesc"),
    ⟨⟨"named", record "Base"⟩,
      { name := "Named", tag := some "named", embeds := some (nameIn home "Base") }⟩,
    plain "shadow" .string "Shadow",
    tagged "lower" i64 "Lower" "case",
    tagged "upper" i64 "Upper" "CASE",
    tagged "dash" i64 "Dash" "-,",
    tagged "hidden" i64 "Hidden" "-",
    ⟨⟨"private", i64⟩, { name := "Private", tag := some "prv", exported := false }⟩]

/-! ## Schemas -/

/-- The records without hooks, in an order in which each comes after those it holds by
    value. -/
def catalog (home : String) (reading : Reading) (redirects : Nat) : Schema :=
  let name := nameIn home
  let Γ : Schema := ⟨[], reading, redirects⟩
  let Γ := declareParts Γ (name "Nested") (nestedParts home)
  let Γ := declareParts Γ (name "Inline")
    [tagged "inline_field" .string "InlineField" "inline_field"]
  let Γ := declareParts Γ (name "Anon") [tagged "anon_field" i64 "AnonField" "anon_field"]
  let Γ := declareParts Γ (name "Root") (rootParts home)
  let Γ := declareParts Γ (name "Base") baseParts
  let Γ := declareParts Γ (name "Deep") (deepParts home)
  let Γ := declareParts Γ (name "Extra") extraParts
  let Γ := declareFields Γ (name "FakeDesc") ["InFake"]
  let Γ := declareFields Γ (name "SealedDesc") ["InSealed"]
  let Γ := declareFields Γ (name "LooseDesc") ["InLoose"]
  let Γ := Γ.declare (name "Sealed") [⟨"full", .bool⟩] [] (.sealed 0) .silent
  let Γ := declareParts Γ (name "Embeds") (embedsParts home)
  let Γ := Γ.declare (name "Short") [⟨"a", i64⟩] [{ name := "a" }, { name := "b" }] .fields .silent
  Γ.declare (name "Holey") [⟨"items", .slice i64⟩, ⟨"hole", .int .usize⟩, ⟨"fixed", .bool⟩] []
    (.items 0 1 2) .silent

end DocPointer.Samples
