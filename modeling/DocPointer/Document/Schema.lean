/-
  Schemas: the records a document may hold.

  A record has slots, each with the name it has in JSON and a type, and it
  describes fields, by position, to pointers.  It says what its zero value is, how it
  presents itself to a pointer (`Presentation`: mostly as its fields), and it may take over
  parts of a walk by hooks.

  * A lookup hook may answer a resolve, a navigation hook may lead an assign or a
    delete elsewhere, and the assign and delete hooks may do the whole work.  A hook
    that writes back a pointer other than the one it was handed sets where the walk
    goes on; otherwise one token counts as used.
  * `Schema.zero` is the zero value of a type, `Schema.declare` adds a record.
-/
import DocPointer.Document.Value
import DocPointer.Fields.Index
import DocPointer.Json.Reader
import DocPointer.Pointer.Basic

namespace DocPointer

/-! ## Verbs -/

/-- What a walk is for. -/
inductive Operation where
  | resolving
  | assigning
  | deleting
  deriving DecidableEq, Repr

/-- The word for it. -/
def Operation.text : Operation → String
  | resolving => "resolving"
  | assigning => "assigning"
  | deleting => "deleting"

/-! ## Hooks -/

/-- The answer of a lookup hook. -/
inductive Lookup where
  | yields
  | refuses (message : String)
  /-- The walk goes on in `v` with the pointer `rest`. -/
  | leads (v : Val) (rest : Pointer)

/-- The answer of a navigation hook, which may change the record it is asked of. -/
inductive Navigation where
  | yields (self : Val)
  | refuses (self : Val) (message : String)
  /-- The walk goes on in `child` with the pointer `rest`; `back` puts the changed
      child back into the record. -/
  | leads (child : Val) (back : Val → Val) (rest : Pointer)

/-- The answer of an assign or delete hook, which hands back the value it was given
    unless it is done. -/
inductive Takeover (α : Type) where
  | yields (self : Val) (value : α)
  | refuses (self : Val) (message : String)
  | done (self : Val)

/-- The hooks of a record.  Each is handed the record and the pointer from it. -/
structure Hooks where
  lookup : Val → Pointer → Lookup
  navigate : Operation → Val → Pointer → Navigation
  assign : Val → Pointer → Val → Takeover Val
  delete : Val → Pointer → Takeover Unit

/-- Hooks that leave everything to the walk. -/
def Hooks.silent : Hooks where
  lookup _ _ := .yields
  navigate _ v _ := .yields v
  assign v _ x := .yields v x
  delete v _ := .yields v ()

instance : Inhabited Hooks := ⟨Hooks.silent⟩

/-! ## Records -/

/-- A part of a record: its name in JSON and its type. -/
structure Slot where
  key : String
  ty : Ty
  deriving DecidableEq, Repr

/-- How a record presents itself to a pointer. -/
inductive Presentation where
  /-- As its fields. -/
  | fields
  /-- As a pointer whose target is out of reach; the truth value in the slot `full`
      says whether it has one. -/
  | sealed (full : Nat)
  /-- As the sequence in the slot `items`, without the element at the position in
      the slot `hole`; of fixed length if the slot `fixed` says so. -/
  | items (items hole fixed : Nat)
  deriving DecidableEq, Repr

/-- The declaration of a record. -/
structure RecordDecl where
  slots : List Slot
  describes : List FieldDecl
  zero : List Val
  presentation : Presentation
  hooks : Hooks

namespace RecordDecl

/-- A record without parts. -/
def bare : RecordDecl := ⟨[], [], [], .fields, .silent⟩

end RecordDecl

/-- The declarations of records by name, and what holds for documents of all of them. -/
structure Schema where
  records : Members RecordDecl
  /-- How the JSON text of regions is read. -/
  reading : Reading
  /-- How often hooks may redirect one walk. -/
  redirects : Nat

namespace Schema

variable (Γ : Schema)

/-- The declaration of a record. -/
def decl (name : String) : RecordDecl := (Members.get? name Γ.records).getD .bare

/-- The declared fields of all records. -/
def family : Family := Γ.records.map fun (name, d) => (name, d.describes)

/-- The field index of a record. -/
def fieldIndex (name : String) : FieldIndex := FieldIndex.build Γ.family name

/-- The hooks of a value: those of its declaration if it is a record. -/
def hooks : Val → Hooks
  | .record name _ => (Γ.decl name).hooks
  | _ => .silent

/-- The zero value of a type. -/
def zero : Ty → Val
  | .bool => .bool false
  | .char => .char (Char.ofNat 0)
  | .int k => .int k 0
  | .float k => .float k (some (.zero false))
  | .string => .string ""
  | .opt t => .nil t
  | .box t => .box (zero t)
  | .slice t => .slice t []
  | .array n t => .array t (List.replicate n (zero t))
  | .map kind key t => .map kind key t []
  | .json => .json .null
  | .holder => .vacant
  | .raw => .raw .empty
  | .record name => .record name (Γ.decl name).zero

/-- The schema with one more record, whose zero value has all its parts zero.  Records
    that the parts hold by value have to be declared before. -/
def declare (name : String) (slots : List Slot) (describes : List FieldDecl)
    (presentation : Presentation) (hooks : Hooks) : Schema :=
  { Γ with
    records := Γ.records ++
      [(name, ⟨slots, describes, slots.map fun s => Γ.zero s.ty, presentation, hooks⟩)] }

@[simp] theorem typeOf_zero (t : Ty) : (Γ.zero t).typeOf = t := by
  induction t <;> simp_all [zero, Val.typeOf]

end Schema

end DocPointer
