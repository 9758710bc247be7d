/-
  A sample record with hooks.

  A `Hooky` has a name, kids of its own type, a store of numbers and a log.  Tokens that
  start with an at sign are for its hooks, which refuse, answer, lead to the store, to
  the last kid or back to the record itself, change the pointer or do the work
  themselves; those that change the record write to its log.
-/
import DocPointer.Samples.Catalog

namespace DocPointer.Samples.Hooky

/-! ## Parts -/

/-- The positions of the parts. -/
def nameAt : Nat := 0

@[inherit_doc nameAt] def kidsAt : Nat := 1

@[inherit_doc nameAt] def storeAt : Nat := 2

@[inherit_doc nameAt] def logAt : Nat := 3

/-- A part of the record. -/
def part (i : Nat) : Val → Val
  | .record _ fields => fields[i]?.getD (.json .null)
  | v => v

/-- The record with another value for a part. -/
def withPart (i : Nat) (self v : Val) : Val :=
  match self with
  | .record name fields => .record name (fields.set i v)
  | v => v

/-- The kids. -/
def kids (self : Val) : List Val :=
  match part kidsAt self with
  | .slice _ vs => vs
  | _ => []

/-- The record with one more line in its log. -/
def logging (line : String) (self : Val) : Val :=
  match part logAt self with
  | .slice t lines => withPart logAt self (.slice t (lines ++ [.string line]))
  | _ => self

/-- The record with another last kid. -/
def withLastKid (self kid : Val) : Val :=
  match part kidsAt self with
  | .slice t vs => withPart kidsAt self (.slice t (vs.set (vs.length - 1) kid))
  | _ => self

/-! ## Hooks -/

/-- A pointer without its first token, if it has one. -/
def behind (p : Pointer) : Pointer := (p.next.map (·.2)).getD .root

/-- The pointer that a token leads to the store with: the one handed in, the one two
    tokens further on, or a text that is no pointer. -/
def storePointer? (here rest : Pointer) (token : String) : Option Pointer :=
  if token = "@here" then some here
  else if token = "@skip" then some (behind rest)
  else if token = "@bad" then some ⟨"bad"⟩
  else none

/-- Answers a lookup. -/
def lookup (self : Val) (here : Pointer) : Lookup :=
  match here.next with
  | none => .yields
  | some (⟨token⟩, rest) =>
    match storePointer? here rest token with
    | some p => .leads (part storeAt self) p
    | none =>
      if token = "@err" then .refuses "resolve refused"
      else if token = "@own" then .leads (.slice .string ((kids self).map (part nameAt))) here
      else if token = "@clone" then .leads self here
      else if token = "@op" then .leads (.string Operation.resolving.text) here
      else if token = "@last" then
        match (kids self).getLast? with
        | some kid => .leads kid here
        | none => .yields
      else if token = "@self" then .leads self rest
      else .yields

/-- Leads an assign or a delete. -/
def navigate (op : Operation) (self : Val) (here : Pointer) : Navigation :=
  match here.next with
  | none => .yields self
  | some (⟨token⟩, rest) =>
    let noted (p : Pointer) : Val := logging (op.text ++ " " ++ p.text) self
    match storePointer? here rest token with
    | some p => .leads (part storeAt self) (withPart storeAt (noted p)) p
    | none =>
      if token = "@err" then .refuses self "navigate refused"
      else if token = "@last" then
        match (kids self).getLast? with
        | some kid => .leads kid (withLastKid self) here
        | none => .yields self
      else if token = "@self" then .leads (noted rest) id rest
      else .yields self

/-- Refuses or swallows what is assigned. -/
def assign (self : Val) (here : Pointer) (x : Val) : Takeover Val :=
  match here.next with
  | none => .yields self x
  | some (⟨token⟩, rest) =>
    if token = "@locked" then .refuses self "assign refused"
    else if token = "@sink" then
      .done (logging ("sink " ++ rest.text ++ " " ++ x.typeOf.name) self)
    else .yields self x

/-- Refuses or swallows a delete. -/
def delete (self : Val) (here : Pointer) : Takeover Unit :=
  match here.next with
  | none => .yields self ()
  | some (⟨token⟩, rest) =>
    if token = "@locked" then .refuses self "delete refused"
    else if token = "@sink" then .done (logging ("sink " ++ rest.text) self)
    else .yields self ()

/-- The hooks of the record. -/
def hooks : Hooks := ⟨lookup, navigate, assign, delete⟩

end Hooky

/-! ## The schema of all samples -/

/-- The catalog with the record with hooks. -/
def schema (home : String) (reading : Reading) (redirects : Nat) : Schema :=
  let parts : List Part := [
    tagged "name" .string "Name" "name",
    tagged "kids" (.slice (.record (nameIn home "Hooky"))) "Kids" "kids",
    tagged "store" (.map .sorted .string i64) "Store" "store",
    tagged "log" (.slice .string) "Log" "log"]
  (catalog home reading redirects).declare (nameIn home "Hooky") (parts.map Part.slot)
    (parts.map Part.field) .fields Hooky.hooks

end DocPointer.Samples
