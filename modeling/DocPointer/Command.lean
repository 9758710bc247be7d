/-
  Commands on the text of a document.

  A command looks a pointer up in a document, sets a value at it or deletes what is
  there.  The document is a region: its text is decoded when a pointer goes into it, and
  the answer is indented JSON.

  * `Command.ofArgs` reads a command line, `Command.run` carries a command out, given
    how JSON is read.
  * `Command.respond` is the whole program: what it writes and the status it ends
    with, from its arguments and the bytes it is given to read.
-/
import DocPointer.Text.Blank
import DocPointer.Walk.Delete

namespace DocPointer

/-- A command. -/
inductive Command where
  | get (pointer : String)
  | set (pointer value : String)
  | delete (pointer : String)
  deriving DecidableEq, Repr

/-- Why a command is not carried out. -/
inductive CommandError where
  /-- The document is no JSON. -/
  | json
  | malformed (m : Malformed)
  | walk (e : WalkError)
  /-- The arguments are no command. -/
  | unknown (args : List String)
  deriving DecidableEq, Repr

/-- The wording of the error. -/
def CommandError.message : CommandError → String
  | json => "*"
  | malformed m => m.message
  | walk e => e.message
  | unknown args => "unknown command: " ++ " ".intercalate args

namespace Command

/-- Whether an argument by itself is a pointer to get. -/
def looksLikePointer (s : String) : Bool :=
  match s.toList with
  | [] => true
  | c :: _ => c = '/' || c = '#'

/-- The command of a list of arguments. -/
def ofArgs : List String → Except CommandError Command
  | ["get", pointer] => .ok (get pointer)
  | ["set", pointer, value] => .ok (set pointer value)
  | ["delete", pointer] => .ok (delete pointer)
  | [pointer] => if looksLikePointer pointer then .ok (get pointer) else .error (.unknown [pointer])
  | args => .error (.unknown args)

section
variable (reading : Reading)

/-- No records: documents of JSON alone. -/
def noRecords : Schema := ⟨[], reading, 0⟩

/-- The region with that text. -/
def region (text : String) : Val := .raw text.toUTF8

/-- A pointer given as text, in fragment form or not. -/
def pointerOf (s : String) : Except CommandError Pointer := (Pointer.parse s).mapError .malformed

/-- The indented text of a region. -/
def prettyRegion : Val → Except CommandError String
  | .raw bytes =>
    match (noRecords reading).regionValue? bytes with
    | some j => .ok j.pretty
    | none => .error .json
  | _ => .error .json

/-- The value at a pointer of a document. -/
def lookup (doc pointer : String) : Except CommandError String := do
  let p ← pointerOf pointer
  let (result, found) := (noRecords reading).resolve (region doc) (.json .null) p
  result.mapError .walk
  return found.asJson.pretty

/-- A document with a value put at a pointer. -/
def assign (doc pointer value : String) : Except CommandError String := do
  let p ← pointerOf pointer
  let (result, changed) := (noRecords reading).assign (region doc) p (region value)
  result.mapError .walk
  prettyRegion reading changed

/-- A document without the value at a pointer. -/
def remove (doc pointer : String) : Except CommandError String := do
  let p ← pointerOf pointer
  let (result, changed) := (noRecords reading).delete (region doc) p
  result.mapError .walk
  prettyRegion reading changed

/-- Carries a command out on a document. -/
def run (doc : String) : Command → Except CommandError String
  | get pointer => lookup reading doc pointer
  | set pointer value => assign reading doc pointer value
  | delete pointer => remove reading doc pointer

end

/-! ## The program -/

/-- How the program reads JSON. -/
def reading : Reading := ⟨some 127, .stepwise⟩

/-- What a program writes, and the status it ends with. -/
structure Response where
  status : Nat
  output : String
  errors : String
  deriving DecidableEq, Repr

/-- A response to a failure. -/
def failure (lines : List String) : Response := ⟨1, "", String.join (lines.map (· ++ "\n"))⟩

/-- The response to arguments and to the bytes of a document, of which blanks at either
    end do not count. -/
def respond (args : List String) (input : ByteArray) : Response :=
  match ofArgs args with
  | .error e => failure [e.message, "usage: json-pointer get|set|delete <pointer> [json]"]
  | .ok command =>
    match String.fromUTF8? input with
    | none => failure ["stream did not contain valid UTF-8"]
    | some text =>
      match command.run reading (Text.trim text) with
      | .ok answer => ⟨0, answer ++ "\n", ""⟩
      | .error e => failure [e.message]

end Command

end DocPointer
