/-
  Reading JSON text.

  The lexemes of a text are assembled by a machine with a stack of open
  containers.  It accepts the grammar strictly: one value, no comma before a
  closing bracket, names are strings.  A name that comes twice in an object keeps
  its first place and its last value.  A `Reading` says how deep containers may nest
  and how numbers are rounded.

  * `Assembly.step` takes one lexeme, `Json.read?` a whole text.
  * `Json.ofBytes?` reads bytes, which must be UTF-8; `Json.toBytes` is the
    compact text as bytes.
-/
import DocPointer.Json.Lexeme
import DocPointer.Json.Printer

namespace DocPointer

/-! ## Assembly -/

/-- A container that is still open: the items read, last first, or the members
    read with the name whose value is being read. -/
inductive OpenContainer where
  | arr (items : List Json)
  | obj (members : List (String × Json)) (name : String)

/-- What the assembly waits for; the stack holds the open containers, innermost
    first. -/
inductive Assembly where
  /-- A value. -/
  | value (stack : List OpenContainer)
  /-- The first item of an array, or its end. -/
  | firstItem (stack : List OpenContainer)
  /-- The first name of an object, or its end. -/
  | firstName (stack : List OpenContainer)
  /-- A name. -/
  | name (members : List (String × Json)) (stack : List OpenContainer)
  /-- The colon after a name. -/
  | colon (members : List (String × Json)) (name : String) (stack : List OpenContainer)
  /-- A comma or the end of the innermost container. -/
  | next (top : OpenContainer) (stack : List OpenContainer)
  /-- Nothing: the value is complete. -/
  | done (j : Json)

namespace Assembly

/-- A value is complete: it goes into the innermost container. -/
def deliver (j : Json) : List OpenContainer → Assembly
  | [] => done j
  | .arr items :: stack => next (.arr (j :: items)) stack
  | .obj members k :: stack => next (.obj (Members.put k j members) k) stack

/-- Whether one more container may be opened inside `opened` others. -/
def fits (depth : Option Nat) (opened : Nat) : Bool :=
  match depth with
  | none => true
  | some d => opened < d

/-- A lexeme where a value is due. -/
def begin? (depth : Option Nat) (stack : List OpenContainer) : Lexeme → Option Assembly
  | .scalar j => some (deliver j stack)
  | .openArr => if fits depth stack.length then some (firstItem stack) else none
  | .openObj => if fits depth stack.length then some (firstName stack) else none
  | _ => none

/-- One lexeme. -/
def step (depth : Option Nat) : Assembly → Lexeme → Option Assembly
  | value stack, l => begin? depth stack l
  | firstItem stack, .closeArr => some (deliver (.arr []) stack)
  | firstItem stack, l => begin? depth (.arr [] :: stack) l
  | firstName stack, .closeObj => some (deliver (.obj []) stack)
  | firstName stack, .scalar (.str k) => some (colon [] k stack)
  | name members stack, .scalar (.str k) => some (colon members k stack)
  | colon members k stack, .colon => some (value (.obj members k :: stack))
  | next (.arr items) stack, .comma => some (value (.arr items :: stack))
  | next (.arr items) stack, .closeArr => some (deliver (.arr items.reverse) stack)
  | next (.obj members _) stack, .comma => some (name members stack)
  | next (.obj members _) stack, .closeObj => some (deliver (.obj members) stack)
  | _, _ => none

/-- The assembly after a list of lexemes. -/
def run (depth : Option Nat) : Assembly → List Lexeme → Option Assembly
  | a, [] => some a
  | a, l :: ls => (a.step depth l).bind (run depth · ls)

/-- The value, if it is complete. -/
def result? : Assembly → Option Json
  | done j => some j
  | _ => none

end Assembly

/-! ## Texts and bytes -/

/-- The choices that JSON leaves to those who read it. -/
structure Reading where
  /-- How deep containers may nest, if there is a bound. -/
  depth : Option Nat
  /-- How numbers that are no integers of at most 64 bits are rounded. -/
  rounding : Rounding
  deriving DecidableEq, Repr

namespace Json

variable (r : Reading)

/-- The value a list of characters spells. -/
def readChars? (cs : List Char) : Option Json := do
  let ls ← Scan.gap.lexemes r.rounding cs
  let a ← (Assembly.value []).run r.depth ls
  a.result?

/-- The value a text spells. -/
def read? (s : String) : Option Json := readChars? r s.toList

/-- The value that bytes spell in UTF-8. -/
def ofBytes? (bytes : ByteArray) : Option Json := (String.fromUTF8? bytes).bind (read? r)

/-- The compact text of a value in UTF-8. -/
def toBytes (j : Json) : ByteArray := j.text.toUTF8

end Json

end DocPointer
