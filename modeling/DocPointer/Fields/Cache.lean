/-
  A cache of field indexes.

  The first request under a key builds the index, and every later one under that key
  gets the same index, whatever it describes.
-/
import DocPointer.Fields.Index

namespace DocPointer

/-- Field indexes by key, in the order they were built. -/
structure FieldCache (κ : Type) where
  entries : List (κ × FieldIndex)

namespace FieldCache

variable {κ : Type} [DecidableEq κ]

/-- Nothing built yet. -/
def empty : FieldCache κ := ⟨[]⟩

/-- The number of indexes built. -/
def size (c : FieldCache κ) : Nat := c.entries.length

/-- Where the entry of a key stands. -/
def position? (c : FieldCache κ) (key : κ) : Option Nat := c.entries.findIdx? (·.1 = key)

/-- The index of a key. -/
def find? (c : FieldCache κ) (key : κ) : Option FieldIndex :=
  (c.entries.find? (·.1 = key)).map (·.2)

/-- The index of a key, built if need be, and the cache that holds it. -/
def get (c : FieldCache κ) (key : κ) (build : Unit → FieldIndex) : FieldIndex × FieldCache κ :=
  match c.find? key with
  | some ix => (ix, c)
  | none => (build (), ⟨c.entries ++ [(key, build ())]⟩)

end FieldCache

end DocPointer
