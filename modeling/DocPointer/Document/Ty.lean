/-
  The types of documents.

  A type is a scalar, a pointer (optional or owning) to a type, a sequence of elements
  of a type, of any length or of a fixed one, a map from keys to a type, a JSON value, a
  holder of a value of any type, a region of undecoded JSON text, or a record,
  known by its name.

  `Ty.name` is the name a type has in messages.
-/
import DocPointer.Number.Binary

namespace DocPointer

/-! ## Integers -/

/-- The kinds of integers: a width in bits, with a sign or without; the `size` kinds
    have the width of an address, which is 64 bits. -/
inductive IntKind where
  | i8 | i16 | i32 | i64 | i128 | isize
  | u8 | u16 | u32 | u64 | u128 | usize
  deriving DecidableEq, Repr

namespace IntKind

/-- Whether the kind has negative numbers. -/
def signed : IntKind → Bool
  | i8 | i16 | i32 | i64 | i128 | isize => true
  | u8 | u16 | u32 | u64 | u128 | usize => false

/-- The width in bits. -/
def bits : IntKind → Nat
  | i8 | u8 => 8
  | i16 | u16 => 16
  | i32 | u32 => 32
  | i64 | u64 | isize | usize => 64
  | i128 | u128 => 128

/-- The magnitude of the least number. -/
def low (k : IntKind) : Nat := if k.signed then Nat.pow 2 (k.bits - 1) else 0

/-- The greatest number. -/
def high (k : IntKind) : Nat := if k.signed then Nat.pow 2 (k.bits - 1) - 1 else Nat.pow 2 k.bits - 1

/-- Whether a number is one of the kind. -/
def Holds (k : IntKind) (n : Int) : Prop := -(k.low : Int) ≤ n ∧ n ≤ k.high

instance (k : IntKind) (n : Int) : Decidable (k.Holds n) := by unfold Holds; infer_instance

/-- The name of the kind. -/
def name : IntKind → String
  | i8 => "i8" | i16 => "i16" | i32 => "i32" | i64 => "i64" | i128 => "i128" | isize => "isize"
  | u8 => "u8" | u16 => "u16" | u32 => "u32" | u64 => "u64" | u128 => "u128" | usize => "usize"

end IntKind

/-! ## Keys -/

/-- The types of map keys. -/
inductive KeyTy where
  | string
  | bool
  | int (k : IntKind)
  /-- Texts that tokens spell with a fixed lead in front; `name` is the name of the
      type. -/
  | led (name lead : String)
  deriving DecidableEq, Repr

/-- The name of a type of keys. -/
def KeyTy.name : KeyTy → String
  | string => "alloc::string::String"
  | bool => "bool"
  | int k => k.name
  | led name _ => name

/-! ## Types -/

/-- How the entries of a map are ordered: by key, or, where a map has no order of its
    own, by the text of the key. -/
inductive MapKind where
  | sorted
  | hashed
  deriving DecidableEq, Repr

/-- Single or double precision. -/
inductive FloatKind where
  | f32
  | f64
  deriving DecidableEq, Repr

/-- The binary format of a kind. -/
def FloatKind.format : FloatKind → BinaryFormat
  | f32 => .single
  | f64 => .double

/-- The types of documents. -/
inductive Ty where
  | bool
  | char
  | int (k : IntKind)
  | float (k : FloatKind)
  | string
  /-- A pointer that may be nil. -/
  | opt (t : Ty)
  /-- A pointer that is never nil. -/
  | box (t : Ty)
  /-- A sequence that grows and shrinks. -/
  | slice (t : Ty)
  /-- A sequence of `n` elements. -/
  | array (n : Nat) (t : Ty)
  | map (kind : MapKind) (key : KeyTy) (t : Ty)
  | json
  /-- A holder of a value of any type, or of none. -/
  | holder
  /-- Undecoded JSON text. -/
  | raw
  /-- The record of that name. -/
  | record (name : String)
  deriving DecidableEq, Repr, Inhabited

/-- The name of a type in messages. -/
def Ty.name : Ty → String
  | bool => "bool"
  | char => "char"
  | int k => k.name
  | float .f32 => "f32"
  | float .f64 => "f64"
  | string => "alloc::string::String"
  | opt t => "core::option::Option<" ++ t.name ++ ">"
  | box t => "alloc::boxed::Box<" ++ t.name ++ ">"
  | slice t => "alloc::vec::Vec<" ++ t.name ++ ">"
  | array n t => "[" ++ t.name ++ "; " ++ toString n ++ "]"
  | map .sorted key t =>
    "alloc::collections::btree::map::BTreeMap<" ++ key.name ++ ", " ++ t.name ++ ">"
  | map .hashed key t =>
    "std::collections::hash::map::HashMap<" ++ key.name ++ ", " ++ t.name ++ ">"
  | json => "serde_json::value::Value"
  | holder => "json_pointer_walk::dynamic::Dyn"
  | raw => "json_pointer_walk::raw::RawJson"
  | record name => name

end DocPointer
