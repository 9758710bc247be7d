/-
  A small sample of records with hooks: kin of kin, with a store each.
-/
import DocPointer.Samples.Hooky

namespace DocPointer.Samples

/-- Records that are read exactly. -/
def kin : Schema :=
  let parts : List Part := [
    tagged "name" .string "Name" "name",
    tagged "kids" (.slice (.record "Kin")) "Kids" "kids",
    tagged "store" (.map .sorted .string i64) "Store" "store",
    tagged "log" (.slice .string) "Log" "log"]
  (⟨[], ⟨none, .nearest⟩, 8⟩ : Schema).declare "Kin" (parts.map Part.slot) (parts.map Part.field)
    .fields Hooky.hooks

/-- One with a name, and with a number in its store. -/
def kinsman (name : String) (kids : List Val) : Val :=
  .record "Kin" [.string name, .slice (.record "Kin") kids,
    .map .sorted .string i64 [(.text "age", .int .i64 7)], .slice .string []]

/-- A mother. -/
def mother : Val := kinsman "Bo" [kinsman "Cy" []]

/-- Her own mother. -/
def grandmother : Val := kinsman "Ada" [mother]

end DocPointer.Samples
