/-
  A small sample of records with hidden fields: a safe with a code, and with an owner, who has
  a pin; and a vault with a lock, whose combination is renamed by its tag.
-/
import DocPointer.Samples.Catalog

namespace DocPointer.Samples

/-- Records that are read exactly. -/
def safes : Schema :=
  let Γ : Schema := ⟨[], ⟨none, .nearest⟩, 8⟩
  let Γ := declareParts Γ "Owner" [tagged "name" .string "Name" "name", secret "pin" .string "pin"]
  declareParts Γ "Safe" [
    embedding "owner" (.opt (.record "Owner")) "Owner" "Owner",
    tagged "items" (.slice .string) "Items" "items",
    tagged "code" i64 "Code" "-"]

/-- The owner of a safe. -/
def ownerWith (pin : String) : Val := .record "Owner" [.string "Ada", .string pin]

/-- A safe with a ring in it. -/
def safeWith (pin : String) (code : Int) : Val :=
  .record "Safe" [.ptr (ownerWith pin), .slice .string [.string "ring"], .int .i64 code]

/-- Records that are read exactly. -/
def vaults : Schema :=
  let Γ : Schema := ⟨[], ⟨none, .nearest⟩, 8⟩
  let Γ := declareParts Γ "Lock" [
    ⟨⟨"code", .string⟩, { name := "combination", tag := some "code", exported := false }⟩]
  declareParts Γ "Vault" [embedding "lock" (.record "Lock") "Lock" "Lock"]

/-- A vault with its lock. -/
def vault : Val := .record "Vault" [.record "Lock" [.string "1234"]]

end DocPointer.Samples
