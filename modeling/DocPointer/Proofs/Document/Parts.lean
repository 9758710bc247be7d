/-
  Parts of values.

  `Within` is the relation between a value and what lies in it, at any depth; JSON values
  and regions have no parts that are values of the document.  `Alike` relates values that
  differ at most in the bytes of a region.
-/
import DocPointer.Document.Value

namespace DocPointer.Val

/-- `w` is the value, or lies in it. -/
inductive Within (w : Val) : Val → Prop where
  | refl : Within w w
  | ptr {v : Val} : Within w v → Within w (.ptr v)
  | box {v : Val} : Within w v → Within w (.box v)
  | held {v : Val} : Within w v → Within w (.held v)
  | item {elem : Ty} {items : List Val} {v : Val} :
      v ∈ items → Within w v → Within w (.slice elem items)
  | arrayItem {elem : Ty} {items : List Val} {v : Val} :
      v ∈ items → Within w v → Within w (.array elem items)
  | entry {kind : MapKind} {key : KeyTy} {elem : Ty} {entries : Entries Val} {k : Key} {v : Val} :
      Entries.get? k entries = some v → Within w v → Within w (.map kind key elem entries)
  | field {name : String} {fields : List Val} {v : Val} :
      v ∈ fields → Within w v → Within w (.record name fields)

/-- The values are the same but for the bytes of a region, which are related by `R`. -/
inductive Alike (R : ByteArray → ByteArray → Prop) : Val → Val → Prop where
  | refl (v : Val) : Alike R v v
  | raw {bytes bytes' : ByteArray} : R bytes bytes' → Alike R (.raw bytes) (.raw bytes')
  | ptr {v w : Val} : Alike R v w → Alike R (.ptr v) (.ptr w)
  | box {v w : Val} : Alike R v w → Alike R (.box v) (.box w)
  | held {v w : Val} : Alike R v w → Alike R (.held v) (.held w)
  | item {elem : Ty} {items : List Val} {i : Nat} {v w : Val} :
      items[i]? = some v → Alike R v w → Alike R (.slice elem items) (.slice elem (items.set i w))
  | arrayItem {elem : Ty} {items : List Val} {i : Nat} {v w : Val} :
      items[i]? = some v → Alike R v w → Alike R (.array elem items) (.array elem (items.set i w))
  | entry {kind : MapKind} {key : KeyTy} {elem : Ty} {entries : Entries Val} {k : Key} {v w : Val} :
      Entries.get? k entries = some v → Alike R v w →
        Alike R (.map kind key elem entries) (.map kind key elem (Entries.set k w entries))
  | field {name : String} {fields : List Val} {i : Nat} {v w : Val} :
      fields[i]? = some v → Alike R v w →
        Alike R (.record name fields) (.record name (fields.set i w))

variable {R S : ByteArray → ByteArray → Prop} {v w : Val} {j : Json}

/-- What lies in a part lies in the whole. -/
theorem Within.trans {u : Val} (huv : u.Within v) (hvw : v.Within w) : u.Within w := by
  induction hvw with
  | refl => exact huv
  | ptr _ ih => exact .ptr ih
  | box _ ih => exact .box ih
  | held _ ih => exact .held ih
  | item hi _ ih => exact .item hi ih
  | arrayItem hi _ ih => exact .arrayItem hi ih
  | entry hk _ ih => exact .entry hk ih
  | field hi _ ih => exact .field hi ih

/-- What lies in a target lies in what points to it. -/
theorem Within.of_target (h : w.Within v.target) : w.Within v := by
  induction v using target.induct with
  | case1 v ih => exact .ptr (ih h)
  | case2 v ih => exact .box (ih h)
  | case3 v ih => exact .held (ih h)
  | case4 v => rw [target] at h <;> assumption

theorem Alike.mono (hR : ∀ b b', R b b' → S b b') (h : Alike R v w) : Alike S v w := by
  induction h with
  | refl v => exact .refl v
  | raw h => exact .raw (hR _ _ h)
  | ptr _ ih => exact .ptr ih
  | box _ ih => exact .box ih
  | held _ ih => exact .held ih
  | item hi _ ih => exact .item hi ih
  | arrayItem hi _ ih => exact .arrayItem hi ih
  | entry hk _ ih => exact .entry hk ih
  | field hi _ ih => exact .field hi ih

/-- There is no region in a JSON value. -/
theorem Alike.eq_json (h : Alike R (.json j) w) : w = .json j := by
  cases h
  rfl

end DocPointer.Val
