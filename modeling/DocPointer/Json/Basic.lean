/-
  JSON values.

  * `Number` is an integer of at most 64 bits, signed or not, or a finite
    double; the two kinds are different values even where they are equal as
    numbers.
  * `Json` keeps the members of an object in the order they were inserted.
    `put`, `get?` and `remove` are the operations on members: `put` on a name
    already there keeps its place, `remove` keeps the order of the others.
  * `same` is equality up to the order of members and the sign of zero;
    `Wellformed` says that no object has a name twice.
-/
import DocPointer.Number.Binary

namespace DocPointer

/-! ## Numbers -/

/-- A JSON number: an integer, or a double. -/
inductive Number where
  | int (n : Int) (inRange : -0x8000000000000000 ≤ n ∧ n < 0x10000000000000000)
  | float (x : Binary .double)
  deriving DecidableEq, Repr

namespace Number

/-- The integer `n` as a number, if it has at most 64 bits. -/
def ofInt? (n : Int) : Option Number :=
  if h : -0x8000000000000000 ≤ n ∧ n < 0x10000000000000000 then some (.int n h) else none

/-- Equality of numbers of one kind; the two zeros are equal. -/
def same : Number → Number → Bool
  | int m _, int n _ => m == n
  | float x, float y => x.sameNumber y
  | _, _ => false

/-- The number in a binary format, rounded if need be; `none` is an overflow. -/
def toBinary? {F : BinaryFormat} : Number → Option (Binary F)
  | int n _ => Binary.ofRatio (decide (n < 0)) n.natAbs 1
  | float x => x.convert

end Number

/-! ## Values -/

/-- A JSON value. -/
inductive Json where
  | null
  | bool (b : Bool)
  | num (n : Number)
  | str (s : String)
  | arr (items : List Json)
  | obj (members : List (String × Json))
  deriving Inhabited, Repr

/-- The members of an object, in the order they were inserted. -/
abbrev Members (α : Type) := List (String × α)

namespace Members

variable {α : Type}

/-- The value under a name. -/
def get? (name : String) : Members α → Option α
  | [] => none
  | (k, v) :: ms => if k = name then some v else get? name ms

/-- Sets the value under a name, in its place if the name is there and at the
    end otherwise. -/
def put (name : String) (v : α) : Members α → Members α
  | [] => [(name, v)]
  | (k, w) :: ms => if k = name then (k, v) :: ms else (k, w) :: put name v ms

/-- The members put one after the other: a name that comes again has its first place and
    its last value. -/
def ofList (ms : List (String × α)) : Members α := ms.foldl (fun acc m => put m.1 m.2 acc) []

/-- Takes a name out; the others keep their order. -/
def remove (name : String) : Members α → Members α
  | [] => []
  | (k, v) :: ms => if k = name then ms else (k, v) :: remove name ms

/-- The names, in order. -/
def names (ms : Members α) : List String := ms.map (·.1)

end Members

namespace Json

/-- The integer `n` as a value, if it has at most 64 bits. -/
def ofInt? (n : Int) : Option Json := (Number.ofInt? n).map .num

/-- Whether the value is `null`. -/
def isNull : Json → Bool
  | null => true
  | _ => false

/-! ## Equality up to the order of members -/

mutual

/-- Equality up to the order of members. -/
def same : Json → Json → Bool
  | null, null => true
  | bool a, bool b => a == b
  | num a, num b => a.same b
  | str a, str b => a == b
  | arr xs, arr ys => sameItems xs ys
  | obj ms, obj ns => ms.length == ns.length && sameMembers ms ns
  | _, _ => false

/-- Equality item by item. -/
def sameItems : List Json → List Json → Bool
  | [], [] => true
  | x :: xs, y :: ys => same x y && sameItems xs ys
  | _, _ => false

/-- Every member on the left has an equal one on the right. -/
def sameMembers : List (String × Json) → List (String × Json) → Bool
  | [], _ => true
  | (k, v) :: ms, ns =>
    (match Members.get? k ns with
      | some w => same v w
      | none => false) && sameMembers ms ns

end

/-! ## Well-formed values -/

mutual

/-- No object in the value has a name twice. -/
def Wellformed : Json → Prop
  | arr xs => WellformedItems xs
  | obj ms => (Members.names ms).Nodup ∧ WellformedMembers ms
  | _ => True

/-- Every item is well formed. -/
def WellformedItems : List Json → Prop
  | [] => True
  | x :: xs => Wellformed x ∧ WellformedItems xs

/-- The value of every member is well formed. -/
def WellformedMembers : List (String × Json) → Prop
  | [] => True
  | (_, v) :: ms => Wellformed v ∧ WellformedMembers ms

end

end Json

end DocPointer
