/-
  What goes wrong on a walk, and where.

  * `Fault` is the cause, `Stop` the cause with the place: the type of the container
    and the rest of the pointer, from the token that failed.
  * `WalkError` is the report of a call: the stop, the verb and the whole pointer;
    `WalkError.message` is its wording.
  * An `Attempt` is what a change left behind: the value, changed or not, and the error
    if it failed.
-/
import DocPointer.Document.Schema

namespace DocPointer

/-- The cause of a failure. -/
inductive Fault where
  | malformedPointer (m : Malformed)
  /-- The name is known, but may not be addressed. -/
  | unexportedField (field : String)
  /-- No token is a key of the map. -/
  | invalidKeyType (keyTy : KeyTy)
  /-- The token is no key of the map. -/
  | badKey (keyTy : KeyTy) (key reason : String)
  /-- The slot takes no value of that type. -/
  | notAssignable (expected value : Ty)
  | notFound
  /-- A scalar is in the way. -/
  | unreachable
  | index (e : IndexError)
  /-- A nil pointer has no type that could be allocated. -/
  | nilInterface
  /-- A hook refused, in these words. -/
  | hook (message : String)
  /-- Text is no JSON, or a value has no JSON form. -/
  | codec
  /-- Hooks redirected the walk more often than the schema allows. -/
  | redirects
  deriving DecidableEq, Repr

namespace Fault

/-- The wording of the cause. -/
def message : Fault → String
  | malformedPointer m => m.message
  | unexportedField field => "unexported field " ++ Text.quoted field
  | invalidKeyType keyTy => "invalid key type " ++ keyTy.name
  | badKey keyTy key _ => "failed to decode key " ++ Text.quoted key ++ " as " ++ keyTy.name
  | notAssignable expected value =>
    "invalid value type " ++ value.name ++ "; expected " ++ expected.name
  | notFound => "value not found"
  | unreachable => "value not found due to being unreachable"
  | index e => e.message
  | nilInterface => "can not assign due to nil interface"
  | hook message => message
  | codec => "json codec: *"
  | redirects => "too many redirects"

/-- The fault of a token that is no key. -/
def ofKeyError (keyTy : KeyTy) (token : Token) : KeyError → Fault
  | .unaddressable => invalidKeyType keyTy
  | .undecodable reason => badKey keyTy token.decoded reason

/-! ## Kinds of faults -/

/-- Whether nothing was found, for whatever reason. -/
def isNotFound : Fault → Bool
  | notFound | unreachable => true
  | _ => false

/-- Whether a scalar was in the way. -/
def isUnreachable : Fault → Bool
  | unreachable => true
  | _ => false

/-- Whether the pointer was malformed. -/
def isMalformedPointer : Fault → Bool
  | malformedPointer _ => true
  | _ => false

/-- Whether a name was out of bounds. -/
def isUnexportedField : Fault → Bool
  | unexportedField _ => true
  | _ => false

/-- Whether the map has keys that no token spells. -/
def isInvalidKeyType : Fault → Bool
  | invalidKeyType _ => true
  | _ => false

/-- Whether a token was no key. -/
def isKeyError : Fault → Bool
  | badKey .. | invalidKeyType _ => true
  | _ => false

/-- Whether a slot refused a value. -/
def isNotAssignable : Fault → Bool
  | notAssignable .. => true
  | _ => false

/-- Whether a position was out of range. -/
def isOutOfRange : Fault → Bool
  | index (.outOfRange ..) => true
  | _ => false

/-- Whether a token was no position. -/
def isMalformedIndex : Fault → Bool
  | index (.malformed _) => true
  | _ => false

/-- Whether a nil pointer could not be allocated. -/
def isNilInterface : Fault → Bool
  | nilInterface => true
  | _ => false

end Fault

/-- Where and why a walk stopped. -/
structure Stop where
  fault : Fault
  /-- The type of the container that the failing token was to address. -/
  container : Ty
  /-- The rest of the pointer, from the failing token. -/
  current : Pointer
  deriving DecidableEq, Repr

/-- A refusal to store a value, before it is known where. -/
structure Refusal where
  fault : Fault
  container : Ty
  deriving DecidableEq, Repr

/-- The refusal as a stop at a place. -/
def Refusal.stop (r : Refusal) (here : Pointer) : Stop := ⟨r.fault, r.container, here⟩

/-- The report of a failed call. -/
structure WalkError where
  op : Operation
  pointer : Pointer
  stop : Stop
  deriving DecidableEq, Repr

namespace WalkError

/-- The token the walk failed on, if it failed on one. -/
def token? (e : WalkError) : Option Token := e.stop.current.nextToken

/-- The wording of the report. -/
def message (e : WalkError) : String :=
  let reference := "reference \"" ++ e.pointer.text ++ "\""
  "jsonpointer: " ++ e.stop.fault.message ++ " " ++
    match e.token? with
    | some t => "for token \"" ++ t.decoded ++ "\" in " ++ reference
    | none => "for " ++ reference

end WalkError

/-! ## Attempts -/

/-- What a change left behind. -/
abbrev Attempt (ε : Type) := Except ε Unit × Val

namespace Attempt

variable {ε : Type}

/-- A change that worked. -/
def done (v : Val) : Attempt ε := (.ok (), v)

/-- The outcome for the whole of the outcome for a part that was made for it: the part
    is put back, or, after a failure, `undo` takes it out again. -/
def within (out : Attempt ε) (back undo : Val → Val) : Attempt ε :=
  match out with
  | (.ok _, v) => (.ok (), back v)
  | (.error e, v) => (.error e, undo v)

/-- The outcome for the whole of the outcome for a part that was there before: the part
    is put back in any case. -/
def inside (out : Attempt ε) (back : Val → Val) : Attempt ε := (out.1, back out.2)

end Attempt

end DocPointer
