/-
  Going down one step to change what is there.

  A change `f` of a part becomes a change of the whole.  What is made on the way (a nil
  pointer's target, a map entry, an element) is taken back if `f` fails, whatever `f`
  left of it.

  * `Val.onTarget` passes through pointers, `Schema.allocating` gives nil ones a target.
  * `Schema.embed` goes down a path of fields, allocating nil pointers on it, and
    `Schema.prune` does so without allocating.
  * `Schema.descend` goes to the part that a token addresses, making it if it can be
    made; `Schema.remove` goes to the part if it is there, and on the last token takes
    it out where a container can be without it.
-/
import DocPointer.Walk.Select

namespace DocPointer

/-- What a change below a pointer left behind. -/
abbrev Outcome := Attempt Stop

namespace Outcome

/-- A change that failed at a container and left it as it was. -/
def refuse (here : Pointer) (v : Val) (fault : Fault) : Outcome := (.error ⟨fault, v.typeOf, here⟩, v)

end Outcome

/-! ## Pointers -/

/-- A change of what a chain of pointers leads to; a nil pointer leads nowhere and
    stands for itself. -/
def Val.onTarget (f : Val → Outcome) : Val → Outcome
  | ptr v => (onTarget f v).inside ptr
  | box v => (onTarget f v).inside box
  | held v => (onTarget f v).inside held
  | v => f v

namespace Schema

variable (Γ : Schema)

/-- A change below a new value of a type: its pointers get targets. -/
def allocatingNew (shape : Shape) (f : Val → Outcome) : Ty → Outcome
  | .opt t => (allocatingNew shape f t).within .ptr fun v => Γ.cleared (.ptr v)
  | .box t => (allocatingNew shape f t).inside .box
  | .holder => (f (.json shape.container)).within .held fun v => Γ.cleared (.held v)
  | t => f (Γ.zero t)

/-- A change of what a chain of pointers leads to.  A nil pointer gets a target, and is
    nil again if the change fails. -/
def allocating (shape : Shape) (f : Val → Outcome) : Val → Outcome
  | .nil t => (Γ.allocatingNew shape f t).within .ptr fun v => Γ.cleared (.ptr v)
  | .ptr v => (allocating shape f v).inside .ptr
  | .box v => (allocating shape f v).inside .box
  | .vacant => (f (.json shape.container)).within .held fun v => Γ.cleared (.held v)
  | .held v => (allocating shape f v).inside .held
  | v => f v

/-! ## Paths of fields -/

/-- A change of the value at the end of a path of fields.  Nil pointers on the way get
    targets, and are nil again if the change fails. -/
def embed (here : Pointer) (f : Val → Outcome) : List Nat → Val → Outcome
  | [], v => f v
  | i :: path, v =>
    Γ.allocating .map (fun w =>
      match Γ.node w with
      | .record _ fields =>
        match fields[i]? with
        | some child => (embed here f path child).inside fun c => w.withFields (fields.set i c)
        | none => .refuse here w .notFound
      | .sealed _ => .refuse here w .nilInterface
      | _ => .refuse here w .notFound) v

/-- A change of the value at the end of a path of fields; if a pointer on the way is
    nil, there is nothing to change. -/
def prune (f : Val → Outcome) : List Nat → Val → Outcome
  | [], v => f v
  | i :: path, v =>
    v.onTarget fun w =>
      match Γ.node w with
      | .record _ fields =>
        match fields[i]? with
        | some child => (prune f path child).inside fun c => w.withFields (fields.set i c)
        | none => .done w
      | _ => .done w

/-! ## Assigning -/

/-- A change of the part that a token addresses, for a value that is neither null, nor a
    pointer that leads somewhere, nor a region. -/
def descendBare (here : Pointer) (t : Token) (f : Val → Outcome) (v : Val) : Outcome :=
  match Γ.node v with
  | .scalar => .refuse here v .unreachable
  | .sealed false => .refuse here v .nilInterface
  | .nil | .ptr _ | .sealed true | .raw _ => .refuse here v .notFound
  | .record name fields =>
    match Γ.fieldPath name t with
    | .error fault => .refuse here v fault
    | .ok [] => .refuse here v .notFound
    | .ok (i :: below) =>
      match fields[i]? with
      | none => .refuse here v .notFound
      | some child => (Γ.embed here f below child).inside fun c => v.withFields (fields.set i c)
  | .map key order elem entries =>
    match key.ofToken t.decoded with
    | .error e => .refuse here v (.ofKeyError key t e)
    | .ok k =>
      match Entries.get? k entries with
      | some child => (f child).inside fun c => v.withEntries (Entries.set k c entries)
      | none =>
        let grown (c : Val) := Entries.set k c (Entries.insert order k (Γ.zero elem) entries)
        (f (Γ.zero elem)).within (fun c => v.withEntries (grown c))
          (fun c => v.withEntries (Entries.remove k (grown c)))
  | .slice elem gap items =>
    match t.index items.length with
    | .error e => .refuse here v (.index e)
    | .ok i =>
      if i = items.length then
        let grown (c : Val) := (items ++ [Γ.zero elem]).set i c
        (f (Γ.zero elem)).within (fun c => Γ.withItems v (grown c))
          (fun c => Γ.withItems v ((grown c).take items.length))
      else match elem? gap items i with
        | some child => (f child).inside fun c => Γ.withItems v (items.set i c)
        | none => .refuse here v .notFound
  | .array gap items =>
    match t.existing items.length with
    | .error e => .refuse here v (.index e)
    | .ok i =>
      match elem? gap items i with
      | some child => (f child).inside fun c => Γ.withItems v (items.set i c)
      | none => .refuse here v .notFound

/-- A change of the part of a JSON value that a token addresses.  Null becomes a
    container of the shape the token asks for, and null again if the change fails. -/
def descendJson (here : Pointer) (t : Token) (f : Val → Outcome) : Json → Outcome
  | .null =>
    (Γ.descendBare here t f (.json (Shape.ofToken t).container)).within id Γ.cleared
  | j => Γ.descendBare here t f (.json j)

/-- A change of the part that a token addresses, for a value that is no pointer with a
    target.  A region is decoded, and encoded again if the change works. -/
def descend (here : Pointer) (t : Token) (f : Val → Outcome) : Val → Outcome
  | .raw bytes =>
    match Γ.regionValue? bytes with
    | none => .refuse here (.raw bytes) .codec
    | some j =>
      (Γ.descendJson here t f j).within (fun v => .raw v.asJson.toBytes) fun _ => .raw bytes
  | .json j => Γ.descendJson here t f j
  | v => Γ.descendBare here t f v

/-! ## Deleting -/

/-- Takes out, or changes, the part that a token addresses, for a value that is neither
    a pointer that leads somewhere nor a region.  On the last token an entry or an
    element of a growing sequence is taken out; anything else is changed by `f`. What
    is not there is left alone. -/
def removeBare (here : Pointer) (t : Token) (last : Bool) (f : Val → Outcome) (v : Val) : Outcome :=
  match Γ.node v with
  | .scalar => .refuse here v .unreachable
  | .nil | .ptr _ | .sealed _ | .raw _ => .done v
  | .record name _ =>
    match Γ.fieldPath name t with
    | .error fault => .refuse here v fault
    | .ok path => Γ.prune f path v
  | .map key _ _ entries =>
    match key.ofToken t.decoded with
    | .error e => .refuse here v (.ofKeyError key t e)
    | .ok k =>
      if last then .done (v.withEntries (Entries.remove k entries))
      else match Entries.get? k entries with
        | some child => (f child).inside fun c => v.withEntries (Entries.set k c entries)
        | none => .done v
  | .slice _ gap items =>
    match t.index items.length with
    | .error (.outOfRange i bound) =>
      if 0 ≤ i then .done v else .refuse here v (.index (.outOfRange i bound))
    | .error e => .refuse here v (.index e)
    | .ok i =>
      if i = items.length then .done v
      else if last then .done (Γ.withItems v (items.eraseIdx i))
      else match elem? gap items i with
        | some child => (f child).inside fun c => Γ.withItems v (items.set i c)
        | none => .done v
  | .array gap items =>
    match t.existing items.length with
    | .error e => .refuse here v (.index e)
    | .ok i =>
      match elem? gap items i with
      | some child => (f child).inside fun c => Γ.withItems v (items.set i c)
      | none => .done v

/-- Takes out, or changes, the part that a token addresses, for a value that is no
    pointer with a target.  A region is decoded, and encoded again if that works. -/
def remove (here : Pointer) (t : Token) (last : Bool) (f : Val → Outcome) : Val → Outcome
  | .raw bytes =>
    if bytes.isEmpty then .done (.raw bytes)
    else match Γ.regionValue? bytes with
      | none => .refuse here (.raw bytes) .codec
      | some j =>
        (Γ.removeBare here t last f (.json j)).within (fun v => .raw v.asJson.toBytes)
          fun _ => .raw bytes
  | v => Γ.removeBare here t last f v

end Schema

end DocPointer
