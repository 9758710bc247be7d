/-
  Assigning: storing a value at a pointer.

  * `Schema.assignTokens` walks down a list of tokens, making what is missing, and
    stores the value at the end.  Hooks are asked on the way: the assign hook may do the
    work, the navigation hook may lead elsewhere.
  * `Schema.place` counts the redirections, `Schema.assign` is the call.
-/
import DocPointer.Walk.Descent
import DocPointer.Walk.Resolve

namespace DocPointer.Schema

variable (Γ : Schema)

/-- Asks the hooks of `v`, to which the pointer `here` is addressed, before the walk goes
    on by itself with `go`. -/
def assignSteered (redirect : Val → Pointer → Val → Outcome) (here : Pointer) (v x : Val)
    (go : Val → Val → Outcome) : Outcome :=
  let hooks := Γ.hooks v
  let stop (message : String) : Stop := ⟨.hook message, v.typeOf, here⟩
  match hooks.assign v here x with
  | .refuses v message => (.error (stop message), v)
  | .done v => .done v
  | .yields v x =>
    match hooks.navigate .assigning v here with
    | .refuses v message => (.error (stop message), v)
    | .leads child back written => (redirect child (here.after written) x).inside back
    | .yields v => go v x

/-- Stores `x` at the end of a list of tokens; `redirect` goes on where a hook
    leads. -/
def assignTokens (redirect : Val → Pointer → Val → Outcome) : List Token → Val → Val → Outcome
  | [], v, x =>
    let (result, v') := Γ.store v x
    (result.mapError (·.stop .root), v')
  | t :: ts, v, x =>
    let here := Pointer.ofTokens (t :: ts)
    Γ.allocating (Shape.ofToken t) (fun w =>
      Γ.assignSteered redirect here w x fun w x =>
        Γ.descend here t (fun c => assignTokens redirect ts c x) w) v

/-- Stores `x` at a pointer from a value, with at most so many redirections. -/
def place : Nat → Val → Pointer → Val → Outcome
  | 0, v, p, _ => .refuse p v .redirects
  | n + 1, v, p, x =>
    if p.isRoot ∨ p.next.isSome then Γ.assignTokens (place n) p.tokens v x
    else Γ.assignSteered (place n) p v x fun v _ => .refuse p v (.malformedPointer .start)

/-- Stores `x` at a pointer of a document: the changed document, or the error and the
    document as the walk left it. -/
def assign (doc : Val) (p : Pointer) (x : Val) : Except WalkError Unit × Val :=
  match p.validate with
  | .error m => (.error ⟨.assigning, p, ⟨.malformedPointer m, doc.typeOf, .root⟩⟩, doc)
  | .ok _ =>
    let (result, doc) := Γ.place (Γ.redirects + 1) doc p x
    (result.mapError (⟨.assigning, p, ·⟩), doc)

end DocPointer.Schema
