/-
  Deleting: taking out the value at a pointer.

  * `Schema.deleteTokens` walks down a list of tokens.  The value at the end is taken
    out of a map or a growing sequence and set to zero elsewhere; where a part on
    the way is missing, nothing is changed.  Hooks are asked on the way.
  * `Schema.discard` counts the redirections, `Schema.delete` is the call;
    `Schema.assign?` assigns a value or, given none, deletes.
-/
import DocPointer.Walk.Assign

namespace DocPointer.Schema

variable (Γ : Schema)

/-- Asks the hooks of `v`, to which the pointer `here` is addressed, before the walk goes
    on by itself with `go`. -/
def deleteSteered (redirect : Val → Pointer → Outcome) (here : Pointer) (v : Val)
    (go : Val → Outcome) : Outcome :=
  let hooks := Γ.hooks v
  let stop (message : String) : Stop := ⟨.hook message, v.typeOf, here⟩
  match hooks.delete v here with
  | .refuses v message => (.error (stop message), v)
  | .done v => .done v
  | .yields v _ =>
    match hooks.navigate .deleting v here with
    | .refuses v message => (.error (stop message), v)
    | .leads child back written => (redirect child (here.after written)).inside back
    | .yields v => go v

/-- Deletes what a list of tokens leads to; `redirect` goes on where a hook
    leads. -/
def deleteTokens (redirect : Val → Pointer → Outcome) : List Token → Val → Outcome
  | [], v => .done (Γ.zero v.typeOf)
  | t :: ts, v =>
    let here := Pointer.ofTokens (t :: ts)
    v.onTarget fun w =>
      Γ.deleteSteered redirect here w fun w =>
        Γ.remove here t ts.isEmpty (deleteTokens redirect ts) w

/-- Deletes what a pointer leads to from a value, with at most so many
    redirections. -/
def discard : Nat → Val → Pointer → Outcome
  | 0, v, p => .refuse p v .redirects
  | n + 1, v, p =>
    if p.isRoot ∨ p.next.isSome then Γ.deleteTokens (discard n) p.tokens v
    else Γ.deleteSteered (discard n) p v fun v => .refuse p v (.malformedPointer .start)

/-- Deletes the value at a pointer of a document: the changed document, or the error and
    the document as the walk left it. -/
def delete (doc : Val) (p : Pointer) : Except WalkError Unit × Val :=
  match p.validate with
  | .error m => (.error ⟨.deleting, p, ⟨.malformedPointer m, doc.typeOf, .root⟩⟩, doc)
  | .ok _ =>
    let (result, doc) := Γ.discard (Γ.redirects + 1) doc p
    (result.mapError (⟨.deleting, p, ·⟩), doc)

/-- Assigns a value or, given none, deletes. -/
def assign? (doc : Val) (p : Pointer) : Option Val → Except WalkError Unit × Val
  | some x => Γ.assign doc p x
  | none => Γ.delete doc p

end DocPointer.Schema
