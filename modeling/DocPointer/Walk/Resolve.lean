/-
  Resolving: finding the value at a pointer.

  * `Schema.resolveTokens` walks down a list of tokens, one `select` to a token, unless
    a lookup hook leads elsewhere; `Schema.find` counts the redirections.
  * `Schema.resolve` finds the value at a pointer and delivers it to a destination.
-/
import DocPointer.Walk.Select
import DocPointer.Walk.Store

namespace DocPointer

namespace Pointer

/-- Where a walk goes on after a hook led it elsewhere: with the pointer the hook
    wrote back, or, if it left the pointer `here` alone, after the first token. -/
def after (here written : Pointer) : Pointer :=
  if written = here then (here.next.map (·.2)).getD root else written

end Pointer

namespace Schema

variable (Γ : Schema)

/-- The value that a list of tokens leads to; `redirect` goes on where a hook
    leads. -/
def resolveTokens (redirect : Val → Pointer → Except Stop Val) :
    List Token → Val → Except Stop Val
  | [], v => .ok v
  | t :: ts, v =>
    let here := Pointer.ofTokens (t :: ts)
    let w := v.target
    match (Γ.hooks w).lookup w here with
    | .refuses message => .error ⟨.hook message, w.typeOf, here⟩
    | .leads child written => redirect child (here.after written)
    | .yields =>
      match Γ.select t v with
      | .error e => .error (e.stop here)
      | .ok child => resolveTokens redirect ts child

/-- The value a pointer leads to from a value, with at most so many redirections. -/
def find : Nat → Val → Pointer → Except Stop Val
  | 0, v, p => .error ⟨.redirects, v.typeOf, p⟩
  | n + 1, v, p =>
    if p.isRoot ∨ p.next.isSome then Γ.resolveTokens (find n) p.tokens v
    else match (Γ.hooks v).lookup v p with
      | .refuses message => .error ⟨.hook message, v.typeOf, p⟩
      | .leads child written => find n child (p.after written)
      | .yields => .error ⟨.malformedPointer .start, v.typeOf, p⟩

/-- Finds the value at a pointer and stores it in `dst`: the new destination, or
    the error and the destination as the attempt left it. -/
def resolve (src dst : Val) (p : Pointer) : Except WalkError Unit × Val :=
  match p.validate with
  | .error m => (.error ⟨.resolving, p, ⟨.malformedPointer m, dst.typeOf, .root⟩⟩, dst)
  | .ok _ =>
    match Γ.find (Γ.redirects + 1) src p with
    | .error s => (.error ⟨.resolving, p, s⟩, dst)
    | .ok v =>
      let (result, dst') := Γ.deliver dst v
      (result.mapError fun e => ⟨.resolving, p, e.stop .root⟩, dst')

end Schema

end DocPointer
