/-
  Walks go on where other walks have led.

  `Schema.seek` is the walk of a pointer: what it finds, or where it stops.  The walk of
  one pointer after another is the walk of the second from what the first finds; if the
  first stops, so does the whole, with the second still to go.

  * `resolveTokens_append`: for lists of tokens, by induction on the first.
  * `seek_append`: for pointers, and for the calls that resolve them.
-/
import DocPointer.Proofs.Pointer.Joining
import DocPointer.Proofs.Walk.Retrieval
import DocPointer.Walk.Delete

namespace DocPointer

/-- An attempt that worked has left a value. -/
theorem Attempt.done_of_isOk {ε : Type} {out : Attempt ε} (h : out.1.isOk = true) :
    ∃ v, out = (.ok (), v) := by
  obtain ⟨_ | _, v⟩ := out
  · cases h
  · exact ⟨v, rfl⟩

/-- The stop of a longer walk, with `q` behind what was left of the pointer. -/
def Stop.before (s : Stop) (q : Pointer) : Stop := ⟨s.fault, s.container, s.current ++ q⟩

namespace Schema

open Samples

section
variable (Γ : Schema)

/-- The walk of a pointer from a document: the value that it finds, or where it stops. -/
def seek (doc : Val) (p : Pointer) : Except Stop Val := Γ.find (Γ.redirects + 1) doc p

/-- The walk of a pointer stops. -/
def Stops (doc : Val) (p : Pointer) (s : Stop) : Prop := Γ.seek doc p = .error s

instance (doc : Val) (p : Pointer) (s : Stop) : Decidable (Γ.Stops doc p s) :=
  match h : Γ.seek doc p with
  | .error s' => decidable_of_iff (s' = s) (by simp [Stops, h])
  | .ok _ => .isFalse (by simp [Stops, h])

end

variable {Γ : Schema} {doc v x : Val} {p q : Pointer}

theorem finds_iff : Γ.Finds doc p x ↔ Γ.seek doc p = .ok x := Iff.rfl

theorem finds_of_isOk (h : (Γ.seek doc p).isOk = true) : ∃ x, Γ.Finds doc p x := by
  cases hx : Γ.seek doc p with
  | error s =>
    rw [hx] at h
    cases h
  | ok x => exact ⟨x, hx⟩

/-! ## Tokens -/

section
variable (redirect : Val → Pointer → Except Stop Val)

/-- Without hooks a walk goes down one step after the other. -/
theorem Plain.resolveTokens_step (hΓ : Γ.Plain) (t : Token) (ts : List Token) (v : Val) :
    Γ.resolveTokens redirect (t :: ts) v =
      match Γ.select t v with
      | .error e => .error (e.stop (.ofTokens (t :: ts)))
      | .ok c => Γ.resolveTokens redirect ts c := by
  cases hs : Γ.select t v <;> simp only [resolveTokens, hΓ.hooks_eq, Hooks.silent, hs]

/-- So does a delete. -/
theorem Plain.deleteTokens_cons (hΓ : Γ.Plain) (redirect : Val → Pointer → Outcome) (t : Token)
    (ts : List Token) (v : Val) :
    Γ.deleteTokens redirect (t :: ts) v = v.onTarget fun w =>
      Γ.remove (Pointer.ofTokens (t :: ts)) t ts.isEmpty (Γ.deleteTokens redirect ts) w := by
  simp only [deleteTokens, deleteSteered, hΓ.hooks_eq, Hooks.silent]

theorem resolveTokens_append (hΓ : Γ.Plain) (ts us : List Token) (v : Val) :
    Γ.resolveTokens redirect (ts ++ us) v =
      match Γ.resolveTokens redirect ts v with
      | .error s => .error (s.before (.ofTokens us))
      | .ok x => Γ.resolveTokens redirect us x := by
  induction ts generalizing v with
  | nil => rfl
  | cons t ts ih =>
    rw [List.cons_append, hΓ.resolveTokens_step, hΓ.resolveTokens_step]
    cases Γ.select t v with
    | error e =>
      show Except.error (e.stop (.ofTokens ((t :: ts) ++ us))) = _
      rw [Pointer.ofTokens_append]
      rfl
    | ok c => exact ih c

theorem resolveTokens_append_ok (hΓ : Γ.Plain) {ts us : List Token} {y : Val} :
    Γ.resolveTokens redirect (ts ++ us) v = .ok y ↔
      ∃ x, Γ.resolveTokens redirect ts v = .ok x ∧ Γ.resolveTokens redirect us x = .ok y := by
  rw [resolveTokens_append redirect hΓ]
  cases Γ.resolveTokens redirect ts v <;> simp

end

/-! ## Pointers -/

/-- The walk of a well-formed pointer takes its tokens. -/
theorem seek_eq (hp : p.validate = .ok ()) (doc : Val) :
    Γ.seek doc p = Γ.resolveTokens (Γ.find Γ.redirects) p.tokens doc := by
  rw [seek, find, if_pos (Pointer.walks_of_validate hp)]

theorem seek_append_eq (hΓ : Γ.Plain) (hp : p.validate = .ok ()) (hq : q.validate = .ok ())
    (doc : Val) : Γ.seek doc (p ++ q) =
      match Γ.seek doc p with
      | .error s => .error (s.before q)
      | .ok x => Γ.seek x q := by
  simp only [seek_eq hp, seek_eq hq, seek_eq (Pointer.validate_append hp hq)]
  rw [Pointer.tokens_append hp hq, resolveTokens_append _ hΓ, Pointer.ofTokens_tokens hq]

/-- A call that resolves a well-formed pointer delivers what its walk finds. -/
theorem resolve_eq (hp : p.validate = .ok ()) (doc dst : Val) :
    Γ.resolve doc dst p =
      match Γ.seek doc p with
      | .error s => (.error ⟨.resolving, p, s⟩, dst)
      | .ok x => ((Γ.deliver dst x).1.mapError fun e => ⟨.resolving, p, e.stop .root⟩,
          (Γ.deliver dst x).2) := by
  simp only [resolve, hp]
  rfl

/-- The outcome of a walk, with the verb and the pointer of its call in the report. -/
def report (op : Operation) (p : Pointer) (out : Outcome) : Except WalkError Unit × Val :=
  (out.1.mapError (⟨op, p, ·⟩), out.2)

theorem assign_eq (hp : p.validate = .ok ()) (doc x : Val) : Γ.assign doc p x =
    report .assigning p (Γ.assignTokens (Γ.place Γ.redirects) p.tokens doc x) := by
  rw [assign, hp, place, if_pos (Pointer.walks_of_validate hp)]
  rfl

theorem delete_eq (hp : p.validate = .ok ()) (doc : Val) : Γ.delete doc p =
    report .deleting p (Γ.deleteTokens (Γ.discard Γ.redirects) p.tokens doc) := by
  rw [delete, hp, discard, if_pos (Pointer.walks_of_validate hp)]
  rfl

theorem report_ok {op : Operation} {out : Outcome} {w : Val} :
    report op p out = (.ok (), w) ↔ out = (.ok (), w) := by
  obtain ⟨_ | _, u⟩ := out <;> simp [report, Except.mapError]

/-- An assign works if its pointer is well formed and its walk works. -/
theorem assign_ok_iff {doc' : Val} : Γ.assign doc p x = (.ok (), doc') ↔
    p.validate = .ok () ∧
      Γ.assignTokens (Γ.place Γ.redirects) p.tokens doc x = (.ok (), doc') := by
  cases hp : p.validate with
  | error m => simp [assign, hp]
  | ok u => simp only [assign_eq hp, report_ok, true_and]

/-- So does a delete. -/
theorem delete_ok_iff {doc' : Val} : Γ.delete doc p = (.ok (), doc') ↔
    p.validate = .ok () ∧ Γ.deleteTokens (Γ.discard Γ.redirects) p.tokens doc = (.ok (), doc') := by
  cases hp : p.validate with
  | error m => simp [delete, hp]
  | ok u => simp only [delete_eq hp, report_ok, true_and]

theorem assignTokens_nil_ok {redirect : Val → Pointer → Val → Outcome} {w : Val} :
    Γ.assignTokens redirect [] v x = (.ok (), w) ↔ Γ.store v x = (.ok (), w) := by
  rw [assignTokens]
  obtain ⟨_ | _, u⟩ := Γ.store v x <;> simp [Except.mapError]

/-- **Walks compose.**  From what the walk of `p` finds, the walk of `q` has the outcome of
    the walk of `p ++ q` from the document, and resolves to the same; if the walk of `p`
    stops, that of `p ++ q` stops for the same cause at the same container, with `q`
    behind what was left. -/
theorem seek_append (hΓ : Γ.Plain) (doc : Val) (hp : p.validate = .ok ())
    (hq : q.validate = .ok ()) :
    (∀ x, Γ.Finds doc p x → Γ.seek doc (p ++ q) = Γ.seek x q ∧
      ∀ dst, Γ.resolve doc dst (p ++ q) =
        ((Γ.resolve x dst q).1.mapError ({ · with pointer := p ++ q }),
          (Γ.resolve x dst q).2)) ∧
    ∀ s, Γ.Stops doc p s → Γ.Stops doc (p ++ q) ⟨s.fault, s.container, s.current ++ q⟩ := by
  have hpq := seek_append_eq hΓ hp hq doc
  constructor
  · intro x hx
    have hseek : Γ.seek doc (p ++ q) = Γ.seek x q := by
      rw [hpq, finds_iff.1 hx]
    refine ⟨hseek, ?_⟩
    intro dst
    rw [resolve_eq (Pointer.validate_append hp hq), resolve_eq hq, hseek]
    cases Γ.seek x q with
    | error s => rfl
    | ok y =>
      dsimp only
      generalize Γ.deliver dst y = out
      obtain ⟨_ | _, w⟩ := out <;> rfl
  · intro s hs
    rw [Stops] at hs ⊢
    rw [hpq, hs]
    rfl

/-- From the ports in the notes of a job, and past an entry that the notes lack. -/
theorem busyJob_composed :
    (∃ x, jobs.Finds busyJob ⟨"/notes/ports"⟩ x ∧
      jobs.seek busyJob ⟨"/notes/ports/0"⟩ = jobs.seek x ⟨"/0"⟩) ∧
    jobs.Stops busyJob ⟨"/notes/size/max"⟩ ⟨.notFound, .json, ⟨"/size/max"⟩⟩ := by
  have hfound : (jobs.seek busyJob ⟨"/notes/ports"⟩).toOption.isSome = true := by decide +kernel
  have hstop : jobs.Stops busyJob ⟨"/notes/size"⟩ ⟨.notFound, .json, ⟨"/size"⟩⟩ := by decide +kernel
  constructor
  · cases hx : jobs.seek busyJob ⟨"/notes/ports"⟩ with
    | error s =>
      rw [hx] at hfound
      cases hfound
    | ok x => exact ⟨x, hx, ((seek_append plain_jobs busyJob rfl (q := ⟨"/0"⟩) rfl).1 x hx).1⟩
  · exact (seek_append plain_jobs busyJob rfl (q := ⟨"/max"⟩) rfl).2 _ hstop

end Schema

end DocPointer
