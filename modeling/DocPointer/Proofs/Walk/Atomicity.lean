/-
  A call that fails leaves no trace.

  Each step down keeps a change atomic (`Step.atomic`), and the value at the end refuses
  what it does not take (`store_atomic`).  So a walk is atomic if the hooks it asks are
  `Steady`: they leave the record they are asked of as it was, unless they do the work
  themselves.

  * `assignTokens_atomic` and `deleteTokens_atomic` are by induction on the tokens,
    `place_atomic` and `discard_atomic` by induction on the number of redirections.
  * `unchanged_of_error`: all calls.
-/
import DocPointer.Proofs.Walk.Descent
import DocPointer.Walk.Delete

namespace DocPointer

/-! ## Steady hooks -/

/-- Hooks that change no record they are asked of, unless they do the work themselves.  A
    navigation hook that leads to a child has changed nothing if the child, put back as
    it is, gives the record. -/
structure Hooks.Steady (h : Hooks) : Prop where
  assign_yields {v p x v' x'} : h.assign v p x = .yields v' x' → v' = v
  assign_refuses {v p x v' m} : h.assign v p x = .refuses v' m → v' = v
  delete_yields {v p v' u} : h.delete v p = .yields v' u → v' = v
  delete_refuses {v p v' m} : h.delete v p = .refuses v' m → v' = v
  navigate_yields {op v p v'} : h.navigate op v p = .yields v' → v' = v
  navigate_refuses {op v p v' m} : h.navigate op v p = .refuses v' m → v' = v
  navigate_leads {op v p child back rest} :
    h.navigate op v p = .leads child back rest → back child = v

theorem Hooks.steady_silent : Hooks.silent.Steady := by
  constructor <;> simp +contextual [Hooks.silent]

namespace Schema

open Samples

/-- A schema whose hooks are all steady. -/
def Steady (Γ : Schema) : Prop := ∀ name, (Γ.decl name).hooks.Steady

variable {Γ : Schema}

theorem Steady.hooks (hΓ : Γ.Steady) (v : Val) : (Γ.hooks v).Steady := by
  cases v with
  | record name fields => exact hΓ name
  | _ => exact Hooks.steady_silent

/-- Without hooks there is nothing to be steady. -/
theorem Plain.steady (hΓ : Γ.Plain) : Γ.Steady := fun name => by
  rw [hΓ.hooks name]
  exact Hooks.steady_silent

/-! ## Assigning -/

theorem assignSteered_atomic (hΓ : Γ.Steady) {redirect : Val → Pointer → Val → Outcome}
    (hr : ∀ p x, Atomic (redirect · p x)) {go : Val → Val → Outcome} (hg : ∀ x, Atomic (go · x))
    (here : Pointer) (x : Val) : Atomic (Γ.assignSteered redirect here · x go) := by
  intro v e w h
  have hs := hΓ.hooks v
  simp only [assignSteered] at h
  split at h
  · next ha => cases h; exact hs.assign_refuses ha
  · cases h
  · next v' x' ha =>
    obtain rfl := hs.assign_yields ha
    split at h
    · next hn => cases h; exact hs.navigate_refuses hn
    · next child back written hn =>
      obtain ⟨u, hu, rfl⟩ := Attempt.inside_error h
      rw [hr _ _ child e u hu, hs.navigate_leads hn]
    · next v'' hn =>
      rw [hg x' v'' e w h, hs.navigate_yields hn]

theorem assignTokens_atomic (hΓ : Γ.Steady) {redirect : Val → Pointer → Val → Outcome}
    (hr : ∀ p x, Atomic (redirect · p x)) (ts : List Token) (x : Val) :
    Atomic (Γ.assignTokens redirect ts · x) := by
  induction ts generalizing x with
  | nil =>
    intro v e w h
    simp only [assignTokens] at h
    generalize hout : Γ.store v x = out at h
    obtain ⟨_ | _, u⟩ := out
    · cases h
      exact store_atomic x _ _ _ hout
    · cases h
  | cons t ts ih =>
    intro v e w h
    refine (allocating_step (Shape.ofToken t) v).atomic ?_ h
    refine assignSteered_atomic hΓ hr ?_ (Pointer.ofTokens (t :: ts)) x
    intro y v e w h
    exact (descend_step _ t v).atomic (ih y) h

theorem refuse_atomic (here : Pointer) (fault : Fault) :
    Atomic (Outcome.refuse here · fault) := by
  intro v e w h
  cases h
  rfl

theorem place_atomic (hΓ : Γ.Steady) (n : Nat) (p : Pointer) (x : Val) :
    Atomic (Γ.place n · p x) := by
  induction n generalizing p x with
  | zero => exact refuse_atomic p _
  | succ n ih =>
    intro v e w h
    unfold place at h
    split at h
    · exact assignTokens_atomic hΓ ih p.tokens x v e w h
    · exact assignSteered_atomic hΓ ih (fun _ => refuse_atomic p _) p x v e w h

/-! ## Deleting -/

theorem deleteSteered_atomic (hΓ : Γ.Steady) {redirect : Val → Pointer → Outcome}
    (hr : ∀ p, Atomic (redirect · p)) {go : Val → Outcome} (hg : Atomic go) (here : Pointer) :
    Atomic (Γ.deleteSteered redirect here · go) := by
  intro v e w h
  have hs := hΓ.hooks v
  simp only [deleteSteered] at h
  split at h
  · next ha => cases h; exact hs.delete_refuses ha
  · cases h
  · next v' u ha =>
    obtain rfl := hs.delete_yields ha
    split at h
    · next hn => cases h; exact hs.navigate_refuses hn
    · next child back written hn =>
      obtain ⟨u, hu, rfl⟩ := Attempt.inside_error h
      rw [hr _ child e u hu, hs.navigate_leads hn]
    · next v'' hn =>
      rw [hg v'' e w h, hs.navigate_yields hn]

theorem deleteTokens_atomic (hΓ : Γ.Steady) {redirect : Val → Pointer → Outcome}
    (hr : ∀ p, Atomic (redirect · p)) (ts : List Token) :
    Atomic (Γ.deleteTokens redirect ts) := by
  induction ts with
  | nil =>
    intro v e w h
    cases h
  | cons t ts ih =>
    intro v e w h
    refine (onTarget_step v).atomic ?_ h
    refine deleteSteered_atomic hΓ hr ?_ (Pointer.ofTokens (t :: ts))
    intro v e w h
    exact (remove_step _ t _ v).atomic ih h

theorem discard_atomic (hΓ : Γ.Steady) (n : Nat) (p : Pointer) : Atomic (Γ.discard n · p) := by
  induction n generalizing p with
  | zero => exact refuse_atomic p _
  | succ n ih =>
    intro v e w h
    unfold discard at h
    split at h
    · exact deleteTokens_atomic hΓ ih p.tokens v e w h
    · exact deleteSteered_atomic hΓ ih (refuse_atomic p _) p v e w h

/-! ## Calls -/

theorem assign_atomic (hΓ : Γ.Steady) {doc x w : Val} {p : Pointer} {e : WalkError}
    (h : Γ.assign doc p x = (.error e, w)) : w = doc := by
  unfold assign at h
  split at h
  · cases h; rfl
  · generalize hout : Γ.place _ doc p x = out at h
    obtain ⟨_ | _, u⟩ := out
    · cases h
      exact place_atomic hΓ _ p x _ _ _ hout
    · cases h

theorem delete_atomic (hΓ : Γ.Steady) {doc w : Val} {p : Pointer} {e : WalkError}
    (h : Γ.delete doc p = (.error e, w)) : w = doc := by
  unfold delete at h
  split at h
  · cases h; rfl
  · generalize hout : Γ.discard _ doc p = out at h
    obtain ⟨_ | _, u⟩ := out
    · cases h
      exact discard_atomic hΓ _ p _ _ _ hout
    · cases h

theorem resolve_atomic {src dst w : Val} {p : Pointer} {e : WalkError}
    (h : Γ.resolve src dst p = (.error e, w)) : w = dst := by
  unfold resolve at h
  split at h
  · cases h; rfl
  · split at h
    · cases h; rfl
    · generalize hout : Γ.deliver dst _ = out at h
      obtain ⟨_ | _, u⟩ := out
      · cases h
        exact deliver_atomic _ _ _ _ hout
      · cases h

/-- **An assign or a delete that fails leaves the document as it was, and a resolve that
    fails its destination.** -/
theorem unchanged_of_error (hΓ : Γ.Steady) (doc : Val) (p : Pointer) (e : WalkError) (w : Val) :
    (∀ x, Γ.assign doc p x = (.error e, w) → w = doc) ∧
      (∀ x?, Γ.assign? doc p x? = (.error e, w) → w = doc) ∧
      (Γ.delete doc p = (.error e, w) → w = doc) ∧
      ∀ dst, Γ.resolve doc dst p = (.error e, w) → w = dst := by
  refine ⟨?_, ?_, delete_atomic hΓ, ?_⟩
  · intro x
    exact assign_atomic hΓ
  · intro x?
    cases x? with
    | some x => exact assign_atomic hΓ
    | none => exact delete_atomic hΓ
  · intro dst
    exact resolve_atomic

/-- The steps of a job and their first entry were made before a number turned out to be
    in the way. -/
theorem job_unchanged : ∃ e, jobs.assign job ⟨"/steps/-/cpu/max"⟩ (.int .i64 1) = (.error e, job) := by
  have hfail : (jobs.assign job ⟨"/steps/-/cpu/max"⟩ (.int .i64 1)).1.toOption = none := by
    decide +kernel
  generalize hout : jobs.assign job ⟨"/steps/-/cpu/max"⟩ (.int .i64 1) = out at hfail ⊢
  obtain ⟨e | _, doc'⟩ := out
  · exact ⟨e, by rw [(unchanged_of_error plain_jobs.steady job _ e doc').1 _ hout]⟩
  · cases hfail

end Schema

end DocPointer
