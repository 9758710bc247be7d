/-
  A walk that ends needs no more redirections.

  Hooks may redirect one walk so many times, and then it is refused.  A walk that was not
  refused for that (`Ends`) has the same outcome with more redirections: each step of a change
  is a change of one part (`Step`), so it is enough that the walks below it are the same.

  * `find_succ`, `place_succ` and `discard_succ`: by induction on the number of redirections,
    and in it on the tokens.
-/
import DocPointer.Proofs.Walk.Atomicity

namespace DocPointer

/-- The walk was not refused for the number of its redirections. -/
def Ends {α : Type} (result : Except Stop α) : Prop := ∀ s, result = .error s → s.fault ≠ .redirects

theorem not_ends_redirects {α : Type} (here : Pointer) (v : Val) :
    ¬Ends (Except.error ⟨.redirects, v.typeOf, here⟩ : Except Stop α) :=
  fun h => h _ rfl rfl

/-- The change `g` is the change `f` where that ends. -/
def Prolongs (f g : Val → Outcome) : Prop := ∀ v, Ends (f v).1 → g v = f v

theorem Step.prolongs {v : Val} {F : (Val → Outcome) → Outcome} {final : Prop}
    {Sees : Val → Val → Prop} (h : Step v F final Sees) {f g : Val → Outcome}
    (hfg : Prolongs f g) (hends : Ends (F f).1) : F g = F f := by
  cases h with
  | stops s hs => rw [hs, hs]
  | ends w hw => rw [hw, hw]
  | leads P hP =>
    have hresult : (P.run f).1 = (f P.part).1 := by
      rw [Place.run]
      obtain ⟨_ | _, w⟩ := f P.part <;> rfl
    rw [hP, hresult] at hends
    rw [hP, hP, Place.run, hfg P.part hends, Place.run]

namespace Schema

variable {Γ : Schema} {v x : Val} {p : Pointer} {ts : List Token}

/-! ## Resolving -/

theorem resolveTokens_prolongs {redirect redirect' : Val → Pointer → Except Stop Val}
    (hr : ∀ v p, Ends (redirect v p) → redirect' v p = redirect v p)
    (hends : Ends (Γ.resolveTokens redirect ts v)) :
    Γ.resolveTokens redirect' ts v = Γ.resolveTokens redirect ts v := by
  induction ts generalizing v with
  | nil => rfl
  | cons t ts ih =>
    rw [resolveTokens] at hends
    rw [resolveTokens, resolveTokens]
    cases hl : (Γ.hooks v.target).lookup v.target (.ofTokens (t :: ts)) with
    | refuses message => rfl
    | leads child written =>
      rw [hl] at hends
      exact hr _ _ hends
    | yields =>
      cases hs : Γ.select t v with
      | error e => rfl
      | ok c =>
        rw [hl, hs] at hends
        exact ih hends

/-- A walk that ends finds the same with one more redirection. -/
theorem find_succ {n : Nat} (hends : Ends (Γ.find n v p)) : Γ.find (n + 1) v p = Γ.find n v p := by
  induction n generalizing v p with
  | zero => exact absurd hends (not_ends_redirects p v)
  | succ n ih =>
    rw [find] at hends
    rw [find, find]
    split at hends
    · next hw =>
      rw [if_pos hw, if_pos hw]
      exact resolveTokens_prolongs (fun v p => ih) hends
    · next hw =>
      rw [if_neg hw, if_neg hw]
      cases hl : (Γ.hooks v).lookup v p with
      | leads child written =>
        rw [hl] at hends
        exact ih hends
      | _ => rfl

/-! ## Assigning -/

theorem assignSteered_prolongs {redirect redirect' : Val → Pointer → Val → Outcome}
    (hr : ∀ p x, Prolongs (redirect · p x) (redirect' · p x)) {go go' : Val → Val → Outcome}
    (hg : ∀ x, Prolongs (go · x) (go' · x)) (here : Pointer) (x : Val) :
    Prolongs (Γ.assignSteered redirect here · x go) (Γ.assignSteered redirect' here · x go') := by
  intro v hends
  simp only [assignSteered] at hends ⊢
  cases ha : (Γ.hooks v).assign v here x with
  | refuses w message => rfl
  | done w => rfl
  | yields w y =>
    simp only [ha] at hends
    cases hn : (Γ.hooks v).navigate .assigning w here with
    | refuses u message => simp only [hn]
    | leads child back written =>
      simp only [hn] at hends ⊢
      exact congrArg (Attempt.inside · back) (hr _ _ child hends)
    | yields u =>
      simp only [hn] at hends ⊢
      exact hg y u hends

theorem assignTokens_prolongs {redirect redirect' : Val → Pointer → Val → Outcome}
    (hr : ∀ p x, Prolongs (redirect · p x) (redirect' · p x)) (ts : List Token) (x : Val) :
    Prolongs (Γ.assignTokens redirect ts · x) (Γ.assignTokens redirect' ts · x) := by
  induction ts generalizing x with
  | nil =>
    intro v _
    rfl
  | cons t ts ih =>
    intro v hends
    refine (allocating_step (Shape.ofToken t) v).prolongs ?_ hends
    refine assignSteered_prolongs hr ?_ (Pointer.ofTokens (t :: ts)) x
    intro y v hends
    exact (descend_step _ t v).prolongs (ih y) hends

/-- An assign that ends does the same with one more redirection. -/
theorem place_succ {n : Nat} (hends : Ends (Γ.place n v p x).1) :
    Γ.place (n + 1) v p x = Γ.place n v p x := by
  induction n generalizing v p x with
  | zero => exact absurd hends (not_ends_redirects p v)
  | succ n ih =>
    rw [place] at hends
    rw [place, place]
    have hr (p : Pointer) (x : Val) : Prolongs (Γ.place n · p x) (Γ.place (n + 1) · p x) :=
      fun v => ih
    split at hends
    · next hw =>
      rw [if_pos hw, if_pos hw]
      exact assignTokens_prolongs hr p.tokens x v hends
    · next hw =>
      rw [if_neg hw, if_neg hw]
      exact assignSteered_prolongs hr (fun _ _ _ => rfl) p x v hends

/-! ## Deleting -/

theorem deleteSteered_prolongs {redirect redirect' : Val → Pointer → Outcome}
    (hr : ∀ p, Prolongs (redirect · p) (redirect' · p)) {go go' : Val → Outcome}
    (hg : Prolongs go go') (here : Pointer) :
    Prolongs (Γ.deleteSteered redirect here · go) (Γ.deleteSteered redirect' here · go') := by
  intro v hends
  simp only [deleteSteered] at hends ⊢
  cases ha : (Γ.hooks v).delete v here with
  | refuses w message => rfl
  | done w => rfl
  | yields w u =>
    simp only [ha] at hends
    cases hn : (Γ.hooks v).navigate .deleting w here with
    | refuses u message => simp only [hn]
    | leads child back written =>
      simp only [hn] at hends ⊢
      exact congrArg (Attempt.inside · back) (hr _ child hends)
    | yields u =>
      simp only [hn] at hends ⊢
      exact hg u hends

theorem deleteTokens_prolongs {redirect redirect' : Val → Pointer → Outcome}
    (hr : ∀ p, Prolongs (redirect · p) (redirect' · p)) (ts : List Token) :
    Prolongs (Γ.deleteTokens redirect ts) (Γ.deleteTokens redirect' ts) := by
  induction ts with
  | nil =>
    intro v _
    rfl
  | cons t ts ih =>
    intro v hends
    refine (onTarget_step v).prolongs ?_ hends
    refine deleteSteered_prolongs hr ?_ (Pointer.ofTokens (t :: ts))
    intro v hends
    exact (remove_step _ t _ v).prolongs ih hends

/-- A delete that ends does the same with one more redirection. -/
theorem discard_succ {n : Nat} (hends : Ends (Γ.discard n v p).1) :
    Γ.discard (n + 1) v p = Γ.discard n v p := by
  induction n generalizing v p with
  | zero => exact absurd hends (not_ends_redirects p v)
  | succ n ih =>
    rw [discard] at hends
    rw [discard, discard]
    have hr (p : Pointer) : Prolongs (Γ.discard n · p) (Γ.discard (n + 1) · p) := fun v => ih
    split at hends
    · next hw =>
      rw [if_pos hw, if_pos hw]
      exact deleteTokens_prolongs hr p.tokens v hends
    · next hw =>
      rw [if_neg hw, if_neg hw]
      exact deleteSteered_prolongs hr (fun _ _ => rfl) p v hends

end Schema

end DocPointer
