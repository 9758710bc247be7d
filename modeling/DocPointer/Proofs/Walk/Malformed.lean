/-
  Malformed pointers.

  A call whose pointer is malformed fails before it looks at the document, so no hook is asked
  and nothing is changed.  It reports the root, and no other failure does so with this cause: a
  walk may be led to a malformed pointer by a hook, but then stops there, behind the root.

  * `validate_eq_error`: which texts are malformed, and in which way.
  * `assignTokens_entered`, `deleteTokens_entered` and `resolveTokens_entered`: a step of a walk
    stops behind the root, or for another cause.
  * `malformed_rejected`: calls.
-/
import DocPointer.Proofs.Walk.Location

namespace DocPointer

/-! ## Malformed texts -/

namespace Pointer

/-- A tilde is not the first character of an escape. -/
def BareTilde (cs : List Char) : Prop :=
  ∃ before after, cs = before ++ '~' :: after ∧ after.head? ≠ some '0' ∧ after.head? ≠ some '1'

/-- What is wrong with a text: it starts neither with its end nor with a slash, or it starts with
    a slash and has a tilde that starts no escape. -/
def Breaks (cs : List Char) : Malformed → Prop
  | .start => cs ≠ [] ∧ cs.head? ≠ some '/'
  | .encoding => cs.head? = some '/' ∧ BareTilde cs

theorem bareTilde_cons {c : Char} {cs : List Char} (hc : c ≠ '~') :
    BareTilde (c :: cs) ↔ BareTilde cs := by
  constructor
  · rintro ⟨_ | ⟨b, before⟩, after, heq, h⟩
    · exact absurd (List.cons.inj heq).1 hc
    · exact ⟨before, after, (List.cons.inj heq).2, h⟩
  · rintro ⟨before, after, rfl, h⟩
    exact ⟨c :: before, after, rfl, h⟩

/-- An escape hides no tilde. -/
theorem bareTilde_escape {d : Char} {cs : List Char} (hd : d = '0' ∨ d = '1') :
    BareTilde ('~' :: d :: cs) ↔ BareTilde cs := by
  have hne : d ≠ '~' := by rcases hd with rfl | rfl <;> decide
  refine Iff.trans ?_ (bareTilde_cons hne)
  constructor
  · rintro ⟨_ | ⟨b, before⟩, after, heq, h₀, h₁⟩
    · cases heq
      rcases hd with rfl | rfl
      · exact absurd rfl h₀
      · exact absurd rfl h₁
    · exact ⟨before, after, (List.cons.inj heq).2, h₀, h₁⟩
  · rintro ⟨before, after, heq, h⟩
    exact ⟨'~' :: before, after, by rw [heq]; rfl, h⟩

theorem escapesComplete_iff (cs : List Char) : escapesComplete cs = false ↔ BareTilde cs := by
  fun_induction escapesComplete cs with
  | case1 => simp [BareTilde]
  | case2 cs ih => rw [bareTilde_escape (.inl rfl), ih]
  | case3 cs ih => rw [bareTilde_escape (.inr rfl), ih]
  | case4 cs h₀ h₁ =>
    refine iff_of_true rfl ⟨[], cs, rfl, ?_, ?_⟩
    · intro h
      obtain ⟨cs', rfl⟩ := List.head?_eq_some_iff.1 h
      exact h₀ cs' rfl
    · intro h
      obtain ⟨cs', rfl⟩ := List.head?_eq_some_iff.1 h
      exact h₁ cs' rfl
  | case5 c cs _ _ hne ih =>
    rw [ih, bareTilde_cons fun hc => hne hc]

/-- **The malformed texts** start wrong, or have a tilde that starts no escape. -/
theorem validate_eq_error {p : Pointer} {m : Malformed} :
    p.validate = .error m ↔ Breaks p.text.toList m := by
  rw [validate]
  generalize p.text.toList = cs
  fun_cases check cs with
  | case1 => cases m <;> simp [Breaks]
  | case2 cs he =>
    have hbare : ¬ BareTilde ('/' :: cs) := by
      rw [bareTilde_cons (by decide), ← escapesComplete_iff, he]
      decide
    cases m <;> simp [Breaks, hbare]
  | case3 cs he =>
    have hbare : BareTilde ('/' :: cs) := by
      rw [bareTilde_cons (by decide), ← escapesComplete_iff]
      exact Bool.eq_false_iff.2 he
    cases m <;> simp [Breaks, hbare]
  | case4 c cs hne =>
    have hc : c ≠ '/' := hne
    cases m <;> simp [Breaks, hc]

end Pointer

/-! ## Stops within a walk -/

/-- The stop is behind the root, or for another cause than a malformed pointer. -/
def Stop.Entered (s : Stop) : Prop :=
  ∀ m, s.fault = .malformedPointer m → s.current ≠ .root

/-- If the change fails, it does so within the walk. -/
def Outcome.Entered (out : Outcome) : Prop := ∀ s w, out = (.error s, w) → s.Entered

theorem Pointer.ofTokens_ne_root (t : Token) (ts : List Token) : ofTokens (t :: ts) ≠ root := by
  intro h
  have htext := toList_ofTokens_cons t ts
  rw [h] at htext
  cases htext

namespace Schema

open Samples

variable {Γ : Schema} {here p : Pointer} {s : Stop} {doc dst v w x : Val} {e : WalkError}
  {m : Malformed}

/-- A stop in front of a token is behind the root. -/
theorem entered_of_current (h : s.current = here) (hh : here ≠ .root) : s.Entered :=
  fun _ _ hroot => hh (h.symm.trans hroot)

/-- A slot that refuses a value does not do so for a pointer. -/
theorem Unfit.entered {e : Refusal} (h : Unfit e.fault) : (e.stop .root).Entered := by
  intro m hm
  replace hm : e.fault = .malformedPointer m := hm
  rw [hm] at h
  cases h

section
variable {f g : Val → Outcome}

/-- A change that fails in front of a token or at a part fails within the walk. -/
theorem entered_of_located {out : Outcome} (h : LocatedAt here f out) (hh : here ≠ .root)
    (hf : ∀ c, (f c).Entered) : out.Entered := by
  intro s w hout
  rcases h s w hout with hcurrent | ⟨c, u, hc⟩
  · exact entered_of_current hcurrent hh
  · exact hf c s u hc

theorem entered_inside {out : Outcome} (h : out.Entered) (back : Val → Val) :
    Outcome.Entered (out.inside back) := by
  intro s w hout
  obtain ⟨u, hu, -⟩ := Attempt.inside_error hout
  exact h s u hu

theorem entered_stop (hh : here ≠ .root) (fault : Fault) (container : Ty) (v : Val) :
    Outcome.Entered (.error ⟨fault, container, here⟩, v) := by
  intro s w hout
  cases hout
  exact entered_of_current rfl hh

theorem entered_done (v : Val) : Outcome.Entered (.done v) := nofun

/-- A walk without redirections left stops for that cause. -/
theorem entered_redirects (v : Val) : (Outcome.refuse here v .redirects).Entered := by
  intro s w hout m hm
  cases hout
  cases hm

end

section
variable {redirect : Val → Pointer → Val → Outcome}
  (hr : ∀ v p x, (redirect v p x).Entered)
include hr

theorem assignSteered_entered {go : Val → Val → Outcome} (hh : here ≠ .root)
    (hgo : ∀ v x, (go v x).Entered) (v x : Val) :
    (Γ.assignSteered redirect here v x go).Entered := by
  simp only [assignSteered]
  split
  · exact entered_stop hh _ _ _
  · exact entered_done _
  · split
    · exact entered_stop hh _ _ _
    · exact entered_inside (hr _ _ _) _
    · exact hgo _ _

theorem assignTokens_entered (ts : List Token) (v x : Val) :
    (Γ.assignTokens redirect ts v x).Entered := by
  induction ts generalizing v x with
  | nil =>
    intro s w hout
    rw [assignTokens] at hout
    generalize hs : Γ.store v x = out at hout
    obtain ⟨e | _, u⟩ := out
    · cases hout
      exact (unfit_of_store hs).entered
    · cases hout
  | cons t ts ih =>
    have hh : Pointer.ofTokens (t :: ts) ≠ .root := Pointer.ofTokens_ne_root t ts
    refine entered_of_located (allocating_located (fun w => .part w) _ v) hh fun w => ?_
    refine assignSteered_entered hr hh (fun w x => ?_) w x
    exact entered_of_located (descend_located t w) hh fun c => ih c x

end

theorem place_entered (n : Nat) (v : Val) (p : Pointer) (x : Val) : (Γ.place n v p x).Entered := by
  induction n generalizing v p x with
  | zero => exact entered_redirects v
  | succ n ih =>
    rw [place]
    split
    · exact assignTokens_entered ih _ v x
    · next hp =>
      have hh : p ≠ .root := by
        rintro rfl
        exact hp (.inl rfl)
      exact assignSteered_entered ih hh (fun v _ => entered_stop hh _ _ v) v x

section
variable {redirect : Val → Pointer → Outcome} (hr : ∀ v p, (redirect v p).Entered)
include hr

theorem deleteSteered_entered {go : Val → Outcome} (hh : here ≠ .root)
    (hgo : ∀ v, (go v).Entered) (v : Val) : (Γ.deleteSteered redirect here v go).Entered := by
  simp only [deleteSteered]
  split
  · exact entered_stop hh _ _ _
  · exact entered_done _
  · split
    · exact entered_stop hh _ _ _
    · exact entered_inside (hr _ _) _
    · exact hgo _

theorem deleteTokens_entered (ts : List Token) (v : Val) :
    (Γ.deleteTokens redirect ts v).Entered := by
  induction ts generalizing v with
  | nil => exact entered_done _
  | cons t ts ih =>
    have hh : Pointer.ofTokens (t :: ts) ≠ .root := Pointer.ofTokens_ne_root t ts
    refine entered_of_located (onTarget_located (fun w => .part w) v) hh fun w => ?_
    refine deleteSteered_entered hr hh (fun w => ?_) w
    exact entered_of_located (remove_located t _ w) hh ih

end

theorem discard_entered (n : Nat) (v : Val) (p : Pointer) : (Γ.discard n v p).Entered := by
  induction n generalizing v p with
  | zero => exact entered_redirects v
  | succ n ih =>
    rw [discard]
    split
    · exact deleteTokens_entered ih _ v
    · next hp =>
      have hh : p ≠ .root := by
        rintro rfl
        exact hp (.inl rfl)
      exact deleteSteered_entered ih hh (fun v => entered_stop hh _ _ v) v

theorem resolveTokens_entered {redirect : Val → Pointer → Except Stop Val}
    (hr : ∀ v p s, redirect v p = .error s → s.Entered) (ts : List Token) (v : Val)
    (h : Γ.resolveTokens redirect ts v = .error s) : s.Entered := by
  induction ts generalizing v with
  | nil => cases h
  | cons t ts ih =>
    have hh : Pointer.ofTokens (t :: ts) ≠ .root := Pointer.ofTokens_ne_root t ts
    simp only [resolveTokens] at h
    split at h
    · cases h
      exact entered_of_current rfl hh
    · exact hr _ _ _ h
    · split at h
      · cases h
        exact entered_of_current rfl hh
      · exact ih _ h

theorem find_entered (n : Nat) (v : Val) (p : Pointer) (h : Γ.find n v p = .error s) :
    s.Entered := by
  induction n generalizing v p s with
  | zero =>
    cases h
    exact fun m hm => by cases hm
  | succ n ih =>
    rw [find] at h
    split at h
    · exact resolveTokens_entered (fun v p s h => ih v p h) _ v h
    · next hp =>
      have hh : p ≠ .root := by
        rintro rfl
        exact hp (.inl rfl)
      split at h
      · cases h
        exact entered_of_current rfl hh
      · exact ih _ _ h
      · cases h
        exact entered_of_current rfl hh

/-! ## Calls -/

/-- The failure of a call for its pointer, with the type `container` in the report. -/
def malformed (op : Operation) (p : Pointer) (m : Malformed) (container : Ty) : WalkError :=
  ⟨op, p, ⟨.malformedPointer m, container, .root⟩⟩

/-- A call fails for its pointer if and only if this is malformed; then it reports the type
    `container` and leaves `self`. -/
def Rejects (op : Operation) (p : Pointer) (container : Ty) (self : Val)
    (call : Except WalkError Unit × Val) : Prop :=
  ∀ m t w, call = (.error (malformed op p m t), w) ↔
    p.validate = .error m ∧ t = container ∧ w = self

section
variable {op : Operation} {t : Ty} {call : Except WalkError Unit × Val}

theorem rejects_of_error (hp : p.validate = .error m)
    (h : call = (.error (malformed op p m t), v)) : Rejects op p t v call := by
  intro m' t' w
  rw [h, hp]
  constructor
  · intro heq
    cases heq
    exact ⟨rfl, rfl, rfl⟩
  · rintro ⟨hm, rfl, rfl⟩
    cases hm
    rfl

/-- No walk fails for the pointer of its call. -/
theorem rejects_of_ok (hp : p.validate = .ok ())
    (h : ∀ s, call.1 = .error ⟨op, p, s⟩ → s.Entered) : Rejects op p t v call := by
  intro m t' w
  rw [hp]
  refine ⟨fun heq => ?_, nofun⟩
  exact absurd rfl (h _ (congrArg Prod.fst heq) m rfl)

theorem rejects_of_report {out : Outcome} (hp : p.validate = .ok ()) (h : out.Entered) :
    Rejects op p t v (report op p out) := by
  refine rejects_of_ok hp fun s hs => ?_
  obtain ⟨s' | _, w⟩ := out
  · cases hs
    exact h _ w rfl
  · cases hs

end

theorem assign_rejects (doc : Val) (p : Pointer) (x : Val) :
    Rejects .assigning p doc.typeOf doc (Γ.assign doc p x) := by
  cases hp : p.validate with
  | error m =>
    refine rejects_of_error hp ?_
    rw [assign, hp]
    rfl
  | ok _ =>
    rw [assign_eq hp]
    exact rejects_of_report hp (assignTokens_entered (place_entered _) _ doc x)

theorem delete_rejects (doc : Val) (p : Pointer) :
    Rejects .deleting p doc.typeOf doc (Γ.delete doc p) := by
  cases hp : p.validate with
  | error m =>
    refine rejects_of_error hp ?_
    rw [delete, hp]
    rfl
  | ok _ =>
    rw [delete_eq hp]
    exact rejects_of_report hp (deleteTokens_entered (discard_entered _) _ doc)

theorem resolve_rejects (doc dst : Val) (p : Pointer) :
    Rejects .resolving p dst.typeOf dst (Γ.resolve doc dst p) := by
  cases hp : p.validate with
  | error m =>
    refine rejects_of_error hp ?_
    rw [resolve, hp]
    rfl
  | ok _ =>
    refine rejects_of_ok hp fun s hs => ?_
    rw [resolve_eq hp] at hs
    split at hs
    · next s' hseek =>
      cases hs
      exact find_entered _ doc p hseek
    · next y _ =>
      generalize hout : Γ.deliver dst y = out at hs
      obtain ⟨e | _, w⟩ := out
      · cases hs
        exact (unfit_of_deliver hout).entered
      · cases hs

/-- **A call fails for its pointer if and only if this is malformed**, whatever the documents are
    and whichever hooks they have, and then changes nothing.  An assign and a delete report the
    type of the document, a resolve that of the destination. -/
theorem malformed_rejected (Γ : Schema) (doc dst x : Val) (p : Pointer) :
    Rejects .assigning p doc.typeOf doc (Γ.assign doc p x) ∧
    (∀ x?, Rejects (if x?.isSome then .assigning else .deleting) p doc.typeOf doc
      (Γ.assign? doc p x?)) ∧
    Rejects .deleting p doc.typeOf doc (Γ.delete doc p) ∧
    Rejects .resolving p dst.typeOf dst (Γ.resolve doc dst p) := by
  refine ⟨assign_rejects doc p x, fun x? => ?_, delete_rejects doc p, resolve_rejects doc dst p⟩
  cases x? with
  | some x => exact assign_rejects doc p x
  | none => exact delete_rejects doc p

/-- A resolve with a malformed pointer from a number into a text does not report the number, as
    an assign of the text to the number does. -/
theorem destination_reported :
    let p : Pointer := ⟨"x"⟩
    p.validate = .error .start ∧
    jobs.assign (.int .i64 1) p (.string "") =
      (.error (malformed .assigning p .start i64), .int .i64 1) ∧
    jobs.resolve (.int .i64 1) (.string "") p =
      (.error (malformed .resolving p .start .string), .string "") ∧
    ∀ w, jobs.resolve (.int .i64 1) (.string "") p ≠
      (.error (malformed .resolving p .start i64), w) := by
  refine ⟨rfl, rfl, rfl, fun w h => ?_⟩
  cases congrArg Prod.fst h

end Schema

end DocPointer
