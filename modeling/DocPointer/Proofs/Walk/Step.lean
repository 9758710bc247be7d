/-
  One step of a walk that changes things.

  Whatever is to be done below, going down one step from a value comes to one of three
  things (`Step`): it stops and leaves the value as it was, or the change is complete, or
  it leads to a `Place`, a part of the value with the way back.  Steps go one under the
  other (`Step.under`, `Step.comp`), and they keep changes atomic (`Step.atomic`) and
  values fitting (`Step.fits`).

  * `allocating_step` and `onTarget_step` pass through pointers.
  * `embed_step` and `prune_step` go down a path of fields.
-/
import DocPointer.Proofs.Document.Faces
import DocPointer.Proofs.Walk.Store
import DocPointer.Walk.Descent

namespace DocPointer

/-- A well-formed JSON value. -/
def Val.IsJson (v : Val) : Prop := ∃ j : Json, v = .json j ∧ j.Wellformed

@[simp]
theorem Val.isJson_json {j : Json} : (Val.json j).IsJson ↔ j.Wellformed := by
  constructor
  · intro h
    obtain ⟨k, hk, hw⟩ := h
    cases hk
    exact hw
  · intro hw
    exact ⟨j, rfl, hw⟩

/-- `w` may stand where `v` stood: it has the type of `v`, and is well-formed JSON if `v`
    is. -/
def Val.Fits (v w : Val) : Prop := w.typeOf = v.typeOf ∧ (v.IsJson → w.IsJson)

theorem Val.Fits.refl (v : Val) : v.Fits v := ⟨rfl, id⟩

theorem Val.Fits.trans {u v w : Val} (h : u.Fits v) (h' : v.Fits w) : u.Fits w :=
  ⟨h'.1.trans h.1, fun hu => h'.2 (h.2 hu)⟩

theorem Val.eq_json_of_typeOf {v : Val} (h : v.typeOf = .json) : ∃ j, v = .json j := by
  cases v with
  | json j => exact ⟨j, rfl⟩
  | _ => cases h

/-! ## Places -/

/-- A part of a value.  `back` puts back what the part became, and `undo` what a failed
    change left of it. -/
structure Place where
  part : Val
  back : Val → Val
  undo : Val → Val

namespace Place

/-- The place of a part that was there before. -/
def old (part : Val) (back : Val → Val) : Place := ⟨part, back, back⟩

/-- The place of the whole value. -/
def here (v : Val) : Place := ⟨v, id, id⟩

/-- A place in the part of a place. -/
def under (P Q : Place) : Place := ⟨Q.part, P.back ∘ Q.back, P.undo ∘ Q.undo⟩

/-- What a change of the part is for the whole. -/
def run (P : Place) (f : Val → Outcome) : Outcome := (f P.part).within P.back P.undo

/-- The laws of a place of `v`: a part that was not changed is taken back exactly, and a
    part of the same type makes a whole of the same type, which is well-formed JSON if `v`
    and the part are. -/
structure Of (P : Place) (v : Val) : Prop where
  undo_part : P.undo P.part = v
  isJson_part : v.IsJson → P.part.IsJson
  typeOf_back {c : Val} : c.typeOf = P.part.typeOf → (P.back c).typeOf = v.typeOf
  isJson_back {c : Val} : v.IsJson → c.IsJson → (P.back c).IsJson

/-- A part that fits makes a whole that fits. -/
theorem Of.fits_back {P : Place} {v c : Val} (h : P.Of v) (hc : P.part.Fits c) :
    v.Fits (P.back c) :=
  ⟨h.typeOf_back hc.1, fun hv => h.isJson_back hv (hc.2 (h.isJson_part hv))⟩

theorem of_here (v : Val) : (here v).Of v := ⟨rfl, id, id, fun _ => id⟩

theorem Of.under {P Q : Place} {v : Val} (hP : P.Of v) (hQ : Q.Of P.part) : (P.under Q).Of v where
  undo_part := by
    show P.undo (Q.undo Q.part) = v
    rw [hQ.undo_part, hP.undo_part]
  isJson_part hv := hQ.isJson_part (hP.isJson_part hv)
  typeOf_back hc := hP.typeOf_back (hQ.typeOf_back hc)
  isJson_back hv hc := hP.isJson_back hv (hQ.isJson_back (hP.isJson_part hv) hc)

/-- The laws for a value that is no JSON, where types are all there is to keep. -/
theorem Of.of_typeOf {P : Place} {v : Val} (hu : P.undo P.part = v) (hv : v.typeOf ≠ .json)
    (hb : ∀ c, c.typeOf = P.part.typeOf → (P.back c).typeOf = v.typeOf) : P.Of v :=
  have hj (h : v.IsJson) : False := by
    obtain ⟨j, rfl, -⟩ := h
    exact hv rfl
  ⟨hu, fun h => (hj h).elim, hb _, fun h => (hj h).elim⟩

theorem run_under (P Q : Place) (f : Val → Outcome) :
    (Q.run f).within P.back P.undo = (P.under Q).run f := by
  obtain ⟨part, back, undo⟩ := Q
  simp only [run, under]
  obtain ⟨_ | _, v⟩ := f part <;> rfl

theorem run_here (v : Val) (f : Val → Outcome) : (here v).run f = f v := by
  simp only [run, here]
  obtain ⟨_ | _, w⟩ := f v <;> rfl

theorem run_old (part : Val) (back : Val → Val) (f : Val → Outcome) :
    (old part back).run f = (f part).inside back := (Attempt.inside_eq _ _).symm

/-- A change of a place in a part that was there before. -/
theorem run_inside (part : Val) (back : Val → Val) (Q : Place) (f : Val → Outcome) :
    (Q.run f).inside back = ((old part back).under Q).run f :=
  (Attempt.inside_eq _ _).trans (run_under (old part back) Q f)

end Place

/-! ## Steps -/

/-- What going down one step from `v` comes to, if `F f` is the change `f` of what is
    there as a change of the whole.  Only a step that is `final` may complete the change by
    itself, and `Sees w c` says how `c` is found in `w`. -/
inductive Step (v : Val) (F : (Val → Outcome) → Outcome) (final : Prop)
    (Sees : Val → Val → Prop) : Prop where
  | stops (s : Stop) (eq : ∀ f, F f = (.error s, v))
  | ends (w : Val) (eq : ∀ f, F f = .done w) (fits : v.Fits w) (h : final)
  | leads (P : Place) (eq : ∀ f, F f = P.run f) (of : P.Of v)
      (sees : ∀ c, P.part.Fits c → Sees (P.back c) c)

namespace Step

variable {v : Val} {F : (Val → Outcome) → Outcome} {final : Prop} {Sees Sees' : Val → Val → Prop}

/-- No step at all. -/
theorem here (eq : ∀ f, F f = f v) (h : ∀ c, v.Fits c → Sees c c) : Step v F final Sees :=
  .leads (.here v) (fun f => (eq f).trans (Place.run_here v f).symm) (Place.of_here v) h

/-- A step in the part of a place. -/
theorem under {P : Place} (hP : P.Of v) {G : (Val → Outcome) → Outcome}
    (hG : Step P.part G final Sees') (eq : ∀ f, F f = (G f).within P.back P.undo)
    (sees : ∀ w c, P.part.Fits w → Sees' w c → Sees (P.back w) c) : Step v F final Sees := by
  cases hG with
  | stops s hs =>
    refine .stops s ?_
    intro f
    rw [eq, hs, Attempt.within, hP.undo_part]
  | ends w hw fits h =>
    refine .ends (P.back w) ?_ (hP.fits_back fits) h
    intro f
    rw [eq, hw]
    rfl
  | leads Q hQ of found =>
    refine .leads (P.under Q) ?_ (hP.under of) ?_
    · intro f
      rw [eq, hQ, Place.run_under]
    · intro c hc
      exact sees _ _ (of.fits_back hc) (found c hc)

/-- A step in a part that was there before. -/
theorem underOld {part : Val} {back : Val → Val} (hP : (Place.old part back).Of v)
    {G : (Val → Outcome) → Outcome} (hG : Step part G final Sees')
    (eq : ∀ f, F f = (G f).inside back)
    (sees : ∀ w c, part.Fits w → Sees' w c → Sees (back w) c) : Step v F final Sees :=
  under hP hG (fun f => (eq f).trans (Attempt.inside_eq _ _)) sees

/-- One step after another. -/
theorem comp {G : Val → (Val → Outcome) → Outcome} {Sees'' : Val → Val → Prop}
    (hF : Step v F final Sees) (hG : ∀ w, Step w (G w) final Sees')
    (sees : ∀ u w c, Sees u w → Sees' w c → Sees'' u c) :
    Step v (fun f => F fun w => G w f) final Sees'' := by
  cases hF with
  | stops s hs => exact .stops s fun f => hs _
  | ends w hw fits h => exact .ends w (fun f => hw _) fits h
  | leads P hP of found =>
    exact under of (hG P.part) (fun f => hP _) fun w c hw hc => sees _ _ _ (found w hw) hc

theorem mono (h : Step v F final Sees) (hs : ∀ w c, Sees w c → Sees' w c) :
    Step v F final Sees' := by
  cases h with
  | stops s hs => exact .stops s hs
  | ends w hw fits h => exact .ends w hw fits h
  | leads P hP of found => exact .leads P hP of fun c hc => hs _ _ (found c hc)

/-- The change of a part that is there. -/
theorem old {part : Val} {back : Val → Val} (hP : (Place.old part back).Of v)
    (eq : ∀ f, F f = (f part).inside back)
    (sees : ∀ c, part.Fits c → Sees (back c) c) : Step v F final Sees :=
  .leads _ (fun f => (eq f).trans (Place.run_old _ _ f).symm) hP sees

/-- A step that failed left the value as it was, or a change of a part failed. -/
theorem of_error (h : Step v F final Sees) {f : Val → Outcome} {e : Stop} {w : Val}
    (he : F f = (.error e, w)) :
    w = v ∨ ∃ P : Place, P.Of v ∧ ∃ u, f P.part = (.error e, u) ∧ w = P.undo u := by
  cases h with
  | stops s hs => rw [hs] at he; cases he; exact .inl rfl
  | ends u hu => rw [hu] at he; cases he
  | leads P hP of =>
    rw [hP] at he
    exact .inr ⟨P, of, Attempt.within_error he⟩

/-- A step that worked has completed the change, or a change of a part worked. -/
theorem of_ok (h : Step v F final Sees) {f : Val → Outcome} {w : Val}
    (hw : F f = (.ok (), w)) :
    v.Fits w ∨ ∃ P : Place, P.Of v ∧ ∃ u, f P.part = (.ok (), u) ∧ w = P.back u := by
  cases h with
  | stops s hs => rw [hs] at hw; cases hw
  | ends u hu fits => rw [hu] at hw; cases hw; exact .inl fits
  | leads P hP of =>
    rw [hP] at hw
    exact .inr ⟨P, of, Attempt.within_ok hw⟩

/-- A step keeps a change to the type of a value. -/
theorem typeOf_eq (h : Step v F final Sees) {f : Val → Outcome}
    (hf : ∀ c u, f c = (.ok (), u) → u.typeOf = c.typeOf) {w : Val} (hw : F f = (.ok (), w)) :
    w.typeOf = v.typeOf := by
  rcases h.of_ok hw with hfit | ⟨P, hP, u, hu, rfl⟩
  · exact hfit.1
  · exact hP.typeOf_back (hf _ u hu)

/-- A step keeps a change to what fits. -/
theorem fits (h : Step v F final Sees) {f : Val → Outcome}
    (hf : ∀ {c u : Val}, f c = (.ok (), u) → c.Fits u) {w : Val} (hw : F f = (.ok (), w)) :
    v.Fits w := by
  rcases h.of_ok hw with hfit | ⟨P, hP, u, hu, rfl⟩
  · exact hfit
  · exact hP.fits_back (hf hu)

/-- A step keeps a change atomic. -/
theorem atomic (h : Step v F final Sees) {f : Val → Outcome} (hf : Atomic f) {e : Stop} {w : Val}
    (he : F f = (.error e, w)) : w = v := by
  rcases h.of_error he with rfl | ⟨P, hP, u, hu, rfl⟩
  · rfl
  · rw [hf _ e u hu, hP.undo_part]

end Step

namespace Schema

variable {Γ : Schema}

/-! ## Pointers -/

/-- The value has the same target. -/
def Aims (v w : Val) : Prop := v.target = w.target

theorem of_ptr (v : Val) : (Place.old v .ptr).Of (.ptr v) :=
  .of_typeOf rfl nofun fun _ => congrArg Ty.opt

theorem of_box (v : Val) : (Place.old v .box).Of (.box v) :=
  .of_typeOf rfl nofun fun _ => congrArg Ty.box

theorem of_held (v : Val) : (Place.old v .held).Of (.held v) := .of_typeOf rfl nofun fun _ _ => rfl

/-- The target that a nil pointer gets. -/
theorem of_nil (Γ : Schema) (t : Ty) :
    (Place.mk (Γ.zero t) .ptr fun v => Γ.cleared (.ptr v)).Of (.nil t) := by
  refine .of_typeOf ?_ nofun ?_
  · show Val.nil (Γ.zero t).typeOf = .nil t
    rw [typeOf_zero]
  · intro c hc
    show Ty.opt c.typeOf = .opt t
    rw [hc, typeOf_zero]

/-- The container that an empty holder gets. -/
theorem of_vacant (Γ : Schema) (shape : Shape) :
    (Place.mk (.json shape.container) .held fun v => Γ.cleared (.held v)).Of .vacant :=
  .of_typeOf rfl nofun fun _ _ => rfl

theorem onTarget_step (v : Val) : Step v (fun f => v.onTarget f) True Aims := by
  induction v using Val.target.induct with
  | case1 v ih => exact ih.underOld (of_ptr v) (fun _ => rfl) fun _ _ _ => id
  | case2 v ih => exact ih.underOld (of_box v) (fun _ => rfl) fun _ _ _ => id
  | case3 v ih => exact ih.underOld (of_held v) (fun _ => rfl) fun _ _ _ => id
  | case4 v => exact .here (fun f => by rw [Val.onTarget] <;> assumption) fun _ _ => rfl

theorem allocatingNew_step (shape : Shape) (t : Ty) :
    Step (Γ.zero t) (fun f => Γ.allocatingNew shape f t) False Aims := by
  induction t with
  | opt t ih => exact ih.under (of_nil Γ t) (fun _ => rfl) fun _ _ _ => id
  | box t ih => exact ih.underOld (of_box _) (fun _ => rfl) fun _ _ _ => id
  | holder => exact .leads _ (fun _ => rfl) (of_vacant Γ shape) fun _ _ => rfl
  | _ => exact .here (fun _ => rfl) fun _ _ => rfl

theorem allocating_step (shape : Shape) (v : Val) :
    Step v (fun f => Γ.allocating shape f v) False Aims := by
  induction v using Val.target.induct with
  | case1 v ih => exact ih.underOld (of_ptr v) (fun _ => rfl) fun _ _ _ => id
  | case2 v ih => exact ih.underOld (of_box v) (fun _ => rfl) fun _ _ _ => id
  | case3 v ih => exact ih.underOld (of_held v) (fun _ => rfl) fun _ _ _ => id
  | case4 v hp hb hh =>
    cases v with
    | nil t => exact (allocatingNew_step shape t).under (of_nil Γ t) (fun _ => rfl) fun _ _ _ => id
    | vacant => exact .leads _ (fun _ => rfl) (of_vacant Γ shape) fun _ _ => rfl
    | ptr v => exact absurd rfl (hp v)
    | box v => exact absurd rfl (hb v)
    | held v => exact absurd rfl (hh v)
    | _ => exact .here (fun _ => rfl) fun _ _ => rfl

/-! ## Fields -/

theorem of_field {v child : Val} {name : String} {fields : List Val} {i : Nat}
    (hv : Γ.node v = .record name fields) (hc : fields[i]? = some child) :
    (Place.old child fun c => v.withFields (fields.set i c)).Of v := by
  cases eq_of_node_record hv
  refine .of_typeOf ?_ nofun fun _ _ => rfl
  show Val.record name (fields.set i child) = .record name fields
  rw [set_of_getElem? hc]

/-- A record with another field shows the new field. -/
theorem node_withFields {v : Val} {name : String} {fields : List Val}
    (hv : Γ.node v = .record name fields) (fields' : List Val) :
    Γ.node (v.withFields fields') = .record name fields' := by
  cases eq_of_node_record hv
  rw [node, recordNode] at hv
  rw [Val.withFields, node, recordNode]
  split at hv
  · rfl
  · cases hv
  · split at hv
    · split at hv <;> cases hv
    · cases hv

theorem follow_set {v w c : Val} {name : String} {fields : List Val} {i : Nat} {path : List Nat}
    (hv : Γ.node v = .record name fields) (hi : i < fields.length) (hw : Γ.follow path w = some c) :
    Γ.follow (i :: path) (v.withFields (fields.set i w)) = some c := by
  have ht : (v.withFields (fields.set i w)).target = v.withFields (fields.set i w) := by
    cases eq_of_node_record hv
    rfl
  simp only [follow, ht, node_withFields hv, List.getElem?_set_self hi]
  exact hw

theorem embed_step (here : Pointer) (path : List Nat) (v : Val) :
    Step v (fun f => Γ.embed here f path v) False fun v c => Γ.follow path v = some c := by
  induction path generalizing v with
  | nil => exact .here (fun _ => rfl) fun _ _ => rfl
  | cons i path ih =>
    refine (allocating_step .map v).comp ?_
      fun u w c (hu : Aims u w) (hw : Γ.follow (i :: path) w = some c) => ?_
    · intro w
      cases hn : Γ.node w with
      | record name fields =>
        cases hc : fields[i]? with
        | none => exact .stops _ fun _ => by simp only [hc]; rfl
        | some child =>
          obtain ⟨hi, -⟩ := List.getElem?_eq_some_iff.1 hc
          exact (ih child).underOld (of_field hn hc) (fun _ => by simp only [hc])
            fun u c _ hu => follow_set hn hi hu
      | _ => exact .stops _ fun _ => rfl
    · rw [follow, hu]
      exact hw

theorem prune_step (path : List Nat) (v : Val) :
    Step v (fun f => Γ.prune f path v) True fun _ _ => True := by
  induction path generalizing v with
  | nil => exact .here (fun _ => rfl) fun _ _ => trivial
  | cons i path ih =>
    refine (onTarget_step v).comp ?_ fun u w c _ (_ : True) => trivial
    intro w
    cases hn : Γ.node w with
    | record name fields =>
      cases hc : fields[i]? with
      | none => exact .ends w (fun _ => by simp only [hc]) (.refl w) trivial
      | some child =>
        exact (ih child).underOld (of_field hn hc) (fun _ => by simp only [hc])
          fun _ _ _ => id
    | _ => exact .ends w (fun _ => rfl) (.refl w) trivial

end Schema

end DocPointer
