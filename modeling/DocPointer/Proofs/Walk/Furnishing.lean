/-
  What an assign goes down to.

  An assign makes what is missing on its way: targets of nil pointers, containers in place of
  null, new entries and elements.  It goes down to them as to what is there: which part comes next
  does not depend on what is to be assigned (`Schema.ground`, `Schema.pick`).

  * `step_goes`: an assign goes down one step to the part that is there or is made, or stops
    because the container has no place for the token (`Bars`).
  * `assignTokens_error`: an assign that fails is barred at one of its steps, or its slot refuses
    the value.
-/
import DocPointer.Proofs.Walk.Composition
import DocPointer.Proofs.Walk.Putting

namespace DocPointer.Schema

section
variable (Γ : Schema)

/-- What is behind the pointers of a new value of a type, when they get targets. -/
def furnishedNew (shape : Shape) : Ty → Val
  | .opt t => furnishedNew shape t
  | .box t => furnishedNew shape t
  | .holder => .json shape.container
  | t => Γ.zero t

/-- What is behind the pointers of a value, when those that are nil get targets. -/
def furnished (shape : Shape) : Val → Val
  | .nil t => Γ.furnishedNew shape t
  | .ptr v => furnished shape v
  | .box v => furnished shape v
  | .vacant => .json shape.container
  | .held v => furnished shape v
  | v => v

/-- The value at the end of a path of fields, when nil pointers on the way get targets. -/
def delve : List Nat → Val → Option Val
  | [], v => some v
  | i :: path, v =>
    match Γ.node (Γ.furnished .map v) with
    | .record _ fields => fields[i]?.bind (delve path)
    | _ => none

/-- The part that an assign goes down to by a token, for a value that is neither null, nor a
    pointer that leads somewhere, nor a region. -/
def pickBare (t : Token) (v : Val) : Option Val :=
  match Γ.node v with
  | .record name _ => (Γ.fieldPath name t).toOption.bind (Γ.delve · v)
  | .map key _ elem entries =>
    (key.ofToken t.decoded).toOption.map fun k => (Entries.get? k entries).getD (Γ.zero elem)
  | .slice elem gap items =>
    (t.index items.length).toOption.bind fun i =>
      if i = items.length then some (Γ.zero elem) else elem? gap items i
  | .array gap items => (t.existing items.length).toOption.bind (elem? gap items)
  | _ => none

/-- The container that is made in place of null for a token. -/
def madeFor (t : Token) : Json → Json
  | .null => (Shape.ofToken t).container
  | j => j

/-- The container in which an assign goes down by a token. -/
def ground (t : Token) (v : Val) : Option Val :=
  match Γ.furnished (Shape.ofToken t) v with
  | .raw bytes => (Γ.regionValue? bytes).map fun j => .json (madeFor t j)
  | .json j => some (.json (madeFor t j))
  | w => some w

/-- The part that an assign goes down to by a token. -/
def pick (t : Token) (v : Val) : Option Val := (Γ.ground t v).bind (Γ.pickBare t)

/-- The value that an assign goes down to by a list of tokens. -/
def picked : List Token → Val → Option Val
  | [], v => some v
  | t :: ts, v => (Γ.pick t v).bind (picked ts)

/-- The stop `s` of an assign in front of the token `t`, to be taken in the container `w?`: the
    token names no position of a sequence, or the cause is another. -/
inductive Bars (here : Pointer) (t : Token) (w? : Option Val) (s : Stop) : Prop where
  | slice {w : Val} {elem : Ty} {gap : Option Nat} {items : List Val} {e : IndexError} :
      w? = some w → Γ.node w = .slice elem gap items → t.index items.length = .error e →
      s = ⟨.index e, w.typeOf, here⟩ → Bars here t w? s
  | array {w : Val} {gap : Option Nat} {items : List Val} {e : IndexError} :
      w? = some w → Γ.node w = .array gap items → t.existing items.length = .error e →
      s = ⟨.index e, w.typeOf, here⟩ → Bars here t w? s
  | other : s.fault.isOutOfRange = false → Bars here t w? s

end

/-! ## Going down -/

/-- What going down one step comes to, if `F f` is the change `f` of the part as a change of the
    whole: it leads to a part, whatever is done there, or it stops. -/
inductive Goes (own : Stop → Prop) (F : (Val → Outcome) → Outcome) : Option Val → Prop where
  | down (P : Place) : P.Serves F → Goes own F (some P.part)
  | stops (s : Stop) (w : Val) : own s → (∀ f, F f = (.error s, w)) → Goes own F none

namespace Goes

variable {own own' : Stop → Prop} {F : (Val → Outcome) → Outcome} {c? : Option Val} {v w c : Val}

theorem within (h : Goes own F c?) (back undo : Val → Val) :
    Goes own (fun f => (F f).within back undo) c? := by
  cases h with
  | down P hP => exact .down ((Place.mk P.part back undo).under P) (hP.within _)
  | stops s w hs hF =>
    refine .stops s (undo w) hs fun f => ?_
    rw [hF]
    rfl

theorem inside (h : Goes own F c?) (back : Val → Val) :
    Goes own (fun f => (F f).inside back) c? := by
  simp only [Attempt.inside_eq]
  exact h.within back back

theorem here (v : Val) : Goes own (fun f => f v) (some v) := .down _ (Place.serves_here v)

theorem refuse {here : Pointer} {fault : Fault} (h : own ⟨fault, v.typeOf, here⟩) :
    Goes own (fun _ => .refuse here v fault) none := .stops _ v h fun _ => rfl

theorem comp {G : Val → (Val → Outcome) → Outcome} (hF : Goes own F (some w))
    (hG : Goes own (G w) c?) : Goes own (fun f => F fun u => G u f) c? := by
  cases hF with
  | down P hP =>
    cases hG with
    | down Q hQ => exact .down (P.under Q) (hP.comp hQ)
    | stops s w hs hG =>
      refine .stops s (P.undo w) hs fun f => ?_
      rw [hP, Place.run, hG]
      rfl

theorem mono (h : Goes own F c?) (hs : ∀ s, own s → own' s) : Goes own' F c? := by
  cases h with
  | down P hP => exact .down P hP
  | stops s w h hF => exact .stops s w (hs s h) hF

/-- A change that fails stops on the way, or fails at the part. -/
theorem of_error (h : Goes own F c?) {f : Val → Outcome} {s : Stop} (hf : F f = (.error s, v)) :
    own s ∨ ∃ c u, c? = some c ∧ f c = (.error s, u) := by
  cases h with
  | down P hP =>
    obtain ⟨u, hu, -⟩ := Attempt.within_error ((hP f).symm.trans hf)
    exact .inr ⟨_, u, rfl, hu⟩
  | stops s' w hs hF =>
    cases (hF f).symm.trans hf
    exact .inl hs

end Goes

variable {Γ : Schema} {own : Stop → Prop} {t : Token} {ts : List Token} {v w c x : Val} {s : Stop}

theorem allocatingNew_goes (shape : Shape) (t : Ty) :
    Goes own (fun f => Γ.allocatingNew shape f t) (some (Γ.furnishedNew shape t)) := by
  induction t with
  | opt t ih => exact ih.within _ _
  | box t ih => exact ih.inside _
  | holder => exact (Goes.here _).within _ _
  | _ => exact .here _

theorem allocating_goes (shape : Shape) (v : Val) :
    Goes own (fun f => Γ.allocating shape f v) (some (Γ.furnished shape v)) := by
  induction v using Val.target.induct with
  | case1 v ih | case2 v ih | case3 v ih => exact ih.inside _
  | case4 v hp hb hh =>
    cases v with
    | nil t => exact (allocatingNew_goes shape t).within _ _
    | vacant => exact (Goes.here _).within _ _
    | ptr v => exact absurd rfl (hp v)
    | box v => exact absurd rfl (hb v)
    | held v => exact absurd rfl (hh v)
    | _ => exact .here _

theorem embed_goes (here : Pointer) (path : List Nat) (v : Val) :
    Goes (fun s => s.fault.isOutOfRange = false) (fun f => Γ.embed here f path v)
      (Γ.delve path v) := by
  induction path generalizing v with
  | nil => exact .here v
  | cons i path ih =>
    refine Goes.comp (allocating_goes .map v) ?_
    rw [delve]
    cases hn : Γ.node (Γ.furnished .map v) with
    | record name fields =>
      cases hc : fields[i]? with
      | none =>
        simp only [hc]
        exact .refuse rfl
      | some child =>
        simp only [hc]
        exact (ih child).inside _
    | _ => exact .refuse rfl

/-- A field that is not found is no position. -/
theorem inRange_of_fieldPath {name : String} {fault : Fault}
    (h : Γ.fieldPath name t = .error fault) : fault.isOutOfRange = false := by
  rw [fieldPath] at h
  split at h <;> cases h <;> rfl

section
variable {name : String} {fields items : List Val} {key : KeyTy} {order : EntryOrder} {elem : Ty}
  {entries : Entries Val} {gap : Option Nat}

theorem field_goes (hn : Γ.node w = .record name fields) (here : Pointer) (t : Token) :
    Goes (Γ.Bars here t (some w)) (fun f => Γ.descendBare here t f w)
      (Γ.pickBare t w) := by
  cases hp : Γ.fieldPath name t with
  | error fault =>
    simp only [descendBare, pickBare, hn, hp]
    exact .refuse (.other (inRange_of_fieldPath hp))
  | ok path =>
    simp only [descendBare_embed hn hp, pickBare, hn, hp, Except.toOption, Option.bind_some]
    exact (embed_goes here path w).mono fun s => .other

theorem entry_goes (hn : Γ.node w = .map key order elem entries) (here : Pointer) (t : Token) :
    Goes (Γ.Bars here t (some w)) (fun f => Γ.descendBare here t f w)
      (Γ.pickBare t w) := by
  simp only [descendBare, pickBare, hn]
  cases hk : key.ofToken t.decoded with
  | error e =>
    refine .refuse (.other ?_)
    cases e <;> rfl
  | ok k =>
    cases hc : Entries.get? k entries with
    | some child =>
      simp only [Except.toOption, Option.map_some, hc]
      exact (Goes.here child).inside _
    | none =>
      simp only [Except.toOption, Option.map_some, hc]
      exact (Goes.here _).within _ _

theorem item_goes (hn : Γ.node w = .slice elem gap items) (here : Pointer) (t : Token) :
    Goes (Γ.Bars here t (some w)) (fun f => Γ.descendBare here t f w)
      (Γ.pickBare t w) := by
  simp only [descendBare, pickBare, hn]
  cases hi : t.index items.length with
  | error e =>
    exact .refuse (.slice rfl hn hi rfl)
  | ok i =>
    simp only [Except.toOption, Option.bind_some]
    by_cases hlast : i = items.length
    · simp only [hlast, if_true]
      exact (Goes.here _).within _ _
    · simp only [hlast, if_false]
      cases hc : elem? gap items i with
      | some child => exact (Goes.here child).inside _
      | none => exact .refuse (.other rfl)

theorem arrayItem_goes (hn : Γ.node w = .array gap items) (here : Pointer) (t : Token) :
    Goes (Γ.Bars here t (some w)) (fun f => Γ.descendBare here t f w)
      (Γ.pickBare t w) := by
  simp only [descendBare, pickBare, hn]
  cases hi : t.existing items.length with
  | error e =>
    exact .refuse (.array rfl hn hi rfl)
  | ok i =>
    simp only [Except.toOption, Option.bind_some]
    cases hc : elem? gap items i with
    | some child => exact (Goes.here child).inside _
    | none => exact .refuse (.other rfl)

end

theorem descendBare_goes (here : Pointer) (t : Token) (w : Val) :
    Goes (Γ.Bars here t (some w)) (fun f => Γ.descendBare here t f w)
      (Γ.pickBare t w) := by
  cases hn : Γ.node w with
  | record name fields => exact field_goes hn here t
  | map key order elem entries => exact entry_goes hn here t
  | slice elem gap items => exact item_goes hn here t
  | array gap items => exact arrayItem_goes hn here t
  | «sealed» full =>
    simp only [descendBare, pickBare, hn]
    cases full <;> exact .refuse (.other rfl)
  | _ =>
    simp only [descendBare, pickBare, hn]
    exact .refuse (.other rfl)

theorem descendJson_goes (here : Pointer) (t : Token) (j : Json) :
    Goes (Γ.Bars here t (some (.json (madeFor t j))))
      (fun f => Γ.descendJson here t f j) (Γ.pickBare t (.json (madeFor t j))) := by
  cases j with
  | null => exact (descendBare_goes here t _).within _ _
  | _ => exact descendBare_goes here t _

/-- **An assign goes down one step** to a part that is there or is made, or it stops. -/
theorem step_goes (here : Pointer) (t : Token) (v : Val) :
    Goes (Γ.Bars here t (Γ.ground t v))
      (fun f => Γ.allocating (Shape.ofToken t) (fun w => Γ.descend here t f w) v)
      (Γ.pick t v) := by
  refine Goes.comp (allocating_goes (Shape.ofToken t) v) ?_
  rw [pick, ground]
  cases Γ.furnished (Shape.ofToken t) v with
  | raw bytes =>
    simp only [descend]
    cases Γ.regionValue? bytes with
    | none => exact .refuse (.other rfl)
    | some j => exact (descendJson_goes here t j).within _ _
  | json j => exact descendJson_goes here t j
  | _ => exact descendBare_goes here t _

/-! ## Walks -/

/-- **An assign that fails** is barred at a step, or the slot to which it leads refuses the
    value. -/
theorem assignTokens_error (hΓ : Γ.Plain) {redirect : Val → Pointer → Val → Outcome}
    (h : Γ.assignTokens redirect ts v x = (.error s, w)) :
    (∃ us t vs c, ts = us ++ t :: vs ∧ Γ.picked us v = some c ∧
      Γ.Bars (.ofTokens (t :: vs)) t (Γ.ground t c) s) ∨
    ∃ c r u, Γ.picked ts v = some c ∧ Γ.store c x = (.error r, u) ∧ s = r.stop .root := by
  induction ts generalizing v w with
  | nil =>
    rw [assignTokens] at h
    generalize hout : Γ.store v x = out at h
    obtain ⟨r | _, u⟩ := out
    · cases h
      exact .inr ⟨v, r, w, rfl, hout, rfl⟩
    · cases h
  | cons t ts ih =>
    rw [hΓ.assignTokens_cons] at h
    have hstep := step_goes (Γ := Γ) (.ofTokens (t :: ts)) t v
    rcases hstep.of_error h with hs | ⟨d, u, hd, hu⟩
    · exact .inl ⟨[], t, ts, v, rfl, rfl, hs⟩
    · rcases ih hu with ⟨us, t', vs, c, rfl, hc, hs⟩ | ⟨c, r, u', hc, hr, hs⟩
      · exact .inl ⟨t :: us, t', vs, c, rfl, Option.bind_eq_some_iff.2 ⟨d, hd, hc⟩, hs⟩
      · exact .inr ⟨c, r, u', Option.bind_eq_some_iff.2 ⟨d, hd, hc⟩, hr, hs⟩

end DocPointer.Schema
