/-
  Values behind pointers and destinations behind pointers.

  A destination passes what it does not take to its own target, and what none of its levels
  takes is tried without its outermost pointer.  Both go on until the types meet: a value is
  delivered from behind any chain of pointers and holders to behind any other pointers
  (`Ty.around`).

  * `store_behind`: a destination takes a chain of pointers whole, or refuses it and is as it was.
  * `deliver_behind`: by induction on the chain, the value at its end is delivered.
  * `deliver_nothing`: a chain that ends in nil leaves a destination without pointers alone.
  * `resolve_behind`: calls.
-/
import DocPointer.Proofs.Walk.Composition

namespace DocPointer

/-! ## Pointers around a value -/

/-- The value `x` behind the pointers of a type, none of them nil. -/
def Ty.around (x : Val) : Ty → Val
  | .opt t => .ptr (around x t)
  | .box t => .box (around x t)
  | _ => x

theorem Ty.around_of_hops {t : Ty} (h : t.hops = 0) (x : Val) : t.around x = x := by
  cases t with
  | opt t | box t => cases h
  | _ => rfl

theorem Ty.pointee_of_hops {t : Ty} (h : t.hops = 0) : t.pointee = t := by
  cases t with
  | opt t | box t => cases h
  | _ => rfl

/-- The value is a pointer or a holder, and leads nowhere. -/
inductive Val.IsNil : Val → Prop where
  | nil (t : Ty) : IsNil (.nil t)
  | vacant : IsNil .vacant

theorem Val.IsNil.typeOf_ne {u : Val} (h : u.IsNil) : u.typeOf ≠ .json ∧ u.typeOf ≠ .raw := by
  cases h <;> exact ⟨nofun, nofun⟩

namespace Schema

open Samples

/-- The type is no pointer, and neither JSON, decoded or not, nor a holder; and no record of
    the type presents itself as a pointer. -/
structure Bare (Γ : Schema) (t : Ty) : Prop where
  hops : t.hops = 0
  solid : t.Solid
  presentation {name : String} :
    t = .record name → ∀ full, (Γ.decl name).presentation ≠ .sealed full

variable {Γ : Schema} {doc slot u v x y : Val} {p : Pointer} {t : Ty}

theorem Bare.solid_of_pointee {s : Ty} (h : Γ.Bare t) (hs : s.pointee = t) : s.Solid := by
  rw [Ty.Solid, hs]
  exact h.solid.ne

theorem Bare.target (h : Γ.Bare x.typeOf) : x.target = x := by
  cases x with
  | ptr v | box v => cases h.hops
  | held v => exact absurd rfl h.solid.ne.2.2
  | _ => rfl

/-- Neither a chain of pointers to a value of a bare type nor one to nil is JSON. -/
theorem typeOf_ne_of_target (hv : v.target.typeOf ≠ .json ∧ v.target.typeOf ≠ .raw) :
    v.typeOf ≠ .json ∧ v.typeOf ≠ .raw := by
  cases v with
  | json j => exact absurd rfl hv.1
  | raw bytes => exact absurd rfl hv.2
  | _ => exact ⟨nofun, nofun⟩

/-- A chain of pointers of a type without holders is made of the pointers of the type. -/
theorem eq_around (hv : Γ.Bare v.target.typeOf) (ht : v.typeOf.pointee = v.target.typeOf) :
    v = v.typeOf.around v.target := by
  induction v using Val.target.induct with
  | case1 w ih => exact congrArg Val.ptr (ih hv ht)
  | case2 w ih => exact congrArg Val.box (ih hv ht)
  | case3 w ih => exact absurd ht.symm hv.solid.ne.2.2
  | case4 w =>
    have hw : w.target = w := by rw [Val.target] <;> assumption
    rw [hw] at hv ⊢
    exact (Ty.around_of_hops hv.hops w).symm

/-- Only a record has its target out of reach, and only by its declaration. -/
theorem sealed_of_node {b : Bool} (h : Γ.node v = .sealed b) :
    ∃ name full, v.typeOf = .record name ∧ (Γ.decl name).presentation = .sealed full := by
  cases v with
  | record name fields =>
    simp only [node, recordNode] at h
    split at h
    · cases h
    · next full hp => exact ⟨name, full, rfl, hp⟩
    · repeat' split at h
      all_goals cases h
  | json j => cases j <;> cases h
  | _ => cases h

/-! ## Storing a chain of pointers -/

/-- A slot of a bare type refuses a value of another type. -/
theorem settle_bare (ht : Γ.Bare slot.typeOf) (y : Val) : Γ.settle slot y =
    .refuse ⟨.notAssignable slot.typeOf y.typeOf, slot.typeOf⟩ slot := by
  have hbare : Γ.settle slot y = Γ.settleBare slot y := by
    rw [settle]
    rintro rfl
    exact ht.solid.ne.1 rfl
  rw [hbare, settleBare]
  split
  · next hn => exact absurd (congrArg Val.typeOf (eq_of_node_raw hn)) ht.solid.ne.2.1
  · next hn =>
    obtain ⟨name, full, hname, hsealed⟩ := sealed_of_node hn
    exact absurd hsealed (ht.presentation hname full)
  · rfl

/-- What a level takes at once it takes whole. -/
theorem offer_behind (hv : Γ.Bare v.target.typeOf) (ht : t.pointee = v.target.typeOf) :
    Γ.offer t v = some (.ok (t.around v.target)) ∨ Γ.offer t v = none ∧ v.typeOf ≠ t := by
  by_cases hne : v.typeOf = t
  · left
    subst hne
    rw [← eq_around hv ht]
    simp only [offer, adopts?, if_true]
  · have hsolid : t.Solid := hv.solid_of_pointee ht
    have hty := typeOf_ne_of_target ⟨hv.solid.ne.1, hv.solid.ne.2.1⟩
    exact .inr ⟨offer_eq_none hty ⟨hsolid.ne.1, hsolid.ne.2.2⟩ hne, hne⟩

/-- What is left of a chain of pointers by a destination that is for a value of type `t`: the
    value at the end of the chain, behind the pointers of the destination, or a refusal of a
    chain that is longer than the value. -/
def Lands (v : Val) (t : Ty) (out : Storing) : Prop :=
  out = .done (t.around v.target) ∨
    v.typeOf ≠ v.target.typeOf ∧ ∃ e w, out = (.error e, w) ∧ e.fault.isNotAssignable = true

theorem Lands.within {out : Storing} {s : Ty} {back undo : Val → Val} (h : Lands v t out)
    (hs : s.around v.target = back (t.around v.target)) : Lands v s (out.within back undo) := by
  rcases h with rfl | ⟨hne, e, w, rfl, he⟩
  · exact .inl (congrArg Attempt.done hs.symm)
  · exact .inr ⟨hne, e, _, rfl, he⟩

/-- A slot that is no pointer refuses the chain if it is longer than the value. -/
theorem lands_settle (hv : Γ.Bare v.target.typeOf) (ht : slot.typeOf.pointee = v.target.typeOf)
    (hhops : slot.typeOf.hops = 0) (ho : Γ.offer slot.typeOf v = none) :
    Lands v slot.typeOf (Γ.settle slot v) := by
  rw [Ty.pointee_of_hops hhops] at ht
  rcases offer_behind hv ((Ty.pointee_of_hops hhops).trans ht) with hd | ⟨-, hne⟩
  · cases hd.symm.trans ho
  · rw [settle_bare (ht ▸ hv)]
    exact .inr ⟨ht ▸ hne, _, _, rfl, rfl⟩

theorem lands_offer {e : Except Refusal Val} (hv : Γ.Bare v.target.typeOf)
    (ht : t.pointee = v.target.typeOf) (ho : Γ.offer t v = some e) :
    e = .ok (t.around v.target) := by
  rcases offer_behind hv ht with hd | ⟨hn, -⟩
  · exact (Option.some.inj (hd.symm.trans ho)).symm
  · cases hn.symm.trans ho

theorem fill_behind (hv : Γ.Bare v.target.typeOf) (ht : t.pointee = v.target.typeOf) :
    Lands v t (Γ.fill t v) := by
  fun_induction Γ.fill t v with
  | case1 t w ho =>
    cases lands_offer hv ht ho
    exact .inl rfl
  | case2 t e ho => cases lands_offer hv ht ho
  | case3 t _ ih => exact (ih ht).within rfl
  | case4 t _ ih =>
    rw [Attempt.inside_eq]
    exact (ih ht).within rfl
  | case5 t hopt hbox ho =>
    have hhops : (Γ.zero t).typeOf.hops = 0 := by
      rw [typeOf_zero]
      cases t with
      | opt s => exact absurd rfl (hopt s)
      | box s => exact absurd rfl (hbox s)
      | _ => rfl
    have hland : Lands v (Γ.zero t).typeOf (Γ.settle (Γ.zero t) v) :=
      lands_settle hv (by rwa [typeOf_zero]) hhops (by rwa [typeOf_zero])
    rwa [typeOf_zero] at hland

/-- **A destination takes a chain of pointers whole, or refuses it.** -/
theorem store_behind (hv : Γ.Bare v.target.typeOf) (ht : slot.typeOf.pointee = v.target.typeOf) :
    Lands v slot.typeOf (Γ.store slot v) := by
  fun_induction Γ.store slot v with
  | case1 slot w ho =>
    cases lands_offer hv ht ho
    exact .inl rfl
  | case2 slot e ho => cases lands_offer hv ht ho
  | case3 t => exact Lands.within (t := t) (fill_behind hv ht) rfl
  | case4 w _ ih =>
    rw [Attempt.inside_eq]
    exact Lands.within (t := w.typeOf) (ih ht) rfl
  | case5 w _ ih =>
    rw [Attempt.inside_eq]
    exact Lands.within (t := w.typeOf) (ih ht) rfl
  | case6 slot hnil hptr hbox ho =>
    have hhops : slot.typeOf.hops = 0 := by
      cases slot with
      | nil s => exact absurd rfl (hnil s)
      | ptr s => exact absurd rfl (hptr s)
      | box s => exact absurd rfl (hbox s)
      | _ => rfl
    exact lands_settle hv ht hhops ho

/-! ## Delivering -/

/-- A refused chain of pointers is tried without its outermost pointer. -/
theorem deliver_peel (hv : Γ.Bare w.target.typeOf) (ht : slot.typeOf.pointee = w.target.typeOf)
    (hw : w = .ptr v ∨ w = .box v ∨ w = .held v)
    (ih : Γ.deliver slot v = .done (slot.typeOf.around v.target)) :
    Γ.deliver slot w = .done (slot.typeOf.around w.target) := by
  rcases store_behind hv ht with hd | ⟨-, e, u, he, hf⟩
  · exact deliver_of_store hd
  · obtain rfl := store_atomic w slot e u he
    rw [deliver_inner hw ⟨e, he, hf⟩, ih]
    rcases hw with rfl | rfl | rfl <;> rfl

/-- **The value at the end of a chain of pointers is delivered** behind the pointers of the
    destination, whatever was there. -/
theorem deliver_behind (hv : Γ.Bare v.target.typeOf) (ht : slot.typeOf.pointee = v.target.typeOf) :
    Γ.deliver slot v = .done (slot.typeOf.around v.target) := by
  induction v using Val.target.induct with
  | case1 w ih => exact deliver_peel hv ht (.inl rfl) (ih hv ht)
  | case2 w ih => exact deliver_peel hv ht (.inr (.inl rfl)) (ih hv ht)
  | case3 w ih => exact deliver_peel hv ht (.inr (.inr rfl)) (ih hv ht)
  | case4 w =>
    have hw : w.target = w := by rw [Val.target] <;> assumption
    rcases store_behind hv ht with hd | ⟨hne, -⟩
    · exact deliver_of_store hd
    · rw [hw] at hne
      exact absurd rfl hne

/-- A slot of a bare type refuses every part of a chain that ends in nil. -/
theorem store_nothing (ht : Γ.Bare slot.typeOf) (hv : v.target.IsNil) : Γ.store slot v =
    .refuse ⟨.notAssignable slot.typeOf v.typeOf, slot.typeOf⟩ slot := by
  have hne : v.typeOf ≠ slot.typeOf := by
    intro h
    cases v with
    | nil t | ptr v | box v =>
      have hhops := ht.hops
      rw [← h] at hhops
      cases hhops
    | vacant | held v => exact ht.solid.ne.2.2 h.symm
    | _ => cases hv
  have hty := typeOf_ne_of_target hv.typeOf_ne
  have ho : Γ.offer slot.typeOf v = none := offer_eq_none hty ⟨ht.solid.ne.1, ht.solid.ne.2.2⟩ hne
  rw [← settle_bare ht v, store, ho]
  -- a slot of a bare type is no pointer
  all_goals
    rintro w rfl
    cases ht.hops

/-- A chain that ends in nil is refused to its end. -/
theorem deliver_nothing (ht : Γ.Bare slot.typeOf) (hv : v.target.IsNil) : Γ.deliver slot v =
    .refuse ⟨.notAssignable slot.typeOf v.target.typeOf, slot.typeOf⟩ slot := by
  induction v using Val.target.induct with
  | case1 w ih | case2 w ih | case3 w ih =>
    rw [deliver, store_nothing ht hv]
    exact ih hv
  | case4 w =>
    have hw : w.target = w := by rw [Val.target] <;> assumption
    rw [hw] at hv ⊢
    rw [deliver, store_nothing ht (hw.symm ▸ hv)]
    cases hv <;> rfl

/-! ## Calls -/

/-- **A resolve sees through pointers on both sides.**  A value of a bare type that is found
    behind pointers and holders is stored behind the pointers of the destination, whether these
    are nil or not; what is found to be nil behind pointers and holders is not assigned to a
    destination of a bare type, which stays as it is. -/
theorem resolve_behind (hp : p.validate = .ok ()) (ht : Γ.Bare t) (h : Γ.Finds doc p v) :
    (v.target.typeOf = t → ∀ dst : Val, dst.typeOf.pointee = t →
      Γ.resolve doc dst p = (.ok (), dst.typeOf.around v.target)) ∧
    (v.target.IsNil → ∀ dst : Val, dst.typeOf = t → Γ.resolve doc dst p =
      (.error ⟨.resolving, p, ⟨.notAssignable t v.target.typeOf, t, .root⟩⟩, dst)) := by
  constructor
  · rintro rfl dst hdst
    exact resolve_of_finds hp h (deliver_behind ht hdst)
  · rintro hv dst rfl
    rw [resolve_eq hp, finds_iff.1 h]
    dsimp only
    rw [deliver_nothing ht hv]
    rfl

theorem bare_i64 : Γ.Bare i64 := ⟨rfl, ⟨nofun, nofun, nofun⟩, nofun⟩

/-- A number that a holder leads to, and a holder that leads to nil. -/
theorem resolve_behind_holders :
    let doc := Val.slice .holder [.held (.box (.ptr (.int .i64 7))), .held (.ptr (.nil i64))]
    jobs.resolve doc (.ptr (.nil (.box i64))) ⟨"/0"⟩ = (.ok (), .ptr (.ptr (.box (.int .i64 7)))) ∧
    jobs.resolve doc (.int .i64 3) ⟨"/1"⟩ =
      (.error ⟨.resolving, ⟨"/1"⟩, ⟨.notAssignable i64 (.opt i64), i64, .root⟩⟩, .int .i64 3) := by
  intro doc
  have hnumber : jobs.Finds doc ⟨"/0"⟩ (.held (.box (.ptr (.int .i64 7)))) := by rfl
  have hnil : jobs.Finds doc ⟨"/1"⟩ (.held (.ptr (.nil i64))) := by rfl
  exact ⟨(resolve_behind rfl bare_i64 hnumber).1 rfl (.ptr (.nil (.box i64))) rfl,
    (resolve_behind rfl bare_i64 hnil).2 (.nil i64) (.int .i64 3) rfl⟩

end Schema

end DocPointer
