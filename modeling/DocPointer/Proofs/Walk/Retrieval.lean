/-
  What was assigned is found again.

  A slot that takes a value holds it in one of a few forms (`Kept`): as it is, held, as
  JSON, spelled in a region, or one of these behind pointers.  From each form the value
  is delivered to a destination of its own type (`deliver_of_kept`).  The walk to the
  slot takes the tokens of the assign, but for those that named the position after the
  last element of a sequence and now have to spell it (`Schema.settled`).

  * `assignTokens_found`: by induction on the tokens, an assign that works leaves the
    value where the settled tokens lead to.
  * `resolve_of_assign`: so resolving there gives the value.
-/
import DocPointer.Proofs.Document.Encoding
import DocPointer.Proofs.Pointer.Tokens
import DocPointer.Proofs.Walk.Descent
import DocPointer.Walk.Assign

namespace DocPointer

/-! ## Types behind pointers -/

namespace Ty

/-- The type behind the pointers of a type. -/
def pointee : Ty → Ty
  | opt t => pointee t
  | box t => pointee t
  | t => t

/-- The number of pointers in front of it. -/
def hops : Ty → Nat
  | opt t => hops t + 1
  | box t => hops t + 1
  | _ => 0

/-- Behind the pointers there is neither JSON, decoded or not, nor a holder. -/
def Solid (t : Ty) : Prop := t.pointee ≠ .json ∧ t.pointee ≠ .raw ∧ t.pointee ≠ .holder

end Ty

theorem Ty.Solid.ne {t : Ty} (h : t.Solid) : t ≠ .json ∧ t ≠ .raw ∧ t ≠ .holder :=
  ⟨fun ht => h.1 (congrArg pointee ht), fun ht => h.2.1 (congrArg pointee ht),
    fun ht => h.2.2 (congrArg pointee ht)⟩

/-- `t` is not reached by passing through pointers of `s`. -/
def Ty.Misses (s t : Ty) : Prop := s.pointee ≠ t.pointee ∨ s.hops < t.hops

theorem Ty.Misses.ne {s t : Ty} (h : s.Misses t) : t ≠ s := by
  rintro rfl
  rcases h with h | h
  · exact h rfl
  · exact Nat.lt_irrefl _ h

/-- Neither is it behind the outermost pointer. -/
theorem Ty.Misses.inner {s s' t : Ty} (h : s'.Misses t) (hp : s'.pointee = s.pointee)
    (hh : s'.hops = s.hops + 1) : s.Misses t := by
  rcases h with h | h
  · exact .inl (hp ▸ h)
  · exact .inr (by omega)

namespace Schema

open Samples

variable {Γ : Schema} {x : Val}

/-! ## Slots that refuse -/

theorem offer_eq_none {t : Ty} {y : Val} (hy : y.typeOf ≠ .json ∧ y.typeOf ≠ .raw)
    (ht : t ≠ .json ∧ t ≠ .holder) (hne : y.typeOf ≠ t) : Γ.offer t y = none := by
  have hadopt : Γ.adopts? t y = none := by
    simp only [adopts?, hne, if_false]
    split
    · exact absurd rfl ht.1
    · exact absurd rfl ht.2
    · rfl
  simp only [offer, hadopt]
  split
  · exact absurd rfl hy.2
  · exact absurd rfl hy.1
  · rfl

/-- A slot that is no pointer refuses a value of another type, unless it is for JSON. -/
theorem settle_mismatch (hΓ : Γ.Plain) {s y : Val} (hj : s.typeOf ≠ .json)
    (hr : s.typeOf ≠ .raw) :
    ∃ e, Γ.settle s y = (.error e, s) ∧ e.fault.isNotAssignable = true := by
  have hbare : Γ.settle s y = Γ.settleBare s y := by
    rw [settle]
    rintro rfl
    exact hj rfl
  rw [hbare, settleBare]
  split
  · next hn => exact absurd (congrArg Val.typeOf (eq_of_node_raw hn)) hr
  · next hn =>
    cases s with
    | record name fields =>
      rw [hΓ.node_record] at hn
      cases hn
    | json j => exact absurd rfl hj
    | _ => cases hn
  · exact ⟨_, rfl, rfl⟩

theorem fill_mismatch (hΓ : Γ.Plain) {t : Ty} {y : Val} (ht : t.Solid)
    (hy : y.typeOf ≠ .json ∧ y.typeOf ≠ .raw) (hne : t.Misses y.typeOf) :
    ∃ e w, Γ.fill t y = (.error e, w) ∧ e.fault.isNotAssignable = true := by
  have hoffer : Γ.offer t y = none := offer_eq_none hy ⟨ht.ne.1, ht.ne.2.2⟩ hne.ne
  fun_induction Γ.fill t y with
  | case1 _ _ h => rw [hoffer] at h; cases h
  | case2 _ _ h => rw [hoffer] at h; cases h
  | case3 t _ ih | case4 t _ ih =>
    have hne' : t.Misses y.typeOf := hne.inner rfl rfl
    have ht' : t.Solid := ht
    obtain ⟨e, w, he, hf⟩ := ih ht' hne' (offer_eq_none hy ⟨ht'.ne.1, ht'.ne.2.2⟩ hne'.ne)
    rw [he]
    exact ⟨e, _, rfl, hf⟩
  | case5 t =>
    obtain ⟨e, he, hf⟩ := settle_mismatch (s := Γ.zero t) (y := y) hΓ
      (by rw [typeOf_zero]; exact ht.ne.1) (by rw [typeOf_zero]; exact ht.ne.2.1)
    exact ⟨e, _, he, hf⟩

/-- A slot refuses a value whose type is not among those behind its pointers. -/
theorem store_mismatch (hΓ : Γ.Plain) {slot y : Val} (ht : slot.typeOf.Solid)
    (hy : y.typeOf ≠ .json ∧ y.typeOf ≠ .raw) (hne : slot.typeOf.Misses y.typeOf) :
    ∃ e, Γ.store slot y = (.error e, slot) ∧ e.fault.isNotAssignable = true := by
  suffices h : ∃ e w, Γ.store slot y = (.error e, w) ∧ e.fault.isNotAssignable = true by
    obtain ⟨e, w, he, hf⟩ := h
    obtain rfl := store_atomic y slot e w he
    exact ⟨e, he, hf⟩
  have hoffer : Γ.offer slot.typeOf y = none := offer_eq_none hy ⟨ht.ne.1, ht.ne.2.2⟩ hne.ne
  fun_induction Γ.store slot y with
  | case1 _ _ h => rw [hoffer] at h; cases h
  | case2 _ _ h => rw [hoffer] at h; cases h
  | case3 t =>
    obtain ⟨e, w, he, hf⟩ := fill_mismatch (t := t) hΓ ht hy (hne.inner rfl rfl)
    rw [he]
    exact ⟨e, _, rfl, hf⟩
  | case4 v _ ih | case5 v _ ih =>
    have hne' : v.typeOf.Misses y.typeOf := hne.inner rfl rfl
    have ht' : v.typeOf.Solid := ht
    obtain ⟨e, w, he, hf⟩ := ih ht' hne' (offer_eq_none hy ⟨ht'.ne.1, ht'.ne.2.2⟩ hne'.ne)
    rw [he]
    exact ⟨e, _, rfl, hf⟩
  | case6 v =>
    obtain ⟨e, he, hf⟩ := settle_mismatch (s := v) (y := y) hΓ ht.ne.1 ht.ne.2.1
    exact ⟨e, _, he, hf⟩

/-! ## What a slot holds -/

/-- The forms in which a slot may hold the value `x` that it took. -/
inductive Kept (Γ : Schema) (x : Val) : Val → Prop where
  | same : Kept Γ x x
  | held : Kept Γ x (.held x)
  | coded {j : Json} : Γ.encode x = some j → Kept Γ x (.json j)
  | spelled {j : Json} : Γ.encode x = some j → Kept Γ x (.raw j.toBytes)
  | ptr {v : Val} : Kept Γ x v → Kept Γ x (.ptr v)
  | box {v : Val} : Kept Γ x v → Kept Γ x (.box v)

theorem kept_of_offer (hx : x.typeOf ≠ .json ∧ x.typeOf ≠ .raw) {t : Ty} {v : Val}
    (h : Γ.offer t x = some (.ok v)) : Γ.Kept x v := by
  unfold offer at h
  split at h
  · next ha =>
    cases h
    unfold adopts? at ha
    split at ha
    · cases ha; exact .same
    · split at ha
      · obtain ⟨j, hj, rfl⟩ := Option.map_eq_some_iff.1 ha
        exact .coded hj
      · cases ha; exact .held
      · cases ha
  · split at h
    · exact absurd rfl hx.2
    · exact absurd rfl hx.1
    · cases h

theorem kept_of_settle {slot v : Val} (h : Γ.settle slot x = (.ok (), v)) : Γ.Kept x v := by
  obtain ⟨-, j, hj, rfl⟩ := settle_ok h
  exact .spelled hj

theorem kept_of_fill (hx : x.typeOf ≠ .json ∧ x.typeOf ≠ .raw) {t : Ty} {v : Val}
    (h : Γ.fill t x = (.ok (), v)) : Γ.Kept x v := by
  fun_induction Γ.fill t x generalizing v with
  | case1 _ _ ho => cases h; exact kept_of_offer hx ho
  | case2 => cases h
  | case3 t _ ih =>
    obtain ⟨u, hu, rfl⟩ := Attempt.within_ok h
    exact .ptr (ih hu)
  | case4 t _ ih =>
    obtain ⟨u, hu, rfl⟩ := Attempt.inside_ok h
    exact .box (ih hu)
  | case5 => exact kept_of_settle h

/-- **A slot that takes a value holds it.** -/
theorem kept_of_store (hx : x.typeOf ≠ .json ∧ x.typeOf ≠ .raw) {slot v : Val}
    (h : Γ.store slot x = (.ok (), v)) : Γ.Kept x v := by
  fun_induction Γ.store slot x generalizing v with
  | case1 _ _ ho => cases h; exact kept_of_offer hx ho
  | case2 => cases h
  | case3 t =>
    obtain ⟨u, hu, rfl⟩ := Attempt.within_ok h
    exact .ptr (kept_of_fill hx hu)
  | case4 v _ ih =>
    obtain ⟨u, hu, rfl⟩ := Attempt.inside_ok h
    exact .ptr (ih hu)
  | case5 v _ ih =>
    obtain ⟨u, hu, rfl⟩ := Attempt.inside_ok h
    exact .box (ih hu)
  | case6 => exact kept_of_settle h

/-! ## Delivering -/

/-- A value behind pointers has another type than the value, or one with more pointers. -/
theorem Kept.misses (hx : x.typeOf.Solid) {v : Val} (h : Γ.Kept x v) :
    x.typeOf.pointee ≠ v.typeOf.pointee ∨ x.typeOf.hops ≤ v.typeOf.hops := by
  induction h with
  | same => exact .inr (Nat.le_refl _)
  | held => exact .inl hx.2.2
  | coded => exact .inl hx.1
  | spelled => exact .inl hx.2.1
  | ptr _ ih | box _ ih => exact ih.imp_right Nat.le_succ_of_le

/-- A value is stored in a slot of its own type as it is. -/
theorem store_same {slot : Val} (h : x.typeOf = slot.typeOf) : Γ.store slot x = .done x := by
  have hoffer : Γ.offer slot.typeOf x = some (.ok x) := by simp only [offer, adopts?, h, if_true]
  rw [store.eq_def, hoffer]

/-- JSON, decoded or not, is stored in a typed slot as the value it decodes to. -/
theorem store_crosses {slot y : Val} {j : Json} (hs : slot.typeOf.Solid)
    (hy : y = .json j ∨ ∃ bytes, y = .raw bytes ∧ Γ.regionValue? bytes = some j)
    (hd : Γ.decode j slot.typeOf = some x) : Γ.store slot y = .done x := by
  have hadopt : Γ.adopts? slot.typeOf y = none := by
    have hne : y.typeOf ≠ slot.typeOf := by
      rcases hy with rfl | ⟨bytes, rfl, -⟩
      · intro h
        exact hs.ne.1 h.symm
      · intro h
        exact hs.ne.2.1 h.symm
    simp only [adopts?, hne, if_false]
    split
    · next ht => exact absurd ht hs.ne.1
    · next ht => exact absurd ht hs.ne.2.2
    · rfl
  have hoffer : Γ.offer slot.typeOf y = some (.ok x) := by
    rcases hy with rfl | ⟨bytes, rfl, hb⟩
    · simp only [offer, hadopt, crosses, hd]
    · simp only [offer, hadopt, crosses, hb, hd]
  rw [store.eq_def, hoffer]

theorem deliver_of_store {slot y v : Val} (h : Γ.store slot y = .done v) :
    Γ.deliver slot y = .done v := by
  rw [deliver.eq_def, h]
  rfl

/-- What a pointer leads to is tried where the pointer is refused. -/
theorem deliver_inner {slot y w : Val} (hy : y = .ptr w ∨ y = .box w ∨ y = .held w)
    (h : ∃ e, Γ.store slot y = (.error e, slot) ∧ e.fault.isNotAssignable = true) :
    Γ.deliver slot y = Γ.deliver slot w := by
  obtain ⟨e, he, hf⟩ := h
  rcases hy with rfl | rfl | rfl <;> rw [deliver, he] <;> simp only [hf, if_true]

/-- **A value is delivered to a destination of its own type, from whatever form a slot
    holds it in.** -/
theorem deliver_of_kept (hΓ : Γ.Plain) (hf : Γ.Faithful) {v out : Val} (hv : Γ.Kept x v)
    (hx : x.typeOf.Solid) (hw : ∀ j, Γ.encode x = some j → j.Wellformed)
    (hc : v.target.typeOf = .json ∨ v.target.typeOf = .raw →
      ∀ j, Γ.encode x = some j → Γ.decode j x.typeOf = some x)
    (hout : out.typeOf = x.typeOf) : Γ.deliver out v = .done x := by
  have hs : out.typeOf.Solid := hout ▸ hx
  induction hv with
  | same => exact deliver_of_store (store_same hout.symm)
  | held =>
    have hmiss : out.typeOf.Misses (Val.held x).typeOf := .inl hs.2.2
    rw [deliver_inner (.inr (.inr rfl)) (store_mismatch hΓ hs ⟨nofun, nofun⟩ hmiss)]
    exact deliver_of_store (store_same hout.symm)
  | @coded j hj =>
    have hd := hc (.inl rfl) j hj
    exact deliver_of_store (store_crosses hs (.inl rfl) (hout ▸ hd))
  | @spelled j hj =>
    have hd := hc (.inr rfl) j hj
    have hb := (opened_toBytes hf (hw j hj)).2
    exact deliver_of_store (store_crosses hs (.inr ⟨_, rfl, hb⟩) (hout ▸ hd))
  | @ptr v hk ih =>
    have hmiss : out.typeOf.Misses (Val.ptr v).typeOf :=
      hout ▸ (hk.misses hx).imp_right Nat.lt_succ_of_le
    rw [deliver_inner (.inl rfl) (store_mismatch hΓ hs ⟨nofun, nofun⟩ hmiss), ih hc]
  | @box v hk ih =>
    have hmiss : out.typeOf.Misses (Val.box v).typeOf :=
      hout ▸ (hk.misses hx).imp_right Nat.lt_succ_of_le
    rw [deliver_inner (.inr (.inl rfl)) (store_mismatch hΓ hs ⟨nofun, nofun⟩ hmiss), ih hc]

/-! ## The way back -/

section
variable (Γ : Schema)

/-- The tokens that lead in `v` to where the tokens of an assign led, after the assign: a
    token that named the position after the last element of a sequence has become the one
    that spells the position of that element. -/
def settledTokens : List Token → Val → List Token
  | [], _ => []
  | t :: ts, v =>
    Γ.landed t v :: match Γ.select (Γ.landed t v) v with
      | .ok c => settledTokens ts c
      | .error _ => ts

/-- The pointer to what an assign at `p` has made of the document `doc`. -/
def settled (doc : Val) (p : Pointer) : Pointer := .ofTokens (Γ.settledTokens p.tokens doc)

/-- The positions that the settled tokens spell have 64 bits. -/
def CountableAlong : List Token → Val → Prop
  | [], _ => True
  | t :: ts, v =>
    (match Γ.opened v with
      | .ok w => Γ.Countable t w
      | .error _ => True) ∧
    match Γ.select (Γ.landed t v) v with
      | .ok c => CountableAlong ts c
      | .error _ => True

instance decidableCountableAlong : ∀ ts v, Decidable (Γ.CountableAlong ts v)
  | [], _ => .isTrue trivial
  | t :: ts, v => by
    have (c : Val) := decidableCountableAlong ts c
    unfold CountableAlong
    exact @instDecidableAnd _ _ (by split <;> infer_instance) (by split <;> infer_instance)

end

theorem Plain.hooks_eq (hΓ : Γ.Plain) (v : Val) : Γ.hooks v = .silent := by
  cases v with
  | record name fields => exact hΓ.hooks name
  | _ => rfl

/-- Without hooks an assign goes down one step after the other. -/
theorem Plain.assignTokens_cons (hΓ : Γ.Plain) (redirect : Val → Pointer → Val → Outcome)
    (t : Token) (ts : List Token) (v x : Val) :
    Γ.assignTokens redirect (t :: ts) v x = Γ.allocating (Shape.ofToken t)
      (fun w => Γ.descend (Pointer.ofTokens (t :: ts)) t
        (fun c => Γ.assignTokens redirect ts c x) w) v := by
  simp only [assignTokens, assignSteered, hΓ.hooks_eq, Hooks.silent]

theorem Plain.resolveTokens_cons (hΓ : Γ.Plain) (redirect : Val → Pointer → Except Stop Val)
    (t : Token) (ts : List Token) {v c : Val} (h : Γ.select t v = .ok c) :
    Γ.resolveTokens redirect (t :: ts) v = Γ.resolveTokens redirect ts c := by
  simp only [resolveTokens, hΓ.hooks_eq, Hooks.silent, h]

/-- What the settled token of a step finds. -/
theorem Regains.select (hΓ : Γ.Plain) (hf : Γ.Faithful) {t : Token} {ts : List Token} {v c : Val}
    (h : Γ.Regains t v c) (hcount : Γ.CountableAlong (t :: ts) v) :
    Γ.select (Γ.landed t v) v = .ok c := by
  obtain ⟨w, hw, hc⟩ := h hΓ hf
  rw [CountableAlong, hw] at hcount
  rw [Schema.select, landed, hw]
  exact hc hcount.1

/-- An assign that works leaves a value that fits, with the assigned value where the
    settled tokens lead to. -/
theorem assignTokens_found (hΓ : Γ.Plain) (hf : Γ.Faithful)
    (hx : x.typeOf ≠ .json ∧ x.typeOf ≠ .raw) (hw : ∀ j, Γ.encode x = some j → j.Wellformed)
    (redirect : Val → Pointer → Val → Outcome) (redirect' : Val → Pointer → Except Stop Val)
    (ts : List Token) {v v' : Val} (h : Γ.assignTokens redirect ts v x = (.ok (), v')) :
    v.Fits v' ∧ (Γ.CountableAlong ts v' →
      ∃ c, Γ.resolveTokens redirect' (Γ.settledTokens ts v') v' = .ok c ∧ Γ.Kept x c) := by
  induction ts generalizing v v' with
  | nil =>
    simp only [assignTokens] at h
    generalize hout : Γ.store v x = out at h
    obtain ⟨_ | _, u⟩ := out
    · cases h
    · cases h
      have hk := kept_of_store hx hout
      refine ⟨⟨typeOf_store hout, fun ⟨i, hi, _⟩ => ?_⟩, fun _ => ⟨u, rfl, hk⟩⟩
      -- JSON holds the value in one form only
      have ht : u.typeOf = .json := (typeOf_store hout).trans (congrArg Val.typeOf hi)
      cases hk with
      | same => exact absurd ht hx.1
      | coded hj => exact ⟨_, rfl, hw _ hj⟩
      | _ => cases ht
  | cons t ts ih =>
    rw [hΓ.assignTokens_cons] at h
    cases advance_step (Pointer.ofTokens (t :: ts)) t v with
    | stops s hs => rw [hs] at h; cases h
    | ends _ _ _ hfalse => exact hfalse.elim
    | leads P hP of sees =>
      rw [hP] at h
      obtain ⟨c, hc, rfl⟩ := Attempt.within_ok h
      obtain ⟨hfit, hfound⟩ := ih hc
      refine ⟨of.fits_back hfit, ?_⟩
      intro hcount
      have hsel := (sees c hfit).select hΓ hf hcount
      rw [CountableAlong, hsel] at hcount
      obtain ⟨u, hu, hk⟩ := hfound hcount.2
      refine ⟨u, ?_, hk⟩
      rw [settledTokens, hsel, hΓ.resolveTokens_cons redirect' _ _ hsel]
      exact hu

theorem spelled_landed {t : Token} (ht : t.Spelled) (v : Val) : (Γ.landed t v).Spelled := by
  simp only [landed, landedBare]
  repeat' split
  all_goals first | exact ht | exact Pointer.spelled_ofPosition _

theorem spelled_settledTokens {ts : List Token} (h : ∀ t ∈ ts, t.Spelled) (v : Val) :
    ∀ t ∈ Γ.settledTokens ts v, t.Spelled := by
  induction ts generalizing v with
  | nil => exact h
  | cons t ts ih =>
    obtain ⟨ht, hts⟩ := List.forall_mem_cons.1 h
    rw [settledTokens, List.forall_mem_cons]
    refine ⟨spelled_landed ht v, ?_⟩
    split
    · exact ih hts _
    · exact hts

/-! ## Calls -/

/-- The value that the walk of a pointer finds in a document. -/
def Finds (Γ : Schema) (doc : Val) (p : Pointer) (v : Val) : Prop :=
  Γ.find (Γ.redirects + 1) doc p = .ok v

theorem resolve_of_finds {doc out v w : Val} {p : Pointer} (hp : p.validate = .ok ())
    (h : Γ.Finds doc p v) (hd : Γ.deliver out v = .done w) : Γ.resolve doc out p = (.ok (), w) := by
  rw [Finds] at h
  simp only [resolve, hp, h, hd]
  rfl

theorem finds_ofTokens {doc v : Val} {ts : List Token} (h : ∀ t ∈ ts, t.Spelled) :
    Γ.Finds doc (.ofTokens ts) v ↔ Γ.resolveTokens (Γ.find Γ.redirects) ts doc = .ok v := by
  rw [Finds, find, if_pos (Pointer.walks_ofTokens ts), Pointer.tokens_ofTokens h]

/-- A value that is assigned is found by the settled pointer, in a form that its slot
    may hold it in. -/
theorem finds_of_assign (hΓ : Γ.Plain) (hf : Γ.Faithful) {doc doc' : Val} {p : Pointer}
    (hx : x.typeOf ≠ .json ∧ x.typeOf ≠ .raw) (hw : ∀ j, Γ.encode x = some j → j.Wellformed)
    (hcount : Γ.CountableAlong p.tokens doc') (h : Γ.assign doc p x = (.ok (), doc')) :
    (Γ.settled doc' p).validate = .ok () ∧ ∃ v, Γ.Finds doc' (Γ.settled doc' p) v ∧ Γ.Kept x v := by
  unfold assign at h
  split at h
  · cases h
  · next hp =>
    have hs := spelled_settledTokens (Γ := Γ) (fun t => Pointer.spelled_of_validate hp) doc'
    refine ⟨Pointer.validate_ofTokens hs, ?_⟩
    rw [place, if_pos (Pointer.walks_of_validate hp)] at h
    generalize hout : Γ.assignTokens (Γ.place Γ.redirects) p.tokens doc x = out at h
    obtain ⟨_ | _, u⟩ := out
    · cases h
    · cases h
      obtain ⟨v, hv, hk⟩ := (assignTokens_found hΓ hf hx hw _ (Γ.find Γ.redirects) _ hout).2 hcount
      exact ⟨v, (finds_ofTokens hs).2 hv, hk⟩

/-- **A value that is assigned is resolved again**, by any destination of its type.  Where
    the slot is for JSON or a region, the value has to be what its JSON form decodes
    to.  No sequence that grew by the assign is longer than positions of 64 bits can
    count, as none in memory is. -/
theorem resolve_of_assign (hΓ : Γ.Plain) (hf : Γ.Faithful) {doc doc' out : Val} {p : Pointer}
    (hx : x.typeOf.Solid) (hproper : x.Proper)
    (hc : ∀ v, Γ.Finds doc' (Γ.settled doc' p) v →
      v.target.typeOf = .json ∨ v.target.typeOf = .raw →
        ∀ j, Γ.encode x = some j → Γ.decode j x.typeOf = some x)
    (hcount : Γ.CountableAlong p.tokens doc') (hout : out.typeOf = x.typeOf)
    (h : Γ.assign doc p x = (.ok (), doc')) :
    Γ.resolve doc' out (Γ.settled doc' p) = (.ok (), x) := by
  have hw (j : Json) (hj : Γ.encode x = some j) : j.Wellformed := wellformed_of_encode hproper hj
  obtain ⟨hp, v, hv, hk⟩ := finds_of_assign hΓ hf ⟨hx.ne.1, hx.ne.2.1⟩ hw hcount h
  exact resolve_of_finds hp hv (deliver_of_kept hΓ hf hk hx hw (hc v hv) hout)

/-- A number that is appended in a region, in an array that has to be made. -/
theorem job_found : ∃ doc', jobs.assign job ⟨"/notes/ports/-"⟩ (.int .i64 80) = (.ok (), doc') ∧
    jobs.resolve doc' (.int .i64 0) ⟨"/notes/ports/0"⟩ = (.ok (), .int .i64 80) := by
  have hok : (jobs.assign job ⟨"/notes/ports/-"⟩ (.int .i64 80)).1.toOption = some () := by
    decide +kernel
  have hcount : jobs.CountableAlong (Pointer.tokens ⟨"/notes/ports/-"⟩)
      (jobs.assign job ⟨"/notes/ports/-"⟩ (.int .i64 80)).2 := by decide +kernel
  have hsettled : jobs.settled (jobs.assign job ⟨"/notes/ports/-"⟩ (.int .i64 80)).2
      ⟨"/notes/ports/-"⟩ = ⟨"/notes/ports/0"⟩ := by decide +kernel
  have hdecode (j : Json) (hj : jobs.encode (.int .i64 80) = some j) :
      jobs.decode j (.int .i64) = some (.int .i64 80) := by
    cases hj
    rfl
  have hsolid : (Val.int .i64 80).typeOf.Solid := ⟨nofun, nofun, nofun⟩
  have htype : (Val.int .i64 0).typeOf = (Val.int .i64 80).typeOf := rfl
  generalize hout : jobs.assign job ⟨"/notes/ports/-"⟩ (.int .i64 80) = out at hok hcount hsettled
  obtain ⟨_ | _, doc'⟩ := out
  · cases hok
  · have hfound := resolve_of_assign plain_jobs (faithful_of_exact rfl) hsolid trivial
      (fun _ _ _ => hdecode) hcount htype hout
    rw [hsettled] at hfound
    exact ⟨doc', rfl, hfound⟩

end Schema

end DocPointer
