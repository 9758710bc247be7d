/-
  Where a call stops.

  A failing call names its verb, its pointer and a rest of the pointer (`Names`).  What a
  resolve names is what follows the longest part of the pointer that leads somewhere
  (`StopsBehind`).

  * `descend_located`, `remove_located`: a step of an assign or a delete stops at its own
    token unless a change below stops it; so, by induction on the tokens, the rest is cut
    in front of one of them (`assignTokens_current`, `deleteTokens_current`).
  * `resolveTokens_error`: a walk fails at one of its steps.
  * `error_located`: calls.
-/
import DocPointer.Proofs.Walk.Atomicity
import DocPointer.Proofs.Walk.Composition

namespace DocPointer

/-- The report names the verb and the pointer of the call, and what is left of the pointer
    from one of its tokens on, if anything. -/
structure WalkError.Names (e : WalkError) (op : Operation) (p : Pointer) : Prop where
  op_eq : e.op = op
  pointer_eq : e.pointer = p
  isRest : e.stop.current.IsRest p

/-- If the change `out` fails, it does so at `here`, or because `f` fails on a part. -/
def LocatedAt (here : Pointer) (f : Val → Outcome) (out : Outcome) : Prop :=
  ∀ s w, out = (.error s, w) → s.current = here ∨ ∃ c u, f c = (.error s, u)

/-! ## One step -/

namespace LocatedAt

variable {here : Pointer} {f : Val → Outcome} {out : Outcome}

theorem refuse (v : Val) (fault : Fault) : LocatedAt here f (.refuse here v fault) := by
  intro s w h
  cases h
  exact .inl rfl

theorem done (v : Val) : LocatedAt here f (.done v) := by
  intro s w h
  cases h

theorem part (c : Val) : LocatedAt here f (f c) := fun _ w h => .inr ⟨c, w, h⟩

theorem within (h : LocatedAt here f out) (back undo : Val → Val) :
    LocatedAt here f (out.within back undo) := by
  intro s w hw
  obtain ⟨u, hu, -⟩ := Attempt.within_error hw
  exact h s u hu

theorem inside (h : LocatedAt here f out) (back : Val → Val) :
    LocatedAt here f (out.inside back) :=
  Attempt.inside_eq out back ▸ h.within back back

end LocatedAt

namespace Schema

open Samples

variable {Γ : Schema} {here : Pointer} {f g : Val → Outcome}

section
variable (hg : ∀ w, LocatedAt here f (g w))
include hg

theorem onTarget_located (v : Val) : LocatedAt here f (v.onTarget g) := by
  induction v using Val.target.induct with
  | case1 v ih | case2 v ih | case3 v ih => exact ih.inside _
  | case4 v => rw [Val.onTarget] <;> first | exact hg v | assumption

theorem allocatingNew_located (shape : Shape) (t : Ty) :
    LocatedAt here f (Γ.allocatingNew shape g t) := by
  induction t with
  | opt t ih => exact ih.within _ _
  | box t ih => exact ih.inside _
  | holder => exact (hg _).within _ _
  | _ => exact hg _

theorem allocating_located (shape : Shape) (v : Val) :
    LocatedAt here f (Γ.allocating shape g v) := by
  induction v using Val.target.induct with
  | case1 v ih | case2 v ih | case3 v ih => exact ih.inside _
  | case4 v hp hb hh =>
    cases v with
    | nil t => exact (allocatingNew_located hg shape t).within _ _
    | vacant => exact (hg _).within _ _
    | ptr v => exact absurd rfl (hp v)
    | box v => exact absurd rfl (hb v)
    | held v => exact absurd rfl (hh v)
    | _ => exact hg _

end

theorem embed_located (path : List Nat) (v : Val) : LocatedAt here f (Γ.embed here f path v) := by
  induction path generalizing v with
  | nil => exact .part v
  | cons i path ih =>
    refine allocating_located ?_ .map v
    intro w
    split
    · split
      · exact (ih _).inside _
      · exact .refuse w _
    · exact .refuse w _
    · exact .refuse w _

theorem prune_located (path : List Nat) (v : Val) : LocatedAt here f (Γ.prune f path v) := by
  induction path generalizing v with
  | nil => exact .part v
  | cons i path ih =>
    refine onTarget_located ?_ v
    intro w
    split
    · split
      · exact (ih _).inside _
      · exact .done w
    · exact .done w

theorem descendBare_located (t : Token) (v : Val) :
    LocatedAt here f (Γ.descendBare here t f v) := by
  unfold descendBare
  repeat' split
  all_goals first
    | exact .refuse v _
    | exact (LocatedAt.part _).inside _
    | exact (LocatedAt.part _).within _ _
    | exact (embed_located _ _).inside _

/-- A step of an assign stops at its token, or below. -/
theorem descend_located (t : Token) (v : Val) : LocatedAt here f (Γ.descend here t f v) := by
  have hjson (j : Json) : LocatedAt here f (Γ.descendJson here t f j) := by
    unfold descendJson
    split
    · exact (descendBare_located t _).within _ _
    · exact descendBare_located t _
  unfold descend
  split
  · split
    · exact .refuse _ _
    · exact (hjson _).within _ _
  · exact hjson _
  · exact descendBare_located t _

theorem removeBare_located (t : Token) (last : Bool) (v : Val) :
    LocatedAt here f (Γ.removeBare here t last f v) := by
  unfold removeBare
  repeat' split
  all_goals first
    | exact .refuse v _
    | exact .done _
    | exact (LocatedAt.part _).inside _
    | exact prune_located _ v

/-- So does a step of a delete. -/
theorem remove_located (t : Token) (last : Bool) (v : Val) :
    LocatedAt here f (Γ.remove here t last f v) := by
  unfold remove
  split
  · split
    · exact .done _
    · split
      · exact .refuse _ _
      · exact (removeBare_located t last _).within _ _
  · exact removeBare_located t last _

/-! ## Assigning and deleting -/

theorem assignTokens_current (hΓ : Γ.Plain) (redirect : Val → Pointer → Val → Outcome)
    (ts : List Token) (x : Val) {v w : Val} {s : Stop}
    (h : Γ.assignTokens redirect ts v x = (.error s, w)) :
    ∃ us, us <:+ ts ∧ s.current = .ofTokens us := by
  induction ts generalizing v w with
  | nil =>
    simp only [assignTokens] at h
    generalize Γ.store v x = out at h
    obtain ⟨r | _, u⟩ := out
    · cases h
      exact ⟨[], List.suffix_refl _, rfl⟩
    · cases h
  | cons t ts ih =>
    rw [hΓ.assignTokens_cons] at h
    rcases allocating_located (fun w => descend_located t w) _ v s w h with hs | ⟨c, u, hc⟩
    · exact ⟨t :: ts, List.suffix_refl _, hs⟩
    · obtain ⟨us, hus, hs⟩ := ih hc
      exact ⟨us, hus.trans (List.suffix_cons t ts), hs⟩

theorem deleteTokens_current (hΓ : Γ.Plain) (redirect : Val → Pointer → Outcome)
    (ts : List Token) {v w : Val} {s : Stop}
    (h : Γ.deleteTokens redirect ts v = (.error s, w)) :
    ∃ us, us <:+ ts ∧ s.current = .ofTokens us := by
  induction ts generalizing v w with
  | nil => cases h
  | cons t ts ih =>
    rw [hΓ.deleteTokens_cons] at h
    rcases onTarget_located (fun w => remove_located t _ w) v s w h with hs | ⟨c, u, hc⟩
    · exact ⟨t :: ts, List.suffix_refl _, hs⟩
    · obtain ⟨us, hus, hs⟩ := ih hc
      exact ⟨us, hus.trans (List.suffix_cons t ts), hs⟩

variable {doc x w : Val} {p r : Pointer} {e : WalkError} {s : Stop}

theorem names_of_report {op : Operation} {out : Outcome} (hp : p.validate = .ok ())
    (hout : ∀ s u, out = (.error s, u) → ∃ us, us <:+ p.tokens ∧ s.current = .ofTokens us)
    (h : report op p out = (.error e, w)) : e.Names op p := by
  obtain ⟨s | _, u⟩ := out
  · cases h
    obtain ⟨us, hus, hs⟩ := hout s u rfl
    exact ⟨rfl, rfl, hs ▸ Pointer.isRest_of_suffix hp hus⟩
  · cases h

theorem names_of_assign (hΓ : Γ.Plain) (h : Γ.assign doc p x = (.error e, w)) :
    e.Names .assigning p := by
  cases hp : p.validate with
  | error m =>
    rw [assign, hp] at h
    cases h
    exact ⟨rfl, rfl, Pointer.isRest_root p⟩
  | ok _ =>
    rw [assign_eq hp] at h
    exact names_of_report hp (fun _ _ => assignTokens_current hΓ _ _ x) h

theorem names_of_delete (hΓ : Γ.Plain) (h : Γ.delete doc p = (.error e, w)) :
    e.Names .deleting p := by
  cases hp : p.validate with
  | error m =>
    rw [delete, hp] at h
    cases h
    exact ⟨rfl, rfl, Pointer.isRest_root p⟩
  | ok _ =>
    rw [delete_eq hp] at h
    exact names_of_report hp (fun _ _ => deleteTokens_current hΓ _ _) h

/-! ## Resolving -/

section
variable (Γ : Schema)

/-- What a value leads to: itself, the target of a pointer that is not nil, or the value
    that a region spells. -/
inductive LeadsTo : Val → Val → Prop where
  | refl (v : Val) : LeadsTo v v
  | ptr {v w : Val} : LeadsTo v w → LeadsTo (.ptr v) w
  | box {v w : Val} : LeadsTo v w → LeadsTo (.box v) w
  | held {v w : Val} : LeadsTo v w → LeadsTo (.held v) w
  | raw {bytes : ByteArray} {j : Json} :
      Json.ofBytes? Γ.reading bytes = some j → LeadsTo (.raw bytes) (.json j)

/-- The walk of `p` stops where `r` has led: `r` finds a value that leads to the
    container, one more token stops, and no longer part of `p` leads anywhere. -/
structure StopsBehind (doc : Val) (p r : Pointer) (s : Stop) : Prop where
  container : ∃ x, Γ.Finds doc r x ∧ ∃ u, Γ.LeadsTo x u ∧ u.typeOf = s.container
  token : ∃ t rest, s.current.next = some (t, rest) ∧
    Γ.Stops doc (r.append t) ⟨s.fault, s.container, .ofTokens [t]⟩
  longest {r' c : Pointer} : p = r' ++ c → (c.isRoot ∨ c.next.isSome) →
    (∃ y, Γ.Finds doc r' y) → ∃ m, r = r' ++ m

end

theorem LeadsTo.target (v : Val) : Γ.LeadsTo v v.target := by
  induction v using Val.target.induct with
  | case1 v ih => exact .ptr ih
  | case2 v ih => exact .box ih
  | case3 v ih => exact .held ih
  | case4 v => rw [Val.target] <;> first | exact .refl v | assumption

theorem LeadsTo.of_target {v w : Val} (h : Γ.LeadsTo v.target w) : Γ.LeadsTo v w := by
  induction v using Val.target.induct with
  | case1 v ih => exact .ptr (ih h)
  | case2 v ih => exact .box (ih h)
  | case3 v ih => exact .held (ih h)
  | case4 v => rw [Val.target] at h <;> assumption

theorem container_of_selectBare {t : Token} {v : Val} {e : Refusal}
    (h : Γ.selectBare t v = .error e) : e.container = v.typeOf := by
  simp only [selectBare] at h
  repeat' split at h
  all_goals cases h
  all_goals rfl

/-- A value leads to the container that a token is not in. -/
theorem leadsTo_of_select {t : Token} {v : Val} {e : Refusal} (h : Γ.select t v = .error e) :
    ∃ u, Γ.LeadsTo v u ∧ u.typeOf = e.container := by
  simp only [select, opened] at h
  split at h
  · next bytes hv =>
    have hraw : Γ.LeadsTo v (.raw bytes) := hv ▸ .target v
    split at h
    · cases h
      exact ⟨_, hraw, rfl⟩
    · next hne =>
      split at h
      · next j hj =>
        rw [regionValue?, if_neg hne] at hj
        exact ⟨.json j, .of_target (hv ▸ .raw hj), (container_of_selectBare h).symm⟩
      · cases h
        exact ⟨_, hraw, rfl⟩
  · exact ⟨_, .target v, (container_of_selectBare h).symm⟩

/-- A walk stops at one of its steps. -/
theorem resolveTokens_error (hΓ : Γ.Plain) {redirect : Val → Pointer → Except Stop Val}
    {ts : List Token} {v : Val} (h : Γ.resolveTokens redirect ts v = .error s) :
    ∃ ts₁ t ts₂ x e, ts = ts₁ ++ t :: ts₂ ∧ Γ.resolveTokens redirect ts₁ v = .ok x ∧
      Γ.select t x = .error e ∧ s = e.stop (.ofTokens (t :: ts₂)) := by
  induction ts generalizing v with
  | nil => cases h
  | cons t ts ih =>
    rw [hΓ.resolveTokens_step] at h
    cases ht : Γ.select t v with
    | error e =>
      rw [ht] at h
      cases h
      exact ⟨[], t, ts, v, e, rfl, rfl, ht, rfl⟩
    | ok c =>
      rw [ht] at h
      obtain ⟨ts₁, u, ts₂, x, e, rfl, hx, hu, hs⟩ := ih h
      refine ⟨t :: ts₁, u, ts₂, x, e, rfl, ?_, hu, hs⟩
      rw [hΓ.resolveTokens_step, ht]
      exact hx

/-- Where a step fails behind a walk, every longer walk stops. -/
theorem resolveTokens_stop (hΓ : Γ.Plain) {redirect : Val → Pointer → Except Stop Val}
    {ts : List Token} {t : Token} {v : Val} {e : Refusal}
    (hx : Γ.resolveTokens redirect ts v = .ok x) (ht : Γ.select t x = .error e)
    (us : List Token) :
    Γ.resolveTokens redirect (ts ++ t :: us) v = .error (e.stop (.ofTokens (t :: us))) := by
  rw [resolveTokens_append _ hΓ, hx]
  show Γ.resolveTokens _ (t :: us) x = _
  rw [hΓ.resolveTokens_step, ht]

/-- A part of a pointer that leads somewhere ends before the token at which walks stop. -/
theorem prefix_of_finds {ts us : List Token} {t : Token} {c : Pointer}
    (hp : (r ++ c).validate = .ok ()) (hc : c.isRoot ∨ c.next.isSome)
    (hts : (r ++ c).tokens = ts ++ t :: us)
    (hstop : ∀ us, ∃ s, Γ.resolveTokens (Γ.find Γ.redirects) (ts ++ t :: us) doc = .error s)
    (hx : Γ.Finds doc r x) : ∃ m, Pointer.ofTokens ts = r ++ m := by
  obtain ⟨hr, hc'⟩ := Pointer.validate_of_cut hp hc
  rw [Pointer.tokens_append hr hc'] at hts
  rcases List.append_eq_append_iff.1 hts with ⟨m, rfl, -⟩ | ⟨m, hm, hm'⟩
  · exact ⟨.ofTokens m, by rw [Pointer.ofTokens_append, Pointer.ofTokens_tokens hr]⟩
  · cases m with
    | nil =>
      rw [List.append_nil] at hm
      exact ⟨.root, by rw [Pointer.append_root, ← Pointer.ofTokens_tokens hr, hm]⟩
    | cons u m =>
      -- one token further there is nothing to find
      cases hm'
      obtain ⟨s, hs⟩ := hstop m
      rw [finds_iff, seek_eq hr, hm, hs] at hx
      cases hx

/-- Where a walk stops behind, once it is known to stop. -/
theorem stopsBehind (hΓ : Γ.Plain) (hp : p.validate = .ok ()) (h : Γ.Stops doc p s)
    (hr : p = r ++ s.current) : Γ.StopsBehind doc p r s := by
  rw [Stops, seek_eq hp] at h
  obtain ⟨ts₁, t, ts₂, x, e, hts, hx, ht, rfl⟩ := resolveTokens_error hΓ h
  obtain ⟨hs₁, hs₂⟩ := Pointer.spelled_of_cut hp hts
  obtain ⟨hst, -⟩ := List.forall_mem_cons.1 hs₂
  obtain rfl := Pointer.eq_ofTokens_of_cut hp hts hr
  have hstop := resolveTokens_stop hΓ hx ht
  refine ⟨?container, ?token, ?longest⟩
  case container => exact ⟨x, (finds_ofTokens hs₁).2 hx, leadsTo_of_select ht⟩
  case token =>
    refine ⟨t, _, Pointer.next_ofTokens hst ts₂, ?_⟩
    have hst₁ : ∀ u ∈ ts₁ ++ [t], u.Spelled :=
      List.forall_mem_append.2 ⟨hs₁, List.forall_mem_singleton.2 hst⟩
    rw [Stops, Pointer.append_eq, ← Pointer.ofTokens_append,
      seek_eq (Pointer.validate_ofTokens hst₁), Pointer.tokens_ofTokens hst₁]
    exact hstop []
  case longest =>
    rintro r' c rfl hc ⟨y, hy⟩
    exact prefix_of_finds hp hc hts (fun us => ⟨_, hstop us⟩) hy

/-! ## Calls -/

/-- **A failure says where it happened.** -/
theorem error_located (hΓ : Γ.Plain) (doc : Val) (p : Pointer) (e : WalkError) (w : Val) :
    (∀ x, Γ.assign doc p x = (.error e, w) → e.Names .assigning p) ∧
      (∀ x?, Γ.assign? doc p x? = (.error e, w) →
        e.Names (if x?.isSome then .assigning else .deleting) p) ∧
      (Γ.delete doc p = (.error e, w) → e.Names .deleting p) ∧
      ∀ dst, Γ.resolve doc dst p = (.error e, w) →
        e.Names .resolving p ∧
          (e.stop.current ≠ .root →
            ∀ r, p = r ++ e.stop.current → Γ.StopsBehind doc p r e.stop) := by
  refine ⟨fun x => names_of_assign hΓ, ?_, names_of_delete hΓ, ?_⟩
  · intro x?
    cases x? with
    | some x => exact names_of_assign hΓ
    | none => exact names_of_delete hΓ
  · intro dst h
    cases hp : p.validate with
    | error m =>
      rw [resolve, hp] at h
      cases h
      exact ⟨⟨rfl, rfl, Pointer.isRest_root p⟩, fun hroot => absurd rfl hroot⟩
    | ok _ =>
      rw [resolve_eq hp] at h
      cases hs : Γ.seek doc p with
      | ok x =>
        rw [hs] at h
        dsimp only at h
        generalize Γ.deliver dst x = out at h
        obtain ⟨r | _, u⟩ := out
        · cases h
          exact ⟨⟨rfl, rfl, Pointer.isRest_root p⟩, fun hroot => absurd rfl hroot⟩
        · cases h
      | error s =>
        rw [hs] at h
        cases h
        refine ⟨⟨rfl, rfl, ?_⟩, fun _ r => stopsBehind hΓ hp hs⟩
        rw [seek_eq hp] at hs
        obtain ⟨ts₁, t, ts₂, x, e, hts, -, -, rfl⟩ := resolveTokens_error hΓ hs
        exact Pointer.isRest_of_suffix hp ⟨ts₁, hts.symm⟩

/-- A resolve that misses an entry of the notes of a job, and an assign that meets a
    number. -/
theorem busyJob_located :
    (∃ e w, jobs.resolve busyJob .vacant ⟨"/notes/size/max"⟩ = (.error e, w) ∧
      jobs.StopsBehind busyJob ⟨"/notes/size/max"⟩ ⟨"/notes"⟩ e.stop) ∧
    ∃ e w, jobs.assign busyJob ⟨"/steps/0/cpu/max"⟩ (.bool true) = (.error e, w) ∧
      e.Names .assigning ⟨"/steps/0/cpu/max"⟩ := by
  have hresolve : (jobs.resolve busyJob .vacant ⟨"/notes/size/max"⟩).1 =
      .error ⟨.resolving, ⟨"/notes/size/max"⟩, ⟨.notFound, .json, ⟨"/size/max"⟩⟩⟩ := by
    decide +kernel
  have hassign : (jobs.assign busyJob ⟨"/steps/0/cpu/max"⟩ (.bool true)).1 =
      .error ⟨.assigning, ⟨"/steps/0/cpu/max"⟩, ⟨.unreachable, .int .i64, ⟨"/max"⟩⟩⟩ := by
    decide +kernel
  constructor
  · generalize hout : jobs.resolve busyJob .vacant ⟨"/notes/size/max"⟩ = out at hresolve ⊢
    obtain ⟨_, w⟩ := out
    subst hresolve
    exact ⟨_, w, rfl,
      ((error_located plain_jobs busyJob _ _ w).2.2.2 .vacant hout).2 (by decide) ⟨"/notes"⟩ rfl⟩
  · generalize hout : jobs.assign busyJob ⟨"/steps/0/cpu/max"⟩ (.bool true) = out at hassign ⊢
    obtain ⟨_, w⟩ := out
    subst hassign
    exact ⟨_, w, rfl, (error_located plain_jobs busyJob _ _ w).1 _ hout⟩

end Schema

end DocPointer
