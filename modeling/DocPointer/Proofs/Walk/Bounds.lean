/-
  What is reported of positions that are out of range.

  A call that fails at a position out of range names the position and a bound.  The position is
  negative or greater than the bound, and the bound is that of the sequence in which the call
  stopped: the position of the last element, or the one after it where the verb is one that may
  go there (`Exceeds`).  A resolve and a delete stop in a sequence of the document, an assign also
  in one that it made on the way.

  * `selectBare_exceeds`, `removeBare_failsDown` and `Bars.haltsIn`: where a step of a verb stops
    at a position out of range.
  * `out_of_range_reported`: calls, by induction on the tokens.
-/
import DocPointer.Proofs.Walk.Absence
import DocPointer.Proofs.Walk.Furnishing
import DocPointer.Proofs.Walk.Passing

namespace DocPointer

/-! ## Positions -/

namespace Token

variable {t : Token} {n : Nat} {k b : Int}

theorem index_outOfRange (h : t.index n = .error (.outOfRange k b)) :
    b = told n ∧ (k < 0 ∨ told n < k) := by
  rw [index] at h
  split at h
  · cases h
  · split at h
    · cases h
    · next i hi =>
      have hbound : min (n : Int) maxInt = told n := by
        rw [told]
        omega
      dsimp only at h
      split at h
      · next hout =>
        cases h
        exact ⟨hbound, hbound ▸ hout⟩
      · cases h

theorem existing_outOfRange (h : t.existing n = .error (.outOfRange k b)) :
    b = told n - 1 ∧ (k < 0 ∨ told n - 1 < k) := by
  rw [existing] at h
  split at h
  · next i hi =>
    split at h
    · cases h
    · next hlt =>
      cases h
      refine ⟨rfl, .inr ?_⟩
      rw [told]
      omega
  · next hi =>
    cases h
    obtain ⟨-, hk⟩ := index_outOfRange hi
    exact ⟨rfl, hk.imp_right fun h => by omega⟩
  · next hne _ =>
    cases h
    exact absurd rfl (hne k b)

end Token

namespace Schema

open Samples

section
variable (Γ : Schema)

/-- The position `k` is out of range in the sequence `w`, and `b` is the bound that a call of a
    verb reports for it. -/
inductive Exceeds (w : Val) : Operation → Int → Int → Prop where
  /-- An assign may add an element after the last. -/
  | added {elem : Ty} {gap : Option Nat} {items : List Val} {k : Int} :
      Γ.node w = .slice elem gap items → k < 0 ∨ Token.told items.length < k →
      Exceeds w .assigning k (Token.told items.length)
  /-- A delete passes over positions after the last. -/
  | removed {elem : Ty} {gap : Option Nat} {items : List Val} {k : Int} :
      Γ.node w = .slice elem gap items → k < 0 →
      Exceeds w .deleting k (Token.told items.length)
  | found {elem : Ty} {gap : Option Nat} {items : List Val} {k : Int} :
      Γ.node w = .slice elem gap items → k < 0 ∨ Token.told items.length - 1 < k →
      Exceeds w .resolving k (Token.told items.length - 1)
  | fixed {op : Operation} {gap : Option Nat} {items : List Val} {k : Int} :
      Γ.node w = .array gap items → k < 0 ∨ Token.told items.length - 1 < k →
      Exceeds w op k (Token.told items.length - 1)

/-- The container in which a verb takes the token `t` from `v`. -/
def basis (op : Operation) (t : Token) (v : Val) : Option Val :=
  match op with
  | .assigning => Γ.ground t v
  | .resolving | .deleting => (Γ.opened v).toOption

/-- The value to which a verb goes on from `v` by a list of tokens. -/
def reached (op : Operation) (ts : List Token) (v : Val) : Option Val :=
  match op with
  | .assigning => Γ.picked ts v
  | .resolving | .deleting => (Γ.resolveTokens (Γ.find Γ.redirects) ts v).toOption

/-- If the stop is for a position out of range, it is one in the container `w?`, at `here`. -/
def HaltsIn (op : Operation) (here : Pointer) (w? : Option Val) (s : Stop) : Prop :=
  ∀ k b, s.fault = .index (.outOfRange k b) →
    ∃ w, w? = some w ∧ Γ.Exceeds w op k b ∧ s.container = w.typeOf ∧ s.current = here

/-- If the stop is for a position out of range, it is one that a token names in the container
    to which the tokens before it have led. -/
def Halts (op : Operation) (ts : List Token) (v : Val) (s : Stop) : Prop :=
  ∀ k b, s.fault = .index (.outOfRange k b) → ∃ us t vs c w, ts = us ++ t :: vs ∧
    Γ.reached op us v = some c ∧ Γ.basis op t c = some w ∧ Γ.Exceeds w op k b ∧
    s.container = w.typeOf ∧ s.current = .ofTokens (t :: vs)

end

variable {Γ : Schema} {op : Operation} {t : Token} {ts : List Token} {here : Pointer}
  {f : Val → Outcome} {v w c x : Val} {p : Pointer} {s : Stop} {k b : Int}

theorem haltsIn_of_inRange {w? : Option Val} (h : s.fault.isOutOfRange = false) :
    Γ.HaltsIn op here w? s := by
  intro k b hf
  rw [hf] at h
  cases h

/-! ## One step -/

/-- What bars an assign at a position out of range. -/
theorem Bars.haltsIn {w? : Option Val} (h : Γ.Bars here t w? s) :
    Γ.HaltsIn .assigning here w? s := by
  intro k b hf
  cases h with
  | @slice w elem gap items e hw hn hi hs =>
    subst hs
    cases hf
    obtain ⟨rfl, hk⟩ := Token.index_outOfRange hi
    exact ⟨w, hw, .added hn hk, rfl, rfl⟩
  | @array w gap items e hw hn hi hs =>
    subst hs
    cases hf
    obtain ⟨rfl, hk⟩ := Token.existing_outOfRange hi
    exact ⟨w, hw, .fixed hn hk, rfl, rfl⟩
  | other h =>
    rw [hf] at h
    cases h

section
variable {items : List Val} {gap : Option Nat} {r : Refusal} {e : IndexError}

/-- In a sequence a walk stops at a position because no element is there. -/
theorem existing_of_selectBare_error
    (hn : (∃ elem, Γ.node w = .slice elem gap items) ∨ Γ.node w = .array gap items)
    (h : Γ.selectBare t w = .error r) (hr : r.fault = .index e) :
    t.existing items.length = .error e := by
  cases hi : t.existing items.length with
  | error e' =>
    obtain rfl : ⟨.index e', w.typeOf⟩ = r := by
      rcases hn with ⟨elem, hn⟩ | hn <;> simpa [selectBare, hn, hi] using h
    cases hr
    rfl
  | ok i =>
    cases hc : elem? gap items i with
    | some c => rcases hn with ⟨elem, hn⟩ | hn <;> simp [selectBare, hn, hi, hc] at h
    | none =>
      obtain rfl : ⟨.notFound, w.typeOf⟩ = r := by
        rcases hn with ⟨elem, hn⟩ | hn <;> simpa [selectBare, hn, hi, hc] using h
      cases hr

/-- **A walk stops at a position out of range** in the sequence where it looks. -/
theorem selectBare_exceeds (h : Γ.selectBare t w = .error r)
    (hr : r.fault = .index (.outOfRange k b)) : Γ.Exceeds w .resolving k b := by
  cases hn : Γ.node w with
  | slice elem gap items =>
    obtain ⟨rfl, hk⟩ := Token.existing_outOfRange
      (existing_of_selectBare_error (.inl ⟨elem, hn⟩) h hr)
    exact .found hn hk
  | array gap items =>
    obtain ⟨rfl, hk⟩ := Token.existing_outOfRange (existing_of_selectBare_error (.inr hn) h hr)
    exact .fixed hn hk
  | record name fields =>
    simp only [selectBare, hn] at h
    split at h
    · next fault hp =>
      cases h
      have hin := inRange_of_fieldPath hp
      dsimp only at hr
      rw [hr] at hin
      cases hin
    · split at h <;> cases h
      cases hr
  | map key order elem entries =>
    simp only [selectBare, hn] at h
    split at h
    · next e _ =>
      cases h
      cases e <;> cases hr
    · split at h <;> cases h
      cases hr
  | _ =>
    simp only [selectBare, hn] at h
    cases h
    cases hr

theorem select_halts (h : Γ.select t v = .error r) (here : Pointer) :
    Γ.HaltsIn .resolving here (Γ.basis .resolving t v) (r.stop here) := by
  intro k b hr
  rw [basis]
  cases ho : Γ.opened v with
  | ok w =>
    rw [select_of_opened ho] at h
    exact ⟨w, rfl, selectBare_exceeds h hr, container_of_selectBare h, rfl⟩
  | error r' =>
    rw [select, ho] at h
    cases h
    rw [opened] at ho
    repeat' split at ho
    all_goals cases ho
    all_goals cases hr

end

section
variable {name : String} {fields items : List Val} {key : KeyTy} {order : EntryOrder} {elem : Ty}
  {entries : Entries Val} {gap : Option Nat} {last : Bool}

/-- A delete that fails by going down from `w` stops there, or fails at the part that a walk
    finds. -/
def FailsDown (Γ : Schema) (here : Pointer) (t : Token) (f : Val → Outcome) (w : Val) (s : Stop) :
    Prop :=
  Γ.HaltsIn .deleting here (some w) s ∨ ∃ c u, Γ.selectBare t w = .ok c ∧ f c = (.error s, u)

theorem field_failsDown (hn : Γ.node w = .record name fields)
    (h : Γ.removeBare here t last f w = (.error s, v)) : Γ.FailsDown here t f w s := by
  simp only [removeBare, hn] at h
  cases hp : Γ.fieldPath name t with
  | error fault =>
    rw [hp] at h
    cases h
    exact .inl (haltsIn_of_inRange (inRange_of_fieldPath hp))
  | ok path =>
    rw [hp] at h
    dsimp only at h
    cases hc : Γ.follow path w with
    | none =>
      rw [prune_of_follow hc] at h
      cases h
    | some c =>
      rw [prune_follow hc] at h
      obtain ⟨u, hu, -⟩ := Attempt.inside_error h
      exact .inr ⟨c, u, (selectBare_field hn).2 ⟨path, hp, hc⟩, hu⟩

theorem entry_failsDown (hn : Γ.node w = .map key order elem entries)
    (h : Γ.removeBare here t last f w = (.error s, v)) : Γ.FailsDown here t f w s := by
  simp only [removeBare, hn] at h
  cases hk : key.ofToken t.decoded with
  | error e =>
    rw [hk] at h
    cases h
    refine .inl (haltsIn_of_inRange ?_)
    cases e <;> rfl
  | ok k =>
    rw [hk] at h
    dsimp only at h
    split at h
    · cases h
    · cases hc : Entries.get? k entries with
      | none =>
        rw [hc] at h
        cases h
      | some c =>
        rw [hc] at h
        obtain ⟨u, hu, -⟩ := Attempt.inside_error h
        exact .inr ⟨c, u, (selectBare_entry hn).2 ⟨k, hk, hc⟩, hu⟩

theorem selectBare_of_elem?
    (hn : (∃ elem, Γ.node w = .slice elem gap items) ∨ Γ.node w = .array gap items) {i : Nat}
    (hi : t.existing items.length = .ok i) (hc : elem? gap items i = some c) :
    Γ.selectBare t w = .ok c := by
  rcases hn with ⟨elem, hn⟩ | hn <;> simp only [selectBare, hn, hi, hc]

/-- Behind the last element there is nothing to delete, so only a negative position is out of
    range. -/
theorem item_failsDown (hn : Γ.node w = .slice elem gap items)
    (h : Γ.removeBare here t last f w = (.error s, v)) : Γ.FailsDown here t f w s := by
  simp only [removeBare, hn] at h
  cases hi : t.index items.length with
  | error e =>
    rw [hi] at h
    cases e with
    | malformed m =>
      cases h
      exact .inl (haltsIn_of_inRange rfl)
    | outOfRange k bound =>
      dsimp only at h
      split at h
      · cases h
      · next hneg =>
        cases h
        refine .inl ?_
        rintro k b ⟨⟩
        obtain ⟨rfl, -⟩ := Token.index_outOfRange hi
        exact ⟨_, rfl, .removed hn (Int.not_le.1 hneg), rfl, rfl⟩
  | ok i =>
    rw [hi] at h
    dsimp only at h
    split at h
    · cases h
    · next hne =>
      split at h
      · cases h
      · cases hc : elem? gap items i with
        | none =>
          rw [hc] at h
          cases h
        | some c =>
          rw [hc] at h
          obtain ⟨u, hu, -⟩ := Attempt.inside_error h
          obtain ⟨hlt, -⟩ := List.getElem?_eq_some_iff.1 (getElem?_of_elem? hc)
          exact .inr ⟨c, u, selectBare_of_elem? (.inl ⟨elem, hn⟩)
            (Token.existing_eq_ok.2 ⟨hi, hlt⟩) hc, hu⟩

theorem arrayItem_failsDown (hn : Γ.node w = .array gap items)
    (h : Γ.removeBare here t last f w = (.error s, v)) : Γ.FailsDown here t f w s := by
  simp only [removeBare, hn] at h
  cases hi : t.existing items.length with
  | error e =>
    rw [hi] at h
    cases h
    refine .inl ?_
    rintro k b ⟨⟩
    obtain ⟨rfl, hk⟩ := Token.existing_outOfRange hi
    exact ⟨_, rfl, .fixed hn hk, rfl, rfl⟩
  | ok i =>
    rw [hi] at h
    dsimp only at h
    cases hc : elem? gap items i with
    | none =>
      rw [hc] at h
      cases h
    | some c =>
      rw [hc] at h
      obtain ⟨u, hu, -⟩ := Attempt.inside_error h
      exact .inr ⟨c, u, selectBare_of_elem? (.inr hn) hi hc, hu⟩

theorem removeBare_failsDown (h : Γ.removeBare here t last f w = (.error s, v)) :
    Γ.FailsDown here t f w s := by
  cases hn : Γ.node w with
  | record name fields => exact field_failsDown hn h
  | map key order elem entries => exact entry_failsDown hn h
  | slice elem gap items => exact item_failsDown hn h
  | array gap items => exact arrayItem_failsDown hn h
  | scalar =>
    simp only [removeBare, hn] at h
    cases h
    exact .inl (haltsIn_of_inRange rfl)
  | _ =>
    simp only [removeBare, hn] at h
    cases h

/-- **A delete that fails stops at this step**, or fails at the part that a walk finds. -/
theorem remove_halts (h : v.onTarget (fun u => Γ.remove here t last f u) = (.error s, w)) :
    Γ.HaltsIn .deleting here (Γ.basis .deleting t v) s ∨
      ∃ c u, Γ.select t v = .ok c ∧ f c = (.error s, u) := by
  rw [onTarget_eq] at h
  obtain ⟨u, hu, -⟩ := Attempt.inside_error h
  rw [basis, select]
  cases ho : Γ.opened v with
  | ok x =>
    have hx : ∃ u, Γ.removeBare here t last f x = (.error s, u) := by
      rcases opened_cases ho with ⟨rfl, hr⟩ | ⟨bytes, j, hv, he, hj, rfl⟩
      · exact ⟨u, remove_eq hr here t last f ▸ hu⟩
      · rw [hv, remove, he, regionValue?_eq he, hj] at hu
        obtain ⟨u', hu', -⟩ := Attempt.within_error hu
        exact ⟨u', hu'⟩
    obtain ⟨u', hu'⟩ := hx
    exact removeBare_failsDown hu'
  | error r =>
    -- a region that is no JSON
    refine .inl (haltsIn_of_inRange ?_)
    rw [opened] at ho
    split at ho
    · next bytes hv =>
      rw [hv, remove] at hu
      split at ho
      · next he =>
        rw [if_pos he] at hu
        cases hu
      · next he =>
        rw [if_neg he] at hu
        split at ho
        · cases ho
        · next hj =>
          rw [hj] at hu
          cases hu
          rfl
    · cases ho

end

/-! ## Storing -/

/-- What is unfit for a slot is so for no position. -/
theorem Unfit.inRange {fault : Fault} (h : Unfit fault) : fault.isOutOfRange = false := by
  cases h <;> rfl

/-! ## Walks -/

theorem halts_of_inRange (h : s.fault.isOutOfRange = false) : Γ.Halts op ts v s := by
  intro k b hf
  rw [hf] at h
  cases h

/-- A stop behind tokens that lead somewhere. -/
theorem halts_of_haltsIn {us : List Token} (hc : Γ.reached op ts v = some c)
    (h : Γ.HaltsIn op (.ofTokens (t :: us)) (Γ.basis op t c) s) :
    Γ.Halts op (ts ++ t :: us) v s := by
  intro k b hf
  obtain ⟨w, hw, hk, hcontainer, hcurrent⟩ := h k b hf
  exact ⟨ts, t, us, c, w, rfl, hc, hw, hk, hcontainer, hcurrent⟩

theorem assignTokens_halts (hΓ : Γ.Plain) {redirect : Val → Pointer → Val → Outcome}
    (h : Γ.assignTokens redirect ts v x = (.error s, w)) : Γ.Halts .assigning ts v s := by
  rcases assignTokens_error hΓ h with ⟨us, t, vs, c, rfl, hc, hs⟩ | ⟨c, r, u, -, hr, rfl⟩
  · exact halts_of_haltsIn hc hs.haltsIn
  · exact halts_of_inRange (unfit_of_store hr).inRange

theorem resolveTokens_halts (hΓ : Γ.Plain)
    (h : Γ.resolveTokens (Γ.find Γ.redirects) ts v = .error s) : Γ.Halts .resolving ts v s := by
  obtain ⟨us, t, vs, c, r, rfl, hc, hr, rfl⟩ := resolveTokens_error hΓ h
  refine halts_of_haltsIn ?_ (select_halts hr _)
  simp only [reached, hc, Except.toOption]

theorem deleteTokens_halts (hΓ : Γ.Plain) {redirect : Val → Pointer → Outcome}
    (h : Γ.deleteTokens redirect ts v = (.error s, w)) : Γ.Halts .deleting ts v s := by
  suffices hs : ∀ k b, s.fault = .index (.outOfRange k b) → ∃ us t vs c, ts = us ++ t :: vs ∧
      Γ.resolveTokens (Γ.find Γ.redirects) us v = .ok c ∧
      Γ.HaltsIn .deleting (.ofTokens (t :: vs)) (Γ.basis .deleting t c) s by
    intro k b hf
    obtain ⟨us, t, vs, c, rfl, hc, hs⟩ := hs k b hf
    have hreached : Γ.reached .deleting us v = some c := by simp only [reached, hc, Except.toOption]
    exact halts_of_haltsIn hreached hs k b hf
  induction ts generalizing v w with
  | nil => cases h
  | cons t ts ih =>
    intro k b hf
    rw [hΓ.deleteTokens_cons] at h
    rcases remove_halts h with hs | ⟨d, u, hd, hu⟩
    · exact ⟨[], t, ts, v, rfl, rfl, hs⟩
    · obtain ⟨us, t', vs, c, rfl, hc, hs⟩ := ih hu k b hf
      refine ⟨t :: us, t', vs, c, rfl, ?_, hs⟩
      rw [hΓ.resolveTokens_cons _ _ _ hd]
      exact hc

/-! ## Calls -/

theorem halts_of_report {out : Outcome} {e : WalkError} (h : report op p out = (.error e, w))
    (hout : ∀ s u, out = (.error s, u) → Γ.Halts op ts v s) : Γ.Halts op ts v e.stop := by
  obtain ⟨s | _, u⟩ := out
  · cases h
    exact hout s u rfl
  · cases h

/-- **A position out of range is negative or exceeds the bound that is reported for it**, and the
    bound is that of the verb in the sequence where the call stopped.  A delete tells the
    length of a growing sequence, although a resolve tells the position of its last element. -/
theorem out_of_range_reported (hΓ : Γ.Plain) (doc : Val) (p : Pointer) (e : WalkError) (w : Val) :
    (∀ dst, Γ.resolve doc dst p = (.error e, w) → Γ.Halts .resolving p.tokens doc e.stop) ∧
      (Γ.delete doc p = (.error e, w) → Γ.Halts .deleting p.tokens doc e.stop) ∧
      ∀ x, Γ.assign doc p x = (.error e, w) → Γ.Halts .assigning p.tokens doc e.stop := by
  cases hp : p.validate with
  | error m =>
    refine ⟨?_, ?_, ?_⟩
    · intro dst h
      rw [resolve, hp] at h
      cases h
      exact halts_of_inRange rfl
    · intro h
      rw [delete, hp] at h
      cases h
      exact halts_of_inRange rfl
    · intro x h
      rw [assign, hp] at h
      cases h
      exact halts_of_inRange rfl
  | ok _ =>
    refine ⟨?_, ?_, ?_⟩
    · intro dst h
      rw [resolve_eq hp] at h
      cases hs : Γ.seek doc p with
      | error s =>
        rw [hs] at h
        cases h
        rw [seek_eq hp] at hs
        exact resolveTokens_halts hΓ hs
      | ok x =>
        rw [hs] at h
        dsimp only at h
        generalize hout : Γ.deliver dst x = out at h
        obtain ⟨r | _, u⟩ := out
        · cases h
          exact halts_of_inRange (unfit_of_deliver hout).inRange
        · cases h
    · intro h
      rw [delete_eq hp] at h
      exact halts_of_report h fun s u => deleteTokens_halts hΓ
    · intro x h
      rw [assign_eq hp] at h
      exact halts_of_report h fun s u => assignTokens_halts hΓ

/-- A second step is missing in a job with one step; in a job without steps an assign makes room
    for them, but not for a second one. -/
theorem jobs_out_of_range :
    jobs.Halts .resolving (Pointer.tokens ⟨"/steps/1"⟩) busyJob
        ⟨.index (.outOfRange 1 0), .slice (hashed i64), ⟨"/1"⟩⟩ ∧
      jobs.Halts .assigning (Pointer.tokens ⟨"/steps/1"⟩) job
        ⟨.index (.outOfRange 1 0), .slice (hashed i64), ⟨"/1"⟩⟩ := by
  have hresolve : (jobs.resolve busyJob .vacant ⟨"/steps/1"⟩).1 = .error ⟨.resolving, ⟨"/steps/1"⟩,
      ⟨.index (.outOfRange 1 0), .slice (hashed i64), ⟨"/1"⟩⟩⟩ := by decide +kernel
  have hassign : (jobs.assign job ⟨"/steps/1"⟩ (.bool true)).1 = .error ⟨.assigning, ⟨"/steps/1"⟩,
      ⟨.index (.outOfRange 1 0), .slice (hashed i64), ⟨"/1"⟩⟩⟩ := by decide +kernel
  constructor
  · generalize hout : jobs.resolve busyJob .vacant ⟨"/steps/1"⟩ = out at hresolve
    obtain ⟨_, w⟩ := out
    subst hresolve
    exact (out_of_range_reported plain_jobs busyJob _ _ w).1 .vacant hout
  · generalize hout : jobs.assign job ⟨"/steps/1"⟩ (.bool true) = out at hassign
    obtain ⟨_, w⟩ := out
    subst hassign
    exact (out_of_range_reported plain_jobs job _ _ w).2.2 (.bool true) hout

/-- For a negative position a delete tells the length of the sequence, and a resolve the position
    of the last element. -/
theorem delete_tells_length :
    let doc := Val.slice i64 [.int .i64 4]
    jobs.delete doc ⟨"/-1"⟩ =
      (.error ⟨.deleting, ⟨"/-1"⟩, ⟨.index (.outOfRange (-1) 1), .slice i64, ⟨"/-1"⟩⟩⟩, doc) ∧
    jobs.resolve doc (.int .i64 0) ⟨"/-1"⟩ =
      (.error ⟨.resolving, ⟨"/-1"⟩, ⟨.index (.outOfRange (-1) 0), .slice i64, ⟨"/-1"⟩⟩⟩,
        .int .i64 0) := ⟨rfl, rfl⟩

end Schema

end DocPointer
