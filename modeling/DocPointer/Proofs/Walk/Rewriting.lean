/-
  A navigation hook rewrites the pointer.

  At a value on its way a walk may be led by a hook to a part of the value, with another
  pointer to go (`Detour`).  It does there what it would have done if its pointer had named, in
  place of the tokens that the hook has used up, those that lead to the part.  It counts one
  redirection more, which matters only to a walk that is refused for their number.

  * `Detour.resolveTokens`, `Detour.assignTokens` and `Detour.deleteTokens`: the walk led by the
    hook and the rewritten one come to the same part, with the same way back.
  * `call_rewritten`: calls.
-/
import DocPointer.Proofs.Walk.Budget
import DocPointer.Proofs.Walk.Passing
import DocPointer.Samples.Kin

namespace DocPointer

/-- The outcome of a call, reported for the pointer `p`. -/
def restated (p : Pointer) (out : Except WalkError Unit × Val) : Except WalkError Unit × Val :=
  (out.1.mapError ({ · with pointer := p }), out.2)

/-- The call was not refused for the number of its redirections. -/
def Settles (out : Except WalkError Unit × Val) : Prop :=
  ∀ e, out.1 = .error e → e.stop.fault ≠ .redirects

namespace Schema

open Samples

section
variable (Γ : Schema)

/-- A hook of `v` that is asked about the pointer `here` leads to `child`, and writes `written`
    back.  A hook for a change leaves `v` as it is: when `child` has changed it is put back where
    the tokens `ss` lead, which is in no region. -/
def Leads (v : Val) (here : Pointer) (ss : List Token) (child : Val) (written : Pointer) :
    Errand → Prop
  | .find => (Γ.hooks v).lookup v here = .leads child written
  | .assign x => (Γ.hooks v).assign v here x = .yields v x ∧
      (Γ.hooks v).navigate .assigning v here = .leads child (Γ.put ss v) written ∧
      ∀ bytes, ¬Γ.Enters ss v bytes
  | .delete => (Γ.hooks v).delete v here = .yields v () ∧
      (Γ.hooks v).navigate .deleting v here = .leads child (Γ.put ss v) written ∧
      ∀ bytes, ¬Γ.Enters ss v bytes

/-- The walk of `p ++ q` passes `p`, and a hook of what it reaches there, behind the pointers of
    `w`, leads it to `child`.  From there it goes on with `r`: what follows the first token of `q`
    if the hook has left that pointer alone, and otherwise what the hook has written.  The tokens
    of `s`, with `r` behind them, lead to `child` too, past hooks that yield. -/
structure Detour (e : Errand) (doc w child : Val) (p q s r : Pointer) : Prop where
  passes : Γ.Passes e q.tokens p.tokens doc w
  leads : ∃ t rest written, q.next = some (t, rest) ∧
    Γ.Leads w.target q s.tokens child written e ∧ r = if written = q then rest else written
  passes_rewritten : Γ.Passes e (s ++ r).tokens p.tokens doc w
  reaches : Γ.Passes e r.tokens s.tokens w.target child
  /-- A walk that ends there does so behind the pointers. -/
  target_eq : s ++ r = .root → w.target = w

/-- What is done to the part that `ss` lead to from behind the pointers of `w`, as done to a
    document in which `ps` lead to `w`. -/
def enframe (ps ss : List Token) (doc w : Val) (out : Outcome) : Outcome :=
  ((out.inside (Γ.put ss w.target)).inside w.retarget).within (Γ.put ps doc) (Γ.recover ps doc)

end

variable {Γ : Schema} {e : Errand} {doc w child x : Val} {p q s r : Pointer}

/-! ## One detour -/

theorem tokens_eq_cons {t : Token} {rest : Pointer} (hq : q.validate = .ok ())
    (hnext : q.next = some (t, rest)) : ∃ ts, q.tokens = t :: ts := by
  obtain ⟨-, ts, hts⟩ := Pointer.tokens_of_next (r := .root) (Pointer.root_append q ▸ hq) hnext
  exact ⟨ts, Pointer.root_append q ▸ hts⟩

theorem after_eq {t : Token} {rest written : Pointer} (hnext : q.next = some (t, rest)) :
    q.after written = if written = q then rest else written := by
  rw [Pointer.after, hnext]
  rfl

/-- Only records have hooks, and a record is not nil. -/
theorem node_ne_nil_of_navigate {v c : Val} {op : Operation} {here written : Pointer}
    {back : Val → Val} (h : (Γ.hooks v).navigate op v here = .leads c back written) :
    Γ.node v ≠ .nil := by
  cases v with
  | record name fields => exact recordNode_ne_nil name fields
  | _ => cases h

theorem target_eq_of_tokens (hs : s.validate = .ok ()) (hr : r.validate = .ok ())
    (h : s ++ r = .root → w.target = w) (hnil : (s ++ r).tokens = []) : w.target = w := by
  have hsr := Pointer.ofTokens_tokens (Pointer.validate_append hs hr)
  rw [hnil] at hsr
  exact h hsr.symm

section
variable (hq : q.validate = .ok ()) (hs : s.validate = .ok ()) (hr : r.validate = .ok ())
include hq hs hr

theorem Detour.resolveTokens (h : Γ.Detour .find doc w child p q s r)
    (redirect : Val → Pointer → Except Stop Val) :
    Γ.resolveTokens redirect (p.tokens ++ q.tokens) doc = redirect child r ∧
      Γ.resolveTokens redirect (p.tokens ++ (s ++ r).tokens) doc =
        Γ.resolveTokens redirect r.tokens child := by
  obtain ⟨hpass, ⟨t, rest, written, hnext, hlookup, rfl⟩, hpass', hreach, htarget⟩ := h
  have hlookup : (Γ.hooks w.target).lookup w.target q = .leads child written := hlookup
  constructor
  · obtain ⟨ts, hts⟩ := tokens_eq_cons hq hnext
    have hhere : Pointer.ofTokens (t :: ts) = q := hts ▸ Pointer.ofTokens_tokens hq
    rw [hpass.resolveTokens, hts, Schema.resolveTokens]
    simp only [hhere, hlookup, after_eq hnext]
  · rw [hpass'.resolveTokens, ← resolveTokens_target (target_eq_of_tokens hs hr htarget),
      Pointer.tokens_append hs hr, hreach.resolveTokens]

theorem Detour.assignTokens (h : Γ.Detour (.assign x) doc w child p q s r)
    (redirect : Val → Pointer → Val → Outcome) :
    Γ.assignTokens redirect (p.tokens ++ q.tokens) doc x =
        Γ.enframe p.tokens s.tokens doc w (redirect child r x) ∧
      Γ.assignTokens redirect (p.tokens ++ (s ++ r).tokens) doc x =
        Γ.enframe p.tokens s.tokens doc w (Γ.assignTokens redirect r.tokens child x) := by
  obtain ⟨hpass, ⟨t, rest, written, hnext, ⟨hassign, hnavigate, hplain⟩, rfl⟩, hpass', hreach,
    htarget⟩ := h
  have hn := node_ne_nil_of_navigate hnavigate
  constructor
  · obtain ⟨ts, hts⟩ := tokens_eq_cons hq hnext
    have hhere : Pointer.ofTokens (t :: ts) = q := hts ▸ Pointer.ofTokens_tokens hq
    rw [hpass.assignTokens, hts, Schema.assignTokens, allocating_eq hn]
    simp only [assignSteered, hhere, hassign, hnavigate, after_eq hnext]
    rfl
  · rw [hpass'.assignTokens, assignTokens_target (target_eq_of_tokens hs hr htarget) _ hn,
      Pointer.tokens_append hs hr, hreach.assignTokens, hreach.recover_eq hplain,
      ← Attempt.inside_eq]
    rfl

theorem Detour.deleteTokens (h : Γ.Detour .delete doc w child p q s r) (hroot : r ≠ .root)
    (redirect : Val → Pointer → Outcome) :
    Γ.deleteTokens redirect (p.tokens ++ q.tokens) doc =
        Γ.enframe p.tokens s.tokens doc w (redirect child r) ∧
      Γ.deleteTokens redirect (p.tokens ++ (s ++ r).tokens) doc =
        Γ.enframe p.tokens s.tokens doc w (Γ.deleteTokens redirect r.tokens child) := by
  have htokens : r.tokens ≠ [] := by
    intro hnil
    exact hroot (Pointer.ofTokens_tokens hr ▸ hnil ▸ rfl)
  obtain ⟨hpass, ⟨t, rest, written, hnext, ⟨hdelete, hnavigate, hplain⟩, rfl⟩, hpass', hreach,
    htarget⟩ := h
  constructor
  · obtain ⟨ts, hts⟩ := tokens_eq_cons hq hnext
    have hhere : Pointer.ofTokens (t :: ts) = q := hts ▸ Pointer.ofTokens_tokens hq
    rw [hpass.deleteTokens (by simp [hts]), hts, Schema.deleteTokens, onTarget_eq]
    simp only [deleteSteered, hhere, hdelete, hnavigate, after_eq hnext]
    rfl
  · rw [hpass'.deleteTokens (by simp [Pointer.tokens_append hs hr, htokens]),
      deleteTokens_target (target_eq_of_tokens hs hr htarget),
      Pointer.tokens_append hs hr, hreach.deleteTokens htokens, hreach.recover_eq hplain,
      ← Attempt.inside_eq]
    rfl

end

/-! ## Calls -/

theorem settles_enframe {op : Operation} {ps ss : List Token} {out : Outcome}
    (h : Settles (report op p (Γ.enframe ps ss doc w out))) : Ends out.1 := by
  intro stop hstop
  refine h ⟨op, p, stop⟩ ?_
  obtain ⟨_ | _, v⟩ := out <;> cases hstop
  rfl

theorem restated_report (op : Operation) (out : Outcome) :
    restated q (report op p out) = report op q out := by
  obtain ⟨_ | _, v⟩ := out <;> rfl

/-- **A navigation hook rewrites the pointer.**  A call whose walk is led by a hook has the outcome
    of the call in which the tokens that lead to the part, and what the hook has left of the
    pointer, are written out: it finds the same value, leaves the same document, or is refused for
    the same cause at the same container with the same rest of the pointer. -/
theorem call_rewritten (hp : p.validate = .ok ()) (hq : q.validate = .ok ())
    (hs : s.validate = .ok ()) (hr : r.validate = .ok ()) :
    (∀ dst, Γ.Detour .find doc w child p q s r → Settles (Γ.resolve doc dst (p ++ q)) →
      Γ.resolve doc dst (p ++ (s ++ r)) =
        restated (p ++ (s ++ r)) (Γ.resolve doc dst (p ++ q))) ∧
    (∀ x, Γ.Detour (.assign x) doc w child p q s r → Settles (Γ.assign doc (p ++ q) x) →
      Γ.assign doc (p ++ (s ++ r)) x =
        restated (p ++ (s ++ r)) (Γ.assign doc (p ++ q) x)) ∧
    (Γ.Detour .delete doc w child p q s r → r ≠ .root → Settles (Γ.delete doc (p ++ q)) →
      Γ.delete doc (p ++ (s ++ r)) =
        restated (p ++ (s ++ r)) (Γ.delete doc (p ++ q))) := by
  have hpq := Pointer.validate_append hp hq
  have hsr := Pointer.validate_append hs hr
  have hpsr := Pointer.validate_append hp hsr
  have hwalks := Pointer.walks_of_validate hr
  refine ⟨?_, ?_, ?_⟩
  · intro dst h hsettles
    obtain ⟨hled, hrewritten⟩ := h.resolveTokens hq hs hr (Γ.find Γ.redirects)
    rw [← Pointer.tokens_append hp hq, ← seek_eq hpq] at hled
    rw [← Pointer.tokens_append hp hsr, ← seek_eq hpsr] at hrewritten
    have hends : Ends (Γ.find Γ.redirects child r) := by
      intro stop hstop
      refine hsettles ⟨.resolving, p ++ q, stop⟩ ?_
      rw [resolve_eq hpq, hled, hstop]
    have hseek : Γ.seek doc (p ++ (s ++ r)) = Γ.seek doc (p ++ q) := by
      rw [hled, hrewritten, ← find_succ hends, find, if_pos hwalks]
    rw [resolve_eq hpq, resolve_eq hpsr, hseek]
    cases Γ.seek doc (p ++ q) with
    | error stop => rfl
    | ok v =>
      dsimp only
      obtain ⟨_ | _, u⟩ := Γ.deliver dst v <;> rfl
  · intro x h hsettles
    obtain ⟨hled, hrewritten⟩ := h.assignTokens hq hs hr (Γ.place Γ.redirects)
    rw [assign_eq hpq, Pointer.tokens_append hp hq, hled] at hsettles ⊢
    have hends : Ends (Γ.place Γ.redirects child r x).1 := settles_enframe hsettles
    rw [assign_eq hpsr, Pointer.tokens_append hp hsr, hrewritten, restated_report,
      ← place_succ hends, place, if_pos hwalks]
  · intro h hroot hsettles
    obtain ⟨hled, hrewritten⟩ := h.deleteTokens hq hs hr hroot (Γ.discard Γ.redirects)
    rw [delete_eq hpq, Pointer.tokens_append hp hq, hled] at hsettles ⊢
    have hends : Ends (Γ.discard Γ.redirects child r).1 := settles_enframe hsettles
    rw [delete_eq hpsr, Pointer.tokens_append hp hsr, hrewritten, restated_report,
      ← discard_succ hends, discard, if_pos hwalks]

theorem select_kids (name : String) (kids : List Val) :
    kin.select ⟨"kids"⟩ (kinsman name kids) = .ok (.slice (.record "Kin") kids) := by
  have hpath : kin.fieldPath "Kin" ⟨"kids"⟩ = .ok [1] := by decide +kernel
  exact select_eq_ok.2 ⟨_, rfl, (selectBare_field rfl).2 ⟨_, hpath, rfl⟩⟩

theorem passes_firstKid {us : List Token} {name : String}
    (h : kin.Yields (kinsman name [child]) (.ofTokens ([⟨"kids"⟩, ⟨"0"⟩] ++ us)) e) :
    kin.Passes e us [⟨"kids"⟩, ⟨"0"⟩] (kinsman name [child]) child := by
  refine .step h (select_kids name [child]) (.step ?_ rfl .here)
  cases e with
  | find => rfl
  | assign x | delete => exact ⟨rfl, rfl⟩

theorem settles_of_isOk {out : Except WalkError Unit × Val} (h : out.1.isOk = true) :
    Settles out := by
  intro e he
  rw [he] at h
  cases h

/-- The hook of the mother leads to her last kid, and the tokens behind it go on from there. -/
theorem kin_rewritten :
    kin.resolve grandmother (.int .i64 0) ⟨"/kids/0/kids/0/store/age"⟩ =
        restated ⟨"/kids/0/kids/0/store/age"⟩
          (kin.resolve grandmother (.int .i64 0) ⟨"/kids/0/@last/store/age"⟩) ∧
      kin.assign grandmother ⟨"/kids/0/kids/0/store/age"⟩ (.int .i64 8) =
        restated ⟨"/kids/0/kids/0/store/age"⟩
          (kin.assign grandmother ⟨"/kids/0/@last/store/age"⟩ (.int .i64 8)) ∧
      kin.delete grandmother ⟨"/kids/0/kids/0/store/age"⟩ =
        restated ⟨"/kids/0/kids/0/store/age"⟩
          (kin.delete grandmother ⟨"/kids/0/@last/store/age"⟩) := by
  have hdetour (e : Errand) (hled : kin.Yields grandmother ⟨"/kids/0/@last/store/age"⟩ e)
      (hlead : kin.Leads mother ⟨"/@last/store/age"⟩ [⟨"kids"⟩, ⟨"0"⟩] (kinsman "Cy" [])
        ⟨"/@last/store/age"⟩ e)
      (hplain : kin.Yields grandmother ⟨"/kids/0/kids/0/store/age"⟩ e)
      (hreach : kin.Yields mother ⟨"/kids/0/store/age"⟩ e) :
      kin.Detour e grandmother mother (kinsman "Cy" []) ⟨"/kids/0"⟩ ⟨"/@last/store/age"⟩ ⟨"/kids/0"⟩
        ⟨"/store/age"⟩ :=
    ⟨passes_firstKid hled, ⟨⟨"@last"⟩, ⟨"/store/age"⟩, _, rfl, hlead, rfl⟩,
      passes_firstKid hplain, passes_firstKid hreach, fun _ => rfl⟩
  have hput : Hooky.withLastKid mother = kin.put [⟨"kids"⟩, ⟨"0"⟩] mother := by
    have haddress : kin.addressBare? ⟨"kids"⟩ mother = some (.field [1]) := by decide +kernel
    have hkids : kin.select ⟨"kids"⟩ mother = .ok (.slice (.record "Kin") [kinsman "Cy" []]) :=
      select_kids "Bo" _
    funext c
    rw [put_cons hkids, lodge_eq rfl haddress]
    rfl
  have hregion (bytes : ByteArray) : ¬kin.Enters [⟨"kids"⟩, ⟨"0"⟩] mother bytes := by
    rintro (h | ⟨hc, h | ⟨-, h⟩⟩)
    · cases h
    · cases (select_kids "Bo" _).symm.trans hc
      cases h
    · cases h
  obtain ⟨hresolve, hassign, hdelete⟩ :=
    @call_rewritten kin grandmother mother (kinsman "Cy" []) ⟨"/kids/0"⟩ ⟨"/@last/store/age"⟩
      ⟨"/kids/0"⟩ ⟨"/store/age"⟩ rfl rfl rfl rfl
  refine ⟨hresolve _ (hdetour .find rfl rfl rfl rfl) (settles_of_isOk ?_),
    hassign _ (hdetour (.assign (.int .i64 8)) ⟨rfl, rfl⟩ ⟨rfl, hput ▸ rfl, hregion⟩ ⟨rfl, rfl⟩
      ⟨rfl, rfl⟩) (settles_of_isOk ?_),
    hdelete (hdetour .delete ⟨rfl, rfl⟩ ⟨rfl, hput ▸ rfl, hregion⟩ ⟨rfl, rfl⟩ ⟨rfl, rfl⟩)
      (by decide) (settles_of_isOk ?_)⟩
  all_goals decide +kernel

end Schema

end DocPointer
