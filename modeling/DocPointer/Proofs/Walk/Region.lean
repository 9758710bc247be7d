/-
  A region of JSON text behaves as the value it spells.

  A `Call` is a resolve into a JSON value, an assign or a delete.  Performed on a region
  and on the value that the region spells, every call has the same answer, and afterwards
  the region spells what the value has become (`perform_spelled`); so do whole runs
  (`transcript_spelled`).

  Below its root a region is decoded, changed as the value is, and encoded again; that
  this gives back the value is the codec's part (`Schema.Faithful`).  The root itself
  and the empty region, which spells null, take ways of their own.
-/
import Mathlib.Data.List.Forall2
import DocPointer.Proofs.Document.Encoding
import DocPointer.Proofs.Pointer.Tokens
import DocPointer.Proofs.Walk.Descent
import DocPointer.Walk.Delete

namespace DocPointer

/-! ## Runs -/

/-- A call. -/
inductive Call where
  /-- Into a destination for JSON. -/
  | resolve (p : Pointer) (dst : Json)
  | assign (p : Pointer) (x : Val)
  | delete (p : Pointer)

/-- The value that a call assigns. -/
def Call.value? : Call → Option Val
  | assign _ x => some x
  | _ => none

/-- What a call answers: whether it worked and, of a resolve, the destination. -/
structure Answer where
  result : Except WalkError Unit
  dst : Option Val := none

/-- Both calls worked, with the same destination, or both failed, for the same cause at
    the same place of the pointer. -/
inductive Answer.Agrees : Answer → Answer → Prop where
  | worked (dst : Option Val) : Agrees ⟨.ok (), dst⟩ ⟨.ok (), dst⟩
  | failed {e f : WalkError} (dst : Option Val) : e.op = f.op → e.pointer = f.pointer →
      e.stop.fault = f.stop.fault → e.stop.current = f.stop.current →
      Agrees ⟨.error e, dst⟩ ⟨.error f, dst⟩

theorem Answer.Agrees.refl (a : Answer) : a.Agrees a := by
  obtain ⟨_ | _, dst⟩ := a
  · exact .failed dst rfl rfl rfl rfl
  · exact .worked dst

namespace Schema

open Samples

section
variable (Γ : Schema)

/-- Performs a call on a document: the answer, and the document afterwards. -/
def perform (doc : Val) : Call → Answer × Val
  | .resolve p dst =>
    let (result, v) := Γ.resolve doc (.json dst) p
    (⟨result, some v⟩, doc)
  | .assign p x =>
    let (result, doc) := Γ.assign doc p x
    ({ result := result }, doc)
  | .delete p =>
    let (result, doc) := Γ.delete doc p
    ({ result := result }, doc)

/-- Performs calls one after the other: every answer, with the document after it. -/
def transcript (doc : Val) : List Call → List (Answer × Val)
  | [] => []
  | c :: cs => Γ.perform doc c :: transcript (Γ.perform doc c).2 cs

/-- A proper value that has a JSON form. -/
def Encodable (x : Val) : Prop := x.Proper ∧ ∃ j, Γ.encode x = some j

/-- `r` is a region, empty or with valid JSON, that spells the JSON value `d`. -/
def Spells (r d : Val) : Prop :=
  ∃ bytes j, r = .raw bytes ∧ d = .json j ∧ Γ.regionValue? bytes = some j

end

variable {Γ : Schema} {bytes : ByteArray} {j : Json}

/-! ## Changes of JSON values -/

theorem fits_of_isJson {v w : Val} (hv : v.IsJson) (hw : w.IsJson) : v.Fits w := by
  obtain ⟨i, rfl, -⟩ := hv
  obtain ⟨j, rfl, hj⟩ := hw
  exact ⟨rfl, fun _ => ⟨j, rfl, hj⟩⟩

/-- A change that fails on `v` leaves `v`, and one that works a JSON value. -/
def JsonSafe (out : Outcome) (v : Val) : Prop :=
  (∀ e w, out = (.error e, w) → w = v) ∧ ∀ w, out = (.ok (), w) → w.IsJson

theorem JsonSafe.step {v : Val} {F : (Val → Outcome) → Outcome} {final : Prop}
    {Sees : Val → Val → Prop} (h : Step v F final Sees) (hv : v.IsJson) {f : Val → Outcome}
    (hf : ∀ u, u.IsJson → JsonSafe (f u) u) : JsonSafe (F f) v := by
  constructor
  · intro e w he
    rcases h.of_error he with rfl | ⟨P, hP, u, hu, rfl⟩
    · rfl
    · rw [(hf _ (hP.isJson_part hv)).1 e u hu, hP.undo_part]
  · intro w hw
    rcases h.of_ok hw with hfit | ⟨P, hP, u, hu, rfl⟩
    · exact hfit.2 hv
    · have hpart := hP.isJson_part hv
      have hback := hP.fits_back (fits_of_isJson hpart ((hf _ hpart).2 u hu))
      exact hback.2 hv

theorem JsonSafe.done {v w : Val} (hw : w.IsJson) : JsonSafe (.done w) v := by
  constructor
  · intro e u h
    cases h
  · intro u h
    cases h
    exact hw

/-- A slot for JSON takes the JSON form of a value. -/
theorem store_json {x : Val} (hx : Γ.encode x = some j) (i : Json) :
    Γ.store (.json i) x = .done (.json j) := by
  have hadopt : Γ.adopts? .json x = some (.json j) := by
    by_cases ht : x.typeOf = .json
    · obtain ⟨k, rfl⟩ := Val.eq_json_of_typeOf ht
      cases hx
      rfl
    · simp only [adopts?, ht, if_false, hx, Option.map_some]
  simp only [store, Val.typeOf, offer, hadopt]

theorem assignTokens_jsonSafe {redirect : Val → Pointer → Val → Outcome} {x : Val}
    (hx : Γ.Encodable x) (ts : List Token) {v : Val} (hv : v.IsJson) :
    JsonSafe (Γ.assignTokens redirect ts v x) v := by
  obtain ⟨hp, k, hk⟩ := hx
  have hw := wellformed_of_encode hp hk
  induction ts generalizing v with
  | nil =>
    obtain ⟨i, rfl, -⟩ := hv
    rw [assignTokens, store_json hk]
    exact .done ⟨k, rfl, hw⟩
  | cons t ts ih =>
    obtain ⟨i, rfl, hi⟩ := hv
    exact .step (descend_step _ t _) ⟨i, rfl, hi⟩ fun u hu => ih hu

theorem deleteTokens_jsonSafe {redirect : Val → Pointer → Outcome} (ts : List Token) {v : Val}
    (hv : v.IsJson) : JsonSafe (Γ.deleteTokens redirect ts v) v := by
  induction ts generalizing v with
  | nil =>
    obtain ⟨i, rfl, -⟩ := hv
    exact .done ⟨.null, rfl, trivial⟩
  | cons t ts ih =>
    obtain ⟨i, rfl, hi⟩ := hv
    exact .step (remove_step _ t _ _) ⟨i, rfl, hi⟩ fun u hu => ih hu

/-! ## Outcomes -/

/-- What became of a region, and what became of the value it spells. -/
inductive Parallel (Γ : Schema) : Outcome → Outcome → Prop where
  | worked {r d : Val} : Γ.Spells r d → Parallel Γ (.ok (), r) (.ok (), d)
  | failed {s s' : Stop} {r d : Val} : s.fault = s'.fault → s.current = s'.current →
      Γ.Spells r d → Parallel Γ (.error s, r) (.error s', d)

theorem spells_toBytes (hΓ : Γ.Faithful) (hj : j.Wellformed) :
    Γ.Spells (.raw j.toBytes) (.json j) :=
  ⟨_, j, rfl, rfl, (opened_toBytes hΓ hj).2⟩

/-- A region is encoded again if the change of its value works, and has its bytes back
    if it does not. -/
theorem parallel_within (hΓ : Γ.Faithful) (h : Γ.regionValue? bytes = some j) {out : Outcome}
    (hsafe : JsonSafe out (.json j)) :
    Γ.Parallel (out.within (fun v => .raw v.asJson.toBytes) fun _ => .raw bytes) out := by
  obtain ⟨s | _, w⟩ := out
  · cases hsafe.1 s w rfl
    exact .failed rfl rfl ⟨bytes, j, rfl, rfl, h⟩
  · obtain ⟨k, rfl, hk⟩ := hsafe.2 w rfl
    exact .worked (spells_toBytes hΓ hk)

/-- The region of a value that is decoded as one. -/
theorem spells_regionOf (hΓ : Γ.Faithful) (hj : j.Wellformed) :
    Γ.Spells (.raw (regionOf j)) (.json j) := by
  rw [regionOf]
  split
  · next hn =>
    cases j <;> cases hn
    exact ⟨_, _, rfl, rfl, rfl⟩
  · exact spells_toBytes hΓ hj

/-- The root of a region takes every value that has a JSON form. -/
theorem store_spelled (hΓ : Γ.Faithful) {x : Val} (hx : Γ.encode x = some j) (hj : j.Wellformed)
    (bytes : ByteArray) :
    ∃ r, Γ.store (.raw bytes) x = .done r ∧ Γ.Spells r (.json j) := by
  by_cases hraw : x.typeOf = .raw
  · refine ⟨x, ?_, ?_⟩
    · simp only [store, Val.typeOf, offer, adopts?, hraw, if_true]
    · cases x with
      | raw b => exact ⟨b, j, rfl, rfl, hx⟩
      | _ => cases hraw
  · have hadopt : Γ.adopts? .raw x = none := by simp only [adopts?, hraw, if_false]
    cases x with
    | json k =>
      cases hx
      refine ⟨.raw (regionOf j), ?_, spells_regionOf hΓ hj⟩
      have hdec : Γ.decode j .raw = some (.raw (regionOf j)) := decode_of_adopt? rfl
      simp only [store, Val.typeOf, offer, hadopt, crosses, hdec]
    | raw b => exact absurd rfl hraw
    | _ =>
      refine ⟨.raw j.toBytes, ?_, spells_toBytes hΓ hj⟩
      simp only [store, Val.typeOf, offer, hadopt, settle, settleBare, node, hx]

/-! ## Calls -/

/-- Behind its root a region is assigned to in the value that it spells. -/
theorem assignTokens_region (h : Γ.regionValue? bytes = some j)
    (redirect : Val → Pointer → Val → Outcome) (x : Val) (t : Token) (ts : List Token) :
    Γ.assignTokens redirect (t :: ts) (.raw bytes) x =
      (Γ.assignTokens redirect (t :: ts) (.json j) x).within (fun v => .raw v.asJson.toBytes)
        fun _ => .raw bytes := by
  show Γ.descend _ t _ (.raw bytes) = (Γ.descendJson _ t _ j).within _ _
  rw [descend, h]

/-- Behind its root it is deleted from there, if it is not empty. -/
theorem deleteTokens_region (he : bytes.isEmpty = false) (h : Γ.regionValue? bytes = some j)
    (redirect : Val → Pointer → Outcome) (t : Token) (ts : List Token) :
    Γ.deleteTokens redirect (t :: ts) (.raw bytes) =
      (Γ.deleteTokens redirect (t :: ts) (.json j)).within (fun v => .raw v.asJson.toBytes)
        fun _ => .raw bytes := by
  show Γ.remove _ t _ _ (.raw bytes) = (Γ.removeBare _ t _ _ (.json j)).within _ _
  rw [remove, if_neg (by simp [he]), h]

/-- An empty region has nothing behind its root. -/
theorem deleteTokens_empty (he : bytes.isEmpty = true) (redirect : Val → Pointer → Outcome)
    (t : Token) (ts : List Token) :
    Γ.deleteTokens redirect (t :: ts) (.raw bytes) = .done (.raw bytes) := by
  show Γ.remove _ t _ _ (.raw bytes) = _
  rw [remove, if_pos he]

theorem assignTokens_spelled (hΓ : Γ.Faithful) (h : Γ.regionValue? bytes = some j)
    (redirect : Val → Pointer → Val → Outcome) {x : Val} (hx : Γ.Encodable x) (ts : List Token) :
    Γ.Parallel (Γ.assignTokens redirect ts (.raw bytes) x)
      (Γ.assignTokens redirect ts (.json j) x) := by
  have hj : (Val.json j).IsJson := ⟨j, rfl, wellformed_of_regionValue? h⟩
  cases ts with
  | nil =>
    obtain ⟨hp, k, hk⟩ := hx
    obtain ⟨r, hr, hs⟩ := store_spelled hΓ hk (wellformed_of_encode hp hk) bytes
    rw [assignTokens, assignTokens, hr, store_json hk]
    exact .worked hs
  | cons t ts =>
    have hsafe : JsonSafe (Γ.assignTokens redirect (t :: ts) (.json j) x) (.json j) :=
      assignTokens_jsonSafe hx (t :: ts) hj
    rw [assignTokens_region h]
    exact parallel_within hΓ h hsafe

theorem deleteTokens_spelled (hΓ : Γ.Faithful) (h : Γ.regionValue? bytes = some j)
    (redirect : Val → Pointer → Outcome) (ts : List Token) :
    Γ.Parallel (Γ.deleteTokens redirect ts (.raw bytes)) (Γ.deleteTokens redirect ts (.json j)) := by
  have hj : (Val.json j).IsJson := ⟨j, rfl, wellformed_of_regionValue? h⟩
  cases ts with
  | nil => exact .worked ⟨.empty, .null, rfl, rfl, rfl⟩
  | cons t ts =>
    have hsafe : JsonSafe (Γ.deleteTokens redirect (t :: ts) (.json j)) (.json j) :=
      deleteTokens_jsonSafe (t :: ts) hj
    cases he : bytes.isEmpty with
    | true =>
      -- an empty region spells null, in which there is nothing to delete
      have hnull : j = .null := by simpa [regionValue?, he] using h.symm
      subst hnull
      rw [deleteTokens_empty he]
      exact .worked ⟨bytes, .null, rfl, rfl, h⟩
    | false =>
      rw [deleteTokens_region he h]
      exact parallel_within hΓ h hsafe

/-- A walk that only looks finds the same in a region as in the value it spells, the root
    apart. -/
theorem resolveTokens_spelled (h : Γ.regionValue? bytes = some j)
    (redirect : Val → Pointer → Except Stop Val) (t : Token) (ts : List Token) :
    Γ.resolveTokens redirect (t :: ts) (.raw bytes) =
        Γ.resolveTokens redirect (t :: ts) (.json j) ∨
      ∃ s s' : Stop, Γ.resolveTokens redirect (t :: ts) (.raw bytes) = .error s ∧
        Γ.resolveTokens redirect (t :: ts) (.json j) = .error s' ∧ s.fault = s'.fault ∧
        s.current = s'.current := by
  by_cases he : bytes.isEmpty = true
  · have hnull : j = .null := by simpa [regionValue?, he] using h.symm
    subst hnull
    refine .inr ⟨⟨.notFound, .raw, Pointer.ofTokens (t :: ts)⟩,
      ⟨.notFound, .json, Pointer.ofTokens (t :: ts)⟩, ?_, rfl, rfl, rfl⟩
    have hs : Γ.select t (.raw bytes) = .error ⟨.notFound, .raw⟩ := by
      simp only [select, opened, Val.target, he, if_true, Except.bind]
    simp only [resolveTokens, Val.target, hooks, Hooks.silent, hs, Refusal.stop]
  · have hs : Γ.select t (.raw bytes) = Γ.select t (.json j) := by
      simp only [select, opened, Val.target, he, h]
      rfl
    refine .inl ?_
    simp only [resolveTokens, Val.target, hooks, Hooks.silent, hs]

/-- The report of a call on a region, and that of the call on its value. -/
theorem Parallel.agrees {a b : Outcome} (h : Γ.Parallel a b) (op : Operation) (p : Pointer) :
    Answer.Agrees ⟨a.1.mapError (⟨op, p, ·⟩), none⟩ ⟨b.1.mapError (⟨op, p, ·⟩), none⟩ ∧
      Γ.Spells a.2 b.2 := by
  cases h with
  | worked hs => exact ⟨.worked none, hs⟩
  | failed hf hc hs => exact ⟨.failed none rfl rfl hf hc, hs⟩

/-- A pointer that is no pointer is refused before the document is looked at. -/
theorem agrees_malformed (op : Operation) (p : Pointer) (m : Malformed) (t t' : Ty)
    (dst : Option Val) :
    Answer.Agrees ⟨.error ⟨op, p, ⟨.malformedPointer m, t, .root⟩⟩, dst⟩
      ⟨.error ⟨op, p, ⟨.malformedPointer m, t', .root⟩⟩, dst⟩ :=
  .failed dst rfl rfl rfl rfl

section
variable {r d : Val} (h : Γ.Spells r d) (p : Pointer)
include h

theorem assign_spelled (hΓ : Γ.Faithful) {x : Val} (hx : Γ.Encodable x) :
    (Γ.perform r (.assign p x)).1.Agrees (Γ.perform d (.assign p x)).1 ∧
      Γ.Spells (Γ.perform r (.assign p x)).2 (Γ.perform d (.assign p x)).2 := by
  simp only [perform, assign]
  cases hp : p.validate with
  | error m => exact ⟨agrees_malformed _ p m _ _ none, h⟩
  | ok u =>
    obtain ⟨bytes, j, rfl, rfl, hj⟩ := h
    simp only [place, if_pos (Pointer.walks_of_validate hp)]
    exact (assignTokens_spelled hΓ hj _ hx p.tokens).agrees .assigning p

theorem delete_spelled (hΓ : Γ.Faithful) :
    (Γ.perform r (.delete p)).1.Agrees (Γ.perform d (.delete p)).1 ∧
      Γ.Spells (Γ.perform r (.delete p)).2 (Γ.perform d (.delete p)).2 := by
  simp only [perform, delete]
  cases hp : p.validate with
  | error m => exact ⟨agrees_malformed _ p m _ _ none, h⟩
  | ok u =>
    obtain ⟨bytes, j, rfl, rfl, hj⟩ := h
    simp only [discard, if_pos (Pointer.walks_of_validate hp)]
    exact (deleteTokens_spelled hΓ hj _ p.tokens).agrees .deleting p

theorem resolve_spelled (dst : Json) :
    (Γ.perform r (.resolve p dst)).1.Agrees (Γ.perform d (.resolve p dst)).1 := by
  simp only [perform, resolve]
  cases hp : p.validate with
  | error m => exact agrees_malformed _ p m _ _ _
  | ok u =>
    obtain ⟨bytes, j, rfl, rfl, hj⟩ := h
    simp only [find, if_pos (Pointer.walks_of_validate hp)]
    cases p.tokens with
    | nil =>
      have hr : Γ.deliver (.json dst) (.raw bytes) = .done (.json j) := by
        rw [deliver, store_json (x := .raw bytes) hj]
        rfl
      have hd : Γ.deliver (.json dst) (.json j) = .done (.json j) := rfl
      simp only [resolveTokens, hr, hd]
      exact .worked _
    | cons t ts =>
      rcases resolveTokens_spelled hj (Γ.find Γ.redirects) t ts with
        heq | ⟨s, s', hs, hs', hfault, hcurrent⟩
      · rw [heq]
        exact .refl _
      · rw [hs, hs']
        exact .failed _ rfl rfl hfault hcurrent

end

/-- **A call has the same answer on a region as on the value it spells, and afterwards the
    region spells the value.** -/
theorem perform_spelled (hΓ : Γ.Faithful) {r d : Val} (h : Γ.Spells r d) (c : Call)
    (hc : ∀ x, c.value? = some x → Γ.Encodable x) :
    (Γ.perform r c).1.Agrees (Γ.perform d c).1 ∧
      Γ.Spells (Γ.perform r c).2 (Γ.perform d c).2 := by
  cases c with
  | resolve p dst => exact ⟨resolve_spelled h p dst, h⟩
  | assign p x => exact assign_spelled h p hΓ (hc x rfl)
  | delete p => exact delete_spelled h p hΓ

/-- **Whole runs on a region, empty or with valid JSON, and on the value it spells have the
    same answers, and after every call the region spells the value.** -/
theorem transcript_spelled (hΓ : Γ.Faithful) {r d : Val} (h : Γ.Spells r d) (cs : List Call)
    (hcs : ∀ c ∈ cs, ∀ x, c.value? = some x → Γ.Encodable x) :
    List.Forall₂ (fun a b => a.1.Agrees b.1 ∧ Γ.Spells a.2 b.2) (Γ.transcript r cs)
      (Γ.transcript d cs) := by
  induction cs generalizing r d with
  | nil => exact .nil
  | cons c cs ih =>
    obtain ⟨hc, hcs⟩ := List.forall_mem_cons.1 hcs
    have hstep := perform_spelled hΓ h c hc
    exact .cons hstep (ih hstep.2 hcs)

/-- A region that grows, is looked into and shrinks again. -/
theorem transcript_ports : List.Forall₂ (fun a b => a.1.Agrees b.1 ∧ jobs.Spells a.2 b.2)
    (jobs.transcript (.raw (Json.obj [("ports", .arr [])]).toBytes)
      [.assign ⟨"/ports/-"⟩ (.string "http"), .resolve ⟨"/ports/0"⟩ .null, .delete ⟨"/ports/0/x"⟩,
        .delete ⟨"/ports"⟩])
    (jobs.transcript (.json (.obj [("ports", .arr [])]))
      [.assign ⟨"/ports/-"⟩ (.string "http"), .resolve ⟨"/ports/0"⟩ .null, .delete ⟨"/ports/0/x"⟩,
        .delete ⟨"/ports"⟩]) := by
  have hΓ : jobs.Faithful := faithful_of_exact rfl
  have hj : (Json.obj [("ports", .arr [])]).Wellformed := ⟨by decide, trivial, trivial⟩
  refine transcript_spelled hΓ (spells_toBytes hΓ hj) _ ?_
  have hx : jobs.Encodable (.string "http") := ⟨trivial, _, rfl⟩
  rintro c hc x hcx
  simp only [List.mem_cons, List.not_mem_nil, or_false] at hc
  rcases hc with rfl | rfl | rfl | rfl
  · cases hcx
    exact hx
  all_goals cases hcx

end Schema

end DocPointer
