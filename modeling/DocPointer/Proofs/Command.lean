/-
  Commands on texts answer as calls on values.

  A command keeps its document as a region, and so it does with the value it puts there.  What
  becomes of a region is what becomes of the value that it spells; that leaves the value which
  is assigned.  A JSON value takes it in its JSON form, whether that is decoded or not, and where
  no token adds an element behind the last one it is found again by the pointer that has put it
  there.

  * `assignTokens_form` and `resolveTokens_assigned`: by induction on the tokens, from the step
    into a JSON value.
  * `run_tells`: the commands.
-/
import DocPointer.Command
import DocPointer.Proofs.Json.Indented
import DocPointer.Proofs.Json.Roundtrip
import DocPointer.Proofs.Walk.Folding

namespace DocPointer

theorem Json.Reaches.wellformed {ts : List Token} {i j : Json} (h : Reaches ts i j)
    (hi : i.Wellformed) : j.Wellformed := by
  induction h with
  | here => exact hi
  | step hstep _ ih =>
    cases hstep with
    | member hj => exact ih (wellformed_member hi hj)
    | item _ _ _ hj => exact ih (wellformed_item hi hj)

theorem Pointer.of_validate_map {p q : Pointer} (h : q.validate.map (fun _ => q) = .ok p) :
    q = p ∧ p.validate = .ok () := by
  cases hq : q.validate with
  | error m =>
    rw [hq] at h
    cases h
  | ok _ =>
    rw [hq] at h
    cases h
    exact ⟨rfl, hq⟩

theorem Pointer.validate_of_parse {s : String} {p : Pointer} (h : parse s = .ok p) :
    p.validate = .ok () := (of_validate_map h).2

namespace Schema

variable {Γ : Schema} {ts : List Token} {t : Token} {v w x y : Val} {i j : Json} {p : Pointer}

/-! ## Values assigned into JSON -/

/-- A JSON value takes what is assigned in its JSON form. -/
theorem assignTokens_form (hx : Γ.encode x = some i) (hy : Γ.encode y = some i)
    (redirect : Val → Pointer → Val → Outcome) (hv : v.IsJson) :
    Γ.assignTokens redirect ts v x = Γ.assignTokens redirect ts v y := by
  induction ts generalizing v with
  | nil =>
    obtain ⟨j, rfl, -⟩ := hv
    rw [assignTokens, assignTokens, store_json hx, store_json hy]
  | cons t ts ih =>
    obtain ⟨j, rfl, hj⟩ := hv
    rw [assignTokens_json_cons, assignTokens_json_cons]
    cases descendJson_step (Γ := Γ) (.ofTokens (t :: ts)) t j with
    | stops s hs => rw [hs, hs]
    | ends _ _ _ hfalse => exact hfalse.elim
    | leads P hP of _ =>
      rw [hP, hP, Place.run, Place.run, ih (of.isJson_part ⟨j, rfl, hj⟩)]

theorem landedBare_eq_self (ht : t.isAppend = false) (w : Val) : Γ.landedBare t w = t := by
  rw [landedBare]
  split
  · rw [if_neg (by simp [ht])]
  · rfl

theorem countable_of_isAppend (ht : t.isAppend = false) (w : Val) : Γ.Countable t w := by
  rw [Countable]
  split
  · intro ha
    rw [ht] at ha
    cases ha
  · trivial

/-- It is found by the tokens that have put it there, if none of them has added an element. -/
theorem resolveTokens_assigned (hΓ : Γ.Plain) (hx : Γ.Encodable x) (hi : Γ.encode x = some i)
    (redirect : Val → Pointer → Val → Outcome) (redirect' : Val → Pointer → Except Stop Val)
    (hts : ∀ t ∈ ts, t.isAppend = false) (hv : v.IsJson)
    (h : Γ.assignTokens redirect ts v x = (.ok (), w)) :
    Γ.resolveTokens redirect' ts w = .ok (.json i) := by
  induction ts generalizing v w with
  | nil =>
    obtain ⟨j, rfl, -⟩ := hv
    rw [assignTokens, store_json hi] at h
    cases h
    rfl
  | cons t ts ih =>
    obtain ⟨ht, hts⟩ := List.forall_mem_cons.1 hts
    obtain ⟨j, rfl, hj⟩ := hv
    rw [assignTokens_json_cons] at h
    cases descendJson_step (Γ := Γ) (.ofTokens (t :: ts)) t j with
    | stops s hs => rw [hs] at h; cases h
    | ends _ _ _ hfalse => exact hfalse.elim
    | leads P hP of sees =>
      rw [hP] at h
      obtain ⟨c, hc, rfl⟩ := Attempt.within_ok h
      have hpart : P.part.IsJson := of.isJson_part ⟨j, rfl, hj⟩
      have hfit : P.part.Fits c := fits_of_isJson hpart ((assignTokens_jsonSafe hx ts hpart).2 c hc)
      obtain ⟨hopened, hselect⟩ := sees c hfit hΓ
      have hbare := hselect (countable_of_isAppend ht _)
      rw [landedBare_eq_self ht] at hbare
      have hfound : Γ.select t (P.back c) = .ok c := by
        rw [select, hopened]
        exact hbare
      rw [hΓ.resolveTokens_cons redirect' t ts hfound]
      exact ih hts hpart hc

/-- A call finds a JSON value in a JSON value. -/
theorem resolve_json_ok (hp : p.validate = .ok ())
    (h : Γ.resolve (.json j) (.json .null) p = (.ok (), w)) :
    ∃ k, w = .json k ∧ Json.Reaches p.tokens j k := by
  rw [resolve_eq hp, seek_eq hp] at h
  cases hx : Γ.resolveTokens (Γ.find Γ.redirects) p.tokens (.json j) with
  | error s =>
    rw [hx] at h
    cases h
  | ok x =>
    obtain ⟨k, rfl, hk⟩ := (resolveTokens_json_iff _).1 hx
    rw [hx] at h
    cases h
    exact ⟨k, rfl, hk⟩

end Schema

namespace Command

variable {reading : Reading} {d s v : String} {i j : Json} {p : Pointer}

/-- The answer of a command, and what a call has left of a value: the text is the indented one of
    a JSON value, which it spells, or both are refused, for the same cause at the same place of the
    pointer. -/
inductive Tells (reading : Reading) :
    Except CommandError String → Except WalkError Unit × Val → Prop where
  | worked {k : Json} : Json.read? reading k.pretty = some k →
      Tells reading (.ok k.pretty) (.ok (), .json k)
  | failed {e f : WalkError} {w : Val} : e.stop.fault = f.stop.fault →
      e.stop.current = f.stop.current → Tells reading (.error (.walk e)) (.error f, w)

theorem plain_noRecords (reading : Reading) : (noRecords reading).Plain :=
  Schema.plain_of_records (by simp [noRecords])

theorem read?_pretty (hΓ : (noRecords reading).Faithful) {k : Json} (hk : k.Wellformed) :
    Json.read? reading k.pretty = some k := by
  rw [Json.read?_pretty, ← Json.ofBytes?_toUTF8]
  exact hΓ k hk

/-- The region of a text spells what the text spells. -/
theorem spells_region (h : Json.read? reading s = some j) :
    (noRecords reading).Spells (region s) (.json j) := by
  have hread : Json.ofBytes? (noRecords reading).reading s.toUTF8 = some j :=
    (Json.ofBytes?_toUTF8 reading s).trans h
  exact ⟨s.toUTF8, j, rfl, rfl, (Schema.opened_region hread).2⟩

/-- The answer to a call: what is told of the value it has left, or its error. -/
def answer (tell : Val → Except CommandError String) :
    Except WalkError Unit × Val → Except CommandError String
  | (.ok _, w) => tell w
  | (.error e, _) => .error (.walk e)

section
variable (hp : Pointer.parse s = .ok p)
include hp

theorem lookup_eq : lookup reading d s = answer (fun found => .ok found.asJson.pretty)
    ((noRecords reading).resolve (region d) (.json .null) p) := by
  simp only [lookup, pointerOf, hp, bind, Except.mapError, Except.bind]
  generalize (noRecords reading).resolve _ _ p = out
  obtain ⟨_ | _, w⟩ := out <;> rfl

theorem assign_eq : assign reading d s v =
    answer (prettyRegion reading) ((noRecords reading).assign (region d) p (region v)) := by
  simp only [assign, pointerOf, hp, bind, Except.mapError, Except.bind]
  generalize (noRecords reading).assign _ p _ = out
  obtain ⟨_ | _, w⟩ := out <;> rfl

theorem remove_eq : remove reading d s =
    answer (prettyRegion reading) ((noRecords reading).delete (region d) p) := by
  simp only [remove, pointerOf, hp, bind, Except.mapError, Except.bind]
  generalize (noRecords reading).delete _ p = out
  obtain ⟨_ | _, w⟩ := out <;> rfl

end

/-- What is told of a region that has changed as the value it spells. -/
theorem tells_changed (hΓ : (noRecords reading).Faithful) {a b : Except WalkError Unit × Val}
    (hagrees : Answer.Agrees { result := a.1 } { result := b.1 })
    (hspells : (noRecords reading).Spells a.2 b.2) :
    Tells reading (answer (prettyRegion reading) a) b := by
  obtain ⟨a, u⟩ := a
  obtain ⟨b, w⟩ := b
  obtain ⟨bytes, k, hu, hw, hk⟩ := hspells
  cases hu
  cases hw
  cases hagrees with
  | worked =>
    rw [answer, prettyRegion, hk]
    exact .worked (read?_pretty hΓ (Schema.wellformed_of_regionValue? hk))
  | failed _ _ _ hfault hcurrent => exact .failed hfault hcurrent

section
variable (hΓ : (noRecords reading).Faithful) (hd : Json.read? reading d = some j)
  (hp : Pointer.parse s = .ok p)
include hΓ hd hp

theorem lookup_tells :
    Tells reading (lookup reading d s) ((noRecords reading).resolve (.json j) (.json .null) p) := by
  have hagrees := Schema.resolve_spelled (spells_region hd) p .null
  have hfound (w : Val) (h : (noRecords reading).resolve (.json j) (.json .null) p = (.ok (), w)) :
      ∃ k, w = .json k ∧ k.Wellformed := by
    obtain ⟨k, rfl, hk⟩ := Schema.resolve_json_ok (Pointer.validate_of_parse hp) h
    obtain ⟨bytes, i, -, hi, hbytes⟩ := spells_region hd
    cases hi
    exact ⟨k, rfl, hk.wellformed (Schema.wellformed_of_regionValue? hbytes)⟩
  rw [lookup_eq hp]
  simp only [Schema.perform] at hagrees
  generalize (noRecords reading).resolve (region d) _ p = a at hagrees ⊢
  generalize (noRecords reading).resolve (.json j) _ p = b at hagrees hfound ⊢
  obtain ⟨a, u⟩ := a
  obtain ⟨b, w⟩ := b
  cases hagrees with
  | worked =>
    obtain ⟨k, rfl, hk⟩ := hfound _ rfl
    exact .worked (read?_pretty hΓ hk)
  | failed _ _ _ hfault hcurrent => exact .failed hfault hcurrent

theorem assign_tells (hv : Json.read? reading v = some i) :
    Tells reading (assign reading d s v) ((noRecords reading).assign (.json j) p (.json i)) := by
  obtain ⟨bytes, _, -, hj, hbytes⟩ := spells_region hd
  cases hj
  obtain ⟨bytes', _, hregion, hi, hbytes'⟩ := spells_region hv
  cases hi
  have hvalue : (noRecords reading).encode (region v) = some i := by
    rw [hregion]
    exact hbytes'
  have hx : (noRecords reading).Encodable (region v) := ⟨trivial, i, hvalue⟩
  have hform : (noRecords reading).assign (.json j) p (region v) =
      (noRecords reading).assign (.json j) p (.json i) := by
    have hvalid := Pointer.validate_of_parse hp
    have hj : j.Wellformed := Schema.wellformed_of_regionValue? hbytes
    rw [Schema.assign_eq hvalid, Schema.assign_eq hvalid,
      Schema.assignTokens_form (y := .json i) hvalue rfl _ ⟨j, rfl, hj⟩]
  rw [assign_eq hp, ← hform]
  have h := Schema.assign_spelled (spells_region hd) p hΓ hx
  exact tells_changed hΓ h.1 h.2

theorem remove_tells :
    Tells reading (remove reading d s) ((noRecords reading).delete (.json j) p) := by
  rw [remove_eq hp]
  have h := Schema.delete_spelled (spells_region hd) p hΓ
  exact tells_changed hΓ h.1 h.2

end

/-- **The text commands agree with the calls on values.**  On texts that spell JSON values each
    command answers what the call leaves of the values; and if the pointer adds no element behind
    the last one, a value that is set is looked up again, in its indented form. -/
theorem run_tells (hΓ : (noRecords reading).Faithful) (hd : Json.read? reading d = some j)
    (hv : Json.read? reading v = some i) (hp : Pointer.parse s = .ok p) :
    Tells reading (lookup reading d s) ((noRecords reading).resolve (.json j) (.json .null) p) ∧
      Tells reading (assign reading d s v) ((noRecords reading).assign (.json j) p (.json i)) ∧
      Tells reading (remove reading d s) ((noRecords reading).delete (.json j) p) ∧
      ((∀ t ∈ p.tokens, t.isAppend = false) → ∀ out, assign reading d s v = .ok out →
        lookup reading out s = .ok i.pretty) := by
  have hassign := assign_tells hΓ hd hp hv
  refine ⟨lookup_tells hΓ hd hp, hassign, remove_tells hΓ hd hp, ?_⟩
  intro hts out hout
  rw [hout] at hassign
  generalize hcall : (noRecords reading).assign (.json j) p (.json i) = call at hassign
  cases hassign with
  | @worked k hk =>
    obtain ⟨_, _, -, hj, hbytes⟩ := spells_region hd
    obtain ⟨_, _, -, hi, hbytes'⟩ := spells_region hv
    cases hj
    cases hi
    have hvalid := Pointer.validate_of_parse hp
    have hx : (noRecords reading).Encodable (.json i) :=
      ⟨Schema.wellformed_of_regionValue? hbytes', i, rfl⟩
    have hwalk := (Schema.assign_ok_iff.1 hcall).2
    have hfound : (noRecords reading).resolve (.json k) (.json .null) p = (.ok (), .json i) := by
      rw [Schema.resolve_eq hvalid, Schema.seek_eq hvalid,
        Schema.resolveTokens_assigned (plain_noRecords reading) hx rfl _ _ hts
          ⟨j, rfl, Schema.wellformed_of_regionValue? hbytes⟩ hwalk]
      rfl
    have hlookup := lookup_tells hΓ hk hp
    rw [hfound] at hlookup
    generalize hanswer : lookup reading k.pretty s = answered at hlookup
    cases hlookup
    rfl

/-- An item is looked up, and another value is set in its place. -/
theorem run_tells_item :
    Tells ⟨none, .nearest⟩ (lookup ⟨none, .nearest⟩ "[ \"a\" ]" "#/0")
        ((noRecords ⟨none, .nearest⟩).resolve (.json (.arr [.str "a"])) (.json .null) ⟨"/0"⟩) ∧
      ∃ out, assign ⟨none, .nearest⟩ "[ \"a\" ]" "#/0" " true" = .ok out ∧
        lookup ⟨none, .nearest⟩ out "#/0" = .ok "true" := by
  have hd : Json.read? ⟨none, .nearest⟩ "[ \"a\" ]" = some (.arr [.str "a"]) := by rfl
  have hv : Json.read? ⟨none, .nearest⟩ " true" = some (.bool true) := by rfl
  have hp : Pointer.parse "#/0" = .ok ⟨"/0"⟩ := by decide +kernel
  have htokens : ∀ t ∈ Pointer.tokens ⟨"/0"⟩, t.isAppend = false := by decide +kernel
  have hok : (assign ⟨none, .nearest⟩ "[ \"a\" ]" "#/0" " true").isOk = true := by decide +kernel
  obtain ⟨hlookup, -, -, hset⟩ := run_tells (Schema.faithful_of_exact rfl) hd hv hp
  refine ⟨hlookup, ?_⟩
  generalize assign ⟨none, .nearest⟩ "[ \"a\" ]" "#/0" " true" = answered at hok hset
  cases answered with
  | error e => cases hok
  | ok out => exact ⟨out, rfl, hset htokens out rfl⟩

end Command

end DocPointer
