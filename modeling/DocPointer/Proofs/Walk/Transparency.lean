/-
  A typed document is resolved as its JSON form is.

  A value is `Transparent` if there is no record in it: it is a scalar, with finite numbers,
  or made of pointers, sequences, maps from texts, JSON values, regions and holders.  It
  `Shows` its JSON form.

  * `select_mirrors`: a token leads in the value and in the form that it shows to parts of
    which one shows the other, or nowhere in both, for the same cause.
  * `resolveTokens_mirrors`: so do the tokens of a walk, by induction.
  * `resolve_transparent`: calls that resolve into JSON have the same answer.
-/
import DocPointer.Proofs.Walk.Composition
import DocPointer.Proofs.Walk.Region
import DocPointer.Proofs.Walk.Renumbering

namespace DocPointer

namespace Val

/-- The entries of a map from texts. -/
def textEntries (ms : Members Val) : Entries Val := ms.map fun (name, v) => (.text name, v)

/-- A value without records: JSON shows all of it that a pointer can lead to. -/
inductive Transparent : Val → Prop where
  | bool (b : Bool) : Transparent (.bool b)
  | char (c : Char) : Transparent (.char c)
  | int (k : IntKind) (n : Int) : Transparent (.int k n)
  | float (k : FloatKind) (x : Binary k.format) : Transparent (.float k (some x))
  | string (s : String) : Transparent (.string s)
  | nil (t : Ty) : Transparent (.nil t)
  | ptr {v : Val} : Transparent v → Transparent (.ptr v)
  | box {v : Val} : Transparent v → Transparent (.box v)
  | slice {elem : Ty} {items : List Val} :
      (∀ v ∈ items, Transparent v) → Transparent (.slice elem items)
  | array {elem : Ty} {items : List Val} :
      (∀ v ∈ items, Transparent v) → Transparent (.array elem items)
  | map {kind : MapKind} {elem : Ty} {ms : Members Val} :
      (Members.names ms).Nodup → (∀ m ∈ ms, Transparent m.2) →
        Transparent (.map kind .string elem (textEntries ms))
  | json (j : Json) : Transparent (.json j)
  | vacant : Transparent .vacant
  | held {v : Val} : Transparent v → Transparent (.held v)
  | raw (bytes : ByteArray) : Transparent (.raw bytes)

theorem get?_textEntries (name : String) (ms : Members Val) :
    Entries.get? (.text name) (textEntries ms) = Members.get? name ms := by
  induction ms with
  | nil => rfl
  | cons m ms ih =>
    obtain ⟨k, v⟩ := m
    by_cases hk : k = name
    · simp [textEntries, Entries.get?, Members.get?, hk]
    · simp only [textEntries] at ih
      simp [textEntries, Entries.get?, Members.get?, hk, ih]

end Val

namespace Schema

open Samples

section
variable (Γ : Schema)

/-- `j` is the JSON form of a value without records. -/
def Shows (x : Val) (j : Json) : Prop := x.Transparent ∧ Γ.encode x = some j

/-- What is found, in a value and in its JSON form: a value and its JSON form again, or
    nothing, for the same cause. -/
inductive Mirrors : Except Refusal Val → Except Refusal Val → Prop where
  | found {x : Val} {j : Json} : Γ.Shows x j → Mirrors (.ok x) (.ok (.json j))
  | missed {r r' : Refusal} : r.fault = r'.fault → Mirrors (.error r) (.error r')

end

variable {Γ : Schema} {x v : Val} {j : Json} {t : Token} {ts : List Token}

theorem shows_json (j : Json) : Γ.Shows (.json j) j := ⟨.json j, rfl⟩

/-! ## Parts -/

/-- The items of a JSON array are the JSON forms of those of the sequence. -/
theorem forall₂_of_encodeItems {items : List Val} {js : List Json}
    (hx : ∀ v ∈ items, v.Transparent) (h : Γ.encodeItems items = some js) :
    List.Forall₂ Γ.Shows items js := by
  induction items generalizing js with
  | nil =>
    cases h
    exact .nil
  | cons v vs ih =>
    simp only [encodeItems, Option.bind_eq_bind, Option.bind_eq_some_iff, Option.pure_def,
      Option.some.injEq] at h
    obtain ⟨j, hj, js, hjs, rfl⟩ := h
    obtain ⟨hv, hvs⟩ := List.forall_mem_cons.1 hx
    exact .cons ⟨hv, hj⟩ (ih hvs hjs)

/-- The members of a JSON object are the JSON forms of the entries of the map, under the
    same names. -/
theorem forall₂_of_encodeEntries {ms : Members Val} {ns : Members Json}
    (hx : ∀ m ∈ ms, m.2.Transparent) (h : Γ.encodeEntries (Val.textEntries ms) = some ns) :
    List.Forall₂ (fun m n => m.1 = n.1 ∧ Γ.Shows m.2 n.2) ms ns := by
  induction ms generalizing ns with
  | nil =>
    cases h
    exact .nil
  | cons m ms ih =>
    simp only [Val.textEntries, List.map_cons, encodeEntries, Option.bind_eq_bind,
      Option.bind_eq_some_iff, Option.pure_def, Option.some.injEq] at h
    obtain ⟨j, hj, ns, hns, rfl⟩ := h
    obtain ⟨hm, hms⟩ := List.forall_mem_cons.1 hx
    exact .cons ⟨rfl, hm, hj⟩ (ih hms hns)

theorem names_of_forall₂ {ms : Members Val} {ns : Members Json}
    (h : List.Forall₂ (fun m n => m.1 = n.1 ∧ Γ.Shows m.2 n.2) ms ns) :
    Members.names ns = Members.names ms := by
  induction h with
  | nil => rfl
  | cons hm _ ih => exact congrArg₂ List.cons hm.1.symm ih

/-- At a position there is an element of the sequence and its JSON form, or neither. -/
theorem shows_getElem? {items : List Val} {js : List Json} (h : List.Forall₂ Γ.Shows items js)
    (i : Nat) :
    (items[i]? = none ∧ js[i]? = none) ∨
      ∃ v j, items[i]? = some v ∧ js[i]? = some j ∧ Γ.Shows v j := by
  induction h generalizing i with
  | nil => exact .inl ⟨rfl, rfl⟩
  | cons hv _ ih =>
    cases i with
    | zero => exact .inr ⟨_, _, rfl, rfl, hv⟩
    | succ i => simpa using ih i

/-- Under a name there is a value of the map and its JSON form, or neither. -/
theorem shows_get? {ms : Members Val} {ns : Members Json}
    (h : List.Forall₂ (fun m n => m.1 = n.1 ∧ Γ.Shows m.2 n.2) ms ns) (name : String) :
    (Members.get? name ms = none ∧ Members.get? name ns = none) ∨
      ∃ v j, Members.get? name ms = some v ∧ Members.get? name ns = some j ∧ Γ.Shows v j := by
  induction h with
  | nil => exact .inl ⟨rfl, rfl⟩
  | @cons m n _ _ hm _ ih =>
    obtain ⟨k, v⟩ := m
    obtain ⟨l, j⟩ := n
    obtain ⟨rfl, hv⟩ := hm
    by_cases hk : k = name
    · exact .inr ⟨v, j, by simp [Members.get?, hk], by simp [Members.get?, hk], hv⟩
    · simpa only [Members.get?, hk, if_false] using ih

/-! ## One step -/

/-- A token in a sequence and in the array of the JSON forms of its elements. -/
theorem mirrors_items {items : List Val} {js : List Json} (h : List.Forall₂ Γ.Shows items js)
    (hv : (∃ elem, Γ.node v = .slice elem none items) ∨ Γ.node v = .array none items) :
    Γ.Mirrors (Γ.selectBare t v) (Γ.selectBare t (.json (.arr js))) := by
  have hlen := h.length_eq
  cases hk : t.existing js.length with
  | error e =>
    have hselect : Γ.selectBare t v = .error ⟨.index e, v.typeOf⟩ := by
      rcases hv with ⟨elem, hv⟩ | hv <;> simp only [selectBare, hv, hlen, hk]
    rw [hselect]
    simp only [selectBare, node, Json.node, List.length_map, hk]
    exact .missed rfl
  | ok i =>
    rcases shows_getElem? h i with ⟨hi, hj⟩ | ⟨c, j, hi, hj, hs⟩
    · have hselect : Γ.selectBare t v = .error ⟨.notFound, v.typeOf⟩ := by
        rcases hv with ⟨elem, hv⟩ | hv <;>
          simp only [selectBare, hv, hlen, hk, elem?, reduceCtorEq, if_false, hi]
      rw [hselect]
      simp only [selectBare, node, Json.node, List.length_map, hk, elem?, List.getElem?_map, hj]
      exact .missed rfl
    · have hselect : Γ.selectBare t v = .ok c := by
        rcases hv with ⟨elem, hv⟩ | hv <;>
          simp only [selectBare, hv, hlen, hk, elem?, reduceCtorEq, if_false, hi]
      rw [hselect]
      simp only [selectBare, node, Json.node, List.length_map, hk, elem?, List.getElem?_map, hj]
      exact .found hs

/-- A token in a map from texts and in the object of the JSON forms of its values. -/
theorem mirrors_entries {ms : Members Val} {ns : Members Json} {kind : MapKind} {elem : Ty}
    (h : List.Forall₂ (fun m n => m.1 = n.1 ∧ Γ.Shows m.2 n.2) ms ns) :
    Γ.Mirrors (Γ.selectBare t (.map kind .string elem (Val.textEntries ms)))
      (Γ.selectBare t (.json (.obj ns))) := by
  have hget := Members.get?_entries t.decoded ns
  rw [Members.entries] at hget
  simp only [selectBare, node, Json.node, KeyTy.ofToken, Val.get?_textEntries, hget]
  rcases shows_get? h t.decoded with ⟨hv, hj⟩ | ⟨v, j, hv, hj, hs⟩
  · simp only [hv, hj]
    exact .missed rfl
  · simp only [hv, hj]
    exact .found hs

/-- **A token in a value without records and in its JSON form.** -/
theorem select_mirrors (h : Γ.Shows x j) (t : Token) :
    Γ.Mirrors (Γ.select t x) (Γ.select t (.json j)) := by
  have hself (j : Json) : Γ.Mirrors (Γ.select t (.json j)) (Γ.select t (.json j)) := by
    cases hs : Γ.select t (.json j) with
    | error r => exact .missed rfl
    | ok c =>
      obtain ⟨i, rfl⟩ := json_of_selectBare hs
      exact .found (shows_json i)
  obtain ⟨hx, hj⟩ := h
  induction hx generalizing j with
  | ptr _ ih | box _ ih | held _ ih => exact ih hj
  | bool | char | string | nil | vacant =>
    cases hj
    exact .missed rfl
  | int k n =>
    obtain ⟨m, -, rfl⟩ := Option.map_eq_some_iff.1 hj
    exact .missed rfl
  | float k x =>
    cases k with
    | f32 =>
      have hc := Binary.convert_of_canonical x (Binary.canonical_double x.canonical)
      simp only [encode, Option.bind_some, hc] at hj
      cases hj
      exact .missed rfl
    | f64 =>
      cases hj
      exact .missed rfl
  | slice hv =>
    obtain ⟨js, hjs, rfl⟩ := Option.map_eq_some_iff.1 hj
    exact mirrors_items (v := .slice _ _) (forall₂_of_encodeItems hv hjs) (.inl ⟨_, rfl⟩)
  | array hv =>
    obtain ⟨js, hjs, rfl⟩ := Option.map_eq_some_iff.1 hj
    exact mirrors_items (v := .array _ _) (forall₂_of_encodeItems hv hjs) (.inr rfl)
  | map hd hv =>
    obtain ⟨ns, hns, rfl⟩ := Option.map_eq_some_iff.1 hj
    have hms := forall₂_of_encodeEntries hv hns
    rw [Members.ofList_of_nodup (names_of_forall₂ hms ▸ hd)]
    exact mirrors_entries hms
  | json k =>
    cases hj
    exact hself k
  | raw bytes =>
    by_cases he : bytes.isEmpty = true
    · have hnull : j = .null := by simpa [encode, regionValue?, he] using hj.symm
      have hs : Γ.select t (.raw bytes) = .error ⟨.notFound, .raw⟩ := by
        simp only [select, opened, Val.target, he, if_true, Except.bind]
      rw [hnull, hs]
      exact .missed rfl
    · have hs : Γ.select t (.raw bytes) = Γ.select t (.json j) := by
        have hb : Γ.regionValue? bytes = some j := hj
        simp only [select, opened, Val.target, he, hb]
        rfl
      rw [hs]
      exact hself j

/-! ## Walks -/

theorem hooks_target_of_transparent (h : x.Transparent) : Γ.hooks x.target = .silent := by
  induction h with
  | ptr _ ih | box _ ih | held _ ih => exact ih
  | _ => rfl

/-- No hook is asked of a value without records. -/
theorem resolveTokens_of_transparent (h : x.Transparent)
    (redirect : Val → Pointer → Except Stop Val) (t : Token) (ts : List Token) :
    Γ.resolveTokens redirect (t :: ts) x =
      match Γ.select t x with
      | .error r => .error (r.stop (.ofTokens (t :: ts)))
      | .ok c => Γ.resolveTokens redirect ts c := by
  cases hs : Γ.select t x <;>
    simp only [resolveTokens, hooks_target_of_transparent h, Hooks.silent, hs]

/-- **A walk in a value without records and in its JSON form** finds a value and its JSON
    form, or stops for the same cause at the same token. -/
theorem resolveTokens_mirrors (h : Γ.Shows x j) (redirect : Val → Pointer → Except Stop Val)
    (ts : List Token) :
    (∃ c i, Γ.resolveTokens redirect ts x = .ok c ∧
        Γ.resolveTokens redirect ts (.json j) = .ok (.json i) ∧ Γ.Shows c i) ∨
      ∃ s s', Γ.resolveTokens redirect ts x = .error s ∧
        Γ.resolveTokens redirect ts (.json j) = .error s' ∧ s.fault = s'.fault ∧
        s.current = s'.current := by
  induction ts generalizing x j with
  | nil => exact .inl ⟨x, j, rfl, rfl, h⟩
  | cons t ts ih =>
    have hstep := select_mirrors h t
    rw [resolveTokens_of_transparent h.1, resolveTokens_of_transparent (.json j)]
    generalize Γ.select t x = a at hstep
    generalize Γ.select t (.json j) = b at hstep
    cases hstep with
    | found hc => exact ih hc
    | missed hf => exact .inr ⟨_, _, rfl, rfl, hf, rfl⟩

/-! ## Calls -/

/-- **A document without records is resolved into JSON as its JSON form is**: both calls
    work and deliver the same, or both fail, for the same cause at the same place. -/
theorem resolve_transparent (hx : x.Transparent) (hj : Γ.encode x = some j) (p : Pointer)
    (dst : Json) :
    (∃ i, Γ.resolve x (.json dst) p = (.ok (), .json i) ∧
        Γ.resolve (.json j) (.json dst) p = (.ok (), .json i)) ∨
      ∃ e f, Γ.resolve x (.json dst) p = (.error e, .json dst) ∧
        Γ.resolve (.json j) (.json dst) p = (.error f, .json dst) ∧
        e.stop.fault = f.stop.fault ∧ e.stop.current = f.stop.current := by
  cases hp : p.validate with
  | error m =>
    simp only [resolve, hp]
    exact .inr ⟨_, _, rfl, rfl, rfl, rfl⟩
  | ok _ =>
    simp only [resolve_eq hp, seek_eq hp]
    rcases resolveTokens_mirrors ⟨hx, hj⟩ (Γ.find Γ.redirects) p.tokens with
      ⟨c, i, hc, hi, -, hs⟩ | ⟨s, s', hs, hs', hf, hcur⟩
    · have hstore := deliver_of_store (store_json hs dst)
      have hstore' : Γ.deliver (.json dst) (.json i) = .done (.json i) :=
        deliver_of_store (store_json rfl dst)
      simp only [hc, hi, hstore, hstore']
      exact .inl ⟨i, rfl, rfl⟩
    · simp only [hs, hs']
      exact .inr ⟨_, _, rfl, rfl, hf, hcur⟩

/-- Sizes, of which the second is missing, and a note as JSON text. -/
def parcel : Val :=
  .map .sorted .string .holder (Val.textEntries [
    ("note", .held (.raw (Json.obj [("fragile", .bool true)]).toBytes)),
    ("sizes", .held (.slice (.opt (.float .f32)) [
      .ptr (.float .f32 (some (.zero false))), .nil (.float .f32)]))])

theorem transparent_parcel : parcel.Transparent := by
  refine .map (by decide) ?_
  intro m hm
  rcases List.mem_pair.1 hm with rfl | rfl
  · exact .held (.raw _)
  · refine .held (.slice ?_)
    intro v hv
    rcases List.mem_pair.1 hv with rfl | rfl
    · exact .ptr (.float .f32 _)
    · exact .nil _

/-- Behind the missing size there is nothing, neither in the parcel nor in its JSON form. -/
theorem resolve_parcel : parcel.Transparent ∧ ∃ j, jobs.encode parcel = some j ∧
    ((∃ i, jobs.resolve parcel (.json .null) ⟨"/sizes/1/0"⟩ = (.ok (), .json i) ∧
        jobs.resolve (.json j) (.json .null) ⟨"/sizes/1/0"⟩ = (.ok (), .json i)) ∨
      ∃ e f, jobs.resolve parcel (.json .null) ⟨"/sizes/1/0"⟩ = (.error e, .json .null) ∧
        jobs.resolve (.json j) (.json .null) ⟨"/sizes/1/0"⟩ = (.error f, .json .null) ∧
        e.stop.fault = f.stop.fault ∧ e.stop.current = f.stop.current) := by
  have hsome : (jobs.encode parcel).isSome = true := by decide +kernel
  obtain ⟨j, hj⟩ := Option.isSome_iff_exists.1 hsome
  exact ⟨transparent_parcel, j, hj, resolve_transparent transparent_parcel hj _ _⟩

end Schema

end DocPointer
