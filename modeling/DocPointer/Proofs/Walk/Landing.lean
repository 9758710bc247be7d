/-
  Finding again what an assign has changed.

  The token that led an assign to a part leads a resolve there too, except for the one
  that names the position after the last element: once the element is there, its
  position is spelled by another token, the `landed` one.

  A `Plain` schema has no hooks and no record that presents itself as something else; a
  `Faithful` one reads what it writes, as those do that read text exactly
  (`faithful_of_exact`).
-/
import DocPointer.Proofs.Document.Faces
import DocPointer.Proofs.Json.Reader
import DocPointer.Proofs.Json.Roundtrip
import DocPointer.Proofs.Pointer.Token
import DocPointer.Samples.Jobs
import DocPointer.Walk.Select

namespace DocPointer.Schema

/-- A schema without hooks, whose records all present themselves as their fields. -/
structure Plain (Γ : Schema) : Prop where
  hooks (name : String) : (Γ.decl name).hooks = .silent
  presentation (name : String) : (Γ.decl name).presentation = .fields

/-- The text that is written for a JSON value is read as that value. -/
def Faithful (Γ : Schema) : Prop :=
  ∀ j : Json, j.Wellformed → Json.ofBytes? Γ.reading j.toBytes = some j

section
variable (Γ : Schema)

/-- The token that addresses what `t` addressed in a value that is no pointer, before a
    sequence had grown by it. -/
def landedBare (t : Token) (w : Val) : Token :=
  match Γ.node w with
  | .slice _ _ items => if t.isAppend then .ofPosition (items.length - 1) else t
  | _ => t

/-- The token that addresses what `t` addressed in a value, before a sequence had grown
    by it. -/
def landed (t : Token) (v : Val) : Token :=
  match Γ.opened v with
  | .ok w => Γ.landedBare t w
  | .error _ => t

/-- If `t` is to become the token of the last position of a sequence, that position has
    64 bits. -/
def Countable (t : Token) (w : Val) : Prop :=
  match Γ.node w with
  | .slice _ _ items => t.isAppend = true → items.length ≤ maxInt + 1
  | _ => True

instance (t : Token) (w : Val) : Decidable (Γ.Countable t w) := by
  unfold Countable
  split <;> infer_instance

/-- The part `c` of `w`, a value that is no pointer, is found by the token that `t` has
    become. -/
def RegainsBare (t : Token) (w c : Val) : Prop :=
  Γ.Plain → Γ.opened w = .ok w ∧ (Γ.Countable t w → Γ.selectBare (Γ.landedBare t w) w = .ok c)

/-- The part `c` of `v` is found by the token that `t` has become. -/
def Regains (t : Token) (v c : Val) : Prop :=
  Γ.Plain → Γ.Faithful →
    ∃ w, Γ.opened v = .ok w ∧ (Γ.Countable t w → Γ.selectBare (Γ.landedBare t w) w = .ok c)

end

variable {Γ : Schema} {t : Token}

/-! ## Schemas -/

theorem plain_of_records
    (h : ∀ m ∈ Γ.records, m.2.hooks = .silent ∧ m.2.presentation = .fields) : Γ.Plain := by
  have hdecl (name : String) : (Γ.decl name).hooks = .silent ∧ (Γ.decl name).presentation = .fields := by
    rw [decl]
    cases hd : Members.get? name Γ.records with
    | none => exact ⟨rfl, rfl⟩
    | some d => exact h _ (Members.mem_of_get? hd)
  exact ⟨fun name => (hdecl name).1, fun name => (hdecl name).2⟩

theorem plain_jobs : Samples.jobs.Plain :=
  plain_of_records (by simp [Samples.jobs, Samples.declareParts, declare])

section
variable {v : Val} {elem : Ty} {gap : Option Nat} {items : List Val}

theorem Plain.node_record (hΓ : Γ.Plain) (name : String) (fields : List Val) :
    Γ.node (.record name fields) = .record name fields := by
  rw [node, recordNode, hΓ.presentation]

/-- In a plain schema no record is a sequence, so sequences have no gaps. -/
theorem Plain.slice_cases (hΓ : Γ.Plain) (h : Γ.node v = .slice elem gap items) :
    gap = none ∧ (v = .slice elem items ∨
      ∃ js : List Json, v = .json (.arr js) ∧ elem = .json ∧ items = js.map .json) := by
  rcases eq_of_node_slice h with ⟨hg, hv⟩ | ⟨js, hv, hg, he, hi⟩ | ⟨name, fields, rfl, -⟩
  · exact ⟨hg, .inl hv⟩
  · exact ⟨hg, .inr ⟨js, hv, he, hi⟩⟩
  · rw [hΓ.node_record] at h
    cases h

theorem Plain.array_cases (hΓ : Γ.Plain) (h : Γ.node v = .array gap items) :
    gap = none ∧ ∃ elem, v = .array elem items := by
  rcases eq_of_node_array h with ⟨elem, hg, hv⟩ | ⟨name, fields, rfl, -⟩
  · exact ⟨hg, elem, hv⟩
  · rw [hΓ.node_record] at h
    cases h

end

/-- **Text is read as the value it was written for**, if containers may nest without bound
    and doubles are read to the nearest one. -/
theorem faithful_of_exact (h : Γ.reading = ⟨none, .nearest⟩) : Γ.Faithful := fun j hj => by
  rw [h]
  exact Json.ofBytes?_toBytes hj

/-! ## What a token finds -/

section
variable {v x : Val} {name : String} {fields : List Val} {key : KeyTy} {order : EntryOrder}
  {elem : Ty} {entries : Entries Val}

/-- A token finds a field of a record that is there, also in embedded records. -/
theorem selectBare_field (hv : Γ.node v = .record name fields) :
    Γ.selectBare t v = .ok x ↔ ∃ path, Γ.fieldPath name t = .ok path ∧ Γ.follow path v = some x := by
  cases hp : Γ.fieldPath name t with
  | error fault => simp [selectBare, hv, hp]
  | ok path => cases hf : Γ.follow path v <;> simp [selectBare, hv, hp, hf]

/-- A token finds an entry of a map that has its key. -/
theorem selectBare_entry (hv : Γ.node v = .map key order elem entries) :
    Γ.selectBare t v = .ok x ↔
      ∃ k, key.ofToken t.decoded = .ok k ∧ Entries.get? k entries = some x := by
  cases hk : key.ofToken t.decoded with
  | error e => simp [selectBare, hv, hk]
  | ok k => cases hc : Entries.get? k entries <;> simp [selectBare, hv, hk, hc]

end

/-! ## Values that are opened as they are -/

theorem opened_eq_self {v : Val} (hp : ∀ w, Γ.node v ≠ .ptr w) (hr : ∀ b, Γ.node v ≠ .raw b) :
    Γ.opened v = .ok v := by
  cases v with
  | ptr v | box v | held v => exact absurd rfl (hp v)
  | raw b => exact absurd rfl (hr b)
  | _ => rfl

theorem Regains.of_bare {v c : Val} (h : Γ.RegainsBare t v c) : Γ.Regains t v c :=
  fun hp _ => ⟨v, h hp⟩

/-- A region that spells a value is opened as that value. -/
theorem opened_region {bytes : ByteArray} {j : Json}
    (hread : Json.ofBytes? Γ.reading bytes = some j) :
    Γ.opened (.raw bytes) = .ok (.json j) ∧ Γ.regionValue? bytes = some j := by
  have hne : bytes.isEmpty = false := by
    rw [← Bool.not_eq_true]
    intro he
    have : bytes = .empty := by
      simpa [ByteArray.isEmpty] using he
    rw [this] at hread
    cases hread
  simp [opened, Val.target, regionValue?, hne, hread]

theorem opened_toBytes (hΓ : Γ.Faithful) {j : Json} (hj : j.Wellformed) :
    Γ.opened (.raw j.toBytes) = .ok (.json j) ∧ Γ.regionValue? j.toBytes = some j :=
  opened_region (hΓ j hj)

/-! ## Entries -/

/-- A map with other entries shows these. -/
theorem node_withEntries {v : Val} {key : KeyTy} {order : EntryOrder} {elem : Ty}
    {entries es : Entries Val} (hv : Γ.node v = .map key order elem entries)
    (h : v.typeOf = .json → ∃ ms : Members Json, es = ms.entries) :
    Γ.node (v.withEntries es) = .map key order elem es := by
  rcases eq_of_node_map hv with ⟨kind, rfl, rfl⟩ | ⟨ms, rfl, rfl, rfl, rfl, rfl⟩
  · rfl
  · obtain ⟨ms', rfl⟩ := h rfl
    rw [Val.withEntries, map_member_entry]
    rfl

theorem regainsBare_entry {v c : Val} {key : KeyTy} {order : EntryOrder} {elem : Ty}
    {es : Entries Val} {k : Key} (hv : Γ.node v = .map key order elem es)
    (hk : key.ofToken t.decoded = .ok k) (hc : Entries.get? k es = some c) :
    Γ.RegainsBare t v c := by
  intro _
  refine ⟨opened_eq_self (by simp [hv]) (by simp [hv]), ?_⟩
  intro _
  simp only [landedBare, selectBare, hv, hk, hc]

/-! ## Elements -/

/-- A token that named a position names it afterwards, or has become the token that
    spells it. -/
theorem existing_landed {i m n : Nat} (h : t.index n = .ok i) (hi : i < m)
    (ha : t.isAppend = true → m = i + 1 ∧ m ≤ maxInt + 1) :
    (if t.isAppend then Token.ofPosition (m - 1) else t).existing m = .ok i := by
  split
  · next happ =>
    obtain ⟨rfl, hm⟩ := ha happ
    exact Token.existing_ofPosition hi (by omega)
  · next happ => exact Token.existing_of_index (by simpa using happ) h hi

theorem regainsBare_item {v c : Val} {elem : Ty} {items : List Val} {i n : Nat}
    (hv : Γ.node v = .slice elem none items) (ht : t.index n = .ok i) (hc : items[i]? = some c)
    (ha : t.isAppend = true → items.length = i + 1) : Γ.RegainsBare t v c := by
  intro _
  refine ⟨opened_eq_self (by simp [hv]) (by simp [hv]), ?_⟩
  intro hcount
  obtain ⟨hi, -⟩ := List.getElem?_eq_some_iff.1 hc
  rw [Countable, hv] at hcount
  have he := existing_landed ht hi fun h => ⟨ha h, hcount h⟩
  simp only [landedBare, selectBare, hv, he, elem?]
  simp [hc]

end DocPointer.Schema
