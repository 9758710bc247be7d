/-
  Laws of faces: a value is what its face shows, put back.

  Each lemma reads off what a value is from the kind of its face, says that putting back
  the parts that the face shows gives the value again, or says that putting back other
  parts gives a value of the same type.
-/
import DocPointer.Document.Node

namespace DocPointer

/-! ## JSON containers -/

/-- The members of an object, seen as entries. -/
def Members.entries (ms : Members Json) : Entries Val := ms.map fun (k, j) => (.text k, .json j)

/-- The items of a JSON array, seen as values and put back. -/
@[simp] theorem map_asJson_json (js : List Json) : (js.map Val.json).map Val.asJson = js := by
  rw [List.map_map]
  exact List.map_id' js

/-- The members of a JSON object, seen as entries and put back. -/
@[simp] theorem map_member_entry (ms : Members Json) :
    (ms.entries.map fun (k, v) => (k.name, v.asJson)) = ms := by
  rw [Members.entries, List.map_map]
  exact List.map_id' ms

namespace Members

variable {name : String} {ms : Members Json}

theorem get?_entries (name : String) (ms : Members Json) :
    Entries.get? (.text name) ms.entries = (get? name ms).map .json := by
  induction ms with
  | nil => rfl
  | cons m ms ih =>
    obtain ⟨k, j⟩ := m
    simp only [entries] at ih
    by_cases hk : k = name <;> simp [entries, Entries.get?, get?, hk, ih]

/-- What is found among the entries of an object is a member. -/
theorem of_get?_entries {k : Key} {c : Val} (h : Entries.get? k ms.entries = some c) :
    ∃ s j, k = .text s ∧ c = .json j ∧ get? s ms = some j := by
  induction ms with
  | nil => cases h
  | cons m ms ih =>
    obtain ⟨s, j⟩ := m
    by_cases hk : Key.text s = k
    · subst hk
      have hc : Val.json j = c := by simpa [entries, Entries.get?] using h
      exact ⟨s, j, rfl, hc.symm, by simp [get?]⟩
    · simp only [entries, List.map_cons, Entries.get?, hk, if_false] at h
      obtain ⟨s', j', rfl, rfl, hj⟩ := ih h
      have hs : s ≠ s' := fun h => hk (congrArg _ h)
      exact ⟨s', j', rfl, rfl, by simp [get?, hs, hj]⟩

/-- Only texts are keys of an object. -/
theorem get?_entries_eq_none {k : Key} (h : ∀ s, k ≠ .text s) : Entries.get? k ms.entries = none := by
  cases hc : Entries.get? k ms.entries with
  | none => rfl
  | some c =>
    obtain ⟨s, -, rfl, -⟩ := of_get?_entries hc
    exact absurd rfl (h s)

/-- A member that is there is set in its place. -/
theorem set_entries {u : Json} (h : get? name ms = some u) (j : Json) :
    Entries.set (.text name) (.json j) ms.entries = (put name j ms).entries := by
  induction ms with
  | nil => cases h
  | cons m ms ih =>
    obtain ⟨k, i⟩ := m
    by_cases hk : k = name
    · simp [entries, Entries.set, put, hk]
    · simp only [get?, hk, if_false] at h
      simp only [entries] at ih
      simp [entries, Entries.set, put, hk, ih h]

/-- A new member is put behind the others and then set. -/
theorem set_insert_entries (h : get? name ms = none) (v : Val) (j : Json) :
    Entries.set (.text name) (.json j) (Entries.insert .insertion (.text name) v ms.entries) =
      (put name j ms).entries := by
  induction ms with
  | nil => simp [entries, Entries.insert, Entries.set, put]
  | cons m ms ih =>
    obtain ⟨k, i⟩ := m
    have hk : k ≠ name := by
      rintro rfl
      simp [get?] at h
    simp only [get?, hk, if_false] at h
    simp only [entries] at ih
    simp [entries, Entries.insert, Entries.set, put, hk, ih h]

theorem remove_entries (name : String) (ms : Members Json) :
    Entries.remove (.text name) ms.entries = (remove name ms).entries := by
  induction ms with
  | nil => rfl
  | cons m ms ih =>
    obtain ⟨k, j⟩ := m
    simp only [entries] at ih
    by_cases hk : k = name <;> simp [entries, Entries.remove, remove, hk, ih]

end Members

namespace Schema

variable {Γ : Schema} {v : Val}

/-! ## What a face tells -/

/-- A record shows itself as its fields, as the sequence in one of its slots, or not at
    all. -/
theorem recordNode_cases (name : String) (fields : List Val) :
    (Γ.recordNode name fields = .record name fields ∨
        (∃ full, Γ.recordNode name fields = .sealed full) ∨
        Γ.recordNode name fields = .scalar) ∨
      ∃ gap xs, ((∃ elem, Γ.recordNode name fields = .slice elem gap xs) ∨
          Γ.recordNode name fields = .array gap xs) ∧
        Γ.withItems (.record name fields) xs = .record name fields := by
  simp only [recordNode, withItems]
  cases (Γ.decl name).presentation with
  | fields => exact .inl (.inl rfl)
  | «sealed» full => exact .inl (.inr (.inl ⟨_, rfl⟩))
  | items items hole fixed =>
    dsimp only
    split
    · next elem xs hi =>
      obtain ⟨hlt, hget⟩ := List.getElem?_eq_some_iff.1 hi
      refine .inr ⟨fields[hole]?.bind Val.position?, xs, ?_, by rw [← hget, List.set_getElem_self]⟩
      split
      · exact .inr rfl
      · exact .inl ⟨elem, rfl⟩
    · exact .inl (.inr (.inr rfl))

theorem recordNode_ne_nil (name : String) (fields : List Val) :
    Γ.recordNode name fields ≠ .nil := by
  rcases recordNode_cases (Γ := Γ) name fields with
    (h | ⟨full, h⟩ | h) | ⟨gap, xs, ⟨elem, h⟩ | h, -⟩ <;> simp [h]

/-- What shows itself as nil is an empty pointer or holder, or null. -/
theorem eq_of_node_nil (h : Γ.node v = .nil) :
    (∃ t, v = .nil t) ∨ v = .vacant ∨ v = .json .null := by
  cases v with
  | nil t => exact .inl ⟨t, rfl⟩
  | vacant => exact .inr (.inl rfl)
  | json j =>
    cases j with
    | null => exact .inr (.inr rfl)
    | _ => cases h
  | record name fields => exact absurd h (recordNode_ne_nil name fields)
  | _ => cases h

theorem eq_of_node_record {name : String} {fields : List Val}
    (h : Γ.node v = .record name fields) : v = .record name fields := by
  cases v with
  | record n fs =>
    rw [node] at h
    rcases recordNode_cases (Γ := Γ) n fs with (hn | ⟨_, hn⟩ | hn) | ⟨_, _, ⟨_, hn⟩ | hn, -⟩ <;>
      rw [hn] at h <;> cases h
    rfl
  | json j => cases j <;> cases h
  | _ => cases h

theorem eq_of_node_raw {bytes : ByteArray} (h : Γ.node v = .raw bytes) : v = .raw bytes := by
  cases v with
  | raw b => cases h; rfl
  | record n fs =>
    rw [node] at h
    rcases recordNode_cases (Γ := Γ) n fs with (hn | ⟨_, hn⟩ | hn) | ⟨_, _, ⟨_, hn⟩ | hn, -⟩ <;>
      rw [hn] at h <;> cases h
  | json j => cases j <;> cases h
  | _ => cases h

/-- What shows itself as a map is a map or a JSON object. -/
theorem eq_of_node_map {key : KeyTy} {order : EntryOrder} {elem : Ty} {entries : Entries Val}
    (h : Γ.node v = .map key order elem entries) :
    (∃ kind, order = .byKey kind ∧ v = .map kind key elem entries) ∨
      ∃ ms : Members Json, v = .json (.obj ms) ∧ key = .string ∧ order = .insertion ∧
        elem = .json ∧ entries = ms.entries := by
  cases v with
  | map kind key elem entries => cases h; exact .inl ⟨kind, rfl, rfl⟩
  | json j =>
    cases j with
    | obj ms => cases h; exact .inr ⟨ms, rfl, rfl, rfl, rfl, rfl⟩
    | _ => cases h
  | record n fs =>
    rw [node] at h
    rcases recordNode_cases (Γ := Γ) n fs with (hn | ⟨_, hn⟩ | hn) | ⟨_, _, ⟨_, hn⟩ | hn, -⟩ <;>
      rw [hn] at h <;> cases h
  | _ => cases h

/-- What shows itself as a growing sequence is one, or a JSON array, or a record that
    has one in a slot. -/
theorem eq_of_node_slice {elem : Ty} {gap : Option Nat} {items : List Val}
    (h : Γ.node v = .slice elem gap items) :
    (gap = none ∧ v = .slice elem items) ∨
      (∃ js : List Json, v = .json (.arr js) ∧ gap = none ∧ elem = .json ∧ items = js.map .json) ∨
      ∃ name fields, v = .record name fields ∧ Γ.withItems v items = v := by
  cases v with
  | slice elem items => cases h; exact .inl ⟨rfl, rfl⟩
  | json j =>
    cases j with
    | arr js => cases h; exact .inr (.inl ⟨js, rfl, rfl, rfl, rfl⟩)
    | _ => cases h
  | record n fs =>
    rw [node] at h
    rcases recordNode_cases (Γ := Γ) n fs with (hn | ⟨_, hn⟩ | hn) | ⟨_, _, ⟨_, hn⟩ | hn, hw⟩ <;>
      rw [hn] at h <;> cases h
    exact .inr (.inr ⟨n, fs, rfl, hw⟩)
  | _ => cases h

/-- What shows itself as a sequence of fixed length is one, or a record that has one in
    a slot. -/
theorem eq_of_node_array {gap : Option Nat} {items : List Val} (h : Γ.node v = .array gap items) :
    (∃ elem, gap = none ∧ v = .array elem items) ∨
      ∃ name fields, v = .record name fields ∧ Γ.withItems v items = v := by
  cases v with
  | array elem items => cases h; exact .inl ⟨elem, rfl, rfl⟩
  | json j => cases j <;> cases h
  | record n fs =>
    rw [node] at h
    rcases recordNode_cases (Γ := Γ) n fs with (hn | ⟨_, hn⟩ | hn) | ⟨_, _, ⟨_, hn⟩ | hn, hw⟩ <;>
      rw [hn] at h <;> cases h
    exact .inr ⟨n, fs, rfl, hw⟩
  | _ => cases h

/-! ## Putting parts back -/

theorem withEntries_of_node_map {key : KeyTy} {order : EntryOrder} {elem : Ty}
    {entries : Entries Val} (h : Γ.node v = .map key order elem entries) :
    v.withEntries entries = v := by
  rcases eq_of_node_map h with ⟨kind, -, rfl⟩ | ⟨ms, rfl, -, -, -, rfl⟩
  · rfl
  · rw [Val.withEntries, map_member_entry]

theorem withItems_of_node_slice {elem : Ty} {gap : Option Nat} {items : List Val}
    (h : Γ.node v = .slice elem gap items) : Γ.withItems v items = v := by
  rcases eq_of_node_slice h with ⟨-, rfl⟩ | ⟨js, rfl, -, -, rfl⟩ | ⟨name, fields, -, hw⟩
  · rfl
  · rw [withItems, map_asJson_json]
  · exact hw

theorem withItems_of_node_array {gap : Option Nat} {items : List Val}
    (h : Γ.node v = .array gap items) : Γ.withItems v items = v := by
  rcases eq_of_node_array h with ⟨elem, -, rfl⟩ | ⟨name, fields, -, hw⟩
  · rfl
  · exact hw

/-! ## Types -/

theorem typeOf_withEntries (es : Entries Val) : (v.withEntries es).typeOf = v.typeOf := by
  cases v <;> rfl

theorem typeOf_withItems_record (name : String) (fields xs : List Val) :
    (Γ.withItems (.record name fields) xs).typeOf = .record name := by
  simp only [withItems]
  repeat' split
  all_goals rfl

theorem typeOf_withItems_slice {elem : Ty} {gap : Option Nat} {items : List Val}
    (h : Γ.node v = .slice elem gap items) (xs : List Val) :
    (Γ.withItems v xs).typeOf = v.typeOf := by
  rcases eq_of_node_slice h with ⟨-, rfl⟩ | ⟨js, rfl, -, -, rfl⟩ | ⟨name, fields, rfl, -⟩
  · rfl
  · rfl
  · exact typeOf_withItems_record name fields xs

theorem typeOf_withItems_array {gap : Option Nat} {items xs : List Val}
    (h : Γ.node v = .array gap items) (hx : xs.length = items.length) :
    (Γ.withItems v xs).typeOf = v.typeOf := by
  rcases eq_of_node_array h with ⟨elem, -, rfl⟩ | ⟨name, fields, rfl, -⟩
  · rw [withItems, Val.typeOf, Val.typeOf, hx]
  · exact typeOf_withItems_record name fields xs

end Schema

/-! ## Elements -/

/-- An element that is handed out stands at its position. -/
theorem getElem?_of_elem? {gap : Option Nat} {items : List Val} {i : Nat} {c : Val}
    (h : elem? gap items i = some c) : items[i]? = some c := by
  unfold elem? at h
  split at h
  · cases h
  · exact h

/-- Putting back the element that is there changes nothing. -/
theorem set_of_getElem? {α : Type} {items : List α} {i : Nat} {c : α} (h : items[i]? = some c) :
    items.set i c = items := by
  obtain ⟨hi, rfl⟩ := List.getElem?_eq_some_iff.1 h
  exact List.set_getElem_self hi

end DocPointer
