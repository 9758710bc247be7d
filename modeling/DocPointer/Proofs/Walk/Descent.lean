/-
  One step of an assign, and of a delete.

  `descend_step` and `remove_step` say what going down by one token comes to, with a
  lemma for each kind of container before them: an entry, an element or a field that is
  there is a place, and so is one that is made for the change.  A step of an assign also
  says that the part is found again by the token that the step took, or the one it has
  become.
-/
import DocPointer.Proofs.Document.Entries
import DocPointer.Proofs.Walk.Landing
import DocPointer.Proofs.Walk.Step

namespace DocPointer.Schema

variable {Γ : Schema}

/-! ## Entries -/

section
variable {v child : Val} {key : KeyTy} {order : EntryOrder} {elem : Ty} {entries : Entries Val}
  {k : Key}

theorem of_entry (hv : Γ.node v = .map key order elem entries)
    (hc : Entries.get? k entries = some child) :
    (Place.old child fun c => v.withEntries (Entries.set k c entries)).Of v := by
  have hu : v.withEntries (Entries.set k child entries) = v := by
    rw [Entries.set_of_get? hc, withEntries_of_node_map hv]
  rcases eq_of_node_map hv with ⟨kind, -, rfl⟩ | ⟨ms, rfl, -, -, -, rfl⟩
  · exact .of_typeOf hu nofun fun _ _ => rfl
  · obtain ⟨s, i, rfl, rfl, hi⟩ := Members.of_get?_entries hc
    have hpart (h : (Val.json (.obj ms)).IsJson) : (Val.json i).IsJson :=
      Val.isJson_json.2 (Json.wellformed_member (Val.isJson_json.1 h) hi)
    refine ⟨hu, hpart, fun _ => rfl, ?_⟩
    rintro _ h ⟨i', rfl, hi'⟩
    refine ⟨.obj (Members.put s i' ms), ?_, Json.wellformed_put (Val.isJson_json.1 h) hi'⟩
    simp only [Place.old, Val.withEntries, Members.set_entries hi, map_member_entry]

/-- An entry that is made with the zero value and taken out if its change fails. -/
theorem of_newEntry (hv : Γ.node v = .map key order elem entries) {s : String}
    (hk : key.ofToken s = .ok k) (hc : Entries.get? k entries = none) :
    (Place.mk (Γ.zero elem)
      (fun c => v.withEntries (Entries.set k c (Entries.insert order k (Γ.zero elem) entries)))
      fun c => v.withEntries (Entries.remove k
        (Entries.set k c (Entries.insert order k (Γ.zero elem) entries)))).Of v := by
  have hu : v.withEntries (Entries.remove k (Entries.set k (Γ.zero elem)
      (Entries.insert order k (Γ.zero elem) entries))) = v := by
    rw [Entries.remove_set, Entries.remove_insert order _ hc, withEntries_of_node_map hv]
  rcases eq_of_node_map hv with ⟨kind, -, rfl⟩ | ⟨ms, rfl, rfl, rfl, rfl, rfl⟩
  · exact .of_typeOf hu nofun fun _ _ => rfl
  · cases hk
    rw [Members.get?_entries, Option.map_eq_none_iff] at hc
    refine ⟨hu, fun _ => ⟨.null, rfl, trivial⟩, fun _ => rfl, ?_⟩
    rintro _ h ⟨i, rfl, hi⟩
    refine ⟨.obj (Members.put s i ms), ?_, Json.wellformed_put (Val.isJson_json.1 h) hi⟩
    simp only [Val.withEntries, Members.set_insert_entries hc, map_member_entry]

/-- What fits in a slot for JSON is JSON. -/
theorem eq_json_of_fits {c : Val} (h : child.Fits c) (hc : child.typeOf = .json) :
    ∃ j, c = .json j :=
  Val.eq_json_of_typeOf (h.1.trans hc)

theorem node_set_entry (hv : Γ.node v = .map key order elem entries)
    (hc : Entries.get? k entries = some child) {c : Val} (hfit : child.Fits c) :
    Γ.node (v.withEntries (Entries.set k c entries)) =
      .map key order elem (Entries.set k c entries) := by
  refine node_withEntries hv ?_
  intro hj
  rcases eq_of_node_map hv with ⟨kind, -, rfl⟩ | ⟨ms, rfl, -, -, -, rfl⟩
  · cases hj
  · obtain ⟨s, i, rfl, rfl, hi⟩ := Members.of_get?_entries hc
    obtain ⟨i', rfl⟩ := eq_json_of_fits hfit rfl
    exact ⟨_, Members.set_entries hi i'⟩

theorem node_set_newEntry (hv : Γ.node v = .map key order elem entries) {s : String}
    (hk : key.ofToken s = .ok k) (hc : Entries.get? k entries = none) {c : Val}
    (hfit : (Γ.zero elem).Fits c) :
    Γ.node (v.withEntries (Entries.set k c (Entries.insert order k (Γ.zero elem) entries))) =
      .map key order elem (Entries.set k c (Entries.insert order k (Γ.zero elem) entries)) := by
  refine node_withEntries hv ?_
  intro hj
  rcases eq_of_node_map hv with ⟨kind, -, rfl⟩ | ⟨ms, rfl, rfl, rfl, rfl, rfl⟩
  · cases hj
  · cases hk
    rw [Members.get?_entries, Option.map_eq_none_iff] at hc
    obtain ⟨i', rfl⟩ := eq_json_of_fits hfit rfl
    exact ⟨_, Members.set_insert_entries hc _ i'⟩

end

/-! ## Elements -/

section
variable {v child : Val} {elem : Ty} {gap : Option Nat} {items : List Val} {i : Nat}

theorem of_item (hv : Γ.node v = .slice elem gap items) (hc : elem? gap items i = some child) :
    (Place.old child fun c => Γ.withItems v (items.set i c)).Of v := by
  have hi := getElem?_of_elem? hc
  have hu : Γ.withItems v (items.set i child) = v := by
    rw [set_of_getElem? hi, withItems_of_node_slice hv]
  have ht (c : Val) := typeOf_withItems_slice hv (items.set i c)
  rcases eq_of_node_slice hv with ⟨-, rfl⟩ | ⟨js, rfl, -, -, rfl⟩ | ⟨name, fields, rfl, -⟩
  · exact .of_typeOf hu (by rintro ⟨⟩) fun c _ => ht c
  · rw [List.getElem?_map, Option.map_eq_some_iff] at hi
    obtain ⟨k, hk, rfl⟩ := hi
    have hpart (h : (Val.json (.arr js)).IsJson) : (Val.json k).IsJson :=
      Val.isJson_json.2 (Json.wellformed_item (Val.isJson_json.1 h) hk)
    refine ⟨hu, hpart, fun _ => rfl, ?_⟩
    rintro _ h ⟨k', rfl, hk'⟩
    refine ⟨.arr (js.set i k'), ?_, Json.wellformed_set (Val.isJson_json.1 h) hk'⟩
    simp only [Place.old, withItems, ← List.map_set, map_asJson_json]
  · exact .of_typeOf hu (by rintro ⟨⟩) fun c _ => ht c

theorem of_arrayItem (hv : Γ.node v = .array gap items) (hc : elem? gap items i = some child) :
    (Place.old child fun c => Γ.withItems v (items.set i c)).Of v := by
  have hu : Γ.withItems v (items.set i child) = v := by
    rw [set_of_getElem? (getElem?_of_elem? hc), withItems_of_node_array hv]
  have hj : v.typeOf ≠ .json := by
    rcases eq_of_node_array hv with ⟨_, -, rfl⟩ | ⟨_, _, rfl, -⟩ <;> nofun
  exact .of_typeOf hu hj fun c _ => typeOf_withItems_array hv List.length_set

theorem push_json (js : List Json) (z : Val) (k : Json) :
    (js.map Val.json ++ [z]).set (js.map Val.json).length (.json k) = (js ++ [k]).map .json := by
  simp

/-- An element that is added with the zero value and taken off if its change fails. -/
theorem of_newItem (hv : Γ.node v = .slice elem gap items) :
    (Place.mk (Γ.zero elem)
      (fun c => Γ.withItems v ((items ++ [Γ.zero elem]).set items.length c))
      fun c => Γ.withItems v (((items ++ [Γ.zero elem]).set items.length c).take items.length)).Of
      v := by
  have hu : Γ.withItems v (((items ++ [Γ.zero elem]).set items.length (Γ.zero elem)).take
      items.length) = v := by
    rw [List.take_set_of_le (Nat.le_refl _), List.take_left, withItems_of_node_slice hv]
  have ht (c : Val) :=
    typeOf_withItems_slice hv ((items ++ [Γ.zero elem]).set items.length c)
  rcases eq_of_node_slice hv with ⟨-, rfl⟩ | ⟨js, rfl, -, rfl, rfl⟩ | ⟨name, fields, rfl, -⟩
  · exact .of_typeOf hu (by rintro ⟨⟩) fun c _ => ht c
  · refine ⟨hu, fun _ => ⟨.null, rfl, trivial⟩, fun _ => rfl, ?_⟩
    rintro _ h ⟨k, rfl, hk⟩
    refine ⟨.arr (js ++ [k]), ?_, Json.wellformed_arr.2 ?_⟩
    · simp only [withItems, push_json, map_asJson_json]
    · intro x hx
      rcases List.mem_append.1 hx with hx | hx
      · exact Json.wellformed_arr.1 (Val.isJson_json.1 h) x hx
      · exact List.mem_singleton.1 hx ▸ hk
  · exact .of_typeOf hu (by rintro ⟨⟩) fun c _ => ht c

/-- A plain sequence with other elements shows these. -/
theorem node_withItems_slice (hΓ : Γ.Plain) (hv : Γ.node v = .slice elem gap items)
    {xs : List Val} (h : v.typeOf = .json → ∃ js : List Json, xs = js.map .json) :
    Γ.node (Γ.withItems v xs) = .slice elem none xs := by
  obtain ⟨-, rfl | ⟨js, rfl, rfl, rfl⟩⟩ := hΓ.slice_cases hv
  · rfl
  · obtain ⟨js', rfl⟩ := h rfl
    rw [withItems, map_asJson_json]
    rfl

theorem node_set_item (hΓ : Γ.Plain) (hv : Γ.node v = .slice elem gap items)
    (hc : elem? gap items i = some child) {c : Val} (hfit : child.Fits c) :
    Γ.node (Γ.withItems v (items.set i c)) = .slice elem none (items.set i c) := by
  refine node_withItems_slice hΓ hv ?_
  intro hj
  obtain ⟨-, rfl | ⟨js, rfl, -, rfl⟩⟩ := hΓ.slice_cases hv
  · cases hj
  · have hi := getElem?_of_elem? hc
    rw [List.getElem?_map, Option.map_eq_some_iff] at hi
    obtain ⟨k, -, rfl⟩ := hi
    obtain ⟨k', rfl⟩ := eq_json_of_fits hfit rfl
    exact ⟨js.set i k', (List.map_set ..).symm⟩

theorem node_push (hΓ : Γ.Plain) (hv : Γ.node v = .slice elem gap items) {c : Val}
    (hfit : (Γ.zero elem).Fits c) :
    Γ.node (Γ.withItems v ((items ++ [Γ.zero elem]).set items.length c)) =
      .slice elem none ((items ++ [Γ.zero elem]).set items.length c) := by
  refine node_withItems_slice hΓ hv ?_
  intro hj
  obtain ⟨-, rfl | ⟨js, rfl, rfl, rfl⟩⟩ := hΓ.slice_cases hv
  · cases hj
  · obtain ⟨k, rfl⟩ := eq_json_of_fits hfit rfl
    exact ⟨js ++ [k], push_json js _ k⟩

theorem node_set_arrayItem (hΓ : Γ.Plain) (hv : Γ.node v = .array gap items) (i : Nat)
    (c : Val) :
    gap = none ∧ Γ.node (Γ.withItems v (items.set i c)) = .array none (items.set i c) := by
  obtain ⟨rfl, elem, rfl⟩ := hΓ.array_cases hv
  exact ⟨rfl, rfl⟩

end

/-! ## Assigning -/

theorem embed_field_step {here : Pointer} {t : Token} {v : Val} {name : String}
    {fields : List Val} (hv : Γ.node v = .record name fields) :
    Step v (fun f => Γ.descendBare here t f v) False (Γ.RegainsBare t) := by
  cases hp : Γ.fieldPath name t with
  | error fault => exact .stops _ fun _ => by simp only [descendBare, hv, hp]; rfl
  | ok path =>
    cases path with
    | nil => exact .stops _ fun _ => by simp only [descendBare, hv, hp]; rfl
    | cons i below =>
      cases hc : fields[i]? with
      | none => exact .stops _ fun _ => by simp only [descendBare, hv, hp, hc]; rfl
      | some child =>
        obtain ⟨hi, -⟩ := List.getElem?_eq_some_iff.1 hc
        refine (embed_step (Γ := Γ) here below child).underOld (of_field hv hc)
          (fun _ => by simp only [descendBare, hv, hp, hc]) ?_
        intro w c _ hw _
        have hn := node_withFields hv (fields.set i w)
        refine ⟨opened_eq_self (by simp [hn]) (by simp [hn]), ?_⟩
        intro _
        simp only [landedBare, selectBare, hn, hp, follow_set hv hi hw]

theorem descend_map_step {here : Pointer} {t : Token} {v : Val} {key : KeyTy}
    {order : EntryOrder} {elem : Ty} {entries : Entries Val}
    (hv : Γ.node v = .map key order elem entries) :
    Step v (fun f => Γ.descendBare here t f v) False (Γ.RegainsBare t) := by
  cases hk : key.ofToken t.decoded with
  | error e => exact .stops _ fun _ => by simp only [descendBare, hv, hk]; rfl
  | ok k =>
    cases hc : Entries.get? k entries with
    | some child =>
      refine .old (of_entry hv hc) (fun _ => by simp only [descendBare, hv, hk, hc]) ?_
      intro c hfit
      exact regainsBare_entry (node_set_entry hv hc hfit) hk (Entries.get?_set_self hc)
    | none =>
      refine .leads _ (fun _ => by simp only [descendBare, hv, hk, hc]; rfl)
        (of_newEntry hv hk hc) ?_
      intro c hfit
      exact regainsBare_entry (node_set_newEntry hv hk hc hfit) hk
        (Entries.get?_set_self (Entries.get?_insert_self order _ hc))

theorem descend_slice_step {here : Pointer} {t : Token} {v : Val} {elem : Ty} {gap : Option Nat}
    {items : List Val} (hv : Γ.node v = .slice elem gap items) :
    Step v (fun f => Γ.descendBare here t f v) False (Γ.RegainsBare t) := by
  cases ht : t.index items.length with
  | error e => exact .stops _ fun _ => by simp only [descendBare, hv, ht]; rfl
  | ok i =>
    by_cases hi : i = items.length
    · subst hi
      refine .leads _ (fun _ => by simp only [descendBare, hv, ht, if_true]; rfl)
        (of_newItem hv) ?_
      intro c hfit hΓ
      exact regainsBare_item (node_push hΓ hv hfit) ht (by simp) (fun _ => by simp) hΓ
    · cases hc : elem? gap items i with
      | none => exact .stops _ fun _ => by simp only [descendBare, hv, ht, hi, hc, if_false]; rfl
      | some child =>
        refine .old (of_item hv hc)
          (fun _ => by simp only [descendBare, hv, ht, hi, hc, if_false]) ?_
        intro c hfit hΓ
        obtain ⟨hlt, -⟩ := List.getElem?_eq_some_iff.1 (getElem?_of_elem? hc)
        refine regainsBare_item (node_set_item hΓ hv hc hfit) ht (List.getElem?_set_self hlt)
          (fun ha => ?_) hΓ
        -- the token after the last element would have led to a new one
        rcases Token.index_eq_ok.1 ht with ⟨-, rfl⟩ | ⟨hna, -⟩
        · exact absurd rfl hi
        · rw [ha] at hna
          cases hna

/-- One step of an assign, in a value that is neither null nor a pointer nor a region. -/
theorem descendBare_step (here : Pointer) (t : Token) (v : Val) :
    Step v (fun f => Γ.descendBare here t f v) False (Γ.RegainsBare t) := by
  cases hv : Γ.node v with
  | record name fields => exact embed_field_step hv
  | map key order elem entries => exact descend_map_step hv
  | slice elem gap items => exact descend_slice_step hv
  | array gap items =>
    cases ht : t.existing items.length with
    | error e => exact .stops _ fun _ => by simp only [descendBare, hv, ht]; rfl
    | ok i =>
      cases hc : elem? gap items i with
      | none => exact .stops _ fun _ => by simp only [descendBare, hv, ht, hc]; rfl
      | some child =>
        refine .old (of_arrayItem hv hc) (fun _ => by simp only [descendBare, hv, ht, hc]) ?_
        intro c hfit hΓ
        obtain ⟨rfl, hn⟩ := node_set_arrayItem hΓ hv i c
        obtain ⟨hlt, -⟩ := List.getElem?_eq_some_iff.1 (getElem?_of_elem? hc)
        refine ⟨opened_eq_self (by simp [hn]) (by simp [hn]), ?_⟩
        intro _
        simp only [landedBare, selectBare, hn, List.length_set, ht, elem?]
        simp [List.getElem?_set_self hlt]
  | «sealed» full => cases full <;> exact .stops _ fun _ => by simp only [descendBare, hv]; rfl
  | _ => exact .stops _ fun _ => by simp only [descendBare, hv]; rfl

theorem descendJson_step (here : Pointer) (t : Token) (j : Json) :
    Step (.json j) (fun f => Γ.descendJson here t f j) False (Γ.RegainsBare t) := by
  have hnull (shape : Shape) : (Place.mk (.json shape.container) id Γ.cleared).Of (.json .null) := by
    have hpart : (Val.json shape.container).IsJson :=
      ⟨_, rfl, by cases shape <;> simp [Shape.container, Json.wellformed_arr,
        Json.wellformed_obj, Members.names]⟩
    exact ⟨rfl, fun _ => hpart, id, fun _ => id⟩
  cases j with
  | null =>
    exact (descendBare_step here t _).under (hnull (Shape.ofToken t)) (fun _ => rfl)
      fun _ _ _ => id
  | _ => exact descendBare_step here t _

/-- The value that a region spells. -/
theorem of_raw (bytes : ByteArray) (j : Json) :
    (Place.mk (.json j) (fun v => .raw v.asJson.toBytes) fun _ => .raw bytes).Of (.raw bytes) :=
  .of_typeOf rfl nofun fun _ _ => rfl

/-- **One step of an assign.** -/
theorem descend_step (here : Pointer) (t : Token) (v : Val) :
    Step v (fun f => Γ.descend here t f v) False (Γ.Regains t) := by
  have hbare (w : Val) (h : ∀ f, Γ.descend here t f w = Γ.descendBare here t f w) :
      Step w (fun f => Γ.descend here t f w) False (Γ.Regains t) := by
    simp only [h]
    exact (descendBare_step here t w).mono fun w c => .of_bare
  cases v with
  | raw bytes =>
    cases hj : Γ.regionValue? bytes with
    | none => exact .stops _ fun _ => by simp only [descend, hj]; rfl
    | some j =>
      refine (descendJson_step (Γ := Γ) here t j).under (of_raw bytes j) (fun _ => by simp only [descend, hj]) ?_
      intro w c hfit hw hp hf
      obtain ⟨k, rfl, hk⟩ := hfit.2 ⟨j, rfl, wellformed_of_regionValue? hj⟩
      exact ⟨.json k, (opened_toBytes hf hk).1, (hw hp).2⟩
  | json j => exact (descendJson_step here t j).mono fun w c => .of_bare
  | _ => exact hbare _ fun _ => rfl

/-- A walk sees what the target shows. -/
theorem Regains.of_aims {t : Token} {u w c : Val} (hu : Aims u w) (h : Γ.Regains t w c) :
    Γ.Regains t u c := by
  have ho : Γ.opened u = Γ.opened w := by rw [opened, opened, hu]
  rw [Regains, ho]
  exact h

/-- **One step of an assign, from behind the pointers on.** -/
theorem advance_step (here : Pointer) (t : Token) (v : Val) :
    Step v (fun f => Γ.allocating (Shape.ofToken t) (fun w => Γ.descend here t f w) v) False
      (Γ.Regains t) :=
  (allocating_step _ v).comp (descend_step here t) fun _ _ _ => .of_aims

/-! ## Deleting -/

theorem fits_removeEntry {v : Val} {key : KeyTy} {order : EntryOrder} {elem : Ty}
    {entries : Entries Val} (hv : Γ.node v = .map key order elem entries) (k : Key) :
    v.Fits (v.withEntries (Entries.remove k entries)) := by
  refine ⟨typeOf_withEntries _, ?_⟩
  rintro ⟨j, rfl, hj⟩
  rcases eq_of_node_map hv with ⟨kind, -, h⟩ | ⟨ms, h, -, -, -, rfl⟩
  · cases h
  · cases h
    obtain ⟨ms', hms, hw⟩ : ∃ ms' : Members Json, Entries.remove k ms.entries = ms'.entries ∧
        (Json.obj ms').Wellformed := by
      cases k with
      | text s => exact ⟨_, Members.remove_entries s ms, Json.wellformed_remove hj⟩
      | bool b => exact ⟨ms, Entries.remove_of_get? (Members.get?_entries_eq_none (by simp)), hj⟩
      | int n => exact ⟨ms, Entries.remove_of_get? (Members.get?_entries_eq_none (by simp)), hj⟩
    refine ⟨.obj ms', ?_, hw⟩
    rw [Val.withEntries, hms, map_member_entry]

theorem fits_removeItem {v : Val} {elem : Ty} {gap : Option Nat} {items : List Val}
    (hv : Γ.node v = .slice elem gap items) (i : Nat) :
    v.Fits (Γ.withItems v (items.eraseIdx i)) := by
  refine ⟨typeOf_withItems_slice hv _, ?_⟩
  rintro ⟨j, rfl, hj⟩
  rcases eq_of_node_slice hv with ⟨-, h⟩ | ⟨js, h, -, -, rfl⟩ | ⟨name, fields, h, -⟩
  · cases h
  · cases h
    refine ⟨.arr (js.eraseIdx i), ?_, Json.wellformed_eraseIdx hj⟩
    rw [withItems, List.eraseIdx_eq_take_drop_succ, ← List.map_take, ← List.map_drop,
      ← List.map_append, map_asJson_json, List.eraseIdx_eq_take_drop_succ]
  · cases h

theorem removeBare_step (here : Pointer) (t : Token) (last : Bool) (v : Val) :
    Step v (fun f => Γ.removeBare here t last f v) True fun _ _ => True := by
  cases hv : Γ.node v with
  | record name fields =>
    cases hp : Γ.fieldPath name t with
    | error fault => exact .stops _ fun _ => by simp only [removeBare, hv, hp]; rfl
    | ok path => simpa only [removeBare, hv, hp] using prune_step path v
  | map key order elem entries =>
    cases hk : key.ofToken t.decoded with
    | error e => exact .stops _ fun _ => by simp only [removeBare, hv, hk]; rfl
    | ok k =>
      cases last with
      | true =>
        exact .ends _ (fun _ => by simp only [removeBare, hv, hk, if_true])
          (fits_removeEntry hv k) trivial
      | false =>
        cases hc : Entries.get? k entries with
        | none => exact .ends v (fun _ => by simp [removeBare, hv, hk, hc]) (.refl v) trivial
        | some child =>
          exact .old (of_entry hv hc) (fun _ => by simp [removeBare, hv, hk, hc]) fun _ _ => trivial
  | slice elem gap items =>
    cases ht : t.index items.length with
    | error e =>
      cases e with
      | malformed s => exact .stops _ fun _ => by simp only [removeBare, hv, ht]; rfl
      | outOfRange i bound =>
        by_cases hi : 0 ≤ i
        · exact .ends v (fun _ => by simp only [removeBare, hv, ht, hi, if_true]) (.refl v) trivial
        · exact .stops _ fun _ => by simp only [removeBare, hv, ht, hi, if_false]; rfl
    | ok i =>
      by_cases hi : i = items.length
      · exact .ends v (fun _ => by simp only [removeBare, hv, ht, hi, if_true]) (.refl v) trivial
      · cases last with
        | true =>
          exact .ends _ (fun _ => by simp only [removeBare, hv, ht, hi, if_false, if_true])
            (fits_removeItem hv i) trivial
        | false =>
          cases hc : elem? gap items i with
          | none => exact .ends v (fun _ => by simp [removeBare, hv, ht, hi, hc]) (.refl v) trivial
          | some child =>
            exact .old (of_item hv hc) (fun _ => by simp [removeBare, hv, ht, hi, hc])
              fun _ _ => trivial
  | array gap items =>
    cases ht : t.existing items.length with
    | error e => exact .stops _ fun _ => by simp only [removeBare, hv, ht]; rfl
    | ok i =>
      cases hc : elem? gap items i with
      | none => exact .ends v (fun _ => by simp only [removeBare, hv, ht, hc]) (.refl v) trivial
      | some child =>
        exact .old (of_arrayItem hv hc) (fun _ => by simp only [removeBare, hv, ht, hc])
          fun _ _ => trivial
  | scalar => exact .stops _ fun _ => by simp only [removeBare, hv]; rfl
  | _ => exact .ends v (fun _ => by simp only [removeBare, hv]) (.refl v) trivial

/-- **One step of a delete.** -/
theorem remove_step (here : Pointer) (t : Token) (last : Bool) (v : Val) :
    Step v (fun f => Γ.remove here t last f v) True fun _ _ => True := by
  cases v with
  | raw bytes =>
    by_cases he : bytes.isEmpty
    · exact .ends _ (fun _ => by simp only [remove, he, if_true]) (.refl _) trivial
    · cases hj : Γ.regionValue? bytes with
      | none => exact .stops _ fun _ => by simp only [remove, he, hj]; rfl
      | some j =>
        exact (removeBare_step (Γ := Γ) here t last (.json j)).under (of_raw bytes j)
          (fun _ => by simp only [remove, he, hj]; rfl) fun _ _ _ => id
  | _ => exact removeBare_step (Γ := Γ) here t last _

end DocPointer.Schema
