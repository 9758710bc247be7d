/-
  What a step of an assign leaves alone.

  A token has an `Address` in a value: a field, an entry or an element.  A step of an assign
  that changes the part at an address exchanges it for another (`Exchange`): tokens of the
  same address find what the part has become, tokens of other addresses find what they
  found before, and the keys of an object keep their order.  There is one lemma for each
  kind of container before `descendBare_exchange`.

  * `advance_exchange`: behind pointers, and in the value that a region spells.
  * `Exchanged.opens`: what a region spells afterwards.  The text that was written for a value
    is read as that value, or as the value with other numbers, or, if the value nests too deep,
    not at all (`Rereads`, `RereadsBy`, `Readable`).
-/
import DocPointer.Proofs.Walk.Absence
import DocPointer.Proofs.Walk.Renumbering

namespace DocPointer

/-- What a token addresses in a container. -/
inductive Address where
  | field (path : List Nat)
  | entry (k : Key)
  | item (i : Nat)
  deriving DecidableEq, Repr

namespace Schema

section
variable (Γ : Schema)

/-- The address of a token in a value that is neither a pointer that leads somewhere nor a
    region.  There need not be anything: the position after the last element is an
    address too. -/
def addressBare? (t : Token) (v : Val) : Option Address :=
  match Γ.node v with
  | .record name _ => (Γ.fieldPath name t).toOption.map .field
  | .map key .. => (key.ofToken t.decoded).toOption.map .entry
  | .slice _ _ items | .array _ items => (t.index items.length).toOption.map .item
  | _ => none

/-- The keys of a map. -/
def keysBare? (v : Val) : Option (List Key) :=
  match Γ.node v with
  | .map _ _ _ entries => some (entries.map Prod.fst)
  | _ => none

/-- The elements of a sequence. -/
def items? (v : Val) : Option (List Val) :=
  match Γ.node v with
  | .slice _ _ items | .array _ items => some items
  | _ => none

/-- The value `w` is `v` with the part `d` at the address of `t`, found there or made,
    exchanged for `c`. -/
structure Exchange (t : Token) (v w d c : Val) : Prop where
  opened_eq : Γ.opened w = .ok w
  same {u : Token} {x : Val} : Γ.addressBare? u v = Γ.addressBare? t v →
    Γ.selectBare u v = .ok x → x = d ∧ Γ.selectBare u w = .ok c
  other {u : Token} : Γ.addressBare? u v ≠ Γ.addressBare? t v →
    ((∃ x, Γ.selectBare t v = .ok x) ∨ ∃ x, Γ.selectBare u v = .ok x) →
      Γ.selectBare u w = Γ.selectBare u v
  keys {ks : List Key} : Γ.keysBare? v = some ks → ∃ ks', Γ.keysBare? w = some ks' ∧ ks.Sublist ks'
  alike {R : ByteArray → ByteArray → Prop} : (∃ x, Γ.selectBare t v = .ok x) → d.Alike R c →
    v.Alike R w

/-- The bytes, if they were written for a value, are read as that value. -/
def Rereads (bytes : ByteArray) : Prop :=
  ∀ j : Json, j.Wellformed → bytes = j.toBytes → Json.ofBytes? Γ.reading bytes = some j

/-- The bytes, if they were written for a value, are read as that value with other numbers. -/
def RereadsBy (g : Number → Number) (bytes : ByteArray) : Prop :=
  ∀ j : Json, j.Wellformed → bytes = j.toBytes →
    Json.ofBytes? Γ.reading bytes = some (j.renumber g)

/-- The bytes, if they were written for a value, are read. -/
def Readable (bytes : ByteArray) : Prop :=
  ∀ j : Json, j.Wellformed → bytes = j.toBytes → ∃ i, Json.ofBytes? Γ.reading bytes = some i

/-- If the value leads to a region, that is read as what was written there. -/
def Legible (v : Val) : Prop := ∀ bytes, v.target = .raw bytes → Γ.Rereads bytes

/-- The same for a value that may be a pointer or a region: in a region the part is one of the
    value that it spells. -/
structure Exchanged (t : Token) (v w d c : Val) : Prop where
  part_eq {x : Val} : Γ.select t v = .ok x → x = d
  bare : (∀ bytes, v.target ≠ .raw bytes) → Γ.node v.target ≠ .nil →
    Γ.Exchange t v.target w.target d c
  region {bytes : ByteArray} {j : Json} : v.target = .raw bytes → Γ.opened v = .ok (.json j) →
    ∃ k : Json, k.Wellformed ∧ w.target = .raw k.toBytes ∧ Γ.Exchange t (.json j) (.json k) d c
  alike {R : ByteArray → ByteArray → Prop} : (∃ x, Γ.select t v = .ok x) →
    (∀ bytes j, v.target = .raw bytes → Json.ofBytes? Γ.reading bytes = some j →
      R bytes j.toBytes) →
      d.Alike R c → v.Alike R w

end

variable {Γ : Schema} {t u : Token} {v w d c : Val} {here : Pointer} {f : Val → Outcome}

/-! ## What was written -/

theorem Faithful.rereads (hΓ : Γ.Faithful) (bytes : ByteArray) : Γ.Rereads bytes := by
  rintro j hj rfl
  exact hΓ j hj

theorem rereadsBy_id {bytes : ByteArray} : Γ.RereadsBy id bytes ↔ Γ.Rereads bytes := by
  simp only [RereadsBy, Rereads, Json.renumber_id]

theorem Rereads.readable {bytes : ByteArray} (h : Γ.Rereads bytes) : Γ.Readable bytes :=
  fun j hj hb => ⟨j, h j hj hb⟩

/-- What is read is read with its numbers as they are read. -/
theorem Readable.rereadsBy {bytes : ByteArray} (h : Γ.Readable bytes) :
    Γ.RereadsBy (Number.reread Γ.reading.rounding) bytes := by
  rintro j hj rfl
  exact Json.ofBytes?_toBytes_eq hj (Json.exists_ofBytes?_iff.1 (h j hj rfl))

/-- What nests no deeper than a value that was read can be read where it is written. -/
theorem readable_of_height {bytes : ByteArray} {j k : Json}
    (hj : Json.ofBytes? Γ.reading bytes = some j) (h : k.height ≤ j.height) :
    Γ.Readable k.toBytes :=
  fun _ _ _ => Json.exists_ofBytes?_iff.2 ((Json.room_of_ofBytes? hj).mono h)

/-! ## Nil -/

/-- In nil nothing is found. -/
theorem exchange_of_nil (hv : Γ.node v = .nil) (hw : Γ.opened w = .ok w) :
    Γ.Exchange t v w d c := by
  have hnot (u : Token) (x : Val) : Γ.selectBare u v ≠ .ok x := by simp [selectBare, hv]
  refine ⟨hw, fun _ h => absurd h (hnot _ _), ?_, ?_, ?_⟩
  · rintro u - (⟨x, hx⟩ | ⟨x, hx⟩)
    · exact absurd hx (hnot _ _)
    · exact absurd hx (hnot _ _)
  · intro ks h
    simp [keysBare?, hv] at h
  · rintro R ⟨x, hx⟩
    exact absurd hx (hnot _ _)

/-! ## Entries -/

section
variable {key : KeyTy} {order : EntryOrder} {elem : Ty} {entries es : Entries Val} {k : Key}
  {child : Val}

/-- An entry is set in entries that differ from those of the map at most under its key. -/
theorem exchange_entry (hv : Γ.node v = .map key order elem entries)
    (hw : Γ.node w = .map key order elem (Entries.set k c es)) (ht : w.typeOf = v.typeOf)
    (hk : key.ofToken t.decoded = .ok k) (hchild : Entries.get? k es = some child)
    (hfound : ∀ x, Entries.get? k entries = some x → x = d ∧
      ∀ {R : ByteArray → ByteArray → Prop}, d.Alike R c → v.Alike R w)
    (hother : ∀ k' ≠ k, Entries.get? k' es = Entries.get? k' entries)
    (hsub : entries.Sublist es) : Γ.Exchange t v w d c := by
  refine ⟨opened_eq_self (by simp [hw]) (by simp [hw]), ?_, ?_, ?_, ?_⟩
  · intro u x ha hx
    obtain ⟨k', hu, hx⟩ := (selectBare_entry hv).1 hx
    obtain rfl : k' = k := by simpa [addressBare?, hv, hk, hu, Except.toOption] using ha
    exact ⟨(hfound x hx).1, (selectBare_entry hw).2 ⟨k', hu, Entries.get?_set_self hchild⟩⟩
  · intro u ha _
    cases hu : key.ofToken u.decoded with
    | error e => simp only [selectBare, hv, hw, hu, ht]
    | ok k' =>
      have hne : k' ≠ k := by simpa [addressBare?, hv, hk, hu, Except.toOption] using ha
      simp only [selectBare, hv, hw, hu, Entries.get?_set_of_ne hne, hother k' hne, ht]
  · intro ks hks
    obtain rfl : entries.map Prod.fst = ks := by simpa [keysBare?, hv] using hks
    refine ⟨es.map Prod.fst, ?_, hsub.map _⟩
    simp only [keysBare?, hw, Entries.keys_set]
  · rintro R ⟨x, hx⟩
    obtain ⟨k', hk', hx⟩ := (selectBare_entry hv).1 hx
    cases hk.symm.trans hk'
    exact (hfound x hx).2

/-- A change of the bytes of a region in an entry is one in the map. -/
theorem alike_set_entry (hv : Γ.node v = .map key order elem entries)
    (hc : Entries.get? k entries = some d) {R : ByteArray → ByteArray → Prop} (h : d.Alike R c) :
    v.Alike R (v.withEntries (Entries.set k c entries)) := by
  rcases eq_of_node_map hv with ⟨kind, -, rfl⟩ | ⟨ms, rfl, -, -, -, rfl⟩
  · exact .entry hc h
  · obtain ⟨s, i, -, rfl, -⟩ := Members.of_get?_entries hc
    rw [h.eq_json, Entries.set_of_get? hc, withEntries_of_node_map hv]
    exact .refl _

theorem descend_entry_exchange (hv : Γ.node v = .map key order elem entries)
    (hf : ∀ {d c : Val}, f d = (.ok (), c) → d.Fits c)
    (h : Γ.descendBare here t f v = (.ok (), w)) :
    ∃ d c, f d = (.ok (), c) ∧ Γ.Exchange t v w d c := by
  cases hk : key.ofToken t.decoded with
  | error e =>
    simp only [descendBare, hv, hk] at h
    cases h
  | ok k =>
    cases hc : Entries.get? k entries with
    | some d =>
      simp only [descendBare, hv, hk, hc] at h
      obtain ⟨c, hfc, rfl⟩ := Attempt.inside_ok h
      refine ⟨d, c, hfc, exchange_entry hv (node_set_entry hv hc (hf hfc)) (typeOf_withEntries _) hk
        hc ?_ (fun _ _ => rfl) (.refl _)⟩
      intro x hx
      cases hc.symm.trans hx
      exact ⟨rfl, alike_set_entry hv hc⟩
    | none =>
      simp only [descendBare, hv, hk, hc] at h
      obtain ⟨c, hfc, rfl⟩ := Attempt.within_ok h
      refine ⟨_, c, hfc, exchange_entry hv (node_set_newEntry hv hk hc (hf hfc))
        (typeOf_withEntries _) hk (Entries.get?_insert_self order _ hc) ?_
        (fun k' hne => Entries.get?_insert_of_ne hne order _ _)
        (Entries.sublist_insert order k _ _)⟩
      intro x hx
      cases hc.symm.trans hx

end

/-! ## Elements -/

section
variable {elem : Ty} {gap : Option Nat} {items xs : List Val} {i : Nat} {u : Token}

/-- What a token finds in a sequence. -/
theorem Plain.selectBare_items (hΓ : Γ.Plain) (hv : Γ.items? v = some items) (u : Token) :
    Γ.selectBare u v =
      match u.existing items.length with
      | .error e => .error ⟨.index e, v.typeOf⟩
      | .ok i => match items[i]? with
        | some x => .ok x
        | none => .error ⟨.notFound, v.typeOf⟩ := by
  rw [items?] at hv
  split at hv
  · next elem gap xs hn =>
    cases hv
    obtain ⟨rfl, -⟩ := hΓ.slice_cases hn
    simp only [selectBare, hn]
    rfl
  · next gap xs hn =>
    cases hv
    obtain ⟨rfl, -⟩ := hΓ.array_cases hn
    simp only [selectBare, hn]
    rfl
  · cases hv

theorem addressBare?_items (hv : Γ.items? v = some items) (u : Token) :
    Γ.addressBare? u v = (u.index items.length).toOption.map .item := by
  rw [items?] at hv
  split at hv
  · next hn =>
    cases hv
    simp only [addressBare?, hn]
  · next hn =>
    cases hv
    simp only [addressBare?, hn]
  · cases hv

theorem opened_of_items (hv : Γ.items? v = some items) : Γ.opened v = .ok v := by
  rw [items?] at hv
  refine opened_eq_self ?_ ?_
  · intro w hn
    simp [hn] at hv
  · intro b hn
    simp [hn] at hv

theorem keysBare?_items (hv : Γ.items? v = some items) : Γ.keysBare? v = none := by
  rw [items?] at hv
  split at hv
  · next hn => simp only [keysBare?, hn]
  · next hn => simp only [keysBare?, hn]
  · cases hv

/-- A token finds an element of a sequence that has it. -/
theorem Plain.selectBare_item (hΓ : Γ.Plain) (hv : Γ.items? v = some items) {x : Val} :
    Γ.selectBare u v = .ok x ↔ ∃ i, u.existing items.length = .ok i ∧ items[i]? = some x := by
  rw [hΓ.selectBare_items hv]
  cases hu : u.existing items.length with
  | error e => simp
  | ok i => cases hi : items[i]? <;> simp [hi]

/-- An element is set in elements that are those of the sequence, or these and one more, which
    is the one. -/
theorem exchange_item (hΓ : Γ.Plain) (hv : Γ.items? v = some items)
    (hw : Γ.items? w = some (xs.set i c)) (ht : w.typeOf = v.typeOf)
    (hi : t.index items.length = .ok i) (hlt : i < xs.length)
    (hfound : ∀ x, items[i]? = some x → xs = items ∧ x = d ∧
      ∀ {R : ByteArray → ByteArray → Prop}, d.Alike R c → v.Alike R w)
    (hxs : items <+: xs) : Γ.Exchange t v w d c := by
  have hlen : items.length ≤ xs.length := hxs.length_le
  have hat : Γ.addressBare? t v = some (.item i) := by
    simp only [addressBare?_items hv, hi]
    rfl
  -- other elements are found where they were
  have hother {u : Token} {j : Nat} (hu : u.existing items.length = .ok j) (hne : j ≠ i) :
      Γ.selectBare u w = Γ.selectBare u v := by
    obtain ⟨hj, hjlt⟩ := Token.existing_eq_ok.1 hu
    have hu' : u.existing (xs.set i c).length = .ok j := by
      rw [List.length_set]
      exact Token.existing_mono hu hlen
    have hget : (xs.set i c)[j]? = items[j]? := by
      obtain ⟨more, rfl⟩ := hxs
      rw [List.getElem?_set_ne (Ne.symm hne), List.getElem?_append_left hjlt]
    simp only [hΓ.selectBare_items hv, hΓ.selectBare_items hw, hu, hu', hget, ht]
  refine ⟨opened_of_items hw, ?_, ?_, ?_, ?_⟩
  · intro u x ha hx
    obtain ⟨j, hj, hjx⟩ := (hΓ.selectBare_item hv).1 hx
    have hu := (Token.existing_eq_ok.1 hj).1
    obtain rfl : j = i := by
      simpa [hat, addressBare?_items hv, hu, Except.toOption] using ha
    obtain ⟨rfl, rfl, -⟩ := hfound x hjx
    refine ⟨rfl, (hΓ.selectBare_item hw).2 ⟨j, ?_, List.getElem?_set_self hlt⟩⟩
    rw [List.length_set]
    exact hj
  · intro u ha hor
    cases hu : u.existing items.length with
    | ok j =>
      refine hother hu ?_
      rintro rfl
      rw [hat, addressBare?_items hv, (Token.existing_eq_ok.1 hu).1] at ha
      exact ha rfl
    | error e =>
      rcases hor with ⟨x, hx⟩ | ⟨x, hx⟩
      · obtain ⟨j, hj, hjx⟩ := (hΓ.selectBare_item hv).1 hx
        cases hi.symm.trans (Token.existing_eq_ok.1 hj).1
        obtain ⟨rfl, -⟩ := hfound x hjx
        simp only [hΓ.selectBare_items hv, hΓ.selectBare_items hw, List.length_set, hu, ht]
      · obtain ⟨j, hj, -⟩ := (hΓ.selectBare_item hv).1 hx
        cases hu.symm.trans hj
  · intro ks hks
    rw [keysBare?_items hv] at hks
    cases hks
  · rintro R ⟨x, hx⟩
    obtain ⟨j, hj, hjx⟩ := (hΓ.selectBare_item hv).1 hx
    cases hi.symm.trans (Token.existing_eq_ok.1 hj).1
    exact (hfound x hjx).2.2

theorem items?_slice (hv : Γ.node v = .slice elem gap items) : Γ.items? v = some items := by
  simp only [items?, hv]

theorem items?_array (hv : Γ.node v = .array gap items) : Γ.items? v = some items := by
  simp only [items?, hv]

/-- A change of the bytes of a region in an element is one in the sequence. -/
theorem alike_set_item (hΓ : Γ.Plain) (hv : Γ.node v = .slice elem gap items)
    (hc : items[i]? = some d) {R : ByteArray → ByteArray → Prop} (h : d.Alike R c) :
    v.Alike R (Γ.withItems v (items.set i c)) := by
  obtain ⟨-, rfl | ⟨js, rfl, -, rfl⟩⟩ := hΓ.slice_cases hv
  · exact .item hc h
  · obtain ⟨k, -, rfl⟩ := List.mem_map.1 (List.mem_of_getElem? hc)
    rw [h.eq_json, set_of_getElem? hc, withItems_of_node_slice hv]
    exact .refl _

theorem alike_set_arrayItem (hΓ : Γ.Plain) (hv : Γ.node v = .array gap items)
    (hc : items[i]? = some d) {R : ByteArray → ByteArray → Prop} (h : d.Alike R c) :
    v.Alike R (Γ.withItems v (items.set i c)) := by
  obtain ⟨-, elem, rfl⟩ := hΓ.array_cases hv
  exact .arrayItem hc h

theorem descend_item_exchange (hΓ : Γ.Plain) (hv : Γ.node v = .slice elem gap items)
    (hf : ∀ {d c : Val}, f d = (.ok (), c) → d.Fits c)
    (h : Γ.descendBare here t f v = (.ok (), w)) :
    ∃ d c, f d = (.ok (), c) ∧ Γ.Exchange t v w d c := by
  cases ht : t.index items.length with
  | error e =>
    simp only [descendBare, hv, ht] at h
    cases h
  | ok i =>
    by_cases hi : i = items.length
    · subst hi
      simp only [descendBare, hv, ht, if_true] at h
      obtain ⟨c, hfc, rfl⟩ := Attempt.within_ok h
      refine ⟨_, c, hfc, exchange_item hΓ (items?_slice hv) (items?_slice (node_push hΓ hv (hf hfc)))
        (typeOf_withItems_slice hv _) ht (by simp) ?_ (List.prefix_append _ _)⟩
      intro x hx
      simp at hx
    · cases hc : elem? gap items i with
      | none =>
        simp only [descendBare, hv, ht, hi, hc, if_false] at h
        cases h
      | some d =>
        simp only [descendBare, hv, ht, hi, hc, if_false] at h
        obtain ⟨c, hfc, rfl⟩ := Attempt.inside_ok h
        have hget := getElem?_of_elem? hc
        obtain ⟨hlt, -⟩ := List.getElem?_eq_some_iff.1 hget
        refine ⟨d, c, hfc, exchange_item hΓ (items?_slice hv)
          (items?_slice (node_set_item hΓ hv hc (hf hfc))) (typeOf_withItems_slice hv _) ht hlt ?_
          List.prefix_rfl⟩
        intro x hx
        cases hget.symm.trans hx
        exact ⟨rfl, rfl, alike_set_item hΓ hv hget⟩

theorem descend_arrayItem_exchange (hΓ : Γ.Plain) (hv : Γ.node v = .array gap items)
    (h : Γ.descendBare here t f v = (.ok (), w)) :
    ∃ d c, f d = (.ok (), c) ∧ Γ.Exchange t v w d c := by
  cases ht : t.existing items.length with
  | error e =>
    simp only [descendBare, hv, ht] at h
    cases h
  | ok i =>
    cases hc : elem? gap items i with
    | none =>
      simp only [descendBare, hv, ht, hc] at h
      cases h
    | some d =>
      simp only [descendBare, hv, ht, hc] at h
      obtain ⟨c, hfc, rfl⟩ := Attempt.inside_ok h
      have hget := getElem?_of_elem? hc
      obtain ⟨hi, hlt⟩ := Token.existing_eq_ok.1 ht
      refine ⟨d, c, hfc, exchange_item hΓ (items?_array hv)
        (items?_array (node_set_arrayItem hΓ hv i c).2) (typeOf_withItems_array hv List.length_set)
        hi hlt ?_ List.prefix_rfl⟩
      intro x hx
      cases hget.symm.trans hx
      exact ⟨rfl, rfl, alike_set_arrayItem hΓ hv hget⟩

end

/-! ## Pointers -/

/-- An assign goes on behind the pointers of a value; where they lead somewhere, with what is
    there. -/
theorem allocatingNew_ok {shape : Shape} {s : Ty} (h : Γ.allocatingNew shape f s = (.ok (), w)) :
    ∃ d c, f d = (.ok (), c) ∧ w.target = c.target := by
  induction s generalizing w with
  | opt s ih =>
    obtain ⟨w', hw', rfl⟩ := Attempt.within_ok h
    obtain ⟨d, c, hc, ht⟩ := ih hw'
    exact ⟨d, c, hc, ht⟩
  | box s ih =>
    obtain ⟨w', hw', rfl⟩ := Attempt.inside_ok h
    obtain ⟨d, c, hc, ht⟩ := ih hw'
    exact ⟨d, c, hc, ht⟩
  | holder =>
    obtain ⟨c, hc, rfl⟩ := Attempt.within_ok h
    exact ⟨_, c, hc, rfl⟩
  | _ => exact ⟨_, w, h, rfl⟩

theorem allocating_ok {shape : Shape} (h : Γ.allocating shape f v = (.ok (), w)) :
    ∃ d c, f d = (.ok (), c) ∧ w.target = c.target ∧ (Γ.node v.target ≠ .nil →
      d = v.target ∧ ∀ {R : ByteArray → ByteArray → Prop}, d.Alike R c → v.Alike R w) := by
  induction v using Val.target.induct generalizing w with
  | case1 v ih =>
    obtain ⟨w', hw', rfl⟩ := Attempt.inside_ok h
    obtain ⟨d, c, hc, ht, hn⟩ := ih hw'
    exact ⟨d, c, hc, ht, fun hne => ⟨(hn hne).1, fun ha => .ptr ((hn hne).2 ha)⟩⟩
  | case2 v ih =>
    obtain ⟨w', hw', rfl⟩ := Attempt.inside_ok h
    obtain ⟨d, c, hc, ht, hn⟩ := ih hw'
    exact ⟨d, c, hc, ht, fun hne => ⟨(hn hne).1, fun ha => .box ((hn hne).2 ha)⟩⟩
  | case3 v ih =>
    obtain ⟨w', hw', rfl⟩ := Attempt.inside_ok h
    obtain ⟨d, c, hc, ht, hn⟩ := ih hw'
    exact ⟨d, c, hc, ht, fun hne => ⟨(hn hne).1, fun ha => .held ((hn hne).2 ha)⟩⟩
  | case4 v hp hb hh =>
    cases v with
    | ptr v => exact absurd rfl (hp v)
    | box v => exact absurd rfl (hb v)
    | held v => exact absurd rfl (hh v)
    | nil s =>
      obtain ⟨w', hw', rfl⟩ := Attempt.within_ok h
      obtain ⟨d, c, hc, ht⟩ := allocatingNew_ok hw'
      exact ⟨d, c, hc, ht, fun hne => absurd rfl hne⟩
    | vacant =>
      obtain ⟨c, hc, rfl⟩ := Attempt.within_ok h
      exact ⟨_, c, hc, rfl, fun hne => absurd rfl hne⟩
    | _ => exact ⟨_, w, h, rfl, fun _ => ⟨rfl, id⟩⟩

/-! ## Fields -/

/-- The value `w` is `v` with the value `d` at the end of a path of fields, found there or
    made, exchanged for `c`. -/
structure Inlaid (Γ : Schema) (path : List Nat) (v w d c : Val) : Prop where
  found : Γ.follow path w = some c
  same {x : Val} : Γ.follow path v = some x →
    x = d ∧ ∀ {R : ByteArray → ByteArray → Prop}, d.Alike R c → v.Alike R w
  other {path' : List Nat} : Apart path path' →
    ((∃ x, Γ.follow path v = some x) ∨ ∃ x, Γ.follow path' v = some x) →
      Γ.follow path' w = Γ.follow path' v

section
variable {name : String} {fields : List Val} {child child' : Val} {i : Nat} {path : List Nat}

theorem follow_record (hv : Γ.node v = .record name fields) (i : Nat) (path : List Nat) :
    Γ.follow (i :: path) v = fields[i]?.bind (Γ.follow path) := by
  obtain rfl := eq_of_node_record hv
  simp only [follow, Val.target, hv]

theorem follow_of_target {v w : Val} (h : v.target = w.target) (i : Nat) (path : List Nat) :
    Γ.follow (i :: path) v = Γ.follow (i :: path) w := by
  rw [follow, follow, h]

theorem target_target (v : Val) : v.target.target = v.target := by
  induction v using Val.target.induct with
  | case1 v ih | case2 v ih | case3 v ih => exact ih
  | case4 v =>
    have hv : v.target = v := by rw [Val.target] <;> assumption
    rw [hv, hv]

theorem follow_of_nil (hv : Γ.node v.target = .nil) (i : Nat) (path : List Nat) :
    Γ.follow (i :: path) v = none := by
  simp only [follow, hv]

/-- A field of the record is exchanged, at the end of a path in one of its fields. -/
theorem Inlaid.field (h : Γ.Inlaid path child child' d c) (hv : Γ.node v = .record name fields)
    (hc : fields[i]? = some child) :
    Γ.Inlaid (i :: path) v (v.withFields (fields.set i child')) d c := by
  obtain ⟨hi, -⟩ := List.getElem?_eq_some_iff.1 hc
  have hw := node_withFields hv (fields.set i child')
  refine ⟨follow_set hv hi h.found, ?_, ?_⟩
  · intro x hx
    rw [follow_record hv, hc] at hx
    obtain ⟨hxd, halike⟩ := h.same hx
    refine ⟨hxd, fun ha => ?_⟩
    obtain rfl := eq_of_node_record hv
    exact .field hc (halike ha)
  · intro path' hapart hor
    cases path' with
    | nil => exact absurd hapart.symm (not_apart_nil _)
    | cons j below =>
      rw [follow_record hv, follow_record hw]
      by_cases hij : i = j
      · subst hij
        rw [follow_record hv, follow_record hv, hc] at hor
        rw [List.getElem?_set_self hi, hc]
        exact h.other hapart.of_cons hor
      · rw [List.getElem?_set_ne hij]

theorem embed_inlaid {here : Pointer} (h : Γ.embed here f path v = (.ok (), w)) :
    ∃ d c, f d = (.ok (), c) ∧ Γ.Inlaid path v w d c := by
  induction path generalizing v w with
  | nil =>
    refine ⟨v, w, h, rfl, ?_, fun ha => absurd ha (not_apart_nil _)⟩
    intro x hx
    cases hx
    exact ⟨rfl, id⟩
  | cons i path ih =>
    obtain ⟨u, u', hu, ht, hn⟩ := allocating_ok h
    cases hr : Γ.node u with
    | record name fields =>
      cases hc : fields[i]? with
      | none =>
        simp only [hr, hc] at hu
        cases hu
      | some child =>
        simp only [hr, hc] at hu
        obtain ⟨child', hchild, rfl⟩ := Attempt.inside_ok hu
        obtain ⟨d, c, hfc, hin⟩ := ih hchild
        have hfield := hin.field hr hc
        have hw (j : Nat) (below : List Nat) := follow_of_target (Γ := Γ) ht j below
        refine ⟨d, c, hfc, (hw i path).trans hfield.found, ?_, ?_⟩
        · intro x hx
          have hne : Γ.node v.target ≠ .nil := by
            intro hnil
            rw [follow_of_nil hnil] at hx
            cases hx
          obtain ⟨rfl, halike⟩ := hn hne
          rw [follow_of_target (target_target v).symm] at hx
          obtain ⟨hxd, hback⟩ := hfield.same hx
          exact ⟨hxd, fun ha => halike (hback ha)⟩
        · intro path' hapart hor
          cases path' with
          | nil => exact absurd hapart.symm (not_apart_nil _)
          | cons j below =>
            have hne : Γ.node v.target ≠ .nil := by
              intro hnil
              rw [follow_of_nil hnil, follow_of_nil hnil] at hor
              rcases hor with ⟨x, hx⟩ | ⟨x, hx⟩ <;> cases hx
            obtain ⟨rfl, -⟩ := hn hne
            have hv (k : Nat) (below : List Nat) :=
              follow_of_target (Γ := Γ) (target_target v).symm k below
            rw [hv, hv] at hor
            rw [hw, hv]
            exact hfield.other hapart hor
    | _ =>
      simp only [hr] at hu
      cases hu

/-- What is found at a path of fields is exchanged by a token that names it. -/
theorem exchange_field (hnames : (Members.names Γ.records).Nodup)
    (hv : Γ.node v = .record name fields) {fields' : List Val}
    (hw : Γ.node w = .record name fields') (ht : w.typeOf = v.typeOf)
    (hp : Γ.fieldPath name t = .ok path) (h : Γ.Inlaid path v w d c) :
    Γ.Exchange t v w d c := by
  have hfound {u : Token} {path : List Nat} (hu : Γ.fieldPath name u = .ok path) {x : Val} :
      Γ.selectBare u v = .ok x ↔ Γ.follow path v = some x := by
    simp [selectBare_field hv, hu]
  have hat : Γ.addressBare? t v = some (.field path) := by
    simp only [addressBare?, hv, hp]
    rfl
  refine ⟨opened_eq_self (by simp [hw]) (by simp [hw]), ?_, ?_, ?_, ?_⟩
  · intro u x ha hx
    obtain ⟨path', hu, hx⟩ := (selectBare_field hv).1 hx
    obtain rfl : path' = path := by simpa [addressBare?, hv, hp, hu, Except.toOption] using ha
    exact ⟨(h.same hx).1, (selectBare_field hw).2 ⟨path', hu, h.found⟩⟩
  · intro u ha hor
    cases hu : Γ.fieldPath name u with
    | error fault => simp only [selectBare, hv, hw, hu, ht]
    | ok path' =>
      have hne : path ≠ path' := by
        rintro rfl
        simp [addressBare?, hv, hp, hu] at ha
      have hapart := (route_of_fieldPath hnames hp).apart (route_of_fieldPath hnames hu) hne
      simp only [hfound hp, hfound hu] at hor
      simp only [selectBare, hv, hw, hu, ht, h.other hapart hor]
  · intro ks hks
    simp [keysBare?, hv] at hks
  · rintro R ⟨x, hx⟩
    exact (h.same ((hfound hp).1 hx)).2

theorem descend_field_exchange (hnames : (Members.names Γ.records).Nodup)
    (hv : Γ.node v = .record name fields) (h : Γ.descendBare here t f v = (.ok (), w)) :
    ∃ d c, f d = (.ok (), c) ∧ Γ.Exchange t v w d c := by
  cases hp : Γ.fieldPath name t with
  | error fault =>
    simp only [descendBare, hv, hp] at h
    cases h
  | ok path =>
    cases path with
    | nil => exact absurd hp (fieldPath_ne_nil name t)
    | cons i below =>
      cases hc : fields[i]? with
      | none =>
        simp only [descendBare, hv, hp, hc] at h
        cases h
      | some child =>
        simp only [descendBare, hv, hp, hc] at h
        obtain ⟨child', hchild, rfl⟩ := Attempt.inside_ok h
        obtain ⟨d, c, hfc, hin⟩ := embed_inlaid hchild
        have ht : (v.withFields (fields.set i child')).typeOf = v.typeOf := by
          cases eq_of_node_record hv
          rfl
        exact ⟨d, c, hfc, exchange_field hnames hv (node_withFields hv _) ht hp (hin.field hv hc)⟩

end

/-! ## One step -/

theorem target_of_opened_self (ho : Γ.opened v = .ok w) : w.target = w := by
  rcases opened_cases ho with ⟨rfl, -⟩ | ⟨bytes, j, -, -, -, rfl⟩
  · exact target_target v
  · rfl

theorem ne_raw_of_opened (ho : Γ.opened v = .ok w) (bytes : ByteArray) : w ≠ .raw bytes := by
  rcases opened_cases ho with ⟨rfl, hr⟩ | ⟨b, j, -, -, -, rfl⟩
  · exact hr bytes
  · simp

/-- In nil nothing is found. -/
theorem node_ne_nil_of_selectBare (h : Γ.selectBare t v = .ok c) : Γ.node v ≠ .nil := by
  intro hn
  simp [selectBare, hn] at h

theorem node_ne_nil_of_or
    (h : (∃ x, Γ.selectBare t v = .ok x) ∨ ∃ x, Γ.selectBare u v = .ok x) : Γ.node v ≠ .nil := by
  rcases h with ⟨x, hx⟩ | ⟨x, hx⟩ <;> exact node_ne_nil_of_selectBare hx

/-- What a value is opened as is not opened further. -/
theorem opened_opened (h : Γ.opened v = .ok w) : Γ.opened w = .ok w := by
  rcases opened_cases h with ⟨rfl, hr⟩ | ⟨b, j, -, -, -, rfl⟩
  · rw [← target_target] at hr
    rw [opened_of_ne_raw hr, target_target]
  · rfl

section
variable (hΓ : Γ.Plain) (hnames : (Members.names Γ.records).Nodup)
  (hf : ∀ {d c : Val}, f d = (.ok (), c) → d.Fits c)
include hΓ hnames hf

theorem descendBare_exchange (h : Γ.descendBare here t f v = (.ok (), w)) :
    Γ.opened v = .ok v ∧ ∃ d c, f d = (.ok (), c) ∧ Γ.Exchange t v w d c := by
  cases hv : Γ.node v with
  | record name fields =>
    exact ⟨opened_eq_self (by simp [hv]) (by simp [hv]), descend_field_exchange hnames hv h⟩
  | map key order elem entries =>
    exact ⟨opened_eq_self (by simp [hv]) (by simp [hv]), descend_entry_exchange hv hf h⟩
  | slice elem gap items =>
    exact ⟨opened_of_items (items?_slice hv), descend_item_exchange hΓ hv hf h⟩
  | array gap items =>
    exact ⟨opened_of_items (items?_array hv), descend_arrayItem_exchange hΓ hv h⟩
  | «sealed» full => cases full <;> simp only [descendBare, hv] at h <;> cases h
  | _ =>
    simp only [descendBare, hv] at h
    cases h

theorem descendJson_exchange {j : Json} (h : Γ.descendJson here t f j = (.ok (), w)) :
    ∃ d c, f d = (.ok (), c) ∧ Γ.Exchange t (.json j) w d c := by
  cases j with
  | null =>
    obtain ⟨w', hw', rfl⟩ := Attempt.within_ok h
    obtain ⟨-, d, c, hfc, hex⟩ := descendBare_exchange hΓ hnames hf hw'
    exact ⟨d, c, hfc, exchange_of_nil rfl hex.opened_eq⟩
  | _ =>
    simp only [descendJson] at h
    exact (descendBare_exchange hΓ hnames hf h).2

theorem descend_exchange (h : Γ.descend here t f v = (.ok (), w)) :
    ∃ d c, f d = (.ok (), c) ∧ Γ.Exchanged t v w d c := by
  have hbare (ho : Γ.opened v = .ok v) (hex : ∃ d c, f d = (.ok (), c) ∧ Γ.Exchange t v w d c) :
      ∃ d c, f d = (.ok (), c) ∧ Γ.Exchanged t v w d c := by
    obtain ⟨d, c, hfc, hex⟩ := hex
    have hv := target_of_opened_self ho
    have hw := target_of_opened_self hex.opened_eq
    have hr := ne_raw_of_opened ho
    refine ⟨d, c, hfc, ?_, ?_, ?_, ?_⟩
    · intro x hx
      rw [select, ho] at hx
      exact (hex.same rfl hx).1
    · intro _ _
      rw [hv, hw]
      exact hex
    · intro bytes j hb
      exact absurd (hv.symm.trans hb) (hr bytes)
    · rintro R ⟨x, hx⟩ _ ha
      rw [select, ho] at hx
      exact hex.alike ⟨x, hx⟩ ha
  cases v with
  | raw bytes =>
    cases hj : Γ.regionValue? bytes with
    | none =>
      simp only [descend, hj] at h
      cases h
    | some j =>
      simp only [descend, hj] at h
      obtain ⟨w', hw', rfl⟩ := Attempt.within_ok h
      obtain ⟨d, c, hfc, hex⟩ := descendJson_exchange hΓ hnames hf hw'
      obtain ⟨k, rfl, hk⟩ := ((descendJson_step here t j).fits hf hw').2
        ⟨j, rfl, wellformed_of_regionValue? hj⟩
      -- a region that can be opened is opened as `j`
      have hspells {v₀ : Val} (ho : Γ.opened (.raw bytes) = .ok v₀) :
          Json.ofBytes? Γ.reading bytes = some j ∧ v₀ = .json j := by
        rcases opened_cases ho with ⟨-, hr⟩ | ⟨b, i, hb, he, hi, rfl⟩
        · exact absurd rfl (hr bytes)
        · cases hb
          rw [regionValue?_eq he] at hj
          cases hi.symm.trans hj
          exact ⟨hi, rfl⟩
      refine ⟨d, c, hfc, ?_, ?_, ?_, ?_⟩
      · intro x hx
        obtain ⟨v₀, ho, hx⟩ := select_eq_ok.1 hx
        obtain ⟨-, rfl⟩ := hspells ho
        exact (hex.same rfl hx).1
      · intro hr
        exact absurd rfl (hr bytes)
      · intro b i _ ho
        cases (hspells ho).2
        exact ⟨k, hk, rfl, hex⟩
      · rintro R ⟨x, hx⟩ hR ha
        obtain ⟨v₀, ho, hx⟩ := select_eq_ok.1 hx
        obtain ⟨hread, rfl⟩ := hspells ho
        cases (hex.alike ⟨x, hx⟩ ha).eq_json
        exact .raw (hR _ _ rfl hread)
  | json j => exact hbare rfl (descendJson_exchange hΓ hnames hf h)
  | _ =>
    simp only [descend] at h
    have hex := descendBare_exchange hΓ hnames hf h
    exact hbare hex.1 hex.2

/-- **One step of an assign exchanges the part that its token addresses.** -/
theorem advance_exchange
    (h : Γ.allocating (Shape.ofToken t) (fun u => Γ.descend here t f u) v = (.ok (), w)) :
    ∃ d c, f d = (.ok (), c) ∧ Γ.Exchanged t v w d c := by
  obtain ⟨u, u', hu, ht, hn⟩ := allocating_ok h
  obtain ⟨d, c, hfc, hex⟩ := descend_exchange hΓ hnames hf hu
  have hov : Γ.opened v.target = Γ.opened v := by rw [opened, opened, target_target]
  have hne {v₀ x : Val} (ho : Γ.opened v = .ok v₀) (hx : Γ.selectBare t v₀ = .ok x) :
      Γ.node v.target ≠ .nil := by
    rcases opened_cases ho with ⟨rfl, -⟩ | ⟨bytes, j, hb, -⟩
    · exact node_ne_nil_of_selectBare hx
    · simp [hb, node]
  refine ⟨d, c, hfc, ?_, ?_, ?_, ?_⟩
  · intro x hx
    obtain ⟨v₀, ho, hx⟩ := select_eq_ok.1 hx
    obtain ⟨rfl, -⟩ := hn (hne ho hx)
    exact hex.part_eq (select_eq_ok.2 ⟨v₀, hov.trans ho, hx⟩)
  · intro hr hnil
    obtain ⟨rfl, -⟩ := hn hnil
    rw [ht, ← target_target v]
    rw [← target_target v] at hr hnil
    exact hex.bare hr hnil
  · intro bytes j hb ho
    have hnil : Γ.node v.target ≠ .nil := by simp [hb, node]
    obtain ⟨rfl, -⟩ := hn hnil
    obtain ⟨k, hk, hw, hex⟩ := hex.region ((target_target v).trans hb) (hov.trans ho)
    exact ⟨k, hk, ht.trans hw, hex⟩
  · rintro R ⟨x, hx⟩ hR ha
    obtain ⟨v₀, ho, hx⟩ := select_eq_ok.1 hx
    obtain ⟨rfl, hback⟩ := hn (hne ho hx)
    refine hback (hex.alike ⟨x, select_eq_ok.2 ⟨v₀, hov.trans ho, hx⟩⟩ ?_ ha)
    intro bytes j hb
    exact hR bytes j ((target_target v).symm.trans hb)

end

/-- **What was exchanged is opened afterwards**, in a region with the numbers that are read
    there. -/
theorem Exchanged.opens {v₀ : Val} {g : Number → Number} (hex : Γ.Exchanged t v w d c)
    (ho : Γ.opened v = .ok v₀) (hn : Γ.node v₀ ≠ .nil)
    (hg : ∀ bytes bytes', v.target = .raw bytes → w.target = .raw bytes' → Γ.RereadsBy g bytes')
    (hid : (∀ bytes, v.target ≠ .raw bytes) → g = id) :
    ∃ w₀, Γ.opened w = .ok (w₀.renumber g) ∧ Γ.Exchange t v₀ w₀ d c := by
  rcases opened_cases ho with ⟨rfl, hr⟩ | ⟨bytes, j, hv, -, -, rfl⟩
  · have hex := hex.bare hr hn
    refine ⟨w.target, ?_, hex⟩
    have hw := hex.opened_eq
    rw [opened, target_target] at hw
    rw [hid hr, Val.renumber_id]
    exact hw
  · obtain ⟨k, hk, hw, hex⟩ := hex.region hv ho
    refine ⟨.json k, ?_, hex⟩
    rw [opened, hw]
    exact (opened_region (hg bytes _ hv hw k hk rfl)).1

theorem Exchange.exchanged_json {j k : Json} (hex : Γ.Exchange t (.json j) (.json k) d c) :
    Γ.Exchanged t (.json j) (.json k) d c where
  part_eq h := (hex.same rfl h).1
  bare _ _ := hex
  region h := by cases h
  alike h _ ha := hex.alike h ha

open Classical in
/-- Some change takes a value to one that fits, and every value to one that fits. -/
theorem exists_change (hfit : c.Fits d) : ∃ f : Val → Outcome, f c = .done d ∧
    ∀ {a b : Val}, f a = (.ok (), b) → a.Fits b := by
  refine ⟨fun a => .done (if a = c then d else a), by simp only [if_true], ?_⟩
  intro a b hab
  cases hab
  split
  · next ha => exact ha ▸ hfit
  · exact .refl a

/-- A part that is there is exchanged for one that fits, by an assign and by a delete that
    goes on. -/
theorem select_exchange (hΓ : Γ.Plain) (hnames : (Members.names Γ.records).Nodup) {c' : Val}
    (h : Γ.select t v = .ok c) (hfit : c.Fits c') :
    ∃ w, v.Fits w ∧ Γ.Exchanged t v w c c' ∧ ∀ f here, f c = (.ok (), c') →
      Γ.allocating (Shape.ofToken t) (fun u => Γ.descend here t f u) v = (.ok (), w) ∧
        v.onTarget (fun u => Γ.remove here t false f u) = (.ok (), w) := by
  obtain ⟨P, hP, hassign, hdelete⟩ := select_place hΓ h
  refine ⟨P.back c', hP.toOf.fits_back (hP.part_eq ▸ hfit), ?_, ?_⟩
  -- all changes of `c` to `c'` are the same there
  · obtain ⟨f, hc, hf⟩ := exists_change hfit
    have hrun := hassign .root f
    rw [Place.run, hP.part_eq, hc] at hrun
    obtain ⟨d, e, hde, hex⟩ := advance_exchange hΓ hnames hf hrun
    obtain rfl := hex.part_eq h
    cases hc.symm.trans hde
    exact hex
  · intro f here hf
    constructor
    · refine (hassign here f).trans ?_
      rw [Place.run, hP.part_eq, hf]
      rfl
    · refine (hdelete here f).trans ?_
      rw [Place.run, hP.part_eq, hf]
      rfl

end Schema

end DocPointer
