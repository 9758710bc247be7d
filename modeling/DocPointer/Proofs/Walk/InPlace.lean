/-
  A change deep in a document is a change of a part, put back.

  Where a token finds a part, an assign and a delete go down to it, by the same `Place`
  (`select_place`): nothing has to be made, and nothing is missing.  So it is with a list of
  tokens (`resolveTokens_place`), by induction: a walk that goes on changes what the first
  tokens find, and the place says what the document becomes.  An assign at these tokens
  puts a value there by the same place.

  * `change_append`: changing the value that `p` finds, by itself, and assigning what it
    became at `p` is changing the document at `p ++ q`.
-/
import DocPointer.Proofs.Document.Parts
import DocPointer.Proofs.Fields.Routes
import DocPointer.Proofs.Walk.Atomicity
import DocPointer.Proofs.Walk.Composition

namespace DocPointer

namespace Place

/-- Changes of the part at the place are, for the whole, what `F` makes of them. -/
def Serves (P : Place) (F : (Val → Outcome) → Outcome) : Prop := ∀ f, F f = P.run f

theorem serves_here (v : Val) : (here v).Serves fun f => f v := fun f => (run_here v f).symm

variable {P Q : Place} {F : (Val → Outcome) → Outcome} {G : Val → (Val → Outcome) → Outcome}

theorem serves_old (part : Val) (back : Val → Val) :
    (old part back).Serves fun f => (f part).inside back :=
  fun f => (run_old part back f).symm

/-- One place in another. -/
theorem Serves.comp (hP : P.Serves F) (hQ : Q.Serves (G P.part)) :
    (P.under Q).Serves fun f => F fun w => G w f := by
  intro f
  show F (fun w => G w f) = _
  rw [hP, run, hQ, run_under]

/-- A place in the part of a place. -/
theorem Serves.within (hQ : Q.Serves F) (P : Place) :
    (P.under Q).Serves fun f => (F f).within P.back P.undo := by
  intro f
  show (F f).within P.back P.undo = _
  rw [hQ, run_under]

/-- A place in a part that was there before. -/
theorem Serves.inside (hQ : Q.Serves F) (part : Val) (back : Val → Val) :
    ((old part back).under Q).Serves fun f => (F f).inside back := by
  intro f
  show (F f).inside back = _
  rw [hQ, run_inside]

end Place

namespace Schema

open Samples

/-! ## Parts that are there -/

section
variable (Γ : Schema)

/-- The bytes `bytes'` are written for the value that `bytes` spell. -/
def Respells (bytes bytes' : ByteArray) : Prop :=
  ∃ j, Json.ofBytes? Γ.reading bytes = some j ∧ bytes' = j.toBytes

/-- `P` is the place of a part `c` that is there in `v`, or in the value that a region of
    `v` spells: a change of the bytes of a region in `c`, or none, is such a change in `v`,
    and the records in `c` are records in `v`. -/
structure Holds (P : Place) (v c : Val) : Prop extends P.Of v where
  part_eq : P.part = c
  alike_back {w : Val} : c.Alike Γ.Respells w → v.Alike Γ.Respells (P.back w)
  within_of_within {name : String} {fields : List Val} :
    (Val.record name fields).Within c → (Val.record name fields).Within v

end

variable {Γ : Schema} {doc v c d x y : Val} {p q : Pointer} {t : Token} {P Q : Place}

theorem holds_here (v : Val) : Γ.Holds (.here v) v v := ⟨Place.of_here v, rfl, id, id⟩

theorem Holds.under (hP : Γ.Holds P v c) (hQ : Γ.Holds Q c d) : Γ.Holds (P.under Q) v d where
  toOf := hP.toOf.under (hP.part_eq ▸ hQ.toOf)
  part_eq := hQ.part_eq
  alike_back h := hP.alike_back (hQ.alike_back h)
  within_of_within h := hP.within_of_within (hQ.within_of_within h)

theorem holds_ptr (v : Val) : Γ.Holds (.old v .ptr) (.ptr v) v := ⟨of_ptr v, rfl, .ptr, .ptr⟩

theorem holds_box (v : Val) : Γ.Holds (.old v .box) (.box v) v := ⟨of_box v, rfl, .box, .box⟩

theorem holds_held (v : Val) : Γ.Holds (.old v .held) (.held v) v := ⟨of_held v, rfl, .held, .held⟩

section
variable {name : String} {fields items : List Val} {key : KeyTy} {order : EntryOrder} {elem : Ty}
  {entries : Entries Val} {gap : Option Nat} {k : Key} {i : Nat} {j : Json} {bytes : ByteArray}

theorem holds_field (hn : Γ.node v = .record name fields) (hc : fields[i]? = some c) :
    Γ.Holds (.old c fun c => v.withFields (fields.set i c)) v c := by
  refine ⟨of_field hn hc, rfl, ?_, ?_⟩
  · intro w h
    cases eq_of_node_record hn
    exact .field hc h
  · intro _ _ h
    cases eq_of_node_record hn
    exact .field (List.mem_of_getElem? hc) h

/-- Of what is in JSON there is nothing to say but the laws of places. -/
theorem holds_of_json (hP : P.Of (.json j)) (hpart : ∃ i, P.part = .json i)
    (hback : P.back P.part = .json j) : Γ.Holds P (.json j) P.part := by
  obtain ⟨i, hi⟩ := hpart
  refine ⟨hP, rfl, ?_, ?_⟩
  · intro w h
    rw [hi] at h hback
    rw [h.eq_json, hback]
    exact .refl _
  · intro _ _ h
    rw [hi] at h
    cases h

theorem holds_entry (hn : Γ.node v = .map key order elem entries)
    (hc : Entries.get? k entries = some c) :
    Γ.Holds (.old c fun c => v.withEntries (Entries.set k c entries)) v c := by
  have hP := of_entry hn hc
  rcases eq_of_node_map hn with ⟨kind, -, rfl⟩ | ⟨ms, rfl, -, -, -, rfl⟩
  · exact ⟨hP, rfl, .entry hc, .entry hc⟩
  · obtain ⟨s, i, -, hi, -⟩ := Members.of_get?_entries hc
    exact holds_of_json hP ⟨i, hi⟩ hP.undo_part

theorem holds_item (hΓ : Γ.Plain) (hn : Γ.node v = .slice elem gap items)
    (hc : elem? gap items i = some c) :
    Γ.Holds (.old c fun c => Γ.withItems v (items.set i c)) v c := by
  have hP := of_item hn hc
  have hi := getElem?_of_elem? hc
  obtain ⟨-, rfl | ⟨js, rfl, -, rfl⟩⟩ := hΓ.slice_cases hn
  · exact ⟨hP, rfl, .item hi, .item (List.mem_of_getElem? hi)⟩
  · obtain ⟨k, -, hk⟩ := List.mem_map.1 (List.mem_of_getElem? hi)
    exact holds_of_json hP ⟨k, hk.symm⟩ hP.undo_part

theorem holds_arrayItem (hΓ : Γ.Plain) (hn : Γ.node v = .array gap items)
    (hc : elem? gap items i = some c) :
    Γ.Holds (.old c fun c => Γ.withItems v (items.set i c)) v c := by
  have hP := of_arrayItem hn hc
  have hi := getElem?_of_elem? hc
  obtain ⟨-, elem, rfl⟩ := hΓ.array_cases hn
  exact ⟨hP, rfl, .arrayItem hi, .arrayItem (List.mem_of_getElem? hi)⟩

theorem holds_raw (hj : Json.ofBytes? Γ.reading bytes = some j) :
    Γ.Holds ⟨.json j, fun v => .raw v.asJson.toBytes, fun _ => .raw bytes⟩ (.raw bytes)
      (.json j) := by
  refine ⟨of_raw bytes j, rfl, ?_, ?_⟩
  · intro w h
    rw [h.eq_json]
    exact .raw ⟨j, hj, rfl⟩
  · intro _ _ h
    cases h

end

/-! ## Pointers and fields -/

/-- The place of a target, where it need not be made. -/
theorem target_place (v : Val) : ∃ P : Place, Γ.Holds P v v.target ∧
    P.Serves (Val.onTarget · v) ∧
    (Γ.node v.target ≠ .nil → ∀ shape, P.Serves (Γ.allocating shape · v)) := by
  induction v using Val.target.induct with
  | case1 v ih =>
    obtain ⟨P, hP, hon, halloc⟩ := ih
    refine ⟨_, (holds_ptr v).under hP, hon.inside v .ptr, ?_⟩
    intro hn shape
    exact (halloc hn shape).inside v .ptr
  | case2 v ih =>
    obtain ⟨P, hP, hon, halloc⟩ := ih
    refine ⟨_, (holds_box v).under hP, hon.inside v .box, ?_⟩
    intro hn shape
    exact (halloc hn shape).inside v .box
  | case3 v ih =>
    obtain ⟨P, hP, hon, halloc⟩ := ih
    refine ⟨_, (holds_held v).under hP, hon.inside v .held, ?_⟩
    intro hn shape
    exact (halloc hn shape).inside v .held
  | case4 v hp hb hh =>
    cases v with
    | ptr v => exact absurd rfl (hp v)
    | box v => exact absurd rfl (hb v)
    | held v => exact absurd rfl (hh v)
    | nil | vacant => exact ⟨_, holds_here _, Place.serves_here _, fun hn => absurd rfl hn⟩
    | _ => exact ⟨_, holds_here _, Place.serves_here _, fun _ _ => Place.serves_here _⟩

/-- The place at the end of a path of fields. -/
theorem follow_place {path : List Nat} (h : Γ.follow path v = some c) :
    ∃ P : Place, Γ.Holds P v c ∧ (∀ here, P.Serves (Γ.embed here · path v)) ∧
      P.Serves (Γ.prune · path v) := by
  induction path generalizing v with
  | nil =>
    cases h
    exact ⟨_, holds_here _, fun _ => Place.serves_here _, Place.serves_here _⟩
  | cons i path ih =>
    obtain ⟨T, hT, hon, halloc⟩ := target_place (Γ := Γ) v
    rw [follow] at h
    cases hn : Γ.node v.target with
    | record name fields =>
      rw [hn] at h
      obtain ⟨child, hc, hchild⟩ := Option.bind_eq_some_iff.1 h
      obtain ⟨P, hP, hembed, hprune⟩ := ih hchild
      refine ⟨_, hT.under ((holds_field hn hc).under hP), ?_, ?_⟩
      · intro here
        refine (halloc (by simp [hn]) .map).comp ?_
        simp only [hT.part_eq, hn, hc]
        exact (hembed here).inside _ _
      · refine hon.comp ?_
        simp only [hT.part_eq, hn, hc]
        exact hprune.inside _ _
    | _ => simp [hn] at h

/-! ## One step -/

/-- A step by `t` leads an assign, and a delete that goes on, to the part `c` of `v`, a value
    that is neither a pointer that leads somewhere nor a region. -/
def ReachesBare (Γ : Schema) (t : Token) (v c : Val) : Prop :=
  ∃ P : Place, Γ.Holds P v c ∧ (∀ here, P.Serves (Γ.descendBare here t · v)) ∧
    ∀ here, P.Serves (Γ.removeBare here t false · v)

section
variable {name : String} {fields items : List Val} {key : KeyTy} {order : EntryOrder} {elem : Ty}
  {entries : Entries Val} {gap : Option Nat}

theorem fieldPath_ne_nil (name : String) (t : Token) : Γ.fieldPath name t ≠ .ok [] := by
  intro h
  rw [fieldPath] at h
  split at h
  · next f hf => exact index_ne_nil (FieldIndex.mem_of_lookup hf) (by simpa using h)
  · cases h
  · cases h

/-- An assign into a record goes down the path of the field. -/
theorem descendBare_embed (hn : Γ.node v = .record name fields) {path : List Nat}
    (hp : Γ.fieldPath name t = .ok path) (here : Pointer) (f : Val → Outcome) :
    Γ.descendBare here t f v = Γ.embed here f path v := by
  obtain rfl := eq_of_node_record hn
  cases path with
  | nil => exact absurd hp (fieldPath_ne_nil name t)
  | cons i below =>
    rw [descendBare, embed, allocating]
    · simp only [hn, hp]
      cases fields[i]? <;> rfl
    all_goals simp

theorem reachesBare_field (hn : Γ.node v = .record name fields) (h : Γ.selectBare t v = .ok c) :
    Γ.ReachesBare t v c := by
  obtain ⟨path, hp, hc⟩ := (selectBare_field hn).1 h
  obtain ⟨P, hP, hembed, hprune⟩ := follow_place hc
  refine ⟨P, hP, ?_, ?_⟩
  · intro here
    simp only [descendBare_embed hn hp]
    exact hembed here
  · intro here
    simp only [removeBare, hn, hp]
    exact hprune

theorem reachesBare_entry (hn : Γ.node v = .map key order elem entries)
    (h : Γ.selectBare t v = .ok c) : Γ.ReachesBare t v c := by
  cases hk : key.ofToken t.decoded with
  | error e => simp [selectBare, hn, hk] at h
  | ok k =>
    cases hc : Entries.get? k entries with
    | none => simp [selectBare, hn, hk, hc] at h
    | some child =>
      obtain rfl : child = c := by simpa [selectBare, hn, hk, hc] using h
      refine ⟨_, holds_entry hn hc, ?_, ?_⟩
      · intro here
        simp only [descendBare, hn, hk, hc]
        exact Place.serves_old _ _
      · intro here
        simp only [removeBare, hn, hk, hc]
        exact Place.serves_old _ _

theorem reachesBare_item (hΓ : Γ.Plain) (hn : Γ.node v = .slice elem gap items)
    (h : Γ.selectBare t v = .ok c) : Γ.ReachesBare t v c := by
  cases ht : t.existing items.length with
  | error e => simp [selectBare, hn, ht] at h
  | ok i =>
    cases hc : elem? gap items i with
    | none => simp [selectBare, hn, ht, hc] at h
    | some child =>
      obtain rfl : child = c := by simpa [selectBare, hn, ht, hc] using h
      obtain ⟨hi, hlt⟩ := Token.existing_eq_ok.1 ht
      have hne : i ≠ items.length := Nat.ne_of_lt hlt
      refine ⟨_, holds_item hΓ hn hc, ?_, ?_⟩
      · intro here
        simp only [descendBare, hn, hi, hne, hc, if_false]
        exact Place.serves_old _ _
      · intro here
        simp only [removeBare, hn, hi, hne, hc, if_false]
        exact Place.serves_old _ _

theorem reachesBare_arrayItem (hΓ : Γ.Plain) (hn : Γ.node v = .array gap items)
    (h : Γ.selectBare t v = .ok c) : Γ.ReachesBare t v c := by
  cases ht : t.existing items.length with
  | error e => simp [selectBare, hn, ht] at h
  | ok i =>
    cases hc : elem? gap items i with
    | none => simp [selectBare, hn, ht, hc] at h
    | some child =>
      obtain rfl : child = c := by simpa [selectBare, hn, ht, hc] using h
      refine ⟨_, holds_arrayItem hΓ hn hc, ?_, ?_⟩
      · intro here
        simp only [descendBare, hn, ht, hc]
        exact Place.serves_old _ _
      · intro here
        simp only [removeBare, hn, ht, hc]
        exact Place.serves_old _ _

end

theorem reachesBare (hΓ : Γ.Plain) (h : Γ.selectBare t v = .ok c) : Γ.ReachesBare t v c := by
  cases hn : Γ.node v with
  | record name fields => exact reachesBare_field hn h
  | map key order elem entries => exact reachesBare_entry hn h
  | slice elem gap items => exact reachesBare_item hΓ hn h
  | array gap items => exact reachesBare_arrayItem hΓ hn h
  | _ => simp [selectBare, hn] at h

theorem descendJson_eq {j : Json} (h : Γ.selectBare t (.json j) = .ok c) (here : Pointer)
    (f : Val → Outcome) : Γ.descendJson here t f j = Γ.descendBare here t f (.json j) := by
  cases j with
  | null => simp [selectBare, node, Json.node] at h
  | _ => rfl

/-- Where a step finds something, only a region keeps it from being taken at once. -/
theorem descend_eq {w : Val} (hr : ∀ bytes, w ≠ .raw bytes) (h : Γ.selectBare t w = .ok c)
    (here : Pointer) (f : Val → Outcome) :
    Γ.descend here t f w = Γ.descendBare here t f w := by
  cases w with
  | raw bytes => exact absurd rfl (hr bytes)
  | json j => exact descendJson_eq h here f
  | _ => rfl

theorem remove_eq {w : Val} (hr : ∀ bytes, w ≠ .raw bytes) (here : Pointer) (t : Token)
    (last : Bool) (f : Val → Outcome) :
    Γ.remove here t last f w = Γ.removeBare here t last f w := by
  cases w with
  | raw bytes => exact absurd rfl (hr bytes)
  | _ => rfl

theorem regionValue?_eq {bytes : ByteArray} (h : bytes.isEmpty = false) :
    Γ.regionValue? bytes = Json.ofBytes? Γ.reading bytes := by
  simp [regionValue?, h]

/-- What a value is opened as: its target, or the value that a region spells. -/
theorem opened_cases {u : Val} (h : Γ.opened v = .ok u) :
    (u = v.target ∧ ∀ bytes, v.target ≠ .raw bytes) ∨
      ∃ bytes j, v.target = .raw bytes ∧ bytes.isEmpty = false ∧
        Json.ofBytes? Γ.reading bytes = some j ∧ u = .json j := by
  rw [opened] at h
  split at h
  · next bytes hv =>
    cases he : bytes.isEmpty with
    | true => simp [he] at h
    | false =>
      refine .inr ⟨bytes, ?_⟩
      rw [regionValue?_eq he] at h
      cases hj : Json.ofBytes? Γ.reading bytes with
      | none => simp [he, hj] at h
      | some j => exact ⟨j, hv, he, rfl, by simpa [he, hj] using h.symm⟩
  · next hr =>
    cases h
    exact .inl ⟨rfl, hr⟩

theorem select_eq_ok :
    Γ.select t v = .ok c ↔ ∃ u, Γ.opened v = .ok u ∧ Γ.selectBare t u = .ok c := by
  rw [select]
  cases Γ.opened v <;> simp [Except.bind]

/-- **Where a token finds a part, an assign and a delete go down to it, and make nothing.** -/
theorem select_place (hΓ : Γ.Plain) (h : Γ.select t v = .ok c) :
    ∃ P : Place, Γ.Holds P v c ∧
      (∀ here, P.Serves fun f =>
        Γ.allocating (Shape.ofToken t) (fun w => Γ.descend here t f w) v) ∧
      ∀ here, P.Serves fun f => v.onTarget fun w => Γ.remove here t false f w := by
  obtain ⟨u, ho, hu⟩ := select_eq_ok.1 h
  obtain ⟨T, hT, hon, halloc⟩ := target_place (Γ := Γ) v
  obtain ⟨P, hP, hdescend, hremove⟩ := reachesBare hΓ hu
  rcases opened_cases ho with ⟨rfl, hr⟩ | ⟨bytes, j, hv, he, hj, rfl⟩
  -- a nil has no parts, so the target is one that an assign does not make
  · have hn : Γ.node v.target ≠ .nil := by
      intro hn
      simp [selectBare, hn] at hu
    refine ⟨_, hT.under hP, ?_, ?_⟩
    · intro here
      refine (halloc hn _).comp ?_
      simp only [hT.part_eq, descend_eq hr hu]
      exact hdescend here
    · intro here
      refine hon.comp ?_
      simp only [hT.part_eq, remove_eq hr]
      exact hremove here
  · have hn : Γ.node v.target ≠ .nil := by
      intro hn
      rw [hv] at hn
      cases hn
    have hregion : Γ.regionValue? bytes = some j := (regionValue?_eq he).trans hj
    have hR : Γ.Holds _ v.target _ := hv ▸ (holds_raw hj).under hP
    refine ⟨_, hT.under hR, ?_, ?_⟩
    · intro here
      refine (halloc hn _).comp ?_
      simp only [hT.part_eq, hv, descend, hregion, descendJson_eq hu]
      exact (hdescend here).within _
    · intro here
      refine hon.comp ?_
      simp only [hT.part_eq, hv, remove, he, hregion]
      exact (hremove here).within _

/-! ## Walks -/

/-- **Where a walk leads, an assign and a delete that go on change what it finds.** -/
theorem resolveTokens_place (hΓ : Γ.Plain) {redirect : Val → Pointer → Except Stop Val}
    {ts : List Token} (h : Γ.resolveTokens redirect ts v = .ok c) :
    ∃ P : Place, Γ.Holds P v c ∧
      (∀ r us x, Γ.assignTokens r (ts ++ us) v x = P.run (Γ.assignTokens r us · x)) ∧
      ∀ r us, us ≠ [] → Γ.deleteTokens r (ts ++ us) v = P.run (Γ.deleteTokens r us) := by
  induction ts generalizing v with
  | nil =>
    cases h
    exact ⟨_, holds_here _, fun _ _ _ => (Place.run_here _ _).symm,
      fun _ _ _ => (Place.run_here _ _).symm⟩
  | cons t ts ih =>
    rw [hΓ.resolveTokens_step] at h
    cases ht : Γ.select t v with
    | error e => simp [ht] at h
    | ok d =>
      rw [ht] at h
      obtain ⟨P, hP, hdescend, hremove⟩ := select_place hΓ ht
      obtain ⟨Q, hQ, hassign, hdelete⟩ := ih h
      refine ⟨P.under Q, hP.under hQ, ?_, ?_⟩
      · intro r us x
        rw [List.cons_append, hΓ.assignTokens_cons]
        refine (hdescend _ _).trans ?_
        rw [Place.run, hP.part_eq, hassign, Place.run_under]
      · intro r us hus
        have hlast : (ts ++ us).isEmpty = false := by simp [hus]
        rw [List.cons_append, hΓ.deleteTokens_cons, hlast]
        refine (hremove _ _).trans ?_
        rw [Place.run, hP.part_eq, hdelete r us hus, Place.run_under]

theorem typeOf_assignTokens (hΓ : Γ.Plain) (r : Val → Pointer → Val → Outcome) (ts : List Token)
    (x : Val) {w : Val} (h : Γ.assignTokens r ts v x = (.ok (), w)) : w.typeOf = v.typeOf := by
  induction ts generalizing v w with
  | nil =>
    simp only [assignTokens] at h
    generalize hout : Γ.store v x = out at h
    obtain ⟨_ | _, u⟩ := out
    · cases h
    · cases h
      exact typeOf_store hout
  | cons t ts ih =>
    rw [hΓ.assignTokens_cons] at h
    exact (advance_step _ t v).typeOf_eq (fun c u => ih) h

theorem typeOf_deleteTokens (hΓ : Γ.Plain) (r : Val → Pointer → Outcome) (ts : List Token)
    {w : Val} (h : Γ.deleteTokens r ts v = (.ok (), w)) : w.typeOf = v.typeOf := by
  induction ts generalizing v w with
  | nil =>
    cases h
    exact Γ.typeOf_zero _
  | cons t ts ih =>
    rw [hΓ.deleteTokens_cons] at h
    refine (onTarget_step v).typeOf_eq ?_ h
    intro c u hu
    exact (remove_step _ t _ c).typeOf_eq (fun c u => ih) hu

/-! ## Calls -/

/-- What the call `inner`, with the pointer `q`, on the value that `p` finds comes to for
    the document: with what the value has become assigned at `p`, the document is as after
    the call `outer` with `p ++ q`; and where `inner` fails, `outer` fails alike. -/
structure Carries (Γ : Schema) (doc : Val) (p q : Pointer)
    (inner outer : Except WalkError Unit × Val) : Prop where
  ok {x' : Val} : inner = (.ok (), x') →
    ∃ doc', outer = (.ok (), doc') ∧ Γ.assign doc p x' = (.ok (), doc')
  error {e : WalkError} {w : Val} : inner = (.error e, w) →
    outer = (.error { e with pointer := p ++ q }, doc)

theorem carries_of_run {P : Place} (hP : P.Of doc) (op : Operation) {f : Val → Outcome}
    (hput : ∀ x', x'.typeOf = P.part.typeOf → Γ.assign doc p x' = (.ok (), P.back x'))
    (ht : ∀ w, f P.part = (.ok (), w) → w.typeOf = P.part.typeOf) (hf : Atomic f) :
    Γ.Carries doc p q (report op q (f P.part)) (report op (p ++ q) (P.run f)) := by
  rw [Place.run]
  generalize hout : f P.part = out at ht
  obtain ⟨s | _, u⟩ := out
  -- a change that fails leaves the part as it was, and then the document
  · have hu : u = P.part := hf _ s u hout
    constructor
    · intro x' h
      cases h
    · intro e w h
      cases h
      rw [hu, Attempt.within, hP.undo_part]
      rfl
  · constructor
    · intro x' h
      cases h
      exact ⟨P.back u, rfl, hput u (ht u rfl)⟩
    · intro e w h
      cases h

/-- **A change at `p ++ q` is a change at `q` of what `p` finds, put back at `p`.**  For a
    delete, `q` has to be more than the root: the value at the root is set to zero, and
    not taken out of what holds it. -/
theorem change_append (hΓ : Γ.Plain) (hp : p.validate = .ok ()) (hq : q.validate = .ok ())
    (hx : Γ.Finds doc p x) :
    (∀ y, Γ.Carries doc p q (Γ.assign x q y) (Γ.assign doc (p ++ q) y)) ∧
      (q ≠ .root → Γ.Carries doc p q (Γ.delete x q) (Γ.delete doc (p ++ q))) := by
  have hpq := Pointer.validate_append hp hq
  rw [finds_iff, seek_eq hp] at hx
  obtain ⟨P, ⟨hP, rfl, -, -⟩, hassign, hdelete⟩ := resolveTokens_place hΓ hx
  have hput (x' : Val) (ht : x'.typeOf = P.part.typeOf) :
      Γ.assign doc p x' = (.ok (), P.back x') := by
    have hrun := hassign (Γ.place Γ.redirects) [] x'
    rw [List.append_nil] at hrun
    rw [assign_eq hp, hrun, Place.run, assignTokens, store_same ht]
    rfl
  constructor
  · intro y
    rw [assign_eq hq, assign_eq hpq, Pointer.tokens_append hp hq, hassign]
    exact carries_of_run hP .assigning hput (fun w => typeOf_assignTokens hΓ _ _ y)
      (assignTokens_atomic hΓ.steady (place_atomic hΓ.steady _) _ y)
  · intro hroot
    have htokens : q.tokens ≠ [] := by
      intro hnil
      rw [← Pointer.ofTokens_tokens hq, hnil] at hroot
      exact hroot rfl
    rw [delete_eq hq, delete_eq hpq, Pointer.tokens_append hp hq, hdelete _ _ htokens]
    exact carries_of_run hP .deleting hput (fun w => typeOf_deleteTokens hΓ _ _)
      (deleteTokens_atomic hΓ.steady (discard_atomic hΓ.steady _) _)

/-- The ports in the notes of a job, with one more or one less. -/
theorem busyJob_changed : ∃ x, jobs.Finds busyJob ⟨"/notes/ports"⟩ x ∧
    jobs.Carries busyJob ⟨"/notes/ports"⟩ ⟨"/-"⟩ (jobs.assign x ⟨"/-"⟩ (.string "https"))
      (jobs.assign busyJob ⟨"/notes/ports/-"⟩ (.string "https")) ∧
    jobs.Carries busyJob ⟨"/notes/ports"⟩ ⟨"/0"⟩ (jobs.delete x ⟨"/0"⟩)
      (jobs.delete busyJob ⟨"/notes/ports/0"⟩) := by
  have hfound : (jobs.seek busyJob ⟨"/notes/ports"⟩).toOption.isSome = true := by decide +kernel
  cases hx : jobs.seek busyJob ⟨"/notes/ports"⟩ with
  | error s =>
    rw [hx] at hfound
    cases hfound
  | ok x =>
    exact ⟨x, hx, (change_append plain_jobs (q := ⟨"/-"⟩) rfl rfl hx).1 (.string "https"),
      (change_append plain_jobs (q := ⟨"/0"⟩) rfl rfl hx).2 (by decide)⟩

end Schema

end DocPointer
