/-
  Deleting what is not there.

  A walk may fail because what a token addresses is absent (`Misses`: behind nil, from a
  map, behind the end of a sequence, from an empty region), or because something is wrong.
  A delete agrees on which it is (`Answers`): in the first case it is complete at once, and
  in the second it fails like the walk.

  * `removeBare_answers`: one step, by the face of the value; where nothing has to be
    followed and nothing is decoded.
  * `delete_agrees`: calls.  A delete that goes through a region writes the region anew,
    although nothing in it changes, and what is written is read as the same value only if
    the schema is `Faithful`: `respelled_differs` is a double that is read as another one.
-/
import DocPointer.Command
import DocPointer.Proofs.Walk.InPlace
import DocPointer.Proofs.Walk.Location

namespace DocPointer

/-- The causes are the same, but for the bound of a position that is out of range. -/
def Fault.Agrees (a b : Fault) : Prop :=
  a = b ∨ ∃ i m n, a = .index (.outOfRange i m) ∧ b = .index (.outOfRange i n)

theorem Fault.Agrees.refl (a : Fault) : a.Agrees a := .inl rfl

namespace Schema

open Samples

/-! ## What is absent -/

section
variable (Γ : Schema)

/-- On the path of fields there is a nil pointer. -/
def NilOn : List Nat → Val → Prop
  | [], _ => False
  | i :: path, v =>
    match Γ.node v.target with
    | .nil => True
    | .record _ fields => ∃ c ∈ fields[i]?, NilOn path c
    | _ => False

/-- What the token addresses is absent from a value that is neither a pointer that leads
    somewhere nor a region: the value is nil, a field is behind an embedded pointer that
    is nil, the map lacks the key, or the growing sequence ends before the position. -/
def Lacks (t : Token) (v : Val) : Prop :=
  match Γ.node v with
  | .nil => True
  | .record name _ =>
    match Γ.fieldPath name t with
    | .ok path => Γ.NilOn path v
    | .error _ => False
  | .map key _ _ entries =>
    match key.ofToken t.decoded with
    | .ok k => Entries.get? k entries = none
    | .error _ => False
  | .slice _ _ items => t.Beyond items.length
  | _ => False

/-- What the token addresses is absent from the target of a value.  From an empty region
    all is absent, from another what is absent from the value that it spells. -/
def Misses (t : Token) (v : Val) : Prop :=
  match v.target with
  | .raw bytes => bytes.isEmpty = true ∨ ∃ j ∈ Json.ofBytes? Γ.reading bytes, Γ.Lacks t (.json j)
  | w => Γ.Lacks t w

instance decidableNilOn : ∀ path v, Decidable (Γ.NilOn path v)
  | [], _ => .isFalse id
  | i :: path, v => by
    have (c : Val) := decidableNilOn path c
    unfold NilOn
    exact match Γ.node v.target with
    | .nil => .isTrue trivial
    | .record .. => inferInstance
    | .scalar | .ptr _ | .sealed _ | .map .. | .slice .. | .array .. | .raw _ => .isFalse id

instance (t : Token) (v : Val) : Decidable (Γ.Lacks t v) := by
  unfold Lacks
  exact match Γ.node v with
  | .nil => .isTrue trivial
  | .record name _ => by
    dsimp only
    exact match Γ.fieldPath name t with
    | .ok _ => inferInstance
    | .error _ => .isFalse id
  | .map key .. => by
    dsimp only
    exact match key.ofToken t.decoded with
    | .ok _ => inferInstance
    | .error _ => .isFalse id
  | .slice .. => inferInstance
  | .scalar | .ptr _ | .sealed _ | .array .. | .raw _ => .isFalse id

instance (t : Token) (v : Val) : Decidable (Γ.Misses t v) := by
  unfold Misses
  generalize v.target = w
  cases w <;> infer_instance

/-- The walk of a pointer that stops with `s` does so because what the next token addresses is
    absent. -/
def StopsShort (doc : Val) (p : Pointer) (s : Stop) : Prop :=
  ∃ r t rest x, p = r ++ s.current ∧ s.current.next = some (t, rest) ∧ Γ.Finds doc r x ∧
    Γ.Misses t x

/-- The records in a document have all the fields that are described, and what is
    described as embedding a record is one, possibly behind pointers, or nil. -/
structure Matched (doc : Val) : Prop where
  declared {r : String} {fields : List Val} {i : Nat} {name : String} {tagged : Bool} :
    (Val.record r fields).Within doc → Declares Γ.family r i name tagged → i < fields.length
  embedded {r s : String} {fields : List Val} {k : Nat} :
    (Val.record r fields).Within doc → Embeds Γ.family r k s →
      ∃ c, fields[k]? = some c ∧
        (Γ.node c.target = .nil ∨ ∃ below, c.target = .record s below)

/-- The bytes spell the same value. -/
def SameSpelled (bytes bytes' : ByteArray) : Prop :=
  ∃ j, Json.ofBytes? Γ.reading bytes = some j ∧ Json.ofBytes? Γ.reading bytes' = some j

end

variable {Γ : Schema} {doc v c u x : Val} {p : Pointer} {t : Token} {here : Pointer}
  {f : Val → Outcome} {last : Bool} {e : Refusal} {absent : Prop}

theorem Faithful.sameSpelled (hΓ : Γ.Faithful) {bytes bytes' : ByteArray}
    (h : Γ.Respells bytes bytes') : Γ.SameSpelled bytes bytes' := by
  obtain ⟨j, hj, rfl⟩ := h
  exact ⟨j, hj, hΓ j (Json.wellformed_of_ofBytes? hj)⟩

/-! ## Answers -/

/-- What a delete comes to at a value where a walk fails with `e`: if what is to be deleted
    is absent, it is complete, and at most the bytes of a region are others; if not, it
    fails like the walk. -/
def Answers (Γ : Schema) (absent : Prop) (e : Refusal) (here : Pointer) (v : Val) (out : Outcome) :
    Prop :=
  (absent ∧ ∃ w, out = .done w ∧ v.Alike Γ.Respells w) ∨
    (¬absent ∧ ∃ fault, fault.Agrees e.fault ∧ out = (.error ⟨fault, e.container, here⟩, v))

theorem Answers.within {P : Place} {out : Outcome}
    (h : Γ.Answers absent e here c out) (hP : Γ.Holds P v c) :
    Γ.Answers absent e here v (out.within P.back P.undo) := by
  rcases h with ⟨ha, w, rfl, hw⟩ | ⟨ha, fault, hf, rfl⟩
  · exact .inl ⟨ha, P.back w, rfl, hP.alike_back hw⟩
  · refine .inr ⟨ha, fault, hf, ?_⟩
    rw [Attempt.within, ← hP.part_eq, hP.undo_part]

theorem answers_done (h : absent) : Γ.Answers absent e here v (.done v) :=
  .inl ⟨h, v, rfl, .refl v⟩

theorem answers_refuse {fault fault' : Fault} (h : ¬absent) (hf : fault.Agrees fault') :
    Γ.Answers absent ⟨fault', v.typeOf⟩ here v (.refuse here v fault) :=
  .inr ⟨h, fault, hf, rfl⟩

/-! ## Fields -/

theorem Matched.mono (h : Γ.Matched v)
    (hc : ∀ name fields, (Val.record name fields).Within c → (Val.record name fields).Within v) :
    Γ.Matched c :=
  ⟨fun hw => h.declared (hc _ _ hw), fun hw => h.embedded (hc _ _ hw)⟩

theorem route_of_fieldPath (hnames : (Members.names Γ.records).Nodup) {name : String}
    {path : List Nat} (h : Γ.fieldPath name t = .ok path) : Route Γ.family name path := by
  have hfamily : Members.names Γ.family = Members.names Γ.records := List.map_map ..
  rw [fieldPath] at h
  split at h
  · next g hg =>
    cases h
    exact route_of_mem_build (hfamily ▸ hnames) (FieldIndex.mem_of_lookup hg)
  · cases h
  · cases h

/-- In a document that matches, only a nil pointer keeps a field from being found. -/
theorem nilOn_of_follow (hΓ : Γ.Plain) {r : String} {path : List Nat} {fields : List Val}
    (hr : Route Γ.family r path) (hv : v.target = .record r fields) (hm : Γ.Matched v)
    (h : Γ.follow path v = none) : Γ.NilOn path v := by
  induction hr generalizing v fields with
  | @last r i name tagged hd =>
    have hi : i < fields.length := hm.declared (.of_target (hv ▸ .refl)) hd
    simp [follow, hv, hΓ.node_record, hi] at h
  | @cons r s k path he hroute ih =>
    have hw : (Val.record r fields).Within v := .of_target (hv ▸ .refl)
    obtain ⟨c, hc, htarget⟩ := hm.embedded hw he
    have hfollow : Γ.follow path c = none := by
      simpa [follow, hv, hΓ.node_record, hc] using h
    simp only [NilOn, hv, hΓ.node_record]
    refine ⟨c, hc, ?_⟩
    rcases htarget with hnil | ⟨below, hbelow⟩
    -- a route has a position, so the nil is met before the field
    · cases hroute <;> simp [NilOn, hnil]
    · refine ih hbelow (hm.mono ?_) hfollow
      intro name fs hwithin
      exact .of_target (hv ▸ .field (List.mem_of_getElem? hc) hwithin)

theorem onTarget_done (h : f v.target = .done v.target) : v.onTarget f = .done v := by
  induction v using Val.target.induct with
  | case1 v ih | case2 v ih | case3 v ih =>
    rw [Val.onTarget, ih h]
    rfl
  | case4 v => rw [Val.target] at h <;> first | (rw [Val.onTarget] <;> assumption) | assumption

/-- Where no field is found there is nothing to delete. -/
theorem prune_of_follow {path : List Nat} (h : Γ.follow path v = none) :
    Γ.prune f path v = .done v := by
  induction path generalizing v with
  | nil => cases h
  | cons i path ih =>
    refine onTarget_done ?_
    rw [follow] at h
    cases hn : Γ.node v.target with
    | record name fields =>
      rw [hn] at h
      cases hc : fields[i]? with
      | none => simp only [hc]
      | some c =>
        have hbelow : Γ.follow path c = none := by simpa [hc] using h
        simp only [hc, ih hbelow]
        exact congrArg Attempt.done (of_field hn hc).undo_part
    | _ => rfl

/-! ## One step -/

section
variable {name : String} {fields items : List Val} {key : KeyTy} {order : EntryOrder} {elem : Ty}
  {entries : Entries Val} {gap : Option Nat}

theorem field_answers (hΓ : Γ.Plain) (hnames : (Members.names Γ.records).Nodup) (hm : Γ.Matched v)
    (hn : Γ.node v = .record name fields) (h : Γ.selectBare t v = .error e) :
    Γ.Answers (Γ.Lacks t v) e here v (Γ.removeBare here t last f v) := by
  cases hp : Γ.fieldPath name t with
  | error fault =>
    obtain rfl : ⟨fault, v.typeOf⟩ = e := by simpa [selectBare, hn, hp] using h
    simp only [Lacks, removeBare, hn, hp]
    exact answers_refuse id (.refl _)
  | ok path =>
    obtain rfl := eq_of_node_record hn
    cases hfollow : Γ.follow path (.record name fields) with
    | some child => simp [selectBare, hn, hp, hfollow] at h
    | none =>
      have hnil := nilOn_of_follow hΓ (route_of_fieldPath hnames hp) rfl hm hfollow
      simp only [Lacks, removeBare, hn, hp, prune_of_follow hfollow]
      exact answers_done hnil

theorem entry_answers (hn : Γ.node v = .map key order elem entries)
    (h : Γ.selectBare t v = .error e) :
    Γ.Answers (Γ.Lacks t v) e here v (Γ.removeBare here t last f v) := by
  cases hk : key.ofToken t.decoded with
  | error ke =>
    obtain rfl : ⟨.ofKeyError key t ke, v.typeOf⟩ = e := by simpa [selectBare, hn, hk] using h
    simp only [Lacks, removeBare, hn, hk]
    exact answers_refuse id (.refl _)
  | ok k =>
    cases hc : Entries.get? k entries with
    | some child => simp [selectBare, hn, hk, hc] at h
    | none =>
      simp only [Lacks, removeBare, hn, hk, hc]
      have hremoved : v.withEntries (Entries.remove k entries) = v := by
        rw [Entries.remove_of_get? hc, withEntries_of_node_map hn]
      rw [hremoved, ite_self]
      exact answers_done trivial

theorem elem?_of_existing {i : Nat} (h : t.existing items.length = .ok i) :
    ∃ c, elem? none items i = some c :=
  ⟨_, List.getElem?_eq_getElem (Token.existing_eq_ok.1 h).2⟩

theorem item_answers (hΓ : Γ.Plain) (hn : Γ.node v = .slice elem gap items)
    (h : Γ.selectBare t v = .error e) :
    Γ.Answers (Γ.Lacks t v) e here v (Γ.removeBare here t last f v) := by
  obtain ⟨rfl, -⟩ := hΓ.slice_cases hn
  cases ht : t.existing items.length with
  | ok i =>
    obtain ⟨c, hc⟩ := elem?_of_existing ht
    simp [selectBare, hn, ht, hc] at h
  | error ie =>
    obtain rfl : ⟨.index ie, v.typeOf⟩ = e := by simpa [selectBare, hn, ht] using h
    simp only [Lacks, removeBare, hn]
    -- a delete reads the position as an assign does, with the end of the sequence in range
    by_cases hb : t.Beyond items.length
    · rcases Token.index_of_beyond hb with hi | ⟨k, bound, hi, hk⟩
      · simp only [hi, if_true]
        exact answers_done hb
      · simp only [hi, hk, if_true]
        exact answers_done hb
    · rcases Token.index_of_not_beyond ht hb with ⟨m, hi, rfl⟩ | ⟨k, m, m', hi, hk, rfl⟩
      · simp only [hi]
        exact answers_refuse hb (.refl _)
      · simp only [hi, Int.not_le.2 hk, if_false]
        exact answers_refuse hb (.inr ⟨k, m, m', rfl, rfl⟩)

theorem arrayItem_answers (hΓ : Γ.Plain) (hn : Γ.node v = .array gap items)
    (h : Γ.selectBare t v = .error e) :
    Γ.Answers (Γ.Lacks t v) e here v (Γ.removeBare here t last f v) := by
  obtain ⟨rfl, -⟩ := hΓ.array_cases hn
  cases ht : t.existing items.length with
  | ok i =>
    obtain ⟨c, hc⟩ := elem?_of_existing ht
    simp [selectBare, hn, ht, hc] at h
  | error ie =>
    obtain rfl : ⟨.index ie, v.typeOf⟩ = e := by simpa [selectBare, hn, ht] using h
    simp only [Lacks, removeBare, hn, ht]
    exact answers_refuse id (.refl _)

end

/-- What a delete does where a walk fails, at a value that is neither a pointer nor a
    region. -/
theorem removeBare_answers (hΓ : Γ.Plain) (hnames : (Members.names Γ.records).Nodup)
    (hm : Γ.Matched v) (hptr : ∀ w, Γ.node v ≠ .ptr w) (hraw : ∀ b, Γ.node v ≠ .raw b)
    (h : Γ.selectBare t v = .error e) :
    Γ.Answers (Γ.Lacks t v) e here v (Γ.removeBare here t last f v) := by
  cases hn : Γ.node v with
  | record name fields => exact field_answers hΓ hnames hm hn h
  | map key order elem entries => exact entry_answers hn h
  | slice elem gap items => exact item_answers hΓ hn h
  | array gap items => exact arrayItem_answers hΓ hn h
  | scalar =>
    obtain rfl : ⟨.unreachable, v.typeOf⟩ = e := by simpa [selectBare, hn] using h
    simp only [Lacks, removeBare, hn]
    exact answers_refuse id (.refl _)
  | nil =>
    simp only [Lacks, removeBare, hn]
    exact answers_done trivial
  | ptr w => exact absurd hn (hptr w)
  | «sealed» full =>
    cases v with
    | record name fields =>
      rw [hΓ.node_record] at hn
      cases hn
    | json j => cases j <;> cases hn
    | _ => cases hn
  | raw bytes => exact absurd hn (hraw bytes)

/-- Behind its pointers a value is no pointer that leads anywhere. -/
theorem node_target_ne_ptr (hΓ : Γ.Plain) (v w : Val) : Γ.node v.target ≠ .ptr w := by
  induction v using Val.target.induct with
  | case1 v ih | case2 v ih | case3 v ih => exact ih
  | case4 v hp hb hh =>
    intro hn
    cases v with
    | ptr v => exact hp v rfl
    | box v => exact hb v rfl
    | held v => exact hh v rfl
    | record name fields =>
      rw [Val.target, hΓ.node_record] at hn
      · cases hn
      all_goals rintro _ ⟨⟩
    | json j => cases j <;> cases hn
    | _ => cases hn

theorem node_json_ne (j : Json) :
    (∀ w, Γ.node (.json j) ≠ .ptr w) ∧ ∀ bytes, Γ.node (.json j) ≠ .raw bytes := by
  constructor
  · intro w h
    cases j <;> cases h
  · intro bytes h
    cases j <;> cases h

theorem matched_json (j : Json) : Γ.Matched (.json j) := by
  constructor
  · intro _ _ _ _ _ h
    cases h
  · intro _ _ _ _ h
    cases h

section
variable (hr : ∀ bytes, v.target ≠ .raw bytes)
include hr

theorem opened_of_ne_raw : Γ.opened v = .ok v.target := by
  rw [opened]
  split
  · next bytes hb => exact absurd hb (hr bytes)
  · rfl

theorem misses_of_ne_raw : Γ.Misses t v ↔ Γ.Lacks t v.target := by
  rw [Misses]
  split
  · next bytes hb => exact absurd hb (hr bytes)
  · rfl

end

/-- One step of a delete at a region agrees with one of a walk. -/
theorem region_answers (hΓ : Γ.Plain) (hnames : (Members.names Γ.records).Nodup)
    {bytes : ByteArray} (hv : v.target = .raw bytes) (h : Γ.select t v = .error e) :
    Γ.Answers (Γ.Misses t v) e here (.raw bytes) (Γ.remove here t last f (.raw bytes)) := by
  simp only [select, opened, hv] at h
  simp only [Misses, hv, remove]
  cases he : bytes.isEmpty with
  | true => exact answers_done (.inl rfl)
  | false =>
    rw [regionValue?_eq he] at h ⊢
    cases hj : Json.ofBytes? Γ.reading bytes with
    | none =>
      obtain rfl : ⟨.codec, .raw⟩ = e := by simpa [he, hj, Except.bind] using h
      exact answers_refuse (by simp) (.refl _)
    | some j =>
      have hbare : Γ.selectBare t (.json j) = .error e := by simpa [he, hj, Except.bind] using h
      obtain ⟨hptr, hraw⟩ := node_json_ne (Γ := Γ) j
      have hans : Γ.Answers (Γ.Lacks t (.json j)) e here (.json j)
          (Γ.removeBare here t last f (.json j)) :=
        removeBare_answers hΓ hnames (matched_json j) hptr hraw hbare
      simpa using hans.within (holds_raw hj)

/-- **One step of a delete agrees with one of a walk that fails.** -/
theorem remove_answers (hΓ : Γ.Plain) (hnames : (Members.names Γ.records).Nodup)
    (hm : Γ.Matched v) (h : Γ.select t v = .error e) :
    Γ.Answers (Γ.Misses t v) e here v (v.onTarget fun w => Γ.remove here t last f w) := by
  obtain ⟨T, hT, hon, -⟩ := target_place (Γ := Γ) v
  have hrun : v.onTarget (fun w => Γ.remove here t last f w) = _ := hon _
  rw [hrun, Place.run, hT.part_eq]
  refine Answers.within ?_ hT
  by_cases hr : ∃ bytes, v.target = .raw bytes
  · obtain ⟨bytes, hv⟩ := hr
    rw [hv]
    exact region_answers hΓ hnames hv h
  · rw [not_exists] at hr
    rw [select, opened_of_ne_raw hr] at h
    rw [misses_of_ne_raw hr, remove_eq hr]
    refine removeBare_answers hΓ hnames (hm.mono fun _ _ => .of_target)
      (node_target_ne_ptr hΓ v) ?_ h
    intro b hb
    exact hr b (eq_of_node_raw hb)

/-! ## Walks -/

/-- Where a walk leads, a step of a delete goes or takes out what is there. -/
theorem removeBare_done (hΓ : Γ.Plain) (h : Γ.selectBare t v = .ok c) (hf : ∃ w, f c = .done w) :
    ∃ w, Γ.removeBare here t last f v = .done w := by
  obtain ⟨P, hP, -, hremove⟩ := reachesBare hΓ h
  obtain ⟨w, hw⟩ := hf
  have hgoes : Γ.removeBare here t false f v = .done (P.back w) := by
    refine (hremove here f).trans ?_
    rw [Place.run, hP.part_eq, hw]
    rfl
  cases last with
  | false => exact ⟨_, hgoes⟩
  | true =>
    -- the last token takes entries and elements out, and goes down to anything else
    cases hn : Γ.node v with
    | map key order elem entries =>
      cases hk : key.ofToken t.decoded with
      | error ke => simp [selectBare, hn, hk] at h
      | ok k =>
        refine ⟨v.withEntries (Entries.remove k entries), ?_⟩
        simp only [removeBare, hn, hk, if_true]
    | slice elem gap items =>
      cases ht : t.existing items.length with
      | error ie => simp [selectBare, hn, ht] at h
      | ok i =>
        obtain ⟨hi, hlt⟩ := Token.existing_eq_ok.1 ht
        refine ⟨Γ.withItems v (items.eraseIdx i), ?_⟩
        simp only [removeBare, hn, hi, Nat.ne_of_lt hlt, if_false, if_true]
    | _ =>
      simp only [removeBare, hn] at hgoes ⊢
      exact ⟨_, hgoes⟩

theorem remove_done (hΓ : Γ.Plain) (h : Γ.select t v = .ok c) (hf : ∃ w, f c = .done w) :
    ∃ w, v.onTarget (fun u => Γ.remove here t last f u) = .done w := by
  obtain ⟨u, ho, hu⟩ := select_eq_ok.1 h
  obtain ⟨T, hT, hon, -⟩ := target_place (Γ := Γ) v
  obtain ⟨w, hw⟩ : ∃ w, Γ.remove here t last f v.target = .done w := by
    obtain ⟨w, hw⟩ : ∃ w, Γ.removeBare here t last f u = .done w := removeBare_done hΓ hu hf
    rcases opened_cases ho with ⟨rfl, hr⟩ | ⟨bytes, j, hv, he, hj, rfl⟩
    · exact ⟨w, by rw [remove_eq hr, hw]⟩
    · refine ⟨.raw w.asJson.toBytes, ?_⟩
      simp only [hv, remove, he, regionValue?_eq he, hj, hw]
      rfl
  refine ⟨T.back w, (hon _).trans ?_⟩
  rw [Place.run, hT.part_eq, hw]
  rfl

/-- A delete works where a walk leads. -/
theorem deleteTokens_done (hΓ : Γ.Plain) {redirect : Val → Pointer → Except Stop Val}
    (redirect' : Val → Pointer → Outcome) {ts : List Token}
    (h : Γ.resolveTokens redirect ts v = .ok x) :
    ∃ w, Γ.deleteTokens redirect' ts v = .done w := by
  induction ts generalizing v with
  | nil => exact ⟨_, rfl⟩
  | cons t ts ih =>
    rw [hΓ.resolveTokens_step] at h
    cases ht : Γ.select t v with
    | error e => simp [ht] at h
    | ok c =>
      rw [ht] at h
      rw [hΓ.deleteTokens_cons]
      exact remove_done hΓ ht (ih h)

/-- **A delete agrees with a walk that fails**, at the step at which it fails. -/
theorem deleteTokens_answers (hΓ : Γ.Plain) (hnames : (Members.names Γ.records).Nodup)
    (hm : Γ.Matched v) {redirect : Val → Pointer → Except Stop Val}
    (redirect' : Val → Pointer → Outcome) {ts us : List Token}
    (hx : Γ.resolveTokens redirect ts v = .ok x) (ht : Γ.select t x = .error e) :
    Γ.Answers (Γ.Misses t x) e (.ofTokens (t :: us)) v
      (Γ.deleteTokens redirect' (ts ++ t :: us) v) := by
  obtain ⟨P, hP, -, hdelete⟩ := resolveTokens_place hΓ hx
  rw [hdelete _ _ (List.cons_ne_nil t us), Place.run, hP.part_eq, hΓ.deleteTokens_cons]
  exact (remove_answers hΓ hnames (hm.mono fun _ _ => hP.within_of_within) ht).within hP

/-! ## Calls -/

/-- A walk that stops in front of the token `t` stops short if `t` misses. -/
theorem stopsShort_iff {ts us : List Token} (hp : p.validate = .ok ())
    (hts : p.tokens = ts ++ t :: us) (hx : Γ.Finds doc (.ofTokens ts) x) :
    Γ.StopsShort doc p (e.stop (.ofTokens (t :: us))) ↔ Γ.Misses t x := by
  have hspelled : t.Spelled :=
    (List.forall_mem_cons.1 (Pointer.spelled_of_cut hp hts).2).1
  have hnext := Pointer.next_ofTokens hspelled us
  constructor
  · rintro ⟨r, t', rest, x', hr, hnext', hx', hmisses⟩
    obtain rfl := Pointer.eq_ofTokens_of_cut hp hts hr
    cases hnext.symm.trans hnext'
    cases (finds_iff.1 hx).symm.trans (finds_iff.1 hx')
    exact hmisses
  · intro hmisses
    refine ⟨.ofTokens ts, t, .ofTokens us, x, ?_, hnext, hx, hmisses⟩
    rw [← Pointer.ofTokens_tokens hp, hts]
    exact Pointer.ofTokens_append ts (t :: us)

/-- **A delete agrees with the walk of its pointer.**  It works where the walk finds
    something, and where the walk stops short it works and changes nothing; only, the
    region that the walk went through, if any, is written anew, and then spells the same
    value if what is written is read as that.  Where the walk stops for any other cause, the
    delete fails for the same at the same place. -/
theorem delete_agrees (hΓ : Γ.Plain) (hnames : (Members.names Γ.records).Nodup)
    (hm : Γ.Matched doc) (hp : p.validate = .ok ()) :
    (∀ x, Γ.Finds doc p x → ∃ doc', Γ.delete doc p = (.ok (), doc')) ∧
      ∀ s, Γ.Stops doc p s →
        (Γ.StopsShort doc p s → ∃ doc', Γ.delete doc p = (.ok (), doc') ∧
          doc.Alike Γ.Respells doc' ∧ (Γ.Faithful → doc.Alike Γ.SameSpelled doc')) ∧
        (¬Γ.StopsShort doc p s → ∃ fault, fault.Agrees s.fault ∧
          Γ.delete doc p = (.error ⟨.deleting, p, ⟨fault, s.container, s.current⟩⟩, doc)) := by
  constructor
  · intro x hx
    rw [finds_iff, seek_eq hp] at hx
    obtain ⟨w, hw⟩ := deleteTokens_done hΓ (Γ.discard Γ.redirects) hx
    exact ⟨w, by rw [delete_eq hp, hw]; rfl⟩
  · intro s hs
    rw [Stops, seek_eq hp] at hs
    obtain ⟨ts, t, us, x, e, hts, hx, ht, rfl⟩ := resolveTokens_error hΓ hs
    have hfinds : Γ.Finds doc (.ofTokens ts) x :=
      (finds_ofTokens (Pointer.spelled_of_cut hp hts).1).2 hx
    have hanswers : Γ.Answers (Γ.Misses t x) e (.ofTokens (t :: us)) doc
        (Γ.deleteTokens (Γ.discard Γ.redirects) (ts ++ t :: us) doc) :=
      deleteTokens_answers hΓ hnames hm _ hx ht
    rw [stopsShort_iff hp hts hfinds, delete_eq hp, hts]
    rcases hanswers with ⟨hmisses, w, hw, halike⟩ | ⟨hmisses, fault, hf, hw⟩
    · constructor
      · intro _
        refine ⟨w, ?_, halike, ?_⟩
        · rw [hw]
          rfl
        · intro hfaithful
          exact halike.mono fun b b' => hfaithful.sameSpelled
      · intro h
        exact absurd hmisses h
    · constructor
      · intro h
        exact absurd h hmisses
      · intro _
        refine ⟨fault, hf, ?_⟩
        rw [hw]
        rfl

/-- A job may embed limits, but an empty one has none. -/
theorem matched_job : jobs.Matched job := by
  have hjob : job =
      .record "Job" [.nil (.record "Limits"), .nil (.slice (hashed i64)), .raw .empty] := rfl
  have hrecord {r : String} {fields : List Val} (h : (Val.record r fields).Within job) :
      Val.record r fields = job := by
    rw [hjob] at h ⊢
    cases h with
    | refl => rfl
    | field hmem hw =>
      simp only [List.mem_cons, List.not_mem_nil, or_false] at hmem
      rcases hmem with rfl | rfl | rfl <;> cases hw
  have hroles : ∀ fs ∈ Members.get? "Job" jobs.family, fs.map FieldDecl.role =
      [.promotes "Limits", .visible "steps" true, .visible "notes" true] := by decide +kernel
  constructor
  · rintro r fields i name tagged hw ⟨fs, d, hfs, hd, -⟩
    rw [hjob] at hrecord
    cases hrecord hw
    have hlen : fs.length = 3 := by simpa using congrArg List.length (hroles fs hfs)
    obtain ⟨hi, -⟩ := List.getElem?_eq_some_iff.1 hd
    exact Nat.lt_of_lt_of_eq hi hlen
  · rintro r s fields k hw ⟨fs, d, hfs, hd, hr⟩
    rw [hjob] at hrecord
    cases hrecord hw
    have hrole : (fs.map FieldDecl.role)[k]? = some (.promotes s) := by
      rw [List.getElem?_map, hd, ← hr]
      rfl
    rw [hroles fs hfs] at hrole
    rcases k with _ | _ | _ | k
    · exact ⟨_, rfl, .inl rfl⟩
    · simp at hrole
    · simp at hrole
    · simp at hrole

/-- From a job without anything, its notes are deleted, there is no limit to delete, and no
    field is a colour. -/
theorem job_deleted :
    (∃ doc', jobs.delete job ⟨"/notes"⟩ = (.ok (), doc')) ∧
      (∃ doc', jobs.delete job ⟨"/cpu"⟩ = (.ok (), doc') ∧ job.Alike jobs.Respells doc') ∧
      ∃ e, jobs.delete job ⟨"/colour"⟩ = (.error e, job) := by
  have hnames : (Members.names jobs.records).Nodup := by decide +kernel
  have hfound : (jobs.seek job ⟨"/notes"⟩).toOption.isSome = true := by decide +kernel
  have hcpu : jobs.Stops job ⟨"/cpu"⟩ ⟨.notFound, .record "Job", ⟨"/cpu"⟩⟩ := by decide +kernel
  have hcolour : jobs.Stops job ⟨"/colour"⟩ ⟨.notFound, .record "Job", ⟨"/colour"⟩⟩ := by
    decide +kernel
  have hshort : jobs.Misses ⟨"cpu"⟩ job := by decide +kernel
  have hwrong : ¬jobs.Misses ⟨"colour"⟩ job := by decide +kernel
  refine ⟨?_, ?_, ?_⟩
  · cases hx : jobs.seek job ⟨"/notes"⟩ with
    | error s =>
      rw [hx] at hfound
      cases hfound
    | ok x => exact (delete_agrees plain_jobs hnames matched_job rfl).1 x hx
  · obtain ⟨doc', hdoc, halike, -⟩ := ((delete_agrees plain_jobs hnames matched_job rfl).2 _ hcpu).1
      ⟨.root, ⟨"cpu"⟩, .root, job, rfl, rfl, rfl, hshort⟩
    exact ⟨doc', hdoc, halike⟩
  · have hnot : ¬jobs.StopsShort job ⟨"/colour"⟩ ⟨.notFound, .record "Job", ⟨"/colour"⟩⟩ := by
      rintro ⟨r, t, rest, x, hr, hnext, hx, hmisses⟩
      cases hnext
      obtain rfl := Pointer.append_right_cancel ((Pointer.root_append _).trans hr)
      cases hx
      exact hwrong hmisses
    obtain ⟨fault, -, hdoc⟩ :=
      ((delete_agrees plain_jobs hnames matched_job rfl).2 _ hcolour).2 hnot
    exact ⟨_, hdoc⟩

/-- A region that spells the same value is opened as it. -/
theorem opened_of_sameSpelled {bytes : ByteArray} {w : Val}
    (h : (Val.raw bytes).Alike Γ.SameSpelled w) : Γ.opened (.raw bytes) = Γ.opened w := by
  cases h with
  | refl => rfl
  | raw hs =>
    obtain ⟨j, hj, hj'⟩ := hs
    rw [(opened_region hj).1, (opened_region hj').1]

/-- A double that the program has read may be written such that it reads another.  So a
    delete of an entry that is not there may change the value of the entry beside it. -/
theorem respelled_differs :
    let Γ := Command.noRecords Command.reading
    let doc := Command.region "\x7b\"a\":5e32\x7d"
    Γ.StopsShort doc ⟨"/b"⟩ ⟨.notFound, .json, ⟨"/b"⟩⟩ ∧
      ∃ doc', Γ.delete doc ⟨"/b"⟩ = (.ok (), doc') ∧ ¬doc.Alike Γ.SameSpelled doc' := by
  intro Γ doc
  have hshort : Γ.Misses ⟨"b"⟩ doc := by decide +kernel
  have hok : (Γ.delete doc ⟨"/b"⟩).1.isOk = true := by decide +kernel
  have hbefore : (Γ.opened doc).toOption.map (·.asJson.text) =
      some "\x7b\"a\":5.0000000000000004e+32\x7d" := by decide +kernel
  have hafter : (Γ.opened (Γ.delete doc ⟨"/b"⟩).2).toOption.map (·.asJson.text) =
      some "\x7b\"a\":5e+32\x7d" := by decide +kernel
  refine ⟨⟨.root, ⟨"b"⟩, .root, doc, rfl, rfl, rfl, hshort⟩, ?_⟩
  generalize Γ.delete doc ⟨"/b"⟩ = out at hok hafter ⊢
  obtain ⟨_ | _, doc'⟩ := out
  · cases hok
  · refine ⟨doc', rfl, ?_⟩
    intro h
    have hsame : Γ.opened doc = Γ.opened doc' := opened_of_sameSpelled h
    rw [hsame, hafter] at hbefore
    simp at hbefore

end Schema

end DocPointer
