/-
  The leaves of a value.

  A value has a JSON form if all have that stand in it without parts of their own: its leaves,
  of which only an integer of more than 64 bits and a region can lack one.  What is decoded has
  leaves with a JSON form, but for its regions, which hold the text of a JSON value.

  * `Schema.Leaves Q v`: all leaves of `v` that are encoded are as `Q` says.
  * `Schema.Writable` and `Schema.Shallow` say of a leaf that it holds, if it is a region, the
    text of a JSON value, and that this text nests no deeper than is read.
  * `encodes_iff`: a value has a JSON form just if its leaves have; `encodes_iff_of_writable`:
    writable leaves have one just if they are shallow.
  * `writable_decode`: what is decoded is writable.
-/
import DocPointer.Document.Codec
import DocPointer.Proofs.Document.Entries
import DocPointer.Proofs.Json.Roundtrip

namespace DocPointer

/-- A value without parts that are values of the document. -/
def Val.IsLeaf : Val → Prop
  | ptr _ | box _ | held _ | slice _ _ | array _ _ | map _ _ _ _ | record _ _ => False
  | _ => True

namespace Entries

variable {α : Type} {P : α → Prop} {order : EntryOrder} {key : Key} {v : α} {es : Entries α}

theorem forall_set (h : ∀ e ∈ es, P e.2) (hv : P v) : ∀ e ∈ set key v es, P e.2 := by
  induction es with
  | nil => exact h
  | cons e es ih =>
    obtain ⟨k, w⟩ := e
    obtain ⟨he, hes⟩ := List.forall_mem_cons.1 h
    rw [set]
    split
    · exact List.forall_mem_cons.2 ⟨hv, hes⟩
    · exact List.forall_mem_cons.2 ⟨he, ih hes⟩

theorem forall_insert (h : ∀ e ∈ es, P e.2) (hv : P v) : ∀ e ∈ insert order key v es, P e.2 := by
  induction es with
  | nil => exact List.forall_mem_singleton.2 hv
  | cons e es ih =>
    obtain ⟨k, w⟩ := e
    obtain ⟨he, hes⟩ := List.forall_mem_cons.1 h
    cases order with
    | insertion => exact List.forall_mem_cons.2 ⟨he, ih hes⟩
    | byKey kind =>
      rw [insert]
      split
      · exact List.forall_mem_cons.2 ⟨hv, h⟩
      · exact List.forall_mem_cons.2 ⟨he, ih hes⟩

theorem forall_put (h : ∀ e ∈ es, P e.2) (hv : P v) : ∀ e ∈ put order key v es, P e.2 := by
  rw [put]
  split
  · exact forall_set h hv
  · exact forall_insert h hv

theorem forall_foldl_put {new : Entries α} (h : ∀ e ∈ es, P e.2) (hnew : ∀ e ∈ new, P e.2) :
    ∀ e ∈ new.foldl (fun acc (k, v) => put order k v acc) es, P e.2 := by
  induction new generalizing es with
  | nil => exact h
  | cons e new ih =>
    obtain ⟨he, hrest⟩ := List.forall_mem_cons.1 hnew
    exact ih (forall_put h he) hrest

theorem forall_remove (h : ∀ e ∈ es, P e.2) : ∀ e ∈ remove key es, P e.2 := by
  induction es with
  | nil => exact h
  | cons e es ih =>
    obtain ⟨k, w⟩ := e
    obtain ⟨he, hes⟩ := List.forall_mem_cons.1 h
    rw [remove]
    split
    · exact hes
    · exact List.forall_mem_cons.2 ⟨he, ih hes⟩

theorem of_get? (h : ∀ e ∈ es, P e.2) (hv : get? key es = some v) : P v := by
  induction es with
  | nil => cases hv
  | cons e es ih =>
    obtain ⟨k, w⟩ := e
    obtain ⟨he, hes⟩ := List.forall_mem_cons.1 h
    rw [get?] at hv
    split at hv
    · cases hv
      exact he
    · exact ih hes hv

end Entries

namespace Schema

section
variable (Γ : Schema)

/-- The value has a JSON form. -/
def Encodes (v : Val) : Prop := ∃ j, Γ.encode v = some j

/-- Every leaf of the value is one of `Q`.  Of a record, the fields without a slot do not count. -/
inductive Leaves (Q : Val → Prop) : Val → Prop where
  | leaf {v : Val} : v.IsLeaf → Q v → Leaves Q v
  | ptr {v : Val} : Leaves Q v → Leaves Q (.ptr v)
  | box {v : Val} : Leaves Q v → Leaves Q (.box v)
  | held {v : Val} : Leaves Q v → Leaves Q (.held v)
  | slice {elem : Ty} {items : List Val} : (∀ v ∈ items, Leaves Q v) → Leaves Q (.slice elem items)
  | array {elem : Ty} {items : List Val} : (∀ v ∈ items, Leaves Q v) → Leaves Q (.array elem items)
  | map {kind : MapKind} {key : KeyTy} {elem : Ty} {entries : Entries Val} :
      (∀ e ∈ entries, Leaves Q e.2) → Leaves Q (.map kind key elem entries)
  | record {name : String} {fields : List Val} :
      (∀ i v, i < (Γ.decl name).slots.length → fields[i]? = some v → Leaves Q v) →
        Leaves Q (.record name fields)

/-- The leaf has a JSON form, or it is a region with the text of a JSON value. -/
def Writable (u : Val) : Prop := Γ.Encodes u ∨ ∃ j : Json, u = .raw j.toBytes

/-- In the text that the leaf holds, if it is a region, containers nest no deeper than is read. -/
def Shallow (u : Val) : Prop := ∀ j : Json, u = .raw j.toBytes → Room Γ.reading.depth j.height

/-- The zero values of the records have a JSON form. -/
def ZerosEncode : Prop := ∀ name, Γ.Encodes (Γ.zero (.record name))

end

variable {Γ : Schema} {Q R : Val → Prop} {v : Val} {elem : Ty} {items : List Val} {kind : MapKind}
  {key : KeyTy} {entries : Entries Val} {name : String} {fields : List Val}

theorem Leaves.mono (hQ : ∀ u, Q u → R u) (h : Γ.Leaves Q v) : Γ.Leaves R v := by
  induction h with
  | leaf hv h => exact .leaf hv (hQ _ h)
  | ptr _ ih => exact .ptr ih
  | box _ ih => exact .box ih
  | held _ ih => exact .held ih
  | slice _ ih => exact .slice ih
  | array _ ih => exact .array ih
  | map _ ih => exact .map ih
  | record _ ih => exact .record ih

/-! ## Parts -/

theorem leaves_ptr : Γ.Leaves Q (.ptr v) ↔ Γ.Leaves Q v := by
  refine ⟨fun h => ?_, .ptr⟩
  cases h with
  | leaf hv _ => exact hv.elim
  | ptr h => exact h

theorem leaves_box : Γ.Leaves Q (.box v) ↔ Γ.Leaves Q v := by
  refine ⟨fun h => ?_, .box⟩
  cases h with
  | leaf hv _ => exact hv.elim
  | box h => exact h

theorem leaves_held : Γ.Leaves Q (.held v) ↔ Γ.Leaves Q v := by
  refine ⟨fun h => ?_, .held⟩
  cases h with
  | leaf hv _ => exact hv.elim
  | held h => exact h

theorem leaves_slice : Γ.Leaves Q (.slice elem items) ↔ ∀ v ∈ items, Γ.Leaves Q v := by
  refine ⟨fun h => ?_, .slice⟩
  cases h with
  | leaf hv _ => exact hv.elim
  | slice h => exact h

theorem leaves_array : Γ.Leaves Q (.array elem items) ↔ ∀ v ∈ items, Γ.Leaves Q v := by
  refine ⟨fun h => ?_, .array⟩
  cases h with
  | leaf hv _ => exact hv.elim
  | array h => exact h

theorem leaves_map : Γ.Leaves Q (.map kind key elem entries) ↔ ∀ e ∈ entries, Γ.Leaves Q e.2 := by
  refine ⟨fun h => ?_, .map⟩
  cases h with
  | leaf hv _ => exact hv.elim
  | map h => exact h

theorem leaves_record : Γ.Leaves Q (.record name fields) ↔
    ∀ i v, i < (Γ.decl name).slots.length → fields[i]? = some v → Γ.Leaves Q v := by
  refine ⟨fun h => ?_, .record⟩
  cases h with
  | leaf hv _ => exact hv.elim
  | record h => exact h

/-- Other values for a field, unless it has no slot. -/
theorem leaves_set {i : Nat} (h : Γ.Leaves Q (.record name fields))
    (hv : i < (Γ.decl name).slots.length → Γ.Leaves Q v) :
    Γ.Leaves Q (.record name (fields.set i v)) := by
  refine .record fun l u hl hu => ?_
  rw [List.getElem?_set] at hu
  split at hu
  · next hil =>
    subst hil
    split at hu
    · cases hu
      exact hv hl
    · cases hu
  · exact leaves_record.1 h l u hl hu

/-! ## JSON forms -/

theorem encodes_ofInt {k : IntKind} {n : Int}
    (h : -0x8000000000000000 ≤ n ∧ n < 0x10000000000000000) : Γ.Encodes (.int k n) :=
  ⟨.num (.int n h), by rw [encode, Json.ofInt?, Number.ofInt?, dif_pos h]; rfl⟩

theorem exists_encodeItems : (∃ js, Γ.encodeItems items = some js) ↔ ∀ v ∈ items, Γ.Encodes v := by
  induction items with
  | nil => simp [encodeItems]
  | cons v vs ih =>
    rw [List.forall_mem_cons, ← ih]
    simp only [encodeItems, Encodes, Option.bind_eq_bind, Option.bind_eq_some_iff, Option.pure_def,
      Option.some.injEq]
    constructor
    · rintro ⟨_, j, hj, js, hjs, rfl⟩
      exact ⟨⟨j, hj⟩, js, hjs⟩
    · rintro ⟨⟨j, hj⟩, js, hjs⟩
      exact ⟨_, j, hj, js, hjs, rfl⟩

theorem exists_encodeEntries :
    (∃ ms, Γ.encodeEntries entries = some ms) ↔ ∀ e ∈ entries, Γ.Encodes e.2 := by
  induction entries with
  | nil => simp [encodeEntries]
  | cons e es ih =>
    obtain ⟨k, v⟩ := e
    rw [List.forall_mem_cons, ← ih]
    simp only [encodeEntries, Encodes, Option.bind_eq_bind, Option.bind_eq_some_iff,
      Option.pure_def, Option.some.injEq]
    constructor
    · rintro ⟨_, j, hj, ms, hms, rfl⟩
      exact ⟨⟨j, hj⟩, ms, hms⟩
    · rintro ⟨⟨j, hj⟩, ms, hms⟩
      exact ⟨_, j, hj, ms, hms, rfl⟩

theorem exists_encodeFields {names : List String} :
    (∃ ms, Γ.encodeFields names fields = some ms) ↔
      ∀ i v, i < names.length → fields[i]? = some v → Γ.Encodes v := by
  induction names generalizing fields with
  | nil => simp [encodeFields]
  | cons k ks ih =>
    cases fields with
    | nil => simp [encodeFields]
    | cons v vs =>
      simp only [encodeFields, Option.bind_eq_bind, Option.bind_eq_some_iff, Option.pure_def,
        Option.some.injEq]
      constructor
      · rintro ⟨_, j, hj, ms, hms, rfl⟩ i u hi hu
        cases i with
        | zero =>
          cases hu
          exact ⟨j, hj⟩
        | succ i => exact ih.1 ⟨ms, hms⟩ i u (Nat.lt_of_succ_lt_succ hi) hu
      · intro h
        obtain ⟨j, hj⟩ := h 0 v (Nat.succ_pos _) rfl
        obtain ⟨ms, hms⟩ := ih.2 fun i u hi hu => h (i + 1) u (Nat.succ_lt_succ hi) hu
        exact ⟨_, j, hj, ms, hms, rfl⟩

theorem exists_map_iff {α β : Type} {f : α → β} {o : Option α} :
    (∃ b, o.map f = some b) ↔ ∃ a, o = some a := by
  cases o <;> simp

theorem encodes_of_leaves (h : Γ.Leaves Γ.Encodes v) : Γ.Encodes v := by
  induction h with
  | leaf _ h => exact h
  | ptr _ ih | box _ ih | held _ ih => exact ih
  | slice _ ih | array _ ih => exact exists_map_iff.2 (exists_encodeItems.2 ih)
  | map _ ih => exact exists_map_iff.2 (exists_encodeEntries.2 ih)
  | record _ ih =>
    exact exists_map_iff.2 (exists_encodeFields.2 fun i v hi => ih i v (by simpa using hi))

mutual

theorem leaves_of_encodes : ∀ {v : Val}, Γ.Encodes v → Γ.Leaves Γ.Encodes v
  | .bool _, h | .char _, h | .int _ _, h | .float _ _, h | .string _, h | .nil _, h | .json _, h
  | .vacant, h | .raw _, h => .leaf trivial h
  | .ptr v, h => .ptr (leaves_of_encodes (v := v) h)
  | .box v, h => .box (leaves_of_encodes (v := v) h)
  | .held v, h => .held (leaves_of_encodes (v := v) h)
  | .slice _ _, h => .slice (leaves_of_encodeItems (exists_map_iff.1 h))
  | .array _ _, h => .array (leaves_of_encodeItems (exists_map_iff.1 h))
  | .map _ _ _ _, h => .map (leaves_of_encodeEntries (exists_map_iff.1 h))
  | .record _ _, h => .record fun i v hi =>
      leaves_of_encodeFields (exists_map_iff.1 h) i v (by simpa using hi)

theorem leaves_of_encodeItems : ∀ {vs : List Val}, (∃ js, Γ.encodeItems vs = some js) →
    ∀ v ∈ vs, Γ.Leaves Γ.Encodes v
  | [], _ => by simp
  | v :: vs, h => by
    obtain ⟨hv, hvs⟩ := List.forall_mem_cons.1 (exists_encodeItems.1 h)
    exact List.forall_mem_cons.2
      ⟨leaves_of_encodes hv, leaves_of_encodeItems (exists_encodeItems.2 hvs)⟩

theorem leaves_of_encodeEntries : ∀ {es : List (Key × Val)},
    (∃ ms, Γ.encodeEntries es = some ms) → ∀ e ∈ es, Γ.Leaves Γ.Encodes e.2
  | [], _ => by simp
  | (k, v) :: es, h => by
    obtain ⟨hv, hes⟩ := List.forall_mem_cons.1 (exists_encodeEntries.1 h)
    exact List.forall_mem_cons.2
      ⟨leaves_of_encodes hv, leaves_of_encodeEntries (exists_encodeEntries.2 hes)⟩

theorem leaves_of_encodeFields : ∀ {names : List String} {vs : List Val},
    (∃ ms, Γ.encodeFields names vs = some ms) →
      ∀ i v, i < names.length → vs[i]? = some v → Γ.Leaves Γ.Encodes v
  | _, [], _, _, _, _, hu => by cases hu
  | [], _ :: _, _, _, _, hi, _ => absurd hi (Nat.not_lt_zero _)
  | k :: ks, v :: vs, h, i, u, hi, hu => by
    have hall := exists_encodeFields.1 h
    cases i with
    | zero =>
      cases hu
      exact leaves_of_encodes (hall 0 v hi rfl)
    | succ i =>
      exact leaves_of_encodeFields (exists_encodeFields.2 fun i u hi hu =>
        hall (i + 1) u (Nat.succ_lt_succ hi) hu) i u (Nat.lt_of_succ_lt_succ hi) hu

end

/-- **A value has a JSON form just if all its leaves have.** -/
theorem encodes_iff : Γ.Encodes v ↔ Γ.Leaves Γ.Encodes v := ⟨leaves_of_encodes, encodes_of_leaves⟩

/-! ## Decoding -/

/-- The zero value of a type has a JSON form, if those of the records have. -/
theorem ZerosEncode.encodes (h : Γ.ZerosEncode) (t : Ty) : Γ.Encodes (Γ.zero t) := by
  induction t with
  | int k => exact encodes_ofInt (by decide)
  | box t ih => exact ih
  | array n t ih =>
    refine exists_map_iff.2 (exists_encodeItems.2 fun v hv => ?_)
    rw [List.eq_of_mem_replicate hv]
    exact ih
  | record name => exact h name
  | float k => cases k <;> exact ⟨_, rfl⟩
  | _ => exact ⟨_, rfl⟩

theorem ZerosEncode.writable (h : Γ.ZerosEncode) (t : Ty) : Γ.Leaves Γ.Writable (Γ.zero t) :=
  (encodes_iff.1 (h.encodes t)).mono fun _ => .inl

theorem encodes_toBytes {j : Json} :
    Γ.Encodes (.raw j.toBytes) ↔ Room Γ.reading.depth j.height := by
  rw [← Json.exists_ofBytes?_iff, Encodes, encode, regionValue?, j.isEmpty_toBytes,
    if_neg Bool.false_ne_true]

/-- What is writable has a JSON form just if it nests no deeper than is read. -/
theorem Writable.encodes_iff {u : Val} (h : Γ.Writable u) : Γ.Encodes u ↔ Γ.Shallow u := by
  constructor
  · rintro hu j rfl
    exact encodes_toBytes.1 hu
  · intro hu
    rcases h with h | ⟨j, rfl⟩
    · exact h
    · exact encodes_toBytes.2 (hu j rfl)

theorem writable_regionOf (j : Json) : Γ.Writable (.raw (regionOf j)) := by
  rw [regionOf]
  split
  · exact .inl ⟨_, rfl⟩
  · exact .inr ⟨j, rfl⟩

theorem writable_adopt? {j : Json} {t : Ty} (h : adopt? j t = some v) : Γ.Leaves Γ.Writable v := by
  cases t with
  | json =>
    cases h
    exact .leaf trivial (.inl ⟨j, rfl⟩)
  | holder =>
    cases h
    split
    · exact .leaf trivial (.inl ⟨.null, rfl⟩)
    · exact .held (.leaf trivial (.inl ⟨j, rfl⟩))
  | raw =>
    cases h
    exact .leaf trivial (writable_regionOf j)
  | _ => cases h

theorem leaves_throughPointers {f : Ty → Option Val}
    (hf : ∀ {t : Ty} {v : Val}, f t = some v → Γ.Leaves Q v) {t : Ty}
    (h : throughPointers f t = some v) : Γ.Leaves Q v := by
  induction t generalizing v with
  | opt t ih =>
    obtain ⟨u, hu, rfl⟩ := Option.map_eq_some_iff.1 h
    exact .ptr (ih hu)
  | box t ih =>
    obtain ⟨u, hu, rfl⟩ := Option.map_eq_some_iff.1 h
    exact .box (ih hu)
  | _ => exact hf h

theorem writable_decodeNull {t : Ty} (h : decodeNull t = some v) : Γ.Leaves Γ.Writable v := by
  induction t generalizing v with
  | opt t =>
    cases h
    exact .leaf trivial (.inl ⟨.null, rfl⟩)
  | box t ih =>
    obtain ⟨u, hu, rfl⟩ := Option.map_eq_some_iff.1 h
    exact .box (ih hu)
  | _ => exact writable_adopt? h

theorem writable_decodeNumber {n : Number} {t : Ty} (h : decodeNumber n t = some v) :
    Γ.Leaves Γ.Writable v := by
  cases t with
  | int k =>
    cases n with
    | int i hi =>
      simp only [decodeNumber] at h
      split at h <;> cases h
      exact .leaf trivial (.inl (encodes_ofInt hi))
    | float x => cases h
  | float k =>
    cases h
    cases k <;> exact .leaf trivial (.inl ⟨_, rfl⟩)
  | _ =>
    simp only [decodeNumber] at h
    exact writable_adopt? h

theorem writable_decodeString {s : String} {t : Ty} (h : decodeString s t = some v) :
    Γ.Leaves Γ.Writable v := by
  cases t with
  | string =>
    cases h
    exact .leaf trivial (.inl ⟨_, rfl⟩)
  | char =>
    simp only [decodeString] at h
    split at h <;> cases h
    exact .leaf trivial (.inl ⟨_, rfl⟩)
  | _ =>
    simp only [decodeString] at h
    exact writable_adopt? h

/-- The fields that were read in order, and the zero values of the others. -/
theorem leaves_append_zero {vs : List Val} (hvs : ∀ v ∈ vs, Γ.Leaves Q v)
    (hz : Γ.Leaves Q (.record name (Γ.decl name).zero)) :
    Γ.Leaves Q (.record name (vs ++ (Γ.decl name).zero.drop vs.length)) := by
  refine .record fun i v hi hv => ?_
  rw [List.getElem?_append] at hv
  split at hv
  · exact hvs v (List.mem_of_getElem? hv)
  · rw [List.getElem?_drop, Nat.add_sub_cancel' (by omega)] at hv
    exact leaves_record.1 hz i v hi hv

/-- The fields that were read by name, and the zero values of the others. -/
theorem leaves_assemble {found : Members Val} (hfound : ∀ m ∈ found, Γ.Leaves Q m.2)
    (hz : Γ.Leaves Q (.record name (Γ.decl name).zero)) :
    Γ.Leaves Q (.record name (assemble (Γ.decl name).slots (Γ.decl name).zero found)) := by
  refine .record fun i v hi hv => ?_
  rw [assemble, List.getElem?_map, Option.map_eq_some_iff] at hv
  obtain ⟨⟨slot, z⟩, hzip, rfl⟩ := hv
  obtain ⟨-, hzi⟩ := List.getElem?_zip_eq_some.1 hzip
  simp only
  cases hg : Members.get? slot.key found with
  | none => exact leaves_record.1 hz i z hi hzi
  | some u => exact hfound _ (Members.mem_of_get? hg)

mutual

/-- **What is decoded has leaves with a JSON form, and regions with the text of one.** -/
theorem writable_decode (hz : Γ.ZerosEncode) : ∀ {j : Json} {t : Ty} {v : Val},
    Γ.decode j t = some v → Γ.Leaves Γ.Writable v
  | .null, _, _, h => by
    rw [decode] at h
    exact writable_decodeNull h
  | .bool b, _, _, h => by
    rw [decode] at h
    refine leaves_throughPointers (fun {t v} h => ?_) h
    split at h
    · cases h
      exact .leaf trivial (.inl ⟨_, rfl⟩)
    · exact writable_adopt? h
  | .num n, _, _, h => by
    rw [decode] at h
    exact leaves_throughPointers writable_decodeNumber h
  | .str s, _, _, h => by
    rw [decode] at h
    exact leaves_throughPointers writable_decodeString h
  | .arr js, _, _, h => by
    rw [decode] at h
    refine leaves_throughPointers (fun {t v} h => ?_) h
    split at h
    · obtain ⟨vs, hvs, rfl⟩ := Option.map_eq_some_iff.1 h
      exact .slice (writable_decodeItems hz hvs)
    · split at h
      · obtain ⟨vs, hvs, rfl⟩ := Option.map_eq_some_iff.1 h
        exact .array (writable_decodeItems hz hvs)
      · cases h
    · dsimp only at h
      split at h
      · obtain ⟨vs, hvs, rfl⟩ := Option.map_eq_some_iff.1 h
        exact leaves_append_zero (writable_decodeSlots hz hvs) (hz.writable (.record _))
      · cases h
    · exact writable_adopt? h
  | .obj ms, _, _, h => by
    rw [decode] at h
    refine leaves_throughPointers (fun {t v} h => ?_) h
    split at h
    · obtain ⟨es, hes, rfl⟩ := Option.map_eq_some_iff.1 h
      exact .map (Entries.forall_foldl_put (by simp) (writable_decodeEntries hz hes))
    · obtain ⟨found, hfound, rfl⟩ := Option.map_eq_some_iff.1 h
      exact leaves_assemble (writable_decodeMembers hz hfound) (hz.writable (.record _))
    · exact writable_adopt? h

theorem writable_decodeItems (hz : Γ.ZerosEncode) : ∀ {js : List Json} {t : Ty} {vs : List Val},
    Γ.decodeItems js t = some vs → ∀ v ∈ vs, Γ.Leaves Γ.Writable v
  | [], _, _, h => by cases h; simp
  | j :: js, _, _, h => by
    simp only [decodeItems, Option.bind_eq_bind, Option.bind_eq_some_iff, Option.pure_def,
      Option.some.injEq] at h
    obtain ⟨v, hv, vs, hvs, rfl⟩ := h
    exact List.forall_mem_cons.2 ⟨writable_decode hz hv, writable_decodeItems hz hvs⟩

theorem writable_decodeSlots (hz : Γ.ZerosEncode) : ∀ {js : List Json} {ts : List Ty}
    {vs : List Val}, Γ.decodeSlots js ts = some vs → ∀ v ∈ vs, Γ.Leaves Γ.Writable v
  | [], [], _, h | [], _ :: _, _, h | _ :: _, [], _, h => by cases h; simp
  | j :: js, t :: ts, _, h => by
    simp only [decodeSlots, Option.bind_eq_bind, Option.bind_eq_some_iff, Option.pure_def,
      Option.some.injEq] at h
    obtain ⟨v, hv, vs, hvs, rfl⟩ := h
    exact List.forall_mem_cons.2 ⟨writable_decode hz hv, writable_decodeSlots hz hvs⟩

theorem writable_decodeEntries (hz : Γ.ZerosEncode) : ∀ {ms : List (String × Json)} {key : KeyTy}
    {t : Ty} {es : List (Key × Val)}, Γ.decodeEntries ms key t = some es →
      ∀ e ∈ es, Γ.Leaves Γ.Writable e.2
  | [], _, _, _, h => by cases h; simp
  | (name, j) :: ms, _, _, _, h => by
    simp only [decodeEntries, Option.bind_eq_bind, Option.bind_eq_some_iff, Option.pure_def,
      Option.some.injEq] at h
    obtain ⟨k, -, v, hv, es, hes, rfl⟩ := h
    exact List.forall_mem_cons.2 ⟨writable_decode hz hv, writable_decodeEntries hz hes⟩

theorem writable_decodeMembers (hz : Γ.ZerosEncode) : ∀ {ms : List (String × Json)}
    {types : Members Ty} {found : Members Val}, Γ.decodeMembers ms types = some found →
      ∀ m ∈ found, Γ.Leaves Γ.Writable m.2
  | [], _, _, h => by cases h; simp
  | (name, j) :: ms, _, _, h => by
    rw [decodeMembers] at h
    split at h
    · exact writable_decodeMembers hz h
    · simp only [Option.bind_eq_bind, Option.bind_eq_some_iff, Option.pure_def,
        Option.some.injEq] at h
      obtain ⟨v, hv, vs, hvs, rfl⟩ := h
      exact List.forall_mem_cons.2 ⟨writable_decode hz hv, writable_decodeMembers hz hvs⟩

end

end Schema

end DocPointer
