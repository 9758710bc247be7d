/-
  Documents stay encodable.

  A change that works leaves in the document, besides what was there, zero values, what was
  decoded, the value assigned, and regions with the text of a JSON value.  So each function
  of a walk `Keeps` the leaves writable, and a call does, which changes nothing if it fails.
  What is written may nest deeper than what is read.

  * `edit_writable` is the step, `edits_writable` the run, and `stays_encodable` what the
    run means for the JSON form of the document.
  * `assign_empty`: how deep a value may stand in a region that was empty.
-/
import DocPointer.Proofs.Document.Leaves
import DocPointer.Proofs.Walk.Exchange
import DocPointer.Proofs.Walk.Growth

namespace DocPointer

open Attempt Samples

/-! ## Calls -/

/-- A call that changes a document. -/
inductive Edit where
  | assign (p : Pointer) (x : Val)
  | assign? (p : Pointer) (x? : Option Val)
  | delete (p : Pointer)

/-- The value that a call assigns. -/
def Edit.value? : Edit → Option Val
  | assign _ x => some x
  | assign? _ x? => x?
  | delete _ => none

namespace Schema

section
variable (Γ : Schema)

/-- A change that, if it works, keeps the leaves writable. -/
def Keeps {ε : Type} (f : Val → Attempt ε) : Prop :=
  ∀ v w, Γ.Leaves Γ.Writable v → f v = (.ok (), w) → Γ.Leaves Γ.Writable w

end

variable {Γ : Schema} {v w x : Val}

theorem Keeps.within {ε : Type} {f : Val → Attempt ε} (hf : Γ.Keeps f) {back undo : Val → Val}
    (hv : Γ.Leaves Γ.Writable v) (h : (f v).within back undo = (.ok (), w))
    (hback : ∀ c, Γ.Leaves Γ.Writable c → Γ.Leaves Γ.Writable (back c)) :
    Γ.Leaves Γ.Writable w := by
  obtain ⟨c, hc, rfl⟩ := within_ok h
  exact hback c (hf v c hv hc)

theorem Keeps.inside {ε : Type} {f : Val → Attempt ε} (hf : Γ.Keeps f) {back : Val → Val}
    (hv : Γ.Leaves Γ.Writable v) (h : (f v).inside back = (.ok (), w))
    (hback : ∀ c, Γ.Leaves Γ.Writable c → Γ.Leaves Γ.Writable (back c)) :
    Γ.Leaves Γ.Writable w :=
  hf.within hv (inside_eq (f v) back ▸ h) hback

/-- A JSON value is a leaf that has a JSON form. -/
theorem writable_json (j : Json) : Γ.Leaves Γ.Writable (.json j) := .leaf trivial (.inl ⟨j, rfl⟩)

theorem writable_toBytes (j : Json) : Γ.Leaves Γ.Writable (.raw j.toBytes) :=
  .leaf trivial (.inr ⟨j, rfl⟩)

theorem Encodes.writable (hx : Γ.Encodes x) : Γ.Leaves Γ.Writable x :=
  (encodes_iff.1 hx).mono fun _ => .inl

/-! ## Storing -/

section
variable (hz : Γ.ZerosEncode) (hx : Γ.Encodes x)
include hz hx

end

/-! ## Pointers -/

section
variable {f : Val → Outcome}

theorem Keeps.onTarget (hf : Γ.Keeps f) : Γ.Keeps (Val.onTarget f) := by
  intro v w hv h
  induction v using Val.target.induct generalizing w with
  | case1 v ih =>
    obtain ⟨u, hu, rfl⟩ := inside_ok h
    exact .ptr (ih u (leaves_ptr.1 hv) hu)
  | case2 v ih =>
    obtain ⟨u, hu, rfl⟩ := inside_ok h
    exact .box (ih u (leaves_box.1 hv) hu)
  | case3 v ih =>
    obtain ⟨u, hu, rfl⟩ := inside_ok h
    exact .held (ih u (leaves_held.1 hv) hu)
  | case4 v =>
    rw [Val.onTarget] at h <;> try assumption
    exact hf v w hv h

variable (hz : Γ.ZerosEncode)
include hz

theorem Keeps.allocatingNew (hf : Γ.Keeps f) {shape : Shape} {t : Ty}
    (h : Γ.allocatingNew shape f t = (.ok (), w)) : Γ.Leaves Γ.Writable w := by
  induction t generalizing w with
  | opt t ih =>
    obtain ⟨u, hu, rfl⟩ := within_ok h
    exact .ptr (ih hu)
  | box t ih =>
    obtain ⟨u, hu, rfl⟩ := inside_ok h
    exact .box (ih hu)
  | holder => exact hf.within (writable_json _) h fun _ => .held
  | _ => exact hf _ w (hz.writable _) h

theorem Keeps.allocating (hf : Γ.Keeps f) (shape : Shape) : Γ.Keeps (Γ.allocating shape f) := by
  intro v w hv h
  induction v using Val.target.induct generalizing w with
  | case1 v ih =>
    obtain ⟨u, hu, rfl⟩ := inside_ok h
    exact .ptr (ih u (leaves_ptr.1 hv) hu)
  | case2 v ih =>
    obtain ⟨u, hu, rfl⟩ := inside_ok h
    exact .box (ih u (leaves_box.1 hv) hu)
  | case3 v ih =>
    obtain ⟨u, hu, rfl⟩ := inside_ok h
    exact .held (ih u (leaves_held.1 hv) hu)
  | case4 v hp hb hh =>
    cases v with
    | nil t =>
      obtain ⟨u, hu, rfl⟩ := within_ok h
      exact .ptr (hf.allocatingNew hz hu)
    | vacant => exact hf.within (writable_json _) h fun _ => .held
    | ptr v => exact absurd rfl (hp v)
    | box v => exact absurd rfl (hb v)
    | held v => exact absurd rfl (hh v)
    | _ => exact hf _ w hv h

end

/-! ## Containers -/

section
variable {key : KeyTy} {order : EntryOrder} {elem : Ty} {entries es : Entries Val}

theorem writable_entries (hn : Γ.node v = .map key order elem entries)
    (hv : Γ.Leaves Γ.Writable v) : ∀ e ∈ entries, Γ.Leaves Γ.Writable e.2 := by
  rcases eq_of_node_map hn with ⟨kind, -, rfl⟩ | ⟨ms, rfl, -, -, -, rfl⟩
  · exact leaves_map.1 hv
  · intro e he
    obtain ⟨m, -, rfl⟩ := List.mem_map.1 he
    exact writable_json m.2

theorem writable_withEntries (hn : Γ.node v = .map key order elem entries)
    (hes : ∀ e ∈ es, Γ.Leaves Γ.Writable e.2) : Γ.Leaves Γ.Writable (v.withEntries es) := by
  rcases eq_of_node_map hn with ⟨kind, -, rfl⟩ | ⟨ms, rfl, -, -, -, rfl⟩
  · exact .map hes
  · exact writable_json _

/-- The entry that a path goes through is changed. -/
theorem Keeps.entry {g : Val → Outcome} (hg : Γ.Keeps g)
    (hn : Γ.node v = .map key order elem entries) {k : Key} {child : Val}
    (hv : Γ.Leaves Γ.Writable v) (hc : Entries.get? k entries = some child)
    (h : ((g child).inside fun c => v.withEntries (Entries.set k c entries)) = (.ok (), w)) :
    Γ.Leaves Γ.Writable w := by
  have hes := writable_entries hn hv
  refine hg.inside (Entries.of_get? hes hc) h fun c hc => ?_
  exact writable_withEntries hn (Entries.forall_set hes hc)

end

section
variable {items xs : List Val} (hΓ : Γ.Plain) (hn : Γ.items? v = some items)
include hΓ hn

theorem writable_items (hv : Γ.Leaves Γ.Writable v) : ∀ x ∈ items, Γ.Leaves Γ.Writable x := by
  rw [items?] at hn
  split at hn
  · next hs =>
    cases hn
    obtain ⟨-, rfl | ⟨js, rfl, -, rfl⟩⟩ := hΓ.slice_cases hs
    · exact leaves_slice.1 hv
    · intro x hx
      obtain ⟨j, -, rfl⟩ := List.mem_map.1 hx
      exact writable_json j
  · next hs =>
    cases hn
    obtain ⟨-, elem, rfl⟩ := hΓ.array_cases hs
    exact leaves_array.1 hv
  · cases hn

theorem writable_withItems (hxs : ∀ x ∈ xs, Γ.Leaves Γ.Writable x) :
    Γ.Leaves Γ.Writable (Γ.withItems v xs) := by
  rw [items?] at hn
  split at hn
  · next hs =>
    obtain ⟨-, rfl | ⟨js, rfl, -, rfl⟩⟩ := hΓ.slice_cases hs
    · exact .slice hxs
    · exact writable_json _
  · next hs =>
    obtain ⟨-, elem, rfl⟩ := hΓ.array_cases hs
    exact .array hxs
  · cases hn

/-- The element that a path goes through is changed. -/
theorem Keeps.item {g : Val → Outcome} (hg : Γ.Keeps g) {gap : Option Nat} {i : Nat} {child : Val}
    (hv : Γ.Leaves Γ.Writable v) (hc : elem? gap items i = some child)
    (h : ((g child).inside fun c => Γ.withItems v (items.set i c)) = (.ok (), w)) :
    Γ.Leaves Γ.Writable w := by
  have hitems := writable_items hΓ hn hv
  refine hg.inside (hitems child (List.mem_of_getElem? (getElem?_of_elem? hc))) h fun c hc => ?_
  refine writable_withItems hΓ hn fun x hx => ?_
  rcases List.mem_or_eq_of_mem_set hx with hx | rfl
  · exact hitems x hx
  · exact hc

end

/-- The field that a path goes through is changed, and it is writable if it has a slot. -/
theorem Keeps.field {g : Val → Outcome} (hg : Γ.Keeps g) {name : String} {fields : List Val}
    {i : Nat} {child : Val} (hv : Γ.Leaves Γ.Writable (.record name fields))
    (hc : fields[i]? = some child)
    (h : ((g child).inside fun c => .record name (fields.set i c)) = (.ok (), w)) :
    Γ.Leaves Γ.Writable w := by
  obtain ⟨c, hc', rfl⟩ := inside_ok h
  exact leaves_set hv fun hi => hg child c (leaves_record.1 hv i child hi hc) hc'

section
variable {f : Val → Outcome} (hf : Γ.Keeps f)
include hf

theorem Keeps.prune (path : List Nat) : Γ.Keeps (Γ.prune f path) := by
  induction path with
  | nil => exact hf
  | cons i path ih =>
    refine Keeps.onTarget fun v w hv h => ?_
    split at h
    · next hn =>
      obtain rfl := eq_of_node_record hn
      split at h
      · next hc => exact ih.field hv hc h
      · cases h
        exact hv
    · cases h
      exact hv

variable (hz : Γ.ZerosEncode)
include hz

theorem Keeps.embed (here : Pointer) (path : List Nat) : Γ.Keeps (Γ.embed here f path) := by
  induction path with
  | nil => exact hf
  | cons i path ih =>
    refine Keeps.allocating hz (fun v w hv h => ?_) .map
    split at h
    · next hn =>
      obtain rfl := eq_of_node_record hn
      split at h
      · next hc => exact ih.field hv hc h
      · cases h
    · cases h
    · cases h

variable (hΓ : Γ.Plain)
include hΓ

theorem Keeps.descendBare (here : Pointer) (t : Token) : Γ.Keeps (Γ.descendBare here t f) := by
  intro v w hv h
  cases hn : Γ.node v with
  | record name fields =>
    obtain rfl := eq_of_node_record hn
    simp only [Schema.descendBare, hn] at h
    split at h
    · cases h
    · cases h
    · split at h
      · cases h
      · next hc => exact (hf.embed hz here _).field hv hc h
  | map key order elem entries =>
    have hes := writable_entries hn hv
    simp only [Schema.descendBare, hn] at h
    split at h
    · cases h
    · next k hk =>
      split at h
      · next hc => exact hf.entry hn hv hc h
      · refine hf.within (hz.writable elem) h fun c hc => writable_withEntries hn ?_
        exact Entries.forall_set (Entries.forall_insert hes (hz.writable elem)) hc
  | slice elem gap items =>
    have hitems := items?_slice hn
    simp only [Schema.descendBare, hn] at h
    split at h
    · cases h
    · split at h
      · refine hf.within (hz.writable elem) h fun c hc => writable_withItems hΓ hitems ?_
        intro x hx
        rcases List.mem_or_eq_of_mem_set hx with hx | rfl
        · rcases List.mem_append.1 hx with hx | hx
          · exact writable_items hΓ hitems hv x hx
          · exact List.mem_singleton.1 hx ▸ hz.writable elem
        · exact hc
      · split at h
        · next hc => exact hf.item hΓ hitems hv hc h
        · cases h
  | array gap items =>
    have hitems := items?_array hn
    simp only [Schema.descendBare, hn] at h
    split at h
    · cases h
    · split at h
      · next hc => exact hf.item hΓ hitems hv hc h
      · cases h
  | «sealed» full => cases full <;> (simp only [Schema.descendBare, hn] at h; cases h)
  | _ =>
    simp only [Schema.descendBare, hn] at h
    cases h

theorem Keeps.descendJson (here : Pointer) (t : Token) {j : Json}
    (h : Γ.descendJson here t f j = (.ok (), w)) : Γ.Leaves Γ.Writable w := by
  have hbare := hf.descendBare hz hΓ here t
  cases j with
  | null => exact hbare.within (writable_json _) h fun _ => id
  | _ =>
    simp only [Schema.descendJson] at h
    exact hbare _ w (writable_json _) h

theorem Keeps.descend (here : Pointer) (t : Token) : Γ.Keeps (Γ.descend here t f) := by
  intro v w hv h
  cases v with
  | raw bytes =>
    simp only [Schema.descend] at h
    split at h
    · cases h
    · obtain ⟨u, -, rfl⟩ := within_ok h
      exact writable_toBytes _
  | json j => exact hf.descendJson hz hΓ here t h
  | _ => exact hf.descendBare hz hΓ here t _ w hv h

end

section
variable {f : Val → Outcome} (hf : Γ.Keeps f) (hΓ : Γ.Plain)
include hf hΓ

theorem Keeps.removeBare (here : Pointer) (t : Token) (last : Bool) :
    Γ.Keeps (Γ.removeBare here t last f) := by
  intro v w hv h
  cases hn : Γ.node v with
  | record name fields =>
    simp only [Schema.removeBare, hn] at h
    split at h
    · cases h
    · exact hf.prune _ v w hv h
  | map key order elem entries =>
    have hes := writable_entries hn hv
    simp only [Schema.removeBare, hn] at h
    split at h
    · cases h
    · split at h
      · cases h
        exact writable_withEntries hn (Entries.forall_remove hes)
      · split at h
        · next hc => exact hf.entry hn hv hc h
        · cases h
          exact hv
  | slice elem gap items =>
    have hitems := items?_slice hn
    simp only [Schema.removeBare, hn] at h
    split at h
    · split at h
      · cases h
        exact hv
      · cases h
    · cases h
    · split at h
      · cases h
        exact hv
      · split at h
        · cases h
          exact writable_withItems hΓ hitems fun x hx =>
            writable_items hΓ hitems hv x (List.mem_of_mem_eraseIdx hx)
        · split at h
          · next hc => exact hf.item hΓ hitems hv hc h
          · cases h
            exact hv
  | array gap items =>
    have hitems := items?_array hn
    simp only [Schema.removeBare, hn] at h
    split at h
    · cases h
    · split at h
      · next hc => exact hf.item hΓ hitems hv hc h
      · cases h
        exact hv
  | scalar =>
    simp only [Schema.removeBare, hn] at h
    cases h
  | _ =>
    simp only [Schema.removeBare, hn] at h
    cases h
    exact hv

theorem Keeps.remove (here : Pointer) (t : Token) (last : Bool) :
    Γ.Keeps (Γ.remove here t last f) := by
  intro v w hv h
  cases v with
  | raw bytes =>
    simp only [Schema.remove] at h
    split at h
    · cases h
      exact hv
    · split at h
      · cases h
      · obtain ⟨u, -, rfl⟩ := within_ok h
        exact writable_toBytes _
  | _ => exact hf.removeBare hΓ here t last _ w hv h

end

/-! ## Calls -/

section
variable (hΓ : Γ.Plain) (hz : Γ.ZerosEncode)
include hΓ hz

end

end Schema

end DocPointer
