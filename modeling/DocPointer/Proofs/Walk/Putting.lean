/-
  Putting a value where another one was found.

  What a walk finds is a slot of the document: a value that fits may be put there, and
  then the laws of slots hold.  They are shown from the inside out, for the end of a path
  of fields (`Schema.inlay`), for an address in a container (`putAt`), for what a token
  selects behind pointers and in a region (`lodge`), and for what a list of tokens leads
  to (`put`):

  * an assign, and a delete that goes on, put there what they make of what was there
    (`Lies` for an address, `put_spec` for a list of tokens);
  * of two values that are put in one slot the last is left (`put_put`);
  * two slots whose walks part are independent (`put_comm`).

  A region that a walk goes through is written anew by each, so the laws ask that it is
  read as what was written.  Without that, what was put in a container is opened with the
  numbers that are read in the region (`opened_put`).
-/
import DocPointer.Proofs.Walk.Frame

namespace DocPointer

namespace Val

/-- The value with `w` as what its pointers lead to. -/
def retarget : Val → Val → Val
  | ptr v, w => ptr (retarget v w)
  | box v, w => box (retarget v w)
  | held v, w => held (retarget v w)
  | _, w => w

/-- The value with `w` as what it is opened as: if it leads to a region, what is written for
    `w` is put there. -/
def enclose (v w : Val) : Val :=
  match v.target with
  | .raw _ => v.retarget (.raw w.asJson.toBytes)
  | _ => v.retarget w

variable {u v w : Val}

theorem target_retarget (v w : Val) : (v.retarget w).target = w.target := by
  induction v using target.induct with
  | case1 v ih | case2 v ih | case3 v ih => exact ih
  | case4 v => rw [retarget] <;> assumption

theorem retarget_target (v : Val) : v.retarget v.target = v := by
  induction v using target.induct with
  | case1 v ih => exact congrArg ptr ih
  | case2 v ih => exact congrArg box ih
  | case3 v ih => exact congrArg held ih
  | case4 v => rw [retarget, target] <;> assumption

/-- What pointers lead to is no pointer that leads somewhere. -/
theorem target_ne (v u : Val) : v.target ≠ ptr u ∧ v.target ≠ box u ∧ v.target ≠ held u := by
  induction v using target.induct with
  | case1 v ih | case2 v ih | case3 v ih => exact ih
  | case4 v hp hb hh =>
    rw [target]
    · exact ⟨hp u, hb u, hh u⟩
    all_goals assumption

theorem retarget_of_target (h : u.target = u) (w : Val) : u.retarget w = w := by
  cases u with
  | ptr x => exact absurd h (target_ne (ptr x) x).1
  | box x => exact absurd h (target_ne (box x) x).2.1
  | held x => exact absurd h (target_ne (held x) x).2.2
  | _ => rfl

theorem retarget_retarget (v : Val) (h : u.target = u) (w : Val) :
    (v.retarget u).retarget w = v.retarget w := by
  induction v using target.induct with
  | case1 v ih => exact congrArg ptr ih
  | case2 v ih => exact congrArg box ih
  | case3 v ih => exact congrArg held ih
  | case4 v =>
    have hv : v.target = v := by rw [target] <;> assumption
    rw [retarget_of_target hv, retarget_of_target hv, retarget_of_target h]

theorem enclose_of_ne_raw (h : ∀ bytes, v.target ≠ .raw bytes) (w : Val) :
    v.enclose w = v.retarget w := by
  rw [enclose]
  split
  · next bytes hv => exact absurd hv (h bytes)
  · rfl

theorem enclose_of_raw {bytes : ByteArray} (h : v.target = .raw bytes) (w : Val) :
    v.enclose w = v.retarget (.raw w.asJson.toBytes) := by
  rw [enclose, h]

theorem target_enclose_of_raw {bytes : ByteArray} (h : v.target = .raw bytes) (w : Val) :
    (v.enclose w).target = .raw w.asJson.toBytes := by
  rw [enclose_of_raw h, target_retarget]
  rfl

end Val

namespace Schema

section
variable (Γ : Schema)

/-- The value with `c` at the end of a path of fields. -/
def inlay (c : Val) : List Nat → Val → Val
  | [], _ => c
  | i :: path, v =>
    match Γ.node v.target with
    | .record _ fields =>
      match fields[i]? with
      | some child => v.retarget (v.target.withFields (fields.set i (inlay c path child)))
      | none => v
    | _ => v

/-- The value with `c` at an address. -/
def putAt (a : Address) (v c : Val) : Val :=
  match a with
  | .field path => Γ.inlay c path v
  | .entry k =>
    match Γ.node v with
    | .map _ _ _ entries => v.withEntries (Entries.set k c entries)
    | _ => v
  | .item i =>
    match Γ.items? v with
    | some items => Γ.withItems v (items.set i c)
    | none => v

/-- The part `c` is at an address of `v`. -/
inductive PartAt : Address → Val → Val → Prop where
  | field {v c : Val} {name : String} {fields : List Val} {path : List Nat} :
      Γ.node v = .record name fields → path ≠ [] → Γ.follow path v = some c →
        PartAt (.field path) v c
  | entry {v c : Val} {key : KeyTy} {order : EntryOrder} {elem : Ty} {entries : Entries Val}
      {k : Key} :
      Γ.node v = .map key order elem entries → Entries.get? k entries = some c →
        PartAt (.entry k) v c
  | item {v c : Val} {items : List Val} {i : Nat} :
      Γ.items? v = some items → items[i]? = some c → PartAt (.item i) v c

/-- A part that a token selects is at an address, an assign and a delete that goes on
    change it there, and put back it is the value. -/
structure Lies (t : Token) (v c : Val) (a : Address) : Prop where
  address : Γ.addressBare? t v = some a
  putAt_self : Γ.putAt a v c = v
  assigns (here : Pointer) (f : Val → Outcome) :
    Γ.descendBare here t f v = (f c).inside (Γ.putAt a v)
  deletes (here : Pointer) (f : Val → Outcome) :
    Γ.removeBare here t false f v = (f c).inside (Γ.putAt a v)

/-- The value with `c` in place of the part that a token selects. -/
def lodge (t : Token) (v c : Val) : Val :=
  match Γ.opened v with
  | .ok w =>
    match Γ.addressBare? t w with
    | some a => v.enclose (Γ.putAt a w c)
    | none => v
  | .error _ => v

/-- The value with `y` in place of what a list of tokens leads to. -/
def put : List Token → Val → Val → Val
  | [], _, y => y
  | t :: ts, v, y =>
    match Γ.select t v with
    | .ok c => Γ.lodge t v (put ts c y)
    | .error _ => v

end

variable {Γ : Schema} {t u : Token} {ts us : List Token} {v w c d c' d' x y x' y' : Val}
  {a b : Address} {f : Val → Outcome} {here : Pointer}

/-! ## Pointers -/

theorem onTarget_eq (f : Val → Outcome) (v : Val) :
    v.onTarget f = (f v.target).inside v.retarget := by
  induction v using Val.target.induct with
  | case1 v ih | case2 v ih | case3 v ih =>
    rw [Val.onTarget, ih]
    rfl
  | case4 v =>
    have ht : v.target = v := by rw [Val.target] <;> assumption
    have hr : v.retarget = id := funext (Val.retarget_of_target ht)
    rw [Val.onTarget, ht, hr]
    · rfl
    all_goals assumption

theorem allocating_eq (h : Γ.node v.target ≠ .nil) (shape : Shape) (f : Val → Outcome) :
    Γ.allocating shape f v = (f v.target).inside v.retarget := by
  induction v using Val.target.induct with
  | case1 v ih | case2 v ih | case3 v ih =>
    rw [Schema.allocating, ih h]
    rfl
  | case4 v hp hb hh =>
    cases v with
    | ptr v => exact absurd rfl (hp v)
    | box v => exact absurd rfl (hb v)
    | held v => exact absurd rfl (hh v)
    | nil | vacant => exact absurd rfl h
    | _ => rfl

theorem allocating_target (shape : Shape) (f : Val → Outcome) (v : Val) :
    Γ.allocating shape f v = (Γ.allocating shape f v.target).inside v.retarget := by
  induction v using Val.target.induct with
  | case1 v ih | case2 v ih | case3 v ih =>
    rw [allocating, ih]
    rfl
  | case4 v =>
    have hv : v.target = v := by rw [Val.target] <;> assumption
    rw [hv, funext (Val.retarget_of_target hv)]
    rfl

/-! ## Fields -/

section
variable {name : String} {fields : List Val} {path path' : List Nat} {i : Nat} {child : Val}

theorem follow_cons : Γ.follow (i :: path) v = some x ↔ ∃ name fields child,
    Γ.node v.target = .record name fields ∧ fields[i]? = some child ∧
      Γ.follow path child = some x := by
  rw [follow]
  constructor
  · intro h
    split at h
    · next name fields hn =>
      obtain ⟨child, hc, hx⟩ := Option.bind_eq_some_iff.1 h
      exact ⟨name, fields, child, hn, hc, hx⟩
    · cases h
  · rintro ⟨name, fields, child, hn, hc, hx⟩
    rw [hn]
    exact Option.bind_eq_some_iff.2 ⟨child, hc, hx⟩

section
variable (hn : Γ.node v.target = .record name fields) (hc : fields[i]? = some child)
include hn hc

theorem inlay_cons (c : Val) (path : List Nat) : Γ.inlay c (i :: path) v =
    v.retarget (v.target.withFields (fields.set i (Γ.inlay c path child))) := by
  simp only [inlay, hn, hc]

theorem target_inlay (c : Val) (path : List Nat) : (Γ.inlay c (i :: path) v).target =
    v.target.withFields (fields.set i (Γ.inlay c path child)) := by
  rw [inlay_cons hn hc, Val.target_retarget, eq_of_node_record hn]
  rfl

/-- A record with an inlay, and then another field, is the record with that field. -/
theorem retarget_inlay (c : Val) (path : List Nat) (fields' : List Val) :
    (Γ.inlay c (i :: path) v).retarget ((Γ.inlay c (i :: path) v).target.withFields fields') =
      v.retarget (v.target.withFields fields') := by
  rw [target_inlay hn hc, Val.withFields_withFields, inlay_cons hn hc, Val.retarget_retarget]
  rw [eq_of_node_record hn]
  rfl

theorem node_inlay (c : Val) (path : List Nat) : Γ.node (Γ.inlay c (i :: path) v).target =
    .record name (fields.set i (Γ.inlay c path child)) := by
  rw [target_inlay hn hc]
  exact node_withFields hn _

end

/-- An assign changes a field where it is found. -/
theorem embed_follow (h : Γ.follow path v = some c) (here : Pointer)
    (f : Val → Outcome) : Γ.embed here f path v = (f c).inside (Γ.inlay · path v) := by
  induction path generalizing v with
  | nil =>
    cases h
    rfl
  | cons i path ih =>
    obtain ⟨name, fields, child, hn, hc, h⟩ := follow_cons.1 h
    rw [embed, allocating_eq (by simp [hn])]
    simp only [hn, hc, ih h, inlay_cons hn hc]
    rfl

/-- So does a delete. -/
theorem prune_follow (h : Γ.follow path v = some c) (f : Val → Outcome) :
    Γ.prune f path v = (f c).inside (Γ.inlay · path v) := by
  induction path generalizing v with
  | nil =>
    cases h
    rfl
  | cons i path ih =>
    obtain ⟨name, fields, child, hn, hc, h⟩ := follow_cons.1 h
    rw [prune, onTarget_eq]
    simp only [hn, hc, ih h, inlay_cons hn hc]
    rfl

/-- A field that is put where it was found. -/
theorem inlay_self (h : Γ.follow path v = some c) : Γ.inlay c path v = v := by
  induction path generalizing v with
  | nil => exact (Option.some.inj h).symm
  | cons i path ih =>
    obtain ⟨name, fields, child, hn, hc, h⟩ := follow_cons.1 h
    rw [inlay_cons hn hc, ih h, set_of_getElem? hc, eq_of_node_record hn, Val.withFields,
      ← eq_of_node_record hn, Val.retarget_target]

theorem inlay_inlay (h : Γ.follow path v = some x) (c d : Val) :
    Γ.inlay d path (Γ.inlay c path v) = Γ.inlay d path v := by
  induction path generalizing v with
  | nil => rfl
  | cons i path ih =>
    obtain ⟨name, fields, child, hn, hc, h⟩ := follow_cons.1 h
    obtain ⟨hi, -⟩ := List.getElem?_eq_some_iff.1 hc
    rw [inlay_cons (node_inlay hn hc c path) (List.getElem?_set_self hi), List.set_set, ih h,
      retarget_inlay hn hc, inlay_cons hn hc]

theorem inlay_comm (hapart : Apart path path') (h : Γ.follow path v = some x)
    (h' : Γ.follow path' v = some y) (c d : Val) :
    Γ.inlay d path' (Γ.inlay c path v) = Γ.inlay c path (Γ.inlay d path' v) := by
  induction path generalizing v path' with
  | nil => exact absurd hapart (not_apart_nil _)
  | cons i path ih =>
    cases path' with
    | nil => exact absurd hapart.symm (not_apart_nil _)
    | cons j path' =>
      obtain ⟨name, fields, child, hn, hc, h⟩ := follow_cons.1 h
      obtain ⟨name', fields', child', hn', hc', h'⟩ := follow_cons.1 h'
      cases hn.symm.trans hn'
      by_cases hij : i = j
      · subst hij
        cases hc.symm.trans hc'
        obtain ⟨hi, -⟩ := List.getElem?_eq_some_iff.1 hc
        rw [inlay_cons (node_inlay hn hc c path) (List.getElem?_set_self hi),
          inlay_cons (node_inlay hn hc d path') (List.getElem?_set_self hi), List.set_set,
          List.set_set, retarget_inlay hn hc, retarget_inlay hn hc, ih hapart.of_cons h h']
      · have hj : (fields.set i (Γ.inlay c path child))[j]? = some child' := by
          rw [List.getElem?_set_ne hij, hc']
        have hi : (fields.set j (Γ.inlay d path' child'))[i]? = some child := by
          rw [List.getElem?_set_ne (Ne.symm hij), hc]
        rw [inlay_cons (node_inlay hn hc c path) hj, inlay_cons (node_inlay hn hc' d path') hi,
          retarget_inlay hn hc, retarget_inlay hn hc', List.set_comm _ _ hij]

/-- An inlay in a record is an inlay in one of its fields. -/
theorem inlay_record (hn : Γ.node v = .record name fields) (hc : fields[i]? = some child) (c : Val)
    (path : List Nat) : Γ.inlay c (i :: path) v =
      v.withFields (fields.set i (Γ.inlay c path child)) := by
  obtain rfl := eq_of_node_record hn
  exact inlay_cons hn hc c path

end

/-! ## Addresses -/

section
variable {name : String} {fields items : List Val} {key : KeyTy} {order : EntryOrder} {elem : Ty}
  {entries : Entries Val} {gap : Option Nat} {i : Nat} {k : Key}

theorem partAt_of_selectBare (hΓ : Γ.Plain) (h : Γ.selectBare t v = .ok c) :
    ∃ a, Γ.addressBare? t v = some a ∧ Γ.PartAt a v c := by
  have hitem {items : List Val} (hv : Γ.items? v = some items) :
      ∃ a, Γ.addressBare? t v = some a ∧ Γ.PartAt a v c := by
    obtain ⟨i, hi, hx⟩ := (hΓ.selectBare_item hv).1 h
    refine ⟨.item i, ?_, .item hv hx⟩
    rw [addressBare?_items hv, (Token.existing_eq_ok.1 hi).1]
    rfl
  cases hn : Γ.node v with
  | record name fields =>
    obtain ⟨path, hp, hx⟩ := (selectBare_field hn).1 h
    refine ⟨.field path, ?_, .field hn ?_ hx⟩
    · simp [addressBare?, hn, hp, Except.toOption]
    · rintro rfl
      exact fieldPath_ne_nil name t hp
  | map key order elem entries =>
    obtain ⟨k, hk, hx⟩ := (selectBare_entry hn).1 h
    exact ⟨.entry k, by simp [addressBare?, hn, hk, Except.toOption], .entry hn hx⟩
  | slice elem gap items => exact hitem (items?_slice hn)
  | array gap items => exact hitem (items?_array hn)
  | _ => simp [selectBare, hn] at h

theorem lies_field (hn : Γ.node v = .record name fields) (h : Γ.selectBare t v = .ok c) :
    ∃ a, Γ.Lies t v c a := by
  obtain ⟨path, hp, hc⟩ := (selectBare_field hn).1 h
  refine ⟨.field path, ⟨?_, inlay_self hc, ?_, ?_⟩⟩
  · simp [addressBare?, hn, hp, Except.toOption]
  · intro here f
    rw [descendBare_embed hn hp]
    exact embed_follow hc here f
  · intro here f
    simp only [removeBare, hn, hp]
    exact prune_follow hc f

theorem lies_entry (hn : Γ.node v = .map key order elem entries) (h : Γ.selectBare t v = .ok c) :
    ∃ a, Γ.Lies t v c a := by
  obtain ⟨k, hk, hc⟩ := (selectBare_entry hn).1 h
  have hput : Γ.putAt (.entry k) v = fun c => v.withEntries (Entries.set k c entries) :=
    funext fun c => by simp only [putAt, hn]
  refine ⟨.entry k, ⟨?_, ?_, ?_, ?_⟩⟩
  · simp [addressBare?, hn, hk, Except.toOption]
  · simp only [hput, Entries.set_of_get? hc, withEntries_of_node_map hn]
  · intro here f
    simp only [descendBare, hn, hk, hc, hput]
  · intro here f
    simp [removeBare, hn, hk, hc, hput]

/-- What a token finds in a sequence. -/
theorem existing_of_selectBare
    (hn : (∃ elem, Γ.node v = .slice elem gap items) ∨ Γ.node v = .array gap items)
    (h : Γ.selectBare t v = .ok c) :
    ∃ i, t.existing items.length = .ok i ∧ elem? gap items i = some c := by
  cases hi : t.existing items.length with
  | error e => rcases hn with ⟨elem, hn⟩ | hn <;> simp [selectBare, hn, hi] at h
  | ok i =>
    cases hc : elem? gap items i with
    | none => rcases hn with ⟨elem, hn⟩ | hn <;> simp [selectBare, hn, hi, hc] at h
    | some d =>
      obtain rfl : d = c := by rcases hn with ⟨elem, hn⟩ | hn <;> simpa [selectBare, hn, hi, hc] using h
      exact ⟨i, rfl, hc⟩

theorem putAt_item (hv : Γ.items? v = some items) (i : Nat) :
    Γ.putAt (.item i) v = fun c => Γ.withItems v (items.set i c) :=
  funext fun c => by simp only [putAt, hv]

theorem lies_item (hn : Γ.node v = .slice elem gap items) (h : Γ.selectBare t v = .ok c) :
    ∃ a, Γ.Lies t v c a := by
  obtain ⟨i, hi, hc⟩ := existing_of_selectBare (.inl ⟨elem, hn⟩) h
  obtain ⟨ht, hlt⟩ := Token.existing_eq_ok.1 hi
  have hne : i ≠ items.length := Nat.ne_of_lt hlt
  have hput := putAt_item (items?_slice hn) i
  refine ⟨.item i, ⟨?_, ?_, ?_, ?_⟩⟩
  · simp [addressBare?, hn, ht, Except.toOption]
  · simp only [hput, set_of_getElem? (getElem?_of_elem? hc), withItems_of_node_slice hn]
  · intro here f
    simp only [descendBare, hn, ht, hne, if_false, hc, hput]
  · intro here f
    simp [removeBare, hn, ht, hne, hc, hput]

theorem lies_arrayItem (hn : Γ.node v = .array gap items) (h : Γ.selectBare t v = .ok c) :
    ∃ a, Γ.Lies t v c a := by
  obtain ⟨i, hi, hc⟩ := existing_of_selectBare (.inr hn) h
  have hput := putAt_item (items?_array hn) i
  refine ⟨.item i, ⟨?_, ?_, ?_, ?_⟩⟩
  · simp [addressBare?, hn, (Token.existing_eq_ok.1 hi).1, Except.toOption]
  · simp only [hput, set_of_getElem? (getElem?_of_elem? hc), withItems_of_node_array hn]
  · intro here f
    simp only [descendBare, hn, hi, hc, hput]
  · intro here f
    simp only [removeBare, hn, hi, hc, hput]

theorem lies_of_selectBare (h : Γ.selectBare t v = .ok c) : ∃ a, Γ.Lies t v c a := by
  cases hn : Γ.node v with
  | record name fields => exact lies_field hn h
  | map key order elem entries => exact lies_entry hn h
  | slice elem gap items => exact lies_item hn h
  | array gap items => exact lies_arrayItem hn h
  | _ => simp [selectBare, hn] at h

/-- An assign puts a part where it is found. -/
theorem descendBare_put (ha : Γ.addressBare? t v = some a) (h : Γ.selectBare t v = .ok c)
    (hf : f c = .done d) (here : Pointer) :
    Γ.descendBare here t f v = .done (Γ.putAt a v d) := by
  obtain ⟨b, hb⟩ := lies_of_selectBare h
  obtain rfl : b = a := Option.some.inj (hb.address.symm.trans ha)
  rw [hb.assigns, hf]
  rfl

/-- So does a delete that goes on. -/
theorem removeBare_put (ha : Γ.addressBare? t v = some a) (h : Γ.selectBare t v = .ok c)
    (hf : f c = .done d) (here : Pointer) :
    Γ.removeBare here t false f v = .done (Γ.putAt a v d) := by
  obtain ⟨b, hb⟩ := lies_of_selectBare h
  obtain rfl : b = a := Option.some.inj (hb.address.symm.trans ha)
  rw [hb.deletes, hf]
  rfl

theorem fits_putAt (ha : Γ.addressBare? t v = some a) (h : Γ.selectBare t v = .ok c)
    (hfit : c.Fits c') : v.Fits (Γ.putAt a v c') := by
  obtain ⟨f, hc, hf⟩ := exists_change hfit
  exact (descendBare_step .root t v).fits hf (descendBare_put ha h hc .root)

/-- What was put is found. -/
theorem selectBare_putAt (hΓ : Γ.Plain) (hnames : (Members.names Γ.records).Nodup)
    (ha : Γ.addressBare? t v = some a) (h : Γ.selectBare t v = .ok c) (hfit : c.Fits c') :
    Γ.selectBare t (Γ.putAt a v c') = .ok c' := by
  obtain ⟨f, hc, hf⟩ := exists_change hfit
  obtain ⟨-, e, e', he, hex⟩ :=
    descendBare_exchange hΓ hnames hf (descendBare_put ha h hc .root)
  obtain ⟨rfl, hfound⟩ := hex.same rfl h
  cases hc.symm.trans he
  exact hfound

theorem items?_set (hΓ : Γ.Plain) (hv : Γ.items? v = some items) (hi : items[i]? = some c)
    (hfit : c.Fits c') :
    Γ.items? (Γ.withItems v (items.set i c')) = some (items.set i c') := by
  have hv' := hv
  rw [items?] at hv'
  split at hv'
  · next hn =>
    cases hv'
    obtain ⟨rfl, -⟩ := hΓ.slice_cases hn
    exact items?_slice (node_set_item hΓ hn hi hfit)
  · next hn =>
    cases hv'
    exact items?_array (node_set_arrayItem hΓ hn i c').2
  · cases hv'

/-- Of two values that are put at an address the last is left. -/
theorem putAt_putAt (hΓ : Γ.Plain) (h : Γ.PartAt a v c) (hfit : c.Fits c') (d : Val) :
    Γ.putAt a (Γ.putAt a v c') d = Γ.putAt a v d := by
  cases h with
  | field hn hpath hx => exact inlay_inlay hx c' d
  | entry hn hx =>
    simp only [putAt, hn, node_set_entry hn hx hfit]
    rw [Entries.set_set, Val.withEntries_withEntries]
  | item hv hx =>
    simp only [putAt, hv, items?_set hΓ hv hx hfit]
    rw [List.set_set, hΓ.withItems_withItems]

/-- A token has the same address afterwards. -/
theorem addressBare?_putAt (hΓ : Γ.Plain) (h : Γ.PartAt a v c) (hfit : c.Fits c') (u : Token) :
    Γ.addressBare? u (Γ.putAt a v c') = Γ.addressBare? u v := by
  cases h with
  | @field _ _ name fields path hn hpath hx =>
    cases path with
    | nil => exact absurd rfl hpath
    | cons i path =>
      rw [follow_record hn] at hx
      obtain ⟨child, hc, -⟩ := Option.bind_eq_some_iff.1 hx
      simp only [putAt, inlay_record hn hc, addressBare?, hn, node_withFields hn]
  | entry hn hx => simp only [putAt, addressBare?, hn, node_set_entry hn hx hfit]
  | item hv hx =>
    have hw := items?_set hΓ hv hx hfit
    simp only [putAt, hv]
    rw [addressBare?_items hv, addressBare?_items hw, List.length_set]

theorem fieldPath_of_address {path : List Nat} (h : Γ.addressBare? t v = some (.field path)) :
    ∃ name fields, Γ.node v = .record name fields ∧ Γ.fieldPath name t = .ok path := by
  cases hn : Γ.node v with
  | record name fields =>
    cases hp : Γ.fieldPath name t with
    | error e => simp [addressBare?, hn, hp, Except.toOption] at h
    | ok path' =>
      obtain rfl : path' = path := by simpa [addressBare?, hn, hp, Except.toOption] using h
      exact ⟨name, fields, rfl, hp⟩
  | _ => simp [addressBare?, hn] at h

theorem apart_of_address (hnames : (Members.names Γ.records).Nodup) {path path' : List Nat}
    (ht : Γ.addressBare? t v = some (.field path)) (hu : Γ.addressBare? u v = some (.field path'))
    (hne : path ≠ path') : Apart path path' := by
  obtain ⟨name, fields, hn, hp⟩ := fieldPath_of_address ht
  obtain ⟨name', fields', hn', hp'⟩ := fieldPath_of_address hu
  cases hn.symm.trans hn'
  exact (route_of_fieldPath hnames hp).apart (route_of_fieldPath hnames hp') hne

/-- Values that are put at different addresses are put in either order. -/
theorem putAt_comm (hΓ : Γ.Plain) (hnames : (Members.names Γ.records).Nodup)
    (ht : Γ.addressBare? t v = some a) (hu : Γ.addressBare? u v = some b) (hne : a ≠ b)
    (hc : Γ.PartAt a v c) (hd : Γ.PartAt b v d) (hfit : c.Fits c') (hfit' : d.Fits d') :
    Γ.putAt b (Γ.putAt a v c') d' = Γ.putAt a (Γ.putAt b v d') c' := by
  cases hc with
  | @field _ _ name fields path hn hpath hx =>
    cases hd with
    | @field _ _ _ _ path' hn' hpath' hy =>
      refine inlay_comm (apart_of_address hnames ht hu ?_) hx hy c' d'
      rintro rfl
      exact hne rfl
    | entry hn' => cases hn.symm.trans hn'
    | item hv => simp [items?, hn] at hv
  | entry hn hx =>
    cases hd with
    | field hn' => cases hn.symm.trans hn'
    | entry hn' hy =>
      cases hn.symm.trans hn'
      simp only [putAt, hn, node_set_entry hn hx hfit, node_set_entry hn hy hfit']
      rw [Val.withEntries_withEntries, Val.withEntries_withEntries, Entries.set_comm]
      rintro rfl
      exact hne rfl
    | item hv => simp [items?, hn] at hv
  | item hv hx =>
    cases hd with
    | field hn => simp [items?, hn] at hv
    | entry hn => simp [items?, hn] at hv
    | item hv' hy =>
      cases hv.symm.trans hv'
      simp only [putAt, hv, items?_set hΓ hv hx hfit, items?_set hΓ hv hy hfit']
      rw [hΓ.withItems_withItems, hΓ.withItems_withItems, List.set_comm]
      rintro rfl
      exact hne rfl

end

/-! ## What a value is opened as -/

/-- A value that may stand where a target stood is a target. -/
theorem target_of_fits (hn : Γ.node v.target ≠ .nil) (hfit : v.target.Fits w) :
    w.target = w := by
  have hne := Val.target_ne v
  have ht := hfit.1
  cases w with
  | ptr w =>
    cases hv : v.target with
    | nil t => exact absurd (by rw [hv]; rfl) hn
    | ptr x => exact absurd hv (hne x).1
    | _ => rw [hv] at ht; cases ht
  | box w =>
    cases hv : v.target with
    | box x => exact absurd hv (hne x).2.1
    | _ => rw [hv] at ht; cases ht
  | held w =>
    cases hv : v.target with
    | vacant => exact absurd (by rw [hv]; rfl) hn
    | held x => exact absurd hv (hne x).2.2
    | _ => rw [hv] at ht; cases ht
  | _ => rfl

theorem ne_raw_of_fits (h : ∀ bytes, v ≠ .raw bytes) (hfit : v.Fits w) (bytes : ByteArray) :
    w ≠ .raw bytes := by
  rintro rfl
  have ht := hfit.1
  cases v with
  | raw b => exact h b rfl
  | _ => cases ht

/-- A change of what a value is opened as is one of the value, for an assign; if it leaves that as
    it was, so it does the value. -/
theorem allocating_enclose (ho : Γ.opened v = .ok w) (hn : Γ.node w ≠ .nil) (shape : Shape)
    (here : Pointer) (t : Token) : ∃ undo : Val → Val, undo w = v ∧ ∀ f,
      Γ.allocating shape (fun u => Γ.descend here t f u) v =
        (Γ.descendBare here t f w).within v.enclose undo := by
  rcases opened_cases ho with ⟨rfl, hr⟩ | ⟨bytes, j, hv, he, hj, rfl⟩
  · refine ⟨v.retarget, v.retarget_target, fun f => ?_⟩
    have hdescend : Γ.descend here t f v.target = Γ.descendBare here t f v.target := by
      cases hv : v.target with
      | raw bytes => exact absurd hv (hr bytes)
      | json j =>
        cases j with
        | null => exact absurd (by rw [hv]; rfl) hn
        | _ => rfl
      | _ => rfl
    rw [allocating_eq hn, hdescend, Attempt.inside_eq, funext (Val.enclose_of_ne_raw hr)]
  · refine ⟨fun _ => v.retarget (.raw bytes), hv ▸ v.retarget_target, fun f => ?_⟩
    have hdescend : Γ.descendJson here t f j = Γ.descendBare here t f (.json j) := by
      cases j with
      | null => exact absurd rfl hn
      | _ => rfl
    rw [allocating_eq (by rw [hv]; nofun), hv, descend, regionValue?_eq he, hj,
      funext (Val.enclose_of_raw hv)]
    dsimp only
    rw [hdescend]
    generalize Γ.descendBare here t f (.json j) = out
    obtain ⟨_ | _, u⟩ := out <;> rfl

/-- And so it is for a delete. -/
theorem onTarget_enclose (ho : Γ.opened v = .ok w) (here : Pointer) (t : Token) (last : Bool) :
    ∃ undo : Val → Val, undo w = v ∧ ∀ f, v.onTarget (fun u => Γ.remove here t last f u) =
      (Γ.removeBare here t last f w).within v.enclose undo := by
  rcases opened_cases ho with ⟨rfl, hr⟩ | ⟨bytes, j, hv, he, hj, rfl⟩
  · refine ⟨v.retarget, v.retarget_target, fun f => ?_⟩
    rw [onTarget_eq, remove_eq hr, Attempt.inside_eq, funext (Val.enclose_of_ne_raw hr)]
  · refine ⟨fun _ => v.retarget (.raw bytes), hv ▸ v.retarget_target, fun f => ?_⟩
    rw [onTarget_eq, hv, remove, he, regionValue?_eq he, hj, funext (Val.enclose_of_raw hv),
      if_neg Bool.false_ne_true]
    dsimp only
    generalize Γ.removeBare here t last f (.json j) = out
    obtain ⟨_ | _, u⟩ := out <;> rfl

/-- What fits where a value was opened is no pointer that leads somewhere. -/
theorem target_of_opened (ho : Γ.opened v = .ok w) (hn : Γ.node w ≠ .nil) (hfit : w.Fits x) :
    x.target = x := by
  rcases opened_cases ho with ⟨rfl, -⟩ | ⟨bytes, j, -, -, hj, rfl⟩
  · exact target_of_fits hn hfit
  · obtain ⟨k, rfl, -⟩ := hfit.2 ⟨j, rfl, Json.wellformed_of_ofBytes? hj⟩
    rfl

section
variable {v₀ w₀ : Val} (ho : Γ.opened v = .ok v₀) (ht : w₀.target = w₀) (hfit : v₀.Fits w₀)
include ho ht hfit

theorem enclose_enclose (w₁ : Val) : (v.enclose w₀).enclose w₁ = v.enclose w₁ := by
  rcases opened_cases ho with ⟨rfl, hr⟩ | ⟨bytes, j, hv, -, -, rfl⟩
  · have hr' : ∀ bytes, (v.retarget w₀).target ≠ .raw bytes := by
      rw [Val.target_retarget, ht]
      exact ne_raw_of_fits hr hfit
    rw [Val.enclose_of_ne_raw hr, Val.enclose_of_ne_raw hr', Val.enclose_of_ne_raw hr,
      Val.retarget_retarget v ht]
  · rw [Val.enclose_of_raw (Val.target_enclose_of_raw hv w₀), Val.enclose_of_raw hv,
      Val.enclose_of_raw hv, Val.retarget_retarget v rfl]

/-- What was put in is what the value is opened as, in a region with the numbers that are read
    there. -/
theorem opened_enclose_renumber {g : Number → Number}
    (hread : ∀ bytes bytes', v.target = .raw bytes → (v.enclose w₀).target = .raw bytes' →
      Γ.RereadsBy g bytes')
    (hid : (∀ bytes, v.target ≠ .raw bytes) → g = id) :
    Γ.opened (v.enclose w₀) = .ok (w₀.renumber g) := by
  rcases opened_cases ho with ⟨rfl, hr⟩ | ⟨bytes, j, hv, -, hj, rfl⟩
  · have htarget : (v.retarget w₀).target = w₀ := (Val.target_retarget _ _).trans ht
    have hr' : ∀ bytes, (v.retarget w₀).target ≠ .raw bytes := by
      rw [htarget]
      exact ne_raw_of_fits hr hfit
    rw [Val.enclose_of_ne_raw hr, opened_of_ne_raw hr', htarget, hid hr, Val.renumber_id]
  · obtain ⟨k, rfl, hk⟩ := hfit.2 ⟨j, rfl, Json.wellformed_of_ofBytes? hj⟩
    have hw : (v.enclose (.json k)).target = .raw k.toBytes :=
      Val.target_enclose_of_raw hv (.json k)
    rw [opened, hw]
    exact (opened_region (hread bytes _ hv hw k hk rfl)).1

/-- So it is without other numbers, if a region is read as what was written. -/
theorem opened_enclose (hlegible : ∀ bytes, v.target = .raw bytes → Γ.Legible (v.enclose w₀)) :
    Γ.opened (v.enclose w₀) = .ok w₀ := by
  have h := opened_enclose_renumber (g := id) ho ht hfit
    (fun bytes bytes' hv hw => rereadsBy_id.2 (hlegible bytes hv bytes' hw)) fun _ => rfl
  rwa [Val.renumber_id] at h

end

/-- What is opened as it is has no pointers in front. -/
theorem enclose_of_opened_self (ho : Γ.opened w = .ok w) (x : Val) : w.enclose x = x := by
  have ht := target_of_opened_self ho
  rw [Val.enclose_of_ne_raw fun bytes hb => ne_raw_of_opened ho bytes (ht.symm.trans hb),
    Val.retarget_of_target ht]

/-- What is no JSON value is replaced by any value of its type. -/
theorem fits_of_typeOf (hv : v.typeOf ≠ .json) (h : w.typeOf = v.typeOf) : v.Fits w := by
  refine ⟨h, ?_⟩
  rintro ⟨j, rfl, -⟩
  exact absurd rfl hv

theorem fits_retarget (h : v.target.Fits w) : v.Fits (v.retarget w) := by
  induction v using Val.target.induct with
  | case1 v ih => exact fits_of_typeOf (by simp [Val.typeOf]) (congrArg Ty.opt (ih h).1)
  | case2 v ih => exact fits_of_typeOf (by simp [Val.typeOf]) (congrArg Ty.box (ih h).1)
  | case3 v ih => exact fits_of_typeOf (by simp [Val.typeOf]) rfl
  | case4 v =>
    have ht : v.target = v := by rw [Val.target] <;> assumption
    rw [ht] at h
    rwa [Val.retarget_of_target ht]

theorem fits_enclose (ho : Γ.opened v = .ok w) (h : w.Fits x) : v.Fits (v.enclose x) := by
  rcases opened_cases ho with ⟨rfl, hr⟩ | ⟨bytes, j, hv, -, -, rfl⟩
  · rw [Val.enclose_of_ne_raw hr]
    exact fits_retarget h
  · rw [Val.enclose_of_raw hv]
    refine fits_retarget ?_
    rw [hv]
    exact fits_of_typeOf (by simp [Val.typeOf]) rfl

theorem within_eq_ok {out : Outcome} {back undo : Val → Val} :
    out.within back undo = (.ok (), w) ↔ ∃ c, out = (.ok (), c) ∧ w = back c := by
  constructor
  · intro h
    obtain ⟨c, hc, rfl⟩ := Attempt.within_ok h
    exact ⟨c, hc, rfl⟩
  · rintro ⟨c, rfl, rfl⟩
    rfl

/-- A delete goes on in what a value is opened as. -/
theorem deleteTokens_bare (hΓ : Γ.Plain) (ho : Γ.opened v = .ok w) (r : Val → Pointer → Outcome)
    (t : Token) (ts : List Token) {v' : Val} : Γ.deleteTokens r (t :: ts) v = (.ok (), v') ↔
      ∃ w', Γ.removeBare (.ofTokens (t :: ts)) t ts.isEmpty (Γ.deleteTokens r ts) w =
        (.ok (), w') ∧ v' = v.enclose w' := by
  obtain ⟨undo, -, hrun⟩ := onTarget_enclose ho (.ofTokens (t :: ts)) t ts.isEmpty
  rw [hΓ.deleteTokens_cons, hrun, within_eq_ok]

theorem deleteTokens_enclose (hΓ : Γ.Plain) (ho : Γ.opened v = .ok w)
    (r : Val → Pointer → Outcome) (hts : ts ≠ []) {v' : Val} :
    Γ.deleteTokens r ts v = (.ok (), v') ↔
      ∃ w', Γ.deleteTokens r ts w = (.ok (), w') ∧ v' = v.enclose w' := by
  obtain ⟨t, ts, rfl⟩ := List.exists_cons_of_ne_nil hts
  have hbare := enclose_of_opened_self (opened_opened ho)
  simp only [deleteTokens_bare hΓ ho, deleteTokens_bare hΓ (opened_opened ho), hbare,
    exists_eq_right']

/-- So does an assign, unless that is nil. -/
theorem assignTokens_bare (hΓ : Γ.Plain) (ho : Γ.opened v = .ok w) (hn : Γ.node w ≠ .nil)
    (r : Val → Pointer → Val → Outcome) (t : Token) (ts : List Token) {v' : Val} :
    Γ.assignTokens r (t :: ts) v x = (.ok (), v') ↔
      ∃ w', Γ.descendBare (.ofTokens (t :: ts)) t (fun c => Γ.assignTokens r ts c x) w =
        (.ok (), w') ∧ v' = v.enclose w' := by
  obtain ⟨undo, -, hrun⟩ := allocating_enclose ho hn (Shape.ofToken t) (.ofTokens (t :: ts)) t
  rw [hΓ.assignTokens_cons, hrun, within_eq_ok]

theorem assignTokens_enclose (hΓ : Γ.Plain) (ho : Γ.opened v = .ok w) (hn : Γ.node w ≠ .nil)
    (r : Val → Pointer → Val → Outcome) (hts : ts ≠ []) {v' : Val} :
    Γ.assignTokens r ts v x = (.ok (), v') ↔
      ∃ w', Γ.assignTokens r ts w x = (.ok (), w') ∧ v' = v.enclose w' := by
  obtain ⟨t, ts, rfl⟩ := List.exists_cons_of_ne_nil hts
  have hbare := enclose_of_opened_self (opened_opened ho)
  simp only [assignTokens_bare hΓ ho hn, assignTokens_bare hΓ (opened_opened ho) hn, hbare,
    exists_eq_right']

/-- What is written in a region changes its bytes. -/
theorem alike_enclose_json {R : ByteArray → ByteArray → Prop} {bytes : ByteArray} {j : Json}
    (hv : v.target = .raw bytes) (hR : R bytes j.toBytes) : v.Alike R (v.enclose (.json j)) := by
  rw [Val.enclose_of_raw hv]
  induction v using Val.target.induct with
  | case1 v ih => exact .ptr (ih hv)
  | case2 v ih => exact .box (ih hv)
  | case3 v ih => exact .held (ih hv)
  | case4 v =>
    have ht : v.target = v := by rw [Val.target] <;> assumption
    rw [Val.retarget_of_target ht]
    rw [ht] at hv
    rw [hv]
    exact .raw hR

/-- A value that is put in where it was found changes at most how a region is written. -/
theorem alike_enclose {R : ByteArray → ByteArray → Prop} (ho : Γ.opened v = .ok w)
    (hR : ∀ bytes j, v.target = .raw bytes → Json.ofBytes? Γ.reading bytes = some j →
      R bytes j.toBytes) : v.Alike R (v.enclose w) := by
  rcases opened_cases ho with ⟨rfl, hr⟩ | ⟨bytes, j, hv, -, hj, rfl⟩
  · rw [Val.enclose_of_ne_raw hr, Val.retarget_target]
    exact .refl v
  · exact alike_enclose_json hv (hR bytes j hv hj)

/-! ## One step -/

theorem lodge_eq {v₀ : Val} (ho : Γ.opened v = .ok v₀) (ha : Γ.addressBare? t v₀ = some a)
    (c : Val) : Γ.lodge t v c = v.enclose (Γ.putAt a v₀ c) := by
  simp only [lodge, ho, ha]

theorem target_putAt {v₀ : Val} (ho : Γ.opened v = .ok v₀)
    (hc : Γ.selectBare t v₀ = .ok c) (hfit : c.Fits c') (ha : Γ.addressBare? t v₀ = some a) :
    (Γ.putAt a v₀ c').target = Γ.putAt a v₀ c' :=
  target_of_opened ho (node_ne_nil_of_selectBare hc) (fits_putAt ha hc hfit)

/-- An assign, and a delete that goes on, put there what they make of what is selected. -/
theorem lodge_spec (hΓ : Γ.Plain) (hnames : (Members.names Γ.records).Nodup)
    (h : Γ.select t v = .ok c) (hfit : c.Fits c') :
    v.Fits (Γ.lodge t v c') ∧ Γ.Exchanged t v (Γ.lodge t v c') c c' ∧
      ∀ f here, f c = (.ok (), c') →
        Γ.allocating (Shape.ofToken t) (fun u => Γ.descend here t f u) v =
            (.ok (), Γ.lodge t v c') ∧
          v.onTarget (fun u => Γ.remove here t false f u) = (.ok (), Γ.lodge t v c') := by
  obtain ⟨w, hw, hex, hstep⟩ := select_exchange hΓ hnames h hfit
  suffices hlodge : Γ.lodge t v c' = w by
    rw [hlodge]
    exact ⟨hw, hex, hstep⟩
  -- both are what an assign that makes `c'` of `c` makes of `v`
  obtain ⟨v₀, ho, hc⟩ := select_eq_ok.1 h
  obtain ⟨a, ha, -⟩ := partAt_of_selectBare hΓ hc
  have hn := node_ne_nil_of_selectBare hc
  obtain ⟨undo, -, hrun⟩ := allocating_enclose ho hn (Shape.ofToken t) .root t
  obtain ⟨f, hf, -⟩ := exists_change hfit
  have hassign := hrun f
  rw [(hstep f .root hf).1, descendBare_put ha hc hf .root] at hassign
  rw [lodge_eq ho ha]
  exact (Prod.mk.inj hassign).2.symm

theorem opened_lodge {v₀ : Val} (ho : Γ.opened v = .ok v₀) (hc : Γ.selectBare t v₀ = .ok c)
    (hfit : c.Fits c') (hlegible : ∀ bytes, v.target = .raw bytes → Γ.Legible (Γ.lodge t v c'))
    (ha : Γ.addressBare? t v₀ = some a) :
    Γ.opened (Γ.lodge t v c') = .ok (Γ.putAt a v₀ c') := by
  rw [lodge_eq ho ha] at hlegible ⊢
  exact opened_enclose ho (target_putAt ho hc hfit ha) (fits_putAt ha hc hfit) hlegible

section
variable (hΓ : Γ.Plain) {v₀ : Val} (ho : Γ.opened v = .ok v₀) (hc : Γ.selectBare t v₀ = .ok c)
  (hfit : c.Fits c') (hlegible : ∀ bytes, v.target = .raw bytes → Γ.Legible (Γ.lodge t v c'))
include hΓ ho hc hfit hlegible

/-- Of two values that are put at one address, by whichever tokens, the last is left. -/
theorem lodge_lodge (hu : Γ.addressBare? u v₀ = Γ.addressBare? t v₀) (d : Val) :
    Γ.lodge u (Γ.lodge t v c') d = Γ.lodge t v d := by
  obtain ⟨a, ha, hpart⟩ := partAt_of_selectBare hΓ hc
  have hopened := opened_lodge ho hc hfit hlegible ha
  have hu' : Γ.addressBare? u (Γ.putAt a v₀ c') = some a := by
    rw [addressBare?_putAt hΓ hpart hfit, hu, ha]
  rw [lodge_eq hopened hu', lodge_eq ho ha, lodge_eq ho ha,
    enclose_enclose ho (target_putAt ho hc hfit ha) (fits_putAt ha hc hfit),
    putAt_putAt hΓ hpart hfit]

/-- Values that are put at different addresses are put in either order. -/
theorem lodge_comm (hnames : (Members.names Γ.records).Nodup) (hd : Γ.selectBare u v₀ = .ok d)
    (hfit' : d.Fits d') (hlegible' : ∀ bytes, v.target = .raw bytes → Γ.Legible (Γ.lodge u v d'))
    (hne : Γ.addressBare? u v₀ ≠ Γ.addressBare? t v₀) :
    Γ.lodge u (Γ.lodge t v c') d' = Γ.lodge t (Γ.lodge u v d') c' := by
  obtain ⟨a, ha, hpart⟩ := partAt_of_selectBare hΓ hc
  obtain ⟨b, hb, hpart'⟩ := partAt_of_selectBare hΓ hd
  have hopened := opened_lodge ho hc hfit hlegible ha
  have hopened' := opened_lodge ho hd hfit' hlegible' hb
  have hb' : Γ.addressBare? u (Γ.putAt a v₀ c') = some b :=
    (addressBare?_putAt hΓ hpart hfit u).trans hb
  have ha' : Γ.addressBare? t (Γ.putAt b v₀ d') = some a :=
    (addressBare?_putAt hΓ hpart' hfit' t).trans ha
  have hab : a ≠ b := by
    rintro rfl
    exact hne (hb.trans ha.symm)
  rw [lodge_eq hopened hb', lodge_eq ho ha, lodge_eq hopened' ha', lodge_eq ho hb,
    enclose_enclose ho (target_putAt ho hc hfit ha) (fits_putAt ha hc hfit),
    enclose_enclose ho (target_putAt ho hd hfit' hb) (fits_putAt hb hd hfit'),
    putAt_comm hΓ hnames ha hb hab hpart hpart' hfit hfit']

end

/-! ## Walks -/

section
variable {redirect : Val → Pointer → Except Stop Val}

theorem put_cons (h : Γ.select t v = .ok c) (ts : List Token) (y : Val) :
    Γ.put (t :: ts) v y = Γ.lodge t v (Γ.put ts c y) := by
  simp only [put, h]

/-- **What a walk finds may be changed in place**, by an assign and by a delete that goes on. -/
theorem put_spec (hΓ : Γ.Plain) (hnames : (Members.names Γ.records).Nodup)
    (h : Γ.resolveTokens redirect ts v = .ok x) (hfit : x.Fits y) :
    v.Fits (Γ.put ts v y) ∧ Γ.Changed (fun a b => a = x ∧ b = y) ts v (Γ.put ts v y) ∧
      Γ.Relays ts v (Γ.put ts v y) x y := by
  induction ts generalizing v with
  | nil =>
    cases h
    exact ⟨hfit, .here ⟨rfl, rfl⟩, relays_nil x y⟩
  | cons t ts ih =>
    obtain ⟨c, hc, h⟩ := (resolveTokens_cons_ok hΓ).1 h
    obtain ⟨hfit', hchanged, hrelays⟩ := ih h
    obtain ⟨hw, hex, hstep⟩ := lodge_spec hΓ hnames hc hfit'
    rw [put_cons hc]
    exact ⟨hw, .under hex hchanged, hrelays.cons hΓ hstep⟩

theorem resolveTokens_changed (hΓ : Γ.Plain) (hnames : (Members.names Γ.records).Nodup)
    (h : Γ.resolveTokens redirect ts v = .ok x) (hfit : x.Fits y) :
    ∃ w, v.Fits w ∧ Γ.Changed (fun a b => a = x ∧ b = y) ts v w ∧ Γ.Relays ts v w x y :=
  ⟨Γ.put ts v y, put_spec hΓ hnames h hfit⟩

/-- A change at a place puts there what it makes of the part. -/
theorem put_of_place {P : Place} {out : Outcome} (hP : Γ.Holds P v x) (hout : out = P.run f)
    (hdone : out = .done w) (hput : ∀ y, f x = .done y → out = .done (Γ.put ts v y)) :
    ∃ y, f x = .done y ∧ w = Γ.put ts v y := by
  obtain ⟨y, hy, -⟩ := Attempt.within_ok (hout.symm.trans hdone)
  rw [hP.part_eq] at hy
  exact ⟨y, hy, (Prod.mk.inj (hdone.symm.trans (hput y hy))).2⟩

/-- An assign whose walk goes on from what another one finds puts there what it makes of it. -/
theorem assignTokens_put (hΓ : Γ.Plain) (hnames : (Members.names Γ.records).Nodup)
    {r : Val → Pointer → Val → Outcome} {z : Val} (hz : z.Proper)
    (h : Γ.resolveTokens redirect ts v = .ok x)
    (hrun : Γ.assignTokens r (ts ++ us) v z = (.ok (), w)) :
    ∃ y, Γ.assignTokens r us x z = (.ok (), y) ∧ x.Fits y ∧ w = Γ.put ts v y := by
  obtain ⟨P, hP, hassign, -⟩ := resolveTokens_place hΓ h
  have hfit {y : Val} (hy : Γ.assignTokens r us x z = (.ok (), y)) : x.Fits y :=
    fits_of_assignTokens hΓ hz r us hy
  obtain ⟨y, hy, hw⟩ := put_of_place hP (hassign r us z) hrun fun y hy =>
    (put_spec hΓ hnames h (hfit hy)).2.2.1 r us z hy
  exact ⟨y, hy, hfit hy, hw⟩

/-- What was put is found, if the regions on the way are read as what was written. -/
theorem resolveTokens_put (hΓ : Γ.Plain) (hnames : (Members.names Γ.records).Nodup)
    (h : Γ.resolveTokens redirect ts v = .ok x) (hfit : x.Fits y)
    (hread : Γ.Shares ts ts v → ∀ bytes, Γ.Enters ts (Γ.put ts v y) bytes → Γ.Rereads bytes) :
    Γ.resolveTokens redirect ts (Γ.put ts v y) = .ok y := by
  obtain ⟨-, hchanged, -⟩ := put_spec hΓ hnames h hfit
  obtain ⟨y', ⟨-, rfl⟩, hy⟩ := hchanged.resolve hΓ hread h
  exact hy

/-- **Of two values that are put in one slot the last is left.** -/
theorem put_put (hΓ : Γ.Plain) (hnames : (Members.names Γ.records).Nodup)
    (h : Γ.resolveTokens redirect ts v = .ok x) (hfit : x.Fits y)
    (hread : Γ.Shares ts ts v → ∀ bytes, Γ.Enters ts (Γ.put ts v y) bytes → Γ.Rereads bytes)
    (z : Val) : Γ.put ts (Γ.put ts v y) z = Γ.put ts v z := by
  induction ts generalizing v with
  | nil => rfl
  | cons t ts ih =>
    obtain ⟨c, hc, h⟩ := (resolveTokens_cons_ok hΓ).1 h
    obtain ⟨v₀, ho, hc₀⟩ := select_eq_ok.1 hc
    have hfit' := (put_spec hΓ hnames h hfit).1
    rw [put_cons hc] at hread ⊢
    have hleg := legible_of_shares hread
    have hsel := ((lodge_spec hΓ hnames hc hfit').2.1.select hleg hc).2
    rw [put_cons hsel, ih h fun hs bytes hb => hread (.later ho rfl hc₀ hs) bytes (.later hsel hb),
      lodge_lodge hΓ ho hc₀ hfit' hleg rfl, put_cons hc]

/-- If no region is on the way, nothing is asked of the reader. -/
theorem rereads_of_not_enters (hΓ : Γ.Plain) (h : ∀ bytes, ¬Γ.Enters ts v bytes)
    (hs : Γ.Shares ts ts v) (bytes : ByteArray) (_ : Γ.Enters ts w bytes) : Γ.Rereads bytes := by
  obtain ⟨bytes', hb⟩ := hs.enters hΓ
  exact absurd hb (h bytes')

/-- **What was put in a container is opened there**, with the numbers that are read in a region on
    the way. -/
theorem opened_put (hΓ : Γ.Plain) (hnames : (Members.names Γ.records).Nodup) {doc w' : Val}
    (hv : Γ.resolveTokens redirect ts doc = .ok v) (ho : Γ.opened v = .ok w)
    (ht : w'.target = w') (hfit : w.Fits w') (hus : us ≠ [])
    (hlast : ∀ bytes, Γ.Enters us v bytes → v.target = .raw bytes)
    (hread : ∀ bytes, Γ.Enters (ts ++ us) (Γ.put ts doc (v.enclose w')) bytes →
      Γ.RereadsBy (Number.reread Γ.reading.rounding) bytes) :
    ∃ v' g, g = Γ.renumbering (ts ++ us) doc (Γ.put ts doc (v.enclose w')) ∧
      Γ.resolveTokens redirect ts (Γ.put ts doc (v.enclose w')) = .ok v' ∧
      Γ.opened v' = .ok (w'.renumber g) ∧ (w.typeOf ≠ .json → g = id) := by
  have hfit' := fits_enclose ho hfit
  by_cases hin : ∃ bytes, Γ.Enters ts doc bytes
  -- in a region there are only JSON values
  · obtain ⟨bytes, hin⟩ := hin
    have hrenumber (b : ByteArray) (hb : Γ.Enters ts (Γ.put ts doc (v.enclose w')) b) :=
      rereadsBy_renumbering (hin.append us) (hb.append us) (hread b (hb.append us))
    obtain ⟨j, rfl⟩ := hin.json hΓ hv
    obtain rfl : .json j = w := Except.ok.inj ho
    obtain ⟨y, ⟨-, rfl⟩, hy⟩ := (put_spec hΓ hnames hv hfit').2.1.resolve_of_enters hΓ hrenumber
      (shares_of_enters hin) hv
    obtain ⟨k, rfl⟩ := Val.eq_json_of_typeOf hfit.1
    exact ⟨_, _, rfl, hy, rfl, fun hne => absurd rfl hne⟩
  -- what is put is found; it may itself lead to a region
  · have hnot := not_exists.1 hin
    have hfound := resolveTokens_put hΓ hnames hv hfit' (rereads_of_not_enters hΓ hnot)
    have hid (hr : ∀ bytes, v.target ≠ .raw bytes) :
        Γ.renumbering (ts ++ us) doc (Γ.put ts doc (v.enclose w')) = id := by
      refine renumbering_of_not_enters (fun bytes hb => ?_) _
      rcases hb.of_append hΓ hv with hb | hb
      · exact hnot bytes hb
      · exact hr bytes (hlast bytes hb)
    refine ⟨_, _, rfl, hfound, opened_enclose_renumber ho ht hfit ?_ hid, ?_⟩
    · intro bytes bytes' hb hb'
      have hin := enters_of_resolveTokens hΓ hv (enters_of_raw hus hb)
      have hin' := enters_of_resolveTokens hΓ hfound (enters_of_raw hus hb')
      exact rereadsBy_renumbering hin hin' (hread _ hin')
    · intro hne
      rcases opened_cases ho with ⟨-, hr⟩ | ⟨-, j, -, -, -, rfl⟩
      · exact hid hr
      · exact absurd rfl hne

/-- **Slots whose walks part are independent**: values are put in them in either order. -/
theorem put_comm (hΓ : Γ.Plain) (hnames : (Members.names Γ.records).Nodup)
    (hd : Γ.Diverge ts us v) (hx : Γ.resolveTokens redirect ts v = .ok x)
    (hy : Γ.resolveTokens redirect us v = .ok y) (hfit : x.Fits x') (hfit' : y.Fits y')
    (hlegible : ∀ bytes, Γ.Enters ts (Γ.put ts v x') bytes → Γ.Rereads bytes)
    (hlegible' : ∀ bytes, Γ.Enters us (Γ.put us v y') bytes → Γ.Rereads bytes) :
    Γ.put us (Γ.put ts v x') y' = Γ.put ts (Γ.put us v y') x' := by
  induction ts generalizing us v with
  | nil => exact hd.elim
  | cons t ts ih =>
    cases us with
    | nil => exact hd.elim
    | cons u us =>
      obtain ⟨c, hc, hx⟩ := (resolveTokens_cons_ok hΓ).1 hx
      obtain ⟨d, hd', hy⟩ := (resolveTokens_cons_ok hΓ).1 hy
      have hfitc := (put_spec hΓ hnames hx hfit).1
      have hfitd := (put_spec hΓ hnames hy hfit').1
      rw [put_cons hc] at hlegible ⊢
      rw [put_cons hd'] at hlegible' ⊢
      have hleg (bytes : ByteArray) (_ : v.target = .raw bytes) :
          Γ.Legible (Γ.lodge t v (Γ.put ts c x')) := fun _ hb => hlegible _ (.here hb)
      have hleg' (bytes : ByteArray) (_ : v.target = .raw bytes) :
          Γ.Legible (Γ.lodge u v (Γ.put us d y')) := fun _ hb => hlegible' _ (.here hb)
      have hex := (lodge_spec hΓ hnames hc hfitc).2.1
      have hex' := (lodge_spec hΓ hnames hd' hfitd).2.1
      obtain ⟨v₀, ho, ha | ⟨ha, e, he, hd⟩⟩ := diverge_cons.1 hd
      · have hc₀ : Γ.selectBare t v₀ = .ok c := (select_of_opened ho t).symm.trans hc
        have hd₀ : Γ.selectBare u v₀ = .ok d := (select_of_opened ho u).symm.trans hd'
        have hu := (hex.select_other hleg ho ha (.inl ⟨c, hc⟩)).trans hd'
        have ht := (hex'.select_other hleg' ho (Ne.symm ha) (.inl ⟨d, hd'⟩)).trans hc
        rw [put_cons hu, put_cons ht]
        exact lodge_comm hΓ ho hc₀ hfitc hleg hnames hd₀ hfitd hleg' ha
      · have hc₀ : Γ.selectBare t v₀ = .ok c := (select_of_opened ho t).symm.trans hc
        have hd₀ : Γ.selectBare u v₀ = .ok d := (select_of_opened ho u).symm.trans hd'
        obtain rfl : c = d := by
          have hcd := (selectBare_of_address hΓ ha hd₀).symm.trans hc₀
          cases hcd
          rfl
        cases he.symm.trans hd₀
        have hu := (hex.select_same hleg ho ha hd₀).2
        have ht := (hex'.select_same hleg' ho ha.symm hc₀).2
        have hsel := (hex.select hleg hc).2
        have hsel' := (hex'.select hleg' hd').2
        rw [put_cons hu, put_cons ht, lodge_lodge hΓ ho hc₀ hfitc hleg ha,
          lodge_lodge hΓ ho hd₀ hfitd hleg' ha.symm,
          ih hd hx hy (fun bytes hb => hlegible bytes (.later hsel hb))
            fun bytes hb => hlegible' bytes (.later hsel' hb)]
        simp only [lodge, ho, ha]

end

end Schema

end DocPointer
