/-
  Documents that differ only in hidden fields.

  Of two such documents each is `Veiled` as the other: they are the same but for the contents
  of hidden fields.  The positions that a field index lists avoid hidden fields, so a walk cannot
  tell the documents apart: it stops in both for the same cause at the same place, or finds
  values that are veiled as each other again (`Similar`).

  * `follow_veiled`: down a path of fields, by induction on its route.
  * `select_veiled`: one step, and from it `seek_veiled`: walks.
  * `Veiled.eq_of_not_conceals`: there is only one value without a hidden field.
-/
import DocPointer.Proofs.Fields.Hidden
import DocPointer.Proofs.Walk.Frame

namespace DocPointer

/-! ## Positions and keys -/

section
variable {α : Type} {R : α → α → Prop} {xs ys : List α} {es fs : Entries α}

/-- At a position there are related elements of both lists, or none of either. -/
theorem rel_getElem? {i : Nat} (hlen : xs.length = ys.length)
    (h : ∀ x y, xs[i]? = some x → ys[i]? = some y → R x y) : Option.Rel R xs[i]? ys[i]? := by
  by_cases hi : i < xs.length
  · have hx := List.getElem?_eq_getElem hi
    have hy := List.getElem?_eq_getElem (hlen ▸ hi)
    rw [hx, hy]
    exact .some (h _ _ hx hy)
  · rw [List.getElem?_eq_none (Nat.le_of_not_lt hi),
      List.getElem?_eq_none (hlen ▸ Nat.le_of_not_lt hi)]
    exact .none

/-- Under a key there are related values of both maps, or none of either. -/
theorem Entries.rel_get? (hkeys : es.map Prod.fst = fs.map Prod.fst)
    (h : ∀ (i : Nat) (e f : Key × α), es[i]? = some e → fs[i]? = some f → R e.2 f.2) (k : Key) :
    Option.Rel R (get? k es) (get? k fs) := by
  induction es generalizing fs with
  | nil =>
    obtain rfl : fs = [] := by simpa using hkeys.symm
    exact .none
  | cons e es ih =>
    cases fs with
    | nil => cases hkeys
    | cons f fs =>
      obtain ⟨hkey, hkeys⟩ := List.cons.inj hkeys
      have htail := ih hkeys fun i => h (i + 1)
      rw [get?, get?, ← hkey]
      split
      · exact .some (h 0 e f rfl rfl)
      · exact htail

theorem eq_of_getElem? (hlen : xs.length = ys.length)
    (h : ∀ (i : Nat) (x y : α), xs[i]? = some x → ys[i]? = some y → y = x) : ys = xs := by
  refine List.ext_getElem hlen.symm ?_
  intro i hy hx
  exact h i _ _ (List.getElem?_eq_getElem hx) (List.getElem?_eq_getElem hy)

theorem Entries.eq_of_getElem? (hkeys : es.map Prod.fst = fs.map Prod.fst)
    (h : ∀ (i : Nat) (e f : Key × α), es[i]? = some e → fs[i]? = some f → f.2 = e.2) : fs = es := by
  refine DocPointer.eq_of_getElem? (by simpa using congrArg List.length hkeys) ?_
  intro i e f he hf
  have hkey : (es.map Prod.fst)[i]? = (fs.map Prod.fst)[i]? := by rw [hkeys]
  rw [List.getElem?_map, List.getElem?_map, he, hf] at hkey
  exact Prod.ext (Option.some.inj hkey).symm (h i e f he hf)

end

namespace Schema

/-! ## Veils -/

section
variable (Γ : Schema)

/-- The values are the same but for the contents of hidden fields. -/
inductive Veiled : Val → Val → Prop where
  | refl (v : Val) : Veiled v v
  | ptr {v w : Val} : Veiled v w → Veiled (.ptr v) (.ptr w)
  | box {v w : Val} : Veiled v w → Veiled (.box v) (.box w)
  | held {v w : Val} : Veiled v w → Veiled (.held v) (.held w)
  | slice {elem : Ty} {xs ys : List Val} : xs.length = ys.length →
      (∀ (i : Nat) (x y : Val), xs[i]? = some x → ys[i]? = some y → Veiled x y) →
        Veiled (.slice elem xs) (.slice elem ys)
  | array {elem : Ty} {xs ys : List Val} : xs.length = ys.length →
      (∀ (i : Nat) (x y : Val), xs[i]? = some x → ys[i]? = some y → Veiled x y) →
        Veiled (.array elem xs) (.array elem ys)
  | map {kind : MapKind} {key : KeyTy} {elem : Ty} {es fs : Entries Val} :
      es.map Prod.fst = fs.map Prod.fst →
      (∀ (i : Nat) (e f : Key × Val), es[i]? = some e → fs[i]? = some f → Veiled e.2 f.2) →
        Veiled (.map kind key elem es) (.map kind key elem fs)
  | record {name : String} {xs ys : List Val} : xs.length = ys.length →
      (∀ (i : Nat) (x y : Val), ¬Hides Γ.family name i → xs[i]? = some x → ys[i]? = some y →
        Veiled x y) →
        Veiled (.record name xs) (.record name ys)

/-- There is a hidden field in the value. -/
inductive Conceals : Val → Prop where
  | ptr {v : Val} : Conceals v → Conceals (.ptr v)
  | box {v : Val} : Conceals v → Conceals (.box v)
  | held {v : Val} : Conceals v → Conceals (.held v)
  | item {elem : Ty} {items : List Val} {v : Val} :
      v ∈ items → Conceals v → Conceals (.slice elem items)
  | arrayItem {elem : Ty} {items : List Val} {v : Val} :
      v ∈ items → Conceals v → Conceals (.array elem items)
  | entry {kind : MapKind} {key : KeyTy} {elem : Ty} {entries : Entries Val} {e : Key × Val} :
      e ∈ entries → Conceals e.2 → Conceals (.map kind key elem entries)
  | field {name : String} {fields : List Val} {v : Val} :
      v ∈ fields → Conceals v → Conceals (.record name fields)
  | hidden {name : String} {fields : List Val} {i : Nat} :
      Hides Γ.family name i → i < fields.length → Conceals (.record name fields)

/-- What is found in two documents: values that are the same but for hidden fields, or
    nothing, for the same cause. -/
inductive Similar {ε : Type} : Except ε Val → Except ε Val → Prop where
  | found {x y : Val} : Γ.Veiled x y → Similar (.ok x) (.ok y)
  | missed (e : ε) : Similar (.error e) (.error e)

end

variable {Γ : Schema} {v w x y : Val} {p : Pointer} {t : Token} {ts : List Token}

theorem Similar.refl {ε : Type} (a : Except ε Val) : Γ.Similar a a := by
  cases a with
  | error e => exact .missed e
  | ok x => exact .found (.refl x)

/-- Parts that are the same but for hidden fields, or none in either document. -/
theorem Similar.of_rel {ε : Type} {a b : Option Val} {e : ε} : Option.Rel Γ.Veiled a b →
    Γ.Similar (match a with | some c => .ok c | none => .error e)
      (match b with | some c => .ok c | none => .error e) := by
  intro h
  cases h with
  | none => exact .missed e
  | some hc => exact .found hc

theorem Veiled.typeOf_eq (h : Γ.Veiled v w) : v.typeOf = w.typeOf := by
  induction h with
  | ptr _ ih => exact congrArg Ty.opt ih
  | box _ ih => exact congrArg Ty.box ih
  | array hlen => exact congrArg (Ty.array · _) hlen
  | _ => rfl

theorem Veiled.target (h : Γ.Veiled v w) : Γ.Veiled v.target w.target := by
  induction h with
  | refl v => exact .refl v.target
  | ptr _ ih | box _ ih | held _ ih => exact ih
  | slice hlen h => exact .slice hlen h
  | array hlen h => exact .array hlen h
  | map hkeys h => exact .map hkeys h
  | record hlen h => exact .record hlen h

/-- **There is only one value without a hidden field.** -/
theorem Veiled.eq_of_not_conceals (h : Γ.Veiled v w) (hv : ¬Γ.Conceals v) : w = v := by
  induction h with
  | refl v => rfl
  | ptr _ ih => rw [ih fun hc => hv (.ptr hc)]
  | box _ ih => rw [ih fun hc => hv (.box hc)]
  | held _ ih => rw [ih fun hc => hv (.held hc)]
  | slice hlen _ ih =>
    rw [eq_of_getElem? hlen]
    intro i x y hx hy
    exact ih i x y hx hy fun hc => hv (.item (List.mem_of_getElem? hx) hc)
  | array hlen _ ih =>
    rw [eq_of_getElem? hlen]
    intro i x y hx hy
    exact ih i x y hx hy fun hc => hv (.arrayItem (List.mem_of_getElem? hx) hc)
  | map hkeys _ ih =>
    rw [Entries.eq_of_getElem? hkeys]
    intro i e f he hf
    exact ih i e f he hf fun hc => hv (.entry (List.mem_of_getElem? he) hc)
  | record hlen _ ih =>
    rw [eq_of_getElem? hlen]
    intro i x y hx hy
    obtain ⟨hi, -⟩ := List.getElem?_eq_some_iff.1 hx
    exact ih i x y (fun hh => hv (.hidden hh hi)) hx hy
      fun hc => hv (.field (List.mem_of_getElem? hx) hc)

/-! ## Fields -/

/-- Behind the pointers to a record there is one with the same fields, but for hidden ones. -/
theorem Veiled.fields {name : String} {fields : List Val} (h : Γ.Veiled v w)
    (hv : v.target = .record name fields) :
    ∃ fields', w.target = .record name fields' ∧
      ∀ i, ¬Hides Γ.family name i → Option.Rel Γ.Veiled fields[i]? fields'[i]? := by
  have ht := h.target
  rw [hv] at ht
  generalize w.target = u at ht
  cases ht with
  | refl => exact ⟨fields, rfl, fun i _ => rel_getElem? rfl fun x y hx hy => by
      cases hx.symm.trans hy
      exact .refl x⟩
  | record hlen h => exact ⟨_, rfl, fun i hi => rel_getElem? hlen fun x y => h i x y hi⟩

theorem Veiled.target_of_nil (hΓ : Γ.Plain) (h : Γ.Veiled v w) (hv : Γ.node v.target = .nil) :
    w.target = v.target := by
  have ht := h.target
  generalize v.target = a at hv ht
  generalize w.target = b at ht
  cases ht with
  | refl => rfl
  | record =>
    rw [hΓ.node_record] at hv
    cases hv
  | _ => cases hv

/-- **A path of fields leads to values that are the same but for hidden fields.** -/
theorem follow_veiled (hΓ : Γ.Plain) {r : String} {path : List Nat} {fields : List Val}
    (hr : Route Γ.family r path) (hm : Γ.Matched v) (hv : v.target = .record r fields)
    (h : Γ.Veiled v w) : Option.Rel Γ.Veiled (Γ.follow path v) (Γ.follow path w) := by
  induction hr generalizing v w fields with
  | @last r i name tagged hd =>
    obtain ⟨fields', hw, hfields⟩ := h.fields hv
    have hrel := hfields i (Route.last hd).not_hides
    simp only [follow, hv, hw, hΓ.node_record]
    generalize fields[i]? = a at hrel ⊢
    generalize fields'[i]? = b at hrel ⊢
    cases hrel with
    | none => exact .none
    | some hc => exact .some hc
  | @cons r s k path he hroute ih =>
    obtain ⟨fields', hw, hfields⟩ := h.fields hv
    have hwithin : (Val.record r fields).Within v := .of_target (hv ▸ .refl)
    obtain ⟨c, hc, htarget⟩ := hm.embedded hwithin he
    have hrel := hfields k (Route.cons he hroute).not_hides
    simp only [follow, hv, hw, hΓ.node_record]
    rw [hc] at hrel ⊢
    generalize fields'[k]? = b at hrel ⊢
    cases hrel with
    | @some _ c' hcc =>
      rcases htarget with hnil | ⟨below, hbelow⟩
      -- a route has a position, so both walks end at the nil
      · have hnil' := hcc.target_of_nil hΓ hnil
        cases hroute <;> simp only [Option.bind, follow, hnil, hnil'] <;> exact .none
      · refine ih (hm.mono ?_) hbelow hcc
        intro name fs hc'
        exact .of_target (hv ▸ .field (List.mem_of_getElem? hc) hc')

/-! ## One step -/

/-- A token in sequences of which the elements are the same but for hidden fields. -/
theorem selectBare_items_veiled (hΓ : Γ.Plain) {xs ys : List Val} (hv : Γ.items? v = some xs)
    (hw : Γ.items? w = some ys) (ht : v.typeOf = w.typeOf) (hlen : xs.length = ys.length)
    (h : ∀ (i : Nat) (x y : Val), xs[i]? = some x → ys[i]? = some y → Γ.Veiled x y) :
    Γ.Similar (Γ.selectBare t v) (Γ.selectBare t w) := by
  rw [hΓ.selectBare_items hv, hΓ.selectBare_items hw, ht, hlen]
  cases t.existing ys.length with
  | error e => exact .missed _
  | ok i =>
    exact .of_rel (rel_getElem? hlen (h i))

theorem selectBare_veiled (hΓ : Γ.Plain) (hnames : (Members.names Γ.records).Nodup)
    (hm : Γ.Matched v) (h : Γ.Veiled v w) :
    Γ.Similar (Γ.selectBare t v) (Γ.selectBare t w) := by
  have ht := h.typeOf_eq
  cases h with
  | refl => exact .refl _
  | ptr | box | held =>
    simp only [selectBare, node, ht]
    exact .missed _
  | slice hlen hitems => exact selectBare_items_veiled hΓ rfl rfl ht hlen hitems
  | array hlen hitems => exact selectBare_items_veiled hΓ rfl rfl ht hlen hitems
  | @map kind key elem es fs hkeys hentries =>
    simp only [selectBare, node, ht]
    cases key.ofToken t.decoded with
    | error e => exact .missed _
    | ok k => exact .of_rel (Entries.rel_get? hkeys hentries k)
  | @record name xs ys hlen hfields =>
    simp only [selectBare, hΓ.node_record, ht]
    cases hp : Γ.fieldPath name t with
    | error fault => exact .missed _
    | ok path =>
      have hroute := route_of_fieldPath hnames hp
      exact .of_rel (follow_veiled hΓ hroute hm rfl (.record hlen hfields))

/-- **A token leads to values that are the same but for hidden fields.** -/
theorem select_veiled (hΓ : Γ.Plain) (hnames : (Members.names Γ.records).Nodup)
    (hm : Γ.Matched v) (h : Γ.Veiled v w) (t : Token) :
    Γ.Similar (Γ.select t v) (Γ.select t w) := by
  have ht := h.target
  by_cases hr : ∃ bytes, v.target = .raw bytes
  · obtain ⟨bytes, hv⟩ := hr
    have hw : w.target = v.target := by
      rw [hv] at ht ⊢
      generalize w.target = u at ht
      cases ht
      rfl
    rw [select, select, opened, opened, hw]
    exact .refl _
  · rw [not_exists] at hr
    have hr' (bytes : ByteArray) : w.target ≠ .raw bytes := by
      intro hw
      rw [hw] at ht
      generalize hu : v.target = u at ht
      cases ht
      exact hr bytes hu
    rw [select_of_opened (opened_of_ne_raw hr), select_of_opened (opened_of_ne_raw hr')]
    exact selectBare_veiled hΓ hnames (hm.mono fun _ _ => .of_target) ht

/-! ## Walks -/

theorem Matched.of_select (hΓ : Γ.Plain) (hm : Γ.Matched v) (h : Γ.select t v = .ok x) :
    Γ.Matched x := by
  obtain ⟨P, hP, -⟩ := select_place hΓ h
  exact hm.mono fun _ _ => hP.within_of_within

theorem resolveTokens_veiled (hΓ : Γ.Plain) (hnames : (Members.names Γ.records).Nodup)
    (redirect : Val → Pointer → Except Stop Val) (ts : List Token) (hm : Γ.Matched v)
    (h : Γ.Veiled v w) :
    Γ.Similar (Γ.resolveTokens redirect ts v) (Γ.resolveTokens redirect ts w) := by
  induction ts generalizing v w with
  | nil => exact .found h
  | cons t ts ih =>
    have hstep := select_veiled hΓ hnames hm h t
    rw [hΓ.resolveTokens_step, hΓ.resolveTokens_step]
    generalize ha : Γ.select t v = a at hstep
    generalize Γ.select t w = b at hstep
    cases hstep with
    | found hc => exact ih (hm.of_select hΓ ha) hc
    | missed e => exact .missed _

/-- **A walk does not tell documents apart that differ only in hidden fields.** -/
theorem seek_veiled (hΓ : Γ.Plain) (hnames : (Members.names Γ.records).Nodup)
    (hm : Γ.Matched v) (h : Γ.Veiled v w) (p : Pointer) :
    Γ.Similar (Γ.seek v p) (Γ.seek w p) := by
  rw [seek, seek, find, find]
  split
  · exact resolveTokens_veiled hΓ hnames _ _ hm h
  -- text that is no pointer is refused at the document
  · simp only [hΓ.hooks_eq, Hooks.silent, h.typeOf_eq]
    exact .missed _

end Schema

end DocPointer
