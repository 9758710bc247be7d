/-
  The last assign wins.

  A change `g` supersedes a change `f` if it makes of what `f` left what it makes of what
  was there before (`Supersedes`).  Whatever a step of `f` has made on the way is there when
  `g` comes, which then takes it as it is where it would have made it: each step down keeps
  one change superseding the other, with a lemma for each kind of step.  At the end, what a
  slot takes depends on its type only (`store_of_fill`, `fill_of_store`).

  * `assign_assign`: an assign that follows another one at the same pointer leaves what it
    leaves by itself.
-/
import DocPointer.Proofs.Walk.Composition
import DocPointer.Proofs.Walk.Region

namespace DocPointer

theorem Val.withEntries_withEntries (v : Val) (es es' : Entries Val) :
    (v.withEntries es).withEntries es' = v.withEntries es' := by
  cases v <;> rfl

theorem Val.withFields_withFields (v : Val) (fs fs' : List Val) :
    (v.withFields fs).withFields fs' = v.withFields fs' := by
  cases v <;> rfl

namespace Schema

open Samples

/-- What `f` leaves fits where it was found, and `g` makes of it what it makes of what was
    there before. -/
structure Supersedes (g f : Val → Outcome) : Prop where
  fits {v u : Val} : f v = (.ok (), u) → v.Fits u
  again {v u w : Val} : f v = (.ok (), u) → g v = (.ok (), w) → g u = (.ok (), w)

variable {Γ : Schema} {f g : Val → Outcome} {v u w x y : Val}

/-! ## Slots -/

/-- A new slot takes what a slot of its type takes. -/
theorem fill_of_store (h : Γ.store v x = (.ok (), w)) : Γ.fill v.typeOf x = (.ok (), w) := by
  fun_induction Γ.store v x generalizing w with
  | case1 v u ho =>
    cases h
    rw [fill.eq_def, ho]
    rfl
  | case2 => cases h
  | case3 t ho =>
    rw [fill.eq_def, ho]
    exact h
  | case4 v ho ih | case5 v ho ih =>
    obtain ⟨u, hu, rfl⟩ := Attempt.inside_ok h
    rw [fill.eq_def, ho]
    simp only [Val.typeOf, ih hu]
    rfl
  | case6 v hn hp hb ho =>
    obtain ⟨ht, j, hj, rfl⟩ := settle_ok h
    rw [fill.eq_def, ho, ht]
    simp only [settle, zero, settleBare, node, hj]
    rfl

/-- A slot takes what a new slot of its type takes. -/
theorem store_of_fill (h : Γ.fill v.typeOf x = (.ok (), w)) : Γ.store v x = (.ok (), w) := by
  generalize ht : v.typeOf = t at h
  fun_induction Γ.fill t x generalizing v w with
  | case1 t u ho =>
    cases h
    rw [store.eq_def, ht, ho]
    rfl
  | case2 => cases h
  | case3 t ho ih =>
    cases v with
    | nil s =>
      cases ht
      rw [store.eq_def, Val.typeOf, ho]
      exact h
    | ptr v =>
      cases ht
      obtain ⟨u, hu, rfl⟩ := Attempt.within_ok h
      rw [store.eq_def, Val.typeOf, ho]
      simp only [ih rfl hu]
      rfl
    | _ => cases ht
  | case4 t ho ih =>
    cases v with
    | box v =>
      cases ht
      obtain ⟨u, hu, rfl⟩ := Attempt.inside_ok h
      rw [store.eq_def, Val.typeOf, ho]
      simp only [ih rfl hu]
      rfl
    | _ => cases ht
  | case5 t hopt hbox ho =>
    obtain ⟨hraw, j, hj, rfl⟩ := settle_ok h
    rw [typeOf_zero] at hraw
    rw [hraw] at ho ht
    cases v with
    | raw bytes =>
      rw [store.eq_def, Val.typeOf, ho]
      simp only [settle, settleBare, node, hj]
      rfl
    | _ => cases ht

/-- A slot for JSON holds the JSON form of what it takes. -/
theorem encode_of_store {i : Json} (h : Γ.store (.json i) x = (.ok (), w)) :
    ∃ j, Γ.encode x = some j ∧ w = .json j := by
  obtain ⟨j, rfl⟩ := Val.eq_json_of_typeOf (typeOf_store h)
  refine ⟨j, ?_, rfl⟩
  cases hx : Γ.encode x with
  | some k =>
    rw [store_json hx] at h
    cases h
    rfl
  | none =>
    -- a value without a JSON form is refused, and no slot for JSON is a region
    have hadopt : Γ.adopts? .json x = none := by
      have ht : x.typeOf ≠ .json := by
        intro ht
        obtain ⟨k, rfl⟩ := Val.eq_json_of_typeOf ht
        cases hx
      simp only [adopts?, ht, if_false, hx, Option.map_none]
    have hoffer (v : Val) : Γ.offer .json x ≠ some (.ok v) := by
      cases x with
      | raw bytes =>
        have hb : Γ.regionValue? bytes = none := hx
        simp [offer, hadopt, hb]
      | json k => cases hx
      | _ => simp [offer, hadopt]
    rw [store.eq_def, Val.typeOf] at h
    split at h
    · next v ho => exact absurd ho (hoffer v)
    · cases h
    · cases (settle_ok h).1

/-! ## Pointers -/

/-- In front of a value that is no pointer nothing is allocated. -/
theorem allocating_of_typeOf (ho : ∀ t, u.typeOf ≠ .opt t) (hb : ∀ t, u.typeOf ≠ .box t)
    (hh : u.typeOf ≠ .holder) (shape : Shape) (g : Val → Outcome) :
    Γ.allocating shape g u = g u := by
  cases u with
  | nil t => exact absurd rfl (ho t)
  | ptr v => exact absurd rfl (ho v.typeOf)
  | box v => exact absurd rfl (hb v.typeOf)
  | vacant | held v => exact absurd rfl hh
  | _ => rfl

theorem Supersedes.container (h : Supersedes g f) {shape : Shape}
    (hu : f (.json shape.container) = (.ok (), u)) (hw : g (.json shape.container) = (.ok (), w)) :
    Γ.allocating shape g u = (.ok (), w) := by
  obtain ⟨j, rfl⟩ := eq_json_of_fits (h.fits hu) rfl
  exact h.again hu hw

theorem Supersedes.allocatingNew (h : Supersedes g f) {shape : Shape} {t : Ty}
    (hu : Γ.allocatingNew shape f t = (.ok (), u)) (hw : Γ.allocatingNew shape g t = (.ok (), w)) :
    Γ.allocating shape g u = (.ok (), w) := by
  induction t generalizing u w with
  | opt t ih =>
    obtain ⟨u', hu', rfl⟩ := Attempt.within_ok hu
    obtain ⟨w', hw', rfl⟩ := Attempt.within_ok hw
    rw [Schema.allocating, ih hu' hw']
    rfl
  | box t ih =>
    obtain ⟨u', hu', rfl⟩ := Attempt.inside_ok hu
    obtain ⟨w', hw', rfl⟩ := Attempt.inside_ok hw
    rw [Schema.allocating, ih hu' hw']
    rfl
  | holder =>
    obtain ⟨u', hu', rfl⟩ := Attempt.within_ok hu
    obtain ⟨w', hw', rfl⟩ := Attempt.within_ok hw
    rw [Schema.allocating, h.container hu' hw']
    rfl
  | _ =>
    have ht := (h.fits hu).1
    rw [typeOf_zero] at ht
    rw [allocating_of_typeOf (by simp [ht]) (by simp [ht]) (by simp [ht])]
    exact h.again hu hw

theorem Supersedes.allocating (h : Supersedes g f) (shape : Shape) :
    Supersedes (Γ.allocating shape g) (Γ.allocating shape f) := by
  refine ⟨(allocating_step shape _).fits h.fits, ?_⟩
  intro v u w hu hw
  induction v using Val.target.induct generalizing u w with
  | case1 v ih | case2 v ih | case3 v ih =>
    obtain ⟨u', hu', rfl⟩ := Attempt.inside_ok hu
    obtain ⟨w', hw', rfl⟩ := Attempt.inside_ok hw
    rw [Schema.allocating, ih hu' hw']
    rfl
  | case4 v hp hb hh =>
    cases v with
    | nil t =>
      obtain ⟨u', hu', rfl⟩ := Attempt.within_ok hu
      obtain ⟨w', hw', rfl⟩ := Attempt.within_ok hw
      rw [Schema.allocating, h.allocatingNew hu' hw']
      rfl
    | vacant =>
      obtain ⟨u', hu', rfl⟩ := Attempt.within_ok hu
      obtain ⟨w', hw', rfl⟩ := Attempt.within_ok hw
      rw [Schema.allocating, h.container hu' hw']
      rfl
    | ptr v => exact absurd rfl (hp v)
    | box v => exact absurd rfl (hb v)
    | held v => exact absurd rfl (hh v)
    | _ =>
      have ht := (h.fits hu).1
      rw [Val.typeOf] at ht
      rw [allocating_of_typeOf (by simp [ht]) (by simp [ht]) (by simp [ht])]
      exact h.again hu hw

/-! ## Fields -/

/-- A field that `f` has changed is the one that `g` changes. -/
theorem Supersedes.field (h : Supersedes g f) {child : Val} {name : String} {fields : List Val}
    {i : Nat} (hv : Γ.node v = .record name fields) (hc : fields[i]? = some child)
    (hu : (f child).inside (fun c => v.withFields (fields.set i c)) = (.ok (), u))
    (hw : (g child).inside (fun c => v.withFields (fields.set i c)) = (.ok (), w)) :
    ∃ c fields', Γ.node u = .record name fields' ∧ fields'[i]? = some c ∧
      (g c).inside (fun c => u.withFields (fields'.set i c)) = (.ok (), w) := by
  obtain ⟨c, hfc, rfl⟩ := Attempt.inside_ok hu
  obtain ⟨d, hgd, rfl⟩ := Attempt.inside_ok hw
  obtain ⟨hi, -⟩ := List.getElem?_eq_some_iff.1 hc
  refine ⟨c, fields.set i c, node_withFields hv _, List.getElem?_set_self hi, ?_⟩
  rw [h.again hfc hgd, Attempt.inside, List.set_set, Val.withFields_withFields]

theorem Supersedes.embed (h : Supersedes g f) (here : Pointer) (path : List Nat) :
    Supersedes (Γ.embed here g path) (Γ.embed here f path) := by
  induction path with
  | nil => exact h
  | cons i path ih =>
    refine Supersedes.allocating ⟨?_, ?_⟩ .map
    · intro v u hu
      split at hu
      · next name fields hn =>
        split at hu
        · next child hc =>
          obtain ⟨c, hfc, rfl⟩ := Attempt.inside_ok hu
          exact (of_field hn hc).fits_back (ih.fits hfc)
        · cases hu
      · cases hu
      · cases hu
    · intro v u w hu hw
      cases hn : Γ.node v with
      | record name fields =>
        cases hc : fields[i]? with
        | none =>
          simp only [hn, hc] at hu
          cases hu
        | some child =>
          simp only [hn, hc] at hu hw
          obtain ⟨c, fields', hn', hc', hgc⟩ := ih.field hn hc hu hw
          simp only [hn', hc']
          exact hgc
      | _ =>
        simp only [hn] at hu
        cases hu

/-! ## One step -/

section
variable {here : Pointer} {t : Token} {child c d : Val} {name : String} {fields items : List Val}
  {key : KeyTy} {order : EntryOrder} {elem : Ty} {entries : Entries Val} {gap : Option Nat}
  {k : Key} {i : Nat}

theorem Supersedes.descend_field (h : Supersedes g f) (hv : Γ.node v = .record name fields)
    (hu : Γ.descendBare here t f v = (.ok (), u)) (hw : Γ.descendBare here t g v = (.ok (), w)) :
    Γ.descendBare here t g u = (.ok (), w) := by
  cases hp : Γ.fieldPath name t with
  | error fault =>
    simp only [descendBare, hv, hp] at hu
    cases hu
  | ok path =>
    cases path with
    | nil =>
      simp only [descendBare, hv, hp] at hu
      cases hu
    | cons i below =>
      cases hc : fields[i]? with
      | none =>
        simp only [descendBare, hv, hp, hc] at hu
        cases hu
      | some child =>
        simp only [descendBare, hv, hp, hc] at hu hw
        obtain ⟨c, fields', hn, hc', hgc⟩ := (h.embed here below).field hv hc hu hw
        simp only [descendBare, hn, hp, hc']
        exact hgc

/-- A change of an entry that was set before. -/
theorem descend_set_entry
    (hn : Γ.node (v.withEntries (Entries.set k c entries)) =
      .map key order elem (Entries.set k c entries))
    (hk : key.ofToken t.decoded = .ok k) (hc : Entries.get? k entries = some child)
    (hg : g c = (.ok (), d)) :
    Γ.descendBare here t g (v.withEntries (Entries.set k c entries)) =
      .done (v.withEntries (Entries.set k d entries)) := by
  have hset : Entries.get? k (Entries.set k c entries) = some c := Entries.get?_set_self hc
  simp only [descendBare, hn, hk, hset, hg, Attempt.inside]
  rw [Entries.set_set, Val.withEntries_withEntries]
  rfl

theorem Supersedes.descend_entry (h : Supersedes g f) (hv : Γ.node v = .map key order elem entries)
    (hu : Γ.descendBare here t f v = (.ok (), u)) (hw : Γ.descendBare here t g v = (.ok (), w)) :
    Γ.descendBare here t g u = (.ok (), w) := by
  cases hk : key.ofToken t.decoded with
  | error e =>
    simp only [descendBare, hv, hk] at hu
    cases hu
  | ok k =>
    cases hc : Entries.get? k entries with
    | some child =>
      simp only [descendBare, hv, hk, hc] at hu hw
      obtain ⟨c, hfc, rfl⟩ := Attempt.inside_ok hu
      obtain ⟨d, hgd, rfl⟩ := Attempt.inside_ok hw
      exact descend_set_entry (node_set_entry hv hc (h.fits hfc)) hk hc (h.again hfc hgd)
    | none =>
      simp only [descendBare, hv, hk, hc] at hu hw
      obtain ⟨c, hfc, rfl⟩ := Attempt.within_ok hu
      obtain ⟨d, hgd, rfl⟩ := Attempt.within_ok hw
      exact descend_set_entry (node_set_newEntry hv hk hc (h.fits hfc)) hk
        (Entries.get?_insert_self order _ hc) (h.again hfc hgd)

theorem Plain.withItems_withItems (hΓ : Γ.Plain) (v : Val) (xs ys : List Val) :
    Γ.withItems (Γ.withItems v xs) ys = Γ.withItems v ys := by
  cases v with
  | record name fields => simp only [withItems, hΓ.presentation]
  | _ => rfl

/-- A change of an element that was set before. -/
theorem descend_set_item (hΓ : Γ.Plain)
    (hn : Γ.node (Γ.withItems v (items.set i c)) = .slice elem none (items.set i c))
    (ht : t.index items.length = .ok i) (hi : i < items.length) (hg : g c = (.ok (), d)) :
    Γ.descendBare here t g (Γ.withItems v (items.set i c)) =
      .done (Γ.withItems v (items.set i d)) := by
  have hset : elem? none (items.set i c) i = some c := List.getElem?_set_self hi
  simp only [descendBare, hn, List.length_set, ht, Nat.ne_of_lt hi, if_false, hset, hg,
    Attempt.inside]
  rw [List.set_set, hΓ.withItems_withItems]
  rfl

theorem Supersedes.descend_item (h : Supersedes g f) (hΓ : Γ.Plain) (ha : t.isAppend = false)
    (hv : Γ.node v = .slice elem gap items) (hu : Γ.descendBare here t f v = (.ok (), u))
    (hw : Γ.descendBare here t g v = (.ok (), w)) : Γ.descendBare here t g u = (.ok (), w) := by
  cases ht : t.index items.length with
  | error e =>
    simp only [descendBare, hv, ht] at hu
    cases hu
  | ok i =>
    by_cases hi : i = items.length
    -- the element that `f` has added is there for `g`
    · subst hi
      simp only [descendBare, hv, ht, if_true] at hu hw
      obtain ⟨c, hfc, rfl⟩ := Attempt.within_ok hu
      obtain ⟨d, hgd, rfl⟩ := Attempt.within_ok hw
      have hlt : items.length < (items ++ [Γ.zero elem]).length := by simp
      have ht' := (Token.existing_eq_ok.1 (Token.existing_of_index ha ht hlt)).1
      exact descend_set_item hΓ (node_push hΓ hv (h.fits hfc)) ht' hlt (h.again hfc hgd)
    · cases hc : elem? gap items i with
      | none =>
        simp only [descendBare, hv, ht, hi, hc, if_false] at hu
        cases hu
      | some child =>
        simp only [descendBare, hv, ht, hi, hc, if_false] at hu hw
        obtain ⟨c, hfc, rfl⟩ := Attempt.inside_ok hu
        obtain ⟨d, hgd, rfl⟩ := Attempt.inside_ok hw
        obtain ⟨hlt, -⟩ := List.getElem?_eq_some_iff.1 (getElem?_of_elem? hc)
        exact descend_set_item hΓ (node_set_item hΓ hv hc (h.fits hfc)) ht hlt (h.again hfc hgd)

theorem Supersedes.descend_arrayItem (h : Supersedes g f) (hΓ : Γ.Plain)
    (hv : Γ.node v = .array gap items) (hu : Γ.descendBare here t f v = (.ok (), u))
    (hw : Γ.descendBare here t g v = (.ok (), w)) : Γ.descendBare here t g u = (.ok (), w) := by
  cases ht : t.existing items.length with
  | error e =>
    simp only [descendBare, hv, ht] at hu
    cases hu
  | ok i =>
    cases hc : elem? gap items i with
    | none =>
      simp only [descendBare, hv, ht, hc] at hu
      cases hu
    | some child =>
      simp only [descendBare, hv, ht, hc] at hu hw
      obtain ⟨c, hfc, rfl⟩ := Attempt.inside_ok hu
      obtain ⟨d, hgd, rfl⟩ := Attempt.inside_ok hw
      obtain ⟨-, hlt⟩ := Token.existing_eq_ok.1 ht
      have hset : elem? none (items.set i c) i = some c := List.getElem?_set_self hlt
      simp only [descendBare, (node_set_arrayItem hΓ hv i c).2, List.length_set, ht, hset,
        h.again hfc hgd, Attempt.inside]
      rw [List.set_set, hΓ.withItems_withItems]

end

theorem Supersedes.descendBare (h : Supersedes g f) (hΓ : Γ.Plain) (here : Pointer) {t : Token}
    (ha : t.isAppend = false) :
    Supersedes (Γ.descendBare here t g) (Γ.descendBare here t f) := by
  refine ⟨(descendBare_step here t _).fits h.fits, ?_⟩
  intro v u w hu hw
  cases hv : Γ.node v with
  | record name fields => exact h.descend_field hv hu hw
  | map key order elem entries => exact h.descend_entry hv hu hw
  | slice elem gap items => exact h.descend_item hΓ ha hv hu hw
  | array gap items => exact h.descend_arrayItem hΓ hv hu hw
  | «sealed» full => cases full <;> simp only [Schema.descendBare, hv] at hu <;> cases hu
  | _ =>
    simp only [Schema.descendBare, hv] at hu
    cases hu

/-- A change of a JSON value leaves one, and null no more. -/
theorem Supersedes.descendJson (h : Supersedes g f) (hΓ : Γ.Plain) (here : Pointer) {t : Token}
    (ha : t.isAppend = false) {j : Json} (hu : Γ.descendJson here t f j = (.ok (), u))
    (hw : Γ.descendJson here t g j = (.ok (), w)) :
    ∃ k, u = .json k ∧ Γ.descendJson here t g k = (.ok (), w) := by
  have hbare {i : Json} (hu : Γ.descendBare here t f (.json i) = (.ok (), u))
      (hw : Γ.descendBare here t g (.json i) = (.ok (), w)) :
      ∃ k, u = .json k ∧ Γ.descendJson here t g k = (.ok (), w) := by
    have hs := h.descendBare hΓ here ha
    have hagain := hs.again hu hw
    obtain ⟨k, rfl⟩ := eq_json_of_fits (hs.fits hu) rfl
    refine ⟨k, rfl, ?_⟩
    cases k with
    | null => cases hagain
    | _ => exact hagain
  cases j with
  | null =>
    obtain ⟨u', hu', rfl⟩ := Attempt.within_ok hu
    obtain ⟨w', hw', rfl⟩ := Attempt.within_ok hw
    exact hbare hu' hw'
  | _ =>
    simp only [Schema.descendJson] at hu hw
    exact hbare hu hw

theorem Supersedes.descend (h : Supersedes g f) (hΓ : Γ.Plain) (hf : Γ.Faithful) (here : Pointer)
    {t : Token} (ha : t.isAppend = false) :
    Supersedes (Γ.descend here t g) (Γ.descend here t f) := by
  refine ⟨(descend_step here t _).fits h.fits, ?_⟩
  intro v u w hu hw
  cases v with
  | raw bytes =>
    cases hj : Γ.regionValue? bytes with
    | none =>
      simp only [Schema.descend, hj] at hu
      cases hu
    | some j =>
      simp only [Schema.descend, hj] at hu hw
      obtain ⟨u', hu', rfl⟩ := Attempt.within_ok hu
      obtain ⟨w', hw', rfl⟩ := Attempt.within_ok hw
      obtain ⟨k, rfl, hk⟩ := h.descendJson hΓ here ha hu' hw'
      -- what `f` has written is read as what it was written for
      have hfit := (descendJson_step here t j).fits h.fits hu'
      have hwell := hfit.2 ⟨j, rfl, wellformed_of_regionValue? hj⟩
      have hread := (opened_toBytes hf (Val.isJson_json.1 hwell)).2
      simp only [Schema.descend, Val.asJson, hread, hk]
      rfl
  | json j =>
    obtain ⟨k, rfl, hk⟩ := h.descendJson hΓ here ha hu hw
    exact hk
  | _ =>
    simp only [Schema.descend] at hu hw
    have hs := h.descendBare hΓ here ha
    have ht := (hs.fits hu).1
    have hagain := hs.again hu hw
    cases u with
    | raw b => cases ht
    | json k => cases ht
    | _ => exact hagain

/-! ## Walks -/

/-- What an assign of a proper value leaves fits. -/
theorem fits_of_assignTokens (hΓ : Γ.Plain) (hx : x.Proper)
    (redirect : Val → Pointer → Val → Outcome) (ts : List Token)
    (h : Γ.assignTokens redirect ts v x = (.ok (), w)) : v.Fits w := by
  induction ts generalizing v w with
  | nil =>
    replace h := assignTokens_nil_ok.1 h
    refine ⟨typeOf_store h, ?_⟩
    rintro ⟨i, rfl, -⟩
    obtain ⟨j, hj, rfl⟩ := encode_of_store h
    exact ⟨j, rfl, wellformed_of_encode hx hj⟩
  | cons t ts ih =>
    rw [hΓ.assignTokens_cons] at h
    exact (advance_step _ t v).fits (fun h => ih h) h

/-- **The last assign at a list of tokens wins.** -/
theorem assignTokens_supersedes (hΓ : Γ.Plain) (hf : Γ.Faithful) (hx : x.Proper)
    (redirect : Val → Pointer → Val → Outcome) {ts : List Token}
    (hts : ∀ t ∈ ts, t.isAppend = false) :
    Supersedes (Γ.assignTokens redirect ts · y) (Γ.assignTokens redirect ts · x) := by
  induction ts with
  | nil =>
    refine ⟨fits_of_assignTokens hΓ hx redirect [], ?_⟩
    intro v u w hu hw
    -- of the slot only the type matters
    have hfill := fill_of_store (assignTokens_nil_ok.1 hw)
    rw [← typeOf_store (assignTokens_nil_ok.1 hu)] at hfill
    exact assignTokens_nil_ok.2 (store_of_fill hfill)
  | cons t ts ih =>
    obtain ⟨ha, hts⟩ := List.forall_mem_cons.1 hts
    simp only [hΓ.assignTokens_cons]
    exact ((ih hts).descend hΓ hf (.ofTokens (t :: ts)) ha).allocating (Shape.ofToken t)

/-! ## Calls -/

/-- **The last assign wins.**  What was assigned before at the same pointer, and made on the
    way to it, leaves no trace.  The pointer does not name the position after the last
    element of a sequence, which is another one once there is an element. -/
theorem assign_assign (hΓ : Γ.Plain) (hf : Γ.Faithful) {doc doc₁ doc₂ : Val} {p : Pointer}
    (hp : ∀ t ∈ p.tokens, t.isAppend = false) (hx : x.Proper)
    (h₁ : Γ.assign doc p x = (.ok (), doc₁)) (h₂ : Γ.assign doc p y = (.ok (), doc₂)) :
    Γ.assign doc₁ p y = (.ok (), doc₂) := by
  rw [assign_ok_iff] at h₁ h₂ ⊢
  exact ⟨h₁.1, (assignTokens_supersedes hΓ hf hx _ hp).again h₁.2 h₂.2⟩

/-- A number in a list in the notes of a job, all of which have to be made, and then a
    word in its place. -/
theorem job_reassigned : ∃ doc₁ doc₂,
    jobs.assign job ⟨"/notes/ports/0"⟩ (.int .i64 80) = (.ok (), doc₁) ∧
      jobs.assign job ⟨"/notes/ports/0"⟩ (.string "http") = (.ok (), doc₂) ∧
      jobs.assign doc₁ ⟨"/notes/ports/0"⟩ (.string "http") = (.ok (), doc₂) := by
  have hnumber : (jobs.assign job ⟨"/notes/ports/0"⟩ (.int .i64 80)).1.isOk = true := by
    decide +kernel
  have hword : (jobs.assign job ⟨"/notes/ports/0"⟩ (.string "http")).1.isOk = true := by
    decide +kernel
  have htokens : ∀ t ∈ Pointer.tokens ⟨"/notes/ports/0"⟩, t.isAppend = false := by decide +kernel
  have hproper : (Val.int .i64 80).Proper := trivial
  obtain ⟨doc₁, h₁⟩ := Attempt.done_of_isOk hnumber
  obtain ⟨doc₂, h₂⟩ := Attempt.done_of_isOk hword
  exact ⟨doc₁, doc₂, h₁, h₂,
    assign_assign plain_jobs (faithful_of_exact rfl) htokens hproper h₁ h₂⟩

end Schema

end DocPointer
