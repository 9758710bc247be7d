/-
  Deleting takes out one slot.

  A delete goes on to the container of the slot, and there takes an entry or an element out,
  or sets a field or an element of a fixed sequence to zero (`Vacates`, by the kind of the
  container).  Up to there it changes the container in place, as an assign does, so what is
  known of changed paths holds of it too.  An entry is gone afterwards because there was only
  one under its key: the keys of a document are distinct (`Keyed`), and so are those in what a
  walk finds in it, also in a region.

  A region that the walk goes through is written anew.  It nests no deeper than before, so it is
  read (`rereadsBy_of_deleteTokens`, by induction on the tokens), with the numbers that are
  read where the others were printed.

  * `removeBare_vacates`: the last step, with one lemma before it for each kind of container.
  * `delete_vacates`: calls.  In `remainder_respelled` a double is read as another one after the
    entry beside it was deleted.
-/
import DocPointer.Proofs.Walk.Restoring

namespace DocPointer

/-- The keys of a map are distinct, and so are the names in each object of a JSON value. -/
def Val.Distinct : Val → Prop
  | .map _ _ _ entries => (entries.map Prod.fst).Nodup
  | .json j => j.Wellformed
  | _ => True

/-- The keys in a document are distinct. -/
def Val.Keyed (doc : Val) : Prop := ∀ v : Val, v.Within doc → v.Distinct

namespace Schema

open Samples

/-- What became of the container `v` when `x`, which `t` addresses in it, was taken out; `out` is
    what `t` finds afterwards. -/
inductive Vacates (Γ : Schema) (t : Token) (x v w : Val) (out : Except Stop Val) : Prop where
  /-- The other entries are left, in their order. -/
  | entry {key : KeyTy} {order : EntryOrder} {elem : Ty} {entries : Entries Val} {k : Key} :
      Γ.node v = .map key order elem entries → key.ofToken t.decoded = .ok k →
      Γ.node w = .map key order elem (entries.filter (·.1 ≠ k)) →
      out = .error ⟨.notFound, v.typeOf, .ofTokens [t]⟩ → Vacates Γ t x v w out
  /-- The elements behind move up. -/
  | item {elem : Ty} {items items' : List Val} {i : Nat} :
      Γ.node v = .slice elem none items → t.existing items.length = .ok i →
      Γ.node w = .slice elem none items' → items'.length + 1 = items.length →
      (∀ j < i, items'[j]? = items[j]?) → (∀ j ≥ i, items'[j]? = items[j + 1]?) →
      Vacates Γ t x v w out
  /-- All other fields, also of embedded records, are as they were. -/
  | field {name : String} {fields fields' : List Val} {path : List Nat} :
      Γ.node v = .record name fields → Γ.fieldPath name t = .ok path →
      Γ.node w = .record name fields' →
      (∀ path', Apart path path' → Γ.follow path' w = Γ.follow path' v) →
      out = .ok (Γ.zero x.typeOf) → Vacates Γ t x v w out
  /-- All other elements are as they were. -/
  | arrayItem {items items' : List Val} {i : Nat} :
      Γ.node v = .array none items → t.existing items.length = .ok i →
      Γ.node w = .array none items' → items'.length = items.length →
      (∀ j ≠ i, items'[j]? = items[j]?) → out = .ok (Γ.zero x.typeOf) → Vacates Γ t x v w out

variable {Γ : Schema} {t : Token} {ts : List Token} {v w x : Val} {doc : Val} {p : Pointer}
  {here : Pointer}

/-! ## Keys -/

theorem keyed_of_within (h : v.Keyed) (hw : w.Within v) : w.Keyed :=
  fun _ hu => h _ (hu.trans hw)

theorem keyed_json {j : Json} : (Val.json j).Keyed ↔ j.Wellformed := by
  constructor
  · intro h
    exact h _ .refl
  · intro hj u hu
    cases hu
    exact hj

theorem keyed_opened (hv : v.Keyed) (h : Γ.opened v = .ok w) : w.Keyed := by
  rcases opened_cases h with ⟨rfl, -⟩ | ⟨bytes, j, -, -, hj, rfl⟩
  · exact keyed_of_within hv (.of_target .refl)
  · exact keyed_json.2 (Json.wellformed_of_ofBytes? hj)

theorem within_of_follow {path : List Nat} (h : Γ.follow path v = some x) : x.Within v := by
  induction path generalizing v with
  | nil =>
    cases h
    exact .refl
  | cons i path ih =>
    rw [follow] at h
    split at h
    · next name fields hn =>
      obtain ⟨c, hc, hx⟩ := Option.bind_eq_some_iff.1 h
      refine .of_target ?_
      rw [eq_of_node_record hn]
      exact .field (List.mem_of_getElem? hc) (ih hx)
    · cases h

theorem keyed_selectBare (hΓ : Γ.Plain) (hv : v.Keyed) (h : Γ.selectBare t v = .ok x) :
    x.Keyed := by
  cases hn : Γ.node v with
  | record name fields =>
    obtain ⟨path, -, hf⟩ := (selectBare_field hn).1 h
    exact keyed_of_within hv (within_of_follow hf)
  | map key order elem entries =>
    obtain ⟨k, -, hc⟩ := (selectBare_entry hn).1 h
    rcases eq_of_node_map hn with ⟨kind, -, rfl⟩ | ⟨ms, rfl, -, -, -, rfl⟩
    · exact keyed_of_within hv (.entry hc .refl)
    · obtain ⟨s, j, -, rfl, hj⟩ := Members.of_get?_entries hc
      exact keyed_json.2 (Json.wellformed_member (keyed_json.1 hv) hj)
  | slice elem gap items =>
    obtain ⟨i, -, hi⟩ := (hΓ.selectBare_item (items?_slice hn)).1 h
    obtain ⟨-, rfl | ⟨js, rfl, -, rfl⟩⟩ := hΓ.slice_cases hn
    · exact keyed_of_within hv (.item (List.mem_of_getElem? hi) .refl)
    · obtain ⟨j, hj, rfl⟩ := List.mem_map.1 (List.mem_of_getElem? hi)
      exact keyed_json.2 (Json.wellformed_arr.1 (keyed_json.1 hv) j hj)
  | array gap items =>
    obtain ⟨i, -, hi⟩ := (hΓ.selectBare_item (items?_array hn)).1 h
    obtain ⟨-, elem, rfl⟩ := hΓ.array_cases hn
    exact keyed_of_within hv (.arrayItem (List.mem_of_getElem? hi) .refl)
  | _ => simp [selectBare, hn] at h

/-- Keys are distinct also in what a walk finds. -/
theorem keyed_resolveTokens (hΓ : Γ.Plain) {redirect : Val → Pointer → Except Stop Val}
    (hv : v.Keyed) (h : Γ.resolveTokens redirect ts v = .ok x) : x.Keyed := by
  induction ts generalizing v with
  | nil =>
    cases h
    exact hv
  | cons t ts ih =>
    obtain ⟨c, hc, h⟩ := (resolveTokens_cons_ok hΓ).1 h
    obtain ⟨u, hu, hc⟩ := select_eq_ok.1 hc
    exact ih (keyed_selectBare hΓ (keyed_opened hv hu) hc) h

theorem nodup_keysBare (hv : v.Keyed) {ks : List Key} (h : Γ.keysBare? v = some ks) : ks.Nodup := by
  rw [keysBare?] at h
  split at h
  · next key order elem entries hn =>
    cases h
    rcases eq_of_node_map hn with ⟨kind, -, rfl⟩ | ⟨ms, rfl, -, -, -, rfl⟩
    · exact hv _ .refl
    · have hnames := (Json.wellformed_obj.1 (keyed_json.1 hv)).1
      have hkeys : ms.entries.map Prod.fst = (Members.names ms).map .text := by
        simp [Members.entries, Members.names, Function.comp_def]
      rw [hkeys]
      exact hnames.map fun _ _ => Key.text.inj
  · cases h

/-! ## Containers -/

/-- What a last token finds. -/
def findsLast (Γ : Schema) (t : Token) (v : Val) : Except Stop Val :=
  (Γ.selectBare t v).mapError (·.stop (.ofTokens [t]))

/-- The change that a delete makes at the end: the zero value of the type. -/
def zeroed (Γ : Schema) (v : Val) : Outcome := .done (Γ.zero v.typeOf)

section
variable {name : String} {fields items : List Val} {key : KeyTy} {order : EntryOrder} {elem : Ty}
  {entries : Entries Val} {gap : Option Nat}

/-- A map without an entry shows the others. -/
theorem node_removeEntry (hn : Γ.node v = .map key order elem entries) {s : String} {k : Key}
    (hk : key.ofToken s = .ok k) :
    Γ.node (v.withEntries (Entries.remove k entries)) =
      .map key order elem (Entries.remove k entries) := by
  refine node_withEntries hn ?_
  intro hj
  rcases eq_of_node_map hn with ⟨kind, -, rfl⟩ | ⟨ms, rfl, rfl, -, -, rfl⟩
  · cases hj
  · cases hk
    exact ⟨_, Members.remove_entries _ ms⟩

/-- A sequence without an element shows the others. -/
theorem node_removeItem (hΓ : Γ.Plain) (hn : Γ.node v = .slice elem gap items) (i : Nat) :
    Γ.node (Γ.withItems v (items.eraseIdx i)) = .slice elem none (items.eraseIdx i) := by
  refine node_withItems_slice hΓ hn ?_
  intro hj
  obtain ⟨-, rfl | ⟨js, rfl, -, rfl⟩⟩ := hΓ.slice_cases hn
  · cases hj
  · exact ⟨js.eraseIdx i, List.eraseIdx_map ..⟩

/-- Keys are distinct, so an entry that is taken out leaves those under all other keys. -/
theorem remove_eq_filter_of_keyed (hn : Γ.node v = .map key order elem entries) (hkeys : v.Keyed)
    (k : Key) : Entries.remove k entries = entries.filter (·.1 ≠ k) := by
  have hks : Γ.keysBare? v = some (entries.map Prod.fst) := by simp only [keysBare?, hn]
  exact Entries.remove_eq_filter k (nodup_keysBare hkeys hks)

theorem get?_remove_of_keyed (hn : Γ.node v = .map key order elem entries) (hkeys : v.Keyed)
    (k : Key) : Entries.get? k (Entries.remove k entries) = none := by
  rw [remove_eq_filter_of_keyed hn hkeys]
  exact Entries.get?_filter_self k entries

theorem removeBare_entry (hn : Γ.node v = .map key order elem entries) (hkeys : v.Keyed)
    (h : Γ.selectBare t v = .ok x) :
    ∃ w, Γ.removeBare here t true Γ.zeroed v = .done w ∧ Γ.opened w = .ok w ∧
      Γ.Vacates t x v w (Γ.findsLast t w) := by
  obtain ⟨k, hk, -⟩ := (selectBare_entry hn).1 h
  have hw := node_removeEntry hn hk
  refine ⟨v.withEntries (Entries.remove k entries), by simp only [removeBare, hn, hk, if_true],
    opened_eq_self (by simp [hw]) (by simp [hw]),
    .entry hn hk (remove_eq_filter_of_keyed hn hkeys k ▸ hw) ?_⟩
  simp only [findsLast, selectBare, hw, hk, get?_remove_of_keyed hn hkeys k, typeOf_withEntries]
  rfl

theorem removeBare_item (hΓ : Γ.Plain) (hn : Γ.node v = .slice elem gap items)
    (h : Γ.selectBare t v = .ok x) :
    ∃ w, Γ.removeBare here t true Γ.zeroed v = .done w ∧ Γ.opened w = .ok w ∧
      Γ.Vacates t x v w (Γ.findsLast t w) := by
  obtain ⟨rfl, -⟩ := hΓ.slice_cases hn
  obtain ⟨i, hi, -⟩ := (hΓ.selectBare_item (items?_slice hn)).1 h
  obtain ⟨ht, hlt⟩ := Token.existing_eq_ok.1 hi
  have hw := node_removeItem hΓ hn i
  refine ⟨Γ.withItems v (items.eraseIdx i), ?_, opened_of_items (items?_slice hw),
    .item hn hi hw ?_ ?_ ?_⟩
  · simp only [removeBare, hn, ht, Nat.ne_of_lt hlt, if_false, if_true]
  · rw [List.length_eraseIdx_of_lt hlt]
    omega
  · intro j hj
    exact List.getElem?_eraseIdx_of_lt hj
  · intro j hj
    exact List.getElem?_eraseIdx_of_ge hj

theorem removeBare_arrayItem (hΓ : Γ.Plain) (hn : Γ.node v = .array gap items)
    (h : Γ.selectBare t v = .ok x) :
    ∃ w, Γ.removeBare here t true Γ.zeroed v = .done w ∧ Γ.opened w = .ok w ∧
      Γ.Vacates t x v w (Γ.findsLast t w) := by
  obtain ⟨rfl, -⟩ := hΓ.array_cases hn
  obtain ⟨i, hi, hx⟩ := (hΓ.selectBare_item (items?_array hn)).1 h
  obtain ⟨-, hlt⟩ := Token.existing_eq_ok.1 hi
  have hw := (node_set_arrayItem hΓ hn i (Γ.zero x.typeOf)).2
  have hlen : (items.set i (Γ.zero x.typeOf)).length = items.length := List.length_set
  refine ⟨Γ.withItems v (items.set i (Γ.zero x.typeOf)), ?_, opened_of_items (items?_array hw),
    .arrayItem hn hi hw hlen ?_ ?_⟩
  · have hc : elem? none items i = some x := hx
    simp only [removeBare, hn, hi, hc]
    rfl
  · intro j hj
    exact List.getElem?_set_ne hj.symm
  · have hfound : Γ.selectBare t (Γ.withItems v (items.set i (Γ.zero x.typeOf))) =
        .ok (Γ.zero x.typeOf) :=
      (hΓ.selectBare_item (items?_array hw)).2 ⟨i, hlen ▸ hi, List.getElem?_set_self hlt⟩
    rw [findsLast, hfound]
    rfl

theorem removeBare_field (hΓ : Γ.Plain) (hn : Γ.node v = .record name fields)
    (h : Γ.selectBare t v = .ok x) :
    ∃ w, Γ.removeBare here t true Γ.zeroed v = .done w ∧ Γ.opened w = .ok w ∧
      Γ.Vacates t x v w (Γ.findsLast t w) := by
  obtain ⟨path, hp, hf⟩ := (selectBare_field hn).1 h
  obtain ⟨P, hP, hembed, hprune⟩ := follow_place hf
  have hrun : P.run Γ.zeroed = .done (P.back (Γ.zero x.typeOf)) := by
    rw [Place.run, hP.part_eq]
    rfl
  -- to set a field to zero is to assign to it
  obtain ⟨d, c, hdc, hin⟩ := embed_inlaid ((hembed .root _).trans hrun)
  obtain ⟨rfl, -⟩ := hin.same hf
  cases hdc
  have ht : (P.back (Γ.zero x.typeOf)).typeOf = v.typeOf :=
    hP.typeOf_back (by rw [typeOf_zero, hP.part_eq])
  obtain ⟨fields', hw⟩ : ∃ fields', P.back (Γ.zero x.typeOf) = .record name fields' := by
    rw [eq_of_node_record hn] at ht
    generalize P.back (Γ.zero x.typeOf) = w at ht
    cases w <;> cases ht
    exact ⟨_, rfl⟩
  have hnode : Γ.node (P.back (Γ.zero x.typeOf)) = .record name fields' := by
    rw [hw, hΓ.node_record]
  refine ⟨P.back (Γ.zero x.typeOf), ?_, opened_eq_self (by simp [hnode]) (by simp [hnode]),
    .field hn hp hnode (fun path' hapart => hin.other hapart (.inl ⟨x, hf⟩)) ?_⟩
  · simp only [removeBare, hn, hp]
    exact (hprune _).trans hrun
  · rw [findsLast, (selectBare_field hnode).2 ⟨path, hp, hin.found⟩]
    rfl

end

theorem removeBare_vacates (here : Pointer) (hΓ : Γ.Plain) (hkeys : v.Keyed)
    (h : Γ.selectBare t v = .ok x) :
    ∃ w, Γ.removeBare here t true Γ.zeroed v = .done w ∧ Γ.opened w = .ok w ∧
      Γ.Vacates t x v w (Γ.findsLast t w) := by
  cases hn : Γ.node v with
  | record name fields => exact removeBare_field hΓ hn h
  | map key order elem entries => exact removeBare_entry hn hkeys h
  | slice elem gap items => exact removeBare_item hΓ hn h
  | array gap items => exact removeBare_arrayItem hΓ hn h
  | _ => simp [selectBare, hn] at h

theorem onTarget_ok {f : Val → Outcome} (h : v.onTarget f = (.ok (), w)) :
    ∃ c, f v.target = (.ok (), c) ∧ w.target = c.target := by
  induction v using Val.target.induct generalizing w with
  | case1 v ih | case2 v ih | case3 v ih =>
    obtain ⟨w', hw', rfl⟩ := Attempt.inside_ok h
    obtain ⟨c, hc, ht⟩ := ih hw'
    exact ⟨c, hc, ht⟩
  | case4 v =>
    refine ⟨w, ?_, rfl⟩
    rw [← h, Val.onTarget, Val.target] <;> assumption

theorem fits_zeroed (h : Γ.zeroed v = (.ok (), w)) : v.Fits w := by
  cases h
  refine ⟨typeOf_zero .., ?_⟩
  rintro ⟨j, rfl, -⟩
  exact ⟨.null, rfl, trivial⟩

/-- What a delete leaves fits. -/
theorem fits_of_deleteTokens (hΓ : Γ.Plain) (redirect : Val → Pointer → Outcome)
    (ts : List Token) (h : Γ.deleteTokens redirect ts v = (.ok (), w)) : v.Fits w := by
  induction ts generalizing v w with
  | nil => exact fits_zeroed h
  | cons t ts ih =>
    rw [hΓ.deleteTokens_cons] at h
    exact (onTarget_step v).fits (fun h => (remove_step _ t _ _).fits (fun h => ih h) h) h

/-- A delete whose walk goes on from what another one finds puts there what it makes of it. -/
theorem deleteTokens_put (hΓ : Γ.Plain) (hnames : (Members.names Γ.records).Nodup)
    {redirect : Val → Pointer → Except Stop Val} {r : Val → Pointer → Outcome} {us : List Token}
    {doc' : Val} (hus : us ≠ []) (hv : Γ.resolveTokens redirect ts doc = .ok v) :
    Γ.deleteTokens r (ts ++ us) doc = (.ok (), doc') ↔
      ∃ v', Γ.deleteTokens r us v = (.ok (), v') ∧ doc' = Γ.put ts doc v' := by
  obtain ⟨P, hP, -, hdelete⟩ := resolveTokens_place hΓ hv
  have hput {v' : Val} (hrun : Γ.deleteTokens r us v = (.ok (), v')) :
      Γ.deleteTokens r (ts ++ us) doc = (.ok (), Γ.put ts doc v') :=
    (put_spec hΓ hnames hv (fits_of_deleteTokens hΓ r us hrun)).2.2.2 r us hus hrun
  constructor
  · exact fun h => put_of_place hP (hdelete r us hus) h fun v' => hput
  · rintro ⟨v', hrun, rfl⟩
    exact hput hrun

/-- A delete that works where nothing is found changes nothing. -/
theorem removeBare_of_error (hΓ : Γ.Plain) (h : Γ.selectBare t v = .error e)
    (hw : Γ.removeBare here t last f v = .done w) : w = v := by
  suffices hdone : Γ.removeBare here t last f v = .done v ∨
      ∃ s u, Γ.removeBare here t last f v = (.error s, u) by
    rcases hdone with hdone | ⟨s, u, hs⟩
    · exact (Prod.mk.inj (hw.symm.trans hdone)).2
    · cases hw.symm.trans hs
  cases hn : Γ.node v with
  | scalar => exact .inr ⟨_, v, by simp only [removeBare, hn]; rfl⟩
  | record name fields =>
    cases hp : Γ.fieldPath name t with
    | error fault => exact .inr ⟨_, v, by simp only [removeBare, hn, hp]; rfl⟩
    | ok path =>
      cases hfollow : Γ.follow path v with
      | some child => simp [selectBare, hn, hp, hfollow] at h
      | none => exact .inl (by simp only [removeBare, hn, hp, prune_of_follow hfollow])
  | map key order elem entries =>
    cases hk : key.ofToken t.decoded with
    | error ke => exact .inr ⟨_, v, by simp only [removeBare, hn, hk]; rfl⟩
    | ok k =>
      cases hc : Entries.get? k entries with
      | some child => simp [selectBare, hn, hk, hc] at h
      | none =>
        have hremoved : v.withEntries (Entries.remove k entries) = v := by
          rw [Entries.remove_of_get? hc, withEntries_of_node_map hn]
        exact .inl (by simp only [removeBare, hn, hk, hc, hremoved, ite_self])
  | slice elem gap items =>
    obtain ⟨rfl, -⟩ := hΓ.slice_cases hn
    cases ht : t.existing items.length with
    | ok i =>
      obtain ⟨c, hc⟩ := elem?_of_existing ht
      simp [selectBare, hn, ht, hc] at h
    | error ie =>
      by_cases hb : t.Beyond items.length
      · rcases Token.index_of_beyond hb with hi | ⟨k, bound, hi, hk⟩
        · exact .inl (by simp only [removeBare, hn, hi, if_true])
        · exact .inl (by simp only [removeBare, hn, hi, hk, if_true])
      · rcases Token.index_of_not_beyond ht hb with ⟨m, hi, -⟩ | ⟨k, m, m', hi, hk, -⟩
        · exact .inr ⟨_, v, by simp only [removeBare, hn, hi]; rfl⟩
        · exact .inr ⟨_, v, by simp only [removeBare, hn, hi, Int.not_le.2 hk, if_false]; rfl⟩
  | array gap items =>
    obtain ⟨rfl, -⟩ := hΓ.array_cases hn
    cases ht : t.existing items.length with
    | error ie => exact .inr ⟨_, v, by simp only [removeBare, hn, ht]; rfl⟩
    | ok i =>
      obtain ⟨c, hc⟩ := elem?_of_existing ht
      simp [selectBare, hn, ht, hc] at h
  | _ => exact .inl (by simp only [removeBare, hn])

/-- What a delete leaves of what a value is opened as is no pointer that leads somewhere. -/
theorem target_of_removeBare {last : Bool} {f : Val → Outcome} {v₀ w₀ : Val}
    (ho : Γ.opened v = .ok v₀) (hfit : v₀.Fits w₀)
    (h : Γ.removeBare here t last f v₀ = .done w₀) : w₀.target = w₀ := by
  by_cases hn : Γ.node v₀ = .nil
  · simp only [removeBare, hn] at h
    obtain rfl : v₀ = w₀ := (Prod.mk.inj h).2
    exact target_of_opened_self ho
  · exact target_of_opened ho hn hfit

/-- A delete that works where nothing is opened changes nothing: the region is empty. -/
theorem deleteTokens_of_unopened (hΓ : Γ.Plain) {e : Refusal} (ho : Γ.opened v = .error e)
    {r : Val → Pointer → Outcome} (h : Γ.deleteTokens r (t :: ts) v = (.ok (), w)) :
    w = v ∧ ∃ bytes, v.target = .raw bytes ∧ bytes.isEmpty = true := by
  obtain ⟨bytes, hb⟩ : ∃ bytes, v.target = .raw bytes := by
    by_contra hr
    rw [opened_of_ne_raw (not_exists.1 hr)] at ho
    cases ho
  rw [hΓ.deleteTokens_cons, onTarget_eq, hb, remove] at h
  cases he : bytes.isEmpty with
  | true =>
    rw [if_pos he, ← hb] at h
    exact ⟨(Prod.mk.inj h).2.symm.trans (Val.retarget_target v), bytes, hb, he⟩
  | false =>
    cases hj : Γ.regionValue? bytes with
    | none => simp only [he, hj, Bool.false_eq_true, if_false] at h; cases h
    | some j => simp [opened, hb, he, hj] at ho

/-! ## Regions after a delete -/

section
variable {r : Val → Pointer → Outcome} {bytes : ByteArray} (hΓ : Γ.Plain)
  (h : Γ.deleteTokens r (t :: ts) v = (.ok (), w)) (hin : Γ.Enters (t :: ts) w bytes)
include hΓ h hin

/-- What a delete has written in a region is read, for it nests no deeper than what was read. -/
theorem rereadsBy_of_raw {b : ByteArray} (hb : v.target = .raw b) :
    Γ.RereadsBy (Number.reread Γ.reading.rounding) bytes := by
  cases ho : Γ.opened v with
  | error e =>
    obtain ⟨rfl, b', hb', he⟩ := deleteTokens_of_unopened hΓ ho h
    obtain rfl := hin.eq_of_raw hb'
    rintro j - rfl
    rw [Json.isEmpty_toBytes] at he
    cases he
  | ok v₀ =>
    obtain ⟨w₀, hrun, rfl⟩ := (deleteTokens_bare hΓ ho r t ts).1 h
    rcases opened_cases ho with ⟨-, hr⟩ | ⟨b', j, -, -, hj, rfl⟩
    · exact absurd hb (hr b)
    · obtain ⟨k, rfl, hle, -⟩ := (blind_deleteTokens r ts).removeBare _ t ts.isEmpty _ _ hrun
      obtain rfl := hin.eq_of_raw (Val.target_enclose_of_raw hb (.json k))
      exact (readable_of_height hj hle).rereadsBy

/-- Elsewhere the region is behind the part that the first token selects. -/
theorem enters_below (hnames : (Members.names Γ.records).Nodup)
    (hr : ∀ bytes, v.target ≠ .raw bytes) :
    ∃ d d', Γ.deleteTokens r ts d = (.ok (), d') ∧ Γ.Enters ts d' bytes := by
  have ho : Γ.opened v = .ok v.target := opened_of_ne_raw hr
  obtain ⟨w₀, hrun, rfl⟩ := (deleteTokens_bare hΓ ho r t ts).1 h
  have hfit := (removeBare_step (.ofTokens (t :: ts)) t ts.isEmpty v.target).fits
    (fun h => fits_of_deleteTokens hΓ r ts h) hrun
  have ht := target_of_removeBare ho hfit hrun
  have ho' := opened_enclose ho ht hfit fun b hb => absurd hb (hr b)
  cases hin with
  | here hb =>
    rw [Val.enclose_of_ne_raw hr, Val.target_retarget, ht] at hb
    exact absurd hb (ne_raw_of_fits hr hfit bytes)
  | later hc hin =>
    cases ts with
    | nil => cases hin
    | cons u us =>
      have hc₀ := (select_of_opened ho' t).symm.trans hc
      cases hd : Γ.selectBare t v.target with
      | error e =>
        obtain rfl := removeBare_of_error hΓ hd hrun
        cases hd.symm.trans hc₀
      | ok d =>
        obtain ⟨a, hl⟩ := lies_of_selectBare hd
        obtain ⟨d', hd', rfl⟩ := Attempt.inside_ok ((hl.deletes _ _).symm.trans hrun)
        have hfound := selectBare_putAt hΓ hnames hl.address hd
          (fits_of_deleteTokens hΓ r (u :: us) hd')
        cases hfound.symm.trans hc₀
        exact ⟨d, _, hd', hin⟩

end

/-- **What a delete has written in the regions on its way is read.** -/
theorem rereadsBy_of_deleteTokens (hΓ : Γ.Plain) (hnames : (Members.names Γ.records).Nodup)
    {r : Val → Pointer → Outcome} {bytes : ByteArray}
    (h : Γ.deleteTokens r ts v = (.ok (), w)) (hin : Γ.Enters ts w bytes) :
    Γ.RereadsBy (Number.reread Γ.reading.rounding) bytes := by
  induction ts generalizing v w with
  | nil => cases hin
  | cons t ts ih =>
    by_cases hr : ∃ b, v.target = .raw b
    · obtain ⟨b, hb⟩ := hr
      exact rereadsBy_of_raw hΓ h hin hb
    · obtain ⟨d, d', hd, hin'⟩ := enters_below hΓ h hin hnames (not_exists.1 hr)
      exact ih hd hin'

/-! ## Calls -/

/-- What is found where a part was taken out may be read with other numbers: it is zero. -/
theorem Vacates.renumber (h : Γ.Vacates t x v w (Γ.findsLast t w)) (g : Number → Number) :
    Γ.Vacates t x v w (Γ.findsLast t (w.renumber g)) := by
  by_cases hjson : w.typeOf = .json
  · obtain ⟨j, rfl⟩ := Val.eq_json_of_typeOf hjson
    have hfinds : Γ.findsLast t (.json (j.renumber g)) =
        (Γ.findsLast t (.json j)).map (·.renumber g) := by
      rw [findsLast, findsLast, selectBare_renumber]
      cases Γ.selectBare t (.json j) <;> rfl
    rw [Val.renumber_json, hfinds]
    cases h with
    | entry hv hk hw hout =>
      rw [hout]
      exact .entry hv hk hw rfl
    | item hv hi hw hlen hbefore hbehind => exact .item hv hi hw hlen hbefore hbehind
    | field hv hp hw hsame hout =>
      rw [hout]
      exact .field hv hp hw hsame (congrArg Except.ok (renumber_zero g x.typeOf))
    | arrayItem hv hi hw hlen hsame hout =>
      rw [hout]
      exact .arrayItem hv hi hw hlen hsame (congrArg Except.ok (renumber_zero g x.typeOf))
  · rw [Val.renumber_of_typeOf hjson]
    exact h

/-- What a walk with one more token finds. -/
theorem resolveTokens_findsLast (hΓ : Γ.Plain) {redirect : Val → Pointer → Except Stop Val}
    (hx : Γ.resolveTokens redirect ts v = .ok x) (hw : Γ.opened x = .ok w) :
    Γ.resolveTokens redirect (ts ++ [t]) v = Γ.findsLast t w := by
  rw [resolveTokens_append _ hΓ, hx]
  dsimp only
  rw [hΓ.resolveTokens_step, select_of_opened hw, findsLast]
  cases Γ.selectBare t w <;> rfl

/-- A delete takes the slot out of what the container is opened as that a walk finds, and puts the
    rest there. -/
theorem deleteTokens_vacates (hΓ : Γ.Plain) (hnames : (Members.names Γ.records).Nodup)
    (hkeys : doc.Keyed) {redirect : Val → Pointer → Except Stop Val}
    (r : Val → Pointer → Outcome) (hv : Γ.resolveTokens redirect ts doc = .ok v)
    (ho : Γ.opened v = .ok w) (hx : Γ.selectBare t w = .ok x) :
    ∃ w', w.Fits w' ∧ Γ.opened w' = .ok w' ∧ Γ.Vacates t x w w' (Γ.findsLast t w') ∧
      Γ.deleteTokens r (ts ++ [t]) doc = (.ok (), Γ.put ts doc (v.enclose w')) := by
  have hkeyed := keyed_opened (keyed_resolveTokens hΓ hkeys hv) ho
  obtain ⟨w', hrun, ho', hvac⟩ := removeBare_vacates (.ofTokens [t]) hΓ hkeyed hx
  have hfit := (removeBare_step (.ofTokens [t]) t true w).fits fits_zeroed hrun
  refine ⟨w', hfit, ho', hvac, ?_⟩
  have hstep := (deleteTokens_bare hΓ ho r t []).2 ⟨w', hrun, rfl⟩
  exact (deleteTokens_put hΓ hnames (List.cons_ne_nil t []) hv).2 ⟨_, hstep, rfl⟩

/-- **Delete removes the slot that its pointer addresses.**  Where the walk finds something, the
    delete works; the container that the walk found before the last token is found
    afterwards, without the slot (`Vacates`); and what parts from the way to the container is
    found, or not found, as before.  In a region on the way, the container and what else is
    found there have the numbers that are read afterwards. -/
theorem delete_vacates (hΓ : Γ.Plain) (hnames : (Members.names Γ.records).Nodup)
    (hkeys : doc.Keyed) (hp : p.validate = .ok ()) (hts : p.tokens = ts ++ [t])
    (hx : Γ.Finds doc p x) :
    ∃ doc', Γ.delete doc p = (.ok (), doc') ∧
      (∃ v v' w w', Γ.Finds doc (.ofTokens ts) v ∧ Γ.Finds doc' (.ofTokens ts) v' ∧
        Γ.opened v = .ok w ∧ Γ.opened v' = .ok (w'.renumber (Γ.renumbering p.tokens doc doc')) ∧
          Γ.Vacates t x w w' (Γ.seek doc' p)) ∧
      ∀ q, q.validate = .ok () → Γ.Diverge ts q.tokens doc →
        (¬Γ.Shares ts q.tokens doc → Γ.seek doc' q = Γ.seek doc q) ∧
        (Γ.Shares ts q.tokens doc → Γ.seek doc' q =
          (Γ.seek doc q).map (·.renumber (Γ.renumbering p.tokens doc doc'))) := by
  rw [finds_iff, seek_eq hp, hts] at hx
  obtain ⟨v, hv, hlast⟩ := (resolveTokens_append_ok _ hΓ).1 hx
  obtain ⟨c, hc, hnil⟩ := (resolveTokens_cons_ok hΓ).1 hlast
  cases hnil
  obtain ⟨w, ho, hc⟩ := select_eq_ok.1 hc
  obtain ⟨w', hfit, ho', hvac, hrun⟩ :=
    deleteTokens_vacates hΓ hnames hkeys (Γ.discard Γ.redirects) hv ho hc
  have hread {bytes : ByteArray} (hb : Γ.Enters (ts ++ [t]) (Γ.put ts doc (v.enclose w')) bytes) :=
    rereadsBy_of_deleteTokens hΓ hnames hrun hb
  obtain ⟨v', g, rfl, hv', hw', -⟩ := opened_put hΓ hnames hv ho (target_of_opened_self ho') hfit
    (List.cons_ne_nil t []) (fun bytes => enters_singleton.1) fun bytes => hread
  have hspelled := (Pointer.spelled_of_cut hp hts).1
  refine ⟨_, delete_ok_iff.2 ⟨hp, hts ▸ hrun⟩, ⟨v, v', w, w', ?_, ?_, ho, ?_, ?_⟩, ?_⟩
  · exact (finds_ofTokens hspelled).2 hv
  · exact (finds_ofTokens hspelled).2 hv'
  · exact hts ▸ hw'
  · rw [seek_eq hp, hts, resolveTokens_findsLast hΓ hv' hw']
    exact hvac.renumber _
  · intro q hq hd
    have hchanged := (put_spec hΓ hnames hv (fits_enclose ho hfit)).2.1
    rw [seek_eq hq, seek_eq hq]
    constructor
    · intro hshares
      exact hchanged.resolve_of_diverge hΓ (fun hs => absurd hs hshares) hd (.inl ⟨v, hv⟩)
    · intro hshares
      obtain ⟨bytes, hin⟩ := hshares.enters hΓ
      refine hchanged.resolve_of_shares hΓ (fun b hb => ?_) hshares hd (.inl ⟨v, hv⟩)
      rw [hts]
      exact rereadsBy_renumbering (hin.append [t]) (hb.append [t]) (hread (hb.append [t]))

theorem keyed_busyJob : busyJob.Keyed := by
  intro u h
  cases h with
  | refl => trivial
  | field hm h =>
    simp only [List.mem_cons, List.not_mem_nil, or_false] at hm
    rcases hm with rfl | rfl | rfl
    -- the limits
    · cases h with
      | refl => trivial
      | ptr h =>
        cases h with
        | refl => trivial
        | field hm h =>
          obtain rfl := List.mem_singleton.1 hm
          cases h
          trivial
    -- the steps
    · cases h with
      | refl => trivial
      | ptr h =>
        cases h with
        | refl => trivial
        | item hm h =>
          obtain rfl := List.mem_singleton.1 hm
          cases h with
          | refl => exact List.nodup_singleton _
          | @entry _ _ _ _ k v hk h =>
            obtain rfl : .int .i64 1 = v := by
              by_cases hname : .text "cpu" = k
              · simpa [Entries.get?, hname] using hk
              · simp [Entries.get?, hname] at hk
            cases h
            trivial
    -- the notes
    · cases h
      trivial

/-- A port is removed from the notes of a job, and the limit is found as before. -/
theorem busyJob_vacated : ∃ doc', jobs.delete busyJob ⟨"/notes/ports/0"⟩ = (.ok (), doc') ∧
    (∃ v' w' x w, jobs.Finds doc' ⟨"/notes/ports"⟩ v' ∧ jobs.opened v' = .ok w' ∧
      jobs.Vacates ⟨"0"⟩ x w w' (jobs.seek doc' ⟨"/notes/ports/0"⟩)) ∧
    jobs.seek doc' ⟨"/cpu"⟩ = jobs.seek busyJob ⟨"/cpu"⟩ := by
  have hnames : (Members.names jobs.records).Nodup := by decide +kernel
  have htokens : Pointer.tokens ⟨"/notes/ports/0"⟩ = [⟨"notes"⟩, ⟨"ports"⟩] ++ [⟨"0"⟩] := by decide
  have hcontainer : Pointer.ofTokens [⟨"notes"⟩, ⟨"ports"⟩] = ⟨"/notes/ports"⟩ := by decide
  have hok : (jobs.seek busyJob ⟨"/notes/ports/0"⟩).isOk = true := by decide +kernel
  have hd : jobs.Diverge [⟨"notes"⟩, ⟨"ports"⟩] (Pointer.tokens ⟨"/cpu"⟩) busyJob := by
    decide +kernel
  obtain ⟨x, hx⟩ := finds_of_isOk hok
  obtain ⟨doc', hdoc, ⟨v, v', w, w', -, hv', -, hw', hvac⟩, hother⟩ :=
    delete_vacates plain_jobs hnames keyed_busyJob rfl htokens hx
  have hsame : jobs.renumbering (Pointer.tokens ⟨"/notes/ports/0"⟩) busyJob doc' = id :=
    renumbering_of_rereads fun bytes _ => (faithful_of_exact rfl).rereads bytes
  rw [hsame, Val.renumber_id] at hw'
  refine ⟨doc', hdoc, ⟨v', w', x, w, hcontainer ▸ hv', hw', hvac⟩, ?_⟩
  obtain ⟨hapart, hshared⟩ := hother _ rfl hd
  by_cases hs : jobs.Shares [⟨"notes"⟩, ⟨"ports"⟩] (Pointer.tokens ⟨"/cpu"⟩) busyJob
  · rw [hshared hs, hsame]
    cases jobs.seek busyJob ⟨"/cpu"⟩ <;> simp [Except.map]
  · exact hapart hs

/-- A double that the program has read may be written such that it reads another, beside the
    entry that is deleted. -/
theorem remainder_respelled :
    let Γ := Command.noRecords Command.reading
    let doc := Command.region "\x7b\"a\":5e32,\"b\":1\x7d"
    ∃ x y doc', Γ.Finds doc ⟨"/b"⟩ x ∧ Γ.Finds doc ⟨"/a"⟩ y ∧
      Γ.delete doc ⟨"/b"⟩ = (.ok (), doc') ∧ ¬Γ.Finds doc' ⟨"/a"⟩ y := by
  intro Γ doc
  have hthere : (Γ.seek doc ⟨"/b"⟩).isOk = true := by decide +kernel
  have hok : (Γ.delete doc ⟨"/b"⟩).1.isOk = true := by decide +kernel
  have hbefore : (Γ.seek doc ⟨"/a"⟩).toOption.map (·.asJson.text) =
      some "5.0000000000000004e+32" := by decide +kernel
  have hafter : (Γ.seek (Γ.delete doc ⟨"/b"⟩).2 ⟨"/a"⟩).toOption.map (·.asJson.text) =
      some "5e+32" := by decide +kernel
  obtain ⟨doc', hdoc⟩ := Attempt.done_of_isOk hok
  rw [hdoc] at hafter
  obtain ⟨x, hx⟩ := finds_of_isOk hthere
  obtain ⟨y, hy, hlost⟩ := lost_of_ne hbefore hafter (by simp)
  exact ⟨x, y, doc', hx, hy, hdoc, hlost⟩

end Schema

end DocPointer
