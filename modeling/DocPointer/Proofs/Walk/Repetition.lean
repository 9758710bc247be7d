/-
  Deleting again.

  A delete changes the last container that its walk finds, and a second one goes there by the
  same tokens.  Where nothing was found the first has changed nothing; an entry that it took
  out is not there any more; a field, or an element of a fixed sequence, that it set to zero
  is set to zero.  So the second changes nothing (`removeBare_again`), unless the first took an
  element out of a growing sequence, where another one has moved up (`TakesItem`).

  A region that the walk goes through is written anew by both.  The second reads what the first
  has written, with other numbers perhaps, which it does not look at (`deleteTokens_again`).

  * `delete_delete`: calls.  In `respelled_again` a double is written in another way each time.
-/
import DocPointer.Proofs.Walk.Removal

namespace DocPointer

/-- The value is a container that keeps its parts. -/
def Val.Fixed : Val → Prop
  | .record .. | .array .. => True
  | _ => False

namespace Schema

open Samples

section
variable (Γ : Schema)

/-- Behind its pointers, or in its region, the value is a growing sequence of these
    elements. -/
def Lists (v : Val) (items : List Val) : Prop :=
  ∃ w elem, Γ.opened v = .ok w ∧ Γ.node w = .slice elem none items

/-- A sequence with other elements. -/
def relist (v : Val) (items : List Val) : Val :=
  match Γ.opened v with
  | .ok w => v.enclose (Γ.withItems w items)
  | .error _ => v

/-- At most the regions that the tokens go through have other bytes in `w`: those that are written
    for the value that they spell; they are the same if they are read as what was written. -/
structure Rewritten (ts : List Token) (v w : Val) : Prop where
  alike : v.Alike (fun b b' => Γ.Enters ts v b ∧ Γ.Respells b b') w
  same : (∀ bytes, Γ.Enters ts v bytes → Γ.Rereads bytes) → w = v

/-- The last token of `p` names position `i` in a growing sequence of these elements, and `doc'`
    is `doc` without the element there. -/
def TakesItem (doc doc' : Val) (p : Pointer) (items : List Val) (i : Nat) : Prop :=
  ∃ ts t v, p.tokens = ts ++ [t] ∧ Γ.Finds doc (.ofTokens ts) v ∧ Γ.Lists v items ∧
    t.existing items.length = .ok i ∧ doc' = Γ.put ts doc (Γ.relist v (items.eraseIdx i))

end

variable {Γ : Schema} {t : Token} {ts : List Token} {v w x : Val} {doc doc' : Val}
  {p : Pointer} {here : Pointer} {e : Refusal} {items : List Val} {i n : Nat}

theorem Rewritten.refl (ts : List Token) (v : Val) : Γ.Rewritten ts v v := ⟨.refl v, fun _ => rfl⟩

/-! ## One container -/

theorem fixed_of_fits (h : v.Fixed) (hfit : v.Fits w) : w.Fixed := by
  have ht := hfit.1
  cases v with
  | record name fields | array elem items =>
    cases w with
    | record | array => exact h
    | _ => cases ht
  | _ => cases h

/-- In a container that keeps its parts the last step of a delete goes on to the part. -/
theorem removeBare_last (hΓ : Γ.Plain) (h : v.Fixed) (here : Pointer) (t : Token)
    (f : Val → Outcome) : Γ.removeBare here t true f v = Γ.removeBare here t false f v := by
  cases v with
  | record name fields => simp only [removeBare, hΓ.node_record]
  | array elem items => rfl
  | _ => cases h

/-- What a delete has set to zero it sets to zero. -/
theorem removeBare_zeroed (hΓ : Γ.Plain) (hnames : (Members.names Γ.records).Nodup)
    (hfixed : v.Fixed) (h : Γ.selectBare t v = .ok x)
    (hw : Γ.removeBare here t true Γ.zeroed v = .done w) :
    Γ.removeBare here t true Γ.zeroed w = .done w := by
  have hrun : Γ.zeroed x = .done (Γ.zero x.typeOf) := rfl
  have hzero := fits_zeroed hrun
  obtain ⟨a, ha, hpart⟩ := partAt_of_selectBare hΓ h
  rw [removeBare_last hΓ hfixed, removeBare_put ha h hrun] at hw
  obtain rfl : Γ.putAt a v (Γ.zero x.typeOf) = w := (Prod.mk.inj hw).2
  have hfound := selectBare_putAt hΓ hnames ha h hzero
  have ha' := (addressBare?_putAt hΓ hpart hzero t).trans ha
  have hagain : Γ.zeroed (Γ.zero x.typeOf) = .done (Γ.zero x.typeOf) := by
    rw [zeroed, typeOf_zero]
  rw [removeBare_last hΓ (fixed_of_fits hfixed (fits_putAt ha h hzero)),
    removeBare_put ha' hfound hagain, putAt_putAt hΓ hpart hzero]

/-- **A delete in a container changes nothing the second time**, unless it has taken an element
    out of a growing sequence. -/
theorem removeBare_again (hΓ : Γ.Plain) (hnames : (Members.names Γ.records).Nodup)
    (hkeys : v.Keyed)
    (hitem : ∀ elem items i, Γ.node v = .slice elem none items → t.existing items.length ≠ .ok i)
    (hw : Γ.removeBare here t true Γ.zeroed v = .done w) :
    Γ.removeBare here t true Γ.zeroed w = .done w := by
  cases hsel : Γ.selectBare t v with
  | error e =>
    obtain rfl := removeBare_of_error hΓ hsel hw
    exact hw
  | ok x =>
    cases hn : Γ.node v with
    | record name fields =>
      obtain rfl := eq_of_node_record hn
      have hfixed : (Val.record name fields).Fixed := trivial
      exact removeBare_zeroed hΓ hnames hfixed hsel hw
    | map key order elem entries =>
      obtain ⟨k, hk, -⟩ := (selectBare_entry hn).1 hsel
      simp only [removeBare, hn, hk, if_true] at hw
      obtain rfl : v.withEntries (Entries.remove k entries) = w := (Prod.mk.inj hw).2
      have hleft := node_removeEntry hn hk
      have hgone := get?_remove_of_keyed hn hkeys k
      simp only [removeBare, hleft, hk, if_true, Entries.remove_of_get? hgone]
      rw [withEntries_of_node_map hleft]
    | slice elem gap items =>
      obtain ⟨rfl, -⟩ := hΓ.slice_cases hn
      obtain ⟨i, hi, -⟩ := (hΓ.selectBare_item (items?_slice hn)).1 hsel
      exact absurd hi (hitem _ _ i hn)
    | array gap items =>
      obtain ⟨-, elem, rfl⟩ := hΓ.array_cases hn
      have hfixed : (Val.array elem items).Fixed := trivial
      exact removeBare_zeroed hΓ hnames hfixed hsel hw
    | _ => simp [selectBare, hn] at hsel

/-- The last step of a delete takes an element out of a growing sequence, if it is there. -/
theorem removeBare_takes {elem : Ty} (hn : Γ.node v = .slice elem none items)
    (ht : t.existing n = .ok i) (hi : i ≤ items.length) (here : Pointer) (f : Val → Outcome) :
    Γ.removeBare here t true f v = .done (Γ.withItems v (items.eraseIdx i)) := by
  have hindex := Token.index_of_existing ht hi
  by_cases hend : i = items.length
  · rw [List.eraseIdx_of_length_le (Nat.le_of_eq hend.symm), withItems_of_node_slice hn]
    simp only [removeBare, hn, hindex, hend, if_true]
  · simp only [removeBare, hn, hindex, hend, if_false, if_true]

/-- What works in a container works in it with other numbers. -/
theorem Blind.done {F : Val → Outcome} (hF : Blind F) (hfit : v.Fits w) (h : F v = .done w)
    (g : Number → Number) : F (v.renumber g) = .done (w.renumber g) := by
  by_cases hjson : v.typeOf = .json
  · obtain ⟨j, rfl⟩ := Val.eq_json_of_typeOf hjson
    obtain ⟨k, rfl, -, hrun⟩ := hF j w h
    exact hrun g
  · rw [Val.renumber_of_typeOf hjson, Val.renumber_of_typeOf (hfit.1 ▸ hjson)]
    exact h

/-- A sequence of JSON values with other numbers shows these; and so does any other sequence, if the
    numbers are the same. -/
theorem node_renumber {elem : Ty} {gap : Option Nat} {g : Number → Number}
    (hn : Γ.node v = .slice elem gap items) (hid : v.typeOf ≠ .json → g = id) :
    Γ.node (v.renumber g) = .slice elem gap (items.map (·.renumber g)) := by
  by_cases hjson : v.typeOf = .json
  · obtain ⟨j, rfl⟩ := Val.eq_json_of_typeOf hjson
    cases j with
    | arr xs =>
      cases hn
      simp [node, Json.node, Json.renumber, Json.renumberItems_eq, Function.comp_def]
    | _ => cases hn
  · obtain rfl := hid hjson
    simp [hn]

/-! ## Walks -/

section
variable {redirect : Val → Pointer → Except Stop Val} {r : Val → Pointer → Outcome}
  (hΓ : Γ.Plain) (hnames : (Members.names Γ.records).Nodup)
include hΓ hnames

section
variable {ms : List Token} {v₀ : Val} (hv : Γ.resolveTokens redirect ts doc = .ok v)
  (ho : Γ.opened v = .ok v₀) (hlast : (∃ e, Γ.select t v = .error e) ∨ ms = [])
  (h : Γ.deleteTokens r (ts ++ t :: ms) doc = (.ok (), doc'))
include hv ho hlast h

/-- A delete changes a container and puts it where it was found; there it is found afterwards, with
    the numbers that are read in a region. -/
theorem deleteTokens_found : ∃ w₀ v' g, v₀.Fits w₀ ∧ w₀.target = w₀ ∧
    Γ.removeBare (.ofTokens (t :: ms)) t ms.isEmpty (Γ.deleteTokens r ms) v₀ = .done w₀ ∧
    doc' = Γ.put ts doc (v.enclose w₀) ∧ g = Γ.renumbering (ts ++ t :: ms) doc doc' ∧
    Γ.resolveTokens redirect ts doc' = .ok v' ∧ Γ.opened v' = .ok (w₀.renumber g) ∧
    (w₀.typeOf ≠ .json → g = id) := by
  obtain ⟨v', hrun, rfl⟩ := (deleteTokens_put hΓ hnames (List.cons_ne_nil t ms) hv).1 h
  obtain ⟨w₀, hbare, rfl⟩ := (deleteTokens_bare hΓ ho r t ms).1 hrun
  have hfit := (removeBare_step (.ofTokens (t :: ms)) t ms.isEmpty v₀).fits
    (fun h => fits_of_deleteTokens hΓ r ms h) hbare
  have ht := target_of_removeBare ho hfit hbare
  have hlast' (bytes : ByteArray) (hb : Γ.Enters (t :: ms) v bytes) : v.target = .raw bytes := by
    rcases hlast with ⟨e, he⟩ | rfl
    · cases hb with
      | here hb => exact hb
      | later hc _ => cases he.symm.trans hc
    · exact enters_singleton.1 hb
  obtain ⟨v', g, hg, hv', hw, hid⟩ := opened_put hΓ hnames hv ho ht hfit (List.cons_ne_nil t ms)
    hlast' fun bytes hb => rereadsBy_of_deleteTokens hΓ hnames h hb
  exact ⟨w₀, v', g, hfit, ht, hbare, rfl, hg, hv', hw, hfit.1 ▸ hid⟩

/-- A delete that changes nothing in the container the second time changes nothing the second
    time. -/
theorem deleteTokens_again
    (hagain : ∀ w₀, Γ.removeBare (.ofTokens (t :: ms)) t ms.isEmpty (Γ.deleteTokens r ms) v₀ =
      .done w₀ → Γ.removeBare (.ofTokens (t :: ms)) t ms.isEmpty (Γ.deleteTokens r ms) w₀ =
        .done w₀) :
    ∃ doc'', Γ.deleteTokens r (ts ++ t :: ms) doc' = (.ok (), doc'') ∧
      Γ.Rewritten (ts ++ t :: ms) doc' doc'' := by
  obtain ⟨w₀, v', g, hfit, ht, hbare, rfl, hg, hv', ho', -⟩ :=
    deleteTokens_found hΓ hnames hv ho hlast h
  have hblind := (blind_deleteTokens (Γ := Γ) r ms).removeBare (Γ := Γ) (.ofTokens (t :: ms)) t
    ms.isEmpty
  have hsecond := hblind.done (.refl w₀) (hagain w₀ hbare) g
  have hrun := (deleteTokens_bare hΓ ho' r t ms).2 ⟨_, hsecond, rfl⟩
  refine ⟨_, (deleteTokens_put hΓ hnames (List.cons_ne_nil t ms) hv').2 ⟨_, hrun, rfl⟩, ?_, ?_⟩
  · refine alike_put hΓ hnames (List.cons_ne_nil t ms) hv' ho' ?_
    intro bytes j hb hj
    exact ⟨hb, j, hj, rfl⟩
  -- if regions are read as what was written, the second has written what the first has
  · intro hreads
    rw [hg, renumbering_of_rereads hreads, Val.renumber_id] at ho' ⊢
    have hbefore (_ : Γ.Shares ts ts doc) (bytes : ByteArray)
        (hb : Γ.Enters ts (Γ.put ts doc (v.enclose w₀)) bytes) : Γ.Rereads bytes :=
      hreads bytes (hb.append (t :: ms))
    have hfound := resolveTokens_put hΓ hnames hv (fits_enclose ho hfit) hbefore
    obtain rfl := Except.ok.inj (hv'.symm.trans hfound)
    rw [enclose_enclose ho ht hfit]
    exact put_put hΓ hnames hv (fits_enclose ho hfit) hbefore _

end

/-- A delete that works where a region is empty changes nothing, and so does the second. -/
theorem deleteTokens_unopened_again (hv : Γ.resolveTokens redirect ts doc = .ok v)
    (ho : Γ.opened v = .error e) {ms : List Token}
    (h : Γ.deleteTokens r (ts ++ t :: ms) doc = (.ok (), doc')) :
    ∃ doc'', Γ.deleteTokens r (ts ++ t :: ms) doc' = (.ok (), doc'') ∧
      Γ.Rewritten (ts ++ t :: ms) doc' doc'' := by
  obtain ⟨v', hrun, rfl⟩ := (deleteTokens_put hΓ hnames (List.cons_ne_nil t ms) hv).1 h
  have hfit := fits_of_deleteTokens hΓ r _ hrun
  obtain ⟨rfl, bytes, hb, -⟩ := deleteTokens_of_unopened hΓ ho hrun
  have hnot (bytes : ByteArray) : ¬Γ.Enters ts doc bytes := by
    intro hin
    obtain ⟨j, rfl⟩ := hin.json hΓ hv
    cases hb
  have hbefore := rereads_of_not_enters (w := Γ.put ts doc v') hΓ hnot
  have hv' := resolveTokens_put hΓ hnames hv hfit hbefore
  have hagain := (deleteTokens_put hΓ hnames (List.cons_ne_nil t ms) hv').2 ⟨_, hrun, rfl⟩
  rw [put_put hΓ hnames hv hfit hbefore] at hagain
  exact ⟨_, hagain, .refl _ _⟩

end

/-- What a walk leads to before it stops, or before its last step. -/
theorem exists_cut (hΓ : Γ.Plain) (redirect : Val → Pointer → Except Stop Val)
    (hts : ts ≠ []) (doc : Val) : ∃ us t ms v, ts = us ++ t :: ms ∧
      Γ.resolveTokens redirect us doc = .ok v ∧ ((∃ e, Γ.select t v = .error e) ∨ ms = []) := by
  cases h : Γ.resolveTokens redirect ts doc with
  | error s =>
    obtain ⟨us, t, ms, v, e, rfl, hv, ht, -⟩ := resolveTokens_error hΓ h
    exact ⟨us, t, ms, v, rfl, hv, .inl ⟨e, ht⟩⟩
  | ok x =>
    obtain ⟨us, t, rfl⟩ := (List.eq_nil_or_concat' ts).resolve_left hts
    obtain ⟨v, hv, -⟩ := (resolveTokens_append_ok redirect hΓ).1 h
    exact ⟨us, t, [], v, rfl, hv, .inr rfl⟩

/-! ## Growing sequences -/

theorem deleteTokens_item (hΓ : Γ.Plain) (r : Val → Pointer → Outcome) (hl : Γ.Lists v items)
    (ht : t.existing n = .ok i) (hi : i ≤ items.length) :
    Γ.deleteTokens r [t] v = (.ok (), Γ.relist v (items.eraseIdx i)) := by
  obtain ⟨w, elem, ho, hn⟩ := hl
  have hrun := removeBare_takes hn ht hi (.ofTokens [t]) (Γ.deleteTokens r [])
  refine (deleteTokens_bare hΓ ho r t []).2 ⟨_, hrun, ?_⟩
  simp only [relist, ho]

section
variable {redirect : Val → Pointer → Except Stop Val} {r : Val → Pointer → Outcome}
  (hΓ : Γ.Plain) (hnames : (Members.names Γ.records).Nodup)
  (hv : Γ.resolveTokens redirect ts doc = .ok v) (hl : Γ.Lists v items)
  (ht : t.existing items.length = .ok i) (h : Γ.deleteTokens r (ts ++ [t]) doc = (.ok (), doc'))
include hΓ hnames hv hl ht h

/-- The sequence is found afterwards without the element. -/
theorem lists_again : ∃ v', Γ.resolveTokens redirect ts doc' = .ok v' ∧ Γ.Lists v'
    ((items.eraseIdx i).map (·.renumber (Γ.renumbering (ts ++ [t]) doc doc'))) := by
  obtain ⟨w, elem, ho, hn⟩ := hl
  obtain ⟨w₀, v', g, -, -, hbare, -, rfl, hv', ho', hid⟩ :=
    deleteTokens_found hΓ hnames hv ho (.inr rfl) h
  have htakes := removeBare_takes hn ht (Nat.le_of_lt (Token.existing_eq_ok.1 ht).2)
    (.ofTokens [t]) (Γ.deleteTokens r [])
  obtain rfl := (Prod.mk.inj (htakes.symm.trans hbare)).2
  exact ⟨v', hv', _, elem, ho', node_renumber (node_removeItem hΓ hn i) hid⟩

/-- After the last element was taken out, nothing is. -/
theorem deleteTokens_last_again (hend : i + 1 = items.length) :
    ∃ doc'', Γ.deleteTokens r (ts ++ [t]) doc' = (.ok (), doc'') ∧
      Γ.Rewritten (ts ++ [t]) doc' doc'' := by
  obtain ⟨w, elem, ho, hn⟩ := hl
  have htakes := removeBare_takes hn ht (Nat.le_of_lt (Token.existing_eq_ok.1 ht).2)
    (.ofTokens [t]) (Γ.deleteTokens r [])
  refine deleteTokens_again hΓ hnames hv ho (.inr rfl) h fun w₀ hw => ?_
  obtain rfl := (Prod.mk.inj (htakes.symm.trans hw)).2
  have hleft := node_removeItem hΓ hn i
  have hlen := List.length_eraseIdx_of_lt (Token.existing_eq_ok.1 ht).2
  have hsame : (items.eraseIdx i).eraseIdx i = items.eraseIdx i :=
    List.eraseIdx_of_length_le (by omega)
  rw [List.isEmpty_nil, removeBare_takes hleft ht (by omega), hsame,
    withItems_of_node_slice hleft]

end

/-- If the last token names an element of a growing sequence, a delete takes it out. -/
theorem takesItem_of_delete (hΓ : Γ.Plain) (hnames : (Members.names Γ.records).Nodup)
    (hts : p.tokens = ts ++ [t]) (hv : Γ.Finds doc (.ofTokens ts) v) (hl : Γ.Lists v items)
    (hi : t.existing items.length = .ok i) (h : Γ.delete doc p = (.ok (), doc')) :
    Γ.TakesItem doc doc' p items i := by
  obtain ⟨hp, hrun⟩ := delete_ok_iff.1 h
  obtain ⟨-, hlt⟩ := Token.existing_eq_ok.1 hi
  refine ⟨ts, t, v, hts, hv, hl, hi, ?_⟩
  rw [finds_ofTokens (Pointer.spelled_of_cut hp hts).1] at hv
  rw [hts] at hrun
  obtain ⟨v', hstep, rfl⟩ := (deleteTokens_put hΓ hnames (List.cons_ne_nil t []) hv).1 hrun
  have hitem := deleteTokens_item hΓ (Γ.discard Γ.redirects) hl hi (Nat.le_of_lt hlt)
  rw [(Prod.mk.inj (hstep.symm.trans hitem)).2]

/-! ## Calls -/

section
variable (hΓ : Γ.Plain) (hnames : (Members.names Γ.records).Nodup)
  (h : Γ.delete doc p = (.ok (), doc'))
include hΓ hnames h

/-- After an element was taken out, the one that followed it is taken out, if there was one. -/
theorem delete_item_again (hi : Γ.TakesItem doc doc' p items i) :
    ∃ doc'', Γ.delete doc' p = (.ok (), doc'') ∧
      (i + 1 = items.length → Γ.Rewritten p.tokens doc' doc'') ∧
      (i + 1 < items.length → Γ.TakesItem doc' doc'' p
        ((items.eraseIdx i).map (·.renumber (Γ.renumbering p.tokens doc doc'))) i) := by
  obtain ⟨ts, t, v, hts, hv, hl, hi, -⟩ := hi
  obtain ⟨hp, hrun⟩ := delete_ok_iff.1 h
  have hspelled := (Pointer.spelled_of_cut hp hts).1
  rw [finds_ofTokens hspelled] at hv
  rw [hts] at hrun ⊢
  by_cases hend : i + 1 = items.length
  · obtain ⟨doc'', hrun', hre⟩ := deleteTokens_last_again hΓ hnames hv hl hi hrun hend
    exact ⟨doc'', delete_ok_iff.2 ⟨hp, hts ▸ hrun'⟩, fun _ => hre, fun hmore => by omega⟩
  · obtain ⟨-, hlt⟩ := Token.existing_eq_ok.1 hi
    have hlen := List.length_eraseIdx_of_lt hlt
    obtain ⟨v', hv', hl'⟩ := lists_again hΓ hnames hv hl hi hrun
    have hi' : t.existing (items.eraseIdx i).length = .ok i :=
      Token.existing_eq_ok.2 ⟨Token.index_of_existing hi (by omega), by omega⟩
    rw [← List.length_map (·.renumber (Γ.renumbering (ts ++ [t]) doc doc'))] at hi' hlen
    have hitem := deleteTokens_item hΓ (Γ.discard Γ.redirects) hl' hi' (by omega)
    have hrun' := (deleteTokens_put hΓ hnames (List.cons_ne_nil t []) hv').2 ⟨_, hitem, rfl⟩
    have hdelete := delete_ok_iff.2 ⟨hp, hts ▸ hrun'⟩
    refine ⟨_, hdelete, fun hlast => absurd hlast hend, fun hmore => ?_⟩
    exact takesItem_of_delete hΓ hnames hts ((finds_ofTokens hspelled).2 hv') hl' hi' hdelete

/-- A delete that has taken no element out changes nothing the second time. -/
theorem delete_same_again (hkeys : doc.Keyed) (hnone : ∀ items i, ¬Γ.TakesItem doc doc' p items i) :
    ∃ doc'', Γ.delete doc' p = (.ok (), doc'') ∧ Γ.Rewritten p.tokens doc' doc'' := by
  obtain ⟨hp, hrun⟩ := delete_ok_iff.1 h
  suffices hsecond : ∃ doc'', Γ.deleteTokens (Γ.discard Γ.redirects) p.tokens doc' =
      (.ok (), doc'') ∧ Γ.Rewritten p.tokens doc' doc'' by
    obtain ⟨doc'', hrun', hre⟩ := hsecond
    exact ⟨doc'', delete_ok_iff.2 ⟨hp, hrun'⟩, hre⟩
  by_cases hroot : p.tokens = []
  · rw [hroot] at hrun ⊢
    obtain rfl : Γ.zero doc.typeOf = doc' := (Prod.mk.inj hrun).2
    exact ⟨_, by rw [deleteTokens, typeOf_zero]; rfl, .refl _ _⟩
  · obtain ⟨ts, t, ms, v, hts, hv, hlast⟩ := exists_cut hΓ (Γ.find Γ.redirects) hroot doc
    rw [hts] at hrun ⊢
    cases ho : Γ.opened v with
    | error e => exact deleteTokens_unopened_again hΓ hnames hv ho hrun
    | ok v₀ =>
      refine deleteTokens_again hΓ hnames hv ho hlast hrun fun w₀ hw => ?_
      rcases hlast with ⟨e, he⟩ | rfl
      · rw [select_of_opened ho] at he
        obtain rfl := removeBare_of_error hΓ he hw
        exact hw
      · refine removeBare_again hΓ hnames (keyed_opened (keyed_resolveTokens hΓ hkeys hv) ho) ?_ hw
        intro elem items i hn hi
        have hv' := (finds_ofTokens (Pointer.spelled_of_cut hp hts).1).2 hv
        exact hnone items i (takesItem_of_delete hΓ hnames hts hv' ⟨v₀, elem, ho, hn⟩ hi h)

/-- **Deleting again is safe.**  Where a delete works, a second one at the same pointer works, and
    changes nothing more, unless the first took an element out of a growing sequence: then the
    second takes out the one that followed it, or, if it was the last, changes nothing more.
    At most the regions on the way are written anew (`Rewritten`), and a sequence in one has the
    numbers that are read there. -/
theorem delete_delete (hkeys : doc.Keyed) : ∃ doc'', Γ.delete doc' p = (.ok (), doc'') ∧
    ((∀ items i, ¬Γ.TakesItem doc doc' p items i) → Γ.Rewritten p.tokens doc' doc'') ∧
    ∀ items i, Γ.TakesItem doc doc' p items i →
      (i + 1 = items.length → Γ.Rewritten p.tokens doc' doc'') ∧
      (i + 1 < items.length → Γ.TakesItem doc' doc'' p
        ((items.eraseIdx i).map (·.renumber (Γ.renumbering p.tokens doc doc'))) i) := by
  by_cases hitem : ∃ items i, Γ.TakesItem doc doc' p items i
  · obtain ⟨items, i, hi⟩ := hitem
    obtain ⟨doc'', hdoc, -⟩ := delete_item_again hΓ hnames h hi
    refine ⟨doc'', hdoc, fun hnone => absurd hi (hnone items i), ?_⟩
    intro items' i' hi'
    obtain ⟨doc₂, hdoc₂, hrest⟩ := delete_item_again hΓ hnames h hi'
    obtain rfl : doc'' = doc₂ := (Prod.mk.inj (hdoc.symm.trans hdoc₂)).2
    exact hrest
  · have hnone (items : List Val) (i : Nat) : ¬Γ.TakesItem doc doc' p items i :=
      fun hi => hitem ⟨items, i, hi⟩
    obtain ⟨doc'', hdoc, hre⟩ := delete_same_again hΓ hnames h hkeys hnone
    exact ⟨doc'', hdoc, fun _ => hre, fun items i hi => absurd hi (hnone items i)⟩

end

/-- Three numbers. -/
def numbers : Val := .slice (.int .i64) [.int .i64 1, .int .i64 2, .int .i64 3]

theorem keyed_numbers : numbers.Keyed := by
  intro u h
  cases h with
  | refl => trivial
  | item hm h =>
    simp only [List.mem_cons, List.not_mem_nil, or_false] at hm
    rcases hm with rfl | rfl | rfl
    all_goals
      cases h
      trivial

/-- A job is left without its limit, and of three numbers the first is taken out twice. -/
theorem busyJob_repeated :
    (∃ doc', jobs.delete busyJob ⟨"/cpu"⟩ = (.ok (), doc') ∧
      jobs.delete doc' ⟨"/cpu"⟩ = (.ok (), doc')) ∧
    ∃ doc' doc'', jobs.delete numbers ⟨"/0"⟩ = (.ok (), doc') ∧
      jobs.delete doc' ⟨"/0"⟩ = (.ok (), doc'') ∧
      jobs.TakesItem doc' doc'' ⟨"/0"⟩ [.int .i64 2, .int .i64 3] 0 := by
  have hnames : (Members.names jobs.records).Nodup := by decide +kernel
  have hrereads (bytes : ByteArray) : jobs.Rereads bytes := (faithful_of_exact rfl).rereads bytes
  constructor
  · have hok : (jobs.delete busyJob ⟨"/cpu"⟩).1.isOk = true := by decide +kernel
    have htokens : Pointer.tokens ⟨"/cpu"⟩ = [] ++ [⟨"cpu"⟩] := by decide
    obtain ⟨doc', h⟩ := Attempt.done_of_isOk hok
    obtain ⟨doc'', hagain, hsame, -⟩ := delete_delete plain_jobs hnames h keyed_busyJob
    have hnone (items : List Val) (i : Nat) :
        ¬jobs.TakesItem busyJob doc' ⟨"/cpu"⟩ items i := by
      rintro ⟨ts, t, v, hts, hv, ⟨w, elem, ho, hn⟩, -⟩
      obtain ⟨rfl, -⟩ := List.append_inj' (htokens.symm.trans hts) rfl
      cases hv
      cases ho
      cases hn
    exact ⟨doc', h, (hsame hnone).same (fun bytes _ => hrereads bytes) ▸ hagain⟩
  · have hok : (jobs.delete numbers ⟨"/0"⟩).1.isOk = true := by decide +kernel
    have htokens : Pointer.tokens ⟨"/0"⟩ = [] ++ [⟨"0"⟩] := by decide
    have hexisting : Token.existing ⟨"0"⟩ 3 = .ok 0 := by decide +kernel
    obtain ⟨doc', h⟩ := Attempt.done_of_isOk hok
    obtain ⟨doc'', hagain, -, hitem⟩ := delete_delete plain_jobs hnames h keyed_numbers
    have htakes := takesItem_of_delete plain_jobs hnames htokens ((finds_ofTokens (by simp)).2 rfl)
      ⟨numbers, .int .i64, rfl, rfl⟩ hexisting h
    exact ⟨doc', doc'', h, hagain, (hitem _ _ htakes).2 (by decide)⟩

/-- A double that the program has read may be written in another way each time, so a delete of
    what is not there changes the document twice. -/
theorem respelled_again :
    let Γ := Command.noRecords Command.reading
    let doc := Command.region "\x7b\"a\":5e32\x7d"
    ∃ doc' doc'', (∀ x, ¬Γ.Finds doc ⟨"/b"⟩ x) ∧ Γ.delete doc ⟨"/b"⟩ = (.ok (), doc') ∧
      Γ.delete doc' ⟨"/b"⟩ = (.ok (), doc'') ∧ doc'' ≠ doc' := by
  intro Γ doc
  have hthere : (Γ.seek doc ⟨"/b"⟩).isOk = false := by decide +kernel
  have hok : (Γ.delete doc ⟨"/b"⟩).1.isOk = true := by decide +kernel
  have hagain : (Γ.delete (Γ.delete doc ⟨"/b"⟩).2 ⟨"/b"⟩).1.isOk = true := by decide +kernel
  have hfirst : (Γ.opened (Γ.delete doc ⟨"/b"⟩).2).toOption.map (·.asJson.text) =
      some "\x7b\"a\":5e+32\x7d" := by decide +kernel
  have hsecond : (Γ.opened (Γ.delete (Γ.delete doc ⟨"/b"⟩).2 ⟨"/b"⟩).2).toOption.map
      (·.asJson.text) = some "\x7b\"a\":5.0000000000000004e+32\x7d" := by decide +kernel
  obtain ⟨doc', hdoc⟩ := Attempt.done_of_isOk hok
  rw [hdoc] at hagain hfirst hsecond
  obtain ⟨doc'', hdoc'⟩ := Attempt.done_of_isOk hagain
  rw [hdoc'] at hsecond
  refine ⟨doc', doc'', ?_, hdoc, hdoc', ?_⟩
  · intro x hx
    rw [finds_iff.1 hx] at hthere
    cases hthere
  · rintro rfl
    rw [hfirst] at hsecond
    simp at hsecond

end Schema

end DocPointer
