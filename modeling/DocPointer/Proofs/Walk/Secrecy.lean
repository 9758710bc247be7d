/-
  Hidden fields are out of reach.

  A record lies on the way of a pointer (`OnWay`) if the walk finds it before the end, or if it
  is embedded on the path of fields to which the next token leads.  Calls that change a document
  go down such paths field by field (`Inward`), so of each record on the way they change at most
  the field at which the way goes on, and that one is not hidden.

  * `Inward.recordAt`: down a path of fields, by induction.
  * `assignTokens_spares`, `deleteTokens_spares`: from a record that a walk has found.
  * `record_place`: the walk finds afterwards what has become of the record.
  * `onWay_of_call`: calls, and `hidden_out_of_reach` with what walks find in documents that
    differ only in hidden fields.
-/
import DocPointer.Proofs.Walk.Removal
import DocPointer.Proofs.Walk.Transparency
import DocPointer.Proofs.Walk.Veiling
import DocPointer.Samples.Safes

namespace DocPointer.Schema

open Samples

section
variable (Γ : Schema)

/-- At the end of a path of fields there is the record `s` with these fields, possibly behind
    pointers. -/
def RecordAt (path : List Nat) (v : Val) (s : String) (fields : List Val) : Prop :=
  ∃ u, Γ.follow path v = some u ∧ u.target = .record s fields

/-- The path of fields to which the token leads in a value goes on after `pre`. -/
def LeadsPast (t : Token) (v : Val) (pre : List Nat) : Prop :=
  ∃ name fields i below, v.target = .record name fields ∧
    Γ.fieldPath name t = .ok (pre ++ i :: below)

/-- On the way of `p` lies the record `s` with these fields: it is what the walk of `r` finds
    before the end of `p`, or is at the end of `pre`, on the path to which the next token
    leads. -/
def OnWay (doc : Val) (p r : Pointer) (pre : List Nat) (s : String) (fields : List Val) : Prop :=
  ∃ c t rest v, p = r ++ c ∧ c.next = some (t, rest) ∧ Γ.Finds doc r v ∧
    (pre = [] ∨ Γ.LeadsPast t v pre) ∧ Γ.RecordAt pre v s fields

/-- A change at the end of a path of fields goes down the path field by field. -/
def Inward (G : List Nat → Val → Outcome) : Prop :=
  ∀ ⦃i : Nat⦄ ⦃path : List Nat⦄ ⦃v w : Val⦄ ⦃name : String⦄ ⦃fields : List Val⦄,
    v.target = .record name fields → G (i :: path) v = (.ok (), w) →
      ∃ c, w.target = .record name (fields.set i c) ∧
        ∀ child, fields[i]? = some child → G path child = (.ok (), c)

end

variable {Γ : Schema} {t : Token} {ts : List Token} {v w c x y doc : Val} {p : Pointer}
  {here : Pointer} {f : Val → Outcome} {path pre below : List Nat} {i : Nat} {name s : String}
  {fields outer : List Val}

/-! ## Paths of fields -/

theorem recordAt_congr (h : v.target = w.target) :
    Γ.RecordAt pre v s fields ↔ Γ.RecordAt pre w s fields := by
  cases pre with
  | nil => simp [RecordAt, follow, h]
  | cons i pre => rw [RecordAt, RecordAt, follow_of_target h]

theorem recordAt_cons (hΓ : Γ.Plain) (hv : v.target = .record name outer) :
    Γ.RecordAt (i :: pre) v s fields ↔
      ∃ child, outer[i]? = some child ∧ Γ.RecordAt pre child s fields := by
  simp only [RecordAt, follow, hv, hΓ.node_record, Option.bind_eq_some_iff]
  constructor
  · rintro ⟨u, ⟨child, hc, hu⟩, hs⟩
    exact ⟨child, hc, u, hu, hs⟩
  · rintro ⟨child, hc, u, hu, hs⟩
    exact ⟨u, ⟨child, hc, hu⟩, hs⟩

/-- Records lie in records. -/
theorem RecordAt.target (h : Γ.RecordAt pre v s fields) :
    ∃ name outer, v.target = .record name outer := by
  obtain ⟨u, hu, hs⟩ := h
  cases pre with
  | nil =>
    cases hu
    exact ⟨s, fields, hs⟩
  | cons i pre =>
    rw [follow] at hu
    split at hu
    · next name outer hn => exact ⟨name, outer, eq_of_node_record hn⟩
    · cases hu

theorem inward_embed (hΓ : Γ.Plain) (here : Pointer) (f : Val → Outcome) :
    Inward (Γ.embed here f) := by
  intro i path v w name fields hv h
  obtain ⟨d, u, hu, ht, hd⟩ := allocating_ok h
  obtain ⟨rfl, -⟩ := hd (by simp [hv, hΓ.node_record])
  simp only [hv, hΓ.node_record] at hu
  cases hc : fields[i]? with
  | none =>
    simp only [hc] at hu
    cases hu
  | some child =>
    simp only [hc] at hu
    obtain ⟨c, hc', rfl⟩ := Attempt.inside_ok hu
    refine ⟨c, ht, ?_⟩
    rintro _ ⟨⟩
    exact hc'

theorem inward_prune (hΓ : Γ.Plain) (f : Val → Outcome) : Inward (Γ.prune f) := by
  intro i path v w name fields hv h
  obtain ⟨u, hu, ht⟩ := onTarget_ok h
  simp only [hv, hΓ.node_record] at hu
  cases hc : fields[i]? with
  | none =>
    simp only [hc] at hu
    cases hu
    refine ⟨default, ?_, nofun⟩
    rw [ht, Val.target, List.set_eq_of_length_le (List.getElem?_eq_none_iff.1 hc)]
    all_goals rintro _ ⟨⟩
  | some child =>
    simp only [hc] at hu
    obtain ⟨c, hc', rfl⟩ := Attempt.inside_ok hu
    refine ⟨c, ht, ?_⟩
    rintro _ ⟨⟩
    exact hc'

/-- **Of a record on a path of fields, a change at the end changes at most the field at which
    the path goes on.** -/
theorem Inward.recordAt (hΓ : Γ.Plain) {G : List Nat → Val → Outcome} (hG : Inward G)
    (h : G (pre ++ i :: below) v = (.ok (), w)) (hl : Γ.RecordAt pre v s fields) :
    ∃ c, Γ.RecordAt pre w s (fields.set i c) := by
  induction pre generalizing v w with
  | nil =>
    obtain ⟨u, hu, hs⟩ := hl
    cases hu
    obtain ⟨c, hc, -⟩ := hG hs h
    exact ⟨c, w, rfl, hc⟩
  | cons j pre ih =>
    obtain ⟨name, outer, hv⟩ := hl.target
    obtain ⟨child, hj, hl⟩ := (recordAt_cons hΓ hv).1 hl
    obtain ⟨c, hw, hchild⟩ := hG hv h
    obtain ⟨c', hl'⟩ := ih (hchild child hj) hl
    obtain ⟨hlt, -⟩ := List.getElem?_eq_some_iff.1 hj
    exact ⟨c', (recordAt_cons hΓ hw).2 ⟨c, List.getElem?_set_self hlt, hl'⟩⟩

/-- From a record on a route the rest of the route goes on. -/
theorem RecordAt.route (hΓ : Γ.Plain) (hl : Γ.RecordAt pre v s fields) (hm : Γ.Matched v)
    (hv : v.target = .record name outer) (hr : Route Γ.family name (pre ++ i :: below)) :
    Route Γ.family s (i :: below) := by
  induction pre generalizing v name outer with
  | nil =>
    obtain ⟨u, hu, hs⟩ := hl
    cases hu
    cases hv.symm.trans hs
    exact hr
  | cons j pre ih =>
    obtain ⟨child, hj, hl⟩ := (recordAt_cons hΓ hv).1 hl
    rw [List.cons_append] at hr
    generalize hrest : pre ++ i :: below = rest at hr
    cases hr with
    | last => simp at hrest
    | cons he hroute =>
      subst hrest
      have hwithin : (Val.record name outer).Within v := .of_target (hv ▸ .refl)
      obtain ⟨c, hc, htarget⟩ := hm.embedded hwithin he
      cases hj.symm.trans hc
      obtain ⟨r, below', hchild⟩ := hl.target
      rw [hchild, hΓ.node_record] at htarget
      rcases htarget with hnil | ⟨fs, hfs⟩
      · cases hnil
      · cases hfs
        refine ih hl (hm.mono ?_) hchild hroute
        intro name fs hchild'
        exact .of_target (hv ▸ .field (List.mem_of_getElem? hj) hchild')

/-! ## One step -/

/-- The way still leads past `pre`, to a record with the same hidden fields. -/
def Spares (Γ : Schema) (t : Token) (pre : List Nat) (s : String) (fields : List Val) (w : Val) :
    Prop :=
  ∃ fields', (pre = [] ∨ Γ.LeadsPast t w pre) ∧ Γ.RecordAt pre w s fields' ∧
    ∀ k, Hides Γ.family s k → fields'[k]? = fields[k]?

section
variable (hΓ : Γ.Plain) (hnames : (Members.names Γ.records).Nodup) (hm : Γ.Matched v)
  (hpre : pre = [] ∨ Γ.LeadsPast t v pre) (hl : Γ.RecordAt pre v s fields)
include hΓ hnames hm hpre hl

/-- A change at the end of the path to which a token leads spares hidden fields on it. -/
theorem Inward.spares {G : List Nat → Val → Outcome} (hG : Inward G) {u : Val}
    (hv : v.target = .record name outer) (hp : Γ.fieldPath name t = .ok path)
    (h : G path v.target = (.ok (), u)) (hw : w.target = u.target) :
    Γ.Spares t pre s fields w := by
  obtain ⟨i, below, rfl⟩ : ∃ i below, path = pre ++ i :: below := by
    rcases hpre with rfl | ⟨name', outer', i, below, hv', hp'⟩
    · cases path with
      | nil => exact absurd hp (fieldPath_ne_nil name t)
      | cons i below => exact ⟨i, below, rfl⟩
    · cases hv.symm.trans hv'
      cases hp.symm.trans hp'
      exact ⟨i, below, rfl⟩
  obtain ⟨outer', hu⟩ : ∃ outer', u.target = .record name outer' := by
    generalize pre ++ i :: below = path at hp h
    cases path with
    | nil => exact absurd hp (fieldPath_ne_nil name t)
    | cons j rest =>
      obtain ⟨c, hc, -⟩ := hG ((target_target v).trans hv) h
      exact ⟨_, hc⟩
  obtain ⟨c, hc⟩ := hG.recordAt hΓ h ((recordAt_congr (target_target v).symm).1 hl)
  have hroute := hl.route hΓ hm hv (route_of_fieldPath hnames hp)
  refine ⟨fields.set i c, .inr ⟨name, outer', i, below, hw.trans hu, hp⟩,
    (recordAt_congr hw).2 hc, ?_⟩
  intro k hk
  refine List.getElem?_set_ne ?_
  rintro rfl
  exact hroute.not_hides hk

theorem assignTokens_spares {r : Val → Pointer → Val → Outcome}
    (h : Γ.assignTokens r (t :: ts) v x = (.ok (), w)) : Γ.Spares t pre s fields w := by
  obtain ⟨name, outer, hv⟩ := hl.target
  rw [hΓ.assignTokens_cons] at h
  obtain ⟨d, u, hu, hw, hd⟩ := allocating_ok h
  obtain ⟨rfl, -⟩ := hd (by simp [hv, hΓ.node_record])
  cases hp : Γ.fieldPath name t with
  | error fault =>
    simp only [hv, descend, descendBare, hΓ.node_record, hp] at hu
    cases hu
  | ok path =>
    have hembed := hu
    rw [hv, descend, descendBare_embed (hΓ.node_record ..) hp, ← hv] at hembed
    · exact (inward_embed hΓ _ _).spares hΓ hnames hm hpre hl hv hp hembed hw
    all_goals rintro _ ⟨⟩

theorem deleteTokens_spares {r : Val → Pointer → Outcome}
    (h : Γ.deleteTokens r (t :: ts) v = (.ok (), w)) : Γ.Spares t pre s fields w := by
  obtain ⟨name, outer, hv⟩ := hl.target
  rw [hΓ.deleteTokens_cons] at h
  obtain ⟨u, hu, hw⟩ := onTarget_ok h
  cases hp : Γ.fieldPath name t with
  | error fault =>
    simp only [hv, remove, removeBare, hΓ.node_record, hp] at hu
    cases hu
  | ok path =>
    simp only [hv, remove, removeBare, hΓ.node_record, hp] at hu
    rw [← hv] at hu
    exact (inward_prune hΓ _).spares hΓ hnames hm hpre hl hv hp hu hw

end

/-! ## Walks -/

/-- **Where a walk finds a record, it finds afterwards what has become of it.** -/
theorem record_place (hΓ : Γ.Plain) (hnames : (Members.names Γ.records).Nodup)
    {redirect : Val → Pointer → Except Stop Val} (h : Γ.resolveTokens redirect ts doc = .ok v)
    (hv : v.target = .record name outer) :
    ∃ P : Place, Γ.Holds P doc v ∧
      (∀ r us x, Γ.assignTokens r (ts ++ us) doc x = P.run (Γ.assignTokens r us · x)) ∧
      (∀ r us, us ≠ [] → Γ.deleteTokens r (ts ++ us) doc = P.run (Γ.deleteTokens r us)) ∧
      ∀ w, w.typeOf = v.typeOf → Γ.resolveTokens redirect ts (P.back w) = .ok w := by
  obtain ⟨P, hP, hassign, hdelete⟩ := resolveTokens_place hΓ h
  refine ⟨P, hP, hassign, hdelete, ?_⟩
  intro w hw
  have hjson (j : Json) : v ≠ .json j := by
    rintro rfl
    cases hv
  have hnot (bytes : ByteArray) (hin : Γ.Enters ts doc bytes) : False := by
    obtain ⟨j, hj⟩ := hin.json hΓ h
    exact hjson j hj
  have hfit : v.Fits w := by
    refine fits_of_typeOf (fun ht => ?_) hw
    obtain ⟨j, hj⟩ := Val.eq_json_of_typeOf ht
    exact hjson j hj
  have hfound := resolveTokens_put hΓ hnames h hfit (rereads_of_not_enters hΓ hnot)
  -- a slot takes a value of its own type as it is
  have hstore : Γ.assignTokens (Γ.place Γ.redirects) [] v w = (.ok (), w) :=
    assignTokens_nil_ok.2 (store_same hw)
  have hrun := (hassign _ [] w).symm.trans ((put_spec hΓ hnames h hfit).2.2.1 _ [] w hstore)
  rw [Place.run, hP.part_eq, hstore] at hrun
  obtain hput : P.back w = Γ.put ts doc w := (Prod.mk.inj hrun).2
  rw [hput]
  exact hfound

/-! ## Calls -/

/-- **A call that works leaves the hidden fields of the records on its way alone.** -/
theorem onWay_of_call (hΓ : Γ.Plain) (hnames : (Members.names Γ.records).Nodup)
    (hm : Γ.Matched doc) {doc' : Val} {r : Pointer}
    (hcall : (∃ x, Γ.assign doc p x = (.ok (), doc')) ∨ Γ.delete doc p = (.ok (), doc'))
    (hway : Γ.OnWay doc p r pre s fields) :
    ∃ fields', Γ.OnWay doc' p r pre s fields' ∧
      ∀ k, Hides Γ.family s k → fields'[k]? = fields[k]? := by
  obtain ⟨c, t, rest, v, rfl, hnext, hv, hpre, hl⟩ := hway
  have hp : (r ++ c).validate = .ok () := by
    rcases hcall with ⟨x, h⟩ | h
    · exact (assign_ok_iff.1 h).1
    · exact (delete_ok_iff.1 h).1
  obtain ⟨hr, us, htokens⟩ := Pointer.tokens_of_next hp hnext
  rw [finds_iff, seek_eq hr] at hv
  obtain ⟨name, outer, htarget⟩ := hl.target
  obtain ⟨P, hP, hassign, hdelete, hfound⟩ := record_place hΓ hnames hv htarget
  have hmv : Γ.Matched v := hm.mono fun _ _ => hP.within_of_within
  obtain ⟨w, ht, rfl, fields', hpre', hl', hhidden⟩ :
      ∃ w, w.typeOf = v.typeOf ∧ doc' = P.back w ∧ Γ.Spares t pre s fields w := by
    rcases hcall with ⟨x, h⟩ | h
    · have hrun := (assign_ok_iff.1 h).2
      rw [htokens, hassign] at hrun
      obtain ⟨w, hw, hdoc⟩ := Attempt.within_ok hrun
      rw [hP.part_eq] at hw
      exact ⟨w, typeOf_assignTokens hΓ _ _ x hw, hdoc,
        assignTokens_spares hΓ hnames hmv hpre hl hw⟩
    · have hrun := (delete_ok_iff.1 h).2
      rw [htokens, hdelete _ _ (List.cons_ne_nil t us)] at hrun
      obtain ⟨w, hw, hdoc⟩ := Attempt.within_ok hrun
      rw [hP.part_eq] at hw
      exact ⟨w, typeOf_deleteTokens hΓ _ _ hw, hdoc,
        deleteTokens_spares hΓ hnames hmv hpre hl hw⟩
  refine ⟨fields', ⟨c, t, rest, w, rfl, hnext, ?_, hpre', hl'⟩, hhidden⟩
  rw [finds_iff, seek_eq hr, hfound w ht]

/-- **Hidden fields are out of reach.**  In documents that differ only in hidden fields a walk
    stops for the same cause at the same place, or finds values that differ only in hidden
    fields, so the same value if there is no hidden field in it.  A call that assigns or
    deletes, whether it works or not, leaves the records on its way in their places, with the
    same hidden fields. -/
theorem hidden_out_of_reach (hΓ : Γ.Plain) (hnames : (Members.names Γ.records).Nodup)
    (hm : Γ.Matched doc) (p : Pointer) :
    (∀ doc₂, Γ.Veiled doc doc₂ →
      (∃ stop, Γ.Stops doc p stop ∧ Γ.Stops doc₂ p stop) ∨
        ∃ x y, Γ.Finds doc p x ∧ Γ.Finds doc₂ p y ∧ Γ.Veiled x y ∧ (¬Γ.Conceals x → y = x)) ∧
      ∀ result doc', (∃ x, Γ.assign doc p x = (result, doc')) ∨ Γ.delete doc p = (result, doc') →
        ∀ r pre s fields, Γ.OnWay doc p r pre s fields →
          ∃ fields', Γ.OnWay doc' p r pre s fields' ∧
            ∀ k, Hides Γ.family s k → fields'[k]? = fields[k]? := by
  constructor
  · intro doc₂ h
    have hseek := seek_veiled hΓ hnames hm h p
    simp only [Stops, finds_iff]
    generalize Γ.seek doc p = a at hseek
    generalize Γ.seek doc₂ p = b at hseek
    cases hseek with
    | found hxy => exact .inr ⟨_, _, rfl, rfl, hxy, hxy.eq_of_not_conceals⟩
    | missed stop => exact .inl ⟨stop, rfl, rfl⟩
  · intro result doc' hcall r pre s fields hway
    cases result with
    | ok _ => exact onWay_of_call hΓ hnames hm hcall hway
    | error e =>
      have hdoc : doc' = doc := by
        rcases hcall with ⟨x, h⟩ | h
        · exact assign_atomic hΓ.steady h
        · exact delete_atomic hΓ.steady h
      rw [hdoc]
      exact ⟨fields, hway, fun _ _ => rfl⟩

theorem plain_safes : safes.Plain :=
  plain_of_records (by simp [safes, declareParts, declare])

/-- What a safe embeds is its owner. -/
theorem matched_safe (pin : String) (code : Int) : safes.Matched (safeWith pin code) := by
  have hrecord {r : String} {fields : List Val}
      (h : (Val.record r fields).Within (safeWith pin code)) :
      (r = "Safe" ∧ .record r fields = safeWith pin code) ∨
        r = "Owner" ∧ .record r fields = ownerWith pin := by
    cases h with
    | refl => exact .inl ⟨rfl, rfl⟩
    | field hmem hw =>
      simp only [List.mem_cons, List.not_mem_nil, or_false] at hmem
      rcases hmem with rfl | rfl | rfl
      · cases hw with
        | ptr hw =>
          cases hw with
          | refl => exact .inr ⟨rfl, rfl⟩
          | field hmem hw =>
            simp only [List.mem_cons, List.not_mem_nil, or_false] at hmem
            rcases hmem with rfl | rfl <;> cases hw
      · cases hw with
        | item hmem hw =>
          rw [List.mem_singleton] at hmem
          cases hmem
          cases hw
      · cases hw
  have hsafe : ∀ fs ∈ Members.get? "Safe" safes.family, fs.map FieldDecl.role =
      [.promotes "Owner", .visible "items" true, .nothing] := by decide +kernel
  have howner : ∀ fs ∈ Members.get? "Owner" safes.family, fs.map FieldDecl.role =
      [.visible "name" true, .unexported "pin"] := by decide +kernel
  constructor
  · rintro r fields i name tagged hw ⟨fs, d, hfs, hd, -⟩
    obtain ⟨hi, -⟩ := List.getElem?_eq_some_iff.1 hd
    rcases hrecord hw with ⟨rfl, hv⟩ | ⟨rfl, hv⟩
    · have hlen : fs.length = 3 := by simpa using congrArg List.length (hsafe fs hfs)
      cases hv
      exact Nat.lt_of_lt_of_eq hi hlen
    · have hlen : fs.length = 2 := by simpa using congrArg List.length (howner fs hfs)
      cases hv
      exact Nat.lt_of_lt_of_eq hi hlen
  · rintro r s fields k hw ⟨fs, d, hfs, hd, hr⟩
    have hrole : (fs.map FieldDecl.role)[k]? = some (.promotes s) := by
      rw [List.getElem?_map, hd, ← hr]
      rfl
    rcases hrecord hw with ⟨rfl, hv⟩ | ⟨rfl, hv⟩
    · rw [hsafe fs hfs] at hrole
      cases hv
      rcases k with _ | _ | _ | k
      · simp only [List.getElem?_cons_zero, Option.some.injEq, Role.promotes.injEq] at hrole
        subst hrole
        exact ⟨_, rfl, .inr ⟨_, rfl⟩⟩
      all_goals simp at hrole
    · rw [howner fs hfs] at hrole
      rcases k with _ | _ | k <;> simp at hrole

/-- Safes with other pins and codes differ only in hidden fields. -/
theorem veiled_safe (pin pin' : String) (code code' : Int) :
    safes.Veiled (safeWith pin code) (safeWith pin' code') := by
  have hcode : Hides safes.family "Safe" 2 := by decide +kernel
  have hpin : Hides safes.family "Owner" 1 := by decide +kernel
  refine .record rfl ?_
  intro i x y hi hx hy
  rcases i with _ | _ | _ | i
  · cases hx
    cases hy
    refine .ptr (.record rfl ?_)
    intro i x y hi hx hy
    rcases i with _ | _ | i
    · cases hx
      cases hy
      exact .refl _
    · exact absurd hpin hi
    · cases hx
  · cases hx
    cases hy
    exact .refl _
  · exact absurd hcode hi
  · cases hx

/-- The name of the owner is found whatever the pin is, and an assign to it keeps the pin. -/
theorem safe_kept :
    (∃ x, safes.Finds (safeWith "1234" 7) ⟨"/name"⟩ x ∧
      safes.Finds (safeWith "0000" 9) ⟨"/name"⟩ x) ∧
    ∃ doc' fields', safes.assign (safeWith "1234" 7) ⟨"/name"⟩ (.string "Eve") = (.ok (), doc') ∧
      safes.OnWay doc' ⟨"/name"⟩ .root [0] "Owner" fields' ∧
      fields'[1]? = some (.string "1234") := by
  have hnames : (Members.names safes.records).Nodup := by decide +kernel
  have hpath : safes.fieldPath "Safe" ⟨"name"⟩ = .ok [0, 0] := by decide +kernel
  have hpin : Hides safes.family "Owner" 1 := by decide +kernel
  have hok : (safes.assign (safeWith "1234" 7) ⟨"/name"⟩ (.string "Eve")).1.isOk = true := by
    decide +kernel
  have htext : (safes.seek (safeWith "1234" 7) ⟨"/name"⟩).toOption.map Val.typeOf =
      some .string := by decide +kernel
  obtain ⟨hveiled, hcalls⟩ :=
    hidden_out_of_reach plain_safes hnames (matched_safe "1234" 7) ⟨"/name"⟩
  constructor
  · rcases hveiled _ (veiled_safe "1234" "0000" 7 9) with ⟨stop, hs, -⟩ | ⟨x, y, hx, hy, -, heq⟩
    · rw [Stops] at hs
      rw [hs] at htext
      cases htext
    · rw [finds_iff.1 hx] at htext
      have hconceals : ¬safes.Conceals x := by
        intro hc
        cases hc <;> cases htext
      exact ⟨x, hx, heq hconceals ▸ hy⟩
  · obtain ⟨doc', hdoc⟩ := Attempt.done_of_isOk hok
    have howner : safes.RecordAt [0] (safeWith "1234" 7) "Owner" [.string "Ada", .string "1234"] :=
      (recordAt_cons plain_safes rfl).2 ⟨_, rfl, _, rfl, rfl⟩
    have hway : safes.OnWay (safeWith "1234" 7) ⟨"/name"⟩ .root [0] "Owner"
        [.string "Ada", .string "1234"] :=
      ⟨⟨"/name"⟩, ⟨"name"⟩, .root, _, (Pointer.root_append _).symm, rfl, rfl,
        .inr ⟨"Safe", _, 0, [], rfl, hpath⟩, howner⟩
    obtain ⟨fields', hway', hkept⟩ := hcalls _ doc' (.inl ⟨_, hdoc⟩) _ _ _ _ hway
    exact ⟨doc', fields', hdoc, hway', hkept 1 hpin⟩

end DocPointer.Schema
