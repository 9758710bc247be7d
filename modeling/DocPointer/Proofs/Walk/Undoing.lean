/-
  Deleting what was added.

  An assign may add an entry to a map, or an element behind the last of a growing sequence
  (`Makes`).  A delete by the token that names the entry or the element takes it out again,
  and what is left are the parts that were there before, in their order
  (`removeBare_made`).

  Where no region is on the way, the document is the same again (`deleteTokens_made`).  A region
  on the way is cut off the walk (`Enters.cut`); in the value that it spells there is no
  other one, and a delete looks at no numbers.  So the value that was spelled there is
  written again, with the numbers that were read in between (`RespellsBy`).

  * `delete_assign`: calls.  In `respelled_in_between` a double is read in between as another one,
    and an entry is not taken out because the region nests too deep to be read.
-/
import DocPointer.Proofs.Walk.Removal

namespace DocPointer.Schema

open Samples

/-- An assign by `t` adds a part to the container `w`: an entry, if it does not fail, or an element
    behind the last.  Once the part is there, it is named by `u`. -/
inductive Makes (Γ : Schema) (t : Token) (w : Val) (u : Token) : Prop where
  | entry {key : KeyTy} {order : EntryOrder} {elem : Ty} {entries : Entries Val} :
      Γ.node w = .map key order elem entries →
      (∀ k, key.ofToken t.decoded = .ok k → Entries.get? k entries = none) → u = t → Makes Γ t w u
  | item {elem : Ty} {items : List Val} :
      Γ.node w = .slice elem none items → t.index items.length = .ok items.length →
      (t.isAppend = true → items.length ≤ maxInt) →
      u = (if t.isAppend then .ofPosition items.length else t) → Makes Γ t w u

/-- The second bytes are written for the value that the first spell, with other numbers. -/
def RespellsBy (Γ : Schema) (g : Number → Number) (b b' : ByteArray) : Prop :=
  ∃ j : Json, Json.ofBytes? Γ.reading b = some j ∧ b' = (j.renumber g).toBytes

variable {Γ : Schema} {t u : Token} {ts : List Token} {v v' w w' x : Val} {doc doc' : Val}
  {p : Pointer} {here here' : Pointer} {f g : Val → Outcome}

/-! ## Containers -/

theorem Makes.node_ne_nil (h : Γ.Makes t w u) : Γ.node w ≠ .nil := by
  cases h with
  | entry hn | item hn => simp [hn]

theorem Makes.spelled (h : Γ.Makes t w u) (ht : t.Spelled) : u.Spelled := by
  cases h with
  | entry _ _ hu => exact hu ▸ ht
  | item _ _ _ hu =>
    rw [hu]
    split
    · exact Pointer.spelled_ofPosition _
    · exact ht

/-- An entry that was added is taken out. -/
theorem removeBare_newEntry {key : KeyTy} {order : EntryOrder} {elem : Ty} {entries : Entries Val}
    (hn : Γ.node w = .map key order elem entries)
    (hnone : ∀ k, key.ofToken t.decoded = .ok k → Entries.get? k entries = none)
    (hf : ∀ {c d : Val}, f c = (.ok (), d) → c.Fits d)
    (h : Γ.descendBare here t f w = .done w') : Γ.removeBare here' t true g w' = .done w := by
  cases hk : key.ofToken t.decoded with
  | error e =>
    simp only [descendBare, hn, hk] at h
    cases h
  | ok k =>
    have hc := hnone k hk
    simp only [descendBare, hn, hk, hc] at h
    obtain ⟨c, hfc, rfl⟩ := Attempt.within_ok h
    simp only [removeBare, node_set_newEntry hn hk hc (hf hfc), hk, if_true]
    rw [Val.withEntries_withEntries, Entries.remove_set, Entries.remove_insert order _ hc,
      withEntries_of_node_map hn]

/-- An element that was added is taken out. -/
theorem removeBare_newItem (hΓ : Γ.Plain) {elem : Ty} {items : List Val}
    (hn : Γ.node w = .slice elem none items) (hi : t.index items.length = .ok items.length)
    (hmax : t.isAppend = true → items.length ≤ maxInt)
    (hf : ∀ {c d : Val}, f c = (.ok (), d) → c.Fits d)
    (h : Γ.descendBare here t f w = .done w') :
    Γ.removeBare here' (if t.isAppend then .ofPosition items.length else t) true g w' =
      .done w := by
  simp only [descendBare, hn, hi, if_true] at h
  obtain ⟨c, hfc, rfl⟩ := Attempt.within_ok h
  have hw := node_push hΓ hn (hf hfc)
  have hlen : ((items ++ [Γ.zero elem]).set items.length c).length = items.length + 1 := by simp
  have hindex : (if t.isAppend then Token.ofPosition items.length else t).index
      (items.length + 1) = .ok items.length :=
    (Token.existing_eq_ok.1 (existing_landed hi (Nat.lt_succ_self _) fun ha =>
      ⟨rfl, Nat.succ_le_succ (hmax ha)⟩)).1
  have hback : ((items ++ [Γ.zero elem]).set items.length c).eraseIdx items.length = items := by
    simp [List.eraseIdx_append_of_length_le]
  simp only [removeBare, hw, hlen, hindex, Nat.ne_of_lt (Nat.lt_succ_self items.length), if_false,
    if_true]
  rw [hΓ.withItems_withItems, hback, withItems_of_node_slice hn]

theorem removeBare_made (hΓ : Γ.Plain) (hmakes : Γ.Makes t w u)
    (hf : ∀ {c d : Val}, f c = (.ok (), d) → c.Fits d)
    (h : Γ.descendBare here t f w = .done w') : Γ.removeBare here' u true g w' = .done w := by
  cases hmakes with
  | entry hn hnone hu =>
    subst hu
    exact removeBare_newEntry hn hnone hf h
  | item hn hi hmax hu =>
    subst hu
    exact removeBare_newItem hΓ hn hi hmax hf h

/-! ## Walks -/

section
variable {redirect : Val → Pointer → Except Stop Val} (hΓ : Γ.Plain)
  (hnames : (Members.names Γ.records).Nodup)
include hΓ

/-- A walk that goes on in a region comes to it through none. -/
theorem Enters.cut {bytes : ByteArray} (h : Γ.Enters ts doc bytes) : ∃ os is r, ts = os ++ is ∧
    is ≠ [] ∧ r.target = .raw bytes ∧ (∀ b, ¬Γ.Enters os doc b) ∧
      ∀ redirect, Γ.resolveTokens redirect os doc = .ok r := by
  induction h with
  | @here t ts v bytes hv =>
    refine ⟨[], t :: ts, v, rfl, List.cons_ne_nil t ts, hv, ?_, fun _ => rfl⟩
    intro b hb
    cases hb
  | @later t ts v c bytes hc _ ih =>
    obtain ⟨os, is, r, rfl, his, hr, hnot, hfound⟩ := ih
    refine ⟨t :: os, is, r, rfl, his, hr, ?_, ?_⟩
    · intro b hb
      cases hb with
      | here hb =>
        obtain ⟨v₀, ho, hc⟩ := select_eq_ok.1 hc
        rcases opened_cases ho with ⟨-, hv⟩ | ⟨-, j, -, -, -, rfl⟩
        · exact hv b hb
        · obtain ⟨i, rfl⟩ := json_of_selectBare hc
          obtain ⟨k, rfl⟩ := json_of_resolveTokens hΓ (hfound (Γ.find 0))
          cases hr
      | later hc' hb =>
        cases hc.symm.trans hc'
        exact hnot b hb
    · exact fun redirect => (resolveTokens_cons_ok hΓ).2 ⟨c, hc, hfound redirect⟩

/-- What a walk leads to, and is opened, it leads to in what its start is opened as. -/
theorem opened_resolveTokens (hv : Γ.resolveTokens redirect ts doc = .ok v)
    (ho : Γ.opened v = .ok w) : ∃ doc₀ v₀, Γ.opened doc = .ok doc₀ ∧
      Γ.resolveTokens redirect ts doc₀ = .ok v₀ ∧ Γ.opened v₀ = .ok w := by
  cases ts with
  | nil =>
    cases hv
    exact ⟨w, w, ho, rfl, opened_opened ho⟩
  | cons t ts =>
    obtain ⟨c, hc, -⟩ := (resolveTokens_cons_ok hΓ).1 hv
    obtain ⟨doc₀, hd, -⟩ := select_eq_ok.1 hc
    exact ⟨doc₀, v, hd, (resolveTokens_opened hΓ hd t ts).symm.trans hv, ho⟩

/-- Something is found in it, or it is what is opened at the end. -/
theorem node_ne_nil_of_resolveTokens (hd : Γ.opened doc = .ok doc)
    (hv : Γ.resolveTokens redirect ts doc = .ok v) (ho : Γ.opened v = .ok w)
    (hn : Γ.node w ≠ .nil) : Γ.node doc ≠ .nil := by
  cases ts with
  | nil =>
    cases hv
    cases hd.symm.trans ho
    exact hn
  | cons t ts =>
    obtain ⟨c, hc, -⟩ := (resolveTokens_cons_ok hΓ).1 hv
    rw [select_of_opened hd] at hc
    exact node_ne_nil_of_selectBare hc

include hnames

section
variable {r : Val → Pointer → Val → Outcome} (r' : Val → Pointer → Outcome)
  (hv : Γ.resolveTokens redirect ts doc = .ok v) (ho : Γ.opened v = .ok w) (hx : x.Proper)
  (hmakes : Γ.Makes t w u) (h : Γ.assignTokens r (ts ++ [t]) doc x = (.ok (), doc'))
include hv ho hx hmakes h

/-- What an assign has added to the container that a walk finds, a delete takes out again, if no
    region is on the way. -/
theorem deleteTokens_made (hnot : ∀ bytes, ¬Γ.Enters (ts ++ [t]) doc bytes) :
    Γ.deleteTokens r' (ts ++ [u]) doc' = (.ok (), doc) := by
  obtain ⟨v', hstep, hfit, rfl⟩ := assignTokens_put hΓ hnames hx hv h
  obtain ⟨w', hw, rfl⟩ := (assignTokens_bare hΓ ho hmakes.node_ne_nil r t []).1 hstep
  have hfits {c d : Val} : Γ.assignTokens r [] c x = (.ok (), d) → c.Fits d :=
    fits_of_assignTokens hΓ hx r []
  have hfit₀ := (descendBare_step (.ofTokens [t]) t w).fits hfits hw
  have ht := target_of_opened ho hmakes.node_ne_nil hfit₀
  have hraw (bytes : ByteArray) (hb : v.target = .raw bytes) : False :=
    hnot bytes (enters_of_resolveTokens hΓ hv (.here hb))
  have ho' := opened_enclose ho ht hfit₀ fun bytes hb => (hraw bytes hb).elim
  -- the container is put back where it was found
  have hundone : Γ.deleteTokens r' [u] (v.enclose w') = (.ok (), v.enclose w) := by
    refine (deleteTokens_bare hΓ ho' r' u []).2 ⟨w, removeBare_made hΓ hmakes hfits hw, ?_⟩
    exact (enclose_enclose ho ht hfit₀ w).symm
  have hbefore := rereads_of_not_enters (w := Γ.put ts doc (v.enclose w')) hΓ
    fun bytes hb => hnot bytes (hb.append [t])
  have hfound := resolveTokens_put hΓ hnames hv hfit hbefore
  have hrun := (deleteTokens_put hΓ hnames (List.cons_ne_nil u []) hfound).2 ⟨_, hundone, rfl⟩
  rw [put_put hΓ hnames hv hfit hbefore] at hrun
  have hsame : doc.Alike (fun _ _ => False) (Γ.put ts doc (v.enclose w)) :=
    alike_put hΓ hnames (List.cons_ne_nil t []) hv ho fun bytes _ hb _ => hnot bytes hb
  rw [hrun, hsame.eq fun _ _ => id]

/-- In a region the value that was spelled there is written again, with the numbers that are read
    after the assign. -/
theorem deleteTokens_made_raw {bytes : ByteArray} (hb : doc.target = .raw bytes) :
    ∃ j b', Json.ofBytes? Γ.reading bytes = some j ∧ doc'.target = .raw b' ∧
      ∀ g, Γ.RereadsBy g b' →
        Γ.deleteTokens r' (ts ++ [u]) doc' = (.ok (), doc.enclose (.json (j.renumber g))) := by
  obtain ⟨doc₀, v₀, hd, hv₀, ho₀⟩ := opened_resolveTokens hΓ hv ho
  have hn := node_ne_nil_of_resolveTokens hΓ (opened_opened hd) hv₀ ho₀ hmakes.node_ne_nil
  obtain ⟨w₀, hw₀, rfl⟩ := (assignTokens_enclose hΓ hd hn r (by simp)).1 h
  have hfit := fits_of_assignTokens hΓ hx r _ hw₀
  rcases opened_cases hd with ⟨-, hr⟩ | ⟨b, j, hb', -, hj, rfl⟩
  · exact absurd hb (hr bytes)
  obtain rfl : bytes = b := Val.raw.inj (hb.symm.trans hb')
  obtain ⟨k, rfl⟩ := Val.eq_json_of_typeOf hfit.1
  have htarget : (doc.enclose (.json k)).target = .raw k.toBytes :=
    Val.target_enclose_of_raw hb (.json k)
  refine ⟨j, _, hj, htarget, fun g hg => ?_⟩
  -- in the value that the region spells there is no other one
  have hundone := deleteTokens_made hΓ hnames r' hv₀ ho₀ hx hmakes hw₀ fun _ => not_enters_json
  obtain ⟨j', hj', -, hrenumber⟩ := blind_deleteTokens r' (ts ++ [u]) k _ hundone
  cases hj'
  have hopened := opened_enclose_renumber (g := g) hd rfl hfit
    (fun b b' _ hb' => Val.raw.inj (htarget.symm.trans hb') ▸ hg) fun hr => absurd hb (hr bytes)
  refine (deleteTokens_enclose hΓ hopened r' (by simp)).2 ⟨_, hrenumber g, ?_⟩
  exact (enclose_enclose hd rfl hfit _).symm

/-- So it is in a region on the way, if what the assign has written there can be read. -/
theorem deleteTokens_made_region {bytes : ByteArray} (hin : Γ.Enters (ts ++ [t]) doc bytes)
    (hread : ∀ b, Γ.Enters (ts ++ [t]) doc' b → Γ.Readable b) :
    ∃ doc'', Γ.deleteTokens r' (ts ++ [u]) doc' = (.ok (), doc'') ∧
      doc.Alike (fun b b' => Γ.Enters (ts ++ [t]) doc b ∧
        Γ.RespellsBy (Γ.renumbering (ts ++ [t]) doc doc') b b') doc'' := by
  obtain ⟨os, is, s, hcut, his, hs, hnot, hfound⟩ := hin.cut hΓ
  obtain ⟨is, t', rfl⟩ := (List.eq_nil_or_concat' is).resolve_left his
  obtain ⟨rfl, ht⟩ := List.append_inj' (hcut.trans (List.append_assoc os is [t']).symm) rfl
  obtain rfl : t = t' := List.singleton_injective ht
  rw [resolveTokens_append_of_ok hΓ (hfound redirect)] at hv
  rw [List.append_assoc] at h
  obtain ⟨s', hstep, hfit, rfl⟩ := assignTokens_put hΓ hnames hx (hfound redirect) h
  obtain ⟨j, b', hj, hb', hdelete⟩ :=
    deleteTokens_made_raw hΓ hnames r' hv ho hx hmakes hstep hs
  have hbefore := rereads_of_not_enters (w := Γ.put os doc s') hΓ hnot
  have hfound' := resolveTokens_put hΓ hnames (hfound redirect) hfit hbefore
  have hin' : Γ.Enters (os ++ is ++ [t]) (Γ.put os doc s') b' := by
    rw [List.append_assoc]
    exact enters_of_resolveTokens hΓ hfound' (enters_of_raw his hb')
  -- the region is put back where it was found
  have hundone := hdelete _ (rereadsBy_renumbering hin hin' (hread b' hin').rereadsBy)
  have hfit' := fits_of_deleteTokens hΓ r' _ hundone
  have hrun := (deleteTokens_put hΓ hnames (by simp) hfound').2 ⟨_, hundone, rfl⟩
  rw [put_put hΓ hnames (hfound redirect) hfit hbefore, ← List.append_assoc] at hrun
  refine ⟨_, hrun, ?_⟩
  have hchanged := (put_spec hΓ hnames (hfound redirect) (hfit.trans hfit')).2.1
  refine hchanged.alike hΓ (hfound redirect) ?_ fun b i hb => absurd hb (hnot b)
  rintro y ⟨-, rfl⟩
  exact alike_enclose_json hs ⟨hin, j, hj, rfl⟩

end

end

/-! ## Calls -/

/-- **Deleting what was added undoes the assign.**  Where the walk before the last token leads to a
    map without the entry, or to a growing sequence that ends at the position, an assign that
    works is undone by a delete at the pointer, with the position of the new element in place of a
    last `-`.  If a region is on the way, what the assign has written there must not nest too
    deep to be read; then the delete works too, and nothing but the region has other bytes:
    those for the value that it spelled, with the numbers that were read in between, which are
    the same if what the assign has written is read as such. -/
theorem delete_assign (hΓ : Γ.Plain) (hnames : (Members.names Γ.records).Nodup) (hx : x.Proper)
    (hts : p.tokens = ts ++ [t]) (hv : Γ.Finds doc (.ofTokens ts) v) (ho : Γ.opened v = .ok w)
    (hmakes : Γ.Makes t w u) (h : Γ.assign doc p x = (.ok (), doc'))
    (hread : ∀ b b', Γ.Enters p.tokens doc b → Γ.Enters p.tokens doc' b' → Γ.Readable b') :
    ∃ doc'', Γ.delete doc' (.ofTokens (ts ++ [u])) = (.ok (), doc'') ∧
      doc.Alike (fun b b' => Γ.Enters p.tokens doc b ∧
        Γ.RespellsBy (Γ.renumbering p.tokens doc doc') b b') doc'' ∧
      ((∀ b, Γ.Enters p.tokens doc' b → Γ.Rereads b) →
        doc.Alike (fun b b' => Γ.Enters p.tokens doc b ∧ Γ.Respells b b' ∧
          (Γ.Rereads b' → Γ.SameSpelled b b')) doc'') ∧
      ((∀ b, ¬Γ.Enters p.tokens doc b) → doc'' = doc) := by
  obtain ⟨hp, hrun⟩ := assign_ok_iff.1 h
  obtain ⟨hspelled, hlast⟩ := Pointer.spelled_of_cut hp hts
  rw [finds_ofTokens hspelled] at hv
  have hspelled' : ∀ s ∈ ts ++ [u], s.Spelled := by
    have hu := hmakes.spelled (List.forall_mem_singleton.1 hlast)
    exact List.forall_mem_append.2 ⟨hspelled, List.forall_mem_singleton.2 hu⟩
  rw [hts] at hrun hread ⊢
  suffices hundone : ∃ doc'', Γ.deleteTokens (Γ.discard Γ.redirects) (ts ++ [u]) doc' =
      (.ok (), doc'') ∧ doc.Alike (fun b b' => Γ.Enters (ts ++ [t]) doc b ∧
        Γ.RespellsBy (Γ.renumbering (ts ++ [t]) doc doc') b b') doc'' by
    obtain ⟨doc'', hdelete, halike⟩ := hundone
    rw [← Pointer.tokens_ofTokens hspelled'] at hdelete
    refine ⟨doc'', delete_ok_iff.2 ⟨Pointer.validate_ofTokens hspelled', hdelete⟩, halike, ?_, ?_⟩
    · intro hrereads
      rw [renumbering_of_rereads hrereads] at halike
      refine halike.mono fun b b' h => ?_
      obtain ⟨hb, j, hj, rfl⟩ := h
      rw [Json.renumber_id]
      exact ⟨hb, ⟨j, hj, rfl⟩, fun h => ⟨j, hj, h j (Json.wellformed_of_ofBytes? hj) rfl⟩⟩
    · exact fun hnone => halike.eq fun b b' h => hnone b h.1
  by_cases hin : ∃ b, Γ.Enters (ts ++ [t]) doc b
  · obtain ⟨b, hin⟩ := hin
    exact deleteTokens_made_region hΓ hnames _ hv ho hx hmakes hrun hin fun b' => hread b b' hin
  · exact ⟨doc, deleteTokens_made hΓ hnames _ hv ho hx hmakes hrun (not_exists.1 hin), .refl doc⟩

/-- An entry is added to the notes of a job and taken out again, and so is a step. -/
theorem busyJob_undone :
    (∃ doc' doc'', jobs.assign busyJob ⟨"/notes/size"⟩ (.int .i64 1) = (.ok (), doc') ∧
      jobs.delete doc' ⟨"/notes/size"⟩ = (.ok (), doc'') ∧ busyJob.Alike jobs.SameSpelled doc'') ∧
    ∃ doc', jobs.assign busyJob ⟨"/steps/-"⟩ (.map .hashed .string i64 []) = (.ok (), doc') ∧
      jobs.delete doc' ⟨"/steps/1"⟩ = (.ok (), busyJob) := by
  have hnames : (Members.names jobs.records).Nodup := by decide +kernel
  have hrereads (bytes : ByteArray) : jobs.Rereads bytes := (faithful_of_exact rfl).rereads bytes
  have hfield {t : Token} {path : List Nat} {c : Val} (hp : jobs.fieldPath "Job" t = .ok path)
      (hc : jobs.follow path busyJob = some c) : jobs.select t busyJob = .ok c :=
    select_eq_ok.2 ⟨busyJob, rfl, (selectBare_field (plain_jobs.node_record ..)).2 ⟨path, hp, hc⟩⟩
  have hfinds {t u : Token} {c : Val} {p : Pointer} (hp : p.validate = .ok ())
      (hts : p.tokens = [t] ++ [u]) (hc : jobs.select t busyJob = .ok c) :
      jobs.Finds busyJob (.ofTokens [t]) c :=
    (finds_ofTokens (Pointer.spelled_of_cut hp hts).1).2
      ((resolveTokens_cons_ok plain_jobs).2 ⟨c, hc, rfl⟩)
  constructor
  · have hok : (jobs.assign busyJob ⟨"/notes/size"⟩ (.int .i64 1)).1.isOk = true := by
      decide +kernel
    have htokens : Pointer.tokens ⟨"/notes/size"⟩ = [⟨"notes"⟩] ++ [⟨"size"⟩] := by decide
    have hpointer : Pointer.ofTokens ([⟨"notes"⟩] ++ [⟨"size"⟩]) = ⟨"/notes/size"⟩ := by decide
    have hpath : jobs.fieldPath "Job" ⟨"notes"⟩ = .ok [2] := by decide +kernel
    have hports : (Json.arr [.str "http"]).Wellformed :=
      Json.wellformed_arr.2 (List.forall_mem_singleton.2 trivial)
    have hnotes : (Json.obj [("ports", .arr [.str "http"])]).Wellformed :=
      Json.wellformed_obj.2 ⟨List.nodup_singleton _, List.forall_mem_singleton.2 hports⟩
    have hmakes : jobs.Makes ⟨"size"⟩ (.json (.obj [("ports", .arr [.str "http"])])) ⟨"size"⟩ := by
      refine .entry rfl ?_ rfl
      intro k hk
      cases hk
      decide
    obtain ⟨doc', h⟩ := Attempt.done_of_isOk hok
    obtain ⟨doc'', hdelete, -, halike, -⟩ := delete_assign plain_jobs hnames (x := .int .i64 1)
      trivial htokens (hfinds rfl htokens (hfield hpath rfl))
      (opened_toBytes (faithful_of_exact rfl) hnotes).1 hmakes h
      fun b b' _ _ => (hrereads b').readable
    have hsame := halike fun b _ => hrereads b
    exact ⟨doc', doc'', h, hpointer ▸ hdelete, hsame.mono fun b b' h => h.2.2 (hrereads b')⟩
  · have hok : (jobs.assign busyJob ⟨"/steps/-"⟩ (.map .hashed .string i64 [])).1.isOk = true := by
      decide +kernel
    have htokens : Pointer.tokens ⟨"/steps/-"⟩ = [⟨"steps"⟩] ++ [⟨"-"⟩] := by decide
    have hpointer : Pointer.ofTokens ([⟨"steps"⟩] ++ [.ofPosition 1]) = ⟨"/steps/1"⟩ := by
      decide +kernel
    have hpath : jobs.fieldPath "Job" ⟨"steps"⟩ = .ok [1] := by decide +kernel
    have hsteps := hfield hpath rfl
    have hmakes : jobs.Makes ⟨"-"⟩ (.slice (hashed i64)
        [.map .hashed .string i64 [(.text "cpu", .int .i64 1)]]) (.ofPosition 1) :=
      .item rfl (by decide) (fun _ => by decide) (by decide +kernel)
    obtain ⟨doc', h⟩ := Attempt.done_of_isOk hok
    obtain ⟨doc'', hdelete, -, -, hsame⟩ := delete_assign plain_jobs hnames
      (x := .map .hashed .string i64 []) trivial htokens (hfinds rfl htokens hsteps) rfl hmakes h
      fun b b' _ _ => (hrereads b').readable
    have hnone (b : ByteArray) : ¬jobs.Enters (Pointer.tokens ⟨"/steps/-"⟩) busyJob b := by
      rw [htokens]
      rintro (hb | ⟨hc, hb | ⟨-, hb⟩⟩)
      · cases hb
      · cases hsteps.symm.trans hc
        cases hb
      · cases hb
    exact ⟨doc', h, hpointer ▸ hsame hnone ▸ hdelete⟩

/-- A double that the program has read may be written, beside the entry that is added and taken out
    again, such that it reads another; and an entry that nests too deep is not taken out. -/
theorem respelled_in_between :
    let Γ := Command.noRecords Command.reading
    let doc := Command.region "\x7b\"a\":22e23\x7d"
    let deep := Command.region "\x7b\"a\":\x7b\"a\":\x7b\"a\":\x7b\x7d\x7d\x7d,\"c\":1\x7d";
    (∃ y doc' doc'', Γ.Finds doc ⟨"/a"⟩ y ∧ (∀ x, ¬Γ.Finds doc ⟨"/b"⟩ x) ∧
      Γ.assign doc ⟨"/b"⟩ (.int .i64 1) = (.ok (), doc') ∧
      Γ.delete doc' ⟨"/b"⟩ = (.ok (), doc'') ∧ ¬Γ.Finds doc'' ⟨"/a"⟩ y) ∧
    ∃ w doc', Γ.Finds deep ⟨"/a/a/a"⟩ w ∧ Γ.Makes ⟨"b"⟩ w ⟨"b"⟩ ∧
      Γ.assign deep ⟨"/a/a/a/b"⟩ (.json (nested 123)) = (.ok (), doc') ∧
      ∀ doc'', Γ.delete doc' ⟨"/a/a/a/b"⟩ ≠ (.ok (), doc'') := by
  intro Γ doc deep
  constructor
  · have hthere : (Γ.seek doc ⟨"/b"⟩).isOk = false := by decide +kernel
    have hok : (Γ.assign doc ⟨"/b"⟩ (.int .i64 1)).1.isOk = true := by decide +kernel
    have hok' : (Γ.delete (Γ.assign doc ⟨"/b"⟩ (.int .i64 1)).2 ⟨"/b"⟩).1.isOk = true := by
      decide +kernel
    have hbefore : (Γ.seek doc ⟨"/a"⟩).toOption.map (·.asJson.text) =
        some "2.1999999999999997e+24" := by decide +kernel
    have hafter : (Γ.seek (Γ.delete (Γ.assign doc ⟨"/b"⟩ (.int .i64 1)).2 ⟨"/b"⟩).2
        ⟨"/a"⟩).toOption.map (·.asJson.text) = some "2.1999999999999995e+24" := by decide +kernel
    obtain ⟨doc', hdoc⟩ := Attempt.done_of_isOk hok
    rw [hdoc] at hok' hafter
    obtain ⟨doc'', hdoc'⟩ := Attempt.done_of_isOk hok'
    rw [hdoc'] at hafter
    obtain ⟨y, hy, hlost⟩ := lost_of_ne hbefore hafter (by simp)
    refine ⟨y, doc', doc'', hy, ?_, hdoc, hdoc', hlost⟩
    intro x hx
    rw [finds_iff.1 hx] at hthere
    cases hthere
  · have hΓ : Γ.Plain := plain_of_records (by simp [Γ, Command.noRecords])
    have htokens : Pointer.tokens ⟨"/a/a/a/b"⟩ = [⟨"a"⟩, ⟨"a"⟩, ⟨"a"⟩, ⟨"b"⟩] := by decide
    have hfound : Γ.Finds deep ⟨"/a/a/a"⟩ (.json (.obj [])) := rfl
    have hmakes : Γ.Makes ⟨"b"⟩ (.json (.obj [])) ⟨"b"⟩ := .entry rfl (fun _ _ => rfl) rfl
    obtain ⟨k, e, hdoc, hnot⟩ := assign_too_deep
    refine ⟨_, _, hfound, hmakes, hdoc, fun doc'' h => ?_⟩
    obtain ⟨-, h⟩ := delete_ok_iff.1 h
    rw [htokens] at h
    obtain ⟨-, b, hb, hempty⟩ := deleteTokens_of_unopened hΓ hnot h
    obtain rfl := Val.raw.inj hb
    rw [Json.isEmpty_toBytes] at hempty
    cases hempty

end DocPointer.Schema
