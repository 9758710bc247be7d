/-
  What the commands accept.

  No command checks its texts before it starts.  The document is decoded when a token leads into
  it, and the value when it is put into a decoded document; and a region is decoded when it is
  told.  A text that is decoded is JSON text, or empty, which stands for null.  So a command that
  works has been given JSON text, unless a text is empty or the document is replaced at its root.

  * `decoded_of_resolve`, `decoded_of_assign` and `decoded_of_delete`: which regions have been
    decoded when a call works, from the walks below them.
  * `assign_congr_value` and `assign_congr_doc`: of a text counts what it spells.
  * `accepts_json`: the commands.
-/
import DocPointer.Proofs.Command
import DocPointer.Proofs.Json.Grammar

namespace DocPointer

theorem Pointer.eq_root_of_tokens {p : Pointer} (hp : p.validate = .ok ())
    (h : p.tokens = []) : p = root := by
  rw [← ofTokens_tokens hp, h]
  rfl

theorem Pointer.eq_of_parse_root {s : String} (h : parse s = .ok root) : s = "" ∨ s = "#" := by
  rw [parse] at h
  split at h
  · next cs hs =>
    have hcs : cs = [] := by simpa [root] using (of_validate_map h).1
    rw [← String.ofList_toList (s := s), hs, hcs]
    exact .inr rfl
  · exact .inl (congrArg text (of_validate_map h).1)

theorem Pointer.parse_root {s : String} (h : s = "" ∨ s = "#") : parse s = .ok root := by
  rcases h with rfl | rfl <;> decide +kernel

/-! ## Walks -/

namespace Schema

variable {Γ : Schema} {p : Pointer} {t : Token} {ts : List Token} {v w x : Val} {i : Json}
  {bytes bytes' : ByteArray}

/-- A JSON value takes a region if this can be decoded. -/
theorem decoded_of_store (h : Γ.store (.json i) (.raw bytes) = (.ok (), w)) :
    ∃ j, Γ.regionValue? bytes = some j := by
  cases hj : Γ.regionValue? bytes with
  | some j => exact ⟨j, rfl⟩
  | none =>
    have hstore : Γ.store (.json i) (.raw bytes) = .refuse ⟨.codec, .json⟩ (.json i) := by
      simp [store, offer, adopts?, encode, Val.typeOf, hj]
    rw [hstore] at h
    cases h

theorem decoded_of_deliver (h : Γ.deliver (.json i) (.raw bytes) = (.ok (), w)) :
    ∃ j, Γ.regionValue? bytes = some j := by
  rw [deliver] at h
  split at h
  · next hstore => exact decoded_of_store hstore
  · split at h <;> cases h

/-- A walk that only looks and finds something has decoded the region, which is not empty. -/
theorem decoded_of_resolveTokens {redirect : Val → Pointer → Except Stop Val}
    (h : Γ.resolveTokens redirect (t :: ts) (.raw bytes) = .ok x) :
    bytes.isEmpty = false ∧ ∃ j, Γ.regionValue? bytes = some j := by
  have hselect : ∃ c, Γ.select t (.raw bytes) = .ok c := by
    simp only [resolveTokens, Val.target, hooks, Hooks.silent] at h
    cases hc : Γ.select t (.raw bytes) with
    | error e =>
      rw [hc] at h
      cases h
    | ok c => exact ⟨c, rfl⟩
  obtain ⟨c, hc⟩ := hselect
  simp only [select, opened, Val.target] at hc
  cases he : bytes.isEmpty with
  | true => simp [he, Except.bind] at hc
  | false =>
    cases hj : Γ.regionValue? bytes with
    | none => simp [he, hj, Except.bind] at hc
    | some j => exact ⟨rfl, j, rfl⟩

section
variable {redirect : Val → Pointer → Val → Outcome}

/-- An assign of a region in a JSON value has decoded the region. -/
theorem decoded_of_assignTokens_json (hv : v.IsJson)
    (h : Γ.assignTokens redirect ts v (.raw bytes) = (.ok (), w)) :
    ∃ j, Γ.regionValue? bytes = some j := by
  induction ts generalizing v w with
  | nil =>
    obtain ⟨i, rfl, -⟩ := hv
    rw [assignTokens] at h
    rcases hstore : Γ.store (.json i) (.raw bytes) with ⟨_ | _, u⟩
    · rw [hstore] at h
      cases h
    · exact decoded_of_store hstore
  | cons t ts ih =>
    obtain ⟨i, rfl, hi⟩ := hv
    rw [assignTokens_json_cons] at h
    cases descendJson_step (Γ := Γ) (.ofTokens (t :: ts)) t i with
    | stops s hs => rw [hs] at h; cases h
    | ends _ _ _ hfalse => exact hfalse.elim
    | leads P hP of _ =>
      rw [hP] at h
      obtain ⟨c, hc, -⟩ := Attempt.within_ok h
      exact ih (of.isJson_part ⟨i, rfl, hi⟩) hc

/-- An assign of a region in a region has decoded both. -/
theorem decoded_of_assignTokens
    (h : Γ.assignTokens redirect (t :: ts) (.raw bytes) (.raw bytes') = (.ok (), w)) :
    (∃ j, Γ.regionValue? bytes = some j) ∧ ∃ j, Γ.regionValue? bytes' = some j := by
  cases hj : Γ.regionValue? bytes with
  | none =>
    change Γ.descend _ t _ (.raw bytes) = _ at h
    rw [descend, hj] at h
    cases h
  | some j =>
    rw [assignTokens_region hj] at h
    obtain ⟨c, hc, -⟩ := Attempt.within_ok h
    exact ⟨⟨j, rfl⟩, decoded_of_assignTokens_json ⟨j, rfl, wellformed_of_regionValue? hj⟩ hc⟩

/-- Of a region that is assigned in a region counts what it spells. -/
theorem assignTokens_congr {bytes₁ bytes₂ : ByteArray} (h₁ : Γ.regionValue? bytes₁ = some i)
    (h₂ : Γ.regionValue? bytes₂ = some i) :
    Γ.assignTokens redirect (t :: ts) (.raw bytes) (.raw bytes₁) =
      Γ.assignTokens redirect (t :: ts) (.raw bytes) (.raw bytes₂) := by
  cases hj : Γ.regionValue? bytes with
  | none =>
    show Γ.descend _ t _ (.raw bytes) = Γ.descend _ t _ (.raw bytes)
    rw [descend, descend, hj]
  | some j =>
    have he₁ : Γ.encode (.raw bytes₁) = some i := h₁
    have he₂ : Γ.encode (.raw bytes₂) = some i := h₂
    rw [assignTokens_region hj, assignTokens_region hj,
      assignTokens_form he₁ he₂ redirect ⟨j, rfl, wellformed_of_regionValue? hj⟩]

end

/-- A delete in a region has decoded it. -/
theorem decoded_of_deleteTokens {redirect : Val → Pointer → Outcome}
    (h : Γ.deleteTokens redirect (t :: ts) (.raw bytes) = (.ok (), w)) :
    ∃ j, Γ.regionValue? bytes = some j := by
  change Γ.remove _ t _ _ (.raw bytes) = _ at h
  rw [remove] at h
  split at h
  · next he => exact ⟨.null, by rw [regionValue?, if_pos he]⟩
  · split at h
    · cases h
    · next j hj => exact ⟨j, hj⟩

/-! ## Calls -/

section
variable (hp : p.validate = .ok ())
include hp

theorem decoded_of_resolve (h : Γ.resolve (.raw bytes) (.json i) p = (.ok (), w)) :
    (∃ j, Γ.regionValue? bytes = some j) ∧ (bytes.isEmpty = true → p = .root) := by
  rw [resolve_eq hp, seek_eq hp] at h
  cases hts : p.tokens with
  | nil =>
    rw [hts, resolveTokens] at h
    rcases hdeliver : Γ.deliver (.json i) (.raw bytes) with ⟨_ | _, u⟩
    · simp only [hdeliver] at h
      cases h
    · exact ⟨decoded_of_deliver hdeliver, fun _ => Pointer.eq_root_of_tokens hp hts⟩
  | cons t ts =>
    rw [hts] at h
    cases hx : Γ.resolveTokens (Γ.find Γ.redirects) (t :: ts) (.raw bytes) with
    | error e =>
      rw [hx] at h
      cases h
    | ok x =>
      obtain ⟨hne, hj⟩ := decoded_of_resolveTokens hx
      refine ⟨hj, fun he => ?_⟩
      rw [hne] at he
      cases he

/-- An assign of a region to the root puts it in place of the document. -/
theorem decoded_of_assign (h : Γ.assign (.raw bytes) p (.raw bytes') = (.ok (), w)) :
    (p = .root ∧ w = .raw bytes') ∨
      (∃ j, Γ.regionValue? bytes = some j) ∧ ∃ j, Γ.regionValue? bytes' = some j := by
  rw [assign_eq hp, report_ok] at h
  cases hts : p.tokens with
  | nil =>
    rw [hts, assignTokens] at h
    cases h
    exact .inl ⟨Pointer.eq_root_of_tokens hp hts, rfl⟩
  | cons t ts =>
    rw [hts] at h
    exact .inr (decoded_of_assignTokens h)

theorem decoded_of_delete (h : Γ.delete (.raw bytes) p = (.ok (), w)) :
    p = .root ∨ ∃ j, Γ.regionValue? bytes = some j := by
  rw [delete_eq hp, report_ok] at h
  cases hts : p.tokens with
  | nil => exact .inl (Pointer.eq_root_of_tokens hp hts)
  | cons t ts =>
    rw [hts] at h
    exact .inr (decoded_of_deleteTokens h)

end

theorem assign_root (bytes bytes' : ByteArray) :
    Γ.assign (.raw bytes) .root (.raw bytes') = (.ok (), .raw bytes') := by
  rw [assign_eq rfl]
  rfl

theorem delete_root (bytes : ByteArray) :
    Γ.delete (.raw bytes) .root = (.ok (), .raw .empty) := by
  rw [delete_eq rfl]
  rfl

theorem resolve_root {j : Json} (h : Γ.regionValue? bytes = some j) :
    Γ.resolve (.raw bytes) (.json i) .root = (.ok (), .json j) := by
  have he : Γ.encode (.raw bytes) = some j := h
  have hdeliver : Γ.deliver (.json i) (.raw bytes) = .done (.json j) :=
    deliver_of_store (store_json he i)
  have hseek : Γ.seek (.raw bytes) .root = .ok (.raw bytes) := by
    rw [seek_eq rfl]
    rfl
  rw [resolve_eq rfl, hseek]
  simp only [hdeliver]
  rfl

end Schema

/-! ## Commands -/

namespace Command

variable {reading : Reading} {d s v out : String} {j : Json} {p : Pointer} {w : Val}

theorem isEmpty_toUTF8 : d.toUTF8.isEmpty = true ↔ d = "" := by
  simp [ByteArray.isEmpty]

/-- A text whose region is decoded is JSON text or empty. -/
theorem isText_of_decoded (h : ∃ j, (noRecords reading).regionValue? d.toUTF8 = some j) :
    Json.IsText d ∨ d = "" := by
  obtain ⟨j, hj⟩ := h
  rw [Schema.regionValue?] at hj
  split at hj
  · next he => exact .inr (isEmpty_toUTF8.1 he)
  · rw [Json.ofBytes?_toUTF8] at hj
    exact .inl (Json.isText_of_read? hj)

/-- What is told of a region has been decoded, and is JSON text. -/
theorem isText_of_prettyRegion (h : prettyRegion reading w = .ok out) :
    Json.IsText out ∧ ∀ bytes, w = .raw bytes →
      ∃ j, (noRecords reading).regionValue? bytes = some j := by
  rw [prettyRegion.eq_def] at h
  split at h
  · next bytes =>
    split at h
    · next j hj =>
      cases h
      refine ⟨Json.isText_pretty j, ?_⟩
      rintro _ ⟨⟩
      exact ⟨j, hj⟩
    · cases h
  · cases h

/-- A command that works has a pointer. -/
theorem parse_of_ok {call : Pointer → Except CommandError String}
    (h : (pointerOf s).bind call = .ok out) : ∃ p, Pointer.parse s = .ok p := by
  cases hp : Pointer.parse s with
  | ok p => exact ⟨p, rfl⟩
  | error m =>
    rw [pointerOf, hp] at h
    cases h

/-- An answer that is no error tells what a call has left that has worked. -/
theorem answer_ok {tell : Val → Except CommandError String} {call : Except WalkError Unit × Val}
    (h : answer tell call = .ok out) : ∃ w, call = (.ok (), w) ∧ tell w = .ok out := by
  obtain ⟨_ | _, w⟩ := call
  · cases h
  · exact ⟨w, rfl, h⟩

theorem lookup_accepts (h : lookup reading d s = .ok out) :
    Json.IsText out ∧ (Json.IsText d ∨ d = "" ∧ (s = "" ∨ s = "#")) := by
  obtain ⟨p, hp⟩ := parse_of_ok h
  rw [lookup_eq hp] at h
  obtain ⟨w, hcall, htell⟩ := answer_ok h
  cases htell
  obtain ⟨hd, hroot⟩ := Schema.decoded_of_resolve (Pointer.validate_of_parse hp) hcall
  refine ⟨Json.isText_pretty _, (isText_of_decoded hd).imp_right fun he => ⟨he, ?_⟩⟩
  rw [hroot (isEmpty_toUTF8.2 he)] at hp
  exact Pointer.eq_of_parse_root hp

theorem assign_accepts (h : assign reading d s v = .ok out) :
    Json.IsText out ∧ (Json.IsText v ∨ v = "") ∧
      (Json.IsText d ∨ d = "" ∨ s = "" ∨ s = "#") := by
  obtain ⟨p, hp⟩ := parse_of_ok h
  rw [assign_eq hp] at h
  obtain ⟨w, hcall, htell⟩ := answer_ok h
  obtain ⟨hout, htold⟩ := isText_of_prettyRegion htell
  rcases Schema.decoded_of_assign (Pointer.validate_of_parse hp) hcall with ⟨rfl, hw⟩ | ⟨hd, hv⟩
  · exact ⟨hout, isText_of_decoded (htold _ hw), .inr (.inr (Pointer.eq_of_parse_root hp))⟩
  · exact ⟨hout, isText_of_decoded hv, (isText_of_decoded hd).imp_right .inl⟩

theorem remove_accepts (h : remove reading d s = .ok out) :
    Json.IsText out ∧ (Json.IsText d ∨ d = "" ∨ s = "" ∨ s = "#") := by
  obtain ⟨p, hp⟩ := parse_of_ok h
  rw [remove_eq hp] at h
  obtain ⟨w, hcall, htell⟩ := answer_ok h
  obtain ⟨hout, -⟩ := isText_of_prettyRegion htell
  rcases Schema.decoded_of_delete (Pointer.validate_of_parse hp) hcall with rfl | hd
  · exact ⟨hout, .inr (.inr (Pointer.eq_of_parse_root hp))⟩
  · exact ⟨hout, (isText_of_decoded hd).imp_right .inl⟩

/-! ### Empty texts, and the root -/

/-- What is told of a region that spells a value. -/
theorem prettyRegion_raw {bytes : ByteArray} (h : (noRecords reading).regionValue? bytes = some j) :
    prettyRegion reading (.raw bytes) = .ok j.pretty := by
  simp only [prettyRegion, h]

theorem regionValue?_empty (reading : Reading) :
    (noRecords reading).regionValue? "".toUTF8 = some .null := rfl

theorem regionValue?_null (reading : Reading) :
    (noRecords reading).regionValue? "null".toUTF8 = some .null := by
  have hread : Json.read? reading "null" = some .null := rfl
  have hne : "null".toUTF8.isEmpty = false := by decide +kernel
  rw [Schema.regionValue?, hne, if_neg Bool.false_ne_true, Json.ofBytes?_toUTF8]
  exact hread

section
variable {m : Malformed} (hp : Pointer.parse s = .error m)
include hp

theorem assign_malformed : assign reading d s v = .error (.malformed m) := by
  simp only [assign, pointerOf, hp]
  rfl

theorem remove_malformed : remove reading d s = .error (.malformed m) := by
  simp only [remove, pointerOf, hp]
  rfl

end

/-- Texts that spell one value are one and the same as values that are assigned. -/
theorem assign_congr_value {v₁ v₂ : String} (d s : String)
    (h₁ : (noRecords reading).regionValue? v₁.toUTF8 = some j)
    (h₂ : (noRecords reading).regionValue? v₂.toUTF8 = some j) :
    assign reading d s v₁ = assign reading d s v₂ := by
  cases hp : Pointer.parse s with
  | error m => rw [assign_malformed hp, assign_malformed hp]
  | ok p =>
    have hvalid := Pointer.validate_of_parse hp
    rw [assign_eq hp, assign_eq hp]
    cases hts : p.tokens with
    | nil =>
      rw [Pointer.eq_root_of_tokens hvalid hts, region, region, region, Schema.assign_root,
        Schema.assign_root, answer, answer, prettyRegion_raw h₁, prettyRegion_raw h₂]
    | cons t ts =>
      rw [Schema.assign_eq hvalid, Schema.assign_eq hvalid, hts, region, region, region,
        Schema.assignTokens_congr h₁ h₂]

/-- An answer does not show what a call that has failed has left. -/
theorem answer_within (tell : Val → Except CommandError String) (op : Operation) (p : Pointer)
    (out : Outcome) (back undo undo' : Val → Val) :
    answer tell (Schema.report op p (out.within back undo)) =
      answer tell (Schema.report op p (out.within back undo')) := by
  obtain ⟨_ | _, w⟩ := out <;> rfl

/-- They are one and the same as documents that are assigned to. -/
theorem assign_congr_doc {d₁ d₂ : String} (s v : String)
    (h₁ : (noRecords reading).regionValue? d₁.toUTF8 = some j)
    (h₂ : (noRecords reading).regionValue? d₂.toUTF8 = some j) :
    assign reading d₁ s v = assign reading d₂ s v := by
  cases hp : Pointer.parse s with
  | error m => rw [assign_malformed hp, assign_malformed hp]
  | ok p =>
    have hvalid := Pointer.validate_of_parse hp
    rw [assign_eq hp, assign_eq hp, region, region, region]
    cases hts : p.tokens with
    | nil =>
      rw [Pointer.eq_root_of_tokens hvalid hts, Schema.assign_root, Schema.assign_root]
    | cons t ts =>
      rw [Schema.assign_eq hvalid, Schema.assign_eq hvalid, hts, Schema.assignTokens_region h₁,
        Schema.assignTokens_region h₂, answer_within]

/-- In an empty document, as in null, there is nothing to delete. -/
theorem remove_empty (reading : Reading) (s : String) :
    remove reading "" s = remove reading "null" s := by
  cases hp : Pointer.parse s with
  | error m => rw [remove_malformed hp, remove_malformed hp]
  | ok p =>
    have hvalid := Pointer.validate_of_parse hp
    rw [remove_eq hp, remove_eq hp, region, region]
    cases hts : p.tokens with
    | nil =>
      rw [Pointer.eq_root_of_tokens hvalid hts, Schema.delete_root, Schema.delete_root]
    | cons t ts =>
      have hne : "null".toUTF8.isEmpty = false := by decide +kernel
      rw [Schema.delete_eq hvalid, Schema.delete_eq hvalid, hts, Schema.deleteTokens_empty rfl,
        Schema.deleteTokens_region hne (regionValue?_null reading)]
      show prettyRegion reading (.raw "".toUTF8) = prettyRegion reading (.raw "null".toUTF8)
      rw [prettyRegion_raw (regionValue?_empty reading), prettyRegion_raw (regionValue?_null reading)]

theorem lookup_root (hs : s = "" ∨ s = "#") :
    lookup reading d s = .ok out ↔ prettyRegion reading (region d) = .ok out := by
  rw [lookup_eq (Pointer.parse_root hs)]
  constructor
  · intro h
    obtain ⟨w, hcall, htell⟩ := answer_ok h
    obtain ⟨⟨j, hj⟩, -⟩ := Schema.decoded_of_resolve rfl hcall
    rw [region, Schema.resolve_root hj] at h
    rw [region, prettyRegion_raw hj]
    exact h
  · intro h
    obtain ⟨-, hdecoded⟩ := isText_of_prettyRegion h
    obtain ⟨j, hj⟩ := hdecoded _ rfl
    rw [region, prettyRegion_raw hj] at h
    rw [region, Schema.resolve_root hj]
    exact h

theorem assign_root (hs : s = "" ∨ s = "#") :
    assign reading d s v = prettyRegion reading (region v) := by
  rw [assign_eq (Pointer.parse_root hs), region, region, Schema.assign_root]
  rfl

theorem remove_root (hs : s = "" ∨ s = "#") : remove reading d s = .ok "null" := by
  rw [remove_eq (Pointer.parse_root hs), region, Schema.delete_root]
  rfl

/-! ### What is accepted -/

/-- **A command that works has been given JSON text and answers JSON text**, unless a text is
    empty or the document is replaced at its root.  An empty text stands for null, and at the root
    a command reads what it tells and nothing else. -/
theorem accepts_json (reading : Reading) (d s v : String) :
    (∀ out, lookup reading d s = .ok out →
      Json.IsText out ∧ (Json.IsText d ∨ d = "" ∧ (s = "" ∨ s = "#"))) ∧
    (∀ out, assign reading d s v = .ok out →
      Json.IsText out ∧ (Json.IsText v ∨ v = "") ∧
        (Json.IsText d ∨ d = "" ∨ s = "" ∨ s = "#")) ∧
    (∀ out, remove reading d s = .ok out →
      Json.IsText out ∧ (Json.IsText d ∨ d = "" ∨ s = "" ∨ s = "#")) ∧
    assign reading d s "" = assign reading d s "null" ∧
    assign reading "" s v = assign reading "null" s v ∧
    remove reading "" s = remove reading "null" s ∧
    (s = "" ∨ s = "#" →
      (∀ out, lookup reading d s = .ok out ↔ prettyRegion reading (region d) = .ok out) ∧
      assign reading d s v = prettyRegion reading (region v) ∧
      remove reading d s = .ok "null") := by
  have hempty := regionValue?_empty reading
  have hnull := regionValue?_null reading
  refine ⟨fun _ => lookup_accepts, fun _ => assign_accepts, fun _ => remove_accepts,
    assign_congr_value d s hempty hnull, assign_congr_doc s v hempty hnull, remove_empty reading s,
    fun hs => ⟨fun _ => lookup_root hs, assign_root hs, remove_root hs⟩⟩

/-- The first element of an array is looked up, set and deleted, and a text that is none is
    deleted. -/
theorem accepts_json_array :
    let d := "[ 1e2, \"\\u00e9\" ]"
    lookup Command.reading d "/0" = .ok "100.0" ∧
      assign Command.reading d "/0" "-0" = .ok "[\n  -0.0,\n  \"é\"\n]" ∧
      remove Command.reading d "/0" = .ok "[\n  \"é\"\n]" ∧
      Json.IsText d ∧ Json.IsText "-0" ∧ Json.IsText "[\n  -0.0,\n  \"é\"\n]" ∧
      Json.IsText "[\n  \"é\"\n]" ∧ remove Command.reading "[" "#" = .ok "null" := by
  intro d
  have hfound : lookup Command.reading d "/0" = .ok "100.0" := by decide +kernel
  have hset : assign Command.reading d "/0" "-0" = .ok "[\n  -0.0,\n  \"é\"\n]" := by
    decide +kernel
  have hdeleted : remove Command.reading d "/0" = .ok "[\n  \"é\"\n]" := by decide +kernel
  obtain ⟨hlookup, hassign, hremove, -⟩ := accepts_json Command.reading d "/0" "-0"
  have hd : Json.IsText d := (hlookup _ hfound).2.resolve_right (by decide +kernel)
  obtain ⟨hout, hv, -⟩ := hassign _ hset
  obtain ⟨-, -, -, -, -, -, hroot⟩ := accepts_json Command.reading "[" "#" ""
  exact ⟨hfound, hset, hdeleted, hd, hv.resolve_right (by decide +kernel), hout,
    (hremove _ hdeleted).1, (hroot (.inr rfl)).2.2⟩

/-- An empty text is looked up and set as null, and an opening brace is replaced. -/
theorem accepts_replaced :
    (¬Json.IsText "" ∧ lookup Command.reading "" "" = .ok "null" ∧
      assign Command.reading "[]" "/-" "" = .ok "[\n  null\n]") ∧
    ¬Json.IsText "\x7b" ∧ assign Command.reading "\x7b" "" "1" = .ok "1" ∧
      remove Command.reading "\x7b" "" = .ok "null" :=
  ⟨⟨Json.not_isText_empty, by decide +kernel, by decide +kernel⟩, Json.not_isText_brace,
    by decide +kernel, by decide +kernel⟩

end Command

end DocPointer
