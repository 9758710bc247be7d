/-
  Walks do not look at numbers.

  A JSON value with other numbers (`Val.renumber`) has the same names and positions, so a token
  finds in it the same part, with other numbers, or nothing for the same reason.  A delete that
  works in a JSON value works in the one with other numbers and leaves the same, with other
  numbers; and it never makes the value nest deeper (`Blind`).

  * `resolveTokens_renumber`: a walk.
  * `blind_deleteTokens`: a delete, by induction on the tokens, with `Blind.removeBare` as its
    step.
-/
import DocPointer.Proofs.Json.Rereading
import DocPointer.Proofs.Walk.InPlace

namespace DocPointer

/-- A JSON value with other numbers; any other value as it is. -/
def Val.renumber (g : Number → Number) : Val → Val
  | .json j => .json (j.renumber g)
  | v => v

namespace Val

variable {v : Val} {g : Number → Number}

@[simp] theorem renumber_json (g : Number → Number) (j : Json) :
    (json j).renumber g = json (j.renumber g) := rfl

theorem renumber_of_typeOf (h : v.typeOf ≠ .json) : v.renumber g = v := by
  cases v with
  | json j => exact absurd rfl h
  | _ => rfl

@[simp] theorem renumber_id (v : Val) : v.renumber id = v := by
  cases v with
  | json j => exact congrArg json (Json.renumber_id j)
  | _ => rfl

@[simp] theorem typeOf_renumber (g : Number → Number) (v : Val) :
    (v.renumber g).typeOf = v.typeOf := by
  cases v <;> rfl

end Val

/-! ## Members and items -/

namespace Members

variable (g : Number → Number) (name : String)

theorem get?_renumber (ms : Members Json) :
    get? name (Json.renumberMembers g ms) = (get? name ms).map (Json.renumber g) := by
  induction ms with
  | nil => rfl
  | cons m ms ih =>
    by_cases hk : m.1 = name
    · simp [Json.renumberMembers, get?, hk]
    · simp only [Json.renumberMembers, get?, hk, if_false, ih]

theorem put_renumber (j : Json) (ms : Members Json) :
    put name (j.renumber g) (Json.renumberMembers g ms) =
      Json.renumberMembers g (put name j ms) := by
  induction ms with
  | nil => rfl
  | cons m ms ih =>
    by_cases hk : m.1 = name
    · simp [Json.renumberMembers, put, hk]
    · simp only [Json.renumberMembers, put, hk, if_false, ih]

theorem remove_renumber (ms : Members Json) :
    remove name (Json.renumberMembers g ms) = Json.renumberMembers g (remove name ms) := by
  induction ms with
  | nil => rfl
  | cons m ms ih =>
    by_cases hk : m.1 = name
    · simp [Json.renumberMembers, remove, hk]
    · simp only [Json.renumberMembers, remove, hk, if_false, ih]

/-- An entry of an object is set by its JSON value. -/
theorem withEntries_set {name : String} {ms : Members Json} {u : Json} (h : get? name ms = some u)
    (d : Val) : (Val.json (.obj ms)).withEntries (Entries.set (.text name) d ms.entries) =
      .json (.obj (put name d.asJson ms)) := by
  have hjson (es : Entries Val) : (Val.json (.obj ms)).withEntries (Entries.set (.text name) d es) =
      (Val.json (.obj ms)).withEntries (Entries.set (.text name) (.json d.asJson) es) := by
    refine congrArg (Val.json ∘ Json.obj) ?_
    induction es with
    | nil => rfl
    | cons e es ih =>
      by_cases hk : e.1 = .text name
      · simp [Entries.set, hk, Val.asJson]
      · simp only [Entries.set, hk, if_false, List.map_cons, ih]
  rw [hjson, set_entries h, Val.withEntries, map_member_entry]

end Members

namespace Schema

variable {Γ : Schema} {t : Token} {ts : List Token} {v w : Val} {i j : Json} {xs : List Json}
  {ms : Members Json} {here : Pointer} {last : Bool} {f : Val → Outcome} {g : Number → Number}

/-- No zero value has numbers of JSON. -/
theorem renumber_zero (g : Number → Number) (s : Ty) : (Γ.zero s).renumber g = Γ.zero s := by
  cases s <;> rfl

/-! ## Walks -/

/-- What a token finds in an array. -/
theorem selectBare_arr (t : Token) (xs : List Json) : Γ.selectBare t (.json (.arr xs)) =
    match t.existing xs.length with
    | .error e => .error ⟨.index e, .json⟩
    | .ok k => match xs[k]? with
      | some j => .ok (.json j)
      | none => .error ⟨.notFound, .json⟩ := by
  simp only [selectBare, node, Json.node, List.length_map, elem?, reduceCtorEq, if_false,
    List.getElem?_map, Val.typeOf]
  cases t.existing xs.length with
  | error e => rfl
  | ok k =>
    dsimp only
    cases xs[k]? <;> rfl

/-- What a token finds in an object. -/
theorem selectBare_obj (t : Token) (ms : Members Json) : Γ.selectBare t (.json (.obj ms)) =
    match Members.get? t.decoded ms with
    | some j => .ok (.json j)
    | none => .error ⟨.notFound, .json⟩ := by
  have hget := Members.get?_entries t.decoded ms
  rw [Members.entries] at hget
  simp only [selectBare, node, Json.node, KeyTy.ofToken, hget, Val.typeOf]
  cases Members.get? t.decoded ms <;> rfl

/-- A token finds JSON in JSON. -/
theorem json_of_selectBare (h : Γ.selectBare t (.json j) = .ok v) : ∃ i, v = .json i := by
  cases j with
  | arr xs =>
    rw [selectBare_arr] at h
    split at h
    · cases h
    · split at h
      · cases h
        exact ⟨_, rfl⟩
      · cases h
  | obj ms =>
    rw [selectBare_obj] at h
    split at h
    · cases h
      exact ⟨_, rfl⟩
    · cases h
  | _ => cases h

theorem selectBare_renumber (g : Number → Number) (t : Token) (j : Json) :
    Γ.selectBare t (.json (j.renumber g)) = (Γ.selectBare t (.json j)).map (·.renumber g) := by
  cases j with
  | arr xs =>
    rw [Json.renumber, selectBare_arr, selectBare_arr, Json.renumberItems_eq, List.length_map]
    cases t.existing xs.length with
    | error e => rfl
    | ok k =>
      dsimp only
      rw [List.getElem?_map]
      cases xs[k]? <;> rfl
  | obj ms =>
    rw [Json.renumber, selectBare_obj, selectBare_obj, Members.get?_renumber]
    cases Members.get? t.decoded ms <;> rfl
  | _ => rfl

/-- **A walk in a JSON value with other numbers** finds the same with other numbers, or stops for
    the same reason at the same place. -/
theorem resolveTokens_renumber (hΓ : Γ.Plain) (g : Number → Number)
    (redirect : Val → Pointer → Except Stop Val) (ts : List Token) (j : Json) :
    Γ.resolveTokens redirect ts (.json (j.renumber g)) =
      (Γ.resolveTokens redirect ts (.json j)).map (·.renumber g) := by
  induction ts generalizing j with
  | nil => rfl
  | cons t ts ih =>
    have hstep : Γ.select t (.json (j.renumber g)) = (Γ.select t (.json j)).map (·.renumber g) :=
      selectBare_renumber g t j
    rw [hΓ.resolveTokens_step, hΓ.resolveTokens_step, hstep]
    cases hc : Γ.select t (.json j) with
    | error e => rfl
    | ok c =>
      obtain ⟨i, rfl⟩ := json_of_selectBare hc
      exact ih i

/-- A walk in JSON finds JSON. -/
theorem json_of_resolveTokens (hΓ : Γ.Plain) {redirect : Val → Pointer → Except Stop Val}
    (h : Γ.resolveTokens redirect ts (.json j) = .ok v) : ∃ i, v = .json i := by
  induction ts generalizing j with
  | nil =>
    cases h
    exact ⟨j, rfl⟩
  | cons t ts ih =>
    rw [hΓ.resolveTokens_step] at h
    cases hc : Γ.select t (.json j) with
    | error e =>
      rw [hc] at h
      cases h
    | ok c =>
      obtain ⟨i, rfl⟩ := json_of_selectBare hc
      rw [hc] at h
      exact ih h

/-! ## Deletes -/

/-- What a delete makes of an array. -/
theorem removeBare_arr (here : Pointer) (t : Token) (last : Bool) (f : Val → Outcome)
    (xs : List Json) : Γ.removeBare here t last f (.json (.arr xs)) =
      match t.index xs.length with
      | .error (.outOfRange k bound) =>
        if 0 ≤ k then .done (.json (.arr xs))
        else .refuse here (.json (.arr xs)) (.index (.outOfRange k bound))
      | .error e => .refuse here (.json (.arr xs)) (.index e)
      | .ok k =>
        if k = xs.length then .done (.json (.arr xs))
        else if last then .done (.json (.arr (xs.eraseIdx k)))
        else match xs[k]? with
          | some c => (f (.json c)).inside fun c => .json (.arr (xs.set k c.asJson))
          | none => .done (.json (.arr xs)) := by
  have hset (k : Nat) (c : Val) : Γ.withItems (.json (.arr xs)) ((xs.map .json).set k c) =
      .json (.arr (xs.set k c.asJson)) := by
    rw [withItems, List.map_set, map_asJson_json]
  have herase (k : Nat) : Γ.withItems (.json (.arr xs)) ((xs.map .json).eraseIdx k) =
      .json (.arr (xs.eraseIdx k)) := by
    rw [withItems, List.eraseIdx_map, map_asJson_json]
  simp only [removeBare, node, Json.node, List.length_map, elem?, reduceCtorEq, if_false,
    List.getElem?_map, hset, herase]
  cases t.index xs.length with
  | error e => cases e <;> rfl
  | ok k =>
    dsimp only
    cases xs[k]? <;> rfl

/-- What a delete makes of an object. -/
theorem removeBare_obj (here : Pointer) (t : Token) (last : Bool) (f : Val → Outcome)
    (ms : Members Json) : Γ.removeBare here t last f (.json (.obj ms)) =
      if last then .done (.json (.obj (Members.remove t.decoded ms)))
      else match Members.get? t.decoded ms with
        | some c => (f (.json c)).inside fun c =>
          .json (.obj (Members.put t.decoded c.asJson ms))
        | none => .done (.json (.obj ms)) := by
  have hn : Γ.node (.json (.obj ms)) = .map .string .insertion .json ms.entries := rfl
  have hremove : (Val.json (.obj ms)).withEntries (Entries.remove (.text t.decoded) ms.entries) =
      .json (.obj (Members.remove t.decoded ms)) := by
    rw [Members.remove_entries, Val.withEntries, map_member_entry]
  simp only [removeBare, hn, KeyTy.ofToken, Members.get?_entries, hremove]
  cases hc : Members.get? t.decoded ms with
  | none => rfl
  | some c =>
    simp only [Members.withEntries_set hc]
    rfl

/-- What works for a JSON value leaves one that nests no deeper, and it works for the value with
    other numbers and leaves the same, with other numbers. -/
def Blind (f : Val → Outcome) : Prop :=
  ∀ (j : Json) (w : Val), f (.json j) = .done w → ∃ k, w = .json k ∧ k.height ≤ j.height ∧
    ∀ g, f (.json (j.renumber g)) = .done (.json (k.renumber g))

theorem blind_zeroed : Blind fun v => .done (Γ.zero v.typeOf) := by
  intro j w h
  cases h
  exact ⟨.null, rfl, Nat.zero_le _, fun _ => rfl⟩

/-- A delete that works in an array leaves it as it is, takes an item out or goes on to an item,
    and it does the same in an array of the same length. -/
theorem removeBare_arr_ok (h : Γ.removeBare here t last f (.json (.arr xs)) = .done w) :
    (w = .json (.arr xs) ∧ ∀ ys : List Json, ys.length = xs.length →
      Γ.removeBare here t last f (.json (.arr ys)) = .done (.json (.arr ys))) ∨
    (∃ k, w = .json (.arr (xs.eraseIdx k)) ∧ ∀ ys : List Json, ys.length = xs.length →
      Γ.removeBare here t last f (.json (.arr ys)) = .done (.json (.arr (ys.eraseIdx k)))) ∨
    ∃ k c d, xs[k]? = some c ∧ f (.json c) = .done d ∧ w = .json (.arr (xs.set k d.asJson)) ∧
      ∀ (ys : List Json) c' d', ys.length = xs.length → ys[k]? = some c' →
        f (.json c') = .done d' → Γ.removeBare here t last f (.json (.arr ys)) =
          .done (.json (.arr (ys.set k d'.asJson))) := by
  rw [removeBare_arr] at h
  cases hk : t.index xs.length with
  | error e =>
    cases e with
    | outOfRange k bound =>
      by_cases h0 : 0 ≤ k
      · simp only [hk, h0, if_true] at h
        cases h
        exact .inl ⟨rfl, fun ys hys => by simp only [removeBare_arr, hys, hk, h0, if_true]⟩
      · simp only [hk, h0, if_false] at h
        cases h
    | _ =>
      simp only [hk] at h
      cases h
  | ok k =>
    by_cases hend : k = xs.length
    · simp only [hk, hend, if_true] at h
      cases h
      exact .inl ⟨rfl, fun ys hys => by simp only [removeBare_arr, hys, hk, hend, if_true]⟩
    · cases last with
      | true =>
        simp only [hk, hend, if_false, if_true] at h
        cases h
        refine .inr (.inl ⟨k, rfl, fun ys hys => ?_⟩)
        simp only [removeBare_arr, hys, hk, hend, if_false, if_true]
      | false =>
        cases hc : xs[k]? with
        | none =>
          simp only [hk, hend, hc, Bool.false_eq_true, if_false] at h
          cases h
          refine .inl ⟨rfl, fun ys hys => ?_⟩
          have hc' : ys[k]? = none := by rw [List.getElem?_eq_none_iff] at hc ⊢; omega
          simp only [removeBare_arr, hys, hk, hend, hc', Bool.false_eq_true, if_false]
        | some c =>
          simp only [hk, hend, hc, Bool.false_eq_true, if_false] at h
          obtain ⟨d, hd, rfl⟩ := Attempt.inside_ok h
          refine .inr (.inr ⟨k, c, d, hc, hd, rfl, fun ys c' d' hys hc' hd' => ?_⟩)
          simp only [removeBare_arr, hys, hk, hend, hc', hd', Bool.false_eq_true, if_false]
          rfl

section
variable (hf : Blind f)
include hf

theorem Blind.arr (h : Γ.removeBare here t last f (.json (.arr xs)) = .done w) :
    ∃ k, w = .json k ∧ k.height ≤ (Json.arr xs).height ∧ ∀ g,
      Γ.removeBare here t last f (.json ((Json.arr xs).renumber g)) =
        .done (.json (k.renumber g)) := by
  have hlen (g : Number → Number) : (xs.map (Json.renumber g)).length = xs.length :=
    List.length_map _
  simp only [Json.renumber, Json.renumberItems_eq, Json.height]
  rcases removeBare_arr_ok h with ⟨rfl, hsame⟩ | ⟨k, rfl, herase⟩ | ⟨k, c, d, hc, hd, rfl, hset⟩
  · refine ⟨.arr xs, rfl, Nat.le_refl _, fun g => ?_⟩
    rw [hsame _ (hlen g), Json.renumber, Json.renumberItems_eq]
  · refine ⟨.arr (xs.eraseIdx k), rfl, ?_, fun g => ?_⟩
    · exact Nat.succ_le_succ (Json.heightOfItems_mono (List.eraseIdx_subset ..))
    · rw [herase _ (hlen g), Json.renumber, Json.renumberItems_eq, List.eraseIdx_map]
  · obtain ⟨e, rfl, he, hrenumber⟩ := hf _ _ hd
    have hmem := List.mem_of_getElem? hc
    refine ⟨.arr (xs.set k e), rfl, Nat.succ_le_succ (Json.heightOfItems_le.2 ?_), fun g => ?_⟩
    · intro y hy
      have hle := Json.heightOfItems_le.1 (Nat.le_refl (Json.heightOfItems xs))
      rcases List.mem_or_eq_of_mem_set hy with hy | rfl
      · exact hle y hy
      · exact Nat.le_trans he (hle c hmem)
    · have hc' : (xs.map (Json.renumber g))[k]? = some (c.renumber g) := by
        rw [List.getElem?_map, hc]
        rfl
      rw [hset _ _ _ (hlen g) hc' (hrenumber g), Json.renumber, Json.renumberItems_eq,
        List.map_set]
      rfl

theorem Blind.obj (h : Γ.removeBare here t last f (.json (.obj ms)) = .done w) :
    ∃ k, w = .json k ∧ k.height ≤ (Json.obj ms).height ∧ ∀ g,
      Γ.removeBare here t last f (.json ((Json.obj ms).renumber g)) =
        .done (.json (k.renumber g)) := by
  simp only [Json.renumber, removeBare_obj, Members.get?_renumber, Members.remove_renumber,
    Json.height] at h ⊢
  cases last with
  | true =>
    simp only [if_true] at h ⊢
    cases h
    refine ⟨_, rfl, Nat.succ_le_succ ?_, fun g => rfl⟩
    exact Json.heightOfMembers_mono (Members.sublist_remove t.decoded ms).subset
  | false =>
    simp only [Bool.false_eq_true, if_false] at h ⊢
    cases hc : Members.get? t.decoded ms with
    | none =>
      simp only [hc] at h
      cases h
      exact ⟨.obj ms, rfl, Nat.le_refl _, fun g => rfl⟩
    | some c =>
      simp only [hc] at h
      obtain ⟨d, hd, rfl⟩ := Attempt.inside_ok h
      obtain ⟨e, rfl, he, hrenumber⟩ := hf _ _ hd
      refine ⟨.obj (Members.put t.decoded e ms), rfl, Nat.succ_le_succ ?_, fun g => ?_⟩
      · have hle := Json.heightOfMembers_le.1 (Nat.le_refl (Json.heightOfMembers ms)) _
          (Members.mem_of_get? hc)
        exact Nat.le_trans (Json.heightOfMembers_put t.decoded e ms)
          (Nat.max_le.2 ⟨Nat.le_trans he hle, Nat.le_refl _⟩)
      · simp only [Option.map_some, hrenumber g]
        rw [Json.renumber, ← Members.put_renumber]
        rfl

/-- The step lemma: a delete is blind if its change of a part is. -/
theorem Blind.removeBare (here : Pointer) (t : Token) (last : Bool) :
    Blind (Γ.removeBare here t last f) := by
  intro j w h
  cases j with
  | null =>
    cases h
    exact ⟨.null, rfl, Nat.le_refl _, fun _ => rfl⟩
  | arr xs => exact hf.arr h
  | obj ms => exact hf.obj h
  | _ => cases h

end

/-- **A delete looks neither at numbers nor at how deep a JSON value nests.** -/
theorem blind_deleteTokens (r : Val → Pointer → Outcome) (ts : List Token) :
    Blind (Γ.deleteTokens r ts) := by
  induction ts with
  | nil => exact blind_zeroed
  | cons t ts ih => exact ih.removeBare (.ofTokens (t :: ts)) t ts.isEmpty

end Schema

end DocPointer
