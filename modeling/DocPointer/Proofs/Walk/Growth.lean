/-
  JSON documents grow along every pointer.

  An assign to null makes, for every token, a container that has room for the token: the
  shape is chosen before the container is made, from the token alone, and the token then
  names the only position of the empty sequence, or is a name.

  * `Stem j ts i`: the tokens `ts` lead down the containers of `i`, each with one child,
    to `j`.
  * `assignTokens_null`: null becomes a stem, whatever the tokens are.
  * `Blocks t f i`: the JSON value `i` has no place for the token `t`, because of `f`.
  * `assignTokens_blocked`: an assign to a JSON document fails only at a value of the
    document that has no place for the next token.
  * `assign_json`: both, for the calls.
-/
import DocPointer.Proofs.Walk.Composition
import DocPointer.Proofs.Walk.Region

namespace DocPointer

/-- Containers with one child each, down the tokens, and `j` at the end.  A token that
    names the position in an empty sequence leads into a sequence, every other into an
    object. -/
inductive Stem (j : Json) : List Token → Json → Prop where
  | leaf : Stem j [] j
  | item {t : Token} {ts : List Token} {i : Json} :
      Shape.ofToken t = .seq → Stem j ts i → Stem j (t :: ts) (.arr [i])
  | member {t : Token} {ts : List Token} {i : Json} :
      Shape.ofToken t = .map → Stem j ts i → Stem j (t :: ts) (.obj [(t.decoded, i)])

/-- A JSON value that has no place for a token: a truth value, a number or a string, or a
    sequence in which the token names no position. -/
inductive Blocks (t : Token) : Fault → Json → Prop where
  | bool (b : Bool) : Blocks t .unreachable (.bool b)
  | num (n : Number) : Blocks t .unreachable (.num n)
  | str (s : String) : Blocks t .unreachable (.str s)
  | position {items : List Json} {e : IndexError} :
      t.index items.length = .error e → Blocks t (.index e) (.arr items)

/-- The token of the first element instead of the one for the position after the last. -/
def Token.first (t : Token) : Token := if t.isAppend then .ofPosition 0 else t

/-- The pointer with the first element in place of every position after the last. -/
def Pointer.first (p : Pointer) : Pointer := .ofTokens (p.tokens.map Token.first)

/-! ## Tokens of the first position -/

theorem Token.spelled_first {t : Token} (h : t.Spelled) : t.first.Spelled := by
  rw [Token.first]
  split
  · exact Pointer.spelled_ofPosition 0
  · exact h

/-- A token that asks for a sequence names the position of an empty one. -/
theorem Shape.index_of_seq {t : Token} (h : Shape.ofToken t = .seq) : t.index 0 = .ok 0 := by
  rw [Shape.ofToken] at h
  split at h
  · next i hi =>
    have hzero : i = 0 := by
      rcases Token.index_eq_ok.1 hi with ⟨-, h⟩ | ⟨-, -, h, -⟩ <;> omega
    rw [hi, hzero]
  · cases h

theorem Shape.isAppend_of_map {t : Token} (h : Shape.ofToken t = .map) : t.isAppend = false := by
  cases ha : t.isAppend with
  | false => rfl
  | true => simp [Shape.ofToken, Token.index, ha] at h

/-- In the sequence that was made for it the token finds the element. -/
theorem Token.existing_first {t : Token} (h : Shape.ofToken t = .seq) :
    t.first.existing 1 = .ok 0 := by
  have hi := Shape.index_of_seq h
  cases ha : t.isAppend with
  | true =>
    rw [Token.first, if_pos ha]
    exact Token.existing_ofPosition (Nat.zero_lt_one) (Nat.zero_le _)
  | false =>
    rw [Token.first, if_neg (by simp [ha])]
    exact Token.existing_of_index ha hi Nat.zero_lt_one

namespace Schema

open Samples

section
variable (Γ : Schema)

/-- What the walk of an assign fails at: a value of the document that has no place for
    the next token. -/
def BlockedAt (redirect : Val → Pointer → Except Stop Val) (ts : List Token) (d : Json)
    (s : Stop) : Prop :=
  ∃ us t vs i, ts = us ++ t :: vs ∧ Γ.resolveTokens redirect us (.json d) = .ok (.json i) ∧
    Blocks t s.fault i ∧ s = ⟨s.fault, .json, .ofTokens (t :: vs)⟩

end

variable {Γ : Schema} {here : Pointer} {t : Token} {ts : List Token} {f : Val → Outcome}
  {i j : Json} {x : Val}

/-! ## One step in a JSON value -/

/-- No hook is asked of a JSON value. -/
theorem assignTokens_json_cons (redirect : Val → Pointer → Val → Outcome) (t : Token)
    (ts : List Token) (i : Json) (x : Val) :
    Γ.assignTokens redirect (t :: ts) (.json i) x =
      Γ.descendJson (.ofTokens (t :: ts)) t (fun c => Γ.assignTokens redirect ts c x) i := rfl

theorem resolveTokens_json_cons (redirect : Val → Pointer → Except Stop Val) {c : Val}
    (h : Γ.selectBare t (.json i) = .ok c) (ts : List Token) :
    Γ.resolveTokens redirect (t :: ts) (.json i) = Γ.resolveTokens redirect ts c := by
  have hs : Γ.select t (.json i) = .ok c := h
  simp only [resolveTokens, Val.target, hooks, Hooks.silent, hs]

theorem selectBare_item {items : List Json} {k : Nat} (hk : t.existing items.length = .ok k)
    (hi : items[k]? = some i) : Γ.selectBare t (.json (.arr items)) = .ok (.json i) := by
  simp [selectBare, node, Json.node, elem?, hk, hi]

theorem selectBare_member {members : Members Json} (hi : Members.get? t.decoded members = some i) :
    Γ.selectBare t (.json (.obj members)) = .ok (.json i) := by
  have hget := Members.get?_entries t.decoded members
  rw [hi, Members.entries] at hget
  simp only [selectBare, node, Json.node, KeyTy.ofToken, hget]
  rfl

/-- Null becomes a container around what the rest of the assign makes of null. -/
theorem descendJson_null (hf : f (.json .null) = .done (.json i)) :
    Γ.descendJson here t f .null = .done (.json
      (match Shape.ofToken t with
        | .seq => .arr [i]
        | .map => .obj [(t.decoded, i)])) := by
  cases hs : Shape.ofToken t with
  | seq =>
    simp [descendJson, hs, Shape.container, descendBare, node, Json.node, Shape.index_of_seq hs,
      zero, hf, Attempt.done, Attempt.within, withItems, Val.asJson]
  | map =>
    simp [descendJson, hs, Shape.container, descendBare, node, Json.node, KeyTy.ofToken,
      Entries.get?, Entries.insert, Entries.set, zero, hf, Attempt.done, Attempt.within,
      Val.withEntries, Val.asJson, Key.name]

/-- **An assign to null makes a stem.** -/
theorem assignTokens_null (redirect : Val → Pointer → Val → Outcome) (hx : Γ.encode x = some j)
    (ts : List Token) :
    ∃ i, Γ.assignTokens redirect ts (.json .null) x = .done (.json i) ∧ Stem j ts i := by
  induction ts with
  | nil =>
    refine ⟨j, ?_, .leaf⟩
    rw [assignTokens, store_json hx]
    rfl
  | cons t ts ih =>
    obtain ⟨i, hi, hstem⟩ := ih
    refine ⟨_, (assignTokens_json_cons redirect t ts .null x).trans (descendJson_null hi), ?_⟩
    cases hs : Shape.ofToken t with
    | seq => exact .item hs hstem
    | map => exact .member hs hstem

/-- A stem is walked by the tokens of the first positions. -/
theorem resolveTokens_stem (redirect : Val → Pointer → Except Stop Val) (h : Stem j ts i) :
    Γ.resolveTokens redirect (ts.map Token.first) (.json i) = .ok (.json j) := by
  induction h with
  | leaf => rfl
  | item hs _ ih =>
    rw [List.map_cons, resolveTokens_json_cons redirect (selectBare_item (k := 0) ?_ rfl), ih]
    exact Token.existing_first hs
  | @member t _ i hs _ ih =>
    have hfirst : t.first = t := by simp [Token.first, Shape.isAppend_of_map hs]
    rw [List.map_cons, hfirst, resolveTokens_json_cons redirect (selectBare_member (i := i) ?_), ih]
    simp [Members.get?]

/-! ## What is in the way -/

variable {redirect : Val → Pointer → Val → Outcome} {redirect' : Val → Pointer → Except Stop Val}

/-- Behind a child that is there the walk goes on. -/
theorem BlockedAt.behind {d : Json} {s : Stop} (hc : Γ.selectBare t (.json d) = .ok (.json i))
    (h : Γ.BlockedAt redirect' ts i s) : Γ.BlockedAt redirect' (t :: ts) d s := by
  obtain ⟨us, u, vs, k, rfl, hk, hb⟩ := h
  exact ⟨t :: us, u, vs, k, rfl, (resolveTokens_json_cons redirect' hc us).trans hk, hb⟩

/-- **An assign to a JSON document fails only at a value of the document.** -/
theorem assignTokens_blocked (hx : Γ.encode x = some j) (ts : List Token) {d : Json} {s : Stop}
    {w : Val} (h : Γ.assignTokens redirect ts (.json d) x = (.error s, w)) :
    Γ.BlockedAt redirect' ts d s := by
  induction ts generalizing d w with
  | nil =>
    rw [assignTokens, store_json hx] at h
    cases h
  | cons t ts ih =>
    obtain ⟨i₀, hnull, -⟩ := assignTokens_null redirect hx ts
    rw [assignTokens_json_cons] at h
    cases d with
    | null =>
      rw [descendJson_null hnull] at h
      cases h
    | bool b =>
      cases h
      exact ⟨[], t, ts, _, rfl, rfl, .bool b, rfl⟩
    | num n =>
      cases h
      exact ⟨[], t, ts, _, rfl, rfl, .num n, rfl⟩
    | str s =>
      cases h
      exact ⟨[], t, ts, _, rfl, rfl, .str s, rfl⟩
    | arr items =>
      simp only [descendJson, descendBare, node, Json.node, List.length_map] at h
      cases hk : t.index items.length with
      | error e =>
        rw [hk] at h
        cases h
        exact ⟨[], t, ts, _, rfl, rfl, .position hk, rfl⟩
      | ok k =>
        rw [hk] at h
        dsimp only at h
        split at h
        · -- a new element starts as null, which takes every value
          obtain ⟨c, hc, -⟩ := Attempt.within_error h
          rw [zero, hnull] at hc
          cases hc
        · next hne =>
          have hlt : k < items.length := by
            rcases Token.index_eq_ok.1 hk with ⟨-, hk⟩ | ⟨-, -, hk, -⟩ <;> omega
          have helem : elem? none (items.map .json) k = some (.json items[k]) := by
            simp [elem?, hlt]
          rw [helem] at h
          obtain ⟨c, hc, -⟩ := Attempt.inside_error h
          refine (ih hc).behind (selectBare_item ?_ (List.getElem?_eq_getElem hlt))
          exact Token.existing_eq_ok.2 ⟨hk, hlt⟩
    | obj members =>
      have hget := Members.get?_entries t.decoded members
      rw [Members.entries] at hget
      simp only [descendJson, descendBare, node, Json.node, KeyTy.ofToken, hget] at h
      cases hm : Members.get? t.decoded members with
      | none =>
        rw [hm] at h
        obtain ⟨c, hc, -⟩ := Attempt.within_error h
        rw [zero, hnull] at hc
        cases hc
      | some i =>
        rw [hm] at h
        obtain ⟨c, hc, -⟩ := Attempt.inside_error h
        exact (ih hc).behind (selectBare_member hm)

/-! ## Calls -/

/-- **A JSON document grows along every pointer.**  An assign to null works, makes
    containers with one child each, and the value is found at the pointer, with the first
    element for every position after the last.  An assign to another document fails only at
    a value that the document had: a truth value, a number or a string, or a sequence in
    which the token names no position. -/
theorem assign_json (p : Pointer) (x : Val) (j : Json) (hp : p.validate = .ok ())
    (hx : Γ.encode x = some j) :
    (∃ i, Γ.assign (.json .null) p x = (.ok (), .json i) ∧ Stem j p.tokens i ∧
      ∀ dst, Γ.resolve (.json i) (.json dst) p.first = (.ok (), .json j)) ∧
    ∀ d e w, Γ.assign (.json d) p x = (.error e, w) →
      ∃ ts t us i, p.tokens = ts ++ t :: us ∧ Γ.Finds (.json d) (.ofTokens ts) (.json i) ∧
        Blocks t e.stop.fault i ∧
        e = ⟨.assigning, p, ⟨e.stop.fault, .json, .ofTokens (t :: us)⟩⟩ := by
  constructor
  · obtain ⟨i, hi, hstem⟩ := assignTokens_null (Γ.place Γ.redirects) hx p.tokens
    refine ⟨i, assign_ok_iff.2 ⟨hp, hi⟩, hstem, ?_⟩
    intro dst
    have hs : ∀ t ∈ p.tokens.map Token.first, t.Spelled :=
      List.forall_mem_map.2 fun t ht => Token.spelled_first (Pointer.spelled_of_validate hp ht)
    have hfound : Γ.seek (.json i) p.first = .ok (.json j) :=
      (finds_ofTokens hs).2 (resolveTokens_stem _ hstem)
    have hstore : Γ.store (.json dst) (.json j) = .done (.json j) := store_json rfl dst
    have hfirst : p.first.validate = .ok () := Pointer.validate_ofTokens hs
    rw [resolve_eq hfirst, hfound]
    simp only [deliver_of_store hstore]
    rfl
  · intro d e w h
    rw [assign_eq hp] at h
    generalize hout : Γ.assignTokens (Γ.place Γ.redirects) p.tokens (.json d) x = out at h
    obtain ⟨s | _, u⟩ := out
    · cases h
      have hblocked : Γ.BlockedAt (Γ.find Γ.redirects) p.tokens d s :=
        assignTokens_blocked hx p.tokens hout
      obtain ⟨ts, t, us, i, hts, hi, hb, hs⟩ := hblocked
      refine ⟨ts, t, us, i, hts, ?_, hb, congrArg _ hs⟩
      exact (finds_ofTokens (Pointer.spelled_of_cut hp hts).1).2 hi
    · cases h

/-- A position after the last and a zero with a sign in a new document, and a position
    that a sequence of a document lacks. -/
theorem assign_json_jobs :
    (∃ i, jobs.assign (.json .null) ⟨"/a/-/+0"⟩ (.bool true) = (.ok (), .json i) ∧
      Stem (.bool true) [⟨"a"⟩, ⟨"-"⟩, ⟨"+0"⟩] i ∧
      jobs.resolve (.json i) (.json .null) ⟨"/a/0/+0"⟩ = (.ok (), .json (.bool true))) ∧
    ∃ e w ts t us i, jobs.assign (.json (.arr [.arr []])) ⟨"/0/1/a"⟩ (.bool true) = (.error e, w) ∧
      (⟨"/0/1/a"⟩ : Pointer).tokens = ts ++ t :: us ∧
      jobs.Finds (.json (.arr [.arr []])) (.ofTokens ts) (.json i) ∧ Blocks t e.stop.fault i := by
  constructor
  · obtain ⟨i, hi, hstem, hfound⟩ := (assign_json (Γ := jobs) ⟨"/a/-/+0"⟩ (.bool true) _ rfl rfl).1
    exact ⟨i, hi, hstem, hfound .null⟩
  · have herror : (jobs.assign (.json (.arr [.arr []])) ⟨"/0/1/a"⟩ (.bool true)).1 =
        .error ⟨.assigning, ⟨"/0/1/a"⟩, ⟨.index (.outOfRange 1 0), .json, ⟨"/1/a"⟩⟩⟩ := by
      decide +kernel
    generalize hout : jobs.assign (.json (.arr [.arr []])) ⟨"/0/1/a"⟩ (.bool true) = out at herror
    obtain ⟨_, w⟩ := out
    subst herror
    obtain ⟨ts, t, us, i, hts, hi, hb, -⟩ := (assign_json _ (.bool true) _ rfl rfl).2 _ _ _ hout
    exact ⟨_, w, ts, t, us, i, rfl, hts, hi, hb⟩

end Schema

end DocPointer
