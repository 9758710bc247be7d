/-
  On a JSON document, a walk is a fold over the tokens.

  * `Json.Steps t i j`: the token `t` leads from `i` to its part `j`: in an object to the member
    of the name that `t` spells, in an array to the element whose position it spells in 64
    bits, and nowhere in any other value.
  * `Json.Reaches ts i j`: the tokens lead from `i` to `j`, one step after the other.
  * `Json.at?`: what is at a path of names and positions.  Every name is one, also an empty
    one and one that looks like a position or has slashes and tildes in it.
  * `resolve_folds`: calls.  A pointer is resolved as what its tokens reach, and the
    pointer of a path as what is at the path.
-/
import DocPointer.Proofs.Pointer.Segments
import DocPointer.Proofs.Walk.Growth
import DocPointer.Proofs.Walk.Transparency

namespace DocPointer

namespace Json

/-- The token leads from one value to a part of it. -/
inductive Steps (t : Token) : Json → Json → Prop where
  | member {members : Members Json} {j : Json} :
      Members.get? t.decoded members = some j → Steps t (.obj members) j
  | item {items : List Json} {k : Nat} {j : Json} :
      t.text ≠ "-" → Digits.Spells t.decoded.toList k → k ≤ maxInt → items[k]? = some j →
        Steps t (.arr items) j

/-- The tokens lead from one value to another. -/
inductive Reaches : List Token → Json → Json → Prop where
  | here {j : Json} : Reaches [] j j
  | step {t : Token} {ts : List Token} {i j k : Json} :
      Steps t i j → Reaches ts j k → Reaches (t :: ts) i k

/-- A way down from a container. -/
inductive Branch where
  | member (name : String)
  | item (k : Nat)
  deriving DecidableEq, Repr

/-- The raw text that a pointer has for it: the name, or the position in base ten. -/
def Branch.text : Branch → String
  | member name => name
  | item k => String.ofList (Digits.ofNat k)

/-- What is there. -/
def Branch.of? : Branch → Json → Option Json
  | member name, .obj members => Members.get? name members
  | item k, .arr items => items[k]?
  | _, _ => none

/-- What is at a path. -/
def at? : List Branch → Json → Option Json
  | [], j => some j
  | b :: path, j => (b.of? j).bind (at? path)

end Json

open Json

/-- A position in base ten needs no escapes. -/
theorem Token.ofRaw_position (k : Nat) :
    Token.ofRaw (String.ofList (Digits.ofNat k)) = .ofPosition k := by
  have ht : '~' ∉ (ofPosition k).text.toList := by
    intro hc
    cases isDigit_of_mem_ofPosition hc
  have hd : (ofPosition k).decoded = (ofPosition k).text := by
    rw [decoded, Escape.unescape_eq_self ht, String.ofList_toList]
  have h := ofRaw_decoded (Pointer.spelled_ofPosition k)
  rwa [hd] at h

namespace Schema

open Samples

variable {Γ : Schema} {t : Token} {ts : List Token} {i : Json} {c : Val}

/-! ## Steps -/

/-- **A token finds in a JSON value what it leads to.** -/
theorem selectBare_json_iff :
    Γ.selectBare t (.json i) = .ok c ↔ ∃ j, c = .json j ∧ Steps t i j := by
  constructor
  · intro h
    obtain ⟨j, rfl⟩ := json_of_selectBare h
    refine ⟨j, rfl, ?_⟩
    cases i with
    | arr items =>
      cases ht : t.existing items.length with
      | error e => simp [selectBare, node, Json.node, ht] at h
      | ok k =>
        obtain ⟨ha, hk, hmax, -⟩ := Token.existing_iff_spells.1 ht
        have hj : items[k]? = some j := by
          cases hk : items[k]? <;> simp [selectBare, node, Json.node, ht, elem?, hk] at h
          rw [h]
        refine .item ?_ hk hmax hj
        simpa [Token.isAppend] using ha
    | obj members =>
      obtain ⟨k, hk, hj⟩ := (selectBare_entry rfl).1 h
      cases hk
      have hget := Members.get?_entries t.decoded members
      rw [Members.entries, hj] at hget
      obtain ⟨j', hj', heq⟩ := Option.map_eq_some_iff.1 hget.symm
      cases heq
      exact .member hj'
    | _ => simp [selectBare, node, Json.node] at h
  · rintro ⟨j, rfl, h⟩
    cases h with
    | member hj => exact selectBare_member hj
    | item ha hk hmax hj =>
      obtain ⟨hlt, -⟩ := List.getElem?_eq_some_iff.1 hj
      refine selectBare_item (Token.existing_iff_spells.2 ⟨?_, hk, hmax, hlt⟩) hj
      simpa [Token.isAppend] using ha

/-- The raw text of a branch leads to what is there. -/
theorem steps_of_branch {b : Branch} {j : Json} (hb : ∀ k, b = .item k → k ≤ maxInt)
    (h : b.of? i = some j) : Steps (Token.ofRaw b.text) i j := by
  cases b with
  | member name =>
    cases i with
    | obj members =>
      refine .member ?_
      rw [Token.decoded_ofRaw]
      exact h
    | _ => cases h
  | item k =>
    cases i with
    | arr items =>
      refine .item ?_ ?_ (hb k rfl) h
      · intro ht
        have ha := Token.isAppend_ofPosition k
        rw [← Token.ofRaw_position, Token.isAppend, beq_eq_false_iff_ne] at ha
        exact ha ht
      · rw [Token.decoded_ofRaw, Branch.text, String.toList_ofList]
        exact Digits.spells_ofNat k
    | _ => cases h

/-! ## Walks -/

theorem resolveTokens_json_iff (redirect : Val → Pointer → Except Stop Val) :
    Γ.resolveTokens redirect ts (.json i) = .ok c ↔ ∃ j, c = .json j ∧ Reaches ts i j := by
  induction ts generalizing i with
  | nil =>
    constructor
    · rintro ⟨⟩
      exact ⟨i, rfl, .here⟩
    · rintro ⟨j, rfl, ⟨⟩⟩
      rfl
  | cons t ts ih =>
    constructor
    · intro h
      rw [resolveTokens_of_transparent (.json i)] at h
      cases hs : Γ.select t (.json i) with
      | error e => simp [hs] at h
      | ok d =>
        rw [hs] at h
        obtain ⟨j, rfl, hstep⟩ := selectBare_json_iff.1 hs
        obtain ⟨k, rfl, hreach⟩ := ih.1 h
        exact ⟨k, rfl, .step hstep hreach⟩
    · rintro ⟨k, rfl, h⟩
      cases h with
      | step hstep hreach =>
        rw [resolveTokens_json_cons redirect (selectBare_json_iff.2 ⟨_, rfl, hstep⟩)]
        exact ih.2 ⟨k, rfl, hreach⟩

theorem reaches_of_at? {path : List Branch} {j : Json} (hpath : ∀ k, .item k ∈ path → k ≤ maxInt)
    (h : at? path i = some j) : Reaches (path.map fun b => Token.ofRaw b.text) i j := by
  induction path generalizing i with
  | nil =>
    cases h
    exact .here
  | cons b path ih =>
    obtain ⟨d, hd, hj⟩ := Option.bind_eq_some_iff.1 h
    refine .step (steps_of_branch ?_ hd) (ih ?_ hj)
    · rintro k rfl
      exact hpath k List.mem_cons_self
    · intro k hk
      exact hpath k (List.mem_cons_of_mem b hk)

/-! ## Calls -/

/-- **Resolving a pointer in a JSON document folds its tokens**: the call works if and only if
    the tokens reach a value, and delivers that.  So everything in the document is what the
    pointer of its path is resolved as. -/
theorem resolve_folds (doc dst : Json) :
    (∀ p : Pointer, p.validate = .ok () → ∀ w,
      Γ.resolve (.json doc) (.json dst) p = (.ok (), w) ↔
        ∃ j, w = .json j ∧ Reaches p.tokens doc j) ∧
    ∀ (path : List Branch) (j : Json), (∀ k, .item k ∈ path → k ≤ maxInt) →
      at? path doc = some j →
        Γ.resolve (.json doc) (.json dst) (.ofSegments (path.map Branch.text)) =
          (.ok (), .json j) := by
  have hfold (p : Pointer) (hp : p.validate = .ok ()) (w : Val) :
      Γ.resolve (.json doc) (.json dst) p = (.ok (), w) ↔
        ∃ j, w = .json j ∧ Reaches p.tokens doc j := by
    rw [resolve_eq hp, seek_eq hp]
    constructor
    · intro h
      cases hx : Γ.resolveTokens (Γ.find Γ.redirects) p.tokens (.json doc) with
      | error s => simp [hx] at h
      | ok x =>
        obtain ⟨j, rfl, hreach⟩ := (resolveTokens_json_iff _).1 hx
        have hstore : Γ.deliver (.json dst) (.json j) = .done (.json j) :=
          deliver_of_store (store_json rfl dst)
        simp only [hx, hstore] at h
        cases h
        exact ⟨j, rfl, hreach⟩
    · rintro ⟨j, rfl, hreach⟩
      have hstore : Γ.deliver (.json dst) (.json j) = .done (.json j) :=
        deliver_of_store (store_json rfl dst)
      rw [(resolveTokens_json_iff _).2 ⟨j, rfl, hreach⟩]
      simp only [hstore]
      rfl
  refine ⟨hfold, ?_⟩
  intro path j hpath hj
  refine (hfold _ (Pointer.validate_ofSegments _) _).2 ⟨j, rfl, ?_⟩
  rw [Pointer.tokens_ofSegments, List.map_map]
  exact reaches_of_at? hpath hj

/-- A position with a sign and a zero in front, and a name that has a slash in it, beside
    one that looks like a position. -/
theorem resolve_folds_ports :
    let doc : Json := .obj [("0", .arr [.null, .obj [("a/b", .bool true), ("", .null)]])]
    (∃ j, Reaches (Pointer.tokens ⟨"/0/+01/a~1b"⟩) doc j) ∧
      jobs.resolve (.json doc) (.json .null) (.ofSegments ["0", "1", ""]) =
        (.ok (), .json .null) := by
  intro doc
  have hok : jobs.resolve (.json doc) (.json .null) ⟨"/0/+01/a~1b"⟩ =
      (.ok (), .json (.bool true)) := by
    rfl
  constructor
  · obtain ⟨j, -, hj⟩ := ((resolve_folds doc .null).1 _ rfl _).1 hok
    exact ⟨j, hj⟩
  · refine (resolve_folds doc .null).2 [.member "0", .item 1, .member ""] .null ?_ rfl
    intro k hk
    simp at hk
    subst hk
    decide

end Schema

end DocPointer
