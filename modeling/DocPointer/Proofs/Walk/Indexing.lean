/-
  The last token in a sequence.

  Where a walk reaches a sequence with one token to go, the token is `-`, or an integer, or
  neither.  In a growing sequence an assign adds an element at `-` and at the length, a delete
  passes over what is behind the last element, and a resolve refuses it (`IndexesSlice`); in a
  sequence of fixed length all three refuse what is not there, in the same words
  (`IndexesArray`).

  * `resolve_last`, `assign_last` and `delete_last`: a call is what its verb does in the container
    that is reached.
  * `sequence_indexed`: calls.
-/
import DocPointer.Proofs.Walk.Passing
import DocPointer.Proofs.Walk.Removal

namespace DocPointer

/-- A growing sequence: one of its own, or a JSON array. -/
inductive Val.Lists : Val → Ty → List Val → Prop where
  | slice (elem : Ty) (items : List Val) : Lists (.slice elem items) elem items
  | json (js : List Json) : Lists (.json (.arr js)) .json (js.map .json)

section
variable {Γ : Schema} {w : Val} {elem : Ty} {items : List Val}

theorem Val.Lists.node (h : w.Lists elem items) : Γ.node w = .slice elem none items := by
  cases h <;> rfl

/-- A sequence with other elements of its type. -/
theorem Val.Lists.relist (h : w.Lists elem items) {items' : List Val}
    (hall : (∀ y ∈ items, y.typeOf = elem) → ∀ y ∈ items', y.typeOf = elem) :
    (Γ.withItems w items').Lists elem items' := by
  cases h with
  | slice => exact .slice elem items'
  | json js =>
    have hjson : (items'.map Val.asJson).map Val.json = items' := by
      rw [List.map_map]
      refine (List.map_congr_left fun y hy => ?_).trans (List.map_id items')
      obtain ⟨j, rfl⟩ := Val.eq_json_of_typeOf (hall (by simp [Val.typeOf]) y hy)
      rfl
    have hlists := Val.Lists.json (items'.map Val.asJson)
    rwa [hjson] at hlists

end

/-- The error of a token that names none of `n` elements. -/
inductive Token.Misses (t : Token) (n : Nat) : IndexError → Prop where
  | next : t.isAppend = true ∨ t.toInt? = some (n : Int) →
      Misses t n (.outOfRange (told n) (told n - 1))
  | outside {k : Int} : t.toInt? = some k → k < 0 ∨ n < k → Misses t n (.outOfRange k (told n - 1))
  | malformed : t.isAppend = false → t.toInt? = none → Misses t n (.malformed t.decoded)

theorem Token.Misses.existing {t : Token} {n : Nat} {e : IndexError} (h : t.Misses n e) :
    t.existing n = .error e := by
  cases h with
  | next h => exact existing_of_next h
  | outside hk h => exact existing_outside hk h
  | malformed ha hk => exact existing_of_no_integer ha hk n

namespace Schema

open Samples

/-- The report of a call that is refused on the last token of its pointer, in the container `w`. -/
def refusal (op : Operation) (p : Pointer) (t : Token) (w : Val) (e : IndexError) : WalkError :=
  ⟨op, p, ⟨.index e, w.typeOf, .ofTokens [t]⟩⟩

/-- What calls at `p` do with a growing sequence of `items`.  The tokens of `p` are `ts`, which lead
    from `doc` to `v`, and the last token `t`; `w` is the sequence, behind pointers of `v` or in a
    region. -/
structure IndexesSlice (Γ : Schema) (doc : Val) (p : Pointer) (ts : List Token) (t : Token)
    (v w : Val) (elem : Ty) (items : List Val) : Prop where
  assign_adds {x c : Val} : Γ.Passes (.assign x) [t] ts doc v →
    t.isAppend = true ∨ t.toInt? = some (items.length : Int) → Γ.store (Γ.zero elem) x = .done c →
    ∃ w', w'.Lists elem (items ++ [c]) ∧ Γ.assign doc p x = (.ok (), Γ.put ts doc (v.enclose w'))
  assign_replaces {x y c : Val} {i : Nat} : Γ.Passes (.assign x) [t] ts doc v →
    t.toInt? = some (i : Int) → items[i]? = some y → Γ.store y x = .done c →
    ∃ w', w'.Lists elem (items.set i c) ∧ Γ.assign doc p x = (.ok (), Γ.put ts doc (v.enclose w'))
  assign_outside {x : Val} {k : Int} : Γ.Passes (.assign x) [t] ts doc v →
    t.toInt? = some k → k < 0 ∨ items.length < k → Γ.assign doc p x =
      (.error (refusal .assigning p t w (.outOfRange k (Token.told items.length))), doc)
  assign_malformed {x : Val} : Γ.Passes (.assign x) [t] ts doc v →
    t.isAppend = false → t.toInt? = none →
    Γ.assign doc p x = (.error (refusal .assigning p t w (.malformed t.decoded)), doc)
  delete_removes {i : Nat} : Γ.Passes .delete [t] ts doc v →
    t.toInt? = some (i : Int) → i < items.length →
    ∃ w', w'.Lists elem (items.eraseIdx i) ∧ Γ.delete doc p = (.ok (), Γ.put ts doc (v.enclose w'))
  /-- At most a region on the way is written anew. -/
  delete_passes : Γ.Passes .delete [t] ts doc v → t.Beyond items.length →
    Γ.delete doc p = (.ok (), Γ.put ts doc (v.enclose w)) ∧
      ((∀ bytes, ¬Γ.Enters p.tokens doc bytes) → Γ.put ts doc (v.enclose w) = doc)
  delete_negative {k : Int} : Γ.Passes .delete [t] ts doc v → t.toInt? = some k → k < 0 →
    Γ.delete doc p =
      (.error (refusal .deleting p t w (.outOfRange k (Token.told items.length))), doc)
  delete_malformed : Γ.Passes .delete [t] ts doc v → t.isAppend = false → t.toInt? = none →
    Γ.delete doc p = (.error (refusal .deleting p t w (.malformed t.decoded)), doc)
  resolve_finds {y : Val} {i : Nat} : Γ.Passes .find [t] ts doc v → t.toInt? = some (i : Int) →
    items[i]? = some y → Γ.Finds doc p y
  resolve_misses {e : IndexError} : Γ.Passes .find [t] ts doc v → t.Misses items.length e →
    ∀ dst, Γ.resolve doc dst p = (.error (refusal .resolving p t w e), dst)

/-- What calls at `p` do with a sequence of fixed length. -/
structure IndexesArray (Γ : Schema) (doc : Val) (p : Pointer) (ts : List Token) (t : Token)
    (v : Val) (elem : Ty) (items : List Val) : Prop where
  assign_replaces {x y c : Val} {i : Nat} : Γ.Passes (.assign x) [t] ts doc v →
    t.toInt? = some (i : Int) → items[i]? = some y → Γ.store y x = .done c →
    Γ.assign doc p x = (.ok (), Γ.put ts doc (v.enclose (.array elem (items.set i c))))
  assign_misses {x : Val} {e : IndexError} : Γ.Passes (.assign x) [t] ts doc v →
    t.Misses items.length e →
    Γ.assign doc p x = (.error (refusal .assigning p t (.array elem items) e), doc)
  assign_keeps {x : Val} : Γ.Passes (.assign x) [t] ts doc v → (Γ.assign doc p x).2 = doc ∨
    ∃ items', items'.length = items.length ∧
      (Γ.assign doc p x).2 = Γ.put ts doc (v.enclose (.array elem items'))
  delete_clears {y : Val} {i : Nat} : Γ.Passes .delete [t] ts doc v → t.toInt? = some (i : Int) →
    items[i]? = some y → Γ.delete doc p =
      (.ok (), Γ.put ts doc (v.enclose (.array elem (items.set i (Γ.zero y.typeOf)))))
  delete_misses {e : IndexError} : Γ.Passes .delete [t] ts doc v → t.Misses items.length e →
    Γ.delete doc p = (.error (refusal .deleting p t (.array elem items) e), doc)
  resolve_finds {y : Val} {i : Nat} : Γ.Passes .find [t] ts doc v → t.toInt? = some (i : Int) →
    items[i]? = some y → Γ.Finds doc p y
  resolve_misses {e : IndexError} : Γ.Passes .find [t] ts doc v → t.Misses items.length e →
    ∀ dst, Γ.resolve doc dst p = (.error (refusal .resolving p t (.array elem items) e), dst)

variable {Γ : Schema} {doc u v w x y c : Val} {p : Pointer} {ts : List Token} {t : Token}
  {elem : Ty} {items : List Val} {i : Nat} {k : Int} {e : Errand}

/-! ## The container that is reached -/

/-- The value leads to a container `w` without hooks of its own. -/
structure Holder (Γ : Schema) (v w : Val) : Prop where
  opened : Γ.opened v = .ok w
  silent : Γ.hooks v.target = .silent
  node_ne_nil : Γ.node w ≠ .nil

theorem Holder.node_target_ne_nil (h : Γ.Holder v w) : Γ.node v.target ≠ .nil := by
  rcases opened_cases h.opened with ⟨rfl, -⟩ | ⟨bytes, j, hv, -⟩
  · exact h.node_ne_nil
  · rw [hv]
    nofun

theorem holder_lists (h : w.Lists elem items) (ho : Γ.opened v = .ok w) : Γ.Holder v w := by
  refine ⟨ho, ?_, by simp [h.node]⟩
  rcases opened_cases ho with ⟨rfl, -⟩ | ⟨bytes, j, hv, -⟩
  · generalize v.target = w at h
    cases h <;> rfl
  · rw [hv]
    rfl

theorem holder_array (ho : Γ.opened v = .ok (.array elem items)) :
    Γ.Holder v (.array elem items) := by
  refine ⟨ho, ?_, nofun⟩
  rcases opened_cases ho with ⟨hw, -⟩ | ⟨bytes, j, -, -, -, hw⟩
  · rw [← hw]
    rfl
  · cases hw

section
variable (hp : p.validate = .ok ()) (hts : p.tokens = ts ++ [t]) (hv : Γ.Holder v w)
include hp hts hv

/-- A call that resolves looks the last token up in the container. -/
theorem resolve_last (h : Γ.Passes .find [t] ts doc v) : Γ.seek doc p = Γ.findsLast t w := by
  rw [seek_eq hp, hts, h.resolveTokens, resolveTokens]
  simp only [hv.silent, Hooks.silent, select_of_opened hv.opened, findsLast]
  cases Γ.selectBare t w <;> rfl

/-- A call that assigns goes down to the element in the container. -/
theorem assign_last (h : Γ.Passes (.assign x) [t] ts doc v) :
    ∃ undo : Val → Val, undo w = doc ∧
      Γ.assign doc p x = report .assigning p (Attempt.within
        (Γ.descendBare (.ofTokens [t]) t (Γ.assignTokens (Γ.place Γ.redirects) [] · x) w)
        (fun u => Γ.put ts doc (v.enclose u)) undo) := by
  obtain ⟨undo, hundo, hrun⟩ :=
    allocating_enclose hv.opened hv.node_ne_nil (Shape.ofToken t) (.ofTokens [t]) t
  refine ⟨fun u => Γ.recover ts doc (undo u), (congrArg _ hundo).trans h.recover_self, ?_⟩
  have hlast : Γ.assignTokens (Γ.place Γ.redirects) [t] v x =
      (Γ.descendBare (.ofTokens [t]) t (Γ.assignTokens (Γ.place Γ.redirects) [] · x) w).within
        v.enclose undo := by
    rw [← hrun, assignTokens, allocating_eq hv.node_target_ne_nil,
      allocating_eq hv.node_target_ne_nil]
    simp only [assignSteered, hv.silent, Hooks.silent]
  rw [assign_eq hp, hts, h.assignTokens, hlast]
  congr 1
  generalize Γ.descendBare _ t _ w = out
  obtain ⟨_ | _, u⟩ := out <;> rfl

/-- A call that deletes takes the element out of the container. -/
theorem delete_last (h : Γ.Passes .delete [t] ts doc v) : ∃ undo : Val → Val, undo w = doc ∧
    Γ.delete doc p = report .deleting p (Attempt.within (Γ.removeBare (.ofTokens [t]) t true
      Γ.zeroed w) (fun u => Γ.put ts doc (v.enclose u)) undo) := by
  obtain ⟨undo, hundo, hrun⟩ := onTarget_enclose hv.opened (.ofTokens [t]) t true
  refine ⟨fun u => Γ.recover ts doc (undo u), (congrArg _ hundo).trans h.recover_self, ?_⟩
  have hlast : Γ.deleteTokens (Γ.discard Γ.redirects) [t] v =
      (Γ.removeBare (.ofTokens [t]) t true Γ.zeroed w).within v.enclose undo := by
    rw [← hrun, deleteTokens, onTarget_eq, onTarget_eq]
    simp only [deleteSteered, hv.silent, Hooks.silent]
    rfl
  rw [delete_eq hp, hts, h.deleteTokens (List.cons_ne_nil t []), hlast]
  congr 1
  generalize Γ.removeBare _ t true _ w = out
  obtain ⟨_ | _, u⟩ := out <;> rfl

/-- A refusal of an index leaves the document as it was. -/
theorem assign_refused {e : IndexError} (h : Γ.Passes (.assign x) [t] ts doc v)
    (hrefuse : ∀ f, Γ.descendBare (.ofTokens [t]) t f w =
      Outcome.refuse (.ofTokens [t]) w (.index e)) :
    Γ.assign doc p x = (.error (refusal .assigning p t w e), doc) := by
  obtain ⟨undo, hundo, hassign⟩ := assign_last hp hts hv h
  rw [hassign, hrefuse, ← hundo]
  rfl

theorem delete_refused {e : IndexError} (h : Γ.Passes .delete [t] ts doc v)
    (hrefuse : Γ.removeBare (.ofTokens [t]) t true Γ.zeroed w =
      Outcome.refuse (.ofTokens [t]) w (.index e)) :
    Γ.delete doc p = (.error (refusal .deleting p t w e), doc) := by
  obtain ⟨undo, hundo, hdelete⟩ := delete_last hp hts hv h
  rw [hdelete, hrefuse, ← hundo]
  rfl

theorem resolve_refused {e : IndexError} (h : Γ.Passes .find [t] ts doc v)
    (hrefuse : Γ.selectBare t w = .error ⟨.index e, w.typeOf⟩) (dst : Val) :
    Γ.resolve doc dst p = (.error (refusal .resolving p t w e), dst) := by
  rw [resolve_eq hp, resolve_last hp hts hv h, findsLast, hrefuse]
  rfl

theorem assign_done (h : Γ.Passes (.assign x) [t] ts doc v)
    (hdone : Γ.descendBare (.ofTokens [t]) t (Γ.assignTokens (Γ.place Γ.redirects) [] · x) w =
      .done u) : Γ.assign doc p x = (.ok (), Γ.put ts doc (v.enclose u)) := by
  obtain ⟨undo, -, hassign⟩ := assign_last hp hts hv h
  rw [hassign, hdone]
  rfl

theorem delete_done (h : Γ.Passes .delete [t] ts doc v)
    (hdone : Γ.removeBare (.ofTokens [t]) t true Γ.zeroed w = .done u) :
    Γ.delete doc p = (.ok (), Γ.put ts doc (v.enclose u)) := by
  obtain ⟨undo, -, hdelete⟩ := delete_last hp hts hv h
  rw [hdelete, hdone]
  rfl

theorem finds_done (h : Γ.Passes .find [t] ts doc v) (hfound : Γ.selectBare t w = .ok y) :
    Γ.Finds doc p y := by
  rw [finds_iff, resolve_last hp hts hv h, findsLast, hfound]
  rfl

end

/-- Where no region is entered, the container that was there is put back in its place. -/
theorem put_enclose_self (ho : Γ.opened v = .ok w) (h : Γ.Passes e [t] ts doc v)
    (hplain : ∀ bytes, ¬Γ.Enters (ts ++ [t]) doc bytes) : Γ.put ts doc (v.enclose w) = doc := by
  have hback : v.enclose w = v := by
    rcases opened_cases ho with ⟨rfl, hr⟩ | ⟨bytes, j, hb, -⟩
    · rw [Val.enclose_of_ne_raw hr, Val.retarget_target]
    · exact absurd (h.enters (.here hb)) (hplain bytes)
  rw [hback, ← h.recover_eq fun bytes hb => hplain bytes (hb.append [t]), h.recover_self]

/-! ## One step in a growing sequence -/

section
variable {f : Val → Outcome} {here : Pointer}

theorem descendBare_item (hn : Γ.node w = .slice elem none items)
    (hk : t.toInt? = some (i : Int)) (hy : items[i]? = some y) (hf : f y = .done c) :
    Γ.descendBare here t f w = .done (Γ.withItems w (items.set i c)) := by
  obtain ⟨hlt, -⟩ := List.getElem?_eq_some_iff.1 hy
  have hi : t.index items.length = .ok i := Token.index_of_toInt? hk (by omega) (by omega)
  simp only [descendBare, hn, hi, Nat.ne_of_lt hlt, if_false, elem?, reduceCtorEq, hy, hf]
  rfl

variable {gap : Option Nat} (hn : Γ.node w = .slice elem gap items)
include hn

theorem descendBare_push (hnext : t.isAppend = true ∨ t.toInt? = some (items.length : Int))
    (hf : f (Γ.zero elem) = .done c) :
    Γ.descendBare here t f w = .done (Γ.withItems w (items ++ [c])) := by
  have hlast : (items ++ [Γ.zero elem]).set items.length c = items ++ [c] := by
    rw [List.set_append_right _ _ (Nat.le_refl _), Nat.sub_self]
    rfl
  simp only [descendBare, hn, Token.index_of_next hnext, if_true, hf, ← hlast]
  rfl

theorem descendBare_of_index {e : IndexError} (hi : t.index items.length = .error e) :
    Γ.descendBare here t f w = Outcome.refuse here w (.index e) := by
  simp only [descendBare, hn, hi]

theorem removeBare_out (hk : t.toInt? = some (i : Int)) (hlt : i < items.length) :
    Γ.removeBare here t true f w = .done (Γ.withItems w (items.eraseIdx i)) := by
  have hi : t.index items.length = .ok i := Token.index_of_toInt? hk (by omega) (by omega)
  simp only [removeBare, hn, hi, Nat.ne_of_lt hlt, if_false, if_true]

theorem removeBare_beyond (h : t.Beyond items.length) (last : Bool) :
    Γ.removeBare here t last f w = .done w := by
  rcases Token.index_of_beyond h with hi | ⟨k, bound, hi, hk⟩
  · simp only [removeBare, hn, hi, if_true]
  · simp only [removeBare, hn, hi, hk, if_true]

end

/-! ## One step in a sequence of fixed length -/

section
variable {f : Val → Outcome} {here : Pointer}

theorem descendBare_arrayItem (hk : t.toInt? = some (i : Int)) (hy : items[i]? = some y) :
    Γ.descendBare here t f (.array elem items) =
      (f y).inside fun c => .array elem (items.set i c) := by
  obtain ⟨hlt, -⟩ := List.getElem?_eq_some_iff.1 hy
  have hi : t.existing items.length = .ok i := Token.existing_of_toInt? hk (by omega) (by omega)
  simp only [descendBare, node, hi, elem?, reduceCtorEq, if_false, hy]
  rfl

theorem descendBare_misses {e : IndexError} (h : t.Misses items.length e) :
    Γ.descendBare here t f (.array elem items) =
      Outcome.refuse here (.array elem items) (.index e) := by
  simp only [descendBare, node, h.existing]

theorem removeBare_clears (hk : t.toInt? = some (i : Int)) (hy : items[i]? = some y) :
    Γ.removeBare here t true Γ.zeroed (.array elem items) =
      .done (.array elem (items.set i (Γ.zero y.typeOf))) := by
  obtain ⟨hlt, -⟩ := List.getElem?_eq_some_iff.1 hy
  have hi : t.existing items.length = .ok i := Token.existing_of_toInt? hk (by omega) (by omega)
  simp only [removeBare, node, hi, elem?, reduceCtorEq, if_false, hy]
  rfl

theorem removeBare_misses {e : IndexError} (h : t.Misses items.length e) :
    Γ.removeBare here t true f (.array elem items) =
      Outcome.refuse here (.array elem items) (.index e) := by
  simp only [removeBare, node, h.existing]

/-- A token names an element, or the error says why not. -/
theorem item_or_misses (t : Token) (items : List Val) :
    (∃ (i : Nat) (y : Val), t.toInt? = some (i : Int) ∧ items[i]? = some y) ∨
      ∃ e, t.Misses items.length e := by
  cases hk : t.toInt? with
  | none =>
    cases ha : t.isAppend with
    | true => exact .inr ⟨_, .next (.inl ha)⟩
    | false => exact .inr ⟨_, .malformed ha hk⟩
  | some k =>
    by_cases hin : 0 ≤ k ∧ k < items.length
    · obtain ⟨i, rfl⟩ := Int.eq_ofNat_of_zero_le hin.1
      have hlt : i < items.length := by omega
      exact .inl ⟨i, items[i], rfl, List.getElem?_eq_getElem hlt⟩
    · by_cases hnext : k = items.length
      · exact .inr ⟨_, .next (.inr (hnext ▸ hk))⟩
      · exact .inr ⟨_, .outside hk (by omega)⟩

end

/-! ## Looking up -/

theorem selectBare_at
    (hn : (∃ elem, Γ.node w = .slice elem none items) ∨ Γ.node w = .array none items)
    (hk : t.toInt? = some (i : Int)) (hy : items[i]? = some y) : Γ.selectBare t w = .ok y := by
  obtain ⟨hlt, -⟩ := List.getElem?_eq_some_iff.1 hy
  have hi : t.existing items.length = .ok i := Token.existing_of_toInt? hk (by omega) (by omega)
  rcases hn with ⟨elem, hn⟩ | hn <;>
    simp only [selectBare, hn, hi, elem?, reduceCtorEq, if_false, hy]

theorem selectBare_misses {gap : Option Nat} {e : IndexError}
    (hn : (∃ elem, Γ.node w = .slice elem gap items) ∨ Γ.node w = .array gap items)
    (h : t.Misses items.length e) : Γ.selectBare t w = .error ⟨.index e, w.typeOf⟩ := by
  rcases hn with ⟨elem, hn⟩ | hn <;> simp only [selectBare, hn, h.existing]

/-! ## Calls -/

section
variable (hp : p.validate = .ok ()) (hts : p.tokens = ts ++ [t])
include hp hts

theorem indexesSlice (ho : Γ.opened v = .ok w) (h : w.Lists elem items) :
    Γ.IndexesSlice doc p ts t v w elem items := by
  have hn : Γ.node w = .slice elem none items := h.node
  have hv : Γ.Holder v w := holder_lists h ho
  constructor
  case assign_adds =>
    intro x c hpass hnext hstore
    refine ⟨_, h.relist ?_, assign_done hp hts hv hpass
      (descendBare_push hn hnext (assignTokens_nil_ok.2 hstore))⟩
    intro hall y hy
    rcases List.mem_append.1 hy with hy | hy
    · exact hall y hy
    · rw [List.mem_singleton.1 hy, typeOf_store hstore, typeOf_zero]
  case assign_replaces =>
    intro x y c i hpass hk hy hstore
    refine ⟨_, h.relist ?_, assign_done hp hts hv hpass
      (descendBare_item hn hk hy (assignTokens_nil_ok.2 hstore))⟩
    intro hall z hz
    rcases List.mem_or_eq_of_mem_set hz with hz | rfl
    · exact hall z hz
    · rw [typeOf_store hstore]
      exact hall y (List.mem_of_getElem? hy)
  case assign_outside =>
    intro x k hpass hk hout
    exact assign_refused hp hts hv hpass fun f =>
      descendBare_of_index hn (Token.index_outside hk hout)
  case assign_malformed =>
    intro x hpass ha hk
    exact assign_refused hp hts hv hpass fun f =>
      descendBare_of_index hn (Token.index_of_no_integer ha hk _)
  case delete_removes =>
    intro i hpass hk hlt
    refine ⟨_, h.relist ?_, delete_done hp hts hv hpass (removeBare_out hn hk hlt)⟩
    intro hall y hy
    exact hall y (List.mem_of_mem_eraseIdx hy)
  case delete_passes =>
    intro hpass hbeyond
    refine ⟨delete_done hp hts hv hpass (removeBare_beyond hn hbeyond true), fun hplain => ?_⟩
    rw [hts] at hplain
    exact put_enclose_self ho hpass hplain
  case delete_negative =>
    intro k hpass hk hneg
    refine delete_refused hp hts hv hpass ?_
    simp only [removeBare, hn, Token.index_outside hk (.inl hneg), Int.not_le.2 hneg, if_false]
  case delete_malformed =>
    intro hpass ha hk
    refine delete_refused hp hts hv hpass ?_
    simp only [removeBare, hn, Token.index_of_no_integer ha hk]
  case resolve_finds =>
    intro y i hpass hk hy
    exact finds_done hp hts hv hpass (selectBare_at (.inl ⟨_, hn⟩) hk hy)
  case resolve_misses =>
    intro e hpass hmiss dst
    exact resolve_refused hp hts hv hpass (selectBare_misses (.inl ⟨_, hn⟩) hmiss) dst

theorem indexesArray (ho : Γ.opened v = .ok (.array elem items)) :
    Γ.IndexesArray doc p ts t v elem items := by
  have hv := holder_array ho
  constructor
  case assign_replaces =>
    intro x y c i hpass hk hy hstore
    refine assign_done hp hts hv hpass ?_
    rw [descendBare_arrayItem hk hy, assignTokens_nil_ok.2 hstore]
    rfl
  case assign_misses =>
    intro x e hpass hmiss
    exact assign_refused hp hts hv hpass fun f => descendBare_misses hmiss
  case assign_keeps =>
    intro x hpass
    rcases item_or_misses t items with ⟨i, y, hk, hy⟩ | ⟨e, hmiss⟩
    · obtain ⟨undo, hundo, hassign⟩ := assign_last hp hts hv hpass
      rw [hassign, descendBare_arrayItem hk hy]
      cases hstore : Γ.store y x with
      | mk result c =>
        rw [assignTokens, hstore]
        cases result with
        | error r =>
          -- what the element refused has left it as it was
          obtain rfl := store_atomic x y r c hstore
          refine .inl (.trans ?_ hundo)
          exact congrArg (fun l => undo (.array elem l)) (set_of_getElem? hy)
        | ok _ => exact .inr ⟨items.set i c, List.length_set, rfl⟩
    · rw [assign_refused hp hts hv hpass fun f => descendBare_misses hmiss]
      exact .inl rfl
  case delete_clears =>
    intro y i hpass hk hy
    exact delete_done hp hts hv hpass (removeBare_clears hk hy)
  case delete_misses =>
    intro e hpass hmiss
    exact delete_refused hp hts hv hpass (removeBare_misses hmiss)
  case resolve_finds =>
    intro y i hpass hk hy
    exact finds_done hp hts hv hpass (selectBare_at (.inr rfl) hk hy)
  case resolve_misses =>
    intro e hpass hmiss dst
    exact resolve_refused hp hts hv hpass (selectBare_misses (.inr rfl) hmiss) dst

/-- **The last token in a sequence** adds, replaces, takes out or finds an element, or is
    refused, as the sequence and the verb have it. -/
theorem sequence_indexed :
    (∀ w elem items, Γ.opened v = .ok w → w.Lists elem items →
      Γ.IndexesSlice doc p ts t v w elem items) ∧
    ∀ elem items, Γ.opened v = .ok (.array elem items) →
      Γ.IndexesArray doc p ts t v elem items := by
  constructor
  · intro w elem items ho h
    exact indexesSlice hp hts ho h
  · intro elem items ho
    exact indexesArray hp hts ho

end

/-- A step is added behind the one of a job, its ports are left alone behind the last, and no
    element is after the last of an array. -/
theorem busyJob_indexed :
    (∃ w, w.Lists (hashed i64)
        [.map .hashed .string i64 [(.text "cpu", .int .i64 1)], .map .hashed .string i64 []] ∧
      jobs.assign busyJob ⟨"/steps/-"⟩ (.map .hashed .string i64 []) =
        (.ok (), jobs.put [⟨"steps"⟩] busyJob (.ptr w))) ∧
    (jobs.delete busyJob ⟨"/notes/ports/1"⟩).1 = .ok () ∧
    jobs.delete (.array i64 [.int .i64 4]) ⟨"/-"⟩ =
      (.error ⟨.deleting, ⟨"/-"⟩, ⟨.index (.outOfRange 1 0), .array 1 i64, ⟨"/-"⟩⟩⟩,
        .array i64 [.int .i64 4]) := by
  have hselect {t : Token} {path : List Nat} {c : Val} (hp : jobs.fieldPath "Job" t = .ok path)
      (hc : jobs.follow path busyJob = some c) : jobs.select t busyJob = .ok c :=
    select_eq_ok.2 ⟨busyJob, rfl, (selectBare_field (plain_jobs.node_record ..)).2 ⟨path, hp, hc⟩⟩
  refine ⟨?_, ?_, ?_⟩
  · have hpath : jobs.fieldPath "Job" ⟨"steps"⟩ = .ok [1] := by decide +kernel
    have hslice : jobs.IndexesSlice busyJob ⟨"/steps/-"⟩ [⟨"steps"⟩] ⟨"-"⟩
        (.ptr (.slice (hashed i64) [.map .hashed .string i64 [(.text "cpu", .int .i64 1)]])) _ _ _ :=
      (sequence_indexed rfl (by decide)).1 _ _ _ rfl (.slice ..)
    exact hslice.assign_adds (.step ⟨rfl, rfl⟩ (hselect hpath rfl) .here) (.inl rfl) (store_same rfl)
  · have hpath : jobs.fieldPath "Job" ⟨"notes"⟩ = .ok [2] := by decide +kernel
    have hports : (Json.arr [.str "http"]).Wellformed :=
      Json.wellformed_arr.2 (List.forall_mem_singleton.2 trivial)
    have hnotes : (Json.obj [("ports", .arr [.str "http"])]).Wellformed :=
      Json.wellformed_obj.2 ⟨List.nodup_singleton _, List.forall_mem_singleton.2 hports⟩
    have hopened := (opened_toBytes (Γ := jobs) (faithful_of_exact rfl) hnotes).1
    have hslice : jobs.IndexesSlice busyJob ⟨"/notes/ports/1"⟩ [⟨"notes"⟩, ⟨"ports"⟩] ⟨"1"⟩
        (.json (.arr [.str "http"])) _ _ _ :=
      (sequence_indexed rfl (by decide)).1 _ _ _ rfl (.json _)
    have hpass : jobs.Passes .delete [⟨"1"⟩] [⟨"notes"⟩, ⟨"ports"⟩] busyJob
        (.json (.arr [.str "http"])) :=
      .step ⟨rfl, rfl⟩ (hselect hpath rfl)
        (.step ⟨rfl, rfl⟩ (select_eq_ok.2 ⟨_, hopened, rfl⟩) .here)
    rw [(hslice.delete_passes hpass (.inr ⟨1, rfl, by decide⟩)).1]
  · have harray : jobs.IndexesArray (.array i64 [.int .i64 4]) ⟨"/-"⟩ [] ⟨"-"⟩
        (.array i64 [.int .i64 4]) _ _ :=
      (sequence_indexed rfl (by decide)).2 _ _ rfl
    exact harray.delete_misses .here (.next (.inl rfl))

end Schema

end DocPointer
