/-
  The containers that are made in a holder without a schema.

  An assign below null, an empty holder or an empty region makes one container per token.  It is
  a sequence if the token is `-` or spells zero, and a token may spell zero in more ways than one:
  with more zeros, with a sign, or escaped.  Every other token makes an object with itself as the
  only key.

  * `Grown first j ts i`: the tokens `ts` lead down the containers of `i`, each with one child, to
    `j`; those for a first element lead into sequences.
  * `shape_eq_seq_iff`: which tokens ask for a sequence.
  * `assignTokens_holder`: what an assign makes of a nil holder.
  * `holder_grown`: calls.
-/
import DocPointer.Proofs.Walk.Growth
import DocPointer.Proofs.Walk.Passing

namespace DocPointer

/-- Containers with one child each, down the tokens, and `j` at the end.  A token that is for a
    first element leads into a sequence, every other into an object of which it is the key. -/
inductive Grown (first : Token → Prop) (j : Json) : List Token → Json → Prop where
  | leaf : Grown first j [] j
  | item {t : Token} {ts : List Token} {i : Json} :
      first t → Grown first j ts i → Grown first j (t :: ts) (.arr [i])
  | member {t : Token} {ts : List Token} {i : Json} :
      ¬first t → Grown first j ts i → Grown first j (t :: ts) (.obj [(t.decoded, i)])

/-- The token is for the position after the last element, or it spells zero. -/
def Token.SpellsFirst (t : Token) : Prop := t.isAppend = true ∨ Digits.Spells t.decoded.toList 0

/-- The token is one of the two that a new sequence is documented for. -/
def Token.IsFirst (t : Token) : Prop := t = ⟨"0"⟩ ∨ t = ⟨"-"⟩

/-- A holder without a schema that is nil, with what it becomes when it is to hold JSON. -/
inductive NilHolder : Val → (Json → Val) → Prop where
  | null : NilHolder (.json .null) .json
  | vacant : NilHolder .vacant fun i => .held (.json i)
  | region : NilHolder (.raw .empty) fun i => .raw i.toBytes

/-! ## Tokens that ask for a sequence -/

section
variable {t : Token} {ts : List Token} {i j : Json} {first : Token → Prop}

theorem Token.isAppend_iff : t.isAppend = true ↔ t = ⟨"-"⟩ := by
  obtain ⟨s⟩ := t
  simp [isAppend]

/-- **A token asks for a sequence if it spells zero or is for the position after the last.** -/
theorem shape_eq_seq_iff : Shape.ofToken t = .seq ↔ t.SpellsFirst := by
  constructor
  · intro h
    rcases Token.index_eq_ok.1 (Shape.index_of_seq h) with ⟨ha, -⟩ | ⟨-, hk, -, -⟩
    · exact .inl ha
    · exact .inr (Token.toInt?_eq_some.1 hk).1
  · intro h
    have hi : t.index 0 = .ok 0 := by
      refine Token.index_of_next (h.imp_right fun hs => ?_)
      exact Token.toInt?_eq_some.2 ⟨hs, by decide, by decide⟩
    rw [Shape.ofToken, hi]

theorem Stem.grown (h : Stem j ts i) (hfirst : ∀ t ∈ ts, (first t ↔ t.SpellsFirst)) :
    Grown first j ts i := by
  induction h with
  | leaf => exact .leaf
  | item hs _ ih =>
    obtain ⟨ht, hts⟩ := List.forall_mem_cons.1 hfirst
    exact .item (ht.2 (shape_eq_seq_iff.1 hs)) (ih hts)
  | member hs _ ih =>
    obtain ⟨ht, hts⟩ := List.forall_mem_cons.1 hfirst
    refine .member (fun hf => ?_) (ih hts)
    cases hs.symm.trans (shape_eq_seq_iff.2 (ht.1 hf))

/-- The two documented tokens are those that spell a first position, but for other spellings
    of zero. -/
theorem Token.isFirst_iff (h : Digits.Spells t.decoded.toList 0 → t = ⟨"0"⟩) :
    t.IsFirst ↔ t.SpellsFirst := by
  constructor
  · rintro (rfl | rfl)
    · have hspells : Digits.Spells ['0'] 0 :=
        .bare (List.cons_ne_nil _ _) (List.forall_mem_singleton.2 rfl)
      exact .inr hspells
    · exact .inl rfl
  · rintro (ha | hs)
    · exact .inr (isAppend_iff.1 ha)
    · exact .inl (h hs)

end

namespace Schema

open Samples

variable {Γ : Schema} {doc v x : Val} {p : Pointer} {t : Token} {ts us : List Token} {i j : Json}
  {wrap : Json → Val} {here : Pointer} {f : Val → Outcome}

/-! ## Assigning below a nil holder -/

/-- The container that is made for a token becomes what null becomes. -/
theorem descendJson_container (h : Γ.descendJson here t f .null = .done (.json i)) :
    Γ.descendJson here t f (Shape.ofToken t).container = .done (.json i) := by
  obtain ⟨u, hu, rfl⟩ := Attempt.within_ok h
  cases hs : Shape.ofToken t <;> rw [hs] at hu <;> exact hu

/-- **A nil holder gets containers down the tokens.** -/
theorem assignTokens_holder (redirect : Val → Pointer → Val → Outcome) (hv : NilHolder v wrap)
    (hx : Γ.encode x = some j) (t : Token) (us : List Token) :
    ∃ i, Γ.assignTokens redirect (t :: us) v x = .done (wrap i) ∧ Stem j (t :: us) i := by
  obtain ⟨i, hi, hstem⟩ := assignTokens_null redirect hx (t :: us)
  refine ⟨i, ?_, hstem⟩
  rw [assignTokens_json_cons] at hi
  cases hv with
  | null => exact hi
  | vacant =>
    have hmade := descendJson_container hi
    show Attempt.within (Γ.descendJson _ t _ (Shape.ofToken t).container) _ _ = _
    rw [hmade]
    rfl
  | region =>
    show Attempt.within (Γ.descendJson _ t _ .null) _ _ = _
    rw [hi]
    rfl

theorem assignTokens_behind (redirect : Val → Pointer → Val → Outcome)
    (hv : NilHolder v.target wrap) (hx : Γ.encode x = some j) (t : Token) (us : List Token) :
    ∃ i, Γ.assignTokens redirect (t :: us) v x = .done (v.retarget (wrap i)) ∧
      Stem j (t :: us) i := by
  obtain ⟨i, hi, hstem⟩ := assignTokens_holder redirect hv hx t us
  refine ⟨i, ?_, hstem⟩
  rw [assignTokens] at hi ⊢
  rw [allocating_target, hi]
  rfl

/-! ## Calls -/

/-- **The containers that an assign makes in a nil holder** have one child each, and are
    sequences where the token is `-` or spells zero.  So they are sequences where the token is `-`
    or `0`, as documented, if no token spells zero in another way. -/
theorem holder_grown (hp : p.validate = .ok ()) (hts : p.tokens = ts ++ us) (hus : us ≠ [])
    (h : Γ.Passes (.assign x) us ts doc v) (hv : NilHolder v.target wrap)
    (hx : Γ.encode x = some j) :
    ∃ i, Γ.assign doc p x = (.ok (), Γ.put ts doc (v.retarget (wrap i))) ∧
      Grown Token.SpellsFirst j us i ∧
      ((∀ t ∈ us, Digits.Spells t.decoded.toList 0 → t = ⟨"0"⟩) → Grown Token.IsFirst j us i) := by
  obtain ⟨t, us, rfl⟩ := List.exists_cons_of_ne_nil hus
  obtain ⟨i, hi, hstem⟩ := assignTokens_behind (Γ.place Γ.redirects) hv hx t us
  refine ⟨i, ?_, hstem.grown fun _ _ => Iff.rfl, fun hzero => ?_⟩
  · rw [assign_ok_iff, hts, h.assignTokens, hi]
    exact ⟨hp, rfl⟩
  · exact hstem.grown fun t ht => Token.isFirst_iff (hzero t ht)

/-- A position after the last and a name below an empty holder in a sequence. -/
theorem holder_grown_behind :
    ∃ i, jobs.assign (.slice .holder [.vacant]) ⟨"/0/-/00/a"⟩ (.bool true) =
        (.ok (), .slice .holder [.held (.json i)]) ∧
      Grown Token.SpellsFirst (.bool true) [⟨"-"⟩, ⟨"00"⟩, ⟨"a"⟩] i := by
  have htokens : Pointer.tokens ⟨"/0/-/00/a"⟩ = [⟨"0"⟩] ++ [⟨"-"⟩, ⟨"00"⟩, ⟨"a"⟩] := by decide
  have hpass : jobs.Passes (.assign (.bool true)) [⟨"-"⟩, ⟨"00"⟩, ⟨"a"⟩] [⟨"0"⟩]
      (.slice .holder [.vacant]) .vacant := .step ⟨rfl, rfl⟩ rfl .here
  obtain ⟨i, hi, hgrown, -⟩ := holder_grown rfl htokens nofun hpass .vacant rfl
  exact ⟨i, hi, hgrown⟩

/-- A token with two zeros makes a sequence, although it is neither of the two tokens. -/
theorem zeros_not_first :
    ∃ i, jobs.assign (.json .null) ⟨"/00"⟩ (.bool true) = (.ok (), .json i) ∧
      ¬Grown Token.IsFirst (.bool true) [⟨"00"⟩] i := by
  refine ⟨.arr [.bool true], rfl, ?_⟩
  intro hgrown
  cases hgrown with
  | item hfirst _ => exact hfirst.elim (by decide) (by decide)

end Schema

end DocPointer
