/-
  Pointers and their tokens.

  A token is `Spelled` if it can stand in a well-formed pointer: it has no slash, and
  every tilde in it starts an escape.  The pointer of a list of spelled tokens is well
  formed and has these tokens, and the tokens of a well-formed pointer are spelled.
-/
import DocPointer.Pointer.Basic
import DocPointer.Proofs.Pointer.Token

namespace DocPointer

/-- A token that can stand in a well-formed pointer. -/
def Token.Spelled (t : Token) : Prop :=
  '/' ∉ t.text.toList ∧ Pointer.escapesComplete t.text.toList = true

namespace Pointer

/-! ## Pieces -/

theorem pieces_cons {c : Char} (h : c ≠ '/') (cs : List Char) :
    ∃ p ps, pieces cs = p :: ps ∧ pieces (c :: cs) = (c :: p) :: ps := by
  have hne : pieces cs ≠ [] := by
    fun_induction pieces cs <;> simp_all
  obtain ⟨p, ps, hp⟩ := List.exists_cons_of_ne_nil hne
  refine ⟨p, ps, hp, ?_⟩
  rw [pieces, hp]
  simpa using h

/-- A text without slashes is one piece. -/
theorem pieces_eq_self {cs : List Char} (h : '/' ∉ cs) : pieces cs = [cs] := by
  induction cs with
  | nil => rfl
  | cons c cs ih =>
    rw [List.mem_cons, not_or] at h
    obtain ⟨p, ps, hp, hc⟩ := pieces_cons (Ne.symm h.1) cs
    rw [ih h.2] at hp
    cases hp
    exact hc

/-- The text up to the first slash is the first piece. -/
theorem pieces_append {cs ds : List Char} (h : '/' ∉ cs) :
    pieces (cs ++ '/' :: ds) = cs :: pieces ds := by
  induction cs with
  | nil => rw [List.nil_append, pieces]
  | cons c cs ih =>
    rw [List.mem_cons, not_or] at h
    obtain ⟨p, ps, hp, hc⟩ := pieces_cons (Ne.symm h.1) (cs ++ '/' :: ds)
    rw [ih h.2] at hp
    cases hp
    exact hc

/-- No piece has a slash in it. -/
theorem not_mem_of_mem_pieces {cs p : List Char} (h : p ∈ pieces cs) : '/' ∉ p := by
  induction cs generalizing p with
  | nil => simp_all [pieces]
  | cons c cs ih =>
    by_cases hc : c = '/'
    · subst hc
      rw [pieces, List.mem_cons] at h
      rcases h with rfl | h
      · simp
      · exact ih h
    · obtain ⟨q, qs, hq, hcq⟩ := pieces_cons hc cs
      rw [hcq, List.mem_cons] at h
      rw [hq] at ih
      rcases h with rfl | h
      · rw [List.mem_cons, not_or]
        exact ⟨Ne.symm hc, ih List.mem_cons_self⟩
      · exact ih (List.mem_cons_of_mem _ h)

/-! ## Escapes -/

/-- A slash ends no escape. -/
theorem escapesComplete_append (cs ds : List Char) :
    escapesComplete (cs ++ '/' :: ds) = (escapesComplete cs && escapesComplete ds) := by
  fun_induction escapesComplete cs with
  | case1 => rw [List.nil_append, escapesComplete, Bool.true_and] <;> simp
  | case2 cs ih => exact ih
  | case3 cs ih => exact ih
  | case4 cs h₀ h₁ =>
    cases cs with
    | nil => rfl
    | cons c cs =>
      rw [Bool.false_and, List.cons_append, List.cons_append, escapesComplete]
      · intro _ h; cases h; exact h₀ _ rfl
      · intro _ h; cases h; exact h₁ _ rfl
  | case5 c cs h₀ h₁ h₂ ih =>
    rw [List.cons_append, escapesComplete, ih]
    · intro _ hc _
      exact h₂ hc
    · intro _ hc _
      exact h₂ hc
    · exact h₂

/-- The pieces of a text whose escapes are complete have complete escapes. -/
theorem escapesComplete_of_mem_pieces {cs p : List Char} (h : escapesComplete cs = true)
    (hp : p ∈ pieces cs) : escapesComplete p = true := by
  by_cases hs : '/' ∈ cs
  · obtain ⟨ds, es, rfl, hds⟩ := List.eq_append_cons_of_mem hs
    rw [escapesComplete_append, Bool.and_eq_true] at h
    rw [pieces_append hds, List.mem_cons] at hp
    rcases hp with rfl | hp
    · exact h.1
    · exact escapesComplete_of_mem_pieces h.2 hp
  · rw [pieces_eq_self hs, List.mem_singleton] at hp
    exact hp ▸ h
termination_by cs.length
decreasing_by grind

/-! ## Tokens -/

/-- The tokens of a well-formed pointer are spelled. -/
theorem spelled_of_validate {p : Pointer} (h : p.validate = .ok ()) {t : Token}
    (ht : t ∈ p.tokens) : t.Spelled := by
  unfold tokens at ht
  split at ht
  · next cs hcs =>
    obtain ⟨piece, hp, rfl⟩ := List.mem_map.1 ht
    rw [validate, hcs, check] at h
    split at h
    · next hesc =>
      rw [Token.Spelled, String.toList_ofList]
      exact ⟨not_mem_of_mem_pieces hp, escapesComplete_of_mem_pieces hesc hp⟩
    · cases h
  · cases ht

theorem spelled_ofPosition (i : Nat) : (Token.ofPosition i).Spelled := by
  have hd (c : Char) (h : c ∈ (Token.ofPosition i).text.toList) : c ≠ '~' ∧ c ≠ '/' := by
    constructor <;>
    · rintro rfl
      cases Token.isDigit_of_mem_ofPosition h
  refine ⟨fun h => (hd _ h).2 rfl, ?_⟩
  generalize (Token.ofPosition i).text.toList = cs at hd
  induction cs with
  | nil => rfl
  | cons c cs ih =>
    obtain ⟨⟨hc, -⟩, hcs⟩ := List.forall_mem_cons.1 hd
    rw [escapesComplete, ih hcs] <;> simp_all

theorem toList_prepend (p : Pointer) (t : Token) :
    (p.prepend t).text.toList = '/' :: (t.text.toList ++ p.text.toList) := by
  simp [prepend, String.toList_append]

/-- The text of a list of tokens is empty or starts with a slash. -/
theorem toList_ofTokens_cons (t : Token) (ts : List Token) :
    (ofTokens (t :: ts)).text.toList = '/' :: (t.text.toList ++ (ofTokens ts).text.toList) :=
  toList_prepend _ _

theorem pieces_ofTokens {t : Token} {ts : List Token} (h : ∀ u ∈ t :: ts, u.Spelled) :
    pieces (t.text.toList ++ (ofTokens ts).text.toList) = (t :: ts).map (·.text.toList) := by
  induction ts generalizing t with
  | nil =>
    simp only [ofTokens, root, String.toList_empty, List.append_nil]
    exact pieces_eq_self (h t List.mem_cons_self).1
  | cons u ts ih =>
    obtain ⟨ht, hts⟩ := List.forall_mem_cons.1 h
    rw [toList_ofTokens_cons, pieces_append ht.1, ih hts]
    rfl

/-- **The pointer of a list of spelled tokens has these tokens.** -/
theorem tokens_ofTokens {ts : List Token} (h : ∀ t ∈ ts, t.Spelled) :
    (ofTokens ts).tokens = ts := by
  cases ts with
  | nil => rfl
  | cons t ts =>
    have hid : (fun piece => Token.mk (String.ofList piece)) ∘ (·.text.toList) = id :=
      funext fun u => by simp
    simp only [tokens, toList_ofTokens_cons, pieces_ofTokens h, List.map_map, hid, List.map_id]

theorem escapesComplete_ofTokens {t : Token} {ts : List Token} (h : ∀ u ∈ t :: ts, u.Spelled) :
    escapesComplete (t.text.toList ++ (ofTokens ts).text.toList) = true := by
  induction ts generalizing t with
  | nil =>
    simp only [ofTokens, root, String.toList_empty, List.append_nil]
    exact (h t List.mem_cons_self).2
  | cons u ts ih =>
    obtain ⟨ht, hts⟩ := List.forall_mem_cons.1 h
    rw [toList_ofTokens_cons, escapesComplete_append, ht.2, ih hts, Bool.true_and]

/-- **It is well formed.** -/
theorem validate_ofTokens {ts : List Token} (h : ∀ t ∈ ts, t.Spelled) :
    (ofTokens ts).validate = .ok () := by
  cases ts with
  | nil => rfl
  | cons t ts => rw [validate, toList_ofTokens_cons, check, if_pos (escapesComplete_ofTokens h)]

theorem toList_ofTokens_pieces (cs : List Char) :
    (ofTokens ((pieces cs).map fun piece => ⟨String.ofList piece⟩)).text.toList = '/' :: cs := by
  induction cs with
  | nil => rfl
  | cons c cs ih =>
    by_cases hc : c = '/'
    · subst hc
      rw [pieces, List.map_cons, toList_ofTokens_cons, ih]
      simp
    · obtain ⟨p, ps, hp, hcp⟩ := pieces_cons hc cs
      rw [hp, List.map_cons, toList_ofTokens_cons, List.cons.injEq] at ih
      rw [hcp, List.map_cons, toList_ofTokens_cons, ← ih.2]
      simp

/-- **A well-formed pointer is the pointer of its tokens.** -/
theorem ofTokens_tokens {p : Pointer} (h : p.validate = .ok ()) : ofTokens p.tokens = p := by
  obtain ⟨s⟩ := p
  rw [Pointer.mk.injEq, ← String.toList_inj]
  simp only [validate, tokens] at h ⊢
  cases hs : s.toList with
  | nil => rfl
  | cons c cs =>
    rw [hs] at h
    by_cases hc : c = '/'
    · subst hc
      exact toList_ofTokens_pieces cs
    · rw [check] at h
      · cases h
      · exact hc

/-- A walk takes a list of tokens from its front. -/
theorem walks_ofTokens (ts : List Token) :
    (ofTokens ts).isRoot ∨ (ofTokens ts).next.isSome := by
  cases ts with
  | nil => exact .inl rfl
  | cons t ts => exact .inr (by rw [next, toList_ofTokens_cons]; rfl)

/-- A well-formed pointer is the root or has a first token. -/
theorem walks_of_validate {p : Pointer} (h : p.validate = .ok ()) : p.isRoot ∨ p.next.isSome := by
  rw [validate] at h
  cases hp : p.text.toList with
  | nil => exact .inl (by simpa [isRoot] using hp)
  | cons c cs =>
    right
    rw [hp] at h
    by_cases hc : c = '/'
    · subst hc
      simp [next, hp]
    · rw [check] at h
      · cases h
      · exact hc

end Pointer

end DocPointer
