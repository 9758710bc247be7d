/-
  One pointer after another.

  `p ++ q` goes on with `q` where `p` has led to.  For well-formed pointers it has the tokens
  of both (`tokens_append`).  A pointer is cut in front of a token, or at its end
  (`IsRest`), and cutting a well-formed one gives two well-formed ones
  (`validate_of_cut`).
-/
import DocPointer.Proofs.Pointer.Tokens

namespace DocPointer.Pointer

instance : Append Pointer := ⟨fun p q => ⟨p.text ++ q.text⟩⟩

/-- `c` is what is left of `p` after some of its tokens. -/
def IsRest (c p : Pointer) : Prop := ∃ r, p = r ++ c ∧ (c.isRoot ∨ c.next.isSome)

variable {p q r c : Pointer} {t : Token} {ts us : List Token}

/-! ## Texts -/

theorem toList_append (p q : Pointer) : (p ++ q).text.toList = p.text.toList ++ q.text.toList :=
  String.toList_append

theorem append_root (p : Pointer) : p ++ root = p :=
  congrArg Pointer.mk String.append_empty

theorem root_append (p : Pointer) : root ++ p = p :=
  congrArg Pointer.mk String.empty_append

theorem append_assoc (p q r : Pointer) : p ++ q ++ r = p ++ (q ++ r) :=
  congrArg Pointer.mk (String.append_assoc ..)

theorem append_right_cancel (h : p ++ r = q ++ r) : p = q :=
  congrArg Pointer.mk (String.append_left_inj r.text |>.1 (congrArg text h))

theorem eq_root_of_isRoot (h : p.isRoot = true) : p = root := by
  obtain ⟨s⟩ := p
  exact congrArg Pointer.mk (String.isEmpty_iff.1 h)

/-! ## Tokens -/

theorem ofTokens_append (ts us : List Token) :
    ofTokens (ts ++ us) = ofTokens ts ++ ofTokens us := by
  induction ts with
  | nil => exact (root_append _).symm
  | cons t ts ih =>
    show (ofTokens (ts ++ us)).prepend t = (ofTokens ts).prepend t ++ ofTokens us
    rw [ih]
    exact congrArg Pointer.mk (String.append_assoc ..).symm

/-- A token put behind a pointer. -/
theorem append_eq (p : Pointer) (t : Token) : p.append t = p ++ ofTokens [t] := by
  refine congrArg Pointer.mk ?_
  show p.text ++ "/" ++ t.text = p.text ++ ("/" ++ t.text ++ "")
  rw [String.append_empty, String.append_assoc]

theorem append_eq_ofTokens (hp : p.validate = .ok ()) (hq : q.validate = .ok ()) :
    p ++ q = ofTokens (p.tokens ++ q.tokens) := by
  rw [ofTokens_append, ofTokens_tokens hp, ofTokens_tokens hq]

theorem spelled_append (hp : p.validate = .ok ()) (hq : q.validate = .ok ()) :
    ∀ t ∈ p.tokens ++ q.tokens, t.Spelled := by
  intro t ht
  rcases List.mem_append.1 ht with ht | ht
  · exact spelled_of_validate hp ht
  · exact spelled_of_validate hq ht

/-- **One pointer after another has the tokens of both.** -/
theorem tokens_append (hp : p.validate = .ok ()) (hq : q.validate = .ok ()) :
    (p ++ q).tokens = p.tokens ++ q.tokens := by
  rw [append_eq_ofTokens hp hq, tokens_ofTokens (spelled_append hp hq)]

theorem validate_append (hp : p.validate = .ok ()) (hq : q.validate = .ok ()) :
    (p ++ q).validate = .ok () := by
  rw [append_eq_ofTokens hp hq]
  exact validate_ofTokens (spelled_append hp hq)

/-! ## The first token -/

theorem splitSlash_append {cs ds : List Char} (h : '/' ∉ cs) (hd : ds = [] ∨ ds.head? = some '/') :
    splitSlash (cs ++ ds) = (cs, ds) := by
  induction cs with
  | nil =>
    rcases hd with rfl | hd
    · rfl
    · obtain ⟨es, rfl⟩ := List.head?_eq_some_iff.1 hd
      rfl
  | cons c cs ih =>
    rw [List.mem_cons, not_or] at h
    rw [List.cons_append, splitSlash, ih h.2]
    · rfl
    · exact Ne.symm h.1

/-- The pointer of a list of spelled tokens starts with the first of them. -/
theorem next_ofTokens (ht : t.Spelled) (ts : List Token) :
    (ofTokens (t :: ts)).next = some (t, ofTokens ts) := by
  have hd : (ofTokens ts).text.toList = [] ∨ (ofTokens ts).text.toList.head? = some '/' := by
    cases ts with
    | nil => exact .inl rfl
    | cons u us => exact .inr (by rw [toList_ofTokens_cons]; rfl)
  rw [next, toList_ofTokens_cons]
  simp [splitSlash_append ht.1 hd]

/-! ## Cuts -/

/-- Cutting a well-formed pointer gives two well-formed ones. -/
theorem validate_of_cut (h : (r ++ c).validate = .ok ()) (hc : c.isRoot ∨ c.next.isSome) :
    r.validate = .ok () ∧ c.validate = .ok () := by
  rcases hc with hc | hc
  · rw [eq_root_of_isRoot hc] at h ⊢
    exact ⟨append_root r ▸ h, rfl⟩
  · obtain ⟨cs, hcs⟩ : ∃ cs, c.text.toList = '/' :: cs := by
      unfold next at hc
      split at hc
      · next cs hcs => exact ⟨cs, hcs⟩
      · cases hc
    rw [validate, toList_append, hcs] at h
    rw [validate, validate, hcs]
    cases hr : r.text.toList with
    | nil =>
      rw [hr] at h
      exact ⟨rfl, h⟩
    | cons b bs =>
      rw [hr, List.cons_append] at h
      by_cases hb : b = '/'
      · subst hb
        rw [check, escapesComplete_append] at h
        rw [check, check]
        split at h
        · next he =>
          rw [Bool.and_eq_true] at he
          simp [he.1, he.2]
        · cases h
      · rw [check] at h
        · cases h
        · exact hb

/-- A cut in front of a token is one in the list of tokens. -/
theorem tokens_of_cut (hp : (r ++ c).validate = .ok ()) (hc : c.next.isSome) :
    r.validate = .ok () ∧ ∃ t ts, (r ++ c).tokens = r.tokens ++ t :: ts := by
  obtain ⟨hr, hc'⟩ := validate_of_cut hp (.inr hc)
  refine ⟨hr, ?_⟩
  rw [tokens_append hr hc']
  cases hts : c.tokens with
  | cons t ts => exact ⟨t, ts, rfl⟩
  | nil =>
    -- without a token there is nothing next
    rw [← ofTokens_tokens hc', hts] at hc
    cases hc

/-- The token behind a cut is the next one there. -/
theorem tokens_of_next {rest : Pointer} (hp : (r ++ c).validate = .ok ())
    (hc : c.next = some (t, rest)) :
    r.validate = .ok () ∧ ∃ ts, (r ++ c).tokens = r.tokens ++ t :: ts := by
  obtain ⟨hr, hc'⟩ := validate_of_cut hp (.inr (by rw [hc]; rfl))
  obtain ⟨-, u, ts, hts⟩ := tokens_of_cut hp (by rw [hc]; rfl)
  have htokens : c.tokens = u :: ts := by
    rw [tokens_append hr hc'] at hts
    exact List.append_cancel_left hts
  have hu : u.Spelled := spelled_of_validate hc' (htokens ▸ List.mem_cons_self)
  have hnext := next_ofTokens hu ts
  rw [← htokens, ofTokens_tokens hc', hc] at hnext
  cases hnext
  exact ⟨hr, ts, hts⟩

/-- The tokens before and after a cut. -/
theorem spelled_of_cut (hp : p.validate = .ok ()) (h : p.tokens = ts ++ us) :
    (∀ t ∈ ts, t.Spelled) ∧ ∀ t ∈ us, t.Spelled := by
  rw [← List.forall_mem_append, ← h]
  exact fun t => spelled_of_validate hp

/-- What stands before the last tokens is the pointer of the first. -/
theorem eq_ofTokens_of_cut (hp : p.validate = .ok ()) (h : p.tokens = ts ++ us)
    (hr : p = r ++ ofTokens us) : r = ofTokens ts := by
  refine append_right_cancel (r := ofTokens us) ?_
  rw [← hr, ← ofTokens_append, ← h, ofTokens_tokens hp]

/-- The root is left of every pointer. -/
theorem isRest_root (p : Pointer) : IsRest root p := ⟨p, (append_root p).symm, .inl rfl⟩

/-- The last tokens of a well-formed pointer are left of it. -/
theorem isRest_of_suffix (hp : p.validate = .ok ()) (h : us <:+ p.tokens) :
    IsRest (ofTokens us) p := by
  obtain ⟨ts, hts⟩ := h
  refine ⟨ofTokens ts, ?_, walks_ofTokens us⟩
  rw [← ofTokens_append, hts, ofTokens_tokens hp]

end DocPointer.Pointer
