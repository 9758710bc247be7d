/-
  Laws of the escapes in a token.

  Escaping is two global replacements, of every tilde and then of every slash, and
  unescaping is the two opposite ones in the opposite order.  `replace` is such a
  replacement, and the passes over single characters do what the pairs of replacements do:

  * `escape_eq_replace` and `unescape_eq_replace`, for every text, complete escapes or not;
  * `escape_unescape`: where every tilde starts an escape and no slash stands,
    unescaping loses nothing either;
  * `Token.spelled_ofRaw` and `Token.ofRaw_decoded`: the tokens that can stand in a
    well-formed pointer are those of raw texts.
-/
import DocPointer.Proofs.Pointer.Tokens

namespace DocPointer

namespace Escape

/-! ## Replacements -/

/-- The text with every occurrence of `pattern` replaced by `new`, from the left, where an
    occurrence starts after the end of the one before it. -/
def replace (pattern new : List Char) : List Char → List Char
  | [] => []
  | c :: cs =>
    if pattern.isPrefixOf (c :: cs) then new ++ replace pattern new (cs.drop (pattern.length - 1))
    else c :: replace pattern new cs
termination_by cs => cs.length

variable {c d : Char} {cs ds pattern new : List Char}

/-- A single character is replaced wherever it stands. -/
theorem replace_char (c : Char) (new : List Char) (d : Char) (cs : List Char) :
    replace [c] new (d :: cs) = (if d = c then new else [d]) ++ replace [c] new cs := by
  rw [replace]
  by_cases h : d = c
  · subst h
    simp
  · have hp : ¬([c] : List Char).isPrefixOf (d :: cs) = true := by
      simp [Ne.symm h]
    rw [if_neg hp, if_neg h]
    rfl

/-- An escape is replaced where it stands. -/
theorem replace_escape (d : Char) (new cs : List Char) :
    replace ['~', d] new ('~' :: d :: cs) = new ++ replace ['~', d] new cs := by
  rw [replace]
  simp

/-- Nothing is replaced where the escape does not start. -/
theorem replace_cons (h : c = '~' → cs.head? ≠ some d) :
    replace ['~', d] new (c :: cs) = c :: replace ['~', d] new cs := by
  rw [replace, if_neg]
  cases cs with
  | nil => simp
  | cons b bs =>
    simp only [List.head?_cons, ne_eq, Option.some.injEq] at h
    simp only [List.isPrefixOf, Bool.and_true, Bool.and_eq_true, beq_iff_eq]
    rintro ⟨hc, hb⟩
    exact h hc.symm hb.symm

/-- The escapes of slashes leave a character in front, or a slash. -/
theorem head?_replace_slash (cs : List Char) :
    (replace ['~', '1'] ['/'] cs).head? = cs.head? ∨
      (replace ['~', '1'] ['/'] cs).head? = some '/' := by
  cases cs with
  | nil => exact .inl (by rw [replace])
  | cons c cs =>
    by_cases h : c = '~' ∧ cs.head? = some '1'
    · obtain ⟨rfl, h⟩ := h
      obtain ⟨ds, rfl⟩ := List.head?_eq_some_iff.1 h
      rw [replace_escape]
      exact .inr rfl
    · rw [replace_cons (fun hc hcs => h ⟨hc, hcs⟩)]
      exact .inl rfl

/-- **Escaping is two replacements**, of the tildes and then of the slashes. -/
theorem escape_eq_replace (cs : List Char) :
    escape cs = replace ['/'] ['~', '1'] (replace ['~'] ['~', '0'] cs) := by
  induction cs with
  | nil => simp [escape, replace]
  | cons c cs ih =>
    show spell c ++ escape cs = _
    rw [ih, replace_char '~', spell]
    by_cases h₀ : c = '~'
    · simp [h₀, replace_char '/']
    · by_cases h₁ : c = '/' <;> simp [h₀, h₁, replace_char '/']

/-- **Unescaping is two replacements**, of the escapes of slashes and then of those of
    tildes. -/
theorem unescape_eq_replace (cs : List Char) :
    unescape cs = replace ['~', '0'] ['~'] (replace ['~', '1'] ['/'] cs) := by
  fun_induction unescape cs with
  | case1 => simp [replace]
  | case2 cs ih =>
    rw [replace_cons (d := '1') (by simp), replace_cons (d := '1') (by simp), replace_escape, ih]
    rfl
  | case3 cs ih =>
    rw [replace_escape, List.singleton_append, replace_cons (by simp), ih]
  | case4 c cs h₀ h₁ ih =>
    have hd (d : Char) (h : c = '~' → ∀ ds, cs = d :: ds → False) :
        c = '~' → cs.head? ≠ some d := by
      intro hc hcs
      obtain ⟨ds, hds⟩ := List.head?_eq_some_iff.1 hcs
      exact h hc ds hds
    rw [replace_cons (hd '1' fun hc ds => h₁ ds hc), replace_cons, ih]
    -- a slash that has been put in front is no digit of an escape
    intro hc
    rcases head?_replace_slash cs with h | h
    · rw [h]
      exact hd '0' (fun hc ds => h₀ ds hc) hc
    · rw [h]
      decide

/-! ## Spelled texts -/

/-- An escaped text has no slash. -/
theorem not_mem_escape (cs : List Char) : '/' ∉ escape cs := by
  intro h
  obtain ⟨c, -, hc⟩ := List.mem_flatMap.1 h
  rw [spell] at hc
  split at hc
  · simp at hc
  split at hc
  · simp at hc
  · next h₁ => exact h₁ (List.mem_singleton.1 hc).symm

/-- Every tilde of an escaped text starts an escape. -/
theorem escapesComplete_escape (cs : List Char) : Pointer.escapesComplete (escape cs) = true := by
  induction cs with
  | nil => rfl
  | cons c cs ih =>
    change Pointer.escapesComplete (spell c ++ escape cs) = true
    by_cases h₀ : c = '~'
    · subst h₀; exact ih
    by_cases h₁ : c = '/'
    · subst h₁; exact ih
    · rw [spell, if_neg h₀, if_neg h₁, List.singleton_append, Pointer.escapesComplete, ih]
      · exact fun _ hc => absurd hc h₀
      · exact fun _ hc => absurd hc h₀
      · exact h₀

/-- **Unescaping loses nothing** of a text that can stand in a well-formed pointer. -/
theorem escape_unescape (he : Pointer.escapesComplete cs = true) (hs : '/' ∉ cs) :
    escape (unescape cs) = cs := by
  fun_induction unescape cs with
  | case1 => rfl
  | case2 cs ih =>
    show '~' :: '0' :: escape (unescape cs) = _
    rw [ih he (by simpa using hs)]
  | case3 cs ih =>
    show '~' :: '1' :: escape (unescape cs) = _
    rw [ih he (by simpa using hs)]
  | case4 c cs h₀ h₁ ih =>
    rw [List.mem_cons, not_or] at hs
    have hc : c ≠ '~' := by
      rintro rfl
      rw [Pointer.escapesComplete] at he
      · cases he
      · exact fun ds => h₀ ds rfl
      · exact fun ds => h₁ ds rfl
    have he' : Pointer.escapesComplete cs = true := by
      rwa [Pointer.escapesComplete] at he
      · exact fun ds hc' => absurd hc' hc
      · exact fun ds hc' => absurd hc' hc
      · exact hc
    show spell c ++ escape (unescape cs) = _
    rw [spell, if_neg hc, if_neg (Ne.symm hs.1), ih he' hs.2]
    rfl

end Escape

/-! ## Tokens of raw texts -/

namespace Token

/-- The token of a raw text can stand in a well-formed pointer. -/
theorem spelled_ofRaw (raw : String) : (ofRaw raw).Spelled := by
  rw [Spelled, ofRaw, String.toList_ofList]
  exact ⟨Escape.not_mem_escape _, Escape.escapesComplete_escape _⟩

/-- A token that can stand in a well-formed pointer is that of the raw text it spells. -/
theorem ofRaw_decoded {t : Token} (h : t.Spelled) : ofRaw t.decoded = t := by
  obtain ⟨s⟩ := t
  rw [ofRaw, decoded, String.toList_ofList, Escape.escape_unescape h.2 h.1, String.ofList_toList]

end Token

end DocPointer
