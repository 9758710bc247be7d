/-
  Well-formed pointers are the lists of texts.

  The pointer of a list of raw texts is well formed, every well-formed pointer is that of
  one list, and under this correspondence the operations on pointers are those on lists.

  * `Yields p ts`: taking the first token over and over gives `ts`.
  * `Lists p l`: what the operations say of the pointer `p` whose raw texts are `l`.
  * `lists_ofSegments`: they say that of the pointer of every list.
  * `wellformed_iff_segments`: both halves of the correspondence.
-/
import Mathlib.Logic.ExistsUnique
import DocPointer.Proofs.Pointer.Escapes
import DocPointer.Proofs.Pointer.Joining

namespace DocPointer.Pointer

variable {p q : Pointer} {t : Token} {ts : List Token} {l : List String}

/-- Taking the first token off, until there is none, gives these tokens. -/
inductive Yields : Pointer → List Token → Prop
  | done {p : Pointer} : p.next = none → Yields p []
  | more {p q : Pointer} {t : Token} {ts : List Token} :
      p.next = some (t, q) → Yields q ts → Yields p (t :: ts)

/-- The operations on the pointer `p` are those on the list `l` of the raw texts of its
    tokens. -/
structure Lists (p : Pointer) (l : List String) : Prop where
  valid : p.validate = .ok ()
  /-- The decoded tokens are the texts, and the pointer made of these is the same. -/
  segments : p.segments = l
  rebuilt : ofSegments p.segments = p
  /-- The tokens as they are spelled. -/
  tokens : p.tokens = l.map Token.ofRaw
  yields : Yields p p.tokens
  /-- The text is read as the pointer, with and without a number sign in front. -/
  parse : parse p.text = .ok p
  parse_fragment : Pointer.parse ("#" ++ p.text) = .ok p
  /-- Head and tail. -/
  next : p.next = l.head?.map fun raw => (Token.ofRaw raw, ofSegments l.tail)
  next_none : p.next = none ↔ p = root
  /-- All but the last, and the last. -/
  pop : p.pop = l.getLast?.map fun raw => (ofSegments l.dropLast, Token.ofRaw raw)
  pop_none : p.pop = none ↔ p = root
  append (raw : String) : p.append (Token.ofRaw raw) = ofSegments (l ++ [raw])
  prepend (raw : String) : p.prepend (Token.ofRaw raw) = ofSegments (raw :: l)
  /-- What the operations give is well formed again. -/
  valid_next (r : Token × Pointer) (h : p.next = some r) : r.2.validate = .ok ()
  valid_pop (r : Pointer × Token) (h : p.pop = some r) : r.1.validate = .ok ()
  valid_append (raw : String) : (p.append (Token.ofRaw raw)).validate = .ok ()
  valid_prepend (raw : String) : (p.prepend (Token.ofRaw raw)).validate = .ok ()

/-! ## Raw texts -/

theorem spelled_map_ofRaw (l : List String) : ∀ t ∈ l.map Token.ofRaw, t.Spelled :=
  List.forall_mem_map.2 fun raw _ => Token.spelled_ofRaw raw

theorem validate_ofSegments (l : List String) : (ofSegments l).validate = .ok () :=
  validate_ofTokens (spelled_map_ofRaw l)

theorem tokens_ofSegments (l : List String) : (ofSegments l).tokens = l.map Token.ofRaw :=
  tokens_ofTokens (spelled_map_ofRaw l)

theorem segments_ofSegments (l : List String) : (ofSegments l).segments = l := by
  rw [segments, tokens_ofSegments, List.map_map]
  exact (List.map_congr_left fun raw _ => Token.decoded_ofRaw raw).trans (List.map_id l)

/-- **A well-formed pointer is the pointer of its raw texts.** -/
theorem ofSegments_segments (h : p.validate = .ok ()) : ofSegments p.segments = p := by
  have hts : p.segments.map Token.ofRaw = p.tokens := by
    rw [segments, List.map_map]
    exact (List.map_congr_left fun t ht => Token.ofRaw_decoded (spelled_of_validate h ht)).trans
      (List.map_id _)
  rw [ofSegments, hts, ofTokens_tokens h]

theorem ofSegments_eq_root : ofSegments l = root ↔ l = [] := by
  constructor
  · intro h
    rw [← segments_ofSegments l, h]
    rfl
  · rintro rfl
    rfl

/-! ## The last token -/

/-- A token that is put behind a pointer is its last one. -/
theorem pop_append (ht : '/' ∉ t.text.toList) (hp : p.isRoot ∨ p.next.isSome) :
    (p.append t).pop = some (p, t) := by
  have htext : (p.append t).text.toList = p.text.toList ++ '/' :: t.text.toList := by
    simp [append, String.toList_append]
  obtain ⟨cs, hcs⟩ : ∃ cs, (p.append t).text.toList = '/' :: cs := by
    rw [htext]
    rcases hp with hp | hp
    · rw [eq_root_of_isRoot hp]
      exact ⟨_, rfl⟩
    · unfold Pointer.next at hp
      split at hp
      · next cs hcs => exact ⟨cs ++ '/' :: t.text.toList, by rw [hcs]; rfl⟩
      · cases hp
  have hrev : ('/' :: cs).reverse = t.text.toList.reverse ++ '/' :: p.text.toList.reverse := by
    rw [← hcs, htext, List.reverse_append, List.reverse_cons, List.append_assoc]
    rfl
  -- the last token ends at the last slash
  have hne : ∀ c ∈ t.text.toList.reverse, decide (c ≠ '/') = true := by
    intro c hc
    rw [List.mem_reverse] at hc
    exact decide_eq_true fun h => ht (h ▸ hc)
  unfold Pointer.pop
  simp only [hcs, hrev, List.takeWhile_append_of_pos hne, List.dropWhile_append_of_pos hne]
  simp

theorem append_ofSegments (l : List String) (raw : String) :
    (ofSegments l).append (Token.ofRaw raw) = ofSegments (l ++ [raw]) := by
  rw [append_eq, ofSegments, ofSegments, ← ofTokens_append, List.map_append]
  rfl

theorem pop_ofSegments (l : List String) (raw : String) :
    (ofSegments (l ++ [raw])).pop = some (ofSegments l, Token.ofRaw raw) := by
  rw [← append_ofSegments]
  exact pop_append (Token.spelled_ofRaw raw).1 (walks_ofTokens _)

/-! ## The first token -/

theorem next_ofSegments (raw : String) (l : List String) :
    (ofSegments (raw :: l)).next = some (Token.ofRaw raw, ofSegments l) :=
  next_ofTokens (Token.spelled_ofRaw raw) _

/-- The first tokens of the pointer of a list are those of the list, in order. -/
theorem yields_ofSegments (l : List String) : Yields (ofSegments l) (l.map Token.ofRaw) := by
  induction l with
  | nil => exact .done rfl
  | cons raw l ih => exact .more (next_ofSegments raw l) ih

/-! ## Reading -/

/-- A well-formed text is read as it stands, and behind a number sign. -/
theorem parse_text (h : p.validate = .ok ()) :
    parse p.text = .ok p ∧ parse ("#" ++ p.text) = .ok p := by
  have hp (cs : List Char) : p.text.toList ≠ '#' :: cs := by
    intro hcs
    rw [validate, hcs, check] at h
    · cases h
    · decide
  constructor
  · unfold parse
    split
    · next cs hcs => exact absurd hcs (hp cs)
    · simp [h, Except.map]
  · have hcs : ("#" ++ p.text).toList = '#' :: p.text.toList := String.toList_append
    simp [parse, hcs, h, Except.map]

/-! ## The correspondence -/

/-- **The operations on the pointer of a list are those on the list.** -/
theorem lists_ofSegments (l : List String) : Lists (ofSegments l) l := by
  have hnext : (ofSegments l).next =
      l.head?.map fun raw => (Token.ofRaw raw, ofSegments l.tail) := by
    cases l with
    | nil => rfl
    | cons raw l => exact next_ofSegments raw l
  have hpop : (ofSegments l).pop =
      l.getLast?.map fun raw => (ofSegments l.dropLast, Token.ofRaw raw) := by
    rcases List.eq_nil_or_concat l with rfl | ⟨l, raw, rfl⟩
    · rfl
    · simpa using pop_ofSegments l raw
  have hv := validate_ofSegments l
  have hparse := parse_text hv
  refine
    { valid := hv
      segments := segments_ofSegments l
      rebuilt := ofSegments_segments hv
      tokens := tokens_ofSegments l
      yields := tokens_ofSegments l ▸ yields_ofSegments l
      parse := hparse.1
      parse_fragment := hparse.2
      next := hnext
      next_none := ?_
      pop := hpop
      pop_none := ?_
      append := append_ofSegments l
      prepend := fun raw => rfl
      valid_next := ?_
      valid_pop := ?_
      valid_append := fun raw => append_ofSegments l raw ▸ validate_ofSegments _
      valid_prepend := fun raw => validate_ofSegments (raw :: l) }
  · rw [hnext, Option.map_eq_none_iff, List.head?_eq_none_iff, ofSegments_eq_root]
  · rw [hpop, Option.map_eq_none_iff, List.getLast?_eq_none_iff, ofSegments_eq_root]
  · intro r hr
    obtain ⟨raw, -, rfl⟩ := Option.map_eq_some_iff.1 (hnext ▸ hr)
    exact validate_ofSegments l.tail
  · intro r hr
    obtain ⟨raw, -, rfl⟩ := Option.map_eq_some_iff.1 (hpop ▸ hr)
    exact validate_ofSegments l.dropLast

/-- **The well-formed pointers are the lists of texts**: a pointer is well formed if and only
    if it is that of a list, which then is the only one, and reading, taking apart and putting
    together are done on the pointer as on the list. -/
theorem wellformed_iff_segments :
    (∀ p : Pointer, p.validate = .ok () ↔ ∃! l : List String, p = ofSegments l) ∧
      ∀ l : List String, Lists (ofSegments l) l := by
  constructor
  · intro p
    constructor
    · intro h
      refine ⟨p.segments, (ofSegments_segments h).symm, ?_⟩
      rintro l rfl
      exact (segments_ofSegments l).symm
    · rintro ⟨l, rfl, -⟩
      exact validate_ofSegments l
  · exact lists_ofSegments

/-- A slash, an escape that is none, and an empty text. -/
example : ofSegments ["a/b", "~1", ""] = ⟨"/a~1b/~01/"⟩ := by decide

end DocPointer.Pointer
