/-
  Numerals past the end of a sequence.

  A token of decimal digits names a position, however many digits it has.  Where the position is
  past the end of a growing sequence, a delete has nothing to do, and a resolve and an assign are
  told that it is out of range.  But the token is read as an integer of 64 bits, and a position
  that is greater than all of these is taken for no position at all, by all three.

  * `Numeral.toInt?_of_le` and `Numeral.toInt?_of_lt`: how a token of digits is read.
  * `numeral_past_end`: calls.
-/
import DocPointer.Proofs.Walk.Indexing

namespace DocPointer

namespace Token

/-- The token consists of decimal digits. -/
structure Numeral (t : Token) : Prop where
  ne_nil : t.text.toList ≠ []
  digits : ∀ c ∈ t.text.toList, Digits.isDigit c = true

/-- The position that the digits of a token spell. -/
def position (t : Token) : Nat := Digits.value t.text.toList

variable {t : Token}

/-- Digits are spelled as they are. -/
theorem Numeral.decoded (h : t.Numeral) : t.decoded.toList = t.text.toList := by
  have htilde : '~' ∉ t.text.toList := by
    intro hc
    cases h.digits _ hc
  rw [Token.decoded, Escape.unescape_eq_self htilde, String.toList_ofList]

theorem Numeral.spells (h : t.Numeral) : Digits.Spells t.decoded.toList t.position := by
  rw [h.decoded]
  exact .bare h.ne_nil h.digits

theorem Numeral.isAppend (h : t.Numeral) : t.isAppend = false := by
  rw [Token.isAppend, beq_eq_false_iff_ne]
  intro ht
  have hminus : '-' ∈ t.text.toList := by simp [ht]
  cases h.digits _ hminus

theorem Numeral.toInt?_of_le (h : t.Numeral) (hmax : t.position ≤ maxInt) :
    t.toInt? = some (t.position : Int) :=
  toInt?_eq_some.2 ⟨h.spells, by omega, Int.ofNat_le.2 hmax⟩

/-- What digits spell, they spell without a sign. -/
theorem spells_unique {cs : List Char} {k : Int} (hds : ∀ c ∈ cs, Digits.isDigit c = true)
    (h : Digits.Spells cs k) : k = Digits.value cs := by
  cases h with
  | bare => rfl
  | plus => cases hds '+' List.mem_cons_self
  | minus => cases hds '-' List.mem_cons_self

/-- **A position of more than 64 bits is not read.** -/
theorem Numeral.toInt?_of_lt (h : t.Numeral) (hmax : maxInt < t.position) : t.toInt? = none := by
  rw [Option.eq_none_iff_forall_ne_some]
  intro k hk
  obtain ⟨hs, -, hle⟩ := toInt?_eq_some.1 hk
  rw [h.decoded] at hs
  rw [spells_unique h.digits hs] at hle
  exact absurd (Int.ofNat_le.1 hle) (Nat.not_le.2 hmax)

end Token

namespace Schema

open Samples

variable {Γ : Schema} {doc v w : Val} {p : Pointer} {ts : List Token} {t : Token} {elem : Ty}
  {gap : Option Nat} {items : List Val}

/-- **A numeral past the end of a sequence.**  The tokens `ts` lead to a growing sequence, and the
    last token is a numeral for a position at its end or behind it.  If the position has 64 bits,
    a delete leaves the sequence as it was, and a resolve, and an assign behind the end, say that
    it is out of range; otherwise all three say that it is none. -/
theorem numeral_past_end (hp : p.validate = .ok ()) (hts : p.tokens = ts ++ [t])
    (hv : Γ.Holder v w) (hn : Γ.node w = .slice elem gap items) (ht : t.Numeral)
    (hend : items.length ≤ t.position) :
    (t.position ≤ maxInt →
      (Γ.Passes .delete [t] ts doc v → Γ.delete doc p = (.ok (), Γ.put ts doc (v.enclose w)) ∧
        ((∀ bytes, ¬Γ.Enters p.tokens doc bytes) → Γ.delete doc p = (.ok (), doc))) ∧
      (Γ.Passes .find [t] ts doc v → ∀ dst, Γ.resolve doc dst p =
        (.error (refusal .resolving p t w (.outOfRange t.position (items.length - 1))), dst)) ∧
      (∀ x, Γ.Passes (.assign x) [t] ts doc v → items.length < t.position → Γ.assign doc p x =
        (.error (refusal .assigning p t w (.outOfRange t.position items.length)), doc))) ∧
    (maxInt < t.position →
      (Γ.Passes .delete [t] ts doc v →
        Γ.delete doc p = (.error (refusal .deleting p t w (.malformed t.decoded)), doc)) ∧
      (Γ.Passes .find [t] ts doc v → ∀ dst, Γ.resolve doc dst p =
        (.error (refusal .resolving p t w (.malformed t.decoded)), dst)) ∧
      ∀ x, Γ.Passes (.assign x) [t] ts doc v → Γ.assign doc p x =
        (.error (refusal .assigning p t w (.malformed t.decoded)), doc)) := by
  constructor
  · intro hmax
    have hk := ht.toInt?_of_le hmax
    have htold : Token.told items.length = items.length := Token.told_eq (Nat.le_trans hend hmax)
    refine ⟨fun hpass => ?_, fun hpass dst => ?_, fun x hpass hlt => ?_⟩
    · have hdelete := delete_done hp hts hv hpass
        (removeBare_beyond hn (.inr ⟨t.position, hk, Int.ofNat_le.2 hend⟩) true)
      refine ⟨hdelete, fun hplain => ?_⟩
      rw [hdelete, put_enclose_self hv.opened hpass (hts ▸ hplain)]
    · have hmiss : t.Misses items.length (.outOfRange t.position (items.length - 1)) := by
        -- the position at the end is read as the next one, those behind it as out of range
        rcases Nat.eq_or_lt_of_le hend with heq | hlt
        · have hnext := Token.Misses.next (n := items.length) (.inr (heq.symm ▸ hk))
          have hpos : (t.position : Int) = items.length := by rw [heq]
          rw [htold] at hnext
          rwa [hpos]
        · have hout := Token.Misses.outside (n := items.length) hk (.inr (Int.ofNat_lt.2 hlt))
          rwa [htold] at hout
      exact resolve_refused hp hts hv hpass (selectBare_misses (.inl ⟨elem, hn⟩) hmiss) dst
    · have hi := Token.index_outside hk (.inr (Int.ofNat_lt.2 hlt))
      rw [htold] at hi
      exact assign_refused hp hts hv hpass fun f => descendBare_of_index hn hi
  · intro hmax
    have hk := ht.toInt?_of_lt hmax
    have hi := Token.index_of_no_integer ht.isAppend hk items.length
    refine ⟨fun hpass => ?_, fun hpass dst => ?_, fun x hpass => ?_⟩
    · refine delete_refused hp hts hv hpass ?_
      simp only [removeBare, hn, hi]
    · exact resolve_refused hp hts hv hpass
        (selectBare_misses (.inl ⟨elem, hn⟩) (.malformed ht.isAppend hk)) dst
    · exact assign_refused hp hts hv hpass fun f => descendBare_of_index hn hi

/-- The position after the only number, and one far behind it. -/
theorem number_past_end :
    let doc := Val.slice i64 [.int .i64 4]
    jobs.delete doc ⟨"/1"⟩ = (.ok (), doc) ∧
      jobs.resolve doc (.int .i64 0) ⟨"/9223372036854775808"⟩ =
        (.error ⟨.resolving, ⟨"/9223372036854775808"⟩, ⟨.index (.malformed "9223372036854775808"),
          .slice i64, ⟨"/9223372036854775808"⟩⟩⟩, .int .i64 0) := by
  intro doc
  have hdoc : jobs.Holder doc doc := holder_lists (.slice i64 [.int .i64 4]) rfl
  have hplain (bytes : ByteArray) (h : jobs.Enters (Pointer.tokens ⟨"/1"⟩) doc bytes) : False := by
    have htokens : Pointer.tokens ⟨"/1"⟩ = [⟨"1"⟩] := by decide
    rw [htokens] at h
    cases h with
    | here h => cases h
    | later _ h => cases h
  have hnear : Pointer.tokens ⟨"/1"⟩ = [] ++ [⟨"1"⟩] := by decide
  have hfar : Pointer.tokens ⟨"/9223372036854775808"⟩ = [] ++ [⟨"9223372036854775808"⟩] := by
    decide
  constructor
  · have hone : (⟨"1"⟩ : Token).Numeral := ⟨by decide, List.all_eq_true.1 rfl⟩
    exact ((numeral_past_end rfl hnear hdoc rfl hone (by decide)).1 (by decide)).1 .here |>.2 hplain
  · have hlarge : (⟨"9223372036854775808"⟩ : Token).Numeral := ⟨by decide, List.all_eq_true.1 rfl⟩
    exact ((numeral_past_end rfl hfar hdoc rfl hlarge (by decide)).2 (by decide)).2.1 .here
      (.int .i64 0)

/-- A delete at a position of more digits than are read is refused. -/
theorem far_not_deleted :
    let doc := Val.slice i64 [.int .i64 4]
    (⟨"9223372036854775808"⟩ : Token).Numeral ∧ 1 ≤ (⟨"9223372036854775808"⟩ : Token).position ∧
      jobs.delete doc ⟨"/9223372036854775808"⟩ = (.error ⟨.deleting, ⟨"/9223372036854775808"⟩,
        ⟨.index (.malformed "9223372036854775808"), .slice i64, ⟨"/9223372036854775808"⟩⟩⟩, doc) :=
  ⟨⟨by decide, List.all_eq_true.1 rfl⟩, by decide, rfl⟩

end Schema

end DocPointer
