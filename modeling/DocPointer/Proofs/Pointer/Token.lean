/-
  Laws of tokens that name positions.

  `Token.ofPosition` is the token that spells a position.  It names that position both
  where elements may be added and where they may not.
-/
import DocPointer.Pointer.Token
import DocPointer.Proofs.Text.Digits

namespace DocPointer

theorem Escape.unescape_eq_self {cs : List Char} (h : '~' ∉ cs) : unescape cs = cs := by
  induction cs with
  | nil => rfl
  | cons c cs ih =>
    rw [List.mem_cons, not_or] at h
    rw [unescape_cons (Ne.symm h.1), ih h.2]

namespace Token

/-- The token that spells a position. -/
def ofPosition (i : Nat) : Token := ⟨String.ofList (Digits.ofNat i)⟩

theorem isDigit_of_mem_ofPosition {i : Nat} {c : Char} (h : c ∈ (ofPosition i).text.toList) :
    Digits.isDigit c = true := by
  rw [ofPosition, String.toList_ofList] at h
  exact Digits.isDigit_of_mem_ofNat h

theorem isAppend_ofPosition (i : Nat) : (ofPosition i).isAppend = false := by
  rw [isAppend, beq_eq_false_iff_ne]
  intro h
  have hc : '-' ∈ (ofPosition i).text.toList := by simp [h]
  cases isDigit_of_mem_ofPosition hc

theorem toInt?_ofPosition {i : Nat} (h : i ≤ maxInt) : (ofPosition i).toInt? = some (i : Int) := by
  have ht : '~' ∉ (ofPosition i).text.toList := by
    intro hc
    cases isDigit_of_mem_ofPosition hc
  rw [toInt?, decoded, Escape.unescape_eq_self ht, ofPosition]
  simp only [String.toList_ofList, Digits.readInt_ofNat h, Except.toOption]

/-! ## Positions -/

variable {t : Token} {i m n : Nat}

/-- A token is read as an integer of 64 bits if its text spells one. -/
theorem toInt?_eq_some {k : Int} : t.toInt? = some k ↔
    Digits.Spells t.decoded.toList k ∧ -((maxInt + 1 : Nat) : Int) ≤ k ∧ k ≤ maxInt := by
  rw [← Digits.readInt_eq_ok, toInt?]
  cases Digits.readInt true (maxInt + 1) maxInt t.decoded.toList <;> simp [Except.toOption]

theorem toInt?_le {k : Int} (h : t.toInt? = some k) : k ≤ maxInt := (toInt?_eq_some.1 h).2.2

/-- A token names the next free position, or it spells a position up to that one. -/
theorem index_eq_ok : t.index n = .ok i ↔
    (t.isAppend = true ∧ i = n) ∨
      (t.isAppend = false ∧ t.toInt? = some (i : Int) ∧ i ≤ n ∧ i ≤ maxInt) := by
  cases ha : t.isAppend with
  | true => simp [index, ha, eq_comm]
  | false =>
    simp only [index, ha, Bool.false_eq_true, if_false, false_and, false_or, true_and]
    cases hk : t.toInt? with
    | none => simp
    | some k =>
      simp only [Option.some.injEq]
      split
      · next hb =>
        constructor
        · intro h
          cases h
        · rintro ⟨rfl, hn, hm⟩
          omega
      · next hb =>
        rw [Except.ok.injEq]
        omega

theorem existing_eq_ok : t.existing n = .ok i ↔ t.index n = .ok i ∧ i < n := by
  simp only [existing]
  split
  · next k hk =>
    split
    · next hlt =>
      simp only [hk, Except.ok.injEq]
      constructor
      · intro h
        exact ⟨h, h ▸ hlt⟩
      · exact And.left
    · next hlt =>
      simp only [hk, Except.ok.injEq, reduceCtorEq, false_iff]
      rintro ⟨rfl, h⟩
      exact hlt h
  · next hk => simp [hk]
  · next hk => simp [hk]

/-- A position that a token spells is one in every sequence that is long enough. -/
theorem existing_of_index (ha : t.isAppend = false) (h : t.index n = .ok i) (hi : i < m) :
    t.existing m = .ok i := by
  rw [index_eq_ok, ha] at h
  rw [existing_eq_ok, index_eq_ok, ha]
  simp only [Bool.false_eq_true, false_and, false_or, true_and] at h ⊢
  exact ⟨⟨h.1, Nat.le_of_lt hi, h.2.2⟩, hi⟩

/-- The token for the position after the last element names no element. -/
theorem isAppend_of_existing (h : t.existing n = .ok i) : t.isAppend = false := by
  obtain ⟨hi, hlt⟩ := existing_eq_ok.1 h
  rcases index_eq_ok.1 hi with ⟨-, rfl⟩ | ⟨ha, -⟩
  · exact absurd hlt (Nat.lt_irrefl i)
  · exact ha

/-- A token names its position in every sequence that is long enough, or ends there. -/
theorem index_of_existing (h : t.existing n = .ok i) (hi : i ≤ m) : t.index m = .ok i := by
  have ha := isAppend_of_existing h
  obtain ⟨hindex, -⟩ := existing_eq_ok.1 h
  rw [index_eq_ok, ha] at hindex ⊢
  simp only [Bool.false_eq_true, false_and, false_or, true_and] at hindex ⊢
  exact ⟨hindex.1, hi, hindex.2.2⟩

/-- An element that is there is named by the same token when there are more. -/
theorem existing_mono (h : t.existing n = .ok i) (hm : n ≤ m) : t.existing m = .ok i := by
  obtain ⟨-, hlt⟩ := existing_eq_ok.1 h
  have hi := Nat.lt_of_lt_of_le hlt hm
  exact existing_eq_ok.2 ⟨index_of_existing h (Nat.le_of_lt hi), hi⟩

/-- A token names the elements whose positions it spells. -/
theorem existing_iff_spells : t.existing n = .ok i ↔
    t.isAppend = false ∧ Digits.Spells t.decoded.toList i ∧ i ≤ maxInt ∧ i < n := by
  rw [existing_eq_ok, index_eq_ok, toInt?_eq_some]
  constructor
  · rintro ⟨⟨-, rfl⟩ | ⟨ha, ⟨hk, -, -⟩, -, hi⟩, hlt⟩
    · exact absurd hlt (Nat.lt_irrefl i)
    · exact ⟨ha, hk, hi, hlt⟩
  · rintro ⟨ha, hk, hi, hlt⟩
    exact ⟨.inr ⟨ha, ⟨hk, by omega, by omega⟩, Nat.le_of_lt hlt, hi⟩, hlt⟩

theorem existing_ofPosition (h : i < n) (hi : i ≤ maxInt) : (ofPosition i).existing n = .ok i := by
  rw [existing_eq_ok, index_eq_ok]
  exact ⟨.inr ⟨isAppend_ofPosition i, toInt?_ofPosition hi, Nat.le_of_lt h, hi⟩, h⟩

/-! ## Positions that are not there -/

/-- The token names the position after the last of `n` elements, or one behind it. -/
def Beyond (t : Token) (n : Nat) : Prop := t.isAppend = true ∨ ∃ k ∈ t.toInt?, (n : Int) ≤ k

instance (t : Token) (n : Nat) : Decidable (t.Beyond n) := by unfold Beyond; infer_instance

/-- A position after the last element is one where an element may be added, or it is out of
    range and not negative. -/
theorem index_of_beyond (h : t.Beyond n) :
    t.index n = .ok n ∨ ∃ k bound : Int, t.index n = .error (.outOfRange k bound) ∧ 0 ≤ k := by
  cases ha : t.isAppend with
  | true => exact .inl (by simp [index, ha])
  | false =>
    obtain ⟨k, hk, hn⟩ := h.resolve_left (by simp [ha])
    rw [Option.mem_def] at hk
    have hmax := toInt?_le hk
    simp only [index, ha, hk, Bool.false_eq_true, if_false]
    split
    · exact .inr ⟨k, _, rfl, by omega⟩
    · next hb => exact .inl (congrArg Except.ok (by omega))

/-- Where there is no element and the token is not for a position after the last one, it is no
    position at all. -/
theorem index_of_not_beyond {e : IndexError} (h : t.existing n = .error e) (hb : ¬t.Beyond n) :
    (∃ s, t.index n = .error (.malformed s) ∧ e = .malformed s) ∨
      ∃ k m m' : Int, t.index n = .error (.outOfRange k m) ∧ k < 0 ∧ e = .outOfRange k m' := by
  obtain ⟨ha, hint⟩ := not_or.1 hb
  rw [Bool.not_eq_true] at ha
  rw [existing] at h
  cases hk : t.toInt? with
  | none =>
    have hi : t.index n = .error (.malformed t.decoded) := by simp [index, ha, hk]
    rw [hi] at h
    cases h
    exact .inl ⟨_, hi, rfl⟩
  | some k =>
    have hlt : k < n := Int.not_le.1 fun hle => hint ⟨k, hk, hle⟩
    by_cases hneg : k < 0
    · have hi : t.index n = .error (.outOfRange k (min n maxInt)) := by
        simp [index, ha, hk, hneg]
      rw [hi] at h
      cases h
      exact .inr ⟨k, _, _, hi, hneg, rfl⟩
    · have hmax := toInt?_le hk
      obtain ⟨i, rfl⟩ := Int.eq_ofNat_of_zero_le (Int.not_lt.1 hneg)
      have hi : t.index n = .ok i := index_eq_ok.2 (.inr ⟨ha, hk, by omega, by omega⟩)
      have hin : i < n := by omega
      simp [hi, hin] at h

/-! ## What is said of other tokens -/

/-- A length as it is told in an error, as an integer of 64 bits; no sequence in memory is
    longer than the greatest of these. -/
def told (n : Nat) : Int := (min n maxInt : Nat)

theorem told_eq (h : n ≤ maxInt) : told n = n := by
  rw [told, Nat.min_eq_left h]

theorem isAppend_of_toInt? {k : Int} (h : t.toInt? = some k) : t.isAppend = false := by
  rw [isAppend, beq_eq_false_iff_ne]
  intro ht
  have hnone : (Token.mk "-").toInt? = none := by decide
  obtain ⟨s⟩ := t
  cases ht
  cases hnone.symm.trans h

section
variable {k : Int} (hk : t.toInt? = some k)
include hk

theorem index_of_toInt? (h : 0 ≤ k) (hn : k ≤ n) : t.index n = .ok k.toNat := by
  have hmax := toInt?_le hk
  refine index_eq_ok.2 (.inr ⟨isAppend_of_toInt? hk, ?_, by omega, by omega⟩)
  rw [hk, Int.toNat_of_nonneg h]

theorem index_outside (h : k < 0 ∨ n < k) : t.index n = .error (.outOfRange k (told n)) := by
  have hmax := toInt?_le hk
  have hbound : min (n : Int) maxInt = told n := by
    rw [told]
    omega
  have hout : k < 0 ∨ told n < k := by
    rw [told]
    omega
  simp only [index, isAppend_of_toInt? hk, hk, Bool.false_eq_true, if_false, hbound]
  exact if_pos hout

theorem existing_of_toInt? (h : 0 ≤ k) (hn : k < n) : t.existing n = .ok k.toNat :=
  existing_eq_ok.2 ⟨index_of_toInt? hk h (Int.le_of_lt hn), by omega⟩

theorem existing_outside (h : k < 0 ∨ n < k) :
    t.existing n = .error (.outOfRange k (told n - 1)) := by
  simp only [existing, index_outside hk h]
  rfl

end

/-- The token names the position after the last of `n` elements. -/
theorem index_of_next (h : t.isAppend = true ∨ t.toInt? = some (n : Int)) : t.index n = .ok n := by
  rcases h with ha | hk
  · simp [index, ha]
  · exact index_of_toInt? hk (by omega) (Int.le_refl _)

/-- There is no element at that position. -/
theorem existing_of_next (h : t.isAppend = true ∨ t.toInt? = some (n : Int)) :
    t.existing n = .error (.outOfRange (told n) (told n - 1)) := by
  simp only [existing, index_of_next h, Nat.lt_irrefl, if_false]
  rfl

section
variable (ha : t.isAppend = false) (hk : t.toInt? = none)
include ha hk

theorem index_of_no_integer (n : Nat) : t.index n = .error (.malformed t.decoded) := by
  simp [index, ha, hk]

theorem existing_of_no_integer (n : Nat) : t.existing n = .error (.malformed t.decoded) := by
  simp only [existing, index_of_no_integer ha hk]

end

end Token

end DocPointer
