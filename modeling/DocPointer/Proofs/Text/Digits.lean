/-
  Laws of decimal digits: what is written is read back.
-/
import DocPointer.Text.Digits
import Mathlib.Algebra.Group.Nat.Defs

namespace DocPointer.Digits

theorem isDigit_iff {c : Char} : isDigit c = true ↔ '0' ≤ c ∧ c ≤ '9' := by
  simp only [isDigit, digit?]
  split <;> simp_all

/-- The value a digit adds to the number that is read. -/
theorem digit?_of_isDigit {c : Char} (h : isDigit c = true) : digit? c = some (c.toNat - 48) := by
  simp only [digit?, if_pos (isDigit_iff.1 h)]

theorem isDigit_of_mem_ofNat {n : Nat} {c : Char} (h : c ∈ ofNat n) : isDigit c = true := by
  have hc : c.isDigit = true := Nat.isDigit_of_mem_toDigits (by omega) (by omega) h
  simp only [Char.isDigit, Bool.and_eq_true, decide_eq_true_eq] at hc
  exact isDigit_iff.2 hc

theorem ofNat_ne_nil (n : Nat) : ofNat n ≠ [] := Nat.toDigits_ne_nil

/-! ## Values -/

/-- The number that digits spell behind the digits of `n`. -/
theorem foldl_eq_ofDigitChars {cs : List Char} (h : ∀ c ∈ cs, isDigit c = true) (n : Nat) :
    cs.foldl (fun n c => 10 * n + (digit? c).getD 0) n = Nat.ofDigitChars 10 cs n := by
  induction cs generalizing n with
  | nil => rfl
  | cons c cs ih =>
    obtain ⟨hc, hcs⟩ := List.forall_mem_cons.1 h
    rw [List.foldl_cons, ih hcs, digit?_of_isDigit hc, Nat.ofDigitChars_cons]
    rfl

theorem value_eq_ofDigitChars {cs : List Char} (h : ∀ c ∈ cs, isDigit c = true) :
    value cs = Nat.ofDigitChars 10 cs 0 := foldl_eq_ofDigitChars h 0

/-- **A number is what its digits spell.** -/
theorem value_ofNat (n : Nat) : value (ofNat n) = n := by
  rw [value_eq_ofDigitChars fun c => isDigit_of_mem_ofNat]
  exact Nat.ofDigitChars_ten_toDigits

theorem value_cons_zero (cs : List Char) : value ('0' :: cs) = value cs := rfl

theorem value_zeros_append (k : Nat) (cs : List Char) :
    value (List.replicate k '0' ++ cs) = value cs := by
  induction k with
  | zero => rfl
  | succ k ih => rw [List.replicate_succ, List.cons_append, value_cons_zero, ih]

theorem value_append_zeros (cs : List Char) (k : Nat) :
    value (cs ++ List.replicate k '0') = value cs * 10 ^ k := by
  induction k with
  | zero => simp
  | succ k ih =>
    have hstep : value (cs ++ List.replicate k '0' ++ ['0']) =
        10 * value (cs ++ List.replicate k '0') := by
      rw [value, List.foldl_append]
      rfl
    rw [List.replicate_succ', ← List.append_assoc, hstep, ih, Nat.pow_succ, Nat.mul_left_comm,
      Nat.mul_comm 10]

/-- A number other than zero has no zero in front. -/
theorem head?_ofNat {n : Nat} (h : n ≠ 0) : (ofNat n).head? ≠ some '0' := by
  rw [ofNat, Nat.toDigits_eq_if (by omega)]
  split
  · next hn =>
    have hdigit : ∀ m < 10, m ≠ 0 → m.digitChar ≠ '0' := by decide
    simpa using hdigit n hn h
  · next hn =>
    have hne : n / 10 ≠ 0 := by omega
    cases hcs : Nat.toDigits 10 (n / 10) with
    | nil => exact absurd hcs (ofNat_ne_nil _)
    | cons c cs =>
      have hhead := head?_ofNat hne
      rwa [ofNat, hcs] at hhead
termination_by n
decreasing_by omega

/-! ## Bounded integers -/

theorem le_ofDigitChars (cs : List Char) (n : Nat) : n ≤ Nat.ofDigitChars 10 cs n := by
  induction cs generalizing n with
  | nil => exact Nat.le_refl n
  | cons c cs ih =>
    rw [Nat.ofDigitChars_cons]
    exact Nat.le_trans (by omega) (ih _)

/-- Digits are read to the end if the number they spell is in bounds. -/
theorem readDigits_of_le {bound : Nat} {overflow : IntError} {cs : List Char} {n : Nat}
    (h : ∀ c ∈ cs, isDigit c = true) (hb : Nat.ofDigitChars 10 cs n ≤ bound) :
    readDigits bound overflow n cs = .ok (Nat.ofDigitChars 10 cs n) := by
  induction cs generalizing n with
  | nil => rfl
  | cons c cs ih =>
    obtain ⟨hc, hcs⟩ := List.forall_mem_cons.1 h
    rw [Nat.ofDigitChars_cons] at hb
    have hle : 10 * n + (c.toNat - 48) ≤ bound := Nat.le_trans (le_ofDigitChars cs _) hb
    simp only [readDigits, digit?_of_isDigit hc, if_neg (Nat.not_lt.2 hle)]
    exact ih hcs hb

/-- Digits alone are read without a sign. -/
theorem readInt_of_isDigit {signed : Bool} {low high : Nat} {c : Char} {cs : List Char}
    (hc : isDigit c = true) :
    readInt signed low high (c :: cs) = (readDigits high .tooLarge 0 (c :: cs)).map Int.ofNat := by
  have hp : c ≠ '+' := by rintro rfl; simp [isDigit, digit?] at hc
  have hm : c ≠ '-' := by rintro rfl; simp [isDigit, digit?] at hc
  rw [readInt] <;> simp_all

/-- **A number in bounds is read back.** -/
theorem readInt_ofNat {signed : Bool} {low high n : Nat} (h : n ≤ high) :
    readInt signed low high (ofNat n) = .ok n := by
  have hd : ∀ c ∈ ofNat n, isDigit c = true := fun c => isDigit_of_mem_ofNat
  have hv : Nat.ofDigitChars 10 (ofNat n) 0 = n := Nat.ofDigitChars_ten_toDigits
  have hread : readDigits high .tooLarge 0 (ofNat n) = .ok _ := readDigits_of_le hd (hv.symm ▸ h)
  cases hcs : ofNat n with
  | nil => exact absurd hcs (ofNat_ne_nil n)
  | cons c cs =>
    rw [hcs] at hd hv hread
    rw [readInt_of_isDigit (hd c List.mem_cons_self), hread, hv]
    rfl

/-- The text spells the integer: digits in base ten, perhaps after a sign. -/
inductive Spells : List Char → Int → Prop where
  | bare {ds : List Char} : ds ≠ [] → (∀ c ∈ ds, isDigit c = true) → Spells ds (value ds)
  | plus {ds : List Char} :
      ds ≠ [] → (∀ c ∈ ds, isDigit c = true) → Spells ('+' :: ds) (value ds)
  | minus {ds : List Char} :
      ds ≠ [] → (∀ c ∈ ds, isDigit c = true) → Spells ('-' :: ds) (-(value ds))

theorem spells_ofNat (n : Nat) : Spells (ofNat n) n := by
  have h := Spells.bare (ofNat_ne_nil n) fun c => isDigit_of_mem_ofNat
  rwa [value_ofNat] at h

/-- Digits are read if there is nothing else, and the number they spell is in bounds. -/
theorem readDigits_eq_ok {bound : Nat} {overflow : IntError} {cs : List Char} {n m : Nat}
    (hn : n ≤ bound) : readDigits bound overflow n cs = .ok m ↔
      (∀ c ∈ cs, isDigit c = true) ∧ Nat.ofDigitChars 10 cs n = m ∧ m ≤ bound := by
  constructor
  · intro h
    induction cs generalizing n with
    | nil =>
      cases h
      exact ⟨nofun, rfl, hn⟩
    | cons c cs ih =>
      simp only [readDigits] at h
      split at h
      · cases h
      · next d hd =>
        split at h
        · cases h
        · next hb =>
          have hc : isDigit c = true := by rw [isDigit, hd]; rfl
          obtain rfl : c.toNat - 48 = d := Option.some.inj ((digit?_of_isDigit hc).symm.trans hd)
          obtain ⟨hcs, hm, hle⟩ := ih (Nat.le_of_not_lt hb) h
          refine ⟨List.forall_mem_cons.2 ⟨hc, hcs⟩, ?_, hle⟩
          rw [Nat.ofDigitChars_cons]
          exact hm
  · rintro ⟨hcs, rfl, hle⟩
    exact readDigits_of_le hcs hle

/-- Digits are read as the sign `f` in front of them says. -/
theorem map_readDigits_eq_ok {bound : Nat} {overflow : IntError} {ds : List Char} {f : Nat → Int}
    {k : Int} : (readDigits bound overflow 0 ds).map f = .ok k ↔
      (∀ c ∈ ds, isDigit c = true) ∧ f (value ds) = k ∧ value ds ≤ bound := by
  cases h : readDigits bound overflow 0 ds with
  | error e =>
    simp only [Except.map, reduceCtorEq, false_iff]
    rintro ⟨hds, -, hle⟩
    rw [value_eq_ofDigitChars hds] at hle
    cases h.symm.trans (readDigits_of_le hds hle)
  | ok m =>
    obtain ⟨hds, hm, hle⟩ := (readDigits_eq_ok (Nat.zero_le bound)).1 h
    rw [← value_eq_ofDigitChars hds] at hm
    subst hm
    simp only [Except.map, Except.ok.injEq]
    exact ⟨fun hk => ⟨hds, hk, hle⟩, fun hk => hk.2.1⟩

/-- A minus sign negates what is read behind it. -/
theorem readInt_minus {low high : Nat} {ds : List Char} (h : ds ≠ []) :
    readInt true low high ('-' :: ds) =
      (readDigits low .tooSmall 0 ds).map fun n : Nat => -(n : Int) := by
  have hread : readInt true low high ('-' :: ds) =
      ((readDigits low .tooSmall 0 ds).map Int.ofNat).map fun n => -n := by
    cases ds with
    | nil => exact absurd rfl h
    | cons c ds => rfl
  rw [hread]
  cases readDigits low .tooSmall 0 ds <;> rfl

/-- **What is read as an integer is a text that spells one in bounds.** -/
theorem readInt_eq_ok {low high : Nat} {cs : List Char} {k : Int} :
    readInt true low high cs = .ok k ↔ Spells cs k ∧ -(low : Int) ≤ k ∧ k ≤ high := by
  constructor
  · intro hread
    have h := hread
    unfold readInt at h
    split at h
    · cases h
    · cases h
    · cases h
    · next ds hne =>
      obtain ⟨hds, rfl, hle⟩ := map_readDigits_eq_ok.1 h
      refine ⟨.plus hne hds, ?_, Int.ofNat_le.2 hle⟩
      exact Int.le_trans (by omega) (Int.natCast_nonneg _)
    · next ds hne =>
      rw [readInt_minus hne] at hread
      obtain ⟨hds, rfl, hle⟩ := map_readDigits_eq_ok.1 hread
      exact ⟨.minus hne hds, by omega, by omega⟩
    · next hne hp hm _ _ =>
      obtain ⟨hds, rfl, hle⟩ := map_readDigits_eq_ok.1 h
      refine ⟨.bare hne hds, ?_, Int.ofNat_le.2 hle⟩
      exact Int.le_trans (by omega) (Int.natCast_nonneg _)
  · rintro ⟨h, hlow, hhigh⟩
    cases h with
    | bare hne hds =>
      cases cs with
      | nil => exact absurd rfl hne
      | cons c ds =>
        rw [readInt_of_isDigit (hds c List.mem_cons_self)]
        exact map_readDigits_eq_ok.2 ⟨hds, rfl, Int.ofNat_le.1 hhigh⟩
    | @plus ds hne hds =>
      cases ds with
      | nil => exact absurd rfl hne
      | cons c ds => exact map_readDigits_eq_ok.2 ⟨hds, rfl, Int.ofNat_le.1 hhigh⟩
    | minus hne hds =>
      rw [readInt_minus hne]
      exact map_readDigits_eq_ok.2 ⟨hds, rfl, by omega⟩

end DocPointer.Digits
