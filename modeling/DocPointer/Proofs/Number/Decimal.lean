/-
  A decimal that a double is rounded from is within bounds, also step by step.

  The significand is no greater than the digits it is made of, and rounding it, the power of
  ten and their product is off by a part in `2 ^ 53` each.  So the outcome is no greater than
  the greatest double, unless the decimal is rounded to one of the three greatest ones; and
  dividing by a power of ten makes nothing greater.

  * `exists_scaled`: the steps.
  * `exists_stepwise`: a decimal that has few digits before the point.
-/
import DocPointer.Number.Decimal
import DocPointer.Proofs.Number.Rounding
import DocPointer.Proofs.Text.Digits

namespace DocPointer

namespace Binary

theorem toRat_nonneg {F : BinaryFormat} (x : Binary F) : 0 ≤ x.toRat := by
  rw [toRat]
  positivity

/-- The greatest double. -/
def greatest : Binary .double := ⟨false, 2 ^ 53 - 1, 971, by decide⟩

theorem toRat_greatest : greatest.toRat = (2 ^ 53 - 1) * 2 ^ (971 : Int) := by
  rw [toRat, greatest]
  norm_num

/-- A great double as a multiple of the last place of the greatest. -/
theorem exists_multiple {x : Binary .double} (hx : x.mantissa % 2 = 1) (he : 971 ≤ x.exponent) :
    ∃ n : Nat, n < 2 ^ 53 ∧ x.toRat = n * 2 ^ (971 : Int) ∧
      lowestTerms n 971 = (x.mantissa, x.exponent) := by
  obtain ⟨k, hk⟩ := Int.le.dest he
  refine ⟨x.mantissa * 2 ^ k, ?_, ?_, ?_⟩
  · have hhigh : (x.mantissa.log2 : Int) + x.exponent < 1024 := by
      rcases x.canonical with ⟨hm, -⟩ | ⟨-, -, -, hhigh⟩
      · omega
      · exact hhigh
    calc x.mantissa * 2 ^ k < 2 ^ (x.mantissa.log2 + 1) * 2 ^ k :=
          Nat.mul_lt_mul_of_pos_right Nat.lt_log2_self (Nat.two_pow_pos k)
      _ = 2 ^ (x.mantissa.log2 + 1 + k) := (Nat.pow_add ..).symm
      _ ≤ 2 ^ 53 := Nat.pow_le_pow_right (by decide) (by omega)
  · rw [toRat, ← hk, Nat.cast_mul, Nat.cast_pow, Nat.cast_ofNat, zpow_add₀ (by norm_num),
      zpow_natCast]
    ring
  · rw [lowestTerms_mul hx, hk]

/-- All doubles but the three greatest ones are well below the greatest. -/
theorem toRat_le_or (x : Binary .double) :
    x.toRat ≤ (2 ^ 53 - 4) * 2 ^ (971 : Int) ∨
      (x.mantissa, x.exponent) ∈
        [(2 ^ 53 - 1, (971 : Int)), (2 ^ 52 - 1, 972), (2 ^ 53 - 3, 971)] := by
  rcases x.canonical with ⟨hm, -⟩ | ⟨hodd, hprec, -, -⟩
  · left
    rw [toRat, hm, Nat.cast_zero, zero_mul]
    exact mul_nonneg (by norm_num) (by positivity)
  · rcases Int.lt_or_le x.exponent 971 with he | he
    · left
      have hprec' : (x.mantissa : ℚ) ≤ 2 ^ 53 := by exact_mod_cast hprec.le
      calc x.toRat ≤ 2 ^ 53 * 2 ^ (970 : Int) := by
            rw [toRat]
            gcongr
            · norm_num
            · omega
        _ ≤ (2 ^ 53 - 4) * 2 * 2 ^ (970 : Int) := by
            gcongr
            norm_num
        _ = (2 ^ 53 - 4) * 2 ^ (971 : Int) := by
            rw [mul_assoc, ← zpow_one_add₀ (by norm_num)]
            norm_num
    · obtain ⟨n, hlt, hn, hterms⟩ := exists_multiple hodd he
      rcases Nat.lt_or_ge (2 ^ 53 - 4) n with hgt | hle
      · right
        have hcases : n = 2 ^ 53 - 1 ∨ n = 2 ^ 53 - 2 ∨ n = 2 ^ 53 - 3 := by omega
        rw [← hterms]
        rcases hcases with rfl | rfl | rfl <;> decide +kernel
      · left
        have hle' : (n : ℚ) ≤ (2 ^ 53 - 4 : Nat) := Nat.cast_le.2 hle
        rw [hn]
        gcongr
        norm_num at hle' ⊢
        exact hle'

/-- The part by which rounding to a double is off at most. -/
def unit : ℚ := 1 / 2 ^ 53

/-- A natural number is rounded to a double, unless it is greater than all. -/
theorem exists_ofRatio_nat (negative : Bool) {n : Nat} (h : (n : ℚ) ≤ greatest.toRat) :
    ∃ x : Binary .double, ofRatio negative n 1 = some x := by
  obtain ⟨x, hx, -⟩ :=
    ofRatio_le negative (by decide) one_ne_zero (y := greatest) (by simpa using h)
  exact ⟨x, hx⟩

theorem ofRatio_bounds {negative : Bool} {num den : Nat} (hd : den ≠ 0) {x : Binary .double}
    (h : ofRatio negative num den = some x) (hone : (1 : ℚ) ≤ num / den) :
    num / den * (1 - unit) ≤ x.toRat ∧ x.toRat ≤ num / den * (1 + unit) := by
  have hlow : (2 : ℚ) ^ (BinaryFormat.double.low + (BinaryFormat.double.precision - 1 : Nat)) ≤
      num / den := (zpow_le_one_of_nonpos₀ (by norm_num) (by decide)).trans hone
  have herror := ofRatio_error (by decide) hd h hlow
  have hunit : (num / den : ℚ) / 2 ^ BinaryFormat.double.precision = num / den * unit := by
    rw [unit, mul_one_div]
    rfl
  rw [hunit, abs_le] at herror
  constructor <;> linarith [herror.1, herror.2]

/-- A decimal that is not below one is off by no more. -/
theorem ofDecimal_le {negative : Bool} {d : Nat} {e : Int} {x : Binary .double}
    (h : ofDecimal negative d e = some x) (hone : (1 : ℚ) ≤ d * 10 ^ e) :
    d * 10 ^ e * (1 - unit) ≤ x.toRat := by
  rw [← withoutZeros_spec] at hone ⊢
  rw [ofDecimal] at h
  generalize withoutZeros d e = p at h hone ⊢
  obtain ⟨d, e⟩ := p
  simp only at h hone ⊢
  have hd : d ≠ 0 := by
    rintro rfl
    rw [Nat.cast_zero, zero_mul] at hone
    exact absurd hone (by norm_num)
  have hlow : BinaryFormat.double.low ≤ d.log2 + 1 + 3 * e :=
    low_le (by decide) hd ((zpow_le_one_of_nonpos₀ (by norm_num) (by decide)).trans hone)
  rw [if_neg hd, if_neg (not_lt.2 hlow)] at h
  split at h
  · cases h
  · split at h
    · next he =>
      obtain ⟨k, rfl⟩ := Int.eq_ofNat_of_zero_le he
      have hratio :
          ((d * Nat.pow 10 (k : Int).toNat : Nat) : ℚ) / (1 : Nat) = d * 10 ^ (k : Int) := by
        simp
      have hbounds := ofRatio_bounds one_ne_zero h (hratio ▸ hone)
      exact hratio ▸ hbounds.1
    · next he =>
      obtain ⟨k, hk⟩ := Int.eq_ofNat_of_zero_le (by omega : 0 ≤ -e)
      obtain rfl : e = -(k : Int) := by omega
      have hratio : (d : ℚ) / (Nat.pow 10 (- -(k : Int)).toNat : Nat) = d * 10 ^ (-(k : Int)) := by
        simp [div_eq_mul_inv]
      have hbounds := ofRatio_bounds (by simp) h (hratio ▸ hone)
      exact hratio ▸ hbounds.1

/-! ## Powers of ten -/

theorem natCast_le_toRat {F : BinaryFormat} {x : Binary F} {n k : Nat} (hx : x.exponent = k)
    (h : n ≤ x.mantissa * 2 ^ k) : (n : ℚ) ≤ x.toRat := by
  rw [toRat, hx, zpow_natCast]
  exact_mod_cast h

theorem ten_pow_le {k : Nat} (hk : k ≤ Decimal.maxTens) :
    ((10 ^ k : Nat) : ℚ) ≤ greatest.toRat := by
  have h : 10 ^ Decimal.maxTens ≤ greatest.mantissa * 2 ^ 971 := by decide +kernel
  have hpow : 10 ^ k ≤ 10 ^ Decimal.maxTens := Nat.pow_le_pow_right (by decide) hk
  have hexp : greatest.exponent = (971 : Nat) := rfl
  exact natCast_le_toRat hexp (hpow.trans h)

theorem toRat_lt_ten_pow (x : Binary .double) {k : Nat} (hk : Decimal.maxTens < k) :
    x.toRat < 10 ^ k := by
  have h : 2 ^ 1024 ≤ 10 ^ (Decimal.maxTens + 1) := by decide +kernel
  have hpow : 10 ^ (Decimal.maxTens + 1) ≤ 10 ^ k := Nat.pow_le_pow_right (by decide) hk
  have hcast : ((2 ^ 1024 : Nat) : ℚ) ≤ (10 ^ k : Nat) := Nat.cast_le.2 (h.trans hpow)
  rw [Nat.cast_pow 10, Nat.cast_pow 2, ← zpow_natCast] at hcast
  exact lt_of_lt_of_le (toRat_lt x) hcast

end Binary

namespace Decimal

open Binary

variable {x : Binary .double}

theorem exists_tens {k : Nat} (hk : k ≤ maxTens) :
    ∃ p : Binary .double, ofRatio false (Nat.pow 10 k) 1 = some p ∧
      10 ^ k * (1 - unit) ≤ p.toRat ∧ p.toRat ≤ 10 ^ k * (1 + unit) := by
  obtain ⟨p, hp⟩ := exists_ofRatio_nat false (ten_pow_le hk)
  have hone : (1 : ℚ) ≤ (Nat.pow 10 k : Nat) / (1 : Nat) := by
    rw [Nat.cast_one, div_one]
    exact_mod_cast Nat.one_le_pow k 10 (by decide)
  have hbounds := ofRatio_bounds one_ne_zero hp hone
  rw [Nat.cast_one, div_one, Nat.cast_pow] at hbounds
  exact ⟨p, hp, hbounds⟩

/-- A product with a power of ten that is no greater than the greatest double. -/
theorem exists_timesTens {k : Nat} (hk : k ≤ maxTens)
    (h : x.toRat * (10 ^ k * (1 + unit)) ≤ greatest.toRat) : ∃ y, timesTens x k = some y := by
  obtain ⟨p, hp, -, hle⟩ := exists_tens hk
  obtain ⟨num, den, hd, hratio, htimes⟩ := times_eq x p
  have hprod : (num / den : ℚ) ≤ greatest.toRat := by
    rw [hratio]
    refine le_trans ?_ h
    have hx := x.toRat_nonneg
    gcongr
  obtain ⟨y, hy, -⟩ := ofRatio_le (x.negative != p.negative) (by decide) hd hprod
  refine ⟨y, ?_⟩
  rw [timesTens, if_neg (not_lt.2 hk), hp, Option.bind_some, htimes, hy]

/-- Dividing by a power of ten makes nothing greater. -/
theorem exists_quotient (x : Binary .double) {k : Nat} (h0 : 0 < k) (hk : k ≤ maxTens) :
    ∃ y, (ofRatio false (Nat.pow 10 k) 1).bind x.dividedBy = some y := by
  obtain ⟨p, hp, hle, -⟩ := exists_tens hk
  have hone : 1 ≤ p.toRat := by
    refine le_trans ?_ hle
    calc (1 : ℚ) ≤ 10 ^ 1 * (1 - unit) := by norm_num [unit]
      _ ≤ 10 ^ k * (1 - unit) := by
        gcongr
        · norm_num [unit]
        · norm_num
        · exact h0
  have hmantissa : p.mantissa ≠ 0 := by
    intro h
    rw [toRat, h, Nat.cast_zero, zero_mul] at hone
    exact absurd hone (by norm_num)
  obtain ⟨num, den, hd, hratio, hdivided⟩ := dividedBy_eq x hmantissa
  have hquotient : (num / den : ℚ) ≤ x.toRat := by
    rw [hratio]
    exact div_le_self x.toRat_nonneg hone
  obtain ⟨y, hy, -⟩ := ofRatio_le (x.negative != p.negative) (by decide) hd hquotient
  exact ⟨y, by rw [hp, Option.bind_some, hdivided, hy]⟩

theorem exists_overTens (x : Binary .double) {k : Nat} (h0 : 0 < k) (hk : k ≤ maxTens) (n : Nat) :
    ∃ y, overTens x k n = some y := by
  induction n generalizing x with
  | zero => exact exists_quotient x h0 hk
  | succ n ih =>
    rw [overTens]
    split
    · exact ⟨x, rfl⟩
    · obtain ⟨y, hy⟩ := exists_quotient x (by decide : 0 < maxTens) (Nat.le_refl _)
      rw [hy, Option.bind_some]
      exact ih y

/-- A number of digits with a power of ten that is well below the greatest double. -/
theorem exists_scaled {negative : Bool} {n : Nat} {e : Int}
    (hx : ofRatio negative n 1 = some x)
    (h : 0 ≤ e → (n * 10 ^ e : ℚ) * (1 + unit) ^ 2 ≤ greatest.toRat) :
    ∃ y, scaled x e = some y := by
  rw [scaled]
  split
  · exact ⟨x, rfl⟩
  · next hzero =>
    have hn : n ≠ 0 := by
      rintro rfl
      cases hx
      exact hzero rfl
    have hone : (1 : ℚ) ≤ n := by exact_mod_cast Nat.one_le_iff_ne_zero.2 hn
    have hhigh := (ofRatio_bounds one_ne_zero hx (by simpa using hone)).2
    rw [Nat.cast_one, div_one] at hhigh
    split
    · next he =>
      obtain ⟨k, rfl⟩ := Int.eq_ofNat_of_zero_le he
      have hle := h he
      rw [zpow_natCast] at hle
      have hunit : (0 : ℚ) < unit := by norm_num [unit]
      have hk : k ≤ maxTens := by
        by_contra hgt
        refine absurd (toRat_lt_ten_pow greatest (not_le.1 hgt)) (not_lt.2 (le_trans ?_ hle))
        calc (10 ^ k : ℚ) = 1 * 10 ^ k * 1 := by ring
          _ ≤ n * 10 ^ k * (1 + unit) ^ 2 := by
            gcongr
            exact one_le_pow₀ (by linarith)
      refine exists_timesTens hk (le_trans ?_ hle)
      calc x.toRat * (10 ^ k * (1 + unit)) ≤ n * (1 + unit) * (10 ^ k * (1 + unit)) := by gcongr
        _ = n * 10 ^ k * (1 + unit) ^ 2 := by ring
    · next he =>
      refine exists_overTens x ?_ ?_ _
      · show 0 < (-e).toNat - ((-e).toNat - 1) / 308 * 308
        omega
      · show (-e).toNat - ((-e).toNat - 1) / 308 * 308 ≤ 308
        omega

/-! ## The significand -/

/-- The number `n` with digits behind it. -/
def appended (n : Nat) (cs : List Char) : Nat :=
  cs.foldl (fun n c => 10 * n + (Digits.digit? c).getD 0) n

theorem le_appended (n : Nat) (cs : List Char) : n * 10 ^ cs.length ≤ appended n cs := by
  induction cs generalizing n with
  | nil => simp [appended]
  | cons c cs ih =>
    refine le_trans ?_ (ih (10 * n + (Digits.digit? c).getD 0))
    calc n * 10 ^ (c :: cs).length = 10 * n * 10 ^ cs.length := by
          rw [List.length_cons, Nat.pow_succ]
          ring
      _ ≤ _ := Nat.mul_le_mul_right _ (Nat.le_add_right ..)

/-- What is absorbed makes a number no greater, and that fits. -/
theorem absorb_spec {n : Nat} (hn : n < 0x10000000000000000) (cs : List Char) :
    (absorb n cs).1 < 0x10000000000000000 ∧
      (absorb n cs).1 * 10 ^ (absorb n cs).2.length ≤ appended n cs ∧
        (absorb n cs).2.length ≤ cs.length := by
  induction cs generalizing n with
  | nil => exact ⟨hn, by simp [absorb, appended], Nat.le_refl _⟩
  | cons c cs ih =>
    rw [absorb]
    split
    · next hm =>
      obtain ⟨hlt, hle, hlen⟩ := ih hm
      exact ⟨hlt, hle, Nat.le_succ_of_le hlen⟩
    · exact ⟨hn, le_appended n (c :: cs), Nat.le_refl _⟩

theorem digit_le (c : Char) : (Digits.digit? c).getD 0 ≤ 9 := by
  rw [Digits.digit?]
  split
  · next hc =>
    have hle : c.toNat ≤ 57 := hc.2
    show c.toNat - 48 ≤ 9
    omega
  · exact Nat.zero_le _

/-- Few digits are all absorbed. -/
theorem absorb_all {n : Nat} {cs : List Char} (h : (n + 1) * 10 ^ cs.length ≤ 0x10000000000000000) :
    absorb n cs = (appended n cs, []) := by
  induction cs generalizing n with
  | nil => rfl
  | cons c cs ih =>
    have hdigit := digit_le c
    have hnext :
        (10 * n + (Digits.digit? c).getD 0 + 1) * 10 ^ cs.length ≤ 0x10000000000000000 := by
      refine le_trans ?_ h
      rw [List.length_cons, Nat.pow_succ, Nat.mul_comm _ 10, ← Nat.mul_assoc]
      exact Nat.mul_le_mul_right _ (by omega)
    have hpos := Nat.one_le_pow cs.length 10 (by decide)
    have hlt : 10 * n + (Digits.digit? c).getD 0 < 0x10000000000000000 :=
      lt_of_lt_of_le (Nat.lt_succ_self _) ((Nat.le_mul_of_pos_right _ hpos).trans hnext)
    rw [absorb, if_pos hlt, ih hnext]
    rfl

/-! ## Decimals -/

/-- A decimal with few digits before the point is within bounds if it is well below the
    greatest double. -/
theorem exists_stepwise {d : Decimal} (hlen : d.whole.length ≤ 19)
    (h : (1 : ℚ) ≤ Digits.value (d.whole ++ d.fraction) * 10 ^ (d.exponent - d.fraction.length) →
      Digits.value (d.whole ++ d.fraction) * 10 ^ (d.exponent - d.fraction.length) *
        (1 + unit) ^ 2 ≤ greatest.toRat) : ∃ y, d.stepwise = some y := by
  have hpow : (0 + 1) * 10 ^ d.whole.length ≤ 0x10000000000000000 :=
    le_trans (Nat.mul_le_mul_left _ (Nat.pow_le_pow_right (by decide) hlen)) (by decide)
  have hwhole := absorb_all hpow
  have hm : appended 0 d.whole < 0x10000000000000000 := by
    have := (absorb_spec (n := 0) (by decide) d.whole).1
    rwa [hwhole] at this
  obtain ⟨hlt, hle, hleft⟩ := absorb_spec hm d.fraction
  have hvalue : appended (appended 0 d.whole) d.fraction = Digits.value (d.whole ++ d.fraction) :=
    (List.foldl_append ..).symm
  rw [hvalue] at hle
  rw [stepwise, hwhole]
  simp only [List.length_nil]
  generalize absorb (appended 0 d.whole) d.fraction = absorbed at hlt hle hleft ⊢
  obtain ⟨n, dropped⟩ := absorbed
  simp only at hlt hle hleft ⊢
  have hgreatest : (n : ℚ) ≤ greatest.toRat := by
    have hexp : greatest.exponent = (971 : Nat) := rfl
    have hbound : 0x10000000000000000 ≤ greatest.mantissa * 2 ^ 971 := by decide +kernel
    exact natCast_le_toRat hexp (hlt.le.trans hbound)
  obtain ⟨x, hx⟩ := exists_ofRatio_nat d.negative hgreatest
  rw [hx, Option.bind_some]
  refine exists_scaled hx fun he => ?_
  rcases Nat.eq_zero_or_pos n with rfl | hn
  · rw [Nat.cast_zero, zero_mul, zero_mul]
    exact greatest.toRat_nonneg
  · have hdigits : (n * 10 ^ dropped.length : ℚ) ≤ Digits.value (d.whole ++ d.fraction) := by
      exact_mod_cast hle
    have hexp : d.exponent + ((0 : Nat) : Int) - (d.fraction.length - dropped.length : Nat) =
        dropped.length + (d.exponent - d.fraction.length) := by omega
    rw [hexp] at he ⊢
    have hscaled : (n * 10 ^ (dropped.length + (d.exponent - d.fraction.length)) : ℚ) ≤
        Digits.value (d.whole ++ d.fraction) * 10 ^ (d.exponent - d.fraction.length) := by
      rw [zpow_add₀ (by norm_num), zpow_natCast, ← mul_assoc]
      gcongr
    have hone : (1 : ℚ) ≤ n * 10 ^ (dropped.length + (d.exponent - d.fraction.length)) :=
      one_le_mul_of_one_le_of_one_le (by exact_mod_cast hn) (one_le_zpow₀ (by norm_num) he)
    refine le_trans ?_ (h (hone.trans hscaled))
    gcongr

/-- **A decimal that a double is rounded from is within bounds step by step too**, unless the
    double is one of the three greatest. -/
theorem exists_stepwise_of_nearest {d : Decimal} (hlen : d.whole.length ≤ 19)
    {x : Binary .double} (hx : d.nearest = some x)
    (hbelow : x.toRat ≤ (2 ^ 53 - 4) * 2 ^ (971 : Int)) : ∃ y, d.stepwise = some y := by
  refine exists_stepwise hlen fun hone => ?_
  have hle := (ofDecimal_le hx hone).trans hbelow
  generalize (Digits.value (d.whole ++ d.fraction) * 10 ^ (d.exponent - d.fraction.length) : ℚ) = q
    at hle
  have hunit : (0 : ℚ) < 1 - unit := by norm_num [unit]
  rw [toRat_greatest, ← mul_le_mul_iff_left₀ hunit]
  calc q * (1 + unit) ^ 2 * (1 - unit) = q * (1 - unit) * (1 + unit) ^ 2 := by ring
    _ ≤ (2 ^ 53 - 4) * 2 ^ (971 : Int) * (1 + unit) ^ 2 := by gcongr
    _ = (2 ^ 53 - 4) * (1 + unit) ^ 2 * 2 ^ (971 : Int) := by ring
    _ ≤ (2 ^ 53 - 1) * (1 - unit) * 2 ^ (971 : Int) :=
      mul_le_mul_of_nonneg_right (by norm_num [unit]) (by positivity)
    _ = (2 ^ 53 - 1) * 2 ^ (971 : Int) * (1 - unit) := by ring

end Decimal

end DocPointer
