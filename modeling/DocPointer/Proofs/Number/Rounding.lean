/-
  How far rounding goes.

  * `ofRatio_le`: what is no greater than a number of the format is rounded to one that is no
    greater either.
  * `ofRatio_error`: rounding is off by no more than half of the last place.
-/
import DocPointer.Proofs.Number.Binary
import Mathlib.Data.Int.Log
import Mathlib.Data.Rat.Floor
import Mathlib.Tactic.Linarith

namespace DocPointer.Binary

variable {F : BinaryFormat}

/-! ## Rounding to an integer -/

/-- The nearest integer is no further off than a half. -/
theorem roundEven_error (n : Nat) {d : Nat} (hd : d ≠ 0) :
    2 * (d * roundEven n d) ≤ 2 * n + d ∧ 2 * n ≤ 2 * (d * roundEven n d) + d := by
  have hdiv := Nat.div_add_mod n d
  have hmod := Nat.mod_lt n (Nat.pos_of_ne_zero hd)
  have hnext : d * (n / d + 1) = d * (n / d) + d := Nat.mul_succ ..
  simp only [roundEven]
  split
  · omega
  · split
    · omega
    · rcases Nat.mod_two_eq_zero_or_one (n / d) with h | h
      · rw [h, Nat.add_zero]
        omega
      · rw [h]
        omega

theorem abs_roundEven_sub_le (n : Nat) {d : Nat} (hd : d ≠ 0) :
    |(roundEven n d : ℚ) - n / d| ≤ 1 / 2 := by
  obtain ⟨hup, hlow⟩ := roundEven_error n hd
  have hd0 : (0 : ℚ) < d := Nat.cast_pos.2 (Nat.pos_of_ne_zero hd)
  have hup' : 2 * ((d : ℚ) * roundEven n d) ≤ 2 * n + d := by exact_mod_cast hup
  have hlow' : 2 * (n : ℚ) ≤ 2 * (d * roundEven n d) + d := by exact_mod_cast hlow
  have hdist : (roundEven n d : ℚ) - n / d = (d * roundEven n d - n) / d := by field_simp
  rw [hdist, abs_div, abs_of_pos hd0, div_le_iff₀ hd0, abs_le]
  constructor <;> linarith

/-! ## Lowest terms -/

theorem lowestTerms_spec (m : Nat) (e : Int) :
    ((lowestTerms m e).1 : ℚ) * 2 ^ (lowestTerms m e).2 = m * 2 ^ e := by
  fun_induction lowestTerms m e with
  | case1 => simp
  | case2 m e h h' ih =>
    have hm : m = m / 2 * 2 := by omega
    rw [ih, zpow_add₀ (by norm_num), zpow_one]
    conv_rhs => rw [hm]
    push_cast
    ring
  | case3 => rfl

/-- A significand other than zero becomes odd and no greater, and the exponent no less. -/
theorem lowestTerms_odd {m : Nat} (hm : m ≠ 0) (e : Int) :
    (lowestTerms m e).1 % 2 = 1 ∧ (lowestTerms m e).1 ≤ m ∧ e ≤ (lowestTerms m e).2 := by
  fun_induction lowestTerms m e with
  | case1 => exact absurd rfl hm
  | case2 m e h h' ih =>
    obtain ⟨hodd, hle, he⟩ := ih (by omega)
    exact ⟨hodd, by omega, by omega⟩
  | case3 m e h h' => exact ⟨by omega, Nat.le_refl m, Int.le_refl e⟩

/-! ## Rounding to a format -/

theorem magnitude_spec {num den : Nat} (hn : num ≠ 0) (hd : den ≠ 0) :
    (2 : ℚ) ^ magnitude num den ≤ num / den ∧ (num / den : ℚ) < 2 ^ (magnitude num den + 1) := by
  have hpos : (0 : ℚ) < num / den :=
    div_pos (Nat.cast_pos.2 (Nat.pos_of_ne_zero hn)) (Nat.cast_pos.2 (Nat.pos_of_ne_zero hd))
  have hlow := Int.zpow_log_le_self (b := 2) (by norm_num) hpos
  have hhigh := Int.lt_zpow_succ_log_self (b := 2) (by norm_num) (num / den : ℚ)
  push_cast at hlow hhigh
  rw [magnitude_eq hn hd hlow hhigh]
  exact ⟨hlow, hhigh⟩

/-- The exponent that a ratio is rounded at. -/
def roundingExponent (F : BinaryFormat) (num den : Nat) : Int :=
  max F.low (magnitude num den - (F.precision - 1 : Nat))

/-- The significand that a ratio is rounded to. -/
def significand (F : BinaryFormat) (num den : Nat) : Nat :=
  roundEven (scale num den (roundingExponent F num den)).1
    (scale num den (roundingExponent F num den)).2

section
variable {num den : Nat} (hn : num ≠ 0) (hd : den ≠ 0)

theorem ofRatio_of_ne_zero (negative : Bool) (hn : num ≠ 0) :
    ofRatio (F := F) negative num den =
      ofParts? negative (lowestTerms (significand F num den) (roundingExponent F num den)).1
        (lowestTerms (significand F num den) (roundingExponent F num den)).2 := by
  simp only [ofRatio, if_neg hn]
  rfl

include hd

theorem abs_significand_sub_le (num : Nat) :
    |(significand F num den : ℚ) - num / den * 2 ^ (-roundingExponent F num den)| ≤ 1 / 2 := by
  obtain ⟨hd', hratio⟩ := scale_spec num hd (roundingExponent F num den)
  rw [← hratio]
  exact abs_roundEven_sub_le _ hd'

/-- An integer that is no less than the scaled ratio is no less than the significand. -/
theorem significand_le {n : Nat}
    (h : (num / den : ℚ) * 2 ^ (-roundingExponent F num den) ≤ n) : significand F num den ≤ n := by
  have hlt : (significand F num den : ℚ) < (n + 1 : Nat) := by
    have := (abs_le.1 (abs_significand_sub_le (F := F) hd num)).2
    push_cast
    linarith
  exact Nat.lt_succ_iff.1 (Nat.cast_lt.1 hlt)

include hn

theorem significand_le_two_pow (hp : 0 < F.precision) :
    significand F num den ≤ 2 ^ F.precision := by
  refine significand_le hd ?_
  have hexp : magnitude num den + 1 - roundingExponent F num den ≤ F.precision := by
    rw [roundingExponent]
    omega
  calc (num / den : ℚ) * 2 ^ (-roundingExponent F num den)
      ≤ 2 ^ (magnitude num den + 1) * 2 ^ (-roundingExponent F num den) := by
        gcongr
        exact (magnitude_spec hn hd).2.le
    _ = 2 ^ (magnitude num den + 1 - roundingExponent F num den) :=
        (zpow_add₀ (by norm_num) _ _).symm
    _ ≤ 2 ^ (F.precision : Int) := zpow_le_zpow_right₀ (by norm_num) hexp
    _ = (2 ^ F.precision : Nat) := by push_cast; rfl

/-- A number of the format that is no less than a ratio is no less than what the ratio is
    rounded to. -/
theorem significand_mul_le {y : Binary F} (h : (num / den : ℚ) ≤ y.toRat) :
    (significand F num den : ℚ) * 2 ^ roundingExponent F num den ≤ y.toRat := by
  obtain ⟨hmag, -⟩ := magnitude_spec hn hd
  have hy : (0 : ℚ) < y.toRat := lt_of_lt_of_le (lt_of_lt_of_le (by positivity) hmag) h
  rcases y.canonical with ⟨hm, -⟩ | ⟨hodd, hprec, hlow, -⟩
  · rw [toRat, hm, Nat.cast_zero, zero_mul] at hy
    exact absurd hy (lt_irrefl _)
  · have he : roundingExponent F num den ≤ y.exponent := by
      by_contra hlt
      -- the ratio would be of a greater magnitude than the number
      have hexp : F.precision + y.exponent ≤ magnitude num den := by
        rw [roundingExponent] at hlt
        omega
      refine absurd (hmag.trans h) (not_le.2 ?_)
      calc y.toRat < 2 ^ F.precision * 2 ^ y.exponent := by
            rw [toRat]
            gcongr
            exact_mod_cast hprec
        _ = 2 ^ (F.precision + y.exponent) := by
            rw [zpow_add₀ (by norm_num), zpow_natCast]
        _ ≤ _ := zpow_le_zpow_right₀ (by norm_num) hexp
    obtain ⟨k, hk⟩ := Int.le.dest he
    have hle : significand F num den ≤ y.mantissa * 2 ^ k := by
      refine significand_le hd ?_
      calc (num / den : ℚ) * 2 ^ (-roundingExponent F num den)
          ≤ y.toRat * 2 ^ (-roundingExponent F num den) := by gcongr
        _ = y.mantissa * 2 ^ k := by
            rw [toRat, ← hk, mul_assoc, ← zpow_add₀ (by norm_num), add_neg_cancel_comm,
              zpow_natCast]
        _ = _ := by push_cast; rfl
    calc (significand F num den : ℚ) * 2 ^ roundingExponent F num den
        ≤ (y.mantissa * 2 ^ k : Nat) * 2 ^ roundingExponent F num den := by
          gcongr
      _ = y.toRat := by
          rw [toRat, ← hk, zpow_add₀ (by norm_num), zpow_natCast]
          push_cast
          ring

end

/-- A number with a significand that fits, if it is no greater than one of the format. -/
theorem canonical_lowestTerms {m : Nat} {e : Int} (hp : 0 < F.precision)
    (hm : m ≤ 2 ^ F.precision) (he : F.low ≤ e) {y : Binary F} (h : (m * 2 ^ e : ℚ) ≤ y.toRat) :
    F.Canonical (lowestTerms m e).1 (lowestTerms m e).2 := by
  rcases Nat.eq_zero_or_pos m with rfl | hpos
  · rw [lowestTerms, if_pos rfl]
    exact F.canonical_zero
  · obtain ⟨hodd, hlow, hexp⟩ := lowestTerms_odd (Nat.ne_of_gt hpos) e
    refine .inr ⟨hodd, ?_, Int.le_trans he hexp, ?_⟩
    · -- an odd number is not the power of two that bounds it
      obtain ⟨p, hp⟩ := Nat.exists_eq_add_one.2 hp
      rw [hp, Nat.pow_succ] at hm
      rw [hp, Nat.pow_eq, Nat.pow_succ]
      omega
    · refine lt_of_two_zpow_lt (lt_of_le_of_lt ?_ (toRat_lt y))
      calc (2 : ℚ) ^ (((lowestTerms m e).1.log2 : Int) + (lowestTerms m e).2)
          = 2 ^ ((lowestTerms m e).1.log2 : Int) * 2 ^ (lowestTerms m e).2 :=
            zpow_add₀ (by norm_num) _ _
        _ ≤ (lowestTerms m e).1 * 2 ^ (lowestTerms m e).2 := by
            gcongr
            exact two_pow_log2_le (by omega)
        _ ≤ y.toRat := lowestTerms_spec m e ▸ h

/-- **What is no greater than a number of the format is rounded to one that is no greater.** -/
theorem ofRatio_le (negative : Bool) {num den : Nat} (hp : 0 < F.precision) (hd : den ≠ 0)
    {y : Binary F} (h : (num / den : ℚ) ≤ y.toRat) :
    ∃ x : Binary F, ofRatio negative num den = some x ∧ x.toRat ≤ y.toRat := by
  rcases Nat.eq_zero_or_pos num with rfl | hn
  · refine ⟨zero negative, rfl, ?_⟩
    rw [Nat.cast_zero, zero_div] at h
    simpa [toRat, zero] using h
  · have hn := Nat.ne_of_gt hn
    have hle := significand_mul_le hn hd h
    have hcanonical := canonical_lowestTerms hp (significand_le_two_pow hn hd hp)
      (le_max_left _ _) hle
    rw [ofRatio_of_ne_zero negative hn]
    refine ⟨_, dif_pos hcanonical, ?_⟩
    rw [← lowestTerms_spec] at hle
    exact hle

/-- **Rounding is off by no more than half of the last place**, unless the ratio is below all
    numbers of full precision. -/
theorem ofRatio_error {negative : Bool} {num den : Nat} (hp : 0 < F.precision) (hd : den ≠ 0)
    {x : Binary F} (h : ofRatio negative num den = some x)
    (hq : (2 : ℚ) ^ (F.low + (F.precision - 1 : Nat)) ≤ num / den) :
    |x.toRat - num / den| ≤ num / den / 2 ^ F.precision := by
  have hn : num ≠ 0 := by
    rintro rfl
    rw [Nat.cast_zero, zero_div] at hq
    exact absurd hq (not_le.2 (by positivity))
  have hx : x.toRat = significand F num den * 2 ^ roundingExponent F num den := by
    rw [ofRatio_of_ne_zero negative hn, ofParts?] at h
    split at h
    · cases h
      exact lowestTerms_spec _ _
    · cases h
  have hplace : (2 : ℚ) ^ (roundingExponent F num den + (F.precision - 1 : Nat)) ≤ num / den := by
    rw [roundingExponent]
    rcases max_cases F.low (magnitude num den - (F.precision - 1 : Nat)) with ⟨he, -⟩ | ⟨he, -⟩
    · rwa [he]
    · rw [he, sub_add_cancel]
      exact (magnitude_spec hn hd).1
  have herror := abs_significand_sub_le (F := F) hd num
  generalize roundingExponent F num den = e at hx hplace herror
  have he : (0 : ℚ) < 2 ^ e := by positivity
  have hdist : x.toRat - num / den = (significand F num den - num / den * 2 ^ (-e)) * 2 ^ e := by
    rw [hx, sub_mul, mul_assoc, ← zpow_add₀ (by norm_num), neg_add_cancel, zpow_zero, mul_one]
  have hpow : (2 : ℚ) ^ F.precision = 2 ^ (F.precision - 1) * 2 := by
    rw [← pow_succ, Nat.sub_add_cancel hp]
  rw [zpow_add₀ (by norm_num), zpow_natCast] at hplace
  calc |x.toRat - num / den|
      = |(significand F num den : ℚ) - num / den * 2 ^ (-e)| * 2 ^ e := by
        rw [hdist, abs_mul, abs_of_pos he]
    _ ≤ 1 / 2 * 2 ^ e := by gcongr
    _ = 2 ^ e * 2 ^ (F.precision - 1) / 2 ^ F.precision := by
        rw [hpow]
        field_simp
    _ ≤ num / den / 2 ^ F.precision := by gcongr

/-! ## Products and quotients -/

theorem times_eq (x y : Binary F) : ∃ num den : Nat, den ≠ 0 ∧
    (num / den : ℚ) = x.toRat * y.toRat ∧
      x.times y = ofRatio (x.negative != y.negative) num den := by
  obtain ⟨hd, hratio⟩ :=
    scale_spec (x.mantissa * y.mantissa) one_ne_zero (-(x.exponent + y.exponent))
  refine ⟨(scale (x.mantissa * y.mantissa) 1 (-(x.exponent + y.exponent))).1, _, hd, ?_, rfl⟩
  rw [hratio, neg_neg, zpow_add₀ (by norm_num), toRat, toRat]
  push_cast
  ring

theorem dividedBy_eq (x : Binary F) {y : Binary F} (hy : y.mantissa ≠ 0) : ∃ num den : Nat,
    den ≠ 0 ∧ (num / den : ℚ) = x.toRat / y.toRat ∧
      x.dividedBy y = ofRatio (x.negative != y.negative) num den := by
  obtain ⟨hd, hratio⟩ := scale_spec x.mantissa hy (y.exponent - x.exponent)
  refine ⟨(scale x.mantissa y.mantissa (y.exponent - x.exponent)).1, _, hd, ?_, rfl⟩
  rw [hratio, neg_sub, zpow_sub₀ (by norm_num), toRat, toRat, div_mul_div_comm]

end DocPointer.Binary
