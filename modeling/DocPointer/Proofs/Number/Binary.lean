/-
  Numbers of a binary format are read back from their shortest decimal.

  A number that is given exactly, as a ratio or as a decimal, is rounded to itself
  (`ofRatio_eq_some`, `ofDecimal_eq_some`).  The search for the shortest decimal only
  stops at one that reads back, or on the finest grid, where the digits are exact; so
  whatever it finds reads back (`ofDecimal_shortest`).
-/
import DocPointer.Number.Binary
import Mathlib.Algebra.Order.Field.Power
import Mathlib.Algebra.Order.Field.Rat
import Mathlib.Data.Nat.Cast.Order.Field
import Mathlib.Tactic.FieldSimp
import Mathlib.Tactic.NormNum
import Mathlib.Tactic.Positivity
import Mathlib.Tactic.Ring

namespace DocPointer.Binary

variable {F : BinaryFormat}

/-- The magnitude of a number. -/
def toRat (x : Binary F) : ℚ := x.mantissa * 2 ^ x.exponent

/-! ## Ratios -/

theorem scale_spec (num : Nat) {den : Nat} (hd : den ≠ 0) (e : Int) :
    (scale num den e).2 ≠ 0 ∧
      ((scale num den e).1 : ℚ) / (scale num den e).2 = num / den * 2 ^ (-e) := by
  have hd' : (den : ℚ) ≠ 0 := Nat.cast_ne_zero.2 hd
  rw [scale]
  split
  · next he =>
    obtain ⟨n, rfl⟩ := Int.eq_ofNat_of_zero_le he
    refine ⟨by simp [hd], ?_⟩
    simp only [Int.toNat_natCast, Nat.pow_eq, Nat.cast_mul, Nat.cast_pow, Nat.cast_ofNat, zpow_neg,
      zpow_natCast]
    field_simp
  · next he =>
    obtain ⟨n, hn⟩ := Int.eq_ofNat_of_zero_le (by omega : 0 ≤ -e)
    refine ⟨hd, ?_⟩
    simp only [hn, Int.toNat_natCast, Nat.pow_eq, Nat.cast_mul, Nat.cast_pow, Nat.cast_ofNat,
      zpow_natCast]
    field_simp

theorem two_pow_log2_le {n : Nat} (h : n ≠ 0) : (2 : ℚ) ^ (n.log2 : Int) ≤ n := by
  rw [zpow_natCast]
  exact_mod_cast Nat.log2_self_le h

theorem lt_two_pow_log2 (n : Nat) : (n : ℚ) < 2 ^ ((n.log2 : Int) + 1) := by
  rw [← Nat.cast_succ, zpow_natCast]
  exact_mod_cast Nat.lt_log2_self

theorem lt_of_two_zpow_lt {j k : Int} (h : (2 : ℚ) ^ j < 2 ^ k) : j < k :=
  (zpow_lt_zpow_iff_right₀ (by norm_num)).1 h

/-- The order of magnitude is what bounds the ratio by powers of two. -/
theorem magnitude_eq {num den : Nat} (hn : num ≠ 0) (hd : den ≠ 0) {k : Int}
    (hlow : (2 : ℚ) ^ k ≤ num / den) (hhigh : (num / den : ℚ) < 2 ^ (k + 1)) :
    magnitude num den = k := by
  have hd0 : (0 : ℚ) < den := Nat.cast_pos.2 (Nat.pos_of_ne_zero hd)
  have hlt : (num / den : ℚ) < 2 ^ ((num.log2 : Int) - den.log2 + 1) := by
    rw [div_lt_iff₀ hd0]
    calc (num : ℚ) < 2 ^ ((num.log2 : Int) + 1) := lt_two_pow_log2 num
      _ = 2 ^ ((num.log2 : Int) - den.log2 + 1) * 2 ^ (den.log2 : Int) := by
        rw [← zpow_add₀ (by norm_num)]; congr 1; ring
      _ ≤ _ := by gcongr; exact two_pow_log2_le hd
  have hgt : (2 : ℚ) ^ ((num.log2 : Int) - den.log2 - 1) < num / den := by
    rw [lt_div_iff₀ hd0]
    calc (2 : ℚ) ^ ((num.log2 : Int) - den.log2 - 1) * den
        < 2 ^ ((num.log2 : Int) - den.log2 - 1) * 2 ^ ((den.log2 : Int) + 1) := by
          gcongr; exact lt_two_pow_log2 den
      _ = 2 ^ (num.log2 : Int) := by rw [← zpow_add₀ (by norm_num)]; congr 1; ring
      _ ≤ num := two_pow_log2_le hn
  obtain ⟨hd', hratio⟩ := scale_spec num hd ((num.log2 : Int) - den.log2)
  have hd0' : (0 : ℚ) < (scale num den ((num.log2 : Int) - den.log2)).2 :=
    Nat.cast_pos.2 (Nat.pos_of_ne_zero hd')
  have hiff : (scale num den ((num.log2 : Int) - den.log2)).1 <
      (scale num den ((num.log2 : Int) - den.log2)).2 ↔
        (num / den : ℚ) < 2 ^ ((num.log2 : Int) - den.log2) := by
    rw [← Nat.cast_lt (α := ℚ), ← div_lt_one hd0', hratio, zpow_neg, ← div_eq_mul_inv,
      div_lt_one (by positivity)]
  have hk := lt_of_two_zpow_lt (hlow.trans_lt hlt)
  have hk' := lt_of_two_zpow_lt (hgt.trans hhigh)
  simp only [magnitude]
  split
  · next h =>
    have := lt_of_two_zpow_lt (hlow.trans_lt (hiff.1 h))
    omega
  · next h =>
    have := lt_of_two_zpow_lt ((le_of_not_gt fun hlt' => h (hiff.2 hlt')).trans_lt hhigh)
    omega

theorem lowestTerms_mul {m : Nat} (hm : m % 2 = 1) (k : Nat) (e : Int) :
    lowestTerms (m * 2 ^ k) e = (m, e + k) := by
  induction k generalizing e with
  | zero => rw [lowestTerms]; simp [hm, Nat.ne_of_gt (by omega : 0 < m)]
  | succ k ih =>
    have hne : m * 2 ^ (k + 1) ≠ 0 := Nat.mul_ne_zero (by omega) (by simp)
    have heven : m * 2 ^ (k + 1) % 2 = 0 := by rw [Nat.pow_succ, ← Nat.mul_assoc]; omega
    have hhalf : m * 2 ^ (k + 1) / 2 = m * 2 ^ k := by rw [Nat.pow_succ, ← Nat.mul_assoc]; omega
    rw [lowestTerms, if_neg hne, if_pos heven, hhalf, ih]
    congr 1
    push_cast
    ring

theorem roundEven_mul {d : Nat} (hd : d ≠ 0) (q : Nat) : roundEven (q * d) d = q := by
  have hd' := Nat.pos_of_ne_zero hd
  simp [roundEven, Nat.mul_div_cancel _ hd', hd']

/-- A dyadic number is whole on the scale of any exponent below its own. -/
theorem exists_scale_eq {num den m : Nat} {e low : Int} (hd : den ≠ 0)
    (h : (num / den : ℚ) = m * 2 ^ e) (hle : low ≤ e) :
    ∃ k : Nat, e = low + k ∧ (scale num den low).1 = m * 2 ^ k * (scale num den low).2 := by
  obtain ⟨k, rfl⟩ := Int.le.dest hle
  obtain ⟨hd', hratio⟩ := scale_spec num hd low
  refine ⟨k, rfl, ?_⟩
  rw [h, mul_assoc, ← zpow_add₀ (by norm_num), add_assoc, add_comm (k : Int), add_neg_cancel_left,
    zpow_natCast, div_eq_iff (Nat.cast_ne_zero.2 hd')] at hratio
  exact_mod_cast hratio

/-- A number of the format is rounded to itself. -/
theorem ofRatio_eq_some (x : Binary F) {num den : Nat} (hd : den ≠ 0)
    (h : (num / den : ℚ) = x.toRat) : ofRatio x.negative num den = some x := by
  obtain ⟨negative, m, e, hc⟩ := x
  have hd0 : (den : ℚ) ≠ 0 := Nat.cast_ne_zero.2 hd
  simp only [toRat] at h
  rcases hc with ⟨rfl, rfl⟩ | ⟨hodd, hprec, hlow, hhigh⟩
  · rw [Nat.cast_zero, zero_mul, div_eq_zero_iff, or_iff_left hd0, Nat.cast_eq_zero] at h
    simp [ofRatio, h, zero]
  · have hm : m ≠ 0 := by omega
    have hn : num ≠ 0 := by
      rintro rfl
      rw [Nat.cast_zero, zero_div] at h
      have : (0 : ℚ) < m * 2 ^ e := by
        have : (0 : ℚ) < m := Nat.cast_pos.2 (Nat.pos_of_ne_zero hm)
        positivity
      exact absurd h this.ne
    have hmag : magnitude num den = m.log2 + e := by
      refine magnitude_eq hn hd ?_ ?_
      · rw [h, zpow_add₀ (by norm_num)]
        gcongr
        exact two_pow_log2_le hm
      · rw [h, add_right_comm, zpow_add₀ (by norm_num)]
        gcongr
        exact lt_two_pow_log2 m
    -- The significand fits: it is rounded at an exponent no greater than its own.
    have hlog : m.log2 < F.precision := (Nat.log2_lt hm).2 hprec
    have hle : max F.low (magnitude num den - (F.precision - 1 : Nat)) ≤ e := by omega
    obtain ⟨k, hk, hscale⟩ := exists_scale_eq hd h hle
    simp only [ofRatio, if_neg hn]
    rw [hscale, roundEven_mul (scale_spec num hd _).1, lowestTerms_mul hodd]
    simp only [← hk, ofParts?]
    exact dif_pos (.inr ⟨hodd, hprec, hlow, hhigh⟩)

/-! ## Decimals -/

theorem withoutZeros_zero (e : Int) : withoutZeros 0 e = (0, 0) := by
  rw [withoutZeros, if_pos rfl]

theorem withoutZeros_exponent {d : Nat} {e : Int} (h : (withoutZeros d e).1 = 0) :
    (withoutZeros d e).2 = 0 := by
  fun_induction withoutZeros d e with
  | case1 => rfl
  | case2 d e hd hten ih => exact ih h
  | case3 d e hd => exact absurd h hd

theorem withoutZeros_mul (d : Nat) (k : Nat) (e : Int) :
    withoutZeros (d * 10 ^ k) e = withoutZeros d (e + k) := by
  induction k generalizing e with
  | zero => simp
  | succ k ih =>
    by_cases hd : d = 0
    · rw [hd, Nat.zero_mul, withoutZeros_zero, withoutZeros_zero]
    · have hne : d * 10 ^ (k + 1) ≠ 0 := Nat.mul_ne_zero hd (by simp)
      have hten : d * 10 ^ (k + 1) % 10 = 0 := by rw [Nat.pow_succ, ← Nat.mul_assoc]; omega
      have htenth : d * 10 ^ (k + 1) / 10 = d * 10 ^ k := by
        rw [Nat.pow_succ, ← Nat.mul_assoc]; omega
      rw [withoutZeros, if_neg hne, if_pos hten, htenth, ih]
      congr 1
      push_cast
      ring

/-- What has no zeros at its end stays as it is. -/
theorem withoutZeros_idem (d : Nat) (e : Int) :
    withoutZeros (withoutZeros d e).1 (withoutZeros d e).2 = withoutZeros d e := by
  fun_induction withoutZeros d e with
  | case1 => rw [withoutZeros]; simp
  | case2 d e h h' ih => exact ih
  | case3 d e h h' => rw [withoutZeros, if_neg h, if_neg h']

theorem withoutZeros_spec (d : Nat) (e : Int) :
    ((withoutZeros d e).1 : ℚ) * 10 ^ (withoutZeros d e).2 = d * 10 ^ e := by
  fun_induction withoutZeros d e with
  | case1 => simp
  | case2 d e h h' ih =>
    have hd : d = d / 10 * 10 := by omega
    rw [ih, zpow_add₀ (by norm_num), zpow_one]
    conv_rhs => rw [hd]
    push_cast
    ring
  | case3 => rfl

theorem ofDecimal_withoutZeros (negative : Bool) (d : Nat) (e : Int) :
    ofDecimal (F := F) negative (withoutZeros d e).1 (withoutZeros d e).2 =
      ofDecimal negative d e := by
  simp only [ofDecimal, withoutZeros_idem]

theorem ofDecimal_mul (negative : Bool) (d k : Nat) (e : Int) :
    ofDecimal (F := F) negative (d * 10 ^ k) e = ofDecimal negative d (e + k) := by
  simp only [ofDecimal, withoutZeros_mul]

theorem toRat_lt (x : Binary F) : x.toRat < 2 ^ F.high := by
  rcases x.canonical with ⟨hm, he⟩ | ⟨hodd, -, -, hhigh⟩
  · rw [toRat, hm, Nat.cast_zero, zero_mul]
    positivity
  · calc x.toRat < 2 ^ ((x.mantissa.log2 : Int) + 1) * 2 ^ x.exponent := by
          rw [toRat]; gcongr; exact lt_two_pow_log2 _
      _ = 2 ^ ((x.mantissa.log2 : Int) + 1 + x.exponent) := (zpow_add₀ (by norm_num) _ _).symm
      _ ≤ _ := zpow_le_zpow_right₀ (by norm_num) (by omega)

theorem le_toRat (x : Binary F) (hx : x.toRat ≠ 0) : (2 : ℚ) ^ F.low ≤ x.toRat := by
  rcases x.canonical with ⟨hm, he⟩ | ⟨hodd, -, hlow, -⟩
  · rw [toRat, hm, Nat.cast_zero, zero_mul] at hx
    exact absurd rfl hx
  · have hone : (1 : ℚ) ≤ x.mantissa := by exact_mod_cast (by omega : 1 ≤ x.mantissa)
    calc (2 : ℚ) ^ F.low ≤ 2 ^ x.exponent := zpow_le_zpow_right₀ (by norm_num) hlow
      _ ≤ _ := le_mul_of_one_le_left (by positivity) hone

/-- A decimal that is settled as out of bounds is none of the numbers of the format. -/
theorem three_mul_lt {x : Binary F} {d : Nat} {e : Int} (hh : 0 < F.high) (hd : d ≠ 0)
    (h : (d : ℚ) * 10 ^ e = x.toRat) : 3 * e < F.high := by
  rcases Int.lt_or_le e 0 with he | he
  · omega
  · obtain ⟨k, rfl⟩ := Int.eq_ofNat_of_zero_le he
    refine lt_of_two_zpow_lt (lt_of_le_of_lt ?_ (h ▸ toRat_lt x))
    have hone : (1 : ℚ) ≤ d := by exact_mod_cast Nat.one_le_iff_ne_zero.2 hd
    calc (2 : ℚ) ^ (3 * (k : Int)) = 8 ^ k := by rw [zpow_mul, zpow_natCast]; norm_num
      _ ≤ 10 ^ k := by gcongr; norm_num
      _ ≤ _ := by rw [zpow_natCast]; exact le_mul_of_one_le_left (by positivity) hone

/-- A decimal that is settled as zero is below all other numbers of the format. -/
theorem low_le {d : Nat} {e : Int} (hl : F.low ≤ 0) (hd : d ≠ 0)
    (h : (2 : ℚ) ^ F.low ≤ d * 10 ^ e) : F.low ≤ d.log2 + 1 + 3 * e := by
  rcases Int.lt_or_le e 0 with he | he
  · obtain ⟨k, hk⟩ := Int.eq_ofNat_of_zero_le (by omega : 0 ≤ -e)
    obtain rfl : e = -(k : Int) := by omega
    refine (lt_of_two_zpow_lt (lt_of_le_of_lt h ?_)).le
    calc (d : ℚ) * 10 ^ (-(k : Int)) ≤ d * 8 ^ (-(k : Int)) := by
          simp only [zpow_neg, zpow_natCast]
          gcongr
          norm_num
      _ < 2 ^ ((d.log2 : Int) + 1) * 8 ^ (-(k : Int)) := by gcongr; exact lt_two_pow_log2 d
      _ = 2 ^ ((d.log2 : Int) + 1 + 3 * -(k : Int)) := by
          rw [zpow_add₀ (by norm_num) _ (3 * -(k : Int)), zpow_mul]; norm_num
  · omega

/-- A number of the format that is given in decimal is rounded to itself. -/
theorem ofDecimal_eq_some (hl : F.low ≤ 0) (hh : 0 < F.high) (x : Binary F) {d : Nat} {e : Int}
    (h : (d : ℚ) * 10 ^ e = x.toRat) : ofDecimal x.negative d e = some x := by
  rw [← withoutZeros_spec] at h
  rw [ofDecimal]
  generalize withoutZeros d e = p at h ⊢
  obtain ⟨d, e⟩ := p
  simp only at h ⊢
  split
  · next hd =>
    rw [hd, Nat.cast_zero, zero_mul] at h
    have hzero : ofRatio x.negative 0 1 = some x := ofRatio_eq_some x one_ne_zero (by simpa using h)
    simpa [ofRatio] using hzero
  · next hd =>
    have hpos : (0 : ℚ) < d * 10 ^ e := by
      have : (0 : ℚ) < d := Nat.cast_pos.2 (Nat.pos_of_ne_zero hd)
      positivity
    have hlow := low_le hl hd (h ▸ le_toRat x (h ▸ hpos.ne'))
    rw [if_neg (not_le.2 (three_mul_lt hh hd h)), if_neg (not_lt.2 hlow)]
    split
    · next he =>
      obtain ⟨k, rfl⟩ := Int.eq_ofNat_of_zero_le he
      refine ofRatio_eq_some x one_ne_zero ?_
      rw [← h]
      simp
    · next he =>
      obtain ⟨k, hk⟩ := Int.eq_ofNat_of_zero_le (by omega : 0 ≤ -e)
      obtain rfl : e = -(k : Int) := by omega
      refine ofRatio_eq_some x (by simp) ?_
      rw [← h]
      simp [div_eq_mul_inv]

/-! ## The shortest decimal -/

theorem ofDecimal_of_onGrid? {x : Binary F} {s : Int} {d : Nat} (h : x.onGrid? s = some d) :
    ofDecimal x.negative d s = some x := by
  simp only [onGrid?] at h
  split at h
  · next hlo hhi =>
    simp only [decide_eq_true_eq] at hlo hhi
    cases h
    split
    · exact hlo
    · split
      · exact hhi
      · split
        · exact hlo
        · exact hhi
  · next hlo _ =>
    cases h
    exact of_decide_eq_true hlo
  · next _ hhi =>
    cases h
    exact of_decide_eq_true hhi
  · cases h

/-- On the finest grid the digits are exact. -/
theorem bottom_digits (x : Binary F) :
    ((neighbours x.ratio.1 x.ratio.2 (min x.exponent 0)).1.1 : ℚ) * 10 ^ (min x.exponent 0) =
      x.toRat := by
  obtain ⟨negative, m, e, hc⟩ := x
  simp only [toRat, ratio]
  rcases Int.lt_or_le e 0 with he | he
  · obtain ⟨k, hk⟩ := Int.eq_ofNat_of_zero_le (by omega : 0 ≤ -e)
    obtain rfl : e = -(k : Int) := by omega
    have hten : m * 10 ^ k = m * 5 ^ k * 2 ^ k := by rw [Nat.mul_assoc, ← Nat.mul_pow]
    have hdigits : (neighbours (scale m 1 (- -(k : Int))).1 (scale m 1 (- -(k : Int))).2
        (min (-(k : Int)) 0)).1.1 = m * 5 ^ k := by
      simp only [neighbours, scale, Int.neg_neg, Int.natCast_nonneg, if_true,
        if_neg (by omega : ¬0 ≤ min (-(k : Int)) 0), (by omega : -min (-(k : Int)) 0 = k),
        Int.toNat_natCast, Nat.pow_eq, Nat.one_mul, hten, Nat.mul_div_cancel _ (Nat.two_pow_pos k)]
    rw [hdigits, (by omega : min (-(k : Int)) 0 = -(k : Int))]
    simp only [zpow_neg, zpow_natCast, (by norm_num : (10 : ℚ) = 5 * 2), mul_pow]
    push_cast
    field_simp
  · obtain ⟨k, rfl⟩ := Int.eq_ofNat_of_zero_le he
    rw [(by omega : min (k : Int) 0 = 0)]
    rcases Nat.eq_zero_or_pos k with rfl | hk
    · simp [neighbours, scale]
    · simp [neighbours, scale, hk.ne']

/-- Wherever the search for the shortest decimal stops, the decimal reads back. -/
theorem ofDecimal_shortestFrom (hl : F.low ≤ 0) (hh : 0 < F.high) (x : Binary F) (n : Nat) :
    ofDecimal x.negative (x.shortestFrom (min x.exponent 0) n).1
      (x.shortestFrom (min x.exponent 0) n).2 = some x := by
  induction n with
  | zero => exact ofDecimal_eq_some hl hh x (bottom_digits x)
  | succ n ih =>
    rw [shortestFrom]
    split
    · next d h => exact ofDecimal_of_onGrid? h
    · exact ih

/-- **A number is read back from its shortest decimal.** -/
theorem ofDecimal_shortest (hl : F.low ≤ 0) (hh : 0 < F.high) (x : Binary F) :
    ofDecimal x.negative x.shortest.1 x.shortest.2 = some x := by
  simp only [shortest]
  split
  · next hz =>
    have hm : x.mantissa = 0 := by simpa [isZero] using hz
    exact ofDecimal_eq_some hl hh x (by simp [toRat, hm])
  · rw [ofDecimal_withoutZeros]
    exact ofDecimal_shortestFrom hl hh x _

/-! ## Other formats -/

/-- A number that another format has too is the same number there. -/
theorem convert_of_canonical {G : BinaryFormat} (x : Binary F)
    (h : G.Canonical x.mantissa x.exponent) :
    x.convert = some ⟨x.negative, x.mantissa, x.exponent, h⟩ := by
  simp only [convert, ofParts?, dif_pos h]

/-- A double can be every number of the 32-bit format. -/
theorem canonical_double {m : Nat} {e : Int} (h : BinaryFormat.single.Canonical m e) :
    BinaryFormat.double.Canonical m e := by
  rcases h with h | ⟨hodd, hm, hlow, hhigh⟩
  · exact .inl h
  · have hp : Nat.pow 2 BinaryFormat.single.precision ≤ Nat.pow 2 BinaryFormat.double.precision := by
      decide
    refine .inr ⟨hodd, Nat.lt_of_lt_of_le hm hp, ?_, ?_⟩
    · exact Int.le_trans (by decide) hlow
    · exact Int.lt_trans hhigh (by decide)

end DocPointer.Binary
