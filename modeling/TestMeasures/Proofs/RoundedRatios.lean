import Mathlib.Algebra.Order.Ring.Nat
import Mathlib.Tactic.Ring
import TestMeasures.Decimal.Binary64

/-!
# Ratios rounded to binary64

A ratio in the normal range, scaled by a power of two so that fifty-three bits stand before the point, is
rounded there: `Binary64.of_ratio_eq`. The number depends on the value of the ratio alone, so a product with
a natural and a number cut to a natural follow from the rounded mantissa, also if that was carried into the
next power of two (`Binary64.mul_nat_of_rounded`, `Binary64.truncate_of_rounded`).
-/

namespace TestMeasures.Binary64

variable {num den a b s : Nat}

/-- A scaled fraction is below one as the fraction is below the power of two. -/
theorem scale_lt_iff (num den up down : Nat) :
    (scale num den (up - down)).1 < (scale num den (up - down)).2 ↔ num * 2 ^ down < den * 2 ^ up := by
  unfold scale
  split
  case isTrue hle =>
    obtain ⟨gap, rfl⟩ := Nat.exists_eq_add_of_le (show down ≤ up by omega)
    have hgap : ((down + gap : Nat) - down : Int).toNat = gap := by omega
    have hup : den * 2 ^ (down + gap) = den * 2 ^ gap * 2 ^ down := by ring
    rw [hgap, hup]
    exact (Nat.mul_lt_mul_right (Nat.two_pow_pos down)).symm
  case isFalse hlt =>
    obtain ⟨gap, rfl⟩ := Nat.exists_eq_add_of_le (show up ≤ down by omega)
    have hgap : (-(up - (up + gap : Nat)) : Int).toNat = gap := by omega
    have hdown : num * 2 ^ (up + gap) = num * 2 ^ gap * 2 ^ up := by ring
    rw [hgap, hdown]
    exact (Nat.mul_lt_mul_right (Nat.two_pow_pos up)).symm

/-- Two bounds on a fraction by powers of two bound the exponents. -/
theorem exponents_lt {up down up' down' : Nat} (hbelow : num * 2 ^ down < den * 2 ^ up)
    (habove : den * 2 ^ up' ≤ num * 2 ^ down') : down + up' < up + down' := by
  by_contra hle
  have hpow : 2 ^ (up + down') ≤ 2 ^ (down + up') := Nat.pow_le_pow_right (by omega) (by omega)
  have hcontra : num * 2 ^ (down + up') < num * 2 ^ (down + up') :=
    calc num * 2 ^ (down + up')
      _ = num * 2 ^ down * 2 ^ up' := by ring
      _ < den * 2 ^ up * 2 ^ up' := Nat.mul_lt_mul_of_pos_right hbelow (Nat.two_pow_pos up')
      _ = den * 2 ^ up' * 2 ^ up := by ring
      _ ≤ num * 2 ^ down' * 2 ^ up := Nat.mul_le_mul_right _ habove
      _ = num * 2 ^ (up + down') := by ring
      _ ≤ num * 2 ^ (down + up') := Nat.mul_le_mul_left num hpow
  omega

/-- The logarithm of a fraction, told by a power of two that brings it to fifty-three bits. -/
theorem floor_log_eq (hden : 0 < den) (hlow : den * 2 ^ 52 ≤ num * 2 ^ s) (hhigh : num * 2 ^ s < den * 2 ^ 53) :
    floorLog num den = 52 - s := by
  have hnum : num ≠ 0 := by
    rintro rfl
    omega
  have hbelow : num * 2 ^ den.log2 < den * 2 ^ (num.log2 + 1) :=
    calc num * 2 ^ den.log2
      _ < 2 ^ (num.log2 + 1) * 2 ^ den.log2 := Nat.mul_lt_mul_of_pos_right Nat.lt_log2_self (Nat.two_pow_pos _)
      _ ≤ 2 ^ (num.log2 + 1) * den := Nat.mul_le_mul_left _ (Nat.log2_self_le hden.ne')
      _ = den * 2 ^ (num.log2 + 1) := Nat.mul_comm _ _
  have habove : den * 2 ^ num.log2 ≤ num * 2 ^ (den.log2 + 1) :=
    calc den * 2 ^ num.log2
      _ ≤ 2 ^ (den.log2 + 1) * 2 ^ num.log2 := Nat.mul_le_mul_right _ Nat.lt_log2_self.le
      _ ≤ 2 ^ (den.log2 + 1) * num := Nat.mul_le_mul_left _ (Nat.log2_self_le hnum)
      _ = num * 2 ^ (den.log2 + 1) := Nat.mul_comm _ _
  -- The guess is the logarithm or one more than it.
  have hleast := exponents_lt hbelow hlow
  have hgreatest := exponents_lt hhigh habove
  unfold floorLog
  simp only [scale_lt_iff]
  split
  case isTrue hover =>
    have := exponents_lt hover hlow
    omega
  case isFalse hexact =>
    have := exponents_lt hhigh (Nat.le_of_not_lt hexact)
    omega

/-- Rounding a quotient depends on its value alone. -/
theorem round_quotient_mul (num den : Nat) {factor : Nat} (hfactor : 0 < factor) :
    roundQuotient (num * factor) (den * factor) = roundQuotient num den := by
  have hless : 2 * (num % den * factor) > den * factor ↔ 2 * (num % den) > den := by
    rw [← Nat.mul_assoc]
    exact Nat.mul_lt_mul_right hfactor
  have hsame : 2 * (num % den * factor) = den * factor ↔ 2 * (num % den) = den := by
    rw [← Nat.mul_assoc]
    exact Nat.mul_left_inj hfactor.ne'
  unfold roundQuotient
  simp only [Nat.mul_div_mul_right num den hfactor, Nat.mul_mod_mul_right, hless, hsame]

/-- Two ratios that are the same number are rounded alike. -/
theorem round_quotient_congr (hden : 0 < den) (hb : 0 < b) (h : num * b = a * den) :
    roundQuotient num den = roundQuotient a b := by
  rw [← round_quotient_mul num den hb, ← round_quotient_mul a b hden, h, Nat.mul_comm den b]

/-- The number nearest to a ratio, given by one of the same value that a power of two brings to fifty-three
bits. -/
theorem of_ratio_eq (negative : Bool) (hden : 0 < den) (hb : 0 < b) (hvalue : num * b = a * den)
    (hlow : b * 2 ^ 52 ≤ a * 2 ^ s) (hhigh : a * 2 ^ s < b * 2 ^ 53) (hleast : s ≤ 1074) :
    ofRatio negative num den = ofRounded negative (roundQuotient (a * 2 ^ s) b) (-s) := by
  have hscaled : num * 2 ^ s * b = a * 2 ^ s * den :=
    calc num * 2 ^ s * b
      _ = num * b * 2 ^ s := by ring
      _ = a * 2 ^ s * den := by rw [hvalue]; ring
  have hlog : floorLog num den = 52 - s := by
    refine floor_log_eq hden (Nat.le_of_mul_le_mul_right ?_ hb) (Nat.lt_of_mul_lt_mul_right (a := b) ?_)
    · calc den * 2 ^ 52 * b
        _ = b * 2 ^ 52 * den := by ring
        _ ≤ num * 2 ^ s * b := by rw [hscaled]; exact Nat.mul_le_mul_right den hlow
    · calc num * 2 ^ s * b
        _ < b * 2 ^ 53 * den := by rw [hscaled]; exact Nat.mul_lt_mul_of_pos_right hhigh hden
        _ = den * 2 ^ 53 * b := by ring
  have hnum : num ≠ 0 := by
    rintro rfl
    have ha : a = 0 := by simpa [hden.ne'] using hvalue
    rw [ha] at hlow
    omega
  have hexponent : max (floorLog num den - 52) leastExponent = -(s : Int) := by
    rw [hlog, leastExponent]
    omega
  have hscale : scale num den (-s) = (num * 2 ^ s, den) := by
    unfold scale
    split
    case isTrue h =>
      obtain rfl : s = 0 := by omega
      simp
    case isFalse => simp
  unfold ofRatio
  rw [if_neg hnum]
  simp only [hexponent, hscale, round_quotient_congr hden hb hscaled]

/-- A rounded number is worth its mantissa times the power of two, also when the mantissa was carried. -/
theorem of_rounded_value (negative : Bool) (mantissa : Nat) (hs : 0 < s) :
    ∃ m e, ofRounded negative mantissa (-s) = .finite negative m e ∧
      0 < (fraction m e).2 ∧ (fraction m e).1 * 2 ^ s = mantissa * (fraction m e).2 := by
  unfold ofRounded
  by_cases hcarried : mantissa = Nat.pow 2 53
  · obtain ⟨t, rfl⟩ : ∃ t, s = t + 1 := ⟨s - 1, by omega⟩
    have hexponent : -((t + 1 : Nat) : Int) + 1 = -t := by omega
    have hle : ¬ (-(t : Int) > greatestExponent) := by
      rw [greatestExponent]
      omega
    have hfraction : fraction (Nat.pow 2 52) (-t) = (2 ^ 52, 2 ^ t) := by
      simp [fraction, scale]
    refine ⟨Nat.pow 2 52, -t, by simp only [hcarried, if_true, hexponent, if_neg hle], ?_⟩
    rw [hfraction, hcarried]
    refine ⟨Nat.two_pow_pos t, ?_⟩
    show 2 ^ 52 * 2 ^ (t + 1) = 2 ^ 53 * 2 ^ t
    ring
  · have hle : ¬ (-(s : Int) > greatestExponent) := by
      rw [greatestExponent]
      omega
    have hfraction : fraction mantissa (-s) = (mantissa, 2 ^ s) := by
      simp [fraction, scale]
    refine ⟨mantissa, -s, by simp [hcarried, hle], ?_⟩
    rw [hfraction]
    exact ⟨Nat.two_pow_pos s, rfl⟩

/-- A rounded number times a natural is rounded once more. -/
theorem mul_nat_of_rounded (negative : Bool) {mantissa factor t : Nat} (hs : 0 < s)
    (hlow : 2 ^ s * 2 ^ 52 ≤ mantissa * factor * 2 ^ t) (hhigh : mantissa * factor * 2 ^ t < 2 ^ s * 2 ^ 53)
    (hleast : t ≤ 1074) :
    (ofRounded negative mantissa (-s)).mulNat factor =
      ofRounded negative (roundQuotient (mantissa * factor * 2 ^ t) (2 ^ s)) (-t) := by
  obtain ⟨m, e, hrounded, hpos, hvalue⟩ := of_rounded_value negative mantissa hs
  rw [hrounded, mulNat]
  refine of_ratio_eq negative hpos (Nat.two_pow_pos s) ?_ hlow hhigh hleast
  calc (fraction m e).1 * factor * 2 ^ s
    _ = (fraction m e).1 * 2 ^ s * factor := by ring
    _ = mantissa * factor * (fraction m e).2 := by rw [hvalue]; ring

/-- A rounded number is cut off to the quotient of its mantissa and the power of two. -/
theorem truncate_of_rounded (negative : Bool) (mantissa : Nat) (hs : 0 < s) :
    (ofRounded negative mantissa (-s)).truncate? = some (mantissa / 2 ^ s) := by
  obtain ⟨m, e, hrounded, hpos, hvalue⟩ := of_rounded_value negative mantissa hs
  have hquotient : (fraction m e).1 / (fraction m e).2 = mantissa / 2 ^ s := by
    rw [← Nat.mul_div_mul_right _ _ (Nat.two_pow_pos s), hvalue, Nat.mul_comm (fraction m e).2,
      Nat.mul_div_mul_right _ _ hpos]
  rw [hrounded, truncate?, hquotient]

end TestMeasures.Binary64
