import Mathlib.Algebra.Order.Field.Power
import Mathlib.Data.Rat.Cast.Order
import Mathlib.Tactic.FieldSimp
import Mathlib.Tactic.Linarith
import Mathlib.Tactic.Positivity
import Mathlib.Tactic.Ring
import Reckoner.Decimal.Approximate

/-!
# Magnitudes of ratios

Ratios of naturals as rationals: what scaling, dropping and rounding do to their value, and between which
powers of ten and of two they lie. The exponent of the first digit is climbed to from an estimate, so what
has to be shown is that the estimate is never too high and never too low for the steps that there are.

- `toRat_scale`, `floor_le`, `nearest_roundHalfUp` and `nearest_roundHalfEven`: operations on ratios;
- `decade_spec` and `binade_spec`: the first digit and the first bit;
- `tenPow_le_twoPow`: enough bits for a number of digits, by a chain of squares whose last bits are dropped.
-/

namespace Reckoner.Decimal

variable {r : Ratio} {base n m : Nat} {e : Int} {x : Rat}

/-! ## §1 Ratios -/

namespace Ratio

/-- Neither number of a ratio is zero. -/
structure Positive (r : Ratio) : Prop where
  num : 0 < r.num
  den : 0 < r.den

theorem Positive.toRat_pos (h : r.Positive) : 0 < r.toRat := by
  have hnum : (0 : Rat) < r.num := by exact_mod_cast h.num
  have hden : (0 : Rat) < r.den := by exact_mod_cast h.den
  exact div_pos hnum hden

/-- Scaling multiplies by a power, with either sign of the exponent. -/
theorem toRat_scale (hbase : 0 < base) (r : Ratio) (e : Int) :
    (r.scale base e).toRat = r.toRat * (base : Rat) ^ e := by
  have hne : (base : Rat) ≠ 0 := by exact_mod_cast hbase.ne'
  unfold scale
  split
  · next hnonneg =>
    obtain ⟨k, rfl⟩ := Int.eq_ofNat_of_zero_le hnonneg
    simp only [toRat, Int.toNat_natCast, Nat.cast_mul, Nat.cast_pow, zpow_natCast]
    ring
  · next hneg =>
    obtain ⟨k, hk⟩ := Int.eq_ofNat_of_zero_le (a := -e) (by omega)
    obtain rfl : e = -k := by omega
    simp only [toRat, neg_neg, Int.toNat_natCast, Nat.cast_mul, Nat.cast_pow, zpow_neg, zpow_natCast]
    field_simp

/-- Scaling keeps a ratio positive. -/
theorem Positive.scale (h : r.Positive) (hbase : 0 < base) (e : Int) : (r.scale base e).Positive := by
  unfold Ratio.scale
  split
  · exact ⟨Nat.mul_pos h.num (Nat.pow_pos hbase), h.den⟩
  · exact ⟨h.num, Nat.mul_pos h.den (Nat.pow_pos hbase)⟩

theorem toRat_ofRat (q : Rat) : (ofRat q).toRat = |q| := by
  calc (q.num.natAbs : Rat) / q.den = |(q.num : Rat) / q.den| := by
        rw [abs_div, Nat.abs_cast, Nat.cast_natAbs, Int.cast_abs]
    _ = |q| := by rw [Rat.num_div_den]

theorem positive_ofRat {q : Rat} (hq : q ≠ 0) : (ofRat q).Positive :=
  ⟨Int.natAbs_pos.mpr (Rat.num_ne_zero.mpr hq), q.den_pos⟩

/-- A ratio reaches a power if it does so with the denominator cleared. -/
theorem reached_iff (hbase : 0 < base) (hden : 0 < r.den) (e : Int) :
    (if 0 ≤ e then decide (r.den * base ^ e.toNat ≤ r.num)
      else decide (r.den ≤ r.num * base ^ (-e).toNat)) = true ↔ (base : Rat) ^ e ≤ r.toRat := by
  have hpos : (0 : Rat) < r.den := by exact_mod_cast hden
  have hbasePos : (0 : Rat) < base := by exact_mod_cast hbase
  rw [toRat, le_div_iff₀ hpos]
  split
  · next hnonneg =>
    obtain ⟨k, rfl⟩ := Int.eq_ofNat_of_zero_le hnonneg
    rw [decide_eq_true_iff, Int.toNat_natCast, zpow_natCast, mul_comm]
    exact_mod_cast Iff.rfl
  · next hneg =>
    obtain ⟨k, hk⟩ := Int.eq_ofNat_of_zero_le (a := -e) (by omega)
    obtain rfl : e = -k := by omega
    rw [decide_eq_true_iff, neg_neg, Int.toNat_natCast, zpow_neg, zpow_natCast,
      inv_mul_le_iff₀ (by positivity), mul_comm]
    exact_mod_cast Iff.rfl

theorem reaches_iff (hden : 0 < r.den) (e : Int) : r.reaches e = true ↔ (10 : Rat) ^ e ≤ r.toRat :=
  reached_iff (by decide) hden e

/-! ## §2 Dropping and rounding -/

theorem floor_le (hden : 0 < r.den) : (r.floor : Rat) ≤ r.toRat := by
  have hpos : (0 : Rat) < r.den := by exact_mod_cast hden
  rw [toRat, le_div_iff₀ hpos]
  exact_mod_cast Nat.div_mul_le_self r.num r.den

theorem lt_floor_add_one (hden : 0 < r.den) : r.toRat < r.floor + 1 := by
  have hpos : (0 : Rat) < r.den := by exact_mod_cast hden
  rw [toRat, div_lt_iff₀ hpos]
  exact_mod_cast Nat.lt_mul_of_div_lt (Nat.lt_succ_self (r.num / r.den)) hden

end Ratio

/-- A natural is nearest to a rational, or as near as another one. -/
def Nearest (n : Nat) (x : Rat) : Prop :=
  |(n : Rat) - x| ≤ 1 / 2

namespace Nearest

theorem le_of_le (h : Nearest n x) (hm : (m : Rat) ≤ x) : m ≤ n := by
  obtain ⟨hlow, -⟩ := abs_le.mp h
  have hless : (m : Rat) < n + 1 := by linarith
  exact Nat.le_of_lt_succ (by exact_mod_cast hless)

theorem le_of_lt (h : Nearest n x) (hm : x < m) : n ≤ m := by
  obtain ⟨-, hhigh⟩ := abs_le.mp h
  have hless : (n : Rat) < m + 1 := by linarith
  exact Nat.le_of_lt_succ (by exact_mod_cast hless)

/-- A natural that is nearer than a half is the only one that is as near. -/
theorem eq_of_lt (h : Nearest n x) (hm : |x - m| < 1 / 2) : n = m := by
  obtain ⟨hlow, hhigh⟩ := abs_le.mp h
  obtain ⟨hlow', hhigh'⟩ := abs_lt.mp hm
  have hless : (n : Rat) < m + 1 := by linarith
  have hgreater : (m : Rat) < n + 1 := by linarith
  exact Nat.le_antisymm (Nat.le_of_lt_succ (by exact_mod_cast hless))
    (Nat.le_of_lt_succ (by exact_mod_cast hgreater))

end Nearest

/-- A natural is nearest to a ratio if it is so with the denominator cleared. -/
theorem nearest_toRat_iff (hden : 0 < r.den) :
    Nearest n r.toRat ↔ 2 * r.num ≤ (2 * n + 1) * r.den ∧ 2 * n * r.den ≤ 2 * r.num + r.den := by
  have hpos : (0 : Rat) < r.den := by exact_mod_cast hden
  have hhigh : r.toRat - n ≤ 1 / 2 ↔ 2 * r.num ≤ (2 * n + 1) * r.den := by
    rw [Ratio.toRat, sub_le_iff_le_add, div_le_iff₀ hpos, ← Nat.cast_le (α := Rat)]
    push_cast
    constructor <;> intro h <;> linarith
  have hlow : (n : Rat) - r.toRat ≤ 1 / 2 ↔ 2 * n * r.den ≤ 2 * r.num + r.den := by
    rw [Ratio.toRat, sub_le_comm, le_div_iff₀ hpos, ← Nat.cast_le (α := Rat)]
    push_cast
    constructor <;> intro h <;> linarith
  rw [Nearest, abs_sub_le_iff, hlow, hhigh, and_comm]

/-- Rounding with halves up goes to a nearest natural. -/
theorem nearest_roundHalfUp (hden : 0 < r.den) : Nearest r.roundHalfUp r.toRat := by
  have hdivision := Nat.div_add_mod (2 * r.num + r.den) (2 * r.den)
  have hrest := Nat.mod_lt (2 * r.num + r.den) (Nat.mul_pos (by decide : 0 < 2) hden)
  rw [nearest_toRat_iff hden, Ratio.roundHalfUp]
  generalize (2 * r.num + r.den) / (2 * r.den) = quotient at hdivision
  generalize (2 * r.num + r.den) % (2 * r.den) = rest at hdivision hrest
  constructor <;> nlinarith

/-- The quotient is nearest up to a remainder of half the denominator, and its successor from there on. -/
theorem nearest_of_remainder {rest : Nat} (hden : 0 < r.den) (h : r.den * n + rest = r.num) :
    (2 * rest ≤ r.den → Nearest n r.toRat)
      ∧ (rest ≤ r.den → r.den ≤ 2 * rest → Nearest (n + 1) r.toRat) := by
  rw [nearest_toRat_iff hden, nearest_toRat_iff hden]
  refine ⟨fun hsmall => ?_, fun hrest hlarge => ?_⟩ <;> constructor <;> nlinarith

/-- So does rounding with halves to even. -/
theorem nearest_roundHalfEven (hden : 0 < r.den) : Nearest r.roundHalfEven r.toRat := by
  obtain ⟨hbelow, habove⟩ := nearest_of_remainder hden (Nat.div_add_mod r.num r.den)
  have hrest := (Nat.mod_lt r.num hden).le
  simp only [Ratio.roundHalfEven]
  -- The remainder is less than half, or more, or just half, and then either neighbour is nearest.
  split
  · exact hbelow (by omega)
  · split
    · exact habove hrest (by omega)
    · split
      · exact hbelow (by omega)
      · exact habove hrest (by omega)

/-! ## §3 The first bit -/

/-- A number is below the power of two that its length gives. -/
theorem lt_two_pow_bitLength (n : Nat) : n < 2 ^ bitLength n := by
  unfold bitLength
  split
  · next h => simp [h]
  · exact Nat.lt_log2_self

theorem bitLength_pos (hn : 0 < n) : 0 < bitLength n := by
  rw [bitLength, if_neg hn.ne']
  exact Nat.succ_pos _

theorem two_pow_le_of_bitLength (hn : 0 < n) : 2 ^ bitLength n ≤ 2 * n := by
  rw [bitLength, if_neg hn.ne', Nat.pow_succ']
  exact Nat.mul_le_mul_left _ (Nat.log2_self_le hn.ne')

/-- A ratio lies between powers of two that the lengths of its numbers give. -/
theorem toRat_bounds (h : r.Positive) :
    (2 : Rat) ^ ((bitLength r.num : Int) - bitLength r.den - 1) ≤ r.toRat
      ∧ r.toRat < (2 : Rat) ^ ((bitLength r.num : Int) - bitLength r.den + 1) := by
  have hnum : (0 : Rat) < r.num := by exact_mod_cast h.num
  have hden : (0 : Rat) < r.den := by exact_mod_cast h.den
  have hnumLow : (2 : Rat) ^ bitLength r.num ≤ 2 * r.num := by
    exact_mod_cast two_pow_le_of_bitLength h.num
  have hnumHigh : (r.num : Rat) < 2 ^ bitLength r.num := by exact_mod_cast lt_two_pow_bitLength r.num
  have hdenLow : (2 : Rat) ^ bitLength r.den ≤ 2 * r.den := by
    exact_mod_cast two_pow_le_of_bitLength h.den
  have hdenHigh : (r.den : Rat) < 2 ^ bitLength r.den := by exact_mod_cast lt_two_pow_bitLength r.den
  have htwo : (2 : Rat) ≠ 0 := by norm_num
  constructor
  · rw [zpow_sub₀ htwo, zpow_sub₀ htwo, zpow_natCast, zpow_natCast, zpow_one, div_div,
      div_le_iff₀ (by positivity), Ratio.toRat, div_mul_eq_mul_div, le_div_iff₀ hden]
    calc (2 : Rat) ^ bitLength r.num * r.den ≤ 2 * r.num * 2 ^ bitLength r.den := by gcongr
      _ = r.num * (2 ^ bitLength r.den * 2) := by ring
  · rw [zpow_add₀ htwo, zpow_sub₀ htwo, zpow_natCast, zpow_natCast, zpow_one, Ratio.toRat,
      div_mul_eq_mul_div, div_lt_div_iff₀ hden (by positivity)]
    calc (r.num : Rat) * 2 ^ bitLength r.den < 2 ^ bitLength r.num * 2 ^ bitLength r.den := by gcongr
      _ ≤ 2 ^ bitLength r.num * (2 * r.den) := by gcongr
      _ = 2 ^ bitLength r.num * 2 * r.den := by ring

/-- The first bit of a ratio. -/
theorem binade_spec (h : r.Positive) :
    (2 : Rat) ^ binade r ≤ r.toRat ∧ r.toRat < (2 : Rat) ^ (binade r + 1) := by
  obtain ⟨hlow, hhigh⟩ := toRat_bounds h
  have hreached := Ratio.reached_iff (by decide : 0 < 2) h.den
    ((bitLength r.num : Int) - bitLength r.den)
  simp only [binade]
  -- Of the two powers of two that are left, the ratio reaches the higher one or not.
  by_cases hpower : (2 : Rat) ^ ((bitLength r.num : Int) - bitLength r.den) ≤ r.toRat
  · rw [if_pos (hreached.mpr hpower)]
    exact ⟨hpower, hhigh⟩
  · rw [if_neg fun hyes => hpower (hreached.mp hyes), sub_add_cancel]
    exact ⟨hlow, not_le.mp hpower⟩

/-! ## §4 The first digit -/

theorem tenPow_mono {d e : Int} (h : d ≤ e) : (10 : Rat) ^ d ≤ 10 ^ e :=
  zpow_le_zpow_right₀ (by norm_num) h

/-- The climb ends at the last power that is reached, if there are steps enough. By induction on the steps,
with the power from which the climb starts generalized. -/
theorem climb_spec {steps : Nat} (hden : 0 < r.den) (hlow : (10 : Rat) ^ e ≤ r.toRat)
    (hhigh : r.toRat < (10 : Rat) ^ (e + steps + 1)) :
    (10 : Rat) ^ climb r steps e ≤ r.toRat ∧ r.toRat < (10 : Rat) ^ (climb r steps e + 1) := by
  induction steps generalizing e with
  | zero =>
    rw [Nat.cast_zero, add_zero] at hhigh
    exact ⟨hlow, hhigh⟩
  | succ steps ih =>
    rw [climb]
    split
    · next hnext =>
      apply ih ((Ratio.reaches_iff hden (e + 1)).mp hnext)
      rwa [show e + 1 + steps + 1 = e + (steps + 1 : Nat) + 1 by push_cast; ring]
    · next hlast =>
      exact ⟨hlow, not_le.mp fun hle => hlast ((Ratio.reaches_iff hden (e + 1)).mpr hle)⟩

/-- Every ratio lies between the powers of ten that the lengths of its numbers give. -/
theorem tenPow_bounds (h : r.Positive) :
    (10 : Rat) ^ (-(bitLength r.den : Int)) ≤ r.toRat ∧ r.toRat < (10 : Rat) ^ (bitLength r.num : Int) := by
  have hnum : (1 : Rat) ≤ r.num := by exact_mod_cast h.num
  have hden : (1 : Rat) ≤ r.den := by exact_mod_cast h.den
  have hlength (n : Nat) : (n : Rat) < 10 ^ bitLength n := by
    have hlt := Nat.lt_of_lt_of_le (lt_two_pow_bitLength n)
      (Nat.pow_le_pow_left (by decide : 2 ≤ 10) (bitLength n))
    exact_mod_cast hlt
  have hpos : (0 : Rat) < r.den := by linarith
  rw [zpow_neg, zpow_natCast, zpow_natCast, Ratio.toRat]
  constructor
  · calc ((10 : Rat) ^ bitLength r.den)⁻¹ ≤ (r.den : Rat)⁻¹ := inv_anti₀ hpos (hlength r.den).le
      _ ≤ r.num / r.den := by rw [inv_eq_one_div]; gcongr
  · calc (r.num : Rat) / r.den ≤ r.num := div_le_self (by linarith) hden
      _ < 10 ^ bitLength r.num := hlength r.num

/-- The first digit of a ratio. -/
theorem decade_spec (h : r.Positive) :
    (10 : Rat) ^ decade r ≤ r.toRat ∧ r.toRat < (10 : Rat) ^ (decade r + 1) := by
  obtain ⟨hlow, hhigh⟩ := tenPow_bounds h
  have hnum := bitLength_pos h.num
  have hden := bitLength_pos h.den
  simp only [decade]
  -- The climb starts from the estimate if that is reached, and from a sure bound if not; both are near
  -- enough.
  split
  · next hreached =>
    refine climb_spec h.den ((Ratio.reaches_iff h.den _).mp hreached) (hhigh.trans_le (tenPow_mono ?_))
    push_cast
    omega
  · refine climb_spec h.den hlow (hhigh.trans_le (tenPow_mono ?_))
    push_cast
    omega

/-! ## §5 Digits and bits -/

/-- An upper bound of the power of ten whose exponent is `2 ^ steps`, as a number to be multiplied by a power
of two: each square is cut to its first bits and rounded up. -/
def tenSquares : Nat → Nat × Nat
  | 0 => (10, 0)
  | steps + 1 =>
    let (factor, bits) := tenSquares steps
    let dropped := (factor * factor).log2 - 80
    ((factor * factor + (2 ^ dropped - 1)) / 2 ^ dropped, 2 * bits + dropped)

/-- Each square is bounded, and cutting it rounds up. -/
theorem tenPow_le_tenSquares (steps : Nat) :
    10 ^ 2 ^ steps ≤ (tenSquares steps).1 * 2 ^ (tenSquares steps).2 := by
  induction steps with
  | zero => decide
  | succ steps ih =>
    rw [tenSquares]
    generalize tenSquares steps = square at ih
    obtain ⟨factor, bits⟩ := square
    simp only
    generalize (factor * factor).log2 - 80 = dropped
    -- What is dropped is made up for by rounding up.
    have hcut : factor * factor
        ≤ (factor * factor + (2 ^ dropped - 1)) / 2 ^ dropped * 2 ^ dropped := by
      have hlt := Nat.lt_div_mul_add (a := factor * factor + (2 ^ dropped - 1)) (Nat.two_pow_pos dropped)
      omega
    calc 10 ^ 2 ^ (steps + 1) = 10 ^ 2 ^ steps * 10 ^ 2 ^ steps := by
          rw [Nat.pow_succ, Nat.mul_two, Nat.pow_add]
      _ ≤ factor * 2 ^ bits * (factor * 2 ^ bits) := Nat.mul_le_mul ih ih
      _ = factor * factor * 2 ^ (2 * bits) := by rw [Nat.two_mul, Nat.pow_add]; ring
      _ ≤ (factor * factor + (2 ^ dropped - 1)) / 2 ^ dropped * 2 ^ dropped * 2 ^ (2 * bits) :=
        Nat.mul_le_mul_right _ hcut
      _ = (factor * factor + (2 ^ dropped - 1)) / 2 ^ dropped * 2 ^ (2 * bits + dropped) := by
        rw [Nat.pow_add]; ring

/-- A power of ten and a power of two above it, with no more bits for each digit than are counted. -/
theorem exists_tenPow_le_twoPow : ∃ digits bits, 0 < digits ∧ 10 ^ digits ≤ 2 ^ bits
    ∧ bits * 10 ^ 16 ≤ digits * 33219280948873626 := by
  refine ⟨2 ^ 54, (tenSquares 54).2 + ((tenSquares 54).1.log2 + 1), by decide, ?_, by decide +kernel⟩
  calc 10 ^ 2 ^ 54 ≤ (tenSquares 54).1 * 2 ^ (tenSquares 54).2 := tenPow_le_tenSquares 54
    _ ≤ 2 ^ ((tenSquares 54).1.log2 + 1) * 2 ^ (tenSquares 54).2 :=
      Nat.mul_le_mul_right _ Nat.lt_log2_self.le
    _ = _ := by rw [← Nat.pow_add, Nat.add_comm]

/-- As many bits as are counted hold a number of digits. -/
theorem tenPow_le_twoPow {digits bits : Nat} (h : digits * 33219280948873626 ≤ bits * 10 ^ 16) :
    10 ^ digits ≤ 2 ^ bits := by
  obtain ⟨many, enough, hmany, hpow, hratio⟩ := exists_tenPow_le_twoPow
  -- Both sides are compared after they have been raised to the large power.
  have hbits : enough * digits ≤ bits * many := by
    apply Nat.le_of_mul_le_mul_right _ (by decide : 0 < 10 ^ 16)
    calc enough * digits * 10 ^ 16 = enough * 10 ^ 16 * digits := by ring
      _ ≤ many * 33219280948873626 * digits := Nat.mul_le_mul_right _ hratio
      _ = many * (digits * 33219280948873626) := by ring
      _ ≤ many * (bits * 10 ^ 16) := Nat.mul_le_mul_left _ h
      _ = bits * many * 10 ^ 16 := by ring
  rw [← Nat.pow_le_pow_iff_left hmany.ne']
  calc (10 ^ digits) ^ many = (10 ^ many) ^ digits := Nat.pow_right_comm ..
    _ ≤ (2 ^ enough) ^ digits := Nat.pow_le_pow_left hpow _
    _ = 2 ^ (enough * digits) := (Nat.pow_mul ..).symm
    _ ≤ 2 ^ (bits * many) := Nat.pow_le_pow_right (by decide) hbits
    _ = (2 ^ bits) ^ many := Nat.pow_mul ..

end Reckoner.Decimal
