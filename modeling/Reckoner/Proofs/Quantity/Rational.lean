import Mathlib.Data.List.Induction
import Reckoner.Evaluation.Grammar
import Reckoner.Proofs.Literal
import Reckoner.Proofs.Quantity.Denotation

/-!
# Arithmetic of rationals

The field operations on quantities that are rational numbers are those of the field of rationals, and so are
powers with an integer exponent as long as these are expanded. Signs of rationals are known, so whether a
divisor is zero is never a matter of tolerance. The value of a literal is the rational that it denotes.
-/

namespace Reckoner

namespace Quantity

/-! ## §1 Field operations -/

theorem toRat?_eq_some_iff {x : Quantity} {q : Rat} : x.toRat? = some q ↔ x = .rational q := by
  cases x with
  | rational p => simp only [toRat?, Option.some.injEq, Quantity.rational.injEq]
  | _ => exact ⟨nofun, nofun⟩

theorem add_rational (p q : Rat) : add (.rational p) (.rational q) = .rational (p + q) := rfl

theorem subtract_rational (p q : Rat) : subtract (.rational p) (.rational q) = .rational (p - q) := rfl

theorem multiply_rational (p q : Rat) : multiply (.rational p) (.rational q) = .rational (p * q) := rfl

theorem signum_rational (q : Rat) : (Quantity.rational q).signum = q.num.sign := rfl

theorem signum_rational_eq_zero_iff {q : Rat} : (Quantity.rational q).signum = 0 ↔ q = 0 := by
  rw [signum_rational, Int.sign_eq_zero_iff_zero, Rat.num_eq_zero]

theorem isZero_rational_iff {q : Rat} : (Quantity.rational q).isZero = true ↔ q = 0 := by
  simp only [isZero, knownSign?, decide_eq_true_eq, Option.some.injEq, Int.sign_eq_zero_iff_zero,
    Rat.num_eq_zero]

/-- Rationals are divided as numbers, but by zero. -/
theorem divide_rational (p q : Rat) : divide (.rational p) (.rational q)
    = if q = 0 then .error .divisionByZero else .ok (.rational (p / q)) := by
  unfold divide
  simp only [signum_rational_eq_zero_iff]
  rfl

/-! ## §2 Powers -/

/-- Powers of rationals are those of the field. -/
theorem ratPow_eq_zpow (b : Rat) (n : Int) : ratPow b n = b ^ n := by
  -- As real numbers both are the same power.
  have hcast : ((ratPow b n : Rat) : ℝ) = ((b ^ n : Rat) : ℝ) := by
    rw [cast_ratPow, Rat.cast_zpow]
  exact Rat.cast_injective hcast

/-- A rational exponent is no quotient by a logarithm. -/
theorem naturalExponent_rational (b : Quantity) (q : Rat) : naturalExponent? b (.rational q) = none := rfl

/-- A rational with an integer exponent is raised to it. -/
theorem raise_rational (p : Rat) (n : Int) : raise (.rational p) (.rational n) = .rational (p ^ n) := by
  -- The steps are counted by the sizes of both forms, which are one each.
  have hsteps : (Quantity.rational p).size + (Quantity.rational n).size + 8 = 9 + 1 := rfl
  rw [raise, hsteps, powerSteps]
  split
  · next hzero =>
    have hn : n = 0 := Int.cast_eq_zero.mp (Quantity.rational.inj hzero)
    rw [hn, zpow_zero]
    rfl
  · split
    · next hone =>
      have hn : n = 1 := Int.cast_eq_one.mp (Quantity.rational.inj hone)
      rw [hn, zpow_one]
    · rw [if_neg nofun, naturalExponent_rational]
      simp only [rationalPower, Rat.den_intCast, Rat.num_intCast, if_true, ratPow_eq_zpow]

/-- A rational to the power of an integer that is expanded. Zero to the power zero is one. -/
theorem pow_rational (p : Rat) {n : Int} (hn : n.natAbs ≤ largestExpandedExponent) :
    pow (.rational p) (.rational n)
      = if p = 0 ∧ n < 0 then .error .divisionByZero else .ok (.rational (p ^ n)) := by
  have hsign : (Quantity.rational n).signum = n.sign := by rw [signum_rational, Rat.num_intCast]
  unfold pow
  -- An exponent of zero is asked for before the base is, so zero to the power zero is one.
  by_cases hzero : n = 0
  · have hexponent : (Quantity.rational n).isZero = true :=
      isZero_rational_iff.mpr (Int.cast_eq_zero.mpr hzero)
    have hnegative : ¬(p = 0 ∧ n < 0) := by omega
    rw [if_pos hexponent, if_neg hnegative, hzero, zpow_zero]
    rfl
  · have hexponent : ¬(Quantity.rational n).isZero = true :=
      fun h => hzero (Int.cast_eq_zero.mp (isZero_rational_iff.mp h))
    rw [if_neg hexponent]
    simp only [signum_rational_eq_zero_iff, hsign]
    -- With a base of zero it is the sign of the exponent that decides.
    by_cases hp : p = 0
    · subst hp
      simp only [if_true, true_and, Int.sign_neg_iff, zero_zpow n hzero]
      rfl
    · have hinteger : (Quantity.rational n).isInteger = true := by
        simp only [isInteger, Rat.den_intCast, decide_true]
      have hint : (Quantity.rational n).toInt? = some n := by
        simp only [toInt?, Rat.den_intCast, if_true, Rat.num_intCast]
      simp only [hp, if_false, false_and, hinteger, if_true, hint, if_neg (Nat.not_lt.mpr hn),
        raise_rational]

end Quantity

/-! ## §3 Percentages -/

namespace Evaluation

open Quantity (negate negate_rational)

theorem percent_rational (q : Rat) : percent (.rational q) = .rational (q / 100) := by
  have hpercent : percent (.rational q) = .rational (q * mkRat 1 100) := rfl
  rw [hpercent, Rat.mkRat_eq_div, ← mul_div_assoc]
  norm_num

/-- The factor of a percentage of a rational is exact. -/
theorem percentageFactor_rational (subtracted : Bool) (q : Rat) :
    percentageFactor subtracted (.rational q)
      = .rational (1 + (if subtracted then -q else q) / 100) := by
  have hsign : (if subtracted then negate (.rational q) else .rational q)
      = .rational (if subtracted then -q else q) := by
    rw [negate_rational]
    cases subtracted <;> rfl
  rw [percentageFactor, hsign, percent_rational]
  rfl

end Evaluation

/-! ## §4 Literals -/

namespace Text

/-- Digits behind others move these up. -/
theorem ofDigits_append (ds es : List Nat) :
    ofDigits (ds ++ es) = ofDigits ds * 10 ^ es.length + ofDigits es := by
  induction es using List.reverseRecOn with
  | nil => simp [ofDigits]
  | append_singleton es e ih =>
    have hlast (fs : List Nat) : ofDigits (fs ++ [e]) = 10 * ofDigits fs + e := by
      rw [ofDigits, List.foldl_append, List.foldl_cons, List.foldl_nil]
      rfl
    rw [← List.append_assoc, hlast, hlast, ih, List.length_append, List.length_singleton, Nat.pow_succ]
    ring

theorem natOfDigits_append (s t : String) :
    natOfDigits (s ++ t) = natOfDigits s * 10 ^ t.length + natOfDigits t := by
  simp only [natOfDigits, String.toList_append, List.map_append, ofDigits_append, List.length_map,
    String.length_toList]

end Text

namespace Literal

/-- The rational number that a literal denotes in decimal notation. -/
def denoted (l : Literal) : Rat :=
  (Text.natOfDigits l.whole + Text.natOfDigits l.fraction / 10 ^ l.fraction.length) * 10 ^ l.exponent

/-- All digits as one integer: the whole digits are moved up by those of the fraction. -/
theorem natOfDigits_digits (l : Literal) : Text.natOfDigits l.digits
    = Text.natOfDigits l.whole * 10 ^ l.fraction.length + Text.natOfDigits l.fraction := by
  rw [digits, Text.natOfDigits_append]
  split
  -- The zero that stands for missing whole digits adds nothing.
  · next hwhole =>
    rw [String.isEmpty_iff.mp hwhole]
    rfl
  · rfl

/-- A literal is the rational that it denotes. -/
theorem scaled_eq (l : Literal) : l.scaled = .rational l.denoted := by
  have hten : (10 : Rat) ≠ 0 := by norm_num
  unfold scaled Quantity.ofRatio
  rw [Rat.mkRat_eq_div, natOfDigits_digits, denoted]
  congr 1
  -- The exponent goes into the denominator, or into the numerator, or into neither.
  rcases Int.lt_trichotomy l.exponent 0 with hneg | hzero | hpos
  · obtain ⟨k, hk⟩ : ∃ k : Nat, l.exponent = -k := ⟨l.exponent.natAbs, by omega⟩
    rw [if_neg (by omega), if_pos hneg, hk, neg_neg, Int.toNat_natCast, zpow_neg, zpow_natCast]
    push_cast
    field_simp
  · rw [if_neg (by omega), if_neg (by omega), hzero, zpow_zero]
    push_cast
    field_simp
  · obtain ⟨k, hk⟩ : ∃ k : Nat, l.exponent = k := ⟨l.exponent.natAbs, by omega⟩
    rw [if_pos hpos, if_neg (by omega), hk, Int.toNat_natCast, zpow_natCast]
    push_cast
    field_simp

end Literal

end Reckoner
