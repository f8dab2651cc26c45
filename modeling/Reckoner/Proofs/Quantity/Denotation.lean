import Mathlib.Analysis.SpecialFunctions.Pow.Real
import Mathlib.Analysis.SpecialFunctions.Trigonometric.Arctan
import Mathlib.Analysis.SpecialFunctions.Trigonometric.Inverse
import Reckoner.Quantity.Sum

/-!
# The real numbers that quantities denote

A quantity is a form, and equality of quantities is equality of forms. `toReal` says which real number a
form stands for. Collecting like terms does not change that number, so sums and differences of quantities
are exact, whatever the quantities are.

- `eq_of_order_eq`: forms that the order does not tell apart are the same, so only like terms are collected;
- `LinearForm.toReal`: what a linear form stands for, with a lemma for each step of collecting;
- `toReal_add`, `toReal_negate` and `toReal_subtract`: the operations on forms are those on real numbers.
-/

namespace Reckoner

/-! ## §1 Denotation -/

/-- The real function that an elementary function stands for. -/
noncomputable def ElementaryFunction.toReal : ElementaryFunction → ℝ → ℝ
  | .exp => Real.exp
  | .log => Real.log
  | .sin => Real.sin
  | .cos => Real.cos
  | .asin => Real.arcsin
  | .acos => Real.arccos
  | .atan => Real.arctan

namespace Quantity

/-- The real number that a quantity stands for. -/
noncomputable def toReal : Quantity → ℝ
  | .rational q => q
  | .pi => Real.pi
  | .euler => Real.exp 1
  | .sum a b => a.toReal + b.toReal
  | .product a b => a.toReal * b.toReal
  | .power a b => a.toReal ^ b.toReal
  | .apply f x => f.toReal x.toReal

theorem toReal_rational (q : Rat) : toReal (.rational q) = q := rfl

theorem toReal_zero : toReal 0 = 0 :=
  (toReal_rational _).trans (by norm_num)

theorem toReal_one : toReal 1 = 1 :=
  (toReal_rational _).trans (by norm_num)

/-- A form read as a sum stands for the sum of its terms. -/
theorem sum_terms (x : Quantity) : (x.terms.map toReal).sum = x.toReal := by
  induction x with
  | sum a b iha ihb => rw [terms, List.map_append, List.sum_append, iha, ihb, toReal]
  | _ => exact List.sum_singleton

/-- A form put together of terms stands for their sum. By induction on the terms. -/
theorem toReal_ofTerms (xs : List Quantity) : (ofTerms xs).toReal = (xs.map toReal).sum := by
  induction xs with
  | nil => exact toReal_zero
  | cons x xs ih =>
    cases xs with
    | nil => exact List.sum_singleton.symm
    | cons y ys =>
      have hsum : ofTerms (x :: y :: ys) = .sum x (ofTerms (y :: ys)) := rfl
      rw [hsum, toReal, ih]
      exact List.sum_cons.symm

/-! ## §2 The order of forms -/

/-- The order tells rationals apart. -/
theorem eq_of_orderRat_eq {p q : Rat} (h : orderRat p q = .eq) : p = q := by
  unfold orderRat at h
  split at h
  · cases h
  · split at h
    · assumption
    · cases h

theorem eq_of_functionRank_eq {f g : ElementaryFunction}
    (h : compare (functionRank f) (functionRank g) = .eq) : f = g := by
  have hrank := Nat.compare_eq_eq.mp h
  cases f <;> cases g <;> first | rfl | cases hrank

/-- Forms that the order does not tell apart are the same. By induction on the form. -/
theorem eq_of_order_eq {x y : Quantity} (h : order x y = .eq) : x = y := by
  induction x generalizing y with
  | rational p =>
    cases y with
    | rational q => exact congrArg _ (eq_of_orderRat_eq h)
    | _ => cases h
  | pi => cases y <;> first | rfl | cases h
  | euler => cases y <;> first | rfl | cases h
  | sum a b iha ihb =>
    cases y with
    | sum c d =>
      -- The first parts are compared before the second ones, so both are equal.
      obtain ⟨hac, hbd⟩ := Ordering.then_eq_eq.mp h
      rw [iha hac, ihb hbd]
    | _ => cases h
  | product a b iha ihb =>
    cases y with
    | product c d =>
      obtain ⟨hac, hbd⟩ := Ordering.then_eq_eq.mp h
      rw [iha hac, ihb hbd]
    | _ => cases h
  | power a b iha ihb =>
    cases y with
    | power c d =>
      obtain ⟨hac, hbd⟩ := Ordering.then_eq_eq.mp h
      rw [iha hac, ihb hbd]
    | _ => cases h
  | apply f x ih =>
    cases y with
    | apply g y =>
      obtain ⟨hfg, hxy⟩ := Ordering.then_eq_eq.mp h
      rw [eq_of_functionRank_eq hfg, ih hxy]
    | _ => cases h

/-! ## §3 Coefficients -/

/-- Powers of rationals are what they are as real numbers. -/
theorem cast_ratPow (b : Rat) (n : Int) : ((ratPow b n : Rat) : ℝ) = (b : ℝ) ^ n := by
  unfold ratPow
  split
  · next hn =>
    obtain ⟨k, rfl⟩ := Int.eq_ofNat_of_zero_le hn
    rw [Int.toNat_natCast, Rat.cast_pow, zpow_natCast]
  · next hn =>
    -- A negative power is the inverse of a positive one.
    obtain ⟨k, hk⟩ := Int.eq_ofNat_of_zero_le (a := -n) (by omega)
    obtain rfl : n = -k := by omega
    rw [neg_neg, Int.toNat_natCast, Rat.cast_inv, Rat.cast_pow, zpow_neg, zpow_natCast]

/-- Working out a power that was left unexpanded. -/
theorem toReal_expand (x : Quantity) : x.expand.toReal = x.toReal := by
  unfold expand
  split
  · next b e =>
    split
    · next he =>
      -- An exponent with denominator one is its numerator, and real powers with an integer are what they
      -- seem.
      have hcast : (e : ℝ) = ((e.num : Int) : ℝ) := by
        rw [← Rat.coe_int_num_of_den_eq_one he]
        exact Rat.cast_intCast _
      rw [toReal_rational, cast_ratPow, toReal, toReal_rational, toReal_rational, hcast,
        Real.rpow_intCast]
    · rfl
  · rfl

/-- A coefficient times what it is taken from is the term. -/
theorem toReal_splitCoefficient (x : Quantity) :
    (x.splitCoefficient.1 : ℝ) * x.splitCoefficient.2.toReal = x.toReal := by
  unfold splitCoefficient
  split
  · rw [toReal_one, mul_one, toReal_rational]
  · rw [toReal, toReal_rational]
  · rw [Rat.cast_one, one_mul]

/-- A term with a coefficient stands for their product. -/
theorem toReal_withCoefficient (c : Rat) (x : Quantity) :
    (withCoefficient c x).toReal = c * x.toReal := by
  unfold withCoefficient
  split
  · next hc => rw [hc, Rat.cast_one, one_mul]
  · split
    · next hx => rw [hx, toReal_one, mul_one, toReal_rational]
    · rw [toReal, toReal_rational]

/-! ## §4 Linear forms -/

namespace LinearForm

/-- The real number that terms with coefficients stand for. -/
noncomputable def total (ts : List (Quantity × Rat)) : ℝ :=
  (ts.map fun t => (t.2 : ℝ) * t.1.toReal).sum

theorem total_cons (x : Quantity) (c : Rat) (ts : List (Quantity × Rat)) :
    total ((x, c) :: ts) = c * x.toReal + total ts := List.sum_cons

/-- The real number that a linear form stands for. -/
noncomputable def toReal (s : LinearForm) : ℝ :=
  s.constant + total s.terms

/-- Inserting a term adds it, whether there is a like one or not. By induction on the terms. -/
theorem total_insert (x : Quantity) (c : Rat) (ts : List (Quantity × Rat)) :
    total (insert x c ts) = c * x.toReal + total ts := by
  induction ts with
  | nil => rfl
  | cons t rest ih =>
    obtain ⟨y, d⟩ := t
    unfold insert
    split
    · rw [total_cons]
    · next hxy =>
      -- The order finds a like term, so the coefficients may be added.
      obtain rfl := eq_of_order_eq hxy
      rw [total_cons, total_cons, Rat.cast_add]
      ring
    · rw [total_cons, total_cons, ih]
      ring

/-- Adding a term to a linear form adds what it stands for. -/
theorem toReal_addTerm (s : LinearForm) (t : Quantity) :
    (s.addTerm t).toReal = s.toReal + t.toReal := by
  rw [← toReal_expand t]
  unfold addTerm
  -- A rational goes into the constant, and every other term among the like ones.
  split
  · next q hq =>
    rw [hq, toReal_rational, toReal, toReal, Rat.cast_add]
    ring
  · rw [← toReal_splitCoefficient t.expand, toReal, toReal, total_insert]
    ring

/-- Collecting terms keeps their sum. By induction on the terms. -/
theorem toReal_ofTerms (ts : List Quantity) :
    (ofTerms ts).toReal = (ts.map Quantity.toReal).sum := by
  have hfold (s : LinearForm) :
      (ts.foldl addTerm s).toReal = s.toReal + (ts.map Quantity.toReal).sum := by
    induction ts generalizing s with
    | nil => exact (add_zero _).symm
    | cons t ts ih => rw [List.foldl_cons, ih, toReal_addTerm, List.map_cons, List.sum_cons, add_assoc]
  have hzero : toReal ⟨0, []⟩ = 0 := by simp [toReal, total]
  rw [ofTerms, hfold, hzero, zero_add]

/-- Terms with coefficient zero can be left out. -/
theorem sum_kept (ts : List (Quantity × Rat)) :
    (((ts.filter (·.2 ≠ 0)).map fun (x, c) => withCoefficient c x).map Quantity.toReal).sum
      = total ts := by
  induction ts with
  | nil => rfl
  | cons t ts ih =>
    obtain ⟨x, c⟩ := t
    rw [total_cons, ← ih]
    by_cases hc : c = 0
    · simp [hc]
    · simp [hc, toReal_withCoefficient]

/-- A linear form is written as what it stands for. -/
theorem toReal_toQuantity (s : LinearForm) : s.toQuantity.toReal = s.toReal := by
  unfold toQuantity
  rw [Quantity.toReal_ofTerms, toReal]
  split
  -- A constant that is zero is left out.
  · next hconstant => rw [sum_kept, hconstant, Rat.cast_zero, zero_add]
  · rw [List.map_cons, List.sum_cons, sum_kept, toReal_rational]

end LinearForm

/-! ## §5 Sums and differences -/

/-- What is collected of several forms stands for their sum. -/
theorem toReal_addAll (xs : List Quantity) : (addAll xs).toReal = (xs.map toReal).sum := by
  rw [addAll, LinearForm.toReal_toQuantity, LinearForm.toReal_ofTerms]
  induction xs with
  | nil => rfl
  | cons x xs ih =>
    rw [List.flatMap_cons, List.map_append, List.sum_append, sum_terms, ih, List.map_cons,
      List.sum_cons]

/-- Addition is exact. -/
theorem toReal_add (x y : Quantity) : (x.add y).toReal = x.toReal + y.toReal := by
  unfold add
  split
  · exact Rat.cast_add _ _
  · split
    · next hx => rw [hx, toReal_zero, zero_add]
    · split
      · next hy => rw [hy, toReal_zero, add_zero]
      · rw [toReal_addAll]
        simp only [List.map_cons, List.map_nil, List.sum_cons, List.sum_nil, add_zero]

/-- Scaling by a rational is exact. -/
theorem toReal_scale (c : Rat) (x : Quantity) : (scale c x).toReal = c * x.toReal := by
  unfold scale
  split
  · next hc => rw [hc, toReal_zero, Rat.cast_zero, zero_mul]
  · split
    · next hc => rw [hc, Rat.cast_one, one_mul]
    · rw [toReal_ofTerms, ← sum_terms x, ← List.sum_map_mul_left, List.map_map]
      congr 1
      -- Each term is scaled by its coefficient, after its powers have been worked out.
      refine List.map_congr_left fun t _ => ?_
      rw [Function.comp_apply, ← toReal_expand t]
      split
      · next q hq => rw [hq, toReal_rational, toReal_rational, Rat.cast_mul]
      · rw [toReal_withCoefficient, Rat.cast_mul, mul_assoc, toReal_splitCoefficient]

theorem toReal_negate (x : Quantity) : x.negate.toReal = -x.toReal := by
  rw [negate, toReal_scale, Rat.cast_neg, Rat.cast_one, neg_one_mul]

/-- Subtraction is exact. -/
theorem toReal_subtract (x y : Quantity) : (x.subtract y).toReal = x.toReal - y.toReal := by
  unfold subtract
  split
  · exact Rat.cast_sub _ _
  · split
    · next hy => rw [hy, toReal_zero, sub_zero]
    · rw [toReal_add, toReal_negate, sub_eq_add_neg]

/-- Rationals are negated as numbers. -/
theorem negate_rational (q : Rat) : negate (.rational q) = .rational (-q) := by
  have hvalue : negate (.rational q) = .rational (-1 * q) := rfl
  rw [hvalue, neg_one_mul]

end Quantity

end Reckoner
