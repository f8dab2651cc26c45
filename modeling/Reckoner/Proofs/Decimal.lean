import Mathlib.Data.Nat.GCD.Basic
import Mathlib.Data.Nat.Prime.Basic
import Mathlib.Data.Rat.Lemmas
import Reckoner.Proofs.Outcome
import Reckoner.Quantity.Text

/-!
# Which numbers are refused a text

The exact text of a rational is made of the digits of a whole number: the rational with its point moved to
the right, as far as it takes and no further. That number is converted to text before anything is said
about how many digits fit, and conversion takes only so many. The same holds of the exponent of an
approximate text.

- `divideOut_eq`: what is divided out of a number, and what is left;
- `dvd_tenPow_iff`: how far the point has to be moved, if it can be moved far enough at all;
- `exactDecimal_eq_error_iff`: exact texts are refused to decimal fractions with too many digits, and to
  nothing else;
- `Quantity.approximateText?_eq_error_iff` and `Quantity.shortText_eq_error_iff`: which quantities have no
  approximate text, and which have no short one.
-/

namespace Reckoner

namespace Decimal

/-! ## §1 Twos and fives -/

/-- A number is what was divided out of it times what is left, and there the factor does not go into any
more. By induction on the fuel, of which there has to be one for every halving. -/
theorem divideOut_eq {p : Nat} (hp : 1 < p) {fuel n : Nat} (hn : 0 < n) (hfuel : n < 2 ^ (fuel + 1)) :
    n = p ^ (divideOut p fuel n).1 * (divideOut p fuel n).2 ∧ ¬p ∣ (divideOut p fuel n).2 := by
  induction fuel generalizing n with
  | zero =>
    obtain rfl : n = 1 := by omega
    exact ⟨by simp [divideOut], fun h => by have := Nat.le_of_dvd hn h; omega⟩
  | succ fuel ih =>
    -- The factor goes in once more, or this is where dividing ends.
    by_cases hmod : n % p = 0
    · have hquotient : p * (n / p) = n := Nat.mul_div_cancel' (Nat.dvd_of_mod_eq_zero hmod)
      have hpos : 0 < n / p := Nat.pos_of_ne_zero fun h => by
        rw [h, Nat.mul_zero] at hquotient
        omega
      have hless : n / p < 2 ^ (fuel + 1) := by
        refine Nat.div_lt_of_lt_mul (Nat.lt_of_lt_of_le hfuel ?_)
        rw [Nat.pow_succ']
        exact Nat.mul_le_mul_right _ hp
      obtain ⟨heq, hnot⟩ := ih hpos hless
      simp only [divideOut, hmod, if_true]
      refine ⟨?_, hnot⟩
      calc n = p * (n / p) := hquotient.symm
        _ = p * (p ^ (divideOut p fuel (n / p)).1 * (divideOut p fuel (n / p)).2) := by rw [← heq]
        _ = _ := by rw [Nat.pow_succ', Nat.mul_assoc]
    · simp only [divideOut, hmod, if_false]
      exact ⟨by simp, fun h => hmod (Nat.mod_eq_zero_of_dvd h)⟩

/-- A denominator is a product of twos, of fives, and of a number that shares no factor with ten. -/
theorem twosAndFives_eq {den : Nat} (hden : 0 < den) :
    den = 2 ^ (twosAndFives den).1 * (5 ^ (twosAndFives den).2.1 * (twosAndFives den).2.2)
      ∧ (twosAndFives den).2.2.Coprime 10 := by
  obtain ⟨htwos, hodd⟩ := divideOut_eq (p := 2) (by decide) hden Nat.lt_log2_self
  have hpos : 0 < (divideOut 2 den.log2 den).2 := Nat.pos_of_ne_zero fun h => hodd (by simp [h])
  obtain ⟨hfives, hrest⟩ := divideOut_eq (p := 5) (by decide) hpos Nat.lt_log2_self
  refine ⟨by rw [twosAndFives, ← hfives, ← htwos], ?_⟩
  have htwo : ¬2 ∣ (twosAndFives den).2.2 := fun h => hodd (by
    rw [hfives]
    exact Dvd.dvd.mul_left h _)
  rw [show 10 = 2 * 5 from rfl, Nat.coprime_mul_iff_right]
  exact ⟨((Nat.Prime.coprime_iff_not_dvd Nat.prime_two).mpr htwo).symm,
    ((Nat.Prime.coprime_iff_not_dvd Nat.prime_five).mpr hrest).symm⟩

/-- A denominator goes into a power of ten if it has no factors but twos and fives, and no more of either
than there are tens. -/
theorem dvd_tenPow_iff {den : Nat} (hden : 0 < den) (places : Nat) :
    den ∣ 10 ^ places ↔ (twosAndFives den).2.2 = 1
      ∧ max (twosAndFives den).1 (twosAndFives den).2.1 ≤ places := by
  obtain ⟨heq, hcoprime⟩ := twosAndFives_eq hden
  generalize (twosAndFives den).1 = twos at heq ⊢
  generalize (twosAndFives den).2.1 = fives at heq ⊢
  generalize (twosAndFives den).2.2 = rest at heq hcoprime ⊢
  subst heq
  -- The powers of two and of five in a power of ten can be counted apart.
  have hten : 10 ^ places = 2 ^ places * 5 ^ places := Nat.mul_pow 2 5 places
  have htwos (n : Nat) : 2 ^ n ∣ 10 ^ places ↔ n ≤ places := by
    have hcoprime : Nat.Coprime (2 ^ n) (5 ^ places) := Nat.Coprime.pow _ _ (by decide)
    rw [hten, hcoprime.dvd_mul_right, Nat.pow_dvd_pow_iff_le_right (by decide)]
  have hfives (n : Nat) : 5 ^ n ∣ 10 ^ places ↔ n ≤ places := by
    have hcoprime : Nat.Coprime (5 ^ n) (2 ^ places) := Nat.Coprime.pow _ _ (by decide)
    rw [hten, hcoprime.dvd_mul_left, Nat.pow_dvd_pow_iff_le_right (by decide)]
  constructor
  · intro h
    -- What shares no factor with ten goes into a power of it only if it is one.
    have hrest : rest ∣ 10 ^ places := (Dvd.intro_left _ (Nat.mul_assoc ..)).trans h
    refine ⟨(hcoprime.pow_right places).eq_one_of_dvd hrest, max_le ?_ ?_⟩
    · exact (htwos twos).mp ((Dvd.intro _ rfl).trans h)
    · exact (hfives fives).mp (((Dvd.intro _ rfl).trans (Dvd.intro_left _ rfl)).trans h)
  · rintro ⟨rfl, hle⟩
    rw [Nat.mul_one]
    exact Nat.Coprime.mul_dvd_of_dvd_of_dvd (Nat.Coprime.pow _ _ (by decide))
      ((htwos twos).mpr (Nat.max_le.mp hle).1) ((hfives fives).mpr (Nat.max_le.mp hle).2)

/-! ## §2 Moving the point -/

/-- Moving the point, with the denominator cleared. -/
theorem mul_tenPow_eq_iff (q : Rat) (places : Nat) (n : Int) :
    q * 10 ^ places = n ↔ q.num * 10 ^ places = n * q.den := by
  have hden : (q.den : Rat) ≠ 0 := Nat.cast_ne_zero.mpr q.den_ne_zero
  rw [← mul_left_inj' hden, mul_right_comm, Rat.mul_den_eq_num]
  exact_mod_cast Iff.rfl

theorem natAbs_mul_den {q : Rat} {places : Nat} {n : Int} (h : q * 10 ^ places = n) :
    n.natAbs * q.den = q.num.natAbs * 10 ^ places := by
  have hnatAbs := congrArg Int.natAbs ((mul_tenPow_eq_iff q places n).mp h)
  simpa [Int.natAbs_mul, Int.natAbs_pow] using hnatAbs.symm

/-- Moving the point of a rational gives a whole number if the denominator goes into the power of ten. -/
theorem exists_mul_tenPow_iff (q : Rat) (places : Nat) :
    (∃ n : Int, q * 10 ^ places = n) ↔ q.den ∣ 10 ^ places := by
  constructor
  · rintro ⟨n, hn⟩
    exact q.reduced.symm.dvd_of_dvd_mul_left (Dvd.intro_left _ (natAbs_mul_den hn))
  · rintro ⟨k, hk⟩
    refine ⟨q.num * k, (mul_tenPow_eq_iff q places _).mpr ?_⟩
    have htenPow : (10 : Int) ^ places = q.den * k := by exact_mod_cast hk
    rw [htenPow, mul_assoc, mul_comm (k : Int)]

/-- A rational that has more digits than conversion takes, written out with as many fraction digits as it
needs and without a point. -/
def Overlong (q : Rat) : Prop :=
  ∃ (places : Nat) (n : Int), q * 10 ^ places = n
    ∧ (∀ fewer < places, ∀ m : Int, q * 10 ^ fewer ≠ m) ∧ 10 ^ conversionLimit ≤ n.natAbs

/-- A whole number is overlong if it has too many digits. -/
theorem overlong_intCast (n : Int) : Overlong n ↔ 10 ^ conversionLimit ≤ n.natAbs := by
  constructor
  · rintro ⟨places, m, hm, hleast, hle⟩
    -- A whole number is one without moving the point.
    cases places with
    | zero =>
      obtain rfl : n = m := by simpa using hm
      exact hle
    | succ places => exact absurd (by simp) (hleast 0 (Nat.succ_pos places) n)
  · exact fun hle => ⟨0, n, by simp, fun _ h => absurd h (Nat.not_lt_zero _), hle⟩

theorem overlong_tenPow {n : Nat} (h : conversionLimit ≤ n) : Overlong ((10 ^ n : Int) : Rat) := by
  refine (overlong_intCast _).mpr ?_
  simp only [Int.natAbs_pow]
  exact Nat.pow_le_pow_right (by decide) h

/-! ## §3 Exact texts -/

/-- A number has more digits than the limit if it is no less than the power of ten. -/
theorem length_digitChars (n : Nat) :
    conversionLimit < (digitChars n).length ↔ 10 ^ conversionLimit ≤ n := by
  have hdigits : (Nat.toDigits 10 n).length ≤ conversionLimit ↔ n < 10 ^ conversionLimit :=
    Nat.length_toDigits_le_iff (by decide) (by decide)
  rw [digitChars, Nat.toString_eq_ofList_toDigits, String.toList_ofList]
  omega

/-- Its digits are refused then, and only then. -/
theorem digitChars?_eq_error_iff (n : Nat) :
    digitChars? n = .error .tooManyDigits ↔ 10 ^ conversionLimit ≤ n := by
  rw [digitChars?, ← length_digitChars]
  split
  · next hlong => exact iff_of_true rfl hlong
  · next hlong => exact iff_of_false nofun hlong

/-- What too many digits are comes down to the whole number that the exact text is made of. -/
theorem overlong_iff (q : Rat) : Overlong q ↔ (twosAndFives q.den).2.2 = 1
    ∧ 10 ^ conversionLimit ≤ q.num.natAbs
      * 10 ^ max (twosAndFives q.den).1 (twosAndFives q.den).2.1 / q.den := by
  have hdvd := dvd_tenPow_iff q.den_pos
  generalize max (twosAndFives q.den).1 (twosAndFives q.den).2.1 = least at hdvd ⊢
  have hscaled {n : Int} (hn : q * 10 ^ least = n) :
      q.num.natAbs * 10 ^ least / q.den = n.natAbs :=
    Nat.div_eq_of_eq_mul_left q.den_pos (natAbs_mul_den hn).symm
  constructor
  · rintro ⟨places, n, hn, hleast, hle⟩
    obtain ⟨hrest, hplaces⟩ := (hdvd places).mp ((exists_mul_tenPow_iff q places).mp ⟨n, hn⟩)
    -- The places that are needed are the least that suffice.
    obtain rfl : least = places := by
      refine (Nat.eq_or_lt_of_le hplaces).resolve_right fun hfewer => ?_
      obtain ⟨m, hm⟩ :=
        (exists_mul_tenPow_iff q least).mpr ((hdvd least).mpr ⟨hrest, Nat.le_refl least⟩)
      exact hleast least hfewer m hm
    exact ⟨hrest, Nat.le_trans hle (Nat.le_of_eq (hscaled hn).symm)⟩
  · rintro ⟨hrest, hle⟩
    obtain ⟨n, hn⟩ :=
      (exists_mul_tenPow_iff q least).mpr ((hdvd least).mpr ⟨hrest, Nat.le_refl least⟩)
    refine ⟨least, n, hn, fun fewer hfewer m hm => ?_, Nat.le_trans hle (Nat.le_of_eq (hscaled hn))⟩
    have hmore := ((hdvd fewer).mp ((exists_mul_tenPow_iff q fewer).mp ⟨m, hm⟩)).2
    exact absurd hmore (Nat.not_le_of_lt hfewer)

/-- The exact text of a rational is refused to decimal fractions with too many digits, whatever number of
digits is asked for. -/
theorem exactDecimal_eq_error_iff (q : Rat) (maxDigits : Nat) :
    exactDecimal q maxDigits = .error .tooManyDigits ↔ Overlong q := by
  -- Once the digits are there, nothing is refused any more.
  have hlater (c : Prop) [Decidable c] (text : String) :
      (if c then return none else return some text) ≠ Except.error ConversionError.tooManyDigits := by
    split <;> nofun
  rw [overlong_iff]
  by_cases hrest : (twosAndFives q.den).2.2 = 1
  · simp only [exactDecimal, hrest, ne_eq, not_true, if_false, bind_error_iff, hlater, and_false,
      exists_false, or_false, digitChars?_eq_error_iff, true_and]
  · simp only [exactDecimal, ne_eq, hrest, not_false_eq_true, if_true, false_and]
    exact iff_of_false nofun id

end Decimal

namespace Quantity

open Reckoner.Decimal

/-- The exponents of a quantity that is written with `n` digits have too many digits, those of what is known
of it or those of what is shown; or they are out of reach. -/
def HasLongExponent (x : Quantity) (n : Nat) : Prop :=
  x.isOversized = true ∨ (x.known n).isWritable n = false

/-- An approximate text is refused for its exponent, and for nothing else. -/
theorem approximateText?_eq_error_iff (x : Quantity) (n : Nat) :
    x.approximateText? n = .error .tooManyDigits ↔ x.HasLongExponent n := by
  unfold approximateText? HasLongExponent
  split
  case isTrue h => exact iff_of_true rfl (by simpa using h)
  case isFalse h => exact iff_of_false nofun (by simpa using h)

theorem approximateText?_of_not_hasLongExponent {x : Quantity} {n : Nat} (h : ¬x.HasLongExponent n) :
    x.approximateText? n = .ok (x.approximateText n) := by
  unfold approximateText? HasLongExponent at *
  rw [if_neg (by simpa using h)]

/-- An approximate text that is not refused is the text of what is known. -/
theorem eq_of_approximateText? {x : Quantity} {n : Nat} {t : String} (h : x.approximateText? n = .ok t) :
    t = x.approximateText n := by
  unfold approximateText? at h
  split at h
  · cases h
  · exact (Except.ok.inj h).symm

/-- Quantities without a short text of `n` digits: a decimal fraction with too many digits, and what has no
exact text that fits and an exponent with too many digits. -/
def LacksShortText (x : Quantity) (n : Nat) : Prop :=
  (∃ q, x.toRat? = some q ∧ Overlong q)
    ∨ (∀ q, x.toRat? = some q → exactDecimal q n = .ok none) ∧ x.HasLongExponent n

/-- A short text is refused where it is an exact one that is refused, or an approximate one. -/
theorem shortText_eq_error_iff (x : Quantity) (n : Nat) :
    x.shortText n = .error .tooManyDigits ↔ x.LacksShortText n := by
  have hmarked : x.markedText? n = .error .tooManyDigits ↔ x.HasLongExponent n := by
    rw [← approximateText?_eq_error_iff]
    exact bind_return_error_iff
  unfold shortText LacksShortText
  cases x.toRat? with
  | none => simp [hmarked]
  | some q =>
    have hoverlong := exactDecimal_eq_error_iff q n
    simp only [Option.some.injEq, exists_eq_left', forall_eq', ← hoverlong]
    -- For a rational the exact text comes first: it is refused, or does not fit, or is the answer.
    cases exactDecimal q n with
    | error e => exact iff_of_true rfl (.inl rfl)
    | ok text =>
      simp only [ok_bind]
      cases text with
      | none => simp [hmarked]
      | some text => exact iff_of_false nofun (by simp)

end Quantity

end Reckoner
