import Reckoner.Proofs.Decimal
import Reckoner.Proofs.Numeral
import Reckoner.Report

/-!
# Exact texts are canonical and complete

A rational with a terminating decimal expansion has one canonical decimal numeral: no zero in front but a
single one before the point, no zero at the end of the fraction, no bare point, and no sign on zero. Exact
texts are these numerals, and every one of them that has few enough digits is an exact text.

- `Expands` says how many whole digits and how many fraction digits a rational needs;
- `Positional.Canonical` is what the parts of a canonical numeral are like, and `denoted?` reads a numeral
  without regard to how it was written;
- `Positional.Canonical.expands`: a canonical numeral has the digits that its value needs, and no others;
- `Positional.Canonical.eq_of_value_eq`: so two canonical numerals of one rational are the same;
- `canonical_expansion`: the digits of the scaled numerator make a canonical numeral;
- `exactDecimal_eq_some_iff`: exact texts are the canonical numerals that fit;
- `exactTexts_canonical_complete` draws the conclusions for short texts and for reports.
-/

namespace Reckoner.Decimal

open Reckoner.Text (isAsciiDigit ofDigits)

/-! ## §1 Runs of digits -/

/-- Nothing but digits. -/
def AllDigits (cs : List Char) : Prop :=
  ∀ c ∈ cs, isAsciiDigit c = true

instance (cs : List Char) : Decidable (AllDigits cs) :=
  inferInstanceAs (Decidable (∀ c ∈ cs, isAsciiDigit c = true))

/-- The number that a run of digits denotes. -/
def number (cs : List Char) : Nat :=
  ofDigits (cs.map (·.toNat - 48))

variable {c d : Char} {cs ds : List Char}

theorem number_append (cs ds : List Char) :
    number (cs ++ ds) = number cs * 10 ^ ds.length + number ds := by
  rw [number, List.map_append, Text.ofDigits_append, List.length_map]
  rfl

theorem number_cons (c : Char) (cs : List Char) :
    number (c :: cs) = (c.toNat - 48) * 10 ^ cs.length + number cs := by
  rw [← List.singleton_append, number_append]
  simp [number, ofDigits]

theorem number_concat (cs : List Char) (c : Char) :
    number (cs ++ [c]) = 10 * number cs + (c.toNat - 48) := by
  rw [number_append, number_cons, Nat.mul_comm]
  simp [number, ofDigits]

/-- Zeros in front count nothing. -/
theorem number_zeros (n : Nat) (cs : List Char) :
    number (List.replicate n '0' ++ cs) = number cs := by
  induction n with
  | zero => rfl
  | succ n ih =>
    rw [List.replicate_succ, List.cons_append, number_cons, ih]
    simp

theorem digit_bounds (h : isAsciiDigit c = true) : 48 ≤ c.toNat ∧ c.toNat ≤ 57 := by
  simpa [isAsciiDigit] using h

theorem allDigits_cons_iff : AllDigits (c :: cs) ↔ isAsciiDigit c = true ∧ AllDigits cs :=
  List.forall_mem_cons

/-- So many digits only reach so far. -/
theorem number_lt (h : AllDigits cs) : number cs < 10 ^ cs.length := by
  induction cs with
  | nil => decide
  | cons c cs ih =>
    obtain ⟨hc, hcs⟩ := allDigits_cons_iff.mp h
    have hrest := ih hcs
    have hdigit : (c.toNat - 48) * 10 ^ cs.length ≤ 9 * 10 ^ cs.length :=
      Nat.mul_le_mul_right _ (by have := digit_bounds hc; omega)
    rw [number_cons, List.length_cons, Nat.pow_succ]
    omega

/-- Without a zero in front, every digit counts. -/
theorem le_number (hc : isAsciiDigit c = true) (hne : c ≠ '0') (cs : List Char) :
    10 ^ cs.length ≤ number (c :: cs) := by
  have hpos : 1 ≤ c.toNat - 48 := by
    have hbounds := digit_bounds hc
    have hzero : c.toNat ≠ 48 := fun h => hne (Char.toNat_inj.mp h)
    omega
  rw [number_cons]
  calc 10 ^ cs.length = 1 * 10 ^ cs.length := (Nat.one_mul _).symm
    _ ≤ (c.toNat - 48) * 10 ^ cs.length := Nat.mul_le_mul_right _ hpos
    _ ≤ _ := Nat.le_add_right _ _

/-- Runs of as many digits that denote the same number are the same. By induction on the digits, of which the
first one is the quotient by a power of ten. -/
theorem eq_of_number_eq (hcs : AllDigits cs) (hds : AllDigits ds) (hlength : cs.length = ds.length)
    (h : number cs = number ds) : cs = ds := by
  induction cs generalizing ds with
  | nil => exact (List.length_eq_zero_iff.mp hlength.symm).symm
  | cons c cs ih =>
    cases ds with
    | nil => cases hlength
    | cons d ds =>
      obtain ⟨hc, hcs⟩ := allDigits_cons_iff.mp hcs
      obtain ⟨hd, hds⟩ := allDigits_cons_iff.mp hds
      have hlength : cs.length = ds.length := Nat.succ.inj hlength
      have hpos : 0 < 10 ^ ds.length := Nat.pow_pos (by decide)
      have hltc := number_lt hcs
      have hltd := number_lt hds
      rw [number_cons, number_cons, hlength] at h
      rw [hlength] at hltc
      have hdigit : c.toNat - 48 = d.toNat - 48 := by
        have hquotient := congrArg (· / 10 ^ ds.length) h
        simpa [Nat.mul_comm _ (10 ^ ds.length), Nat.mul_add_div hpos, Nat.div_eq_of_lt hltc,
          Nat.div_eq_of_lt hltd] using hquotient
      have hnumber : number cs = number ds := by
        rw [hdigit] at h
        exact Nat.add_left_cancel h
      have hchar : c = d := by
        apply Char.toNat_inj.mp
        have := digit_bounds hc
        have := digit_bounds hd
        omega
      rw [hchar, ih hcs hds hlength hnumber]

/-! ## §2 Written numbers -/

theorem allDigits_digitChars (n : Nat) : AllDigits (digitChars n) :=
  Literal.digits_toString n

theorem number_digitChars (n : Nat) : number (digitChars n) = n :=
  Text.natOfDigits_toString n

theorem length_digitChars_le_iff {n k : Nat} (hk : 0 < k) : (digitChars n).length ≤ k ↔ n < 10 ^ k := by
  rw [digitChars, Nat.toString_eq_ofList_toDigits, String.toList_ofList]
  exact Nat.length_toDigits_le_iff (by decide) hk

/-- No zero stands in front of a number but the number zero itself. -/
theorem eq_nil_of_digitChars_eq {n : Nat} (h : digitChars n = '0' :: cs) : cs = [] := by
  by_contra hne
  have hpos : 0 < cs.length := List.length_pos_of_ne_nil hne
  have hdigits : AllDigits cs := by
    have hall := allDigits_digitChars n
    rw [h] at hall
    exact (allDigits_cons_iff.mp hall).2
  have hnumber : n = number cs := by
    rw [← number_digitChars n, h, number_cons]
    simp
  -- Without the zero the number has one digit less, but it is written with as many as it needs.
  have hshort := (length_digitChars_le_iff hpos).mpr (hnumber ▸ number_lt hdigits)
  rw [h, List.length_cons] at hshort
  omega

/-- Zeros are digits. -/
theorem allDigits_padLeft (width : Nat) (h : AllDigits cs) : AllDigits (padLeft width cs) := by
  intro c hc
  rcases List.mem_append.mp hc with hc | hc
  · rw [List.eq_of_mem_replicate hc]
    rfl
  · exact h c hc

theorem number_padLeft (width : Nat) (cs : List Char) : number (padLeft width cs) = number cs :=
  number_zeros _ _

theorem length_padLeft (width : Nat) (cs : List Char) : (padLeft width cs).length = max width cs.length := by
  rw [padLeft, List.length_append, List.length_replicate]
  omega

/-! ## §3 The digits that a rational needs -/

/-- A rational needs `whole` digits before the point, of which there is always one, and `places` behind it. -/
structure Expands (q : Rat) (whole places : Nat) : Prop where
  point : ∃ n : Int, q * 10 ^ places = n
  least : ∀ fewer < places, ∀ n : Int, q * 10 ^ fewer ≠ n
  positive : 0 < whole
  bound : |q| < 10 ^ whole
  wide : 1 < whole → 10 ^ (whole - 1) ≤ |q|

namespace Expands

variable {q : Rat} {whole places whole' places' : Nat}

theorem places_le (h : Expands q whole places) {more : Nat} {n : Int} (hn : q * 10 ^ more = n) :
    places ≤ more :=
  Nat.le_of_not_lt fun hless => h.least more hless n hn

/-- No fewer digits in front of the point suffice. -/
theorem whole_le (h : Expands q whole places) (hpos : 0 < whole') (hbound : |q| < 10 ^ whole') :
    whole ≤ whole' := by
  by_contra hless
  have hwide := h.wide (by omega)
  have hmono : (10 : Rat) ^ whole' ≤ 10 ^ (whole - 1) :=
    pow_le_pow_right₀ (by norm_num) (by omega)
  exact absurd hbound (not_lt.mpr (hmono.trans hwide))

/-- A rational needs one number of digits on either side of the point. -/
theorem unique (h : Expands q whole places) (h' : Expands q whole' places') :
    whole = whole' ∧ places = places' := by
  obtain ⟨n, hn⟩ := h.point
  obtain ⟨n', hn'⟩ := h'.point
  exact ⟨Nat.le_antisymm (h.whole_le h'.positive h'.bound) (h'.whole_le h.positive h.bound),
    Nat.le_antisymm (h.places_le hn') (h'.places_le hn)⟩

end Expands

/-! ## §4 Canonical numerals -/

/-- A decimal numeral without an exponent, taken apart. -/
structure Positional where
  negative : Bool
  whole : List Char
  fraction : List Char

namespace Positional

variable {x y : Positional}

/-- All digits, without the point. -/
def digits (x : Positional) : List Char :=
  x.whole ++ x.fraction

/-- The parts put together. There is a point if there are digits behind it. -/
def text (x : Positional) : String :=
  String.ofList ((if x.negative then ['-'] else []) ++ (x.whole
    ++ if x.fraction.isEmpty then [] else '.' :: x.fraction))

/-- The rational that a numeral denotes. -/
def value (x : Positional) : Rat :=
  (if x.negative then -1 else 1) * (number x.digits / 10 ^ x.fraction.length)

/-- No zero in front but a single one before the point, no zero at the end of the fraction, a digit before the
point, and no sign on zero. -/
structure Canonical (x : Positional) : Prop where
  digits : AllDigits x.digits
  nonempty : x.whole ≠ []
  leading : x.whole.head? = some '0' → x.whole = ['0']
  trailing : x.fraction.getLast? ≠ some '0'
  signed : x.negative = true → ¬(x.whole = ['0'] ∧ x.fraction = [])

namespace Canonical

theorem allDigits_whole (h : x.Canonical) : AllDigits x.whole :=
  fun c hc => h.digits c (List.mem_append_left _ hc)

theorem allDigits_fraction (h : x.Canonical) : AllDigits x.fraction :=
  fun c hc => h.digits c (List.mem_append_right _ hc)

/-- The last digit behind the point counts. -/
theorem not_dvd_number (h : x.Canonical) (hfraction : x.fraction ≠ []) : ¬10 ∣ number x.digits := by
  rcases List.eq_nil_or_concat x.fraction with hnil | ⟨front, c, hlast⟩
  · exact absurd hnil hfraction
  · rw [List.concat_eq_append] at hlast
    have hne : c ≠ '0' := by
      intro hc
      apply h.trailing
      rw [hlast, List.getLast?_concat, hc]
    have hbounds := digit_bounds (h.allDigits_fraction c (by simp [hlast]))
    have hzero : c.toNat ≠ 48 := fun heq => hne (Char.toNat_inj.mp heq)
    rw [Positional.digits, hlast, ← List.append_assoc, number_concat]
    omega

/-- Nothing but a plain zero denotes zero. -/
theorem eq_zero_of_number_eq_zero (h : x.Canonical) (hzero : number x.digits = 0) :
    x.whole = ['0'] ∧ x.fraction = [] := by
  -- A fraction would end with a digit that counts.
  have hfraction : x.fraction = [] := by
    by_contra hne
    apply h.not_dvd_number hne
    simp [hzero]
  refine ⟨?_, hfraction⟩
  rw [Positional.digits, hfraction, List.append_nil] at hzero
  cases hwhole : x.whole with
  | nil => exact absurd hwhole h.nonempty
  | cons c cs =>
    rw [← hwhole]
    apply h.leading
    rw [hwhole, List.head?_cons]
    by_contra hne
    have hdigit := h.allDigits_whole c (by simp [hwhole])
    have hle := le_number hdigit (fun hc => hne (congrArg some hc)) cs
    rw [← hwhole, hzero] at hle
    exact absurd hle (Nat.not_le_of_lt (Nat.pow_pos (by decide)))

/-- A sign says that the value is negative. -/
theorem negative_iff (h : x.Canonical) : x.negative = true ↔ x.value < 0 := by
  have hden : (0 : Rat) < 10 ^ x.fraction.length := by positivity
  unfold value
  cases hnegative : x.negative with
  | false =>
    simp only [Bool.false_eq_true, if_false, one_mul, false_iff, not_lt]
    positivity
  | true =>
    -- With a sign the numeral is not zero.
    have hpos : 0 < number x.digits :=
      Nat.pos_of_ne_zero fun hzero => h.signed hnegative (h.eq_zero_of_number_eq_zero hzero)
    have hcast : (0 : Rat) < number x.digits := by exact_mod_cast hpos
    simp only [if_true, neg_one_mul, neg_lt_zero, true_iff]
    positivity

end Canonical

/-- Without its sign, a numeral denotes its digits with the point moved. -/
theorem abs_value (x : Positional) : |x.value| = number x.digits / 10 ^ x.fraction.length := by
  have hnonneg : (0 : Rat) ≤ number x.digits / 10 ^ x.fraction.length := by positivity
  unfold value
  split
  · rw [neg_one_mul, abs_neg, abs_of_nonneg hnonneg]
  · rw [one_mul, abs_of_nonneg hnonneg]

/-- The digits behind the point say how far the point has to be moved. -/
theorem value_mul (x : Positional) :
    x.value * 10 ^ x.fraction.length
      = (if x.negative then -(number x.digits : Int) else number x.digits : Int) := by
  have hden : (10 : Rat) ^ x.fraction.length ≠ 0 := by positivity
  unfold value
  rw [mul_assoc, div_mul_cancel₀ _ hden]
  split <;> simp

namespace Canonical

/-- A canonical numeral has the digits that its value needs. -/
theorem expands (h : x.Canonical) : Expands x.value x.whole.length x.fraction.length where
  point := ⟨_, x.value_mul⟩
  least := by
    intro fewer hless n hn
    have hne : x.fraction ≠ [] := by
      intro hnil
      simp [hnil] at hless
    apply h.not_dvd_number hne
    -- With the point moved less far, all places that are left are zeros.
    have hsplit : x.fraction.length = fewer + (x.fraction.length - fewer) := by omega
    have hscaled := x.value_mul
    rw [hsplit, pow_add, ← mul_assoc, hn] at hscaled
    have hint : n * 10 ^ (x.fraction.length - fewer)
        = if x.negative then -(number x.digits : Int) else number x.digits := by
      exact_mod_cast hscaled
    have hdvd : (10 : Int) ∣ n * 10 ^ (x.fraction.length - fewer) :=
      Dvd.dvd.mul_left (dvd_pow_self 10 (by omega)) n
    have hnatAbs : (number x.digits : Int).natAbs = (n * 10 ^ (x.fraction.length - fewer)).natAbs := by
      rw [hint]
      split <;> simp
    have habs := Int.natAbs_dvd_natAbs.mpr hdvd
    rw [← hnatAbs] at habs
    exact habs
  positive := List.length_pos_of_ne_nil h.nonempty
  bound := by
    have hlt := number_lt h.digits
    rw [Positional.digits, List.length_append, Nat.pow_add] at hlt
    rw [x.abs_value, div_lt_iff₀ (by positivity)]
    exact_mod_cast hlt
  wide := by
    intro hwide
    rw [x.abs_value, le_div_iff₀ (by positivity)]
    cases hwhole : x.whole with
    | nil => exact absurd hwhole h.nonempty
    | cons c cs =>
      -- More than one digit in front of the point does not begin with a zero.
      have hne : c ≠ '0' := by
        intro hc
        have hone := congrArg List.length (h.leading (by rw [hwhole, hc, List.head?_cons]))
        rw [List.length_singleton] at hone
        omega
      have hle := le_number (h.allDigits_whole c (by simp [hwhole])) hne (cs ++ x.fraction)
      rw [List.length_append, Nat.pow_add] at hle
      have hdigits : x.digits = c :: (cs ++ x.fraction) := by rw [Positional.digits, hwhole, List.cons_append]
      rw [hdigits, List.length_cons, Nat.add_sub_cancel]
      exact_mod_cast hle

/-- A rational has one canonical numeral. -/
theorem eq_of_value_eq (hx : x.Canonical) (hy : y.Canonical) (h : x.value = y.value) : x = y := by
  obtain ⟨hwhole, hfraction⟩ := hx.expands.unique (h ▸ hy.expands)
  have hnegative : x.negative = y.negative := by
    rw [Bool.eq_iff_iff, hx.negative_iff, hy.negative_iff, h]
  have hnumber : number x.digits = number y.digits := by
    have habs := congrArg abs h
    have hne : (10 : Rat) ^ y.fraction.length ≠ 0 := by positivity
    rw [x.abs_value, y.abs_value, hfraction, div_left_inj' hne] at habs
    exact_mod_cast habs
  have hlength : x.digits.length = y.digits.length := by
    rw [Positional.digits, Positional.digits, List.length_append, List.length_append, hwhole, hfraction]
  -- The value says how many digits there are on either side of the point, and then which digits they are.
  have hdigits := eq_of_number_eq hx.digits hy.digits hlength hnumber
  obtain ⟨hwholes, hfractions⟩ := List.append_inj hdigits hwhole
  cases x
  cases y
  simp_all

end Canonical

/-! ## §5 Written rationals -/

/-- The numeral of a rational that becomes the integer `n` when its point is moved by some places. -/
def expansion (q : Rat) (places : Nat) (n : Int) : Positional :=
  let ds := padLeft (places + 1) (digitChars n.natAbs)
  ⟨decide (q < 0), ds.take (ds.length - places), ds.drop (ds.length - places)⟩

variable {q : Rat} {places : Nat} {n : Int}

theorem digits_expansion (q : Rat) (places : Nat) (n : Int) :
    (expansion q places n).digits = padLeft (places + 1) (digitChars n.natAbs) :=
  List.take_append_drop _ _

/-- As many of them stand behind the point as it was moved. -/
theorem length_fraction_expansion (q : Rat) (places : Nat) (n : Int) :
    (expansion q places n).fraction.length = places := by
  have hlength := length_padLeft (places + 1) (digitChars n.natAbs)
  simp only [expansion, List.length_drop]
  omega

theorem number_expansion (q : Rat) (places : Nat) (n : Int) :
    number (expansion q places n).digits = n.natAbs := by
  rw [digits_expansion, number_padLeft, number_digitChars]

/-- With the point where it belongs, they denote the rational. -/
theorem value_expansion (hn : q * 10 ^ places = n) : (expansion q places n).value = q := by
  have hne : (10 : Rat) ^ places ≠ 0 := by positivity
  have hpos : (0 : Rat) < 10 ^ places := by positivity
  have hsign : ((if q < 0 then -1 else 1 : Rat)) * |q| = q := by
    split
    · next hneg => rw [abs_of_neg hneg, neg_one_mul, neg_neg]
    · next hneg => rw [abs_of_nonneg (not_lt.mp hneg), one_mul]
  have habs : (n.natAbs : Rat) / 10 ^ places = |q| := by
    rw [Nat.cast_natAbs, Int.cast_abs, ← hn, abs_mul, abs_of_pos hpos, mul_div_cancel_right₀ _ hne]
  rw [value, number_expansion, length_fraction_expansion, habs]
  simpa [expansion] using hsign

/-- The digits of the scaled numerator, with enough zeros in front, make a canonical numeral if the point was
moved no further than it takes. -/
theorem canonical_expansion (hn : q * 10 ^ places = n)
    (hleast : ∀ fewer < places, ∀ m : Int, q * 10 ^ fewer ≠ m) : (expansion q places n).Canonical where
  digits := by
    rw [digits_expansion]
    exact allDigits_padLeft _ (allDigits_digitChars _)
  nonempty := by
    have hlength := length_padLeft (places + 1) (digitChars n.natAbs)
    apply List.ne_nil_of_length_pos
    simp only [expansion, List.length_take]
    omega
  leading := by
    intro hzero
    have hlength := length_padLeft (places + 1) (digitChars n.natAbs)
    by_cases hshort : (digitChars n.natAbs).length ≤ places + 1
    -- Filled up with zeros, there is one digit in front of the point.
    · obtain ⟨front, hfront⟩ := List.head?_eq_some_iff.mp hzero
      have hone : (expansion q places n).whole.length = 1 := by
        simp only [expansion, List.length_take]
        omega
      rw [hfront, List.length_cons, Nat.add_eq_right, List.length_eq_zero_iff] at hone
      rw [hfront, hone]
    -- Else the digits are those of the number, which does not begin with a zero.
    · have hpad : padLeft (places + 1) (digitChars n.natAbs) = digitChars n.natAbs := by
        rw [padLeft, Nat.sub_eq_zero_of_le (by omega), List.replicate_zero, List.nil_append]
      simp only [expansion, hpad] at hzero
      rw [List.head?_take, if_neg (by omega)] at hzero
      obtain ⟨back, hback⟩ := List.head?_eq_some_iff.mp hzero
      have hnil := eq_nil_of_digitChars_eq hback
      rw [hback, hnil, List.length_singleton] at hshort
      omega
  trailing := by
    intro hzero
    obtain ⟨front, hfront⟩ := List.getLast?_eq_some_iff.mp hzero
    have hplaces := length_fraction_expansion q places n
    rw [hfront, List.length_append, List.length_singleton] at hplaces
    -- Otherwise the point need not have been moved so far.
    have hnumber := number_expansion q places n
    rw [digits, hfront, ← List.append_assoc, number_concat] at hnumber
    have hten : (10 : Int) ∣ n := by
      rw [← Int.natAbs_dvd_natAbs, ← hnumber]
      exact ⟨_, rfl⟩
    obtain ⟨m, rfl⟩ := hten
    apply hleast front.length (by omega) m
    rw [← hplaces, pow_succ, ← mul_assoc, Int.cast_mul, mul_comm (_ : Rat) (m : Rat)] at hn
    exact mul_right_cancel₀ (by norm_num) hn
  signed := by
    intro hnegative hzero
    have hnumber := number_expansion q places n
    rw [digits, hzero.1, hzero.2] at hnumber
    have hn0 : n = 0 := Int.natAbs_eq_zero.mp hnumber.symm
    have hq : q < 0 := of_decide_eq_true hnegative
    rw [hn0, Int.cast_zero] at hn
    have hpos : (0 : Rat) < 10 ^ places := by positivity
    exact absurd hn (mul_neg_of_neg_of_pos hq hpos).ne

end Positional

/-! ## §6 Reading -/

/-- The rational that a decimal numeral with or without a sign denotes. -/
def denoted? (s : String) : Option Rat :=
  let (negative, body) := Text.splitSign s.toList
  (Literal.rationalOf? (String.ofList body)).map fun q => if negative then -q else q

/-- A numeral denotes the number of its digits, with the point moved to where it stands and by the exponent. -/
theorem rationalOf?_of_ofText? {s : String} {whole fraction : List Char} {point : Bool} {e : Int}
    (hread : Literal.ofText? s = some ⟨String.ofList whole, String.ofList fraction, point, e⟩)
    (hne : whole ≠ []) : Literal.rationalOf? s
      = some ((number (whole ++ fraction) : Rat) / 10 ^ fraction.length * 10 ^ e) := by
  -- A digit stands in front of the point, so the text is not bare.
  have hbare : Literal.isBare ⟨String.ofList whole, String.ofList fraction, point, e⟩ = false := by
    simp [Literal.isBare, hne]
  have hunit : (10 : Rat) ^ fraction.length ≠ 0 := by positivity
  have hnumber (cs : List Char) : Text.natOfDigits (String.ofList cs) = number cs := by
    rw [Text.natOfDigits, String.toList_ofList, number]
  rw [Literal.rationalOf?, hread, Option.bind_some, hbare, if_neg Bool.false_ne_true]
  simp only [Literal.denoted, hnumber, String.length_ofList, number_append]
  push_cast
  field_simp

/-- How many digits there are in a text. -/
def countDigits (s : String) : Nat :=
  s.toList.countP isAsciiDigit

/-- A text that is a canonical numeral. -/
def IsCanonical (s : String) : Prop :=
  ∃ x : Positional, x.Canonical ∧ x.text = s

namespace Positional.Canonical

variable {x : Positional}

/-- What stands in a numeral behind its sign. -/
theorem ofText?_unsigned (h : x.Canonical) :
    Literal.ofText? (String.ofList (x.whole ++ if x.fraction.isEmpty then [] else '.' :: x.fraction))
      = some ⟨String.ofList x.whole, String.ofList x.fraction, !x.fraction.isEmpty, 0⟩ := by
  -- The run of digits ends at the point or at the end.
  have hpoint : ∀ c ∈ (if x.fraction.isEmpty then [] else '.' :: x.fraction).head?,
      isAsciiDigit c = false := by
    intro c hc
    split at hc
    · cases hc
    · rw [← Option.some.inj hc]
      rfl
  obtain ⟨htake, hdrop⟩ := Text.span_digits h.allDigits_whole hpoint
  rw [Literal.ofText?, String.toList_ofList, htake, hdrop]
  cases hfraction : x.fraction with
  | nil => rfl
  | cons c cs =>
    have hend : ∀ c ∈ ([] : List Char).head?, isAsciiDigit c = false := by simp
    obtain ⟨htakes, hdrops⟩ := Text.span_digits h.allDigits_fraction hend
    rw [List.append_nil, hfraction] at htakes hdrops
    simp only [List.isEmpty_cons, Bool.false_eq_true, if_false, Literal.behindWhole?, htakes, hdrops]
    rfl

theorem rationalOf?_unsigned (h : x.Canonical) :
    Literal.rationalOf? (String.ofList (x.whole ++ if x.fraction.isEmpty then [] else '.' :: x.fraction))
      = some ((number x.digits : Rat) / 10 ^ x.fraction.length) := by
  rw [rationalOf?_of_ofText? h.ofText?_unsigned h.nonempty, zpow_zero, mul_one, Positional.digits]

/-- A canonical numeral is read as the rational that it denotes. -/
theorem denoted?_text (h : x.Canonical) : denoted? x.text = some x.value := by
  obtain ⟨c, cs, hwhole⟩ := List.exists_cons_of_ne_nil h.nonempty
  obtain ⟨hminus, hplus, -⟩ := Text.ne_of_isAsciiDigit (h.allDigits_whole c (by simp [hwhole]))
  have hsplit : Text.splitSign x.text.toList
      = (x.negative, x.whole ++ if x.fraction.isEmpty then [] else '.' :: x.fraction) := by
    rw [Positional.text, String.toList_ofList]
    cases x.negative with
    | true => rfl
    | false => simp [hwhole, Text.splitSign, hminus, hplus]
  simp only [denoted?, hsplit, h.rationalOf?_unsigned, Option.map_some, Positional.value]
  split <;> simp

/-- All digits of a canonical numeral stand in its text, and nothing else in the text is a digit. -/
theorem countDigits_text (h : x.Canonical) : countDigits x.text = x.digits.length := by
  have hall {cs : List Char} (hcs : AllDigits cs) : cs.countP isAsciiDigit = cs.length :=
    List.countP_eq_length.mpr hcs
  -- Neither the sign nor the point is a digit.
  have hsign : (if x.negative then ['-'] else []).countP isAsciiDigit = 0 := by
    split <;> rfl
  have hpoint : (if x.fraction.isEmpty then [] else '.' :: x.fraction).countP isAsciiDigit
      = x.fraction.length := by
    split
    · next hnil => simp [List.isEmpty_iff.mp hnil]
    · rw [List.countP_cons_of_neg (by decide), hall h.allDigits_fraction]
  rw [countDigits, Positional.text, String.toList_ofList, List.countP_append, List.countP_append, hsign,
    hpoint, hall h.allDigits_whole, Nat.zero_add, Positional.digits, List.length_append]

end Positional.Canonical

/-! ## §7 Exact texts -/

variable {q : Rat}

/-- Moving the point as far as the denominator takes, and no further. -/
theorem exists_scaled (hrest : (twosAndFives q.den).2.2 = 1) :
    ∃ n : Int, q * 10 ^ max (twosAndFives q.den).1 (twosAndFives q.den).2.1 = n
      ∧ ∀ fewer < max (twosAndFives q.den).1 (twosAndFives q.den).2.1,
        ∀ m : Int, q * 10 ^ fewer ≠ m := by
  have hdvd := dvd_tenPow_iff q.den_pos
  obtain ⟨n, hn⟩ := (exists_mul_tenPow_iff q _).mpr ((hdvd _).mpr ⟨hrest, Nat.le_refl _⟩)
  refine ⟨n, hn, fun fewer hless m hm => ?_⟩
  have hle := ((hdvd fewer).mp ((exists_mul_tenPow_iff q fewer).mp ⟨m, hm⟩)).2
  omega

/-- A rational whose point can be moved to the end has an exact text, unless that takes too many digits: the
canonical numeral. -/
theorem exactDecimal_of_rest_eq_one (hrest : (twosAndFives q.den).2.2 = 1) (hshort : ¬Overlong q) :
    ∃ x : Positional, x.Canonical ∧ x.value = q
      ∧ ∀ m, exactDecimal q m = .ok (if m < x.digits.length then none else some x.text) := by
  obtain ⟨n, hn, hleast⟩ := exists_scaled hrest
  have hscaled : q.num.natAbs * 10 ^ max (twosAndFives q.den).1 (twosAndFives q.den).2.1 / q.den
      = n.natAbs := Nat.div_eq_of_eq_mul_left q.den_pos (natAbs_mul_den hn).symm
  have hchars : digitChars? n.natAbs = .ok (digitChars n.natAbs) := by
    rw [overlong_iff, hscaled, ← length_digitChars] at hshort
    rw [digitChars?, if_neg fun hlong => hshort ⟨hrest, hlong⟩]
  refine ⟨_, Positional.canonical_expansion hn hleast, Positional.value_expansion hn, fun m => ?_⟩
  rw [Positional.digits_expansion]
  simp only [exactDecimal, hrest, ne_eq, not_true, if_false, hscaled, hchars, ok_bind]
  -- The count of digits is compared with what fits, and the text is put together only if it does.
  by_cases hlong : m < (padLeft (max (twosAndFives q.den).1 (twosAndFives q.den).2.1 + 1)
      (digitChars n.natAbs)).length
  · rw [if_pos hlong, if_pos hlong]
    rfl
  · rw [if_neg hlong, if_neg hlong]
    by_cases hneg : q < 0
    · simp [Positional.text, Positional.expansion, hneg]
      rfl
    · simp [Positional.text, Positional.expansion, hneg]
      rfl

theorem exactDecimal_of_rest_ne_one (hrest : (twosAndFives q.den).2.2 ≠ 1) (m : Nat) :
    exactDecimal q m = .ok none := by
  simp only [exactDecimal, ne_eq, hrest, not_false_eq_true, if_true]
  rfl

/-- A rational that a canonical numeral denotes has a denominator of twos and fives. -/
theorem rest_eq_one {n : Int} {places : Nat} (hn : q * 10 ^ places = n) :
    (twosAndFives q.den).2.2 = 1 :=
  ((dvd_tenPow_iff q.den_pos places).mp ((exists_mul_tenPow_iff q places).mp ⟨n, hn⟩)).1

/-- Exact texts are the canonical numerals that fit, unless conversion is refused. -/
theorem exactDecimal_eq_some_iff (hshort : ¬Overlong q) (m : Nat) (t : String) :
    exactDecimal q m = .ok (some t)
      ↔ ∃ x : Positional, x.Canonical ∧ x.value = q ∧ x.digits.length ≤ m ∧ x.text = t := by
  by_cases hrest : (twosAndFives q.den).2.2 = 1
  · obtain ⟨x, hx, hvalue, hexact⟩ := exactDecimal_of_rest_eq_one hrest hshort
    rw [hexact]
    constructor
    · intro h
      split at h
      · cases h
      · next hle => exact ⟨x, hx, hvalue, Nat.le_of_not_lt hle, Option.some.inj (Except.ok.inj h)⟩
    · rintro ⟨y, hy, hvaluey, hle, rfl⟩
      -- There is one canonical numeral of the rational, so it is the one that is written.
      obtain rfl := hx.eq_of_value_eq hy (hvalue.trans hvaluey.symm)
      rw [if_neg (Nat.not_lt.mpr hle)]
  · rw [exactDecimal_of_rest_ne_one hrest]
    refine iff_of_false nofun ?_
    rintro ⟨x, hx, rfl, -⟩
    exact hrest (rest_eq_one x.value_mul)

/-- A rational whose exact text was not refused has one if the digits that it needs fit. -/
theorem exists_exactDecimal_iff (hshort : ¬Overlong q) (m : Nat) :
    (∃ t, exactDecimal q m = .ok (some t))
      ↔ ∃ whole places, Expands q whole places ∧ whole + places ≤ m := by
  simp only [exactDecimal_eq_some_iff hshort]
  constructor
  · rintro ⟨t, x, hx, rfl, hle, -⟩
    refine ⟨_, _, hx.expands, ?_⟩
    rwa [Positional.digits, List.length_append] at hle
  · rintro ⟨whole, places, hexpands, hle⟩
    obtain ⟨n, hn⟩ := hexpands.point
    have hx := Positional.canonical_expansion hn hexpands.least
    have hvalue := Positional.value_expansion hn
    obtain ⟨hwhole, hplaces⟩ := hexpands.unique (hvalue ▸ hx.expands)
    refine ⟨_, _, hx, hvalue, ?_, rfl⟩
    rw [Positional.digits, List.length_append]
    omega

/-- An exact text is canonical, has few enough digits and denotes the rational, and there is no other text
like this. -/
theorem exactDecimal_eq_some_iff_denoted (hshort : ¬Overlong q) (m : Nat) (t : String) :
    exactDecimal q m = .ok (some t) ↔ IsCanonical t ∧ countDigits t ≤ m ∧ denoted? t = some q := by
  rw [exactDecimal_eq_some_iff hshort]
  constructor
  · rintro ⟨x, hx, rfl, hle, rfl⟩
    exact ⟨⟨x, hx, rfl⟩, hx.countDigits_text ▸ hle, hx.denoted?_text⟩
  · rintro ⟨⟨x, hx, rfl⟩, hle, hdenoted⟩
    rw [hx.denoted?_text] at hdenoted
    exact ⟨x, hx, Option.some.inj hdenoted, hx.countDigits_text ▸ hle, rfl⟩

/-! ## §8 Short texts and reports -/

/-- A short text without an ellipsis is an exact text. -/
theorem exactDecimal_of_shortText {x : Quantity} {m : Nat} {t : String} (h : x.shortText m = .ok t)
    (hexact : '…' ∉ t.toList) : ∃ q, x.toRat? = some q ∧ exactDecimal q m = .ok (some t) := by
  -- A text with the mark has the ellipsis in it, which was excluded.
  have hmarked (h : x.markedText? m = .ok t) : False := by
    obtain ⟨s, -, hs⟩ := bind_ok_iff.mp h
    apply hexact
    simp [← Except.ok.inj hs, Quantity.ellipsis]
  unfold Quantity.shortText at h
  cases hq : x.toRat? with
  | none =>
    rw [hq] at h
    exact (hmarked h).elim
  | some q =>
    rw [hq] at h
    obtain ⟨text?, htext, h⟩ := bind_ok_iff.mp h
    cases text? with
    | none => exact (hmarked h).elim
    | some text =>
      cases h
      exact ⟨q, rfl, htext⟩

/-- It denotes the value of the quantity, which is known to be rational. -/
theorem denoted?_shortText {x : Quantity} {m : Nat} {t : String} (h : x.shortText m = .ok t)
    (hexact : '…' ∉ t.toList) :
    ∃ q : Rat, x.toReal = q ∧ denoted? t = some q ∧ x.isRational = true := by
  obtain ⟨q, hq, hexactDecimal⟩ := exactDecimal_of_shortText h hexact
  have hshort : ¬Overlong q := by
    rw [← exactDecimal_eq_error_iff q m, hexactDecimal]
    exact nofun
  obtain rfl := Quantity.toRat?_eq_some_iff.mp hq
  obtain ⟨-, -, hdenoted⟩ := (exactDecimal_eq_some_iff_denoted hshort m t).mp hexactDecimal
  exact ⟨q, Quantity.toReal_rational q, hdenoted, rfl⟩

/-- A report with a result is that of the value of the buffer. -/
theorem of_ofBuffer_ok {b : Buffer} {degrees : Bool} {r : Report} {t : String}
    (h : Report.ofBuffer b degrees = .ok r) (ht : r.result = some t) :
    ∃ x, b.evaluate degrees = .ok x ∧ x.quantity.shortText Quantity.shortDigits = .ok t
      ∧ r.exact = some x.quantity.isRational := by
  -- A report of failure has no result.
  have hfailure (message code : String) (name : Evaluated String)
      (hr : (do let _ ← name; return Report.failure message code) = .ok r) : False := by
    obtain ⟨_, -, hr⟩ := bind_ok_iff.mp hr
    cases hr
    cases ht
  unfold Report.ofBuffer at h
  cases hx : b.evaluate degrees with
  | error e =>
    rw [hx] at h
    cases e with
    | malformed e => exact (hfailure _ _ _ h).elim
    | arithmetic e => exact (hfailure _ _ _ h).elim
    | _ => cases h
  | ok x =>
    rw [hx] at h
    obtain ⟨result, hresult, h⟩ := bind_ok_iff.mp h
    obtain ⟨approx, -, h⟩ := bind_ok_iff.mp h
    cases h
    cases ht
    refine ⟨x, rfl, ?_, rfl⟩
    cases hshown : x.quantity.shortText Quantity.shortDigits with
    | ok text =>
      rw [hshown] at hresult
      exact congrArg _ (Except.ok.inj hresult)
    | error e =>
      rw [hshown] at hresult
      cases hresult

/-- As long as conversion is not refused, a rational has an exact text exactly if the digits that it needs
fit, and the exact text is the one canonical numeral that denotes it. So short texts without an ellipsis
denote the value, and reports with such a result call it exact. -/
theorem exactTexts_canonical_complete :
    (∀ (q : Rat) (m : Nat), ¬Overlong q →
      ((∃ t, exactDecimal q m = .ok (some t))
        ↔ ∃ whole places, Expands q whole places ∧ whole + places ≤ m)
      ∧ ∀ t, exactDecimal q m = .ok (some t)
        ↔ IsCanonical t ∧ countDigits t ≤ m ∧ denoted? t = some q)
    ∧ (∀ (x : Quantity) (m : Nat) (t : String), x.shortText m = .ok t → '…' ∉ t.toList →
      ∃ q : Rat, x.toReal = q ∧ denoted? t = some q)
    ∧ ∀ (b : Buffer) (degrees : Bool) (r : Report) (t : String), Report.ofBuffer b degrees = .ok r →
      r.result = some t → '…' ∉ t.toList → r.exact = some true
        ∧ ∃ x, b.evaluate degrees = .ok x
          ∧ ∃ q : Rat, x.quantity.toReal = q ∧ denoted? t = some q := by
  refine ⟨fun q m hshort => ?_, fun x m t h hexact => ?_, fun b degrees r t h ht hexact => ?_⟩
  · exact ⟨exists_exactDecimal_iff hshort m, exactDecimal_eq_some_iff_denoted hshort m⟩
  · obtain ⟨q, hq, hdenoted, -⟩ := denoted?_shortText h hexact
    exact ⟨q, hq, hdenoted⟩
  · obtain ⟨x, hx, hshown, hr⟩ := of_ofBuffer_ok h ht
    obtain ⟨q, hq, hdenoted, hrational⟩ := denoted?_shortText hshown hexact
    rw [hrational] at hr
    exact ⟨hr, x, hx, q, hq, hdenoted⟩

/-- A negative number with digits behind the point, an eighth, and a literal that is evaluated. -/
theorem exactTexts_canonical_complete_minusFiveQuarters :
    ¬Overlong (-5 / 4) ∧ exactDecimal (-5 / 4) 3 = .ok (some "-1.25")
    ∧ (∃ whole places, Expands (-5 / 4) whole places ∧ whole + places ≤ 3)
    ∧ IsCanonical "-1.25" ∧ denoted? "-1.25" = some (-5 / 4)
    ∧ Quantity.shortText (.rational (1 / 8)) 4 = .ok "0.125"
    ∧ (∃ q : Rat, Quantity.toReal (.rational (1 / 8)) = q ∧ denoted? "0.125" = some q)
    ∧ Report.ofBuffer [.literal ⟨"2", "50", true, 0⟩] false = .ok (.success "2.5" "2.5" true)
    ∧ ∃ x, Buffer.evaluate [.literal ⟨"2", "50", true, 0⟩] false = .ok x
      ∧ ∃ q : Rat, x.quantity.toReal = q ∧ denoted? "2.5" = some q := by
  obtain ⟨hexact, hshown, hreported⟩ := exactTexts_canonical_complete
  have htext : exactDecimal (-5 / 4) 3 = .ok (some "-1.25") := by decide +kernel
  have hshort : ¬Overlong (-5 / 4) := by
    rw [← exactDecimal_eq_error_iff _ 3, htext]
    exact nofun
  have heighth : Quantity.shortText (.rational (1 / 8)) 4 = .ok "0.125" := by decide +kernel
  have hreport : Report.ofBuffer [.literal ⟨"2", "50", true, 0⟩] false
      = .ok (.success "2.5" "2.5" true) := by
    decide +kernel
  obtain ⟨hfits, htexts⟩ := hexact (-5 / 4) 3 hshort
  obtain ⟨hcanonical, -, hdenoted⟩ := (htexts "-1.25").mp htext
  exact ⟨hshort, htext, hfits.mp ⟨_, htext⟩, hcanonical, hdenoted, heighth,
    hshown _ _ _ heighth (by decide), hreport, (hreported _ _ _ _ hreport rfl (by decide)).2⟩

end Reckoner.Decimal
