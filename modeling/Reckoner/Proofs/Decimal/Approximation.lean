import Mathlib.Data.List.TakeWhile
import Reckoner.Proofs.Decimal.Canonical
import Reckoner.Proofs.Decimal.Rounding

/-!
# Approximate texts are close

The digits that are shown of a number are written with a point, in their place or behind the first of them with
an exponent. Zeros that are dropped at the end, and the zero that then stays behind the point, do not change
what is denoted. So an approximate text denotes what its digits denote, and that is close to the number.

- `pointed`: what digits around a point denote;
- `withPoint_eq` and `exponentOf?_exponentText`: the parts of a text;
- `unsigned_layout`: digits are read from every layout of them as the number that they denote;
- `Approximates` says what an approximation is like;
- `approximateText?_of_tells`: only numbers of enormous size, or next to zero, have exponents that cannot be
  written;
- `approximateText_close`: approximate texts denote approximations, and short texts that do not denote the
  number are approximate texts with an ellipsis.
-/

namespace Reckoner.Decimal

open Reckoner.Text (isAsciiDigit)

variable {cs whole fraction : List Char} {s : Significant} {n : Nat} {e : Int}

/-! ## §1 Digits around a point -/

/-- The rational that digits with a point among them denote. -/
def pointed (whole fraction : List Char) : Rat :=
  number (whole ++ fraction) / 10 ^ fraction.length

theorem allDigits_zeros (m : Nat) : AllDigits (List.replicate m '0') := by
  intro c hc
  rw [List.eq_of_mem_replicate hc]
  rfl

/-- Zeros at the end of a fraction denote nothing. -/
theorem pointed_append_zeros (whole fraction : List Char) (m : Nat) :
    pointed whole (fraction ++ List.replicate m '0') = pointed whole fraction := by
  have hzeros : number (List.replicate m '0') = 0 := by
    rw [← List.append_nil (List.replicate m '0'), number_zeros]
    rfl
  have hne : (10 : Rat) ^ m ≠ 0 := by positivity
  rw [pointed, ← List.append_assoc, number_append, hzeros, Nat.add_zero, List.length_append,
    List.length_replicate, pow_add, Nat.cast_mul, Nat.cast_pow, Nat.cast_ofNat, mul_div_mul_right _ _ hne,
    pointed]

/-- What is dropped at the end of a list of digits is a run of zeros. -/
theorem eq_dropTrailingZeros_append (cs : List Char) :
    ∃ m, cs = dropTrailingZeros cs ++ List.replicate m '0' := by
  refine ⟨(cs.reverse.takeWhile (· == '0')).length, ?_⟩
  have hzeros : cs.reverse.takeWhile (· == '0')
      = List.replicate (cs.reverse.takeWhile (· == '0')).length '0' := by
    refine List.eq_replicate_iff.mpr ⟨rfl, fun c hc => ?_⟩
    exact beq_iff_eq.mp (List.mem_takeWhile_imp (p := (· == '0')) hc)
  calc cs = cs.reverse.reverse := (List.reverse_reverse cs).symm
    _ = (cs.reverse.takeWhile (· == '0') ++ cs.reverse.dropWhile (· == '0')).reverse := by
      rw [List.takeWhile_append_dropWhile]
    _ = dropTrailingZeros cs ++ List.replicate (cs.reverse.takeWhile (· == '0')).length '0' := by
      rw [List.reverse_append, hzeros, List.reverse_replicate, List.length_replicate, dropTrailingZeros]

/-- What is written with a point: digits that denote the same. -/
theorem withPoint_eq (hfraction : AllDigits fraction) (whole : List Char) :
    ∃ shown, AllDigits shown ∧ pointed whole shown = pointed whole fraction
      ∧ withPoint whole fraction = String.ofList (whole ++ '.' :: shown) := by
  obtain ⟨m, hm⟩ := eq_dropTrailingZeros_append fraction
  have hkept : AllDigits (dropTrailingZeros fraction) := by
    intro c hc
    apply hfraction c
    rw [hm]
    exact List.mem_append_left _ hc
  have hpointed : pointed whole (dropTrailingZeros fraction) = pointed whole fraction := by
    rw [hm, pointed_append_zeros, ← hm]
  unfold withPoint
  -- At least one digit stays behind the point: a zero, if there is nothing else.
  by_cases hnil : dropTrailingZeros fraction = []
  · refine ⟨['0'], allDigits_zeros 1, ?_, by simp [hnil]⟩
    rw [← hpointed, hnil]
    exact pointed_append_zeros whole [] 1
  · exact ⟨_, hkept, hpointed, by simp [hnil]⟩

/-! ## §2 Reading -/

/-- An exponent that is written is read again. -/
theorem exponentOf?_exponentText (e : Int) : Text.exponentOf? (exponentText e).toList = some e := by
  unfold exponentText
  split
  · next hnonneg =>
    have hlist : ("e+" ++ toString e.toNat).toList = 'e' :: '+' :: (toString e.toNat).toList := by
      rw [String.toList_append]
      rfl
    have hsplit : Text.splitSign ('+' :: (toString e.toNat).toList) = (false, (toString e.toNat).toList) := rfl
    rw [hlist, Text.exponentOf?_cons (by decide) hsplit]
    simp only [Bool.false_eq_true, if_false, Int.toNat_of_nonneg hnonneg]
  · next hneg =>
    have hlist : ("e-" ++ toString (-e).toNat).toList = 'e' :: '-' :: (toString (-e).toNat).toList := by
      rw [String.toList_append]
      rfl
    have hsplit : Text.splitSign ('-' :: (toString (-e).toNat).toList)
        = (true, (toString (-e).toNat).toList) := rfl
    rw [hlist, Text.exponentOf?_cons (by decide) hsplit]
    simp only [if_true]
    -- The sign is written apart from the digits, so it is the negated exponent that is read.
    congr 1
    omega

theorem head?_exponentText {c : Char} (hc : c ∈ (exponentText e).toList.head?) : c = 'e' := by
  unfold exponentText at hc
  split at hc <;> rw [String.toList_append] at hc <;> exact (Option.some.inj hc).symm

/-- Digits around a point are read as what they denote, with any exponent behind them. -/
theorem rationalOf?_pointed (hwhole : AllDigits whole) (hne : whole ≠ []) (hfraction : AllDigits fraction)
    (hexponent : Text.exponentOf? cs = some e) (hhead : ∀ c ∈ cs.head?, isAsciiDigit c = false) :
    Literal.rationalOf? (String.ofList (whole ++ '.' :: (fraction ++ cs)))
      = some (pointed whole fraction * 10 ^ e) := by
  have hpoint : ∀ c ∈ ('.' :: (fraction ++ cs)).head?, isAsciiDigit c = false := by
    intro c hc
    rw [← Option.some.inj hc]
    rfl
  -- The digits before the point end at the point, those behind it where the exponent begins.
  obtain ⟨htake, hdrop⟩ := Text.span_digits hwhole hpoint
  -- A tail that begins with a digit would be taken for more of the fraction.
  obtain ⟨htake', hdrop'⟩ := Text.span_digits hfraction hhead
  have hread : Literal.ofText? (String.ofList (whole ++ '.' :: (fraction ++ cs)))
      = some ⟨String.ofList whole, String.ofList fraction, true, e⟩ := by
    rw [Literal.ofText?, String.toList_ofList, htake, hdrop, Literal.behindWhole?, htake', hdrop', hexponent]
    rfl
  exact rationalOf?_of_ofText? hread hne

/-- A numeral without a sign, which denotes a rational. -/
structure Unsigned (t : String) (q : Rat) : Prop where
  denotes : Literal.rationalOf? t = some q
  first : ∃ c cs, t.toList = c :: cs ∧ isAsciiDigit c = true

/-- What is written with a point is a numeral, and so it is with an exponent. -/
theorem unsigned_withPoint (hwhole : AllDigits whole) (hne : whole ≠ []) (hfraction : AllDigits fraction)
    {tail : String} (hexponent : Text.exponentOf? tail.toList = some e)
    (hhead : ∀ c ∈ tail.toList.head?, isAsciiDigit c = false) :
    Unsigned (withPoint whole fraction ++ tail) (pointed whole fraction * 10 ^ e) := by
  obtain ⟨shown, hshown, hpointed, htext⟩ := withPoint_eq hfraction whole
  have hlist : withPoint whole fraction ++ tail
      = String.ofList (whole ++ '.' :: (shown ++ tail.toList)) := by
    apply String.toList_injective
    simp [htext]
  obtain ⟨c, cs, hcs⟩ := List.exists_cons_of_ne_nil hne
  rw [← hpointed, hlist]
  refine ⟨rationalOf?_pointed hwhole hne hshown hexponent hhead, c, cs ++ '.' :: (shown ++ tail.toList), ?_,
    hwhole c (by simp [hcs])⟩
  rw [String.toList_ofList, hcs, List.cons_append]

/-- A sign in front of a numeral negates what it denotes. -/
theorem Unsigned.denoted? {t : String} {q : Rat} (h : Unsigned t q) (negative : Bool) :
    denoted? ((if negative then "-" else "") ++ t) = some (if negative then -q else q) := by
  obtain ⟨c, cs, hlist, hc⟩ := h.first
  obtain ⟨hminus, hplus, -⟩ := Text.ne_of_isAsciiDigit hc
  have hsplit : Text.splitSign ((if negative then "-" else "") ++ t).toList = (negative, t.toList) := by
    rw [String.toList_append]
    cases negative with
    | true => rfl
    | false => simp [hlist, Text.splitSign, hminus, hplus]
  simp only [Decimal.denoted?, hsplit, String.ofList_toList, h.denotes, Option.map_some]

/-! ## §3 Layouts -/

/-- Full digits are written with as many characters as are asked for. -/
theorem length_digitChars_of_full (h : s.Full n) (hn : 0 < n) : (digitChars s.digits).length = n := by
  have hle := (length_digitChars_le_iff hn).mpr h.last
  refine Nat.le_antisymm hle (Nat.le_of_not_lt fun hless => ?_)
  -- Only naught is written with no digits, and it does not begin with one.
  by_cases hone : n = 1
  · have hnil : digitChars s.digits = [] := List.length_eq_zero_iff.mp (by omega)
    have hzero := number_digitChars s.digits
    rw [hnil] at hzero
    exact absurd h.positive (by rw [← hzero]; decide)
  · have hlow := (length_digitChars_le_iff (by omega : 0 < n - 1)).mp (Nat.le_sub_one_of_lt hless)
    exact absurd h.first (Nat.not_le_of_lt hlow)

/-- Zeros between the point and the digits move the digits down. -/
theorem pointed_zeros (zeros : Nat) (cs : List Char) :
    pointed ['0'] (List.replicate zeros '0' ++ cs) = number cs * 10 ^ (-((zeros + cs.length : Nat) : Int)) := by
  rw [pointed, List.singleton_append, number_cons, number_zeros, List.length_append, List.length_replicate,
    div_eq_mul_inv, ← zpow_natCast, ← zpow_neg]
  simp

/-- A point among the digits moves down those that are behind it. -/
theorem pointed_split {k : Nat} (hk : k ≤ cs.length) :
    pointed (cs.take k) (cs.drop k) = number cs * 10 ^ ((k : Int) - cs.length) := by
  rw [pointed, List.take_append_drop, List.length_drop, div_eq_mul_inv, ← zpow_natCast, ← zpow_neg,
    Nat.cast_sub hk, neg_sub]

/-- Digits are read from every layout of them as the number that they denote. -/
theorem unsigned_layout (h : s.Full n) (hn : 0 < n) : Unsigned (s.layout n) (s.value n) := by
  have hlength := length_digitChars_of_full h hn
  have hdigits := allDigits_digitChars s.digits
  have hnumber := number_digitChars s.digits
  have htake (k : Nat) : AllDigits ((digitChars s.digits).take k) :=
    fun c hc => hdigits c (List.mem_of_mem_take hc)
  have hdrop (k : Nat) : AllDigits ((digitChars s.digits).drop k) :=
    fun c hc => hdigits c (List.mem_of_mem_drop hc)
  have hwhole {k : Nat} (hk : 0 < k) : (digitChars s.digits).take k ≠ [] := by
    apply List.ne_nil_of_length_pos
    rw [List.length_take, hlength]
    omega
  have hchars : (toString s.digits).toList = digitChars s.digits := rfl
  -- Without an exponent, the tail is empty and moves nothing.
  have hbare {whole fraction : List Char} (hwhole : AllDigits whole) (hne : whole ≠ [])
      (hfraction : AllDigits fraction) : Unsigned (withPoint whole fraction) (pointed whole fraction) := by
    have hplain : Unsigned (withPoint whole fraction ++ "") (pointed whole fraction * 10 ^ (0 : Int)) :=
      unsigned_withPoint hwhole hne hfraction rfl (by simp)
    rwa [String.append_empty, zpow_zero, mul_one] at hplain
  unfold Significant.layout
  simp only [hchars]
  split
  · next hpositional =>
    split
    -- The first digit stands behind the point: zeros fill the places between.
    · next hneg =>
      have hzeros : AllDigits (List.replicate ((-s.exponent).toNat - 1) '0' ++ digitChars s.digits) := by
        intro c hc
        rcases List.mem_append.mp hc with hc | hc
        · exact allDigits_zeros _ c hc
        · exact hdigits c hc
      have hzero : AllDigits ['0'] := allDigits_zeros 1
      convert hbare hzero (List.cons_ne_nil _ _) hzeros using 1
      rw [pointed_zeros, hnumber, hlength, Significant.value, place]
      congr 2
      omega
    -- The point stands among the digits, or behind the last of them.
    · next hnonneg =>
      convert hbare (htake (s.exponent.toNat + 1)) (hwhole (Nat.succ_pos _)) (hdrop _) using 1
      rw [pointed_split (by omega), hnumber, hlength, Significant.value, place]
      congr 2
      omega
  -- The point stands behind the first digit, and an exponent moves it.
  · convert unsigned_withPoint (htake 1) (hwhole Nat.one_pos) (hdrop 1)
      (exponentOf?_exponentText s.exponent) (fun c hc => head?_exponentText hc ▸ rfl) using 1
    rw [pointed_split (by omega), hnumber, hlength, Significant.value, place, mul_assoc,
      ← zpow_add₀ (by norm_num)]
    congr 2
    push_cast
    ring

/-! ## §4 Approximations -/

/-- A rational with at most `n` digits from the first to the last that count, which is zero or has the sign of
the number that it approximates, and is off by little more than half of the last place. -/
structure Approximates (q v : Rat) (n : Nat) : Prop where
  digits : ∃ m e : Int, q = m * 10 ^ e ∧ |m| < 10 ^ n
  zero : v = 0 → q = 0
  positive : 0 < v → 0 < q
  negative : v < 0 → q < 0
  close : ∀ e : Int, 10 ^ e ≤ |v| → |v| < 10 ^ (e + 1) → |q - v| ≤ 51 / 100 * 10 ^ (e + 1 - n)

/-- Zero is its own approximation: there is no exponent for which it lies between two powers of ten. -/
theorem approximates_zero (n : Nat) : Approximates 0 0 n where
  digits := ⟨0, 0, by simp, by simp⟩
  zero _ := rfl
  positive h := absurd h (lt_irrefl 0)
  negative h := absurd h (lt_irrefl 0)
  close e he _ := by
    rw [abs_zero] at he
    exact absurd he (not_le.mpr (zpow_pos (by norm_num) e))

variable {q v : Rat}

/-- Approximations of a number are approximations of its negation, when they are negated. -/
theorem Approximates.neg (h : Approximates q v n) : Approximates (-q) (-v) n where
  digits := by
    obtain ⟨m, e, rfl, hm⟩ := h.digits
    exact ⟨-m, e, by rw [Int.cast_neg, neg_mul], by rwa [abs_neg]⟩
  zero hv := by rw [h.zero (neg_eq_zero.mp hv), neg_zero]
  positive hv := neg_pos.mpr (h.negative (neg_pos.mp hv))
  negative hv := neg_lt_zero.mpr (h.positive (neg_lt_zero.mp hv))
  close e he he' := by
    rw [abs_neg] at he he'
    rw [neg_sub_neg, abs_sub_comm]
    exact h.close e he he'

/-- The digits that are shown of a positive number approximate it. -/
theorem approximates_shown (h : s.Full (n + guard)) (hn : 0 < n) (hv : 0 < v)
    (herror : |v - s.value (n + guard)| ≤ place s.exponent (n + guard)) :
    Approximates ((s.shown n).value n) v n := by
  obtain ⟨hfull, hclose⟩ := Significant.shown_spec h hn hv herror
  refine ⟨⟨(s.shown n).digits, (s.shown n).exponent - ((n : Int) - 1), ?_, ?_⟩,
    fun hzero => absurd hzero hv.ne', fun _ => hfull.value_pos hn, fun hneg => absurd hneg hv.not_gt,
    fun e _ he => ?_⟩
  · rw [Significant.value, place, Int.cast_natCast]
  · rw [abs_of_nonneg (Int.natCast_nonneg _)]
    exact_mod_cast hfull.last
  -- The last of `n` digits is `n - 1` places behind the first.
  · have hplace : e + 1 - (n : Int) = e - ((n : Int) - 1) := by ring
    rw [abs_of_pos hv] at he
    rw [hplace]
    exact hclose e he

/-- The text of what is known of a number denotes an approximation of it. -/
theorem Known.text_approximates {x : Known} (hn : 0 < n) (h : x.Tells v n) :
    ∃ q, denoted? (x.text n) = some q ∧ Approximates q v n := by
  cases x with
  | zero =>
    have htext : denoted? "0.0" = some 0 := by decide +kernel
    obtain rfl : v = 0 := h
    exact ⟨0, htext, approximates_zero n⟩
  | signed negative s =>
    obtain ⟨hne, rfl, hfull, herror⟩ := h
    have hpos := abs_pos.mpr hne
    obtain ⟨hshown, -⟩ := Significant.shown_spec hfull hn hpos herror
    have happroximates := approximates_shown hfull hn hpos herror
    refine ⟨_, (unsigned_layout hshown hn).denoted? (decide (v < 0)), ?_⟩
    -- The digits are those of the absolute value, and the sign is written in front of them.
    by_cases hneg : v < 0
    · rw [decide_eq_true hneg, if_pos rfl]
      rw [abs_of_neg hneg] at happroximates
      exact neg_neg v ▸ happroximates.neg
    · rw [decide_eq_false hneg, if_neg Bool.false_ne_true]
      rwa [abs_of_nonneg (not_lt.mp hneg)] at happroximates

/-! ## §5 Texts that are refused -/

/-- The exponent of a number and those beside it have few enough digits to be written. -/
def HasShortExponent (v : Rat) : Prop :=
  ∀ e : Int, 10 ^ e ≤ |v| → |v| < 10 ^ (e + 1) → e.natAbs + 1 < 10 ^ conversionLimit

/-- Numbers between two powers of ten have a short exponent, if these have. -/
theorem hasShortExponent_of_mem_Ico {m : Nat} (h : |v| ∈ Set.Ico ((10 : Rat) ^ (-m : Int)) (10 ^ (m : Int)))
    (hm : m + 1 < 10 ^ conversionLimit) : HasShortExponent v := by
  intro e hlow hhigh
  have hless := (zpow_lt_zpow_iff_right₀ (by norm_num : (1 : Rat) < 10)).mp (hlow.trans_lt h.2)
  have hless' := (zpow_lt_zpow_iff_right₀ (by norm_num : (1 : Rat) < 10)).mp (h.1.trans_lt hhigh)
  omega

theorem not_beyondConversion {e f : Int} (he : e.natAbs + 1 < 10 ^ conversionLimit) (hlow : e - 1 ≤ f)
    (hhigh : f ≤ e + 1) : beyondConversion f = false := by
  rw [beyondConversion, decide_eq_false_iff_not, not_le]
  omega

/-- What is known of a number can be written if its exponent is short. -/
theorem Known.isWritable_of_tells {x : Known} (hn : 0 < n) (h : x.Tells v n) (hshort : HasShortExponent v) :
    x.isWritable n = true := by
  cases x with
  | zero => rfl
  | signed negative s =>
    obtain ⟨hne, -, hfull, herror⟩ := h
    have hpos := abs_pos.mpr hne
    obtain ⟨e, hlow, hhigh⟩ := exists_mem_Ico_zpow hpos (by norm_num : (1 : Rat) < 10)
    have he := hshort e hlow hhigh
    obtain ⟨hfull', hclose⟩ := Significant.shown_spec hfull hn hpos herror
    -- Both roundings, to the digits that are known and to those that are shown, may carry.
    have hknown : Within (9 / 10) (s.value (n + guard)) |v| := by
      refine (hfull.within (Nat.lt_add_left n (by decide)) herror).mono hpos.le ?_
      calc (2 : Rat) * 10 ^ (1 - ((n + guard : Nat) : Int)) ≤ negligible n := two_mul_tenPow_le (by
            simp only [guard]; push_cast; omega)
        _ ≤ 9 / 10 := (negligible_le n).trans (by norm_num)
    have hshown : Within (9 / 10) ((s.shown n).value n) |v| := by
      have hplace : place e n ≤ 10 ^ e := tenPow_mono (by omega)
      refine (hclose e hhigh).trans ?_
      linarith
    obtain ⟨hs, hs'⟩ := hfull.exponent_near (Nat.lt_add_left n (by decide)) hlow hhigh hknown
    obtain ⟨ht, ht'⟩ := hfull'.exponent_near hn hlow hhigh hshown
    rw [isWritable, not_beyondConversion he hs hs', not_beyondConversion he ht ht']
    rfl

/-- An approximate text is written if the exponent of the number is short. -/
theorem approximateText?_of_tells {x : Quantity} (hn : 0 < n) (hsize : x.isOversized = false)
    (h : (x.known n).Tells v n) (hshort : HasShortExponent v) :
    x.approximateText? n = .ok (x.approximateText n) := by
  refine Quantity.approximateText?_of_not_hasLongExponent ?_
  rintro (hlarge | hlong)
  · rw [hsize] at hlarge
    cases hlarge
  · rw [Known.isWritable_of_tells hn h hshort] at hlong
    cases hlong

/-- A text that is marked is the approximate one with an ellipsis. -/
theorem eq_of_markedText? {x : Quantity} {m : Nat} {t : String} (h : x.markedText? m = .ok t) :
    x.approximateText? m = .ok (x.approximateText m) ∧ t = x.approximateText m ++ Quantity.ellipsis := by
  obtain ⟨s, hs, ht⟩ := bind_ok_iff.mp h
  obtain rfl := Quantity.eq_of_approximateText? hs
  exact ⟨hs, (Except.ok.inj ht).symm⟩

/-- A short text is an exact text, or the approximate one with an ellipsis. -/
theorem shortText_exact_or_approximate {x : Quantity} {m : Nat} {t : String} (h : x.shortText m = .ok t) :
    (∃ q, x = .rational q ∧ exactDecimal q m = .ok (some t))
      ∨ x.approximateText? m = .ok (x.approximateText m)
        ∧ t = x.approximateText m ++ Quantity.ellipsis := by
  unfold Quantity.shortText at h
  -- Only what is known to be rational has an exact text, and not all of that is short enough.
  cases hq : x.toRat? with
  | none =>
    rw [hq] at h
    exact .inr (eq_of_markedText? h)
  | some q =>
    rw [hq] at h
    obtain ⟨text?, htext, h⟩ := bind_ok_iff.mp h
    cases text? with
    | none => exact .inr (eq_of_markedText? h)
    | some text =>
      cases h
      exact .inl ⟨q, Quantity.toRat?_eq_some_iff.mp hq, htext⟩

/-- An exact text denotes its number. -/
theorem denoted?_of_exactDecimal {q : Rat} {m : Nat} {t : String} (h : exactDecimal q m = .ok (some t)) :
    denoted? t = some q := by
  have hshort : ¬Overlong q := by
    rw [← exactDecimal_eq_error_iff q m, h]
    exact nofun
  exact ((exactDecimal_eq_some_iff_denoted hshort m t).mp h).2.2

/-- The approximate text of a rational denotes an approximation of it, and so does that of any quantity as far
as its digits are known. It is written unless the exponent is too long for that. A short text denotes the
quantity, or is its approximate text with an ellipsis. -/
theorem approximateText_close :
    (∀ (v : Rat) (n : Nat), 1 ≤ n →
      (∃ q, denoted? ((Quantity.rational v).approximateText n) = some q ∧ Approximates q v n)
      ∧ (HasShortExponent v →
        (Quantity.rational v).approximateText? n = .ok ((Quantity.rational v).approximateText n)))
    ∧ (∀ (x : Quantity) (v : Rat) (n : Nat), 1 ≤ n → (x.known n).Tells v n →
      (∃ q, denoted? (x.approximateText n) = some q ∧ Approximates q v n)
      ∧ (x.isOversized = false → HasShortExponent v → x.approximateText? n = .ok (x.approximateText n)))
    ∧ ∀ (x : Quantity) (m : Nat) (t : String), x.shortText m = .ok t →
      (∃ q : Rat, x.toReal = q ∧ denoted? t = some q)
        ∨ x.approximateText? m = .ok (x.approximateText m)
          ∧ t = x.approximateText m ++ Quantity.ellipsis := by
  refine ⟨fun v n hn => ?_, fun x v n hn htells => ?_, fun x m t h => ?_⟩
  · have htells := Known.tells_ofRat v n
    exact ⟨Known.text_approximates hn htells, approximateText?_of_tells hn rfl htells⟩
  · exact ⟨Known.text_approximates hn htells, fun hsize => approximateText?_of_tells hn hsize htells⟩
  · rcases shortText_exact_or_approximate h with ⟨q, rfl, hexact⟩ | happroximate
    · exact .inl ⟨q, Quantity.toReal_rational q, denoted?_of_exactDecimal hexact⟩
    · exact .inr happroximate

/-- Two and a root of three, times two less that root: one, but not in closed form. -/
def conjugates : Quantity :=
  .multiply (.add 2 (.root 3)) (.subtract 2 (.root 3))

/-- A negative number that is shown as a power of ten, one that is shown with an exponent, one that is not
known to be rational, and a short text of either kind. -/
theorem approximateText_close_minusNinesAndOthers :
    (1 ≤ 3 ∧ (Quantity.rational (-9999 / 1000)).approximateText 3 = "-10.0"
      ∧ (∃ q, denoted? "-10.0" = some q ∧ Approximates q (-9999 / 1000) 3)
      ∧ HasShortExponent (-9999 / 1000)
      ∧ (Quantity.rational (-9999 / 1000)).approximateText? 3 = .ok "-10.0")
    ∧ (1 ≤ 4 ∧ (Quantity.rational (1 / 3000000)).approximateText 4 = "3.333e-7"
      ∧ ∃ q, denoted? "3.333e-7" = some q ∧ Approximates q (1 / 3000000) 4)
    ∧ (1 ≤ 8 ∧ (conjugates.known 8).Tells 1 8 ∧ conjugates.approximateText 8 = "1.0"
      ∧ (∃ q, denoted? "1.0" = some q ∧ Approximates q 1 8)
      ∧ conjugates.isOversized = false ∧ HasShortExponent 1 ∧ conjugates.approximateText? 8 = .ok "1.0")
    ∧ (Quantity.shortText (.rational (-1 / 8)) 4 = .ok "-0.125"
      ∧ ((∃ q : Rat, Quantity.toReal (.rational (-1 / 8)) = q ∧ denoted? "-0.125" = some q)
        ∨ (Quantity.rational (-1 / 8)).approximateText? 4 = .ok ((Quantity.rational (-1 / 8)).approximateText 4)
          ∧ "-0.125" = (Quantity.rational (-1 / 8)).approximateText 4 ++ Quantity.ellipsis))
    ∧ conjugates.shortText 8 = .ok "1.0…"
      ∧ ((∃ q : Rat, conjugates.toReal = q ∧ denoted? "1.0…" = some q)
        ∨ conjugates.approximateText? 8 = .ok (conjugates.approximateText 8)
          ∧ "1.0…" = conjugates.approximateText 8 ++ Quantity.ellipsis) := by
  obtain ⟨hrational, hknown, hshort⟩ := approximateText_close
  have hcarried : (Quantity.rational (-9999 / 1000)).approximateText 3 = "-10.0" := by decide +kernel
  have hexponent : (Quantity.rational (1 / 3000000)).approximateText 4 = "3.333e-7" := by decide +kernel
  have hone : conjugates.known 8 = .signed false ⟨10 ^ 17, 0⟩ := by decide +kernel
  have htells : (conjugates.known 8).Tells 1 8 := by
    rw [hone]
    refine ⟨one_ne_zero, by decide +kernel, ⟨by decide, by decide⟩, ?_⟩
    norm_num [Significant.value, place, guard]
  have htext : conjugates.approximateText 8 = "1.0" := by decide +kernel
  have hsize : conjugates.isOversized = false := by decide +kernel
  have hexact : Quantity.shortText (.rational (-1 / 8)) 4 = .ok "-0.125" := by decide +kernel
  have hellipsis : conjugates.shortText 8 = .ok "1.0…" := by decide +kernel
  have htwo : 1 + 1 < 10 ^ conversionLimit := by decide +kernel
  have hshortNines : HasShortExponent (-9999 / 1000) :=
    hasShortExponent_of_mem_Ico (m := 1) (by norm_num [abs_of_neg]) htwo
  have hshortOne : HasShortExponent 1 := hasShortExponent_of_mem_Ico (m := 1) (by norm_num) htwo
  obtain ⟨hnines, hninesWritten⟩ := hrational (-9999 / 1000) 3 (by decide)
  obtain ⟨hconjugates, hconjugatesWritten⟩ := hknown conjugates 1 8 (by decide) htells
  exact ⟨⟨by decide, hcarried, hcarried ▸ hnines, hshortNines, hcarried ▸ hninesWritten hshortNines⟩,
    ⟨by decide, hexponent, hexponent ▸ (hrational _ 4 (by decide)).1⟩,
    ⟨by decide, htells, htext, htext ▸ hconjugates, hsize, hshortOne,
      htext ▸ hconjugatesWritten hsize hshortOne⟩,
    ⟨hexact, hshort _ _ _ hexact⟩, hellipsis, hshort _ _ _ hellipsis⟩

end Reckoner.Decimal
