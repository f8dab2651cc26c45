import Reckoner.Proofs.Buffer.Soundness

/-!
# When a literal has a value

The digits of a literal that can be typed are read as one integer, so it has a value unless there is no
digit at all, or there are more than conversion takes.

- `readInt_digits`: what is read from a text of digits;
- `Literal.AllDigits.value_eq`: the value of a literal of digits is this number, scaled;
- `Literal.WellFormed.hasValue_iff`: which literals have a value;
- `Literal.WellFormed.of_value_error` and `Literal.WellFormed.value_of_overlong`: which error the others
  have;
- `Buffer.evaluatePrefix_cause_excess`: how reading a buffer of literals that can be typed may fail;
- `Buffer.evaluatePrefix_literal` and `Buffer.evaluate_literal`: the error of a literal in front is that of
  the buffer, and the value of a literal alone is.
-/

namespace Reckoner

open Reckoner.Decimal (conversionLimit)

/-! ## §1 Texts of digits -/

namespace Text

variable {c : Char} {cs : List Char}

/-- A digit of ASCII counts what it is behind the first one. -/
theorem decimalValue_of_isAsciiDigit (h : isAsciiDigit c = true) :
    decimalValue? c = some (c.toNat - 48) := by
  simp only [isAsciiDigit, Bool.and_eq_true, decide_eq_true_eq] at h
  -- The digits of ASCII follow the first of all zeros.
  have hzeros : zeroDigits = 48 :: zeroDigits.tail := rfl
  have hfirst : (decide (48 ≤ c.toNat) && decide (c.toNat < 48 + 10)) = true := by
    simp only [Bool.and_eq_true, decide_eq_true_eq]
    omega
  rw [decimalValue?, hzeros, List.find?_cons]
  simp only [hfirst, Option.map_some]

/-- A digit is no blank. -/
theorem isBlank_of_isAsciiDigit (h : isAsciiDigit c = true) : isBlank c = false := by
  simp only [isAsciiDigit, Bool.and_eq_true, decide_eq_true_eq] at h
  simp only [isBlank, Bool.or_eq_false_iff, Bool.and_eq_false_iff, decide_eq_false_iff_not,
    beq_eq_false_iff_ne]
  omega

/-- Digits are no sign and no underscore. -/
theorem ne_of_isAsciiDigit (h : isAsciiDigit c = true) : c ≠ '-' ∧ c ≠ '+' ∧ c ≠ '_' := by
  refine ⟨?_, ?_, ?_⟩ <;> rintro rfl <;> exact absurd h (by decide)

/-- There are no blanks to be trimmed at either end of a text of digits. -/
theorem trimBlanks_digits (h : ∀ c ∈ cs, isAsciiDigit c = true) : trimBlanks cs = cs := by
  have hdrop {ds : List Char} (hds : ∀ c ∈ ds, isAsciiDigit c = true) : ds.dropWhile isBlank = ds := by
    cases ds with
    | nil => rfl
    | cons d ds =>
      have hd := isBlank_of_isAsciiDigit (hds d List.mem_cons_self)
      rw [List.dropWhile_cons_of_neg (by simp [hd])]
  have hreverse : ∀ c ∈ cs.reverse, isAsciiDigit c = true := by simpa using h
  rw [trimBlanks, hdrop h, hdrop hreverse, List.reverse_reverse]

/-- A text of digits has no sign. -/
theorem splitSign_digits (h : ∀ c ∈ cs, isAsciiDigit c = true) : splitSign cs = (false, cs) := by
  cases cs with
  | nil => rfl
  | cons c cs =>
    obtain ⟨hminus, hplus, -⟩ := ne_of_isAsciiDigit (h c List.mem_cons_self)
    simp [splitSign, hminus, hplus]

/-- Behind a digit, digits count one by one. -/
theorem digitValues_digits (h : ∀ c ∈ cs, isAsciiDigit c = true) :
    digitValues? true cs = some (cs.map (·.toNat - 48)) := by
  induction cs with
  | nil => rfl
  | cons c cs ih =>
    have hc := h c List.mem_cons_self
    have hrest := ih fun d hd => h d (List.mem_cons_of_mem _ hd)
    simp [digitValues?, (ne_of_isAsciiDigit hc).2.2, decimalValue_of_isAsciiDigit hc, hrest]

/-- A text of digits is read as the number they make, unless they are too many. -/
theorem readInt_digits {s : String} (hne : s.isEmpty = false)
    (h : ∀ c ∈ s.toList, isAsciiDigit c = true) :
    readInt s = if conversionLimit < s.length then .error .tooManyDigits
      else .ok (ofDigits (s.toList.map (·.toNat - 48))) := by
  have hvalues : digitValues? false s.toList = some (s.toList.map (·.toNat - 48)) := by
    cases hs : s.toList with
    | nil => simp_all
    | cons c cs =>
      rw [hs] at h
      -- In front of the first digit there is none, but then all is as behind a digit.
      have hc := h c List.mem_cons_self
      have hrest := digitValues_digits fun d hd => h d (List.mem_cons_of_mem _ hd)
      simp [digitValues?, (ne_of_isAsciiDigit hc).2.2, decimalValue_of_isAsciiDigit hc, hrest]
  simp only [readInt, trimBlanks_digits h, splitSign_digits h, hvalues, List.length_map,
    String.length_toList]
  rfl

/-- The number that a text of digits denotes. -/
def natOfDigits (s : String) : Nat :=
  ofDigits (s.toList.map (·.toNat - 48))

end Text

/-! ## §2 Literals -/

namespace Literal

/-- The digits that are read as one integer; whole digits that are missing are a zero. -/
def digits (l : Literal) : String :=
  (if l.whole.isEmpty then "0" else l.whole) ++ l.fraction

/-- Whether a literal has no digit at all. -/
def isBare (l : Literal) : Bool :=
  l.whole.isEmpty && l.fraction.isEmpty

/-- Where digits behind a point need a point, there are none without one. -/
theorem fraction_eq_empty {fraction : String} {point : Bool}
    (hpoint : fraction.isEmpty = false → point = true) (h : ¬point = true) : fraction = "" := by
  by_contra hne
  exact h (hpoint (String.isEmpty_eq_false_iff.mpr hne))

/-- A literal that is a number. -/
def HasValue (l : Literal) : Prop :=
  ∃ q, l.value = .ok q

/-- Nothing but digits in front of the point and behind it. -/
structure AllDigits (l : Literal) : Prop where
  whole : ∀ c ∈ l.whole.toList, Text.isAsciiDigit c = true
  fraction : ∀ c ∈ l.fraction.toList, Text.isAsciiDigit c = true

instance (l : Literal) : Decidable l.AllDigits :=
  decidable_of_iff (l.whole.toList.all Text.isAsciiDigit && l.fraction.toList.all Text.isAsciiDigit)
    (by rw [Bool.and_eq_true, List.all_eq_true, List.all_eq_true]
        exact ⟨fun h => ⟨h.1, h.2⟩, fun h => ⟨h.whole, h.fraction⟩⟩)

/-- All digits as one integer, scaled by the digits behind the point and by the exponent. -/
def scaled (l : Literal) : Quantity :=
  Quantity.ofRatio
    (if 0 < l.exponent then (Text.natOfDigits l.digits : Int) * 10 ^ l.exponent.toNat
      else Text.natOfDigits l.digits)
    (10 ^ l.fraction.length * (if l.exponent < 0 then 10 ^ (-l.exponent).toNat else 1))

variable {l : Literal}

namespace AllDigits

/-- The digits of a literal are read as one integer, unless they are too many. -/
theorem readInt_digits (h : l.AllDigits) :
    Text.readInt l.digits = if conversionLimit < l.digits.length then .error .tooManyDigits
      else .ok (Text.natOfDigits l.digits) := by
  refine Text.readInt_digits ?_ ?_
  · cases hwhole : l.whole.isEmpty <;> simp_all [digits]
  · intro c hc
    rw [digits, String.toList_append, List.mem_append] at hc
    rcases hc with hc | hc
    · split at hc
      -- The zero that stands for missing whole digits is a digit itself.
      · obtain rfl : c = '0' := by simpa using hc
        rfl
      · exact h.whole c hc
    · exact h.fraction c hc

/-- A literal of digits has a value, unless the digits are more than conversion takes. -/
theorem value_eq (h : l.AllDigits) (hbare : l.isBare = false) :
    l.value = if conversionLimit < l.digits.length then .error .tooManyDigits else .ok l.scaled := by
  have hread := h.readInt_digits
  unfold isBare at hbare
  by_cases hlong : conversionLimit < l.digits.length
  · rw [if_pos hlong] at hread ⊢
    unfold digits at hread
    simp only [value, hbare, hread]
    rfl
  · rw [if_neg hlong] at hread ⊢
    unfold scaled
    unfold digits at hread ⊢
    simp only [value, hbare, hread]
    rfl

end AllDigits

namespace WellFormed

theorem allDigits (h : l.WellFormed) : l.AllDigits :=
  ⟨h.whole, h.fraction⟩

/-- A literal with a digit has a value, or too many digits for that. -/
theorem value_eq (h : l.WellFormed) (hbare : l.isBare = false) :
    (conversionLimit < l.digits.length ∧ l.value = .error .tooManyDigits)
      ∨ l.digits.length ≤ conversionLimit ∧ l.HasValue := by
  have hvalue := h.allDigits.value_eq hbare
  by_cases hlong : conversionLimit < l.digits.length
  · exact .inl ⟨hlong, by rw [hvalue, if_pos hlong]⟩
  · exact .inr ⟨Nat.le_of_not_lt hlong, _, by rw [hvalue, if_neg hlong]⟩

theorem value_of_isBare (hbare : l.isBare = true) : l.value = .error .incomplete := by
  unfold isBare at hbare
  simp only [value, hbare]
  rfl

/-- A literal has a value if it has a digit, and no more than conversion takes. -/
theorem hasValue_iff (h : l.WellFormed) :
    l.HasValue ↔ l.isBare = false ∧ l.digits.length ≤ conversionLimit := by
  cases hbare : l.isBare with
  | true => simp [HasValue, value_of_isBare hbare]
  | false =>
    rcases h.value_eq hbare with ⟨hlong, hvalue⟩ | ⟨hshort, hvalue⟩
    · simp [HasValue, hvalue, hlong]
    · simp [hvalue, hshort]

/-- A literal without a value has no digit, or more than conversion takes. -/
theorem of_value_error (h : l.WellFormed) {e : LiteralError} (he : l.value = .error e) :
    e = .incomplete ∨ e = .tooManyDigits ∧ conversionLimit < l.digits.length := by
  cases hbare : l.isBare with
  | true =>
    rw [value_of_isBare hbare] at he
    cases he
    exact .inl rfl
  | false =>
    rcases h.value_eq hbare with ⟨hlong, hvalue⟩ | ⟨-, q, hvalue⟩
    · rw [hvalue] at he
      cases he
      exact .inr ⟨rfl, hlong⟩
    · rw [hvalue] at he
      cases he

/-- A literal with too many digits is refused for that: it does not lack digits. -/
theorem value_of_overlong (h : l.WellFormed) (hlong : conversionLimit < l.digits.length) :
    l.value = .error .tooManyDigits := by
  -- Without a digit, there would only be the zero that stands for them.
  have hbare : l.isBare = false := by
    rw [Bool.eq_false_iff]
    intro hbare
    simp only [isBare, Bool.and_eq_true, String.isEmpty_iff] at hbare
    simp only [digits, hbare] at hlong
    exact absurd hlong (by decide)
  rcases h.value_eq hbare with ⟨-, hvalue⟩ | ⟨hshort, -⟩
  · exact hvalue
  · omega

end WellFormed

/-- A literal of ones. -/
def ones (n : Nat) : Literal :=
  ⟨String.ofList (List.replicate n '1'), "", false, 0⟩

theorem isEmpty_whole_ones {n : Nat} (h : 0 < n) : (ones n).whole.isEmpty = false := by
  simp [ones, String.isEmpty_eq_false_iff]
  omega

theorem length_digits_ones {n : Nat} (h : 0 < n) : (ones n).digits.length = n := by
  rw [digits, isEmpty_whole_ones h]
  simp [ones]

/-- Ones can be typed. -/
theorem wellFormed_ones {n : Nat} (h : 0 < n) : (ones n).WellFormed where
  nonempty := by
    simp [ones, Literal.isEmpty]
    omega
  whole := by
    simp only [ones, String.toList_ofList, List.mem_replicate]
    rintro c ⟨-, rfl⟩
    rfl
  fraction := by simp [ones]
  point := by simp [ones]

theorem isBare_ones {n : Nat} (h : 0 < n) : (ones n).isBare = false := by
  rw [isBare, isEmpty_whole_ones h, Bool.false_and]

end Literal

/-! ## §3 Evaluating literals -/

namespace Buffer

open Reckoner.Evaluation

/-- A literal is read as its value. -/
theorem unary_literal (m : Mode) (l : Literal) (ts : Buffer) :
    (readers m deepestNesting).unary (.literal l :: ts)
      = (l.value.mapError EvaluationError.ofLiteral).map fun q => (.computed q, ts) := rfl

/-- A literal without a value that comes first is met before anything else. -/
theorem evaluatePrefix_literal {l : Literal} {cause : LiteralError} (h : l.value = .error cause)
    (e : Buffer) (degrees : Bool) :
    Buffer.evaluatePrefix (.literal l :: e) ⟨degrees, (Token.literal l :: e).length⟩
      = .error (.ofLiteral cause) := by
  have hwindow : Buffer.window (.literal l :: e) ⟨degrees, (Token.literal l :: e).length⟩
      = .literal l :: e := by
    simp [Buffer.window]
  -- A literal is no minus, so it is read as an operand at once.
  have hminus (m : Mode) : nextIs m .minus (.literal l :: e) = .ok false := rfl
  simp only [evaluatePrefix, hwindow, expr, term, signed, factor, hminus, ok_bind, unary_literal, h]
  rfl

/-- A literal alone evaluates to its value. -/
theorem evaluate_literal {l : Literal} {q : Quantity} (h : l.value = .ok q) (degrees : Bool) :
    Buffer.evaluate [.literal l] degrees = .ok (.computed q) := by
  have hwindow : Buffer.window [.literal l] ⟨degrees, 1⟩ = [.literal l] := rfl
  have hmode : Buffer.mode [.literal l] ⟨degrees, 1⟩ = ⟨degrees, false⟩ := rfl
  have hminus (m : Mode) : nextIs m .minus [.literal l] = .ok false := rfl
  -- Behind the literal there is nothing to go on with.
  have hprefix : Buffer.evaluatePrefix [.literal l] ⟨degrees, 1⟩ = .ok (1, .computed q) := by
    simp only [evaluatePrefix, hwindow, hmode, expr, term, signed, factor, hminus, ok_bind,
      unary_literal, h]
    rfl
  exact evaluate_eq_ok_iff.mpr hprefix

/-- A literal alone fails as it does in front. -/
theorem evaluate_literal_error {l : Literal} {cause : LiteralError} (h : l.value = .error cause)
    (degrees : Bool) : Buffer.evaluate [.literal l] degrees = .error (.ofLiteral cause) := by
  have hprefix : Buffer.evaluatePrefix [.literal l] ⟨degrees, Buffer.binaryStart [.literal l]⟩
      = .error (.ofLiteral cause) := evaluatePrefix_literal h [] degrees
  rw [Buffer.evaluate, hprefix]
  rfl

/-- A literal in a buffer has more digits than conversion takes. -/
def HoldsOverlong (b : Buffer) : Prop :=
  ∃ l, .literal l ∈ b ∧ conversionLimit < l.digits.length

/-- The errors of conversion, and what in a buffer has too many digits then: a literal, or the argument of
a factorial. -/
inductive Excess (b : Buffer) : EvaluationError → Prop where
  | literal (h : b.HoldsOverlong) : Excess b .tooManyDigits
  | factorial (h : .symbol .factorial ∈ b) : Excess b .overlongFactorial

/-- Where all literals can be typed, reading fails for a matter of the grammar or of arithmetic, or because
a number has too many digits. -/
theorem evaluatePrefix_cause_excess {b : Buffer} (hb : ∀ l, .literal l ∈ b → l.WellFormed) {s : Scope}
    {e : EvaluationError} (h : b.evaluatePrefix s = .error e) : Cause b.Excess e := by
  cases evaluatePrefix_cause h with
  | malformed e => exact .malformed e
  | arithmetic e => exact .arithmetic e
  | faulty h =>
    cases h with
    | factorial hfactorial => exact .faulty (.factorial hfactorial)
    | @literal l _ hl hvalue =>
      cases hv : l.value with
      | ok q =>
        rw [hv] at hvalue
        cases hvalue
      | error cause =>
        rw [hv] at hvalue
        cases hvalue
        -- To lack digits is a matter of the grammar, to have too many of them is not.
        rcases (hb l hl).of_value_error hv with rfl | ⟨rfl, hlong⟩
        · exact .malformed .incompleteNumber
        · exact .faulty (.literal ⟨l, hl, hlong⟩)

end Buffer

end Reckoner
