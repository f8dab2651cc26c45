import Reckoner.Proofs.Decimal
import Reckoner.Proofs.Typing

/-!
# What is said of a text

Evaluating a text ends with a report, and asking whether it is valid ends with an answer: that the text
cannot be typed, that what it types is malformed or has no value, or what its value is. There is one
exception, numbers with more digits than conversion takes. A literal may have that many, and so may the
argument of a factorial, and the value or its exponent, when a text is asked for; none is reported.

- `Accounts` and `Judges` say which report and which answer belong to a text;
- `evaluate_cause`: how evaluating a typed buffer can fail;
- `reported_or_overlong` puts all together: there is the report that belongs to a text unless a number is
  overlong, and the answer unless evaluation meets one that is;
- `validityOfText_of_length_le`: texts with no more characters than conversion takes get an answer, unless a
  factorial in them gets none;
- `not_reported_digits`: numerals with more digits get neither a report nor an answer.
-/

namespace Reckoner.Report

open Reckoner.Decimal
open Reckoner.Evaluation (Cause)
open Reckoner.Text (isAsciiDigit)

/-! ## §1 Reports and answers -/

/-- The reports that belong to a text. -/
inductive Accounts (text : String) (degrees : Bool) : Report → Prop where
  | untyped {e : Typing.TypingError} (h : bufferOfText text = .error e) :
      Accounts text degrees (failure e.message e.code)
  | malformed {b : Buffer} {e : SyntaxError} (hb : bufferOfText text = .ok b)
      (h : b.evaluate degrees = .error (.malformed e)) :
      Accounts text degrees (failure e.message SyntaxError.code)
  | arithmetic {b : Buffer} {e : ArithmeticError} (hb : bufferOfText text = .ok b)
      (h : b.evaluate degrees = .error (.arithmetic e)) :
      Accounts text degrees (failure e.message e.code)
  | value {b : Buffer} {x : Operand} {shown approximate : String} (hb : bufferOfText text = .ok b)
      (h : b.evaluate degrees = .ok x) (hshown : x.quantity.shortText Quantity.shortDigits = .ok shown)
      (happroximate : x.quantity.approximateText? Quantity.outputDigits = .ok approximate) :
      Accounts text degrees (success shown approximate x.quantity.isRational)

/-- The answers to the question whether a text is valid: what is wrong with it, or nothing. -/
inductive Judges (text : String) : Option String → Prop where
  | untyped {e : Typing.TypingError} (h : bufferOfText text = .error e) : Judges text (some e.message)
  | malformed {b : Buffer} {e : SyntaxError} (hb : bufferOfText text = .ok b)
      (h : b.evaluate false = .error (.malformed e)) : Judges text (some e.message)
  | arithmetic {b : Buffer} {e : ArithmeticError} (hb : bufferOfText text = .ok b)
      (h : b.evaluate false = .error (.arithmetic e)) : Judges text none
  | value {b : Buffer} {x : Operand} (hb : bufferOfText text = .ok b) (h : b.evaluate false = .ok x) :
      Judges text none

/-- Evaluating what a text types meets a literal with more digits than conversion takes, or a factorial
whose argument has more, and ends with the error of that. -/
def MeetsOverlong (text : String) (degrees : Bool) (e : EvaluationError) : Prop :=
  ∃ b, bufferOfText text = .ok b ∧ b.evaluate degrees = .error e ∧ b.Excess e

/-- What a text types evaluates to a quantity without a short text, because it is a decimal fraction with
more digits than conversion takes or has an exponent with more, or without an approximate text. -/
def YieldsOverlong (text : String) (degrees : Bool) : Prop :=
  ∃ b x, bufferOfText text = .ok b ∧ b.evaluate degrees = .ok x
    ∧ (x.quantity.LacksShortText Quantity.shortDigits ∨ x.quantity.HasLongExponent Quantity.outputDigits)

/-! ## §2 Evaluating what was typed -/

/-- What was typed fails for a matter of the grammar or of arithmetic, or because a number is overlong. -/
theorem evaluate_cause {b : Buffer} (hb : ∀ t ∈ b, t.Plain) {degrees : Bool} {e : EvaluationError}
    (h : b.evaluate degrees = .error e) : Cause b.Excess e := by
  unfold Buffer.evaluate at h
  rcases bind_error_iff.mp h with h | ⟨⟨position, x⟩, -, h⟩
  · exact Buffer.evaluatePrefix_cause_excess (fun l hl => (hb _ hl).2) h
  -- The report that not all tokens were read names the buffer, and can do so.
  · obtain ⟨name, hname⟩ := Buffer.describe_plain hb
    dsimp only at h
    split at h
    · cases h
    · rw [hname] at h
      cases h
      exact .malformed _

/-- What was typed has a value, or is malformed, or fails in arithmetic, unless a number in it is overlong. -/
theorem evaluate_or_overlong {text : String} {b : Buffer} (hb : bufferOfText text = .ok b)
    (degrees : Bool) :
    (∃ x, b.evaluate degrees = .ok x) ∨ (∃ e, b.evaluate degrees = .error (.malformed e))
      ∨ (∃ e, b.evaluate degrees = .error (.arithmetic e)) ∨ ∃ e, MeetsOverlong text degrees e := by
  cases h : b.evaluate degrees with
  | ok x => exact .inl ⟨x, rfl⟩
  | error e =>
    cases evaluate_cause (plain_of_bufferOfText hb) h with
    | malformed e => exact .inr (.inl ⟨e, rfl⟩)
    | arithmetic e => exact .inr (.inr (.inl ⟨e, rfl⟩))
    | faulty hexcess => exact .inr (.inr (.inr ⟨e, b, hb, h, hexcess⟩))

/-! ## §3 Reports -/

section Reports

variable {text : String} {degrees : Bool} {b : Buffer}

/-- A report is given as it is, unless it is a failure without a message. -/
theorem ofText_eq (hb : bufferOfText text = .ok b) {r : Report} (h : ofBuffer b degrees = .ok r)
    (hr : r.normalized = r) : ofText text degrees false = .ok r := by
  simp only [ofText, hb, evaluate, h, hr, Bool.false_eq_true, if_false]

theorem ofText_eq_error (hb : bufferOfText text = .ok b) {e : EvaluationError}
    (h : ofBuffer b degrees = .error e) : ofText text degrees false = .error (.evaluation e) := by
  simp only [ofText, hb, evaluate, h, Bool.false_eq_true, if_false]

/-- What was typed is named in the report of a failure. -/
theorem ofBuffer_malformed (hb : bufferOfText text = .ok b) {e : SyntaxError}
    (h : b.evaluate degrees = .error (.malformed e)) :
    ofBuffer b degrees = .ok (failure e.message SyntaxError.code) := by
  obtain ⟨name, hname⟩ := Buffer.describe_plain (plain_of_bufferOfText hb)
  simp only [ofBuffer, h, hname]
  rfl

/-- An arithmetic error is reported with its message and its code. -/
theorem ofBuffer_arithmetic (hb : bufferOfText text = .ok b) {e : ArithmeticError}
    (h : b.evaluate degrees = .error (.arithmetic e)) :
    ofBuffer b degrees = .ok (failure e.message e.code) := by
  obtain ⟨name, hname⟩ := Buffer.describe_plain (plain_of_bufferOfText hb)
  simp only [ofBuffer, h, hname]
  rfl

/-- The report that belongs to a text is given. -/
theorem ofText_of_accounts {r : Report} (h : Accounts text degrees r) :
    ofText text degrees false = .ok r := by
  cases h with
  | untyped h => simp only [ofText, h]
  | @malformed b e hb h => exact ofText_eq hb (ofBuffer_malformed hb h) (by cases e <;> rfl)
  | @arithmetic b e hb h => exact ofText_eq hb (ofBuffer_arithmetic hb h) (by cases e <;> rfl)
  | value hb h hshown happroximate =>
    refine ofText_eq hb ?_ rfl
    simp only [ofBuffer, h, ofQuantity, hshown, happroximate]
    rfl

/-- Where evaluation meets an overlong number, no report is given. -/
theorem ofText_of_meetsOverlong {e : EvaluationError} (h : MeetsOverlong text degrees e) :
    ofText text degrees false = .error (.evaluation e) := by
  obtain ⟨b, hb, h, hexcess⟩ := h
  refine ofText_eq_error hb ?_
  cases hexcess <;> simp only [ofBuffer, h]

/-- Where the value has no text, no report is given. -/
theorem ofText_of_yieldsOverlong (h : YieldsOverlong text degrees) :
    ofText text degrees false = .error (.evaluation .tooManyDigits) := by
  obtain ⟨b, x, hb, h, hlong⟩ := h
  refine ofText_eq_error hb ?_
  simp only [ofBuffer, h, ofQuantity]
  -- The short text is made first, and then the approximate one.
  cases hshown : x.quantity.shortText Quantity.shortDigits with
  | error e => rfl
  | ok shown =>
    -- If the short text is there, it is the approximate one that is wanting.
    have hshort : ¬x.quantity.LacksShortText Quantity.shortDigits := by
      rw [← Quantity.shortText_eq_error_iff, hshown]
      nofun
    rw [(x.quantity.approximateText?_eq_error_iff _).mpr (hlong.resolve_left hshort)]
    rfl

/-- A text has a report that belongs to it, unless a number is overlong. -/
theorem accounts_or_overlong (text : String) (degrees : Bool) : (∃ r, Accounts text degrees r)
    ∨ ∃ e, MeetsOverlong text degrees e ∨ e = .tooManyDigits ∧ YieldsOverlong text degrees := by
  cases hb : bufferOfText text with
  | error e => exact .inl ⟨_, .untyped hb⟩
  | ok b =>
    rcases evaluate_or_overlong hb degrees with ⟨x, h⟩ | ⟨e, h⟩ | ⟨e, h⟩ | ⟨e, hmeets⟩
    -- A text may be wanting for the short one or for the approximate one.
    · have hyields (hlong : x.quantity.LacksShortText Quantity.shortDigits
          ∨ x.quantity.HasLongExponent Quantity.outputDigits) : ∃ e, MeetsOverlong text degrees e
          ∨ e = .tooManyDigits ∧ YieldsOverlong text degrees := ⟨_, .inr ⟨rfl, b, x, hb, h, hlong⟩⟩
      cases hshown : x.quantity.shortText Quantity.shortDigits with
      | error e => exact .inr (hyields (.inl ((x.quantity.shortText_eq_error_iff _).mp hshown)))
      | ok shown =>
        cases happroximate : x.quantity.approximateText? Quantity.outputDigits with
        | error e => exact .inr (hyields (.inr ((x.quantity.approximateText?_eq_error_iff _).mp happroximate)))
        | ok approximate => exact .inl ⟨_, .value hb h hshown happroximate⟩
    · exact .inl ⟨_, .malformed hb h⟩
    · exact .inl ⟨_, .arithmetic hb h⟩
    · exact .inr ⟨e, .inl hmeets⟩

end Reports

/-! ## §4 Answers -/

section Answers

variable {text : String}

/-- The answer that belongs to a text is given. -/
theorem validityOfText_of_judges {v : Option String} (h : Judges text v) :
    validityOfText text = .ok v := by
  cases h with
  | untyped h => simp only [validityOfText, h]
  | malformed hb h => simp only [validityOfText, hb, validity, h]
  | arithmetic hb h => simp only [validityOfText, hb, validity, h]
  | value hb h => simp only [validityOfText, hb, validity, h]

/-- Where evaluation meets an overlong number, no answer is given. -/
theorem validityOfText_of_overlong {e : EvaluationError} (h : MeetsOverlong text false e) :
    validityOfText text = .error e := by
  obtain ⟨b, hb, h, hexcess⟩ := h
  cases hexcess <;> simp only [validityOfText, hb, validity, h]

/-- A text has an answer that belongs to it, unless a number in it is overlong. -/
theorem judges_or_overlong (text : String) :
    (∃ v, Judges text v) ∨ ∃ e, MeetsOverlong text false e := by
  cases hb : bufferOfText text with
  | error e => exact .inl ⟨_, .untyped hb⟩
  | ok b =>
    rcases evaluate_or_overlong hb false with ⟨x, h⟩ | ⟨e, h⟩ | ⟨e, h⟩ | hmeets
    · exact .inl ⟨_, .value hb h⟩
    · exact .inl ⟨_, .malformed hb h⟩
    · exact .inl ⟨_, .arithmetic hb h⟩
    · exact .inr hmeets

/-- A text that is no longer than conversion takes gets an answer, unless a factorial in it gets none. -/
theorem validityOfText_of_length_le (h : text.length ≤ conversionLimit) :
    (∃ v, validityOfText text = .ok v) ∨ MeetsOverlong text false .overlongFactorial := by
  rcases judges_or_overlong text with ⟨v, hv⟩ | ⟨e, b, hb, hread, hexcess⟩
  · exact .inl ⟨v, validityOfText_of_judges hv⟩
  · cases hexcess with
    | factorial hfactorial => exact .inr ⟨b, hb, hread, .factorial hfactorial⟩
    | literal hholds =>
      obtain ⟨l, hl, hlong⟩ := hholds
      -- A literal has no more digits than the text has characters.
      exact absurd hlong (Nat.not_lt.mpr (Nat.le_trans (length_digits_le hb hl) h))

end Answers

/-! ## §5 What is not reported -/

/-- Evaluating a text gives the report that belongs to the text, and fails exactly if evaluation meets a
number that is overlong, or the value has no text for being so; asking whether it is valid gives the answer
that belongs to it, and fails exactly if evaluation meets a number that is overlong. -/
theorem reported_or_overlong (text : String) (degrees : Bool) :
    (∀ r, ofText text degrees false = .ok r ↔ Accounts text degrees r)
    ∧ (∀ f, ofText text degrees false = .error f ↔ ∃ e, f = .evaluation e
      ∧ (MeetsOverlong text degrees e ∨ e = .tooManyDigits ∧ YieldsOverlong text degrees))
    ∧ (∀ v, validityOfText text = .ok v ↔ Judges text v)
    ∧ ∀ e, validityOfText text = .error e ↔ MeetsOverlong text false e := by
  have hunreported {f : Failure} (h : ∃ e, f = .evaluation e ∧ (MeetsOverlong text degrees e
      ∨ e = .tooManyDigits ∧ YieldsOverlong text degrees)) : ofText text degrees false = .error f := by
    obtain ⟨e, rfl, hmeets | ⟨rfl, hyields⟩⟩ := h
    · exact ofText_of_meetsOverlong hmeets
    · exact ofText_of_yieldsOverlong hyields
  -- A report or a failure belongs to every text, so what is given is no other one.
  have htotal : (∃ r, Accounts text degrees r) ∨ ∃ f : Failure, ∃ e, f = .evaluation e
      ∧ (MeetsOverlong text degrees e ∨ e = .tooManyDigits ∧ YieldsOverlong text degrees) := by
    rcases accounts_or_overlong text degrees with haccounts | ⟨e, he⟩
    · exact .inl haccounts
    · exact .inr ⟨.evaluation e, e, rfl, he⟩
  obtain ⟨hreport, hnone⟩ :=
    eq_iff_of_total (fun _ => ofText_of_accounts) (fun _ => hunreported) htotal
  obtain ⟨hanswer, hunanswered⟩ := eq_iff_of_total (fun _ => validityOfText_of_judges)
    (fun _ => validityOfText_of_overlong) (judges_or_overlong text)
  exact ⟨hreport, hnone, hanswer, hunanswered⟩

/-- A text of more digits than conversion takes, short enough to be typed, gets neither a report nor an
answer. -/
theorem not_reported_digits {text : String} (hdigits : ∀ c ∈ text.toList, isAsciiDigit c = true)
    (hlong : conversionLimit < text.length) (hlength : text.length ≤ Typing.longestText) (degrees : Bool) :
    ofText text degrees false = .error (.evaluation .tooManyDigits)
    ∧ validityOfText text = .error .tooManyDigits := by
  have hnonempty : text.isEmpty = false := by
    rw [String.isEmpty_eq_false_iff]
    rintro rfl
    exact absurd hlong (by decide)
  have hbuffer := bufferOfText_digits hnonempty hdigits hlength
  have hwellFormed := Typing.wellFormed_wholeNumber hnonempty hdigits
  have hoverlong : conversionLimit < (Typing.wholeNumber text).digits.length := by
    rwa [Typing.digits_wholeNumber hnonempty]
  have hvalue := hwellFormed.value_of_overlong hoverlong
  -- The text is one literal, whose digits are too many, in either angle mode.
  have hmeets (degrees : Bool) : MeetsOverlong text degrees .tooManyDigits :=
    ⟨_, hbuffer, Buffer.evaluate_literal_error hvalue degrees,
      .literal ⟨_, List.mem_singleton_self _, hoverlong⟩⟩
  exact ⟨ofText_of_meetsOverlong (hmeets degrees), validityOfText_of_overlong (hmeets false)⟩

/-- The value of a short text may be too long to be written, and a text of digits too long to be read. -/
theorem not_reported_beyond :
    ofText "10^4300" false false = .error (.evaluation .tooManyDigits)
    ∧ validityOfText (String.ofList (List.replicate 4301 '1')) = .error .tooManyDigits := by
  constructor
  · have hbuffer : bufferOfText "10^4300" = .ok [.literal ⟨"10", "", false, 0⟩, .symbol .power,
        .literal ⟨"4300", "", false, 0⟩] := rfl
    have hpower : Buffer.evaluate [.literal ⟨"10", "", false, 0⟩, .symbol .power,
        .literal ⟨"4300", "", false, 0⟩] false = .ok (.computed (.ofInt (10 ^ 4300))) := by
      decide +kernel
    -- The power is an integer with one digit more than conversion takes.
    have hlong := overlong_tenPow (Nat.le_refl conversionLimit)
    exact ofText_of_yieldsOverlong ⟨_, _, hbuffer, hpower, .inl (.inl ⟨_, rfl, hlong⟩)⟩
  · refine (not_reported_digits ?_ ?_ ?_ false).2
    · intro c hc
      rw [String.toList_ofList] at hc
      rw [List.eq_of_mem_replicate hc]
      rfl
    · rw [String.length_ofList, List.length_replicate]
      decide
    · rw [String.length_ofList, List.length_replicate]
      decide

end Reckoner.Report
