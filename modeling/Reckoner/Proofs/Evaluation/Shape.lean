import Reckoner.Proofs.Evaluation.Agreement
import Reckoner.Proofs.Literal
import Reckoner.Report

/-!
# What validity depends on

Whether a buffer is valid is found out by evaluating it. Arithmetic errors do not count, but the first
one ends the evaluation, and what is behind it is never looked at. So validity is a matter of the shape
of a buffer, that is, of the kinds of its tokens and of its operators, as long as no arithmetic error is
met. A factorial of an integer that is too long to be written out leaves the question open.

- `SameShape` relates tokens that differ in their quantities at most;
- `validity_ne_iff`: two buffers of the same shape differ in validity exactly if an arithmetic error
  in one of them hides what is wrong with both, or one of them only gets no answer;
- `validity_divided`: an error does hide what is wrong.
-/

namespace Reckoner

open Reckoner.Evaluation

/-! ## §1 Shapes -/

/-- Tokens of the same kind: literals that are numbers, the same operator, or stored results of which
both or neither can be displayed. -/
inductive SameShape : Token → Token → Prop where
  | literal {l l' : Literal} (h : l.HasValue) (h' : l'.HasValue) :
      SameShape (.literal l) (.literal l')
  | operator (o : Operator) : SameShape (.operator o) (.operator o)
  | stored {n n' : Nat} {v v' : Value} {e e' : List Token} {s s' : Scope} {x x' : Option String}
      (h : x.isSome = x'.isSome) : SameShape (.stored n v e s x) (.stored n' v' e' s' x')

namespace SameShape

/-- Two runs in radians, in which quantities may differ. -/
def comparison : Comparison where
  left := ⟨false, false⟩
  right := ⟨false, false⟩
  beyond := rfl
  exact := False
  known _ := True
  faulty _ := True

/-- Tokens of the same shape evaluate alike, but for their quantities. -/
theorem agree {t u : Token} (h : SameShape t u) : Agree comparison t u := by
  cases h with
  -- Both literals are numbers, and which ones makes no difference.
  | literal h h' =>
    obtain ⟨q, hq⟩ := h
    obtain ⟨q', hq'⟩ := h'
    refine .literal ?_
    rw [hq, hq']
    exact .ok False.elim
  | operator o => exact .operator o (fun _ => rfl) fun _ => trivial
  | stored _ => exact .stored False.elim trivial

/-- Of two tokens of the same shape both can be displayed, or neither can for the same reason. -/
theorem text {t u : Token} (h : SameShape t u) : Corresponds (fun _ _ => True) t.text u.text := by
  cases h with
  | literal h h' => exact .ok trivial
  | operator o => exact .refl (fun _ => trivial) _
  | @stored n n' v v' e e' s s' x x' h =>
    -- A stored result has a text on both sides or on neither.
    cases x <;> cases x'
    · exact .error _
    · cases h
    · cases h
    · exact .ok trivial

/-- Buffers of the same shape can both be named in a report, or neither can. -/
theorem describe {b c : Buffer} (h : List.Forall₂ SameShape b c) :
    Corresponds (fun _ _ => True) b.describe c.describe := by
  have htexts := Corresponds.mapM h fun _ _ htu => htu.text
  have hdisplay : Corresponds (fun _ _ => True) b.display c.display :=
    htexts.bind fun _ _ _ => .ok trivial
  exact hdisplay.bind fun _ _ _ => .ok trivial

end SameShape

/-! ## §2 Validity -/

namespace Report

/-- Evaluating a buffer ends in an arithmetic error. -/
def FailsInArithmetic (b : Buffer) : Prop :=
  ∃ e, b.evaluate false = .error (.arithmetic e)

/-- An arithmetic error counts as valid. -/
theorem validity_of_failsInArithmetic {b : Buffer} (h : FailsInArithmetic b) :
    validity b = .ok none := by
  obtain ⟨e, he⟩ := h
  unfold validity
  rw [he]

/-- Evaluating a buffer ends at a factorial of an integer that is too long to be written out. -/
def FailsForLength (b : Buffer) : Prop :=
  b.evaluate false = .error .overlongFactorial

/-- There is no answer just if a factorial fails for its length. -/
theorem validity_eq_overlongFactorial_iff {b : Buffer} :
    validity b = .error .overlongFactorial ↔ FailsForLength b := by
  unfold validity FailsForLength
  cases b.evaluate false with
  | ok x => simp
  | error e => cases e <;> simp

/-- Buffers of the same shape have the same validity, unless an operation fails in one of them. -/
theorem validity_eq_or {b c : Buffer} (h : List.Forall₂ SameShape b c) : validity b = validity c
    ∨ (FailsInArithmetic b ∨ FailsForLength b) ∨ FailsInArithmetic c ∨ FailsForLength c := by
  have hcompared := Buffer.evaluate_agree (C := SameShape.comparison) rfl rfl
    (h.imp fun _ _ htu => htu.agree) (SameShape.describe h) fun _ => trivial
  unfold validity FailsInArithmetic FailsForLength
  generalize b.evaluate false = p at hcompared ⊢
  generalize c.evaluate false = q at hcompared ⊢
  -- Quantities may differ, so an operation may fail in one of the buffers only.
  cases hcompared with
  | ok _ => exact .inl rfl
  | error _ => exact .inl rfl
  | left _ he _ =>
    cases he with
    | arithmetic e => exact .inr (.inl (.inl ⟨e, rfl⟩))
    | overlongFactorial => exact .inr (.inl (.inr rfl))
  | right _ _ he =>
    cases he with
    | arithmetic e => exact .inr (.inr (.inl ⟨e, rfl⟩))
    | overlongFactorial => exact .inr (.inr (.inr rfl))

/-- Two buffers with the same operators in the same places, and with numbers in the others, differ in
validity exactly if one of them ends in an arithmetic error, which is valid, and the other does not and
is not valid, or if in just one of them a factorial fails for the length of its argument. -/
theorem validity_ne_iff {b c : Buffer} (h : List.Forall₂ SameShape b c) :
    validity b ≠ validity c ↔ (FailsInArithmetic b ∧ validity c ≠ .ok none
      ∨ FailsInArithmetic c ∧ validity b ≠ .ok none) ∨ ¬(FailsForLength b ↔ FailsForLength c) := by
  rw [← validity_eq_overlongFactorial_iff, ← validity_eq_overlongFactorial_iff]
  constructor
  · intro hne
    rcases validity_eq_or h with heq | (hb | hb) | hc | hc
    · exact absurd heq hne
    -- An arithmetic error is valid, so the other buffer is not.
    · exact .inl (.inl ⟨hb, fun hc => hne (by rw [validity_of_failsInArithmetic hb, hc])⟩)
    · have hlong := validity_eq_overlongFactorial_iff.mpr hb
      -- If both failed for length, neither would get an answer.
      exact .inr fun hiff => hne (by rw [hlong, hiff.mp hlong])
    · exact .inl (.inr ⟨hc, fun hb => hne (by rw [hb, validity_of_failsInArithmetic hc])⟩)
    · have hlong := validity_eq_overlongFactorial_iff.mpr hc
      exact .inr fun hiff => hne (by rw [hlong, hiff.mpr hlong])
  · rintro ((⟨hb, hc⟩ | ⟨hc, hb⟩) | hiff)
    · rw [validity_of_failsInArithmetic hb]
      exact hc.symm
    · rw [validity_of_failsInArithmetic hc]
      exact hb
    · exact fun heq => hiff (by rw [heq])

/-- One divided by a number of one digit, and a closing parenthesis too many. -/
def oneDividedBy (digit : String) : Buffer :=
  [.literal ⟨"1", "", false, 0⟩, .symbol .divide, .literal ⟨digit, "", false, 0⟩, .symbol .rightParen]

theorem sameShape_oneDividedBy : List.Forall₂ SameShape (oneDividedBy "0") (oneDividedBy "1") :=
  .cons (.literal ⟨_, rfl⟩ ⟨_, rfl⟩) (.cons (.operator _)
    (.cons (.literal ⟨_, rfl⟩ ⟨_, rfl⟩) (.cons (.operator _) .nil)))

theorem validity_ne_iff_oneDividedBy :
    List.Forall₂ SameShape (oneDividedBy "0") (oneDividedBy "1")
    ∧ (validity (oneDividedBy "0") ≠ validity (oneDividedBy "1")
      ↔ (FailsInArithmetic (oneDividedBy "0") ∧ validity (oneDividedBy "1") ≠ .ok none
        ∨ FailsInArithmetic (oneDividedBy "1") ∧ validity (oneDividedBy "0") ≠ .ok none)
        ∨ ¬(FailsForLength (oneDividedBy "0") ↔ FailsForLength (oneDividedBy "1"))) :=
  ⟨sameShape_oneDividedBy, validity_ne_iff sameShape_oneDividedBy⟩

/-- The closing parenthesis is too many whatever the divisor is. With zero as the divisor the buffer
passes as valid all the same. -/
theorem validity_divided : List.Forall₂ SameShape (oneDividedBy "0") (oneDividedBy "1")
    ∧ validity (oneDividedBy "0") = .ok none
    ∧ validity (oneDividedBy "1") = .ok (some "Failed to parse full expression") :=
  ⟨sameShape_oneDividedBy, rfl, rfl⟩

end Report

end Reckoner
