import Reckoner.Proofs.Decimal
import Reckoner.Proofs.Literal
import Reckoner.Proofs.Session.Ledger

/-!
# The texts of a session

A session keeps a short text beside its result, and every stored result that it makes takes a text along.
`label?` is the short text of a quantity, where there is one: an exact decimal with too many digits is
refused, or an exponent with too many, and then nothing stands for the text.

- `label?_eq_none_iff`: which quantities have no short text;
- `labelled_after` and `Adds.labelled`: every operation keeps the texts right;
- `texts_eq_label` draws the conclusion for whole runs: text and value belong together everywhere, but
  where the value has no short text, there is none;
- `evaluate_of_label?_eq_none`: evaluation keeps a result without a short text, though it fails;
- `result_without_text`: such results are as easy to come by as powers of ten.
-/

namespace Reckoner

open Buffer (nested)
open Reckoner.Decimal

namespace Session

/-! ## §1 Short texts -/

/-- The short text of a quantity, if it has one. -/
def label? (q : Quantity) : Option String :=
  (q.shortText Quantity.shortDigits).toOption

/-- A quantity has a short text unless it is a decimal fraction with more digits than conversion takes, or
needs an exponent with more. -/
theorem label?_eq_none_iff (q : Quantity) :
    label? q = none ↔ q.LacksShortText Quantity.shortDigits := by
  rw [← Quantity.shortText_eq_error_iff q Quantity.shortDigits, label?]
  cases q.shortText Quantity.shortDigits with
  | ok text => exact iff_of_false nofun nofun
  | error e => exact iff_of_true rfl rfl

/-- A session asks for the text of a result, and takes an error for a missing one. -/
theorem toOption_shortTextOf (q : Quantity) : (shortTextOf q).toOption = label? q := by
  unfold shortTextOf label?
  cases q.shortText Quantity.shortDigits with
  | ok text => rfl
  | error e => rfl

theorem label?_of_ok {q : Quantity} {text : String} (h : shortTextOf q = .ok text) :
    label? q = some text := by
  rw [← toOption_shortTextOf, h]
  rfl

theorem label?_of_error {q : Quantity} {e : EvaluationError} (h : shortTextOf q = .error e) :
    label? q = none := by
  rw [← toOption_shortTextOf, h]
  rfl

/-! ## §2 The text of the result -/

/-- The text that a session keeps is that of its result. -/
def Labelled (s : Session) : Prop :=
  s.resultText = s.result.bind label?

variable {s s' : Session} {past : List Session} {c : Command} {new : List Token}

/-- Without a result there is no text, so the text of a new result is its own, or is missing. -/
theorem Labelled.evaluate (h : s.Labelled) : s.evaluate.2.Labelled := by
  unfold Session.evaluate
  cases hresult : s.result with
  | some q => exact h
  | none =>
    have hnone : s.resultText = none := by
      rw [h, hresult]
      rfl
    dsimp only
    cases s.expr.evaluate s.degrees with
    | error e => exact h
    | ok x =>
      dsimp only [keepResult]
      cases htext : shortTextOf x.quantity with
      | error e => exact hnone.trans (label?_of_error htext).symm
      | ok text =>
        dsimp only
        -- The text is kept even if the report of the result fails.
        cases s.expr.describe with
        | ok _ => exact (label?_of_ok htext).symm
        | error e => exact (label?_of_ok htext).symm

/-- Every operation keeps the text that of the result. -/
theorem labelled_after (h : s.Labelled) (c : Command) : (s.after c).Labelled := by
  cases resultEffect_after s c with
  | forgotten hresult htext =>
    rw [Labelled, hresult, htext]
    rfl
  | kept hresult htext => rwa [Labelled, hresult, htext]
  | evaluated hresult htext =>
    rw [Labelled, hresult, htext]
    exact h.evaluate

/-! ## §3 The texts of stored results -/

end Session

/-- A token that has the short text of its value, if it is a stored result. -/
def Token.Labelled (t : Token) : Prop :=
  ∀ n v e r x, t = .stored n v e r x → x = Session.label? v.quantity

theorem Token.Plain.labelled {t : Token} (h : t.Plain) : t.Labelled := by
  rintro n v e r x rfl
  exact absurd h.1 nofun

namespace Session

/-- The stored results that a session makes have the short texts of their values. -/
theorem Adds.labelled (h : Adds s s' c new) (hs : s.Labelled)
    (hpaste : ∀ b, c = .paste b → ∀ t ∈ nested b, t.Labelled)
    (hrestore : ∀ room bytes, c ≠ .restore room bytes) : ∀ t ∈ new, t.Labelled := by
  have hvalue {t : Token} {s₁ : Session} (ht : s.abbreviated = (.ok t, s₁)) : t.Labelled := by
    obtain ⟨q, hq, rfl⟩ := abbreviated_eq ht
    rintro n v e r x ⟨⟩
    -- The session keeps text and result together, and the stored result takes both.
    have htext := hs.evaluate
    rw [Labelled, result_of_evaluate_ok hq] at htext
    exact htext
  cases h with
  | nothing hnext => simp
  | pasted b hnext => exact hpaste b rfl
  | value ht hnext => simpa using hvalue ht
  | @combination change t u s₁ ht hchange hu hnext =>
    -- A combination is stored only with its text.
    have hcombined : u.Labelled := by
      obtain ⟨x, text, -, htext, rfl⟩ := combined_eq hu
      rintro n v e r y ⟨⟩
      exact (label?_of_ok htext).symm
    simp [hvalue ht, hcombined]
  | restored hrestored => exact absurd rfl (hrestore _ _)

/-- All texts are right, in a session and in what it and those before it hold. -/
structure Shown (s : Session) (past : List Session) : Prop where
  result : s.Labelled
  stored : ∀ t ∈ ledger (s :: past), t.Labelled

/-- Every operation within a session keeps all texts right. -/
theorem shown_after (h : Shown s past) (hkept : Kept s past) (hc : Within (s :: past) c) :
    Shown (s.after c) (s :: past) := by
  obtain ⟨new, hnew, hdrawn⟩ := (effect_after hkept.sound_expr c).adds
  have hpaste : ∀ b, c = .paste b → ∀ t ∈ nested b, t.Labelled := by
    rintro b rfl
    exact (Pasteable.nested hc).forall h.stored fun _ hplain => hplain.labelled
  have hrestore : ∀ room bytes, c ≠ .restore room bytes := by
    rintro room bytes rfl
    exact hc
  -- What the session holds then is drawn from what was held, and from what was added.
  have hheld : ∀ t ∈ new ++ s.held, t.Labelled := List.forall_mem_append.mpr
    ⟨hnew.labelled h.result hpaste hrestore, fun t ht => h.stored t (held_subset_ledger s past ht)⟩
  exact ⟨labelled_after h.result c, List.forall_mem_append.mpr
    ⟨hdrawn.forall hheld fun _ hplain => hplain.labelled, h.stored⟩⟩

/-- All texts are right all along a run within a session. By induction on the run. -/
theorem shown_of_run (h : Run IsFresh Within (s :: past)) : Shown s past := by
  generalize hrun : s :: past = run at h
  induction h generalizing s past with
  | start h =>
    cases hrun
    obtain ⟨degrees, rfl⟩ := h
    exact ⟨rfl, by simp [ledger, held, fresh]⟩
  | step hbefore hc ih =>
    cases hrun
    exact shown_after (ih rfl) (kept_of_run hbefore) hc

/-- Whatever was done within a session, the text beside its result is the short text of the result, and
the text of every stored result that it holds, at any depth, is the short text of the value. Where there
is no result, or where it has no short text, there is no text. -/
theorem texts_eq_label (h : Run IsFresh Within (s :: past)) :
    s.resultText = s.result.bind label?
    ∧ ∀ n v e r x, .stored n v e r x ∈ s.held → x = label? v.quantity := by
  obtain ⟨hresult, hstored⟩ := shown_of_run h
  refine ⟨hresult, fun n v e r x ht => ?_⟩
  exact hstored _ (held_subset_ledger s past ht) n v e r x rfl

/-- A session with a result, whose expression and memory are stored results of the same value. -/
def doubledOne : Session :=
  (((fresh false).after (.press 1)).after (.updateMemory .add)).after .collapse

/-- A session whose memory and expression share the text of one result. -/
theorem texts_eq_label_doubledOne : ∃ past, Run IsFresh Within (doubledOne :: past)
    ∧ doubledOne.resultText = doubledOne.result.bind label?
    ∧ ∀ n v e r x, .stored n v e r x ∈ doubledOne.held → x = label? v.quantity := by
  have hrun : Run IsFresh Within (doubledOne :: _) :=
    .step (.step (.step (.start ⟨false, rfl⟩) trivial) trivial) trivial
  exact ⟨_, hrun, texts_eq_label hrun⟩

/-! ## §4 Results without a text -/

/-- Evaluation keeps a result before it makes the text. Where the result has no short text, evaluation
fails and the session is left with a result and no text. -/
theorem evaluate_of_label?_eq_none {s : Session} (hresult : s.result = none) {x : Operand}
    (hx : s.expr.evaluate s.degrees = .ok x) (hlabel : label? x.quantity = none) :
    s.evaluate = (.error .tooManyDigits, { s with result := some x.quantity }) := by
  have htext : shortTextOf x.quantity = .error .tooManyDigits := by
    unfold label? at hlabel
    unfold shortTextOf
    -- It is the error for the text that evaluation fails with.
    cases hq : x.quantity.shortText Quantity.shortDigits with
    | ok text =>
      rw [hq] at hlabel
      cases hlabel
    | error e => rfl
  simp only [Session.evaluate, hresult, hx, keepResult, htext]

/-- Collapsing makes a stored result of the result and the text that there are. -/
theorem held_collapse_of_result {s : Session} {q : Quantity} (hresult : s.result = some q) :
    ∃ n v b r, v.quantity = q ∧ .stored n v b r s.resultText ∈ (s.after .collapse).held := by
  have hcollapse : (s.after .collapse).expr = [s.expr.withoutTrailingBinary.abbreviated s.next
      ⟨q, .result s.next⟩ s.degrees s.resultText] := by
    simp only [after, Session.collapse, Session.abbreviated, Session.evaluate, hresult]
  have hheld : s.expr.withoutTrailingBinary.abbreviated s.next ⟨q, .result s.next⟩ s.degrees
      s.resultText ∈ (s.after .collapse).held := by
    rw [held, hcollapse]
    exact List.mem_append_left _ List.mem_cons_self
  exact ⟨s.next, ⟨q, .result s.next⟩, _, _, rfl, hheld⟩

/-- A session with a power of ten as its expression: a one, and an exponent. -/
def tenTo (e : Nat) : Session :=
  ((fresh false).after (.press 1)).after (.setExponent e)

/-- A one and an exponent are one literal. -/
theorem tenTo_eq {e : Nat} (h : 0 < e) :
    tenTo e = ⟨false, [.literal ⟨"1", "", false, e⟩], none, none, none, 0⟩ := by
  have hne : (e : Int) ≠ 0 := by omega
  simp only [tenTo, after, Session.setExponent, Buffer.setExponent, Buffer.exponentEdit, if_neg hne]
  rfl

theorem value_tenTo {e : Nat} (h : 0 < e) :
    Literal.value ⟨"1", "", false, e⟩ = .ok (.ofInt (10 ^ e)) := by
  have hread : Text.readInt "1" = .ok 1 := rfl
  simp [Literal.value, hread, h, Quantity.ofRatio, Quantity.ofInt, Rat.mkRat_one]

/-- A power of ten with more digits than conversion takes becomes a result without a text, and then the
value of a stored result without a text. -/
theorem result_without_text {e : Nat} (h : conversionLimit ≤ e) :
    ((tenTo e).after .evaluate).result = some (.ofInt (10 ^ e))
    ∧ ((tenTo e).after .evaluate).resultText = none
    ∧ ∃ n v b r, .stored n v b r none ∈ (((tenTo e).after .evaluate).after .collapse).held := by
  have hpos : 0 < e := Nat.lt_of_lt_of_le (by decide) h
  -- The power is an integer with too many digits.
  have hlabel : label? (.ofInt (10 ^ e)) = none :=
    (label?_eq_none_iff _).mpr (.inl ⟨_, rfl, overlong_tenPow h⟩)
  have hsession := tenTo_eq hpos
  have hvalue : (tenTo e).expr.evaluate (tenTo e).degrees = .ok (.computed (.ofInt (10 ^ e))) := by
    rw [hsession]
    exact Buffer.evaluate_literal (value_tenTo hpos) false
  have hevaluate := evaluate_of_label?_eq_none (by rw [hsession]) hvalue hlabel
  -- Evaluation fails, but the session keeps the result.
  have hafter : (tenTo e).after .evaluate = { tenTo e with result := some (.ofInt (10 ^ e)) } := by
    rw [after, hevaluate]
    rfl
  have htext : ((tenTo e).after .evaluate).resultText = none := by
    rw [hafter, hsession]
  have hresult : ((tenTo e).after .evaluate).result = some (.ofInt (10 ^ e)) := by
    rw [hafter]
  obtain ⟨n, v, b, r, -, hheld⟩ := held_collapse_of_result hresult
  rw [htext] at hheld
  exact ⟨hresult, htext, n, v, b, r, hheld⟩

/-- One digit more than conversion takes is enough. -/
theorem result_without_text_beyond : ∃ past,
    Run IsFresh Within ((tenTo 4300).after .evaluate :: past)
    ∧ ((tenTo 4300).after .evaluate).result = some (.ofInt (10 ^ 4300))
    ∧ ((tenTo 4300).after .evaluate).resultText = none
    ∧ ∃ n v b r, .stored n v b r none ∈ (((tenTo 4300).after .evaluate).after .collapse).held := by
  have hrun : Run IsFresh Within ((tenTo 4300).after .evaluate :: _) :=
    .step (.step (.step (.start ⟨false, rfl⟩) trivial) trivial) trivial
  exact ⟨_, hrun, result_without_text (Nat.le_refl conversionLimit)⟩

end Session

end Reckoner
