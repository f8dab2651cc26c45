import Reckoner.Proofs.Buffer.Editing
import Reckoner.Proofs.Evaluation.Abbreviation
import Reckoner.Proofs.Session.Coherence

/-!
# Continuing from the last answer

Collapsing a session leaves one stored result, and what is typed behind it goes on from there. The same
keys behind the expression in parentheses, with what it left open closed, are accepted or rejected alike, and
what is evaluated in the end has the same outcome. The buffers differ in the stored result, and in the
multiplication sign that is typed between it and a number.

- `pressEach` presses keys in turn, and `pressEach_related` carries a relation through;
- `Continued` relates the two buffers, and `Continued.pressed?` says that every key preserves it;
- `Continued.sameOutcome`: related buffers evaluate alike;
- `sameOutcome_continued` puts a session beside a buffer.
-/

namespace Reckoner

open EvaluationError (syntaxError ofArithmetic ofLiteral)
open Reckoner.Evaluation

/-! ## §1 Keys in turn -/

/-- Press keys in turn: what each of them returns, and the state after all of them. A key that fails leaves
the state as it is. -/
def pressEach {σ : Type} (press : σ → Int → Except KeyError (Bool × σ)) (s : σ) :
    List Int → List (Except KeyError Bool) × σ
  | [] => ([], s)
  | n :: ns =>
    match press s n with
    | .ok (accepted, s) => (.ok accepted :: (pressEach press s ns).1, (pressEach press s ns).2)
    | .error e => (.error e :: (pressEach press s ns).1, (pressEach press s ns).2)

/-- What every key preserves is preserved by all of them. By induction on the keys. -/
theorem pressEach_related {σ τ : Type} {press : σ → Int → Except KeyError (Bool × σ)}
    {press' : τ → Int → Except KeyError (Bool × τ)} {R : σ → τ → Prop}
    (hstep : ∀ s t n, R s t →
      Corresponds (fun p q => p.1 = q.1 ∧ R p.2 q.2) (press s n) (press' t n))
    {s : σ} {t : τ} (h : R s t) (ns : List Int) :
    (pressEach press s ns).1 = (pressEach press' t ns).1
      ∧ R (pressEach press s ns).2 (pressEach press' t ns).2 := by
  induction ns generalizing s t with
  | nil => exact ⟨rfl, h⟩
  | cons n ns ih =>
    have hn := hstep s t n h
    simp only [pressEach]
    generalize press s n = p at hn ⊢
    generalize press' t n = q at hn ⊢
    cases hn with
    | @ok p q hpq =>
      obtain ⟨haccepted, hstate⟩ := hpq
      obtain ⟨hanswers, hend⟩ := ih hstate
      exact ⟨by simp only [haccepted, hanswers], hend⟩
    -- A key that fails on one side fails on the other, and changes neither.
    | error e =>
      obtain ⟨hanswers, hend⟩ := ih h
      exact ⟨by simp only [hanswers], hend⟩

/-! ## §2 Multiplication signs -/

section
variable {m : Mode} (hm : m.beyond = false) {n : Nat} {v : Value} {e : Buffer} {s : Scope}
  {text : Option String}
include hm

/-- A stored result is a factor where neither a suffix nor an exponent follows. -/
theorem signed_stored {room : Nat} {rest : List Token} (hmark : leads isMark rest = false)
    (hpower : leads (Token.isSymbol .power) rest = false) :
    signed m (readers m room) (.stored n v e s text :: rest) = within room 1 (.ofValue v, rest) := by
  let x : Phrase.Signed := .mk false (.plain (.mk (.number (.stored n v e s text)) []))
  have hread : Reads room 1 rest (.ok (.ofValue v)) (signed m (readers m room) (x.tokens ++ rest)) :=
    x.reads hm room ⟨⟨trivial, hmark⟩, hpower⟩
  exact hread.eq_within

/-- A number is multiplied with the stored result in front of it, with a sign between them or without. -/
theorem expr_times (room : Nat) (l : Literal) (rest : List Token) :
    expr m (readers m room) (.stored n v e s text :: .symbol .times :: .literal l :: rest)
      = expr m (readers m room) (.stored n v e s text :: .literal l :: rest) := by
  -- A factor that follows directly is joined as by the sign.
  have hproducts (fuel : Nat) (x : Operand) :
      products m (readers m room) (fuel + 1) x (.symbol .times :: .literal l :: rest)
        = products m (readers m room) (fuel + 1) x (.literal l :: rest) := by
    rw [products, products, link_eq hm, link_eq hm]
    rfl
  have hterm : term m (readers m room) (.stored n v e s text :: .symbol .times :: .literal l :: rest)
      = term m (readers m room) (.stored n v e s text :: .literal l :: rest) := by
    rw [term, term, signed_stored hm rfl rfl, signed_stored hm rfl rfl]
    unfold within
    split
    · simp only [ok_bind]
      rw [hproducts]
      exact products_fuel hm (by simp only [List.length_cons]; omega) (Nat.le_succ _)
    · rfl
  rw [expr, expr, hterm]

end

/-! ## §3 The two buffers -/

/-- A stored result and a group with the same tokens typed behind them. Between the stored result and a
number there is a multiplication sign. -/
inductive Continued (t : Token) (group : Buffer) : Buffer → Buffer → Prop where
  | directly (back : Buffer) : Continued t group (t :: back) (group ++ back)
  | times (l : Literal) (back : Buffer) :
      Continued t group (t :: .symbol .times :: .literal l :: back) (group ++ .literal l :: back)

namespace Continued

open Buffer

theorem first (t : Token) (group : Buffer) : Continued t group [t] group := by
  have hdirectly : Continued t group [t] (group ++ []) := .directly []
  rwa [List.append_nil] at hdirectly

/-- What is typed behind a literal leaves a literal in front. -/
theorem literal_pressed? {l : Literal} {back b : Buffer} {k : Key}
    (h : pressed? (.literal l :: back) k = some b) : ∃ l' back', b = .literal l' :: back' := by
  by_cases hback : back = []
  · subst hback
    rcases pressed?_cases k with ⟨type, hk⟩ | ⟨s, hk⟩
    · rw [hk] at h
      obtain ⟨l', -, rfl⟩ := Option.map_eq_some_iff.mp h
      exact ⟨l', [], rfl⟩
    -- The literal is an operand, so an operator goes behind it.
    · rw [hk, operated?] at h
      split at h
      · split at h
        · cases h
        · cases h
          exact ⟨l, _, rfl⟩
      · cases h
        exact ⟨l, _, rfl⟩
  · have happend := pressed?_append [.literal l] hback
      (withoutTrailingBinary_append rfl [] back) k
    rw [List.singleton_append, h] at happend
    obtain ⟨back', -, rfl⟩ := Option.map_eq_some_iff.mp happend.symm
    exact ⟨l, back', rfl⟩

variable {n : Nat} {v : Value} {e : Buffer} {s : Scope} {text : Option String} {S b c : Buffer}

theorem getLast?_grouped (S : Buffer) : S.grouped.getLast? = some (.symbol .rightParen) := by
  rw [grouped, closings, List.replicate_succ', ← List.append_assoc, ← List.cons_append,
    List.getLast?_concat]

/-- A number typed behind a stored result multiplies it, and behind a group it does so without a sign. -/
theorem typed?_first (type : Literal → Option Literal) :
    Option.Rel (Continued (.stored n v e s text) S.grouped)
      (typed? [.stored n v e s text] type) (typed? S.grouped type) := by
  have hgroup : typed? S.grouped type
      = (type .empty).map fun l => S.grouped ++ [.literal l] := by
    rw [typed?, getLast?_grouped]
    rfl
  have hstored : typed? [.stored n v e s text] type
      = (type .empty).map fun l => [.stored n v e s text, .symbol .times, .literal l] := rfl
  -- A number is typed behind a stored result with a sign, and behind a group without one.
  rw [hgroup, hstored]
  cases type .empty with
  | none => exact .none
  | some l => exact .some (.times l [])

/-- An operator applies to a stored result and to a group alike. -/
theorem operated?_first (o : Symbol) :
    Option.Rel (Continued (.stored n v e s text) S.grouped)
      (operated? [.stored n v e s text] o) (operated? S.grouped o) := by
  have hgroup : operated? S.grouped o = some (S.grouped ++ [.symbol o]) := by
    -- A group does not lack an operand and ends in no operator, so the operator is put behind it.
    have hlacks : S.grouped.lacksOperand = false := by
      rw [lacksOperand, getLast?_grouped]
      rfl
    have hends : S.grouped.withoutTrailingBinary = S.grouped := by
      have hgrouped := withoutTrailingBinary_grouped [] S []
      rw [List.nil_append, List.nil_append, List.append_nil] at hgrouped
      exact hgrouped.trans (List.append_nil _)
    simp only [operated?, hlacks, hends, Bool.false_eq_true, if_false, ite_self]
  have hstored : operated? [.stored n v e s text] o = some [.stored n v e s text, .symbol o] := by
    simp only [operated?]
    split <;> rfl
  rw [hgroup, hstored]
  exact .some (.directly [.symbol o])

/-- Every key does alike on both sides. -/
theorem pressed? (h : Continued (.stored n v e s text) S.grouped b c) (k : Key) :
    Option.Rel (Continued (.stored n v e s text) S.grouped) (b.pressed? k) (c.pressed? k) := by
  have hgroup (back : Buffer) : withoutTrailingBinary (S.grouped ++ back)
      = S.grouped ++ withoutTrailingBinary back := withoutTrailingBinary_grouped [] S back
  cases h with
  | directly back =>
    by_cases hback : back = []
    · subst hback
      rw [List.append_nil]
      -- With nothing behind it, the stored result or the group itself is what the key meets.
      rcases pressed?_cases k with ⟨type, hk⟩ | ⟨o, hk⟩
      · rw [hk, hk]
        exact typed?_first type
      · rw [hk, hk]
        exact operated?_first o
    · have hstored := pressed?_append [.stored n v e s text] hback
        (withoutTrailingBinary_append rfl [] back) k
      rw [List.singleton_append] at hstored
      rw [hstored, pressed?_append _ hback (hgroup back)]
      cases back.pressed? k with
      | none => exact .none
      | some back' => exact .some (.directly back')
  -- The number ends the operators in front of it, so the key acts behind it on both sides.
  | times l back =>
    have hliteral : withoutTrailingBinary (.literal l :: back)
        = .literal l :: withoutTrailingBinary back := withoutTrailingBinary_append rfl [] back
    have hstored := pressed?_append [.stored n v e s text, .symbol .times]
      (b := .literal l :: back) (List.cons_ne_nil _ _)
      (by rw [hliteral, withoutTrailingBinary_append rfl]) k
    rw [List.cons_append, List.singleton_append] at hstored
    rw [hstored, pressed?_append _ (List.cons_ne_nil _ _) (hgroup _)]
    cases hk : Buffer.pressed? (.literal l :: back) k with
    | none => exact .none
    | some b' =>
      obtain ⟨l', back', rfl⟩ := literal_pressed? hk
      exact .some (.times l' back')

/-- What a key returns is the same on both sides. -/
theorem press (h : Continued (.stored n v e s text) S.grouped b c) (k : Int) :
    Corresponds (fun p q => p.1 = q.1 ∧ Continued (.stored n v e s text) S.grouped p.2 q.2)
      (b.press k) (c.press k) := by
  rw [press_eq, press_eq]
  cases Key.ofCode? k with
  | none => exact .error _
  | some k =>
    have hpressed := h.pressed? k
    dsimp only
    generalize b.pressed? k = b' at hpressed ⊢
    generalize c.pressed? k = c' at hpressed ⊢
    -- The buffers are related, so a key is accepted on both sides or on neither.
    cases hpressed with
    | none => exact .ok ⟨rfl, h⟩
    | some h' => exact .ok ⟨rfl, h'⟩

/-- In the end both sides are reported alike, unless the nesting gets too deep with the group. -/
theorem sameOutcome {degrees : Bool} {x : Operand} {text : String}
    (h : Continued (.stored n v e s (some text)) S.grouped b c)
    (hS : S.evaluatePrefix ⟨degrees, S.length⟩ = .ok (S.length, x))
    (htexts : ∀ n v e s, Token.stored n v e s none ∉ S) (hv : v.quantity = x.quantity)
    (hroom : c.evaluate degrees ≠ syntaxError .nestedTooDeeply) :
    SameOutcome (b.quantity degrees) (c.quantity degrees) := by
  cases h with
  | directly back =>
    exact sameOutcome_grouped hS htexts hv [] (by simp) hroom
  | times l back =>
    refine sameOutcome_of_corresponds (corresponds_of_matches ?_ hroom) ?_
    -- The sign that is only on one side makes no difference to what is read.
    · have hstored := withoutTrailingBinary_append (t := .literal l) rfl
        [.stored n v e s (some text), .symbol .times] back
      have hgroup := withoutTrailingBinary_append (t := .literal l) rfl S.grouped back
      rw [List.cons_append, List.singleton_append] at hstored
      rw [hstored, hgroup, List.cons_append, List.singleton_append, expr_times rfl]
      exact matches_grouped hS hv [] nofun
    · have hstored : ∀ t ∈ [Token.stored n v e s (some text), .symbol .times],
          ∃ text, t.text = .ok text := by
        intro t ht
        simp only [List.mem_cons, List.not_mem_nil, or_false] at ht
        rcases ht with rfl | rfl
        · exact ⟨text, rfl⟩
        · exact Token.operatorText_listed .times
      -- Both can be named in a report: the stored result has a text, and what it was computed from, too.
      exact describe_between hstored (text_grouped (text_of_evaluatePrefix hS htexts)) []
        (.literal l :: back)

end Continued

/-! ## §4 The session -/

namespace Buffer

/-- A key that is rejected leaves a buffer as it is. -/
theorem press_rejected {b c : Buffer} {n : Int} (h : b.press n = .ok (false, c)) : c = b := by
  rw [press_eq] at h
  cases hkey : Key.ofCode? n with
  | none =>
    rw [hkey] at h
    cases h
  | some k =>
    simp only [hkey] at h
    cases hpressed : b.pressed? k with
    | none =>
      simp only [hpressed] at h
      cases h
      rfl
    | some d =>
      simp only [hpressed] at h
      cases h

end Buffer

namespace Session

/-- A session that goes on from a stored result, beside a buffer that goes on from a group. -/
structure Continues (t : Token) (group : Buffer) (degrees : Bool) (s : Session) (c : Buffer) : Prop where
  degrees_eq : s.degrees = degrees
  current : s.Current
  expr : Continued t group s.expr c
  sound : ∀ u ∈ s.expr, u.Sound
  text_ok : ∀ u ∈ s.expr, ∃ text, u.text = .ok text

variable {s : Session} {degrees : Bool}

/-- Pressing a key in a session is pressing it in its expression, and makes the result outdated if the key is
accepted. -/
theorem Continues.press {n : Nat} {v : Value} {e : Buffer} {r : Scope} {text : Option String}
    {S c : Buffer} (h : Continues (.stored n v e r text) S.grouped degrees s c) (k : Int) :
    Corresponds
      (fun p q => p.1 = q.1 ∧ Continues (.stored n v e r text) S.grouped degrees p.2 q.2)
      (s.press k) (c.press k) := by
  have hkey := h.expr.press k
  unfold Session.press
  cases hpress : s.expr.press k with
  | error e =>
    rw [hpress] at hkey
    generalize c.press k = outcome at hkey ⊢
    cases hkey
    exact .error e
  | ok p =>
    obtain ⟨accepted, b⟩ := p
    rw [hpress] at hkey
    obtain ⟨⟨_, c'⟩, hc, haccepted, hcontinued⟩ := hkey.of_ok_left
    dsimp only at haccepted hcontinued
    subst haccepted
    rw [hc]
    cases accepted with
    -- A rejected key leaves the session as it is, and an accepted one changes the expression only.
    | false =>
      obtain rfl := Buffer.press_rejected hpress
      exact .ok ⟨rfl, h.degrees_eq, h.current, hcontinued, h.sound, h.text_ok⟩
    | true =>
      -- What a key puts in can be displayed, and is no stored result.
      have hgrown := Buffer.grown_press (Buffer.typable_of_sound h.sound) hpress
      refine .ok ⟨rfl, h.degrees_eq, current_withExpr s b, hcontinued, fun u hu => ?_, fun u hu => ?_⟩
      · rcases hgrown u hu with hu | hu
        · exact h.sound u hu
        · exact hu.2
      · rcases hgrown u hu with hu | hu
        · exact h.text_ok u hu
        · exact hu.text_ok

/-- Evaluating a session gives the value of its expression, if that and its value can be displayed. -/
theorem evaluate_eq_quantity (hcurrent : s.Current) (htext : ∀ u ∈ s.expr, ∃ text, u.text = .ok text)
    (hshown : ∀ q, s.expr.quantity s.degrees = .ok q → ∃ text, shortTextOf q = .ok text) :
    s.evaluate.1 = s.expr.quantity s.degrees := by
  unfold Session.evaluate Buffer.quantity
  unfold Buffer.quantity at hshown
  cases hresult : s.result with
  | some q =>
    -- A result that is kept is current.
    obtain ⟨x, hx, rfl⟩ := hcurrent q hresult
    rw [hx]
    rfl
  | none =>
    cases hx : s.expr.evaluate s.degrees with
    | error e => rfl
    | ok x =>
      rw [hx] at hshown
      obtain ⟨text, hshort⟩ := hshown x.quantity rfl
      obtain ⟨name, hname⟩ := Buffer.describe_ok htext
      simp only [keepResult, hshort, hname]
      rfl

/-- If a session evaluates, its expression is read as a whole, without the operators at its end. -/
theorem evaluatePrefix_of_evaluate_ok (h : s.Current) {q : Quantity} (hq : s.evaluate.1 = .ok q) :
    ∃ x, s.expr.withoutTrailingBinary.evaluatePrefix ⟨s.degrees, s.expr.withoutTrailingBinary.length⟩
      = .ok (s.expr.withoutTrailingBinary.length, x) ∧ x.quantity = q := by
  obtain ⟨x, hx, hxq⟩ := h.evaluate q (result_of_evaluate_ok hq)
  -- Evaluating leaves the expression and the mode as they are.
  obtain ⟨_, _, hframe⟩ := s.evaluate_frame
  rw [hframe] at hx
  refine ⟨x, ?_, hxq⟩
  rw [Buffer.evaluatePrefix_withoutTrailingBinary, Buffer.length_withoutTrailingBinary]
  exact Buffer.evaluate_eq_ok_iff.mp hx

/-- Collapsing leaves the stored result of the expression. -/
theorem collapse_of_evaluate_ok {q : Quantity} {text : String} (hq : s.evaluate.1 = .ok q)
    (htext : s.evaluate.2.resultText = some text) :
    s.collapse.1 = .ok () ∧ s.collapse.2.degrees = s.degrees
      ∧ s.collapse.2.expr = [.stored s.next ⟨q, .result s.next⟩ s.expr.withoutTrailingBinary
        ⟨s.degrees, s.expr.withoutTrailingBinary.length⟩ (some text)] := by
  obtain ⟨result, resultText, hframe⟩ := s.evaluate_frame
  unfold Session.collapse Session.abbreviated
  generalize s.evaluate = p at hq htext hframe ⊢
  obtain ⟨outcome, s'⟩ := p
  dsimp only at hq htext hframe
  subst hq hframe
  obtain rfl : resultText = some text := htext
  exact ⟨rfl, rfl, rfl⟩

/-- A session goes on from the stored result that it is collapsed to. -/
theorem continues_collapse (h : s.Current) {q : Quantity} {text : String} (hq : s.evaluate.1 = .ok q)
    (htext : s.evaluate.2.resultText = some text) :
    Continues (.stored s.next ⟨q, .result s.next⟩ s.expr.withoutTrailingBinary
        ⟨s.degrees, s.expr.withoutTrailingBinary.length⟩ (some text))
      s.expr.withoutTrailingBinary.grouped s.degrees s.collapse.2 s.expr.withoutTrailingBinary.grouped := by
  obtain ⟨-, hdegrees, hexpr⟩ := collapse_of_evaluate_ok hq htext
  obtain ⟨x, hS, hxq⟩ := evaluatePrefix_of_evaluate_ok h hq
  refine ⟨hdegrees, h.collapse, ?_, fun u hu => ?_, fun u hu => ?_⟩
  · rw [hexpr]
    exact .first _ _
  · rw [hexpr] at hu
    obtain rfl := List.mem_singleton.mp hu
    exact ⟨rfl, x, hS, hxq⟩
  · rw [hexpr] at hu
    obtain rfl := List.mem_singleton.mp hu
    exact ⟨text, rfl⟩

/-- Collapsing a session and going on gives the same as going on behind its expression in parentheses: the
same keys are accepted, and what is evaluated in the end is reported alike. The texts of the results that
come up are all there, and the nesting does not get too deep with the parentheses. -/
theorem sameOutcome_continued {past : List Session}
    (hrun : Run (fun s => s.result = none) (fun _ _ => True) (s :: past)) {q : Quantity}
    (hq : s.evaluate.1 = .ok q) {text : String} (htext : s.evaluate.2.resultText = some text)
    (htexts : ∀ n v e r, Token.stored n v e r none ∉ s.expr) (keys : List Int)
    (hshown : ∀ q, (pressEach Buffer.press s.expr.withoutTrailingBinary.grouped keys).2.quantity s.degrees
      = .ok q → ∃ text, shortTextOf q = .ok text)
    (hroom : (pressEach Buffer.press s.expr.withoutTrailingBinary.grouped keys).2.evaluate s.degrees
      ≠ syntaxError .nestedTooDeeply) :
    s.collapse.1 = .ok ()
    ∧ (pressEach Session.press s.collapse.2 keys).1
      = (pressEach Buffer.press s.expr.withoutTrailingBinary.grouped keys).1
    ∧ SameOutcome (pressEach Session.press s.collapse.2 keys).2.evaluate.1
      ((pressEach Buffer.press s.expr.withoutTrailingBinary.grouped keys).2.quantity s.degrees) := by
  have hcurrent := current_of_run (fun _ hs => hs) hrun
  obtain ⟨x, hS, hxq⟩ := evaluatePrefix_of_evaluate_ok hcurrent hq
  have hcontinues := continues_collapse hcurrent hq htext
  obtain ⟨hanswers, hend⟩ := pressEach_related (fun _ _ n h => h.press n) hcontinues keys
  have hkept : ∀ n v e r, Token.stored n v e r none ∉ s.expr.withoutTrailingBinary :=
    fun n v e r ht => htexts n v e r (List.mem_of_mem_take ht)
  -- The buffers are reported alike, and it is left to show that the session reports its own.
  have houtcome := hend.expr.sameOutcome hS hkept hxq.symm hroom
  refine ⟨(collapse_of_evaluate_ok hq htext).1, hanswers, ?_⟩
  rw [evaluate_eq_quantity hend.current hend.text_ok, hend.degrees_eq]
  · exact houtcome
  -- The value of the session is that of the group, so it has a text.
  · intro q' hq'
    rw [hend.degrees_eq] at hq'
    rw [hq'] at houtcome
    refine hshown q' ?_
    generalize Buffer.quantity _ s.degrees = outcome at houtcome ⊢
    cases houtcome
    rfl

/-- A session in which two and three are added in a parenthesis that is left open, with a plus behind. -/
def openSum : Session :=
  ((((((fresh false).after (.press 40)).after (.press 2)).after (.press 20)).after (.press 3)).after
    (.press 20))

/-- The sum is multiplied by four, whether it was collapsed or put in parentheses. -/
theorem sameOutcome_continued_openSum : ∃ past,
    Run (fun s => s.result = none) (fun _ _ => True) (openSum :: past)
    ∧ openSum.evaluate.1 = .ok 5 ∧ openSum.evaluate.2.resultText = some "5"
    ∧ (pressEach Session.press openSum.collapse.2 [4]).1
      = (pressEach Buffer.press openSum.expr.withoutTrailingBinary.grouped [4]).1
    ∧ SameOutcome (pressEach Session.press openSum.collapse.2 [4]).2.evaluate.1
      ((pressEach Buffer.press openSum.expr.withoutTrailingBinary.grouped [4]).2.quantity false) := by
  have hrun : Run (fun s => s.result = none) (fun _ _ => True) (openSum :: _) :=
    .step (.step (.step (.step (.step (.start rfl) trivial) trivial) trivial) trivial) trivial
  have hq : openSum.evaluate.1 = .ok 5 := by decide +kernel
  have htext : openSum.evaluate.2.resultText = some "5" := by decide +kernel
  have hexpr : openSum.expr = [.symbol .leftParen, .literal ⟨"2", "", false, 0⟩, .symbol .plus,
      .literal ⟨"3", "", false, 0⟩, .symbol .plus] := rfl
  have htexts : ∀ n v e r, Token.stored n v e r none ∉ openSum.expr := by
    simp [hexpr, Token.symbol]
  have hvalue : (pressEach Buffer.press openSum.expr.withoutTrailingBinary.grouped [4]).2.quantity false
      = .ok 20 := by decide +kernel
  have hroom : (pressEach Buffer.press openSum.expr.withoutTrailingBinary.grouped [4]).2.evaluate false
      ≠ syntaxError .nestedTooDeeply := by decide +kernel
  have hshown : ∀ q, (pressEach Buffer.press openSum.expr.withoutTrailingBinary.grouped [4]).2.quantity
      false = .ok q → ∃ text, shortTextOf q = .ok text := by
    intro q hq
    rw [hvalue] at hq
    obtain rfl := Except.ok.inj hq
    exact ⟨"20", by decide +kernel⟩
  exact ⟨_, hrun, hq, htext, (sameOutcome_continued hrun hq htext htexts [4] hshown hroom).2⟩

end Session

end Reckoner
