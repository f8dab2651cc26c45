import Mathlib.Data.List.Forall2
import Reckoner.Evaluation.Basic
import Reckoner.Proofs.Outcome

/-!
# What evaluation depends on

Evaluation looks at the literals, the operators and the quantities of the stored results of a
buffer, and at the angle mode only for the trigonometric functions. The identity of a value, the
expression it came from and its text make no difference to the quantity that is returned. Which
tokens are read, and how, depends on no quantity at all, until an operation on quantities fails.

All of this is one statement about two runs of the same readers, possibly in different modes, on
token lists that agree. What a run returns is also traced back to its origin: a value that was not
newly computed is a constant or the value of a stored result that was read, and an error that is no
matter of the grammar or of arithmetic is that of a literal or of a factorial.

- `Agree` relates tokens that evaluate alike, and `Compared` relates what is read of them;
- `expr_agree` and `readers_agree` carry the agreement through the grammar;
- `evaluatePrefix_agree` and `evaluate_agree` state it for buffers;
- `Resembles` is agreement in every mode: the same literals and operators, and stored results of the
  same quantities.
-/

namespace Reckoner.Evaluation

open EvaluationError (ofArithmetic ofFactorial ofLiteral)

/-! ## §1 Tokens that evaluate alike -/

/-- Where an operand comes from: it was computed, or is a constant, or is a known value. -/
inductive Origin (known : Value → Prop) : Operand → Prop where
  | computed (q : Quantity) : Origin known (.computed q)
  | constant (c : Constant) : Origin known (.ofValue c.value)
  | stored (v : Value) (h : known v) : Origin known (.ofValue v)

/-- Where an error comes from: the grammar, an operation on quantities, or what is known to be
faulty. -/
inductive Cause (faulty : EvaluationError → Prop) : EvaluationError → Prop where
  | malformed (e : SyntaxError) : Cause faulty (.malformed e)
  | arithmetic (e : ArithmeticError) : Cause faulty (.arithmetic e)
  | faulty {e : EvaluationError} (h : faulty e) : Cause faulty e

/-- The errors of operations on quantities. -/
inductive Operational : EvaluationError → Prop where
  | arithmetic (e : ArithmeticError) : Operational (.arithmetic e)
  | overlongFactorial : Operational .overlongFactorial

/-- Two modes that look equally far; whether quantities are the same on both sides; and on the left the
values that stored results may have and the errors that literals and factorials may have. -/
structure Comparison where
  left : Mode
  right : Mode
  beyond : left.beyond = right.beyond
  exact : Prop
  known : Value → Prop
  faulty : EvaluationError → Prop

section
variable (C : Comparison)

/-- Outcomes that face each other: values in a relation, or the same error. Where quantities may differ,
an operation on them may also fail on one side only. -/
inductive Compared {α β : Type} (R : α → β → Prop) : Evaluated α → Evaluated β → Prop where
  | ok {a : α} {b : β} (h : R a b) : Compared R (.ok a) (.ok b)
  | error {e : EvaluationError} (h : Cause C.faulty e) : Compared R (.error e) (.error e)
  | left (h : ¬C.exact) {e : EvaluationError} (he : Operational e) (y : Evaluated β) :
      Compared R (.error e) y
  | right (h : ¬C.exact) (x : Evaluated α) {e : EvaluationError} (he : Operational e) :
      Compared R x (.error e)

/-- Things that are the same if quantities are. -/
def Same {α : Type} (a b : α) : Prop :=
  C.exact → a = b

/-- Tokens that evaluate alike. A trigonometric function does so only if the angle modes are the
same, and literals and stored results if their quantities are. A factorial may fail for its length. -/
inductive Agree : Token → Token → Prop where
  | literal {l l' : Literal}
      (h : Compared C (Same C) (l.value.mapError ofLiteral) (l'.value.mapError ofLiteral)) :
      Agree (.literal l) (.literal l')
  | operator (o : Operator)
      (h : o.has Symbol.isTrigonometric = true → C.left.degrees = C.right.degrees)
      (hfaulty : o = .listed .factorial → C.faulty .overlongFactorial) :
      Agree (.operator o) (.operator o)
  | stored {n n' : Nat} {v v' : Value} {e e' : List Token} {s s' : Scope} {x x' : Option String}
      (hquantity : Same C v.quantity v'.quantity) (hknown : C.known v) :
      Agree (.stored n v e s x) (.stored n' v' e' s' x')

/-- Token lists that evaluate alike. -/
abbrev AgreeAll : List Token → List Token → Prop :=
  List.Forall₂ (Agree C)

/-- Operands of the same quantity, the left one of known origin. -/
def AgreeOperand (x y : Operand) : Prop :=
  Same C x.quantity y.quantity ∧ Origin C.known x

/-- Values that were read, with the tokens after them. -/
def AgreeRead : Operand × List Token → Operand × List Token → Prop
  | (x, ts), (y, us) => AgreeOperand C x y ∧ AgreeAll C ts us

/-- Readers that do alike on tokens that evaluate alike. -/
def AgreeReader (r r' : Reader) : Prop :=
  ∀ ts us, AgreeAll C ts us → Compared C (AgreeRead C) (r ts) (r' us)

/-- Both readers of nested operands do alike. -/
structure AgreeReaders (r r' : Readers) : Prop where
  unary : AgreeReader C r.unary r'.unary
  exponent : AgreeReader C r.exponent r'.exponent

end

variable {C : Comparison} {r r' : Readers}

namespace Compared

variable {α β γ δ : Type} {R : α → β → Prop} {S : γ → δ → Prop}

/-- Outcomes go on facing each other when what follows them does. -/
theorem bind {x : Evaluated α} {y : Evaluated β} {f : α → Evaluated γ} {g : β → Evaluated δ}
    (h : Compared C R x y) (hfg : ∀ a b, R a b → Compared C S (f a) (g b)) :
    Compared C S (x >>= f) (y >>= g) := by
  cases h with
  | ok hab => exact hfg _ _ hab
  | error he => exact .error he
  | left hinexact he y => exact .left hinexact he _
  | right hinexact x he => exact .right hinexact _ he

/-- Every outcome faces itself, if its error is one that is known. -/
theorem refl {R : α → α → Prop} (hR : ∀ a, R a a) {x : Evaluated α}
    (hx : ∀ e, x = .error e → C.faulty e) : Compared C R x x := by
  cases x with
  | ok a => exact .ok (hR a)
  | error e => exact .error (.faulty (hx e rfl))

/-- An operation on quantities gives the same on both sides, or fails on at least one of them, if
quantities may differ. -/
theorem operation {x y : Evaluated α} (h : Same C x y)
    (hx : ∀ e, x = .error e → Operational e ∧ Cause C.faulty e)
    (hy : ∀ e, y = .error e → Operational e) : Compared C (Same C) x y := by
  -- Where quantities may differ, failing on one side is no disagreement.
  by_cases hexact : C.exact
  · obtain rfl := h hexact
    cases x with
    | ok a => exact .ok fun _ => rfl
    | error e => exact .error (hx e rfl).2
  · cases x with
    | error e => exact .left hexact (hx e rfl).1 _
    | ok a =>
      cases y with
      | error e => exact .right hexact _ (hy e rfl)
      | ok b => exact .ok fun h => absurd h hexact

/-- An operation on the same quantities agrees with itself. -/
theorem arithmetic {x y : Except ArithmeticError α} (h : Same C x y) :
    Compared C (Same C) (ofArithmetic x) (ofArithmetic y) := by
  have hmapped : Same C (ofArithmetic x) (ofArithmetic y) := fun hexact => by rw [h hexact]
  refine operation hmapped (fun e he => ?_) fun e he => ?_
  · cases x with
    | ok _ => cases he
    | error e =>
      cases he
      exact ⟨.arithmetic e, .arithmetic e⟩
  · cases y with
    | ok _ => cases he
    | error e =>
      cases he
      exact .arithmetic e

/-- A factorial is an operation that may also fail for the length of its argument. -/
theorem factorial {x y : Quantity} (h : Same C x y) (hfaulty : C.faulty .overlongFactorial) :
    Compared C (Same C) (x.factorial.mapError ofFactorial) (y.factorial.mapError ofFactorial) := by
  -- The length of an argument is the one error that the grammar and arithmetic do not account for.
  have hoperational {x : Quantity} {e : EvaluationError} (he : x.factorial.mapError ofFactorial = .error e) :
      Operational e ∧ Cause C.faulty e := by
    cases hx : x.factorial with
    | ok _ => rw [hx] at he; cases he
    | error f =>
      rw [hx] at he
      cases he
      cases f with
      | arithmetic e => exact ⟨.arithmetic e, .arithmetic e⟩
      | tooManyDigits => exact ⟨.overlongFactorial, .faulty hfaulty⟩
  refine operation (fun hexact => by rw [h hexact]) (fun e he => hoperational he) fun e he => ?_
  exact (hoperational he).1

/-- What the value on the left satisfies may be noted. -/
theorem tracing {x : Evaluated α} {y : Evaluated β} (h : Compared C R x y) {P : α → Prop}
    (hP : ∀ a, x = .ok a → P a) : Compared C (fun a b => R a b ∧ P a) x y := by
  cases h with
  | ok hab => exact .ok ⟨hab, hP _ rfl⟩
  | error he => exact .error he
  | left hinexact he y => exact .left hinexact he y
  | right hinexact x he => exact .right hinexact x he

/-- A weaker relation. -/
theorem mono {R' : α → β → Prop} {x : Evaluated α} {y : Evaluated β} (h : Compared C R x y)
    (hR : ∀ a b, R a b → R' a b) : Compared C R' x y := by
  cases h with
  | ok hab => exact .ok (hR _ _ hab)
  | error he => exact .error he
  | left hinexact he y => exact .left hinexact he y
  | right hinexact x he => exact .right hinexact x he

/-- Where quantities are the same, the outcomes are values in the relation or the same error. -/
theorem corresponds {x : Evaluated α} {y : Evaluated β} (h : Compared C R x y) (hexact : C.exact) :
    Corresponds R x y := by
  cases h with
  | ok hab => exact .ok hab
  | error _ => exact .error _
  | left hinexact _ _ => exact absurd hexact hinexact
  | right hinexact _ _ => exact absurd hexact hinexact

end Compared

namespace Agree

theorem isSymbol {t u : Token} (h : Agree C t u) (s : Symbol) : t.isSymbol s = u.isSymbol s := by
  cases h <;> rfl

theorem isOperator {t u : Token} (h : Agree C t u) : t.isOperator = u.isOperator := by
  cases h <;> rfl

theorem isBinary {t u : Token} (h : Agree C t u) : Buffer.isBinary t = Buffer.isBinary u := by
  cases h <;> rfl

theorem startsFactor {t u : Token} (h : Agree C t u) :
    Evaluation.startsFactor t = Evaluation.startsFactor u := by
  cases h <;> rfl

/-- That a factorial may fail is known, where it stands on both sides. -/
theorem faulty_of_factorial {t u : Token} (h : Agree C t u) (hu : u.isSymbol .factorial = true) :
    C.faulty .overlongFactorial := by
  cases h with
  | literal _ | stored _ _ => cases hu
  | operator o _ hfaulty =>
    cases o with
    | listed s => exact hfaulty (congrArg Operator.listed (of_decide_eq_true hu))
    | unlisted n hn => cases hu

end Agree

theorem AgreeAll.tail {ts us : List Token} (h : AgreeAll C ts us) :
    AgreeAll C ts.tail us.tail := by
  cases h with
  | nil => exact .nil
  | cons _ hrest => exact hrest

theorem agree_ok {x y : Operand} (hxy : AgreeOperand C x y) {ts us : List Token}
    (h : AgreeAll C ts us) : Compared C (AgreeRead C) (.ok (x, ts)) (.ok (y, us)) :=
  .ok ⟨hxy, h⟩

theorem agree_computed {q q' : Quantity} (h : Same C q q') :
    AgreeOperand C (.computed q) (.computed q') :=
  ⟨h, .computed q⟩

theorem agree_constant (c : Constant) :
    AgreeOperand C (.ofValue c.value) (.ofValue c.value) :=
  ⟨fun _ => rfl, .constant c⟩

/-! ## §2 Looking ahead -/

/-- Looking at the next token shows tokens that agree, or that both sides end there. -/
theorem peek_agree {ts us : List Token} (h : AgreeAll C ts us) :
    Compared C (Option.Rel (Agree C)) (peek C.left ts) (peek C.right us) := by
  cases h with
  | nil =>
    -- Whether it is an error to look beyond the end is the same on both sides.
    simp only [peek, C.beyond]
    split
    · exact .error (.malformed _)
    · exact .ok .none
  | cons htu _ => exact .ok (.some htu)

/-- A key comes next on both sides or on neither. -/
theorem nextIs_agree (s : Symbol) {ts us : List Token} (h : AgreeAll C ts us) :
    Compared C Eq (nextIs C.left s ts) (nextIs C.right s us) := by
  refine (peek_agree h).bind ?_
  rintro _ _ (htu | _)
  · exact .ok (by simp [Option.any, htu.isSymbol])
  · exact .ok rfl

/-- The next factor is linked in the same way on both sides. -/
theorem link_agree {ts us : List Token} (h : AgreeAll C ts us) :
    Compared C (Option.Rel fun p q => p.1 = q.1 ∧ AgreeAll C p.2 q.2)
      (link? C.left ts) (link? C.right us) := by
  refine (peek_agree h).bind ?_
  rintro _ _ (htu | _)
  · simp only [htu.isSymbol, htu.startsFactor]
    split
    · exact .ok (.some ⟨rfl, h.tail⟩)
    · split
      · exact .ok (.some ⟨rfl, h.tail⟩)
      · split
        · exact .ok (.some ⟨rfl, h⟩)
        · exact .ok .none
  · exact .ok .none

/-- A percentage comes next on both sides or on neither: quantities do not enter. -/
theorem isPercentage_agree {ts us : List Token} (h : AgreeAll C ts us) :
    Compared C Eq (isPercentage C.left ts) (isPercentage C.right us) := by
  -- It takes two tokens to tell: without them both sides look beyond the end.
  have hend : Compared C Eq (if C.right.beyond then EvaluationError.syntaxError .unexpectedEnd
      else .ok false) (if C.right.beyond then EvaluationError.syntaxError .unexpectedEnd
      else .ok false) := by
    split
    · exact .error (.malformed _)
    · exact .ok rfl
  rcases h with _ | ⟨htu, _ | ⟨hsign, hrest⟩⟩
  · simpa only [isPercentage, C.beyond] using hend
  · simpa only [isPercentage, C.beyond] using hend
  · simp only [isPercentage, hsign.isSymbol, htu.isOperator]
    split
    · exact .ok rfl
    · refine (peek_agree hrest).bind ?_
      rintro _ _ (h | _)
      · exact .ok (by simp [Option.all, endsPercentage, h.isSymbol])
      · exact .ok rfl

/-! ## §3 Factors, terms and sums -/

/-- Literals and stored results are no suffixes, so a suffix is the same token on both sides. -/
theorem applySuffix_agree {x y : Quantity} (hxy : Same C x y) {t u : Token} (htu : Agree C t u) :
    Option.Rel (Compared C (Same C)) (applySuffix? x t) (applySuffix? y u) := by
  simp only [applySuffix?, htu.isSymbol]
  split
  case isTrue hfactorial => exact .some (.factorial hxy (htu.faulty_of_factorial hfactorial))
  case isFalse =>
    split
    · exact .some (.ok fun h => by rw [hxy h])
    · split
      · exact .some (.ok fun h => by rw [hxy h])
      · exact .none

/-- The same postfix operators are applied on both sides. -/
theorem suffixes_agree {x y : Operand} (hxy : AgreeOperand C x y) {ts us : List Token}
    (h : AgreeAll C ts us) :
    Compared C (AgreeRead C) (suffixes C.left x ts) (suffixes C.right y us) := by
  induction h generalizing x y with
  | nil =>
    simp only [suffixes, C.beyond]
    split
    · exact .error (.malformed _)
    · exact agree_ok hxy .nil
  | @cons t u ts us htu hrest ih =>
    -- A token that is no suffix on one side is none on the other, and there both stop.
    have hsuffix := applySuffix_agree hxy.1 htu
    simp only [suffixes]
    generalize applySuffix? x.quantity t = p at hsuffix ⊢
    generalize applySuffix? y.quantity u = q at hsuffix ⊢
    cases hsuffix with
    | none => exact agree_ok hxy (.cons htu hrest)
    | some h => exact h.bind fun a b hab => ih (agree_computed hab)

/-- Factors agree: an operand, its postfix operators, and an exponent. -/
theorem factor_agree (hr : AgreeReaders C r r') :
    AgreeReader C (factor C.left r) (factor C.right r') := by
  intro ts us h
  refine (hr.unary ts us h).bind ?_
  rintro ⟨x, ts⟩ ⟨y, us⟩ ⟨hxy, h⟩
  refine (suffixes_agree hxy h).bind ?_
  rintro ⟨x, ts⟩ ⟨y, us⟩ ⟨hxy, h⟩
  refine (nextIs_agree .power h).bind ?_
  -- Both sides see the power sign, or neither does, so they take the same branch.
  rintro raised _ rfl
  cases raised with
  | false => exact agree_ok hxy h
  | true =>
    refine (hr.exponent _ _ h.tail).bind ?_
    rintro ⟨e, ts⟩ ⟨e', us⟩ ⟨he, h⟩
    have hpow : Same C (x.quantity.pow e.quantity) (y.quantity.pow e'.quantity) :=
      fun hexact => by rw [hxy.1 hexact, he.1 hexact]
    exact (Compared.arithmetic hpow).bind fun a b hab => agree_ok (agree_computed hab) h

theorem signed_agree (hr : AgreeReaders C r r') :
    AgreeReader C (signed C.left r) (signed C.right r') := by
  intro ts us h
  refine (nextIs_agree .minus h).bind ?_
  rintro negative _ rfl
  cases negative with
  | false => exact factor_agree hr ts us h
  | true =>
    refine (factor_agree hr _ _ h.tail).bind ?_
    rintro ⟨x, ts⟩ ⟨y, us⟩ ⟨hxy, h⟩
    exact agree_ok (agree_computed fun hexact => congrArg Quantity.negate (hxy.1 hexact)) h

/-- Products agree, by induction on the factors that may still come. -/
theorem products_agree (hr : AgreeReaders C r r') (fuel : Nat) {x y : Operand}
    (hxy : AgreeOperand C x y) {ts us : List Token} (h : AgreeAll C ts us) :
    Compared C (AgreeRead C) (products C.left r fuel x ts) (products C.right r' fuel y us) := by
  induction fuel generalizing x y ts us with
  | zero => exact agree_ok hxy h
  | succ fuel ih =>
    refine (link_agree h).bind ?_
    rintro _ _ (@⟨⟨link, ts⟩, ⟨_, us⟩, ⟨rfl, h'⟩⟩ | _)
    · refine (signed_agree hr _ _ h').bind ?_
      rintro ⟨z, ts⟩ ⟨w, us⟩ ⟨hzw, h⟩
      have happly : Same C (link.apply x.quantity z.quantity) (link.apply y.quantity w.quantity) :=
        fun hexact => by rw [hxy.1 hexact, hzw.1 hexact]
      exact (Compared.arithmetic happly).bind fun a b hab => ih (agree_computed hab) h
    · exact agree_ok hxy h

theorem term_agree (hr : AgreeReaders C r r') :
    AgreeReader C (term C.left r) (term C.right r') := by
  intro ts us h
  refine (signed_agree hr ts us h).bind ?_
  rintro ⟨x, ts⟩ ⟨y, us⟩ ⟨hxy, h⟩
  -- The fuel is the number of tokens left, which is the same on both sides.
  simp only [h.length_eq]
  exact products_agree hr _ hxy h

/-- Sums agree, by induction on the terms that may still come. -/
theorem sums_agree (hr : AgreeReaders C r r') (fuel : Nat) {x y : Operand}
    (hxy : AgreeOperand C x y) {ts us : List Token} (h : AgreeAll C ts us) :
    Compared C (AgreeRead C) (sums C.left r fuel x ts) (sums C.right r' fuel y us) := by
  induction fuel generalizing x y ts us with
  | zero => exact agree_ok hxy h
  | succ fuel ih =>
    refine (nextIs_agree .plus h).bind ?_
    rintro plus _ rfl
    refine (nextIs_agree .minus h).bind ?_
    rintro minus _ rfl
    split
    · refine (isPercentage_agree h.tail).bind ?_
      rintro percentage _ rfl
      -- A percentage takes the running total, which agrees by the induction.
      cases percentage with
      | true =>
        refine (hr.unary _ _ h.tail).bind ?_
        rintro ⟨z, ts⟩ ⟨w, us⟩ ⟨hzw, h⟩
        exact ih (agree_computed fun hexact => by simp only [hxy.1 hexact, hzw.1 hexact]) h.tail
      | false =>
        refine (term_agree hr _ _ h.tail).bind ?_
        rintro ⟨z, ts⟩ ⟨w, us⟩ ⟨hzw, h⟩
        exact ih (agree_computed fun hexact => by simp only [hxy.1 hexact, hzw.1 hexact]) h
    · exact agree_ok hxy h

/-- Sums agree from their first term on. -/
theorem expr_agree (hr : AgreeReaders C r r') :
    AgreeReader C (expr C.left r) (expr C.right r') := by
  intro ts us h
  refine (term_agree hr ts us h).bind ?_
  rintro ⟨x, ts⟩ ⟨y, us⟩ ⟨hxy, h⟩
  simp only [h.length_eq]
  exact sums_agree hr _ hxy h

/-! ## §4 Operands -/

/-- Groups agree, closed or not. -/
theorem parenthesized_agree (hr : AgreeReaders C r r') :
    AgreeReader C (parenthesized C.left r) (parenthesized C.right r') := by
  intro ts us h
  refine (expr_agree hr ts us h).bind ?_
  rintro ⟨x, ts⟩ ⟨y, us⟩ ⟨hxy, h⟩
  refine (nextIs_agree .rightParen h).bind ?_
  rintro closed _ rfl
  cases closed with
  | true => exact agree_ok hxy h.tail
  | false => exact agree_ok hxy h

/-- Radicands agree, negated or not. -/
theorem radicand_agree (hr : AgreeReaders C r r') {ts us : List Token} (h : AgreeAll C ts us) :
    Compared C (fun p q => Same C p.1 q.1 ∧ AgreeAll C p.2 q.2)
      (radicand C.left r ts) (radicand C.right r' us) := by
  refine (nextIs_agree .minus h).bind ?_
  rintro negative _ rfl
  cases negative with
  | true =>
    refine (hr.unary _ _ h.tail).bind ?_
    rintro ⟨x, ts⟩ ⟨y, us⟩ ⟨hxy, h⟩
    exact .ok ⟨fun hexact => congrArg Quantity.negate (hxy.1 hexact), h⟩
  | false =>
    refine (hr.unary _ _ h).bind ?_
    rintro ⟨x, ts⟩ ⟨y, us⟩ ⟨hxy, h⟩
    exact .ok ⟨hxy.1, h⟩

/-- The root of zero is the constant zero; every other root is computed. -/
theorem origin_sqrt {q : Quantity} {x : Operand} (h : ofArithmetic (Operand.sqrt q) = .ok x)
    (known : Value → Prop) : Origin known x := by
  unfold Operand.sqrt at h
  split at h
  · cases h
    exact .constant .zero
  · cases hroot : q.sqrt with
    | error e =>
      rw [hroot] at h
      cases h
    | ok root =>
      rw [hroot] at h
      cases h
      exact .computed root

/-- Roots of the same quantity agree, and come from where roots may come from. -/
theorem sqrt_agree {q q' : Quantity} (h : Same C q q') :
    Compared C (AgreeOperand C) (ofArithmetic (Operand.sqrt q)) (ofArithmetic (Operand.sqrt q')) := by
  have hsqrt : Same C (Operand.sqrt q) (Operand.sqrt q') := fun hexact => by rw [h hexact]
  refine ((Compared.arithmetic hsqrt).tracing fun x hx => origin_sqrt hx C.known).mono ?_
  intro x y hxy
  exact ⟨fun hexact => congrArg Operand.quantity (hxy.1 hexact), hxy.2⟩

/-- The angle mode only enters the trigonometric functions. -/
theorem applyFunction_mode {s : Symbol}
    (h : s.isTrigonometric = true → C.left.degrees = C.right.degrees) (x : Quantity) :
    applyFunction? C.left x s = applyFunction? C.right x s := by
  by_cases hs : s.isTrigonometric = true
  -- For a trigonometric function the modes convert alike; the others convert nothing.
  · have hto : toRadians C.left = toRadians C.right := by
      funext x
      simp only [toRadians, h hs]
    have hfrom : fromRadians C.left = fromRadians C.right := by
      funext x
      simp only [fromRadians, h hs]
    cases s <;> simp only [applyFunction?, hto, hfrom]
  · cases s <;> first | rfl | exact absurd rfl hs

/-- A function is applied to the same quantity with the same result, in modes that convert alike. -/
theorem applyFunction_agree {s : Symbol}
    (hs : s.isTrigonometric = true → C.left.degrees = C.right.degrees) {x y : Quantity}
    (h : Same C x y) :
    Option.Rel (Same C) (applyFunction? C.left x s) (applyFunction? C.right y s) := by
  by_cases hexact : C.exact
  · rw [h hexact, applyFunction_mode hs]
    cases applyFunction? C.right y s with
    | none => exact .none
    | some z => exact .some fun _ => rfl
  -- Whether a symbol is a function does not depend on what it is applied to.
  · have hinexact {a b : Except ArithmeticError Quantity} : Same C a b := fun h => absurd h hexact
    cases s <;> first | exact .some hinexact | exact .none

/-- What begins with a key agrees: the same key decides what is read. -/
theorem ofSymbol_agree (hr : AgreeReaders C r r') {s : Symbol}
    (hs : s.isTrigonometric = true → C.left.degrees = C.right.degrees) :
    AgreeReader C (ofSymbol C.left r s) (ofSymbol C.right r' s) := by
  intro ts us h
  unfold ofSymbol
  split
  · exact agree_ok (agree_constant .pi) h
  · exact agree_ok (agree_constant .euler) h
  · refine (radicand_agree hr h).bind ?_
    rintro ⟨q, ts⟩ ⟨q', us⟩ ⟨hq, h⟩
    -- Only the square root may return a constant that is not in the tokens.
    refine (sqrt_agree hq).bind ?_
    intro x y hxy
    exact agree_ok hxy h
  · exact parenthesized_agree hr ts us h
  · split
    · refine (parenthesized_agree hr ts us h).bind ?_
      rintro ⟨x, ts⟩ ⟨y, us⟩ ⟨hxy, h⟩
      have happly := applyFunction_agree hs hxy.1
      dsimp only
      generalize applyFunction? C.left x.quantity s = p at happly ⊢
      generalize applyFunction? C.right y.quantity s = q at happly ⊢
      cases happly with
      | some hpq => exact (Compared.arithmetic hpq).bind fun a b hab => agree_ok (agree_computed hab) h
      | none => exact .error (.malformed _)
    · exact .error (.malformed _)

/-- Operands agree: a literal, a stored result, or what begins with a key. -/
theorem unary_agree (hr : AgreeReaders C r r') :
    AgreeReader C (unary C.left r) (unary C.right r') := by
  intro ts us h
  cases h with
  -- Both sides end where an operand is needed.
  | nil => exact .error (.malformed _)
  | cons htu hrest =>
    cases htu with
    | literal hvalue => exact hvalue.bind fun q q' hq => agree_ok (agree_computed hq) hrest
    | stored hquantity hknown => exact agree_ok ⟨hquantity, .stored _ hknown⟩ hrest
    | operator o ho _ =>
      cases o with
      | listed s => exact ofSymbol_agree hr ho _ _ hrest
      | unlisted n hn => exact .error (.malformed _)

/-- By induction on the room: readers with one more nested operand use those with one less. -/
theorem readers_agree (room : Nat) :
    AgreeReaders C (readers C.left room) (readers C.right room) := by
  induction room with
  -- Without room both sides are nested too deeply.
  | zero => exact ⟨fun _ _ _ => .error (.malformed _), fun _ _ _ => .error (.malformed _)⟩
  | succ room ih => exact ⟨unary_agree ih, signed_agree ih⟩

end Reckoner.Evaluation

/-! ## §5 Buffers -/

namespace Reckoner.Buffer

open Reckoner.Evaluation

variable {C : Comparison}

/-- A property that agreeing tokens share holds of as many of them from the front. -/
theorem takeWhile_agree {p : Token → Bool} (hp : ∀ t u, Agree C t u → p t = p u)
    {ts us : List Token} (h : AgreeAll C ts us) :
    (ts.takeWhile p).length = (us.takeWhile p).length := by
  induction h with
  | nil => rfl
  | cons htu _ ih =>
    simp only [List.takeWhile_cons, hp _ _ htu]
    split
    · simp only [List.length_cons, ih]
    · rfl

/-- Buffers that agree end in as many binary operators. -/
theorem binaryStart_agree {b c : Buffer} (h : AgreeAll C b c) : b.binaryStart = c.binaryStart := by
  -- The operators at the end are counted from behind.
  have htrailing : b.trailing isBinary = c.trailing isBinary :=
    takeWhile_agree (fun _ _ htu => htu.isBinary) (List.forall₂_reverse_iff.mpr h)
  unfold binaryStart
  rw [h.length_eq, htrailing]

/-- Buffers that agree are read as far, with the same quantity. -/
theorem evaluatePrefix_agree {b c : Buffer} {s t : Scope} (hleft : C.left = b.mode s)
    (hright : C.right = c.mode t) (hreach : s.reach = t.reach) (h : AgreeAll C b c) :
    Compared C (fun p q => p.1 = q.1 ∧ AgreeOperand C p.2 q.2)
      (b.evaluatePrefix s) (c.evaluatePrefix t) := by
  -- Both sides read the same number of tokens, and the room for nesting does not depend on them.
  have hwindow : AgreeAll C (b.window s) (c.window t) := by
    unfold window
    rw [hreach]
    exact List.forall₂_take _ h
  unfold evaluatePrefix
  rw [← hleft, ← hright]
  refine (expr_agree (readers_agree _) _ _ hwindow).bind ?_
  rintro ⟨x, ts⟩ ⟨y, us⟩ ⟨hxy, hrest⟩
  exact .ok ⟨by rw [hwindow.length_eq, hrest.length_eq], hxy⟩

theorem binaryStart_le (b : Buffer) : b.binaryStart ≤ b.length :=
  Nat.sub_le _ _

theorem length_withoutTrailingBinary (b : Buffer) :
    b.withoutTrailingBinary.length = b.binaryStart := by
  unfold withoutTrailingBinary
  rw [List.length_take, Nat.min_eq_left b.binaryStart_le]

/-- Evaluation of a buffer reads all tokens but the binary operators at the end. -/
theorem evaluate_eq_ok_iff {b : Buffer} {degrees : Bool} {x : Operand} :
    b.evaluate degrees = .ok x
      ↔ b.evaluatePrefix ⟨degrees, b.binaryStart⟩ = .ok (b.binaryStart, x) := by
  unfold evaluate
  cases hpre : b.evaluatePrefix ⟨degrees, b.binaryStart⟩ with
  | error e => simp [bind, Except.bind]
  | ok p =>
    obtain ⟨position, y⟩ := p
    -- Only at the last operand is a value returned; elsewhere there is a report, or no name for it.
    by_cases hposition : position = b.binaryStart
    · simp [bind, Except.bind, pure, Except.pure, hposition]
    · cases b.describe <;> simp [bind, Except.bind, Except.mapError, hposition]

/-- What is left of a buffer without the binary operators at its end is read just as the buffer. -/
theorem evaluatePrefix_withoutTrailingBinary (b : Buffer) (degrees : Bool) :
    b.withoutTrailingBinary.evaluatePrefix ⟨degrees, b.withoutTrailingBinary.length⟩
      = b.evaluatePrefix ⟨degrees, b.binaryStart⟩ := by
  have hlength := b.length_withoutTrailingBinary
  have hwindow : b.withoutTrailingBinary.window ⟨degrees, b.withoutTrailingBinary.length⟩
      = b.window ⟨degrees, b.binaryStart⟩ := by
    simp only [window, Int.toNat_natCast, List.take_length]
    rfl
  have hmode : b.withoutTrailingBinary.mode ⟨degrees, b.withoutTrailingBinary.length⟩
      = b.mode ⟨degrees, b.binaryStart⟩ := by
    have := b.binaryStart_le
    simp only [mode, Mode.mk.injEq, true_and, decide_eq_decide]
    omega
  unfold evaluatePrefix
  rw [hwindow, hmode]

/-- Reading up to the last operand, nobody looks beyond the end of the buffer. -/
theorem mode_binaryStart (b : Buffer) (degrees : Bool) :
    b.mode ⟨degrees, b.binaryStart⟩ = ⟨degrees, false⟩ := by
  have := b.binaryStart_le
  simp only [mode, Mode.mk.injEq, true_and, decide_eq_false_iff_not]
  omega

/-- Buffers that agree evaluate alike, if the report that not all tokens were read can name both. -/
theorem evaluate_agree {b c : Buffer} {degrees degrees' : Bool}
    (hleft : C.left = ⟨degrees, false⟩) (hright : C.right = ⟨degrees', false⟩)
    (h : AgreeAll C b c) (hdescribe : Corresponds (fun _ _ => True) b.describe c.describe)
    (hfaulty : ∀ e, C.faulty (.undisplayable e)) :
    Compared C (AgreeOperand C) (b.evaluate degrees) (c.evaluate degrees') := by
  have hstart := binaryStart_agree h
  unfold evaluate
  refine (evaluatePrefix_agree (s := ⟨degrees, b.binaryStart⟩) (t := ⟨degrees', c.binaryStart⟩)
    (by rw [hleft, mode_binaryStart]) (by rw [hright, mode_binaryStart])
    (by simp only [hstart]) h).bind ?_
  rintro ⟨position, x⟩ ⟨_, y⟩ ⟨rfl, hxy⟩
  simp only [hstart]
  split
  · exact .ok hxy
  -- Where tokens are left over, the report names the buffer.
  · generalize b.describe = p at hdescribe ⊢
    generalize c.describe = q at hdescribe ⊢
    cases hdescribe with
    | ok _ => exact .error (.malformed _)
    | error e => exact .error (.faulty (hfaulty e))

/-- A literal evaluates like itself, if its error is one that is known. -/
theorem agree_literal {l : Literal}
    (h : ∀ e, l.value.mapError EvaluationError.ofLiteral = .error e → C.faulty e) :
    Agree C (.literal l) (.literal l) :=
  .literal (.refl (fun _ _ => rfl) h)

/-- Without trigonometric functions a buffer agrees with itself in both angle modes, as no function in it
asks for them. -/
theorem agreeAll_self_of_hasTrigonometric {b : Buffer} (h : b.hasTrigonometric = false)
    (hknown : ∀ v, C.known v) (hfaulty : ∀ e, C.faulty e) : AgreeAll C b b := by
  refine List.forall₂_same.mpr fun t ht => ?_
  cases t with
  | literal l => exact agree_literal fun e _ => hfaulty e
  | operator o =>
    refine .operator o (fun ho => ?_) fun _ => hfaulty _
    -- A function of angles would be one of the tokens that there are none of.
    have := List.any_eq_false.mp h _ ht
    exact absurd ho this
  | stored n v e s x => exact .stored (fun _ => rfl) (hknown v)

/-- Without trigonometric functions the angle mode makes no difference, however far is read. -/
theorem evaluatePrefix_degrees {b : Buffer} (h : b.hasTrigonometric = false) (reach : Int)
    (degrees degrees' : Bool) :
    Corresponds (fun p q => p.1 = q.1 ∧ p.2.quantity = q.2.quantity)
      (b.evaluatePrefix ⟨degrees, reach⟩) (b.evaluatePrefix ⟨degrees', reach⟩) := by
  let C : Comparison := ⟨b.mode ⟨degrees, reach⟩, b.mode ⟨degrees', reach⟩, rfl, True,
    fun _ => True, fun _ => True⟩
  have hagree : AgreeAll C b b :=
    agreeAll_self_of_hasTrigonometric h (fun _ => trivial) fun _ => trivial
  have hcompared := evaluatePrefix_agree (C := C) rfl rfl rfl hagree
  exact (hcompared.corresponds trivial).mono fun _ _ hpq => ⟨hpq.1, hpq.2.1 trivial⟩

/-- The same for the value of the whole buffer. -/
theorem evaluate_degrees {b : Buffer} (h : b.hasTrigonometric = false) (degrees degrees' : Bool) :
    Corresponds (fun x y => x.quantity = y.quantity) (b.evaluate degrees)
      (b.evaluate degrees') := by
  let C : Comparison :=
    ⟨⟨degrees, false⟩, ⟨degrees', false⟩, rfl, True, fun _ => True, fun _ => True⟩
  have hagree : AgreeAll C b b :=
    agreeAll_self_of_hasTrigonometric h (fun _ => trivial) fun _ => trivial
  have hcompared := evaluate_agree (C := C) rfl rfl hagree (.refl (fun _ => trivial) _)
    fun _ => trivial
  exact (hcompared.corresponds trivial).mono fun _ _ hxy => hxy.1 trivial

/-- The errors that the literals and the factorials of a buffer may have. -/
inductive Faulty (b : Buffer) : EvaluationError → Prop where
  | literal {l : Literal} {e : EvaluationError} (hl : Token.literal l ∈ b)
      (h : l.value.mapError EvaluationError.ofLiteral = .error e) : Faulty b e
  | factorial (h : .symbol .factorial ∈ b) : Faulty b .overlongFactorial

/-- A buffer compared with itself, the values of its stored results and the errors of its literals
and factorials being the known ones. -/
def selfComparison (b : Buffer) (s : Scope) : Comparison where
  left := b.mode s
  right := b.mode s
  beyond := rfl
  exact := True
  known v := ∃ n e t text, Token.stored n v e t text ∈ b
  faulty := b.Faulty

/-- A buffer agrees with itself, which traces what is read of it. -/
theorem evaluatePrefix_self (b : Buffer) (s : Scope) :
    Compared (b.selfComparison s) (fun p q => p.1 = q.1 ∧ AgreeOperand (b.selfComparison s) p.2 q.2)
      (b.evaluatePrefix s) (b.evaluatePrefix s) := by
  refine evaluatePrefix_agree rfl rfl rfl (List.forall₂_same.mpr fun t ht => ?_)
  cases t with
  | literal l => exact agree_literal fun e he => .literal ht he
  | operator o =>
    refine .operator o (fun _ => rfl) ?_
    rintro rfl
    exact .factorial ht
  | stored n v e t text => exact .stored (fun _ => rfl) ⟨n, e, t, text, ht⟩

/-- A value that evaluation returns is new, or a constant, or the value of a stored result in the
buffer. -/
theorem evaluatePrefix_origin {b : Buffer} {s : Scope} {position : Nat} {x : Operand}
    (h : b.evaluatePrefix s = .ok (position, x)) :
    Origin (fun v => ∃ n e t text, Token.stored n v e t text ∈ b) x := by
  have hself := b.evaluatePrefix_self s
  rw [h] at hself
  cases hself with
  | ok hx => exact hx.2.2

/-- An error that evaluation returns is a matter of the grammar or of arithmetic, or is that of a
literal or a factorial in the buffer. -/
theorem evaluatePrefix_cause {b : Buffer} {s : Scope} {e : EvaluationError}
    (h : b.evaluatePrefix s = .error e) : Cause b.Faulty e := by
  have hself := b.evaluatePrefix_self s
  rw [h] at hself
  -- Quantities are the same on both sides, so no side fails alone.
  cases hself with
  | error he => exact he
  | left hinexact _ _ => exact absurd trivial hinexact
  | right hinexact _ _ => exact absurd trivial hinexact

/-! ## §6 Buffers that resemble each other -/

/-- Tokens of the same kind with the same contents, as far as evaluation looks at them. -/
inductive Resembles : Token → Token → Prop where
  | literal (l : Literal) : Resembles (.literal l) (.literal l)
  | operator (o : Operator) : Resembles (.operator o) (.operator o)
  | stored {n n' : Nat} {v v' : Value} {e e' : List Token} {s s' : Scope} {x x' : Option String}
      (hquantity : v.quantity = v'.quantity) :
      Resembles (.stored n v e s x) (.stored n' v' e' s' x')

/-- Tokens that resemble each other evaluate alike in the same angle mode. -/
theorem Resembles.agree {t u : Token} (h : Resembles t u) (hC : C.left.degrees = C.right.degrees)
    (hknown : ∀ v, C.known v) (hfaulty : ∀ e, C.faulty e) : Agree C t u := by
  cases h with
  | literal l => exact agree_literal fun e _ => hfaulty e
  | operator o => exact .operator o (fun _ => hC) fun _ => hfaulty _
  | stored hquantity => exact .stored (fun _ => hquantity) (hknown _)

/-- Buffers that resemble each other are read as far, to the same quantity, or fail with the same
error. -/
theorem evaluatePrefix_corresponds {b c : Buffer} (h : List.Forall₂ Resembles b c) (degrees : Bool) :
    Corresponds (fun p q => p.1 = q.1 ∧ p.2.quantity = q.2.quantity)
      (b.evaluatePrefix ⟨degrees, b.length⟩) (c.evaluatePrefix ⟨degrees, c.length⟩) := by
  have hlength := h.length_eq
  let C : Comparison := ⟨b.mode ⟨degrees, b.length⟩, c.mode ⟨degrees, c.length⟩,
    by simp only [mode, hlength], True, fun _ => True, fun _ => True⟩
  have hagree : AgreeAll C b c :=
    h.imp fun t u htu => htu.agree rfl (fun _ => trivial) fun _ => trivial
  have hboth := evaluatePrefix_agree (C := C) rfl rfl (by simp only [hlength]) hagree
  exact (hboth.corresponds trivial).mono fun _ _ hpq => ⟨hpq.1, hpq.2.1 trivial⟩

/-- What resembles a buffer that is read as a whole is read as a whole, with the same quantity. -/
theorem evaluatePrefix_resembles {b c : Buffer} {degrees : Bool} {x : Operand}
    (h : List.Forall₂ Resembles b c)
    (hx : b.evaluatePrefix ⟨degrees, b.length⟩ = .ok (b.length, x)) :
    ∃ y, c.evaluatePrefix ⟨degrees, c.length⟩ = .ok (c.length, y) ∧ x.quantity = y.quantity := by
  have hboth := evaluatePrefix_corresponds h degrees
  rw [hx] at hboth
  obtain ⟨⟨position, y⟩, hy, hposition, hxy⟩ := hboth.of_ok_left
  obtain rfl : b.length = position := hposition
  exact ⟨y, by rw [hy, h.length_eq], hxy⟩

/-- Buffers that resemble each other evaluate to the same quantity, or fail with the same error, if
both can be displayed. -/
theorem evaluate_resembles {b c : Buffer} (h : List.Forall₂ Resembles b c)
    (hdescribe : Corresponds (fun _ _ => True) b.describe c.describe) (degrees : Bool) :
    Corresponds (fun x y => x.quantity = y.quantity) (b.evaluate degrees) (c.evaluate degrees) := by
  let C : Comparison :=
    ⟨⟨degrees, false⟩, ⟨degrees, false⟩, rfl, True, fun _ => True, fun _ => True⟩
  have hagree : AgreeAll C b c :=
    h.imp fun t u htu => htu.agree rfl (fun _ => trivial) fun _ => trivial
  have hcompared := evaluate_agree (C := C) rfl rfl hagree hdescribe fun _ => trivial
  exact (hcompared.corresponds trivial).mono fun _ _ hxy => hxy.1 trivial

end Reckoner.Buffer
