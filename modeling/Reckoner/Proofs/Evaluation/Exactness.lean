import Reckoner.Proofs.Evaluation.Abbreviation
import Reckoner.Proofs.Evaluation.Uniqueness
import Reckoner.Proofs.Literal
import Reckoner.Proofs.Quantity.Rational

/-!
# Evaluation in the field of rationals

Where nothing but the field operations, powers, squares and percentages is applied to rational numbers,
evaluation computes in the field of rationals. It never rounds, and it divides by zero only where a divisor
is zero, however small the others are.

- `Phrase.Expr.rational` is the value of a tree in the field of rationals, and `Phrase.Expr.DividesByZero`
  says that a divisor in it is zero, or what is raised to a negative power;
- `Calculates` is what may come of evaluating a tree, given these two;
- there is one lemma for each kind of tree, by recursion on the trees, up to `Phrase.Expr.calculates`;
- `evaluate_rational` states it for buffers.
-/

namespace Reckoner.Evaluation

open EvaluationError (syntaxError ofArithmetic ofLiteral)

/-! ## §1 Values in the field of rationals -/

/-- The value of a suffix. Factorials are left out. -/
def Mark.rational (q : Rat) : Mark → Rat
  | .factorial => q
  | .square => q ^ 2
  | .percent => q / 100

/-- Join a rational to the product before it. -/
def Link.rational (p q : Rat) : Link → Rat
  | .times => p * q
  | .over => p / q

/-- A rational with its sign changed, if there is a minus in front. -/
def signedRational (negated : Bool) (q : Rat) : Rat :=
  if negated then -q else q

namespace Phrase

/-- The rational that a number is. -/
def Number.rational : Number → Rat
  | .literal l => l.denoted
  | .stored _ v _ _ _ => v.quantity.toRat?.getD 0

mutual

/-- The value in the field of rationals. Constants, roots and functions are left out. -/
def Unary.rational : Unary → Rat
  | .number x => x.rational
  | .group x _ => x.rational
  | .pi | .euler | .root .. | .call .. => 0

def Suffix.rational : Suffix → Rat
  | .mk x marks => marks.foldl Mark.rational x.rational

def Factor.rational : Factor → Rat
  | .plain x => x.rational
  | .power x e => x.rational ^ e.rational.num

def Signed.rational : Signed → Rat
  | .mk negated x => signedRational negated x.rational

def Term.rational : Term → Rat
  | .mk x more => more.rational x.rational

/-- The value of a product whose first factors have the value `q`. -/
def Products.rational : Products → Rat → Rat
  | .nil, q => q
  | .cons joint x more, q => more.rational (joint.link.rational q x.rational)

def Expr.rational : Expr → Rat
  | .mk x more => more.rational x.rational

/-- The value of a sum whose first terms have the value `q`. -/
def Sums.rational : Sums → Rat → Rat
  | .nil, q => q
  | .term subtracted x more, q => more.rational (q + signedRational subtracted x.rational)
  | .percentage subtracted x more, q =>
    more.rational (q * (1 + signedRational subtracted x.rational / 100))

end

mutual

/-- A divisor is zero, or what is raised to a negative power. -/
def Unary.DividesByZero : Unary → Prop
  | .group x _ => x.DividesByZero
  | .number _ | .pi | .euler | .root .. | .call .. => False

def Suffix.DividesByZero : Suffix → Prop
  | .mk x _ => x.DividesByZero

def Factor.DividesByZero : Factor → Prop
  | .plain x => x.DividesByZero
  | .power x e => x.DividesByZero ∨ e.DividesByZero ∨ x.rational = 0 ∧ e.rational < 0

def Signed.DividesByZero : Signed → Prop
  | .mk _ x => x.DividesByZero

def Term.DividesByZero : Term → Prop
  | .mk x more => x.DividesByZero ∨ more.DividesByZero

def Products.DividesByZero : Products → Prop
  | .nil => False
  | .cons joint x more =>
    x.DividesByZero ∨ (joint = .over ∧ x.rational = 0) ∨ more.DividesByZero

def Expr.DividesByZero : Expr → Prop
  | .mk x more => x.DividesByZero ∨ more.DividesByZero

def Sums.DividesByZero : Sums → Prop
  | .nil => False
  | .term _ x more => x.DividesByZero ∨ more.DividesByZero
  | .percentage _ _ more => more.DividesByZero

end

mutual

/-- Every exponent is an integer whose powers are worked out. -/
def Unary.ModestExponents : Unary → Prop
  | .group x _ => x.ModestExponents
  | .number _ | .pi | .euler | .root .. | .call .. => True

def Suffix.ModestExponents : Suffix → Prop
  | .mk x _ => x.ModestExponents

def Factor.ModestExponents : Factor → Prop
  | .plain x => x.ModestExponents
  | .power x e => x.ModestExponents ∧ e.ModestExponents
    ∧ ∃ n : Int, e.rational = n ∧ n.natAbs ≤ Quantity.largestExpandedExponent

def Signed.ModestExponents : Signed → Prop
  | .mk _ x => x.ModestExponents

def Term.ModestExponents : Term → Prop
  | .mk x more => x.ModestExponents ∧ more.ModestExponents

def Products.ModestExponents : Products → Prop
  | .nil => True
  | .cons _ x more => x.ModestExponents ∧ more.ModestExponents

def Expr.ModestExponents : Expr → Prop
  | .mk x more => x.ModestExponents ∧ more.ModestExponents

def Sums.ModestExponents : Sums → Prop
  | .nil => True
  | .term _ x more => x.ModestExponents ∧ more.ModestExponents
  | .percentage _ _ more => more.ModestExponents

end

end Phrase

/-! ## §2 Tokens of rational arithmetic -/

/-- The operators of rational arithmetic. -/
def rationalSymbols : List Symbol :=
  [.plus, .minus, .times, .divide, .power, .square, .percent, .leftParen, .rightParen]

end Reckoner.Evaluation

namespace Reckoner

open Reckoner.Evaluation

/-- A token of rational arithmetic: a literal of digits, a stored result that is a rational, or an
operator. -/
def Token.IsRational : Token → Prop
  | .literal l => l.AllDigits
  | .stored _ v _ _ _ => v.quantity.toRat?.isSome = true
  | .operator (.listed s) => s ∈ rationalSymbols
  | .operator (.unlisted ..) => False

instance : DecidablePred Token.IsRational
  | .literal l => inferInstanceAs (Decidable l.AllDigits)
  | .stored _ v _ _ _ => inferInstanceAs (Decidable (v.quantity.toRat?.isSome = true))
  | .operator (.listed s) => inferInstanceAs (Decidable (s ∈ rationalSymbols))
  | .operator (.unlisted ..) => inferInstanceAs (Decidable False)

/-- Not a literal without a digit, or with more digits than conversion takes. -/
def Token.IsLegible : Token → Prop
  | .literal l => l.isBare = false ∧ l.digits.length ≤ Decimal.conversionLimit
  | .stored .. | .operator _ => True

instance : DecidablePred Token.IsLegible
  | .literal l => inferInstanceAs (Decidable (l.isBare = false ∧ l.digits.length ≤ Decimal.conversionLimit))
  | .stored .. | .operator _ => inferInstanceAs (Decidable True)

end Reckoner

namespace Reckoner.Evaluation

open EvaluationError (syntaxError ofArithmetic ofLiteral)

theorem mem_of_isRational {s : Symbol} (h : (Token.symbol s).IsRational) : s ∈ rationalSymbols := h

theorem isFunction_of_mem {s : Symbol} (h : s ∈ rationalSymbols) : s.isFunction = false := by
  have hall : ∀ s ∈ rationalSymbols, s.isFunction = false := by decide
  exact hall s h

/-- The tokens of rational arithmetic; literals that are no numbers are among them only if `legible` does not
hold. -/
def Admitted (legible : Prop) (t : Token) : Prop :=
  t.IsRational ∧ (legible → t.IsLegible)

/-! ## §3 What comes of an evaluation -/

/-- What may come of evaluating a tree with the value `q` in the field of rationals: this value, unless there
is a division by zero; the error of the division, if there is one; or the error of a literal, if such are
admitted. -/
inductive Calculates (legible dividesByZero : Prop) (q : Rat) : Evaluated Operand → Prop where
  | ok (h : ¬dividesByZero) (x : Operand) (hx : x.quantity = .rational q) :
      Calculates legible dividesByZero q (.ok x)
  | zero (h : dividesByZero) :
      Calculates legible dividesByZero q (.error (.arithmetic .divisionByZero))
  | illegible (h : ¬legible) (e : LiteralError) :
      Calculates legible dividesByZero q (.error (ofLiteral e))

variable {legible : Prop} {m : Mode}

namespace Calculates

variable {D D' : Prop} {p q : Rat} {v : Evaluated Operand} {f : Operand → Evaluated Operand}

/-- One tree after the other divides by zero if either does. -/
theorem bind (h : Calculates legible D p v)
    (hf : ∀ x : Operand, x.quantity = .rational p → Calculates legible D' q (f x)) :
    Calculates legible (D ∨ D') q (v >>= f) := by
  cases h with
  | ok hD x hx =>
    have hfx := hf x hx
    rw [ok_bind]
    generalize f x = w at hfx ⊢
    -- The first tree has a value, so what comes of both is what comes of the second.
    cases hfx with
    | ok hD' y hy => exact .ok (not_or.mpr ⟨hD, hD'⟩) y hy
    | zero hD' => exact .zero (.inr hD')
    | illegible h e => exact .illegible h e
  | zero hD => exact .zero (.inl hD)
  | illegible h e => exact .illegible h e

/-- What is done with the value of a tree divides no more by zero. -/
theorem andThen (h : Calculates legible D p v)
    (hf : ∀ x : Operand, x.quantity = .rational p → ∃ y, f x = .ok y ∧ y.quantity = .rational q) :
    Calculates legible D q (v >>= f) := by
  -- As if a second tree followed that divides nothing.
  have hboth : Calculates legible (D ∨ False) q (v >>= f) := h.bind fun x hx => by
    obtain ⟨y, hy, hyq⟩ := hf x hx
    rw [hy]
    exact .ok id y hyq
  simpa only [or_false] using hboth

/-- An operation on rationals whose only error is a division by zero. -/
theorem arithmetic {y : Except ArithmeticError Quantity} [Decidable D]
    (hy : y = if D then .error .divisionByZero else .ok (.rational q)) :
    Calculates legible D q (ofArithmetic y >>= fun z => .ok (.computed z)) := by
  subst hy
  split
  · next hD => exact .zero hD
  · next hD => exact .ok hD _ rfl

end Calculates

/-- Squares and percentages of rationals are exact. -/
theorem Mark.apply_rational {k : Mark} (hk : (Token.symbol k.symbol).IsRational) (q : Rat) :
    k.apply (.rational q) = .ok (.rational (k.rational q)) := by
  cases k with
  | factorial => exact absurd (mem_of_isRational hk) (by decide)
  | square => rw [Mark.apply, Quantity.multiply_rational, Mark.rational, pow_two]
  | percent => rw [Mark.apply, percent_rational, Mark.rational]

/-- By induction on the suffixes. -/
theorem Mark.applyAll_rational (marks : List Mark) (hmarks : ∀ t ∈ Mark.tokens marks, t.IsRational)
    {x : Operand} {q : Rat} (hx : x.quantity = .rational q) :
    ∃ y, Mark.applyAll x marks = .ok y ∧ y.quantity = .rational (marks.foldl Mark.rational q) := by
  induction marks generalizing x q with
  | nil => exact ⟨x, rfl, hx⟩
  | cons k marks ih =>
    obtain ⟨hk, hrest⟩ := List.forall_mem_cons.mp hmarks
    rw [Mark.applyAll, hx, apply_rational hk]
    exact ih hrest rfl

/-- Products of rationals are exact, and so are quotients, but by zero. -/
theorem Joint.apply_rational (joint : Joint) (p q : Rat) :
    joint.link.apply (.rational p) (.rational q)
      = if joint = .over ∧ q = 0 then .error .divisionByZero
        else .ok (.rational (joint.link.rational p q)) := by
  -- Only division fails, and only by zero.
  rcases joint with _ | _ | _
  · rw [if_neg fun h => absurd h.1 (by decide)]
    rfl
  · simp only [Joint.link, Link.apply, Quantity.divide_rational, true_and, Link.rational]
  · rw [if_neg fun h => absurd h.1 (by decide)]
    rfl

/-- Sums and differences of rationals are exact. -/
theorem addSummand_rational (subtracted : Bool) (p q : Rat) :
    addSummand subtracted (.rational p) (.rational q)
      = .rational (p + signedRational subtracted q) := by
  cases subtracted with
  | false => exact Quantity.add_rational p q
  | true =>
    rw [addSummand, if_pos rfl, Quantity.subtract_rational, signedRational, if_pos rfl, sub_eq_add_neg]

/-! ## §4 Evaluating trees -/

namespace Phrase

/-- A number that can be read has the value that it denotes. -/
theorem Number.value_eq {x : Number} (hx : x.token.IsRational) (hlegible : x.token.IsLegible) :
    ∃ y, x.value = .ok y ∧ y.quantity = .rational x.rational := by
  cases x with
  | literal l =>
    -- As digits a literal denotes a rational, and few enough of them are converted.
    have hdigits : l.AllDigits := hx
    have hshort : ¬Decimal.conversionLimit < l.digits.length := Nat.not_lt.mpr hlegible.2
    refine ⟨.computed (.rational l.denoted), ?_, rfl⟩
    rw [Number.value, hdigits.value_eq hlegible.1, if_neg hshort, l.scaled_eq]
    rfl
  | stored n v e s t =>
    obtain ⟨q, hq⟩ := Option.isSome_iff_exists.mp hx
    refine ⟨.ofValue v, rfl, ?_⟩
    rw [Number.rational, hq]
    exact Quantity.toRat?_eq_some_iff.mp hq

/-- A number that cannot be read is a literal, which fails for want of digits or with too many. -/
theorem Number.value_of_not_isLegible {x : Number} (hx : x.token.IsRational) (h : ¬x.token.IsLegible) :
    ∃ l, x = .literal l
      ∧ x.value = .error (ofLiteral (if l.isBare then .incomplete else .tooManyDigits)) := by
  cases x with
  | literal l =>
    refine ⟨l, rfl, ?_⟩
    have hdigits : l.AllDigits := hx
    by_cases hbare : l.isBare = true
    · rw [Number.value, Literal.WellFormed.value_of_isBare hbare, if_pos hbare]
      rfl
    · have hlong : Decimal.conversionLimit < l.digits.length :=
        Nat.lt_of_not_ge fun hshort => h ⟨Bool.eq_false_iff.mpr hbare, hshort⟩
      rw [Number.value, hdigits.value_eq (Bool.eq_false_iff.mpr hbare), if_pos hlong, if_neg hbare]
      rfl
  | stored n v e s t => exact absurd trivial h

/-- A number is what it denotes, and divides nothing. -/
theorem Number.calculates (x : Number) (hx : Admitted legible x.token) :
    Calculates legible False x.rational x.value := by
  by_cases h : x.token.IsLegible
  · obtain ⟨y, hy, hq⟩ := Number.value_eq hx.1 h
    rw [hy]
    exact .ok id y hq
  · obtain ⟨l, -, hl⟩ := Number.value_of_not_isLegible hx.1 h
    rw [hl]
    exact .illegible (fun hlegible => h (hx.2 hlegible)) _

mutual

theorem Unary.calculates (x : Unary) (hx : ∀ t ∈ x.tokens, Admitted legible t)
    (hmodest : x.ModestExponents) : Calculates legible x.DividesByZero x.rational (x.value m) := by
  match x with
  | .number x => exact x.calculates (hx _ List.mem_cons_self)
  | .group x closed =>
    obtain ⟨-, hrest⟩ := List.forall_mem_cons.mp hx
    exact Expr.calculates x (List.forall_mem_append.mp hrest).1 hmodest
  -- The others begin with an operator that is none of rational arithmetic.
  | .pi => exact absurd (mem_of_isRational (hx _ List.mem_cons_self).1) (by decide)
  | .euler => exact absurd (mem_of_isRational (hx _ List.mem_cons_self).1) (by decide)
  | .root _ _ => exact absurd (mem_of_isRational (hx _ List.mem_cons_self).1) (by decide)
  | .call f hf x closed =>
    have hno := isFunction_of_mem (mem_of_isRational (hx _ List.mem_cons_self).1)
    rw [hf] at hno
    cases hno

theorem Suffix.calculates (x : Suffix) (hx : ∀ t ∈ x.tokens, Admitted legible t)
    (hmodest : x.ModestExponents) : Calculates legible x.DividesByZero x.rational (x.value m) := by
  match x with
  | .mk x marks =>
    obtain ⟨hx, hmarks⟩ := List.forall_mem_append.mp hx
    exact (Unary.calculates x hx hmodest).andThen fun y hy =>
      Mark.applyAll_rational marks (fun t ht => (hmarks t ht).1) hy

theorem Factor.calculates (x : Factor) (hx : ∀ t ∈ x.tokens, Admitted legible t)
    (hmodest : x.ModestExponents) : Calculates legible x.DividesByZero x.rational (x.value m) := by
  match x with
  | .plain x => exact Suffix.calculates x hx hmodest
  | .power x e =>
    obtain ⟨hx, hexponent⟩ := List.forall_mem_append.mp hx
    obtain ⟨-, he⟩ := List.forall_mem_cons.mp hexponent
    obtain ⟨hbase, hmodest, n, hn, hsmall⟩ := hmodest
    refine (Suffix.calculates x hx hbase).bind fun y hy => ?_
    refine (Signed.calculates e he hmodest).bind fun z hz => ?_
    -- The exponent is an integer that is worked out, so the power is exact or divides by zero.
    have hpow : Quantity.pow (.rational x.rational) (.rational e.rational)
        = if x.rational = 0 ∧ e.rational < 0 then .error .divisionByZero
          else .ok (.rational (x.rational ^ e.rational.num)) := by
      simp only [hn, Quantity.pow_rational x.rational hsmall, Int.cast_lt_zero, Rat.num_intCast]
    rw [hy, hz]
    exact .arithmetic hpow

theorem Signed.calculates (x : Signed) (hx : ∀ t ∈ x.tokens, Admitted legible t)
    (hmodest : x.ModestExponents) : Calculates legible x.DividesByZero x.rational (x.value m) := by
  match x with
  | .mk negated x =>
    have hfactor := Factor.calculates x (List.forall_mem_append.mp hx).2 hmodest
    cases negated with
    | false => exact hfactor
    -- The sign is taken from the value, and divides nothing.
    | true =>
      refine hfactor.andThen fun y hy => ⟨_, rfl, ?_⟩
      show y.quantity.negate = _
      rw [hy, Quantity.negate_rational]
      rfl

theorem Term.calculates (x : Term) (hx : ∀ t ∈ x.tokens, Admitted legible t)
    (hmodest : x.ModestExponents) : Calculates legible x.DividesByZero x.rational (x.value m) := by
  match x with
  | .mk x more =>
    obtain ⟨hx, hmore⟩ := List.forall_mem_append.mp hx
    exact (Signed.calculates x hx hmodest.1).bind fun y hy =>
      Products.calculates more hmore hmodest.2 hy

/-- Behind the first factors, the others are multiplied or divided by. -/
theorem Products.calculates (more : Products) (hmore : ∀ t ∈ more.tokens, Admitted legible t)
    (hmodest : more.ModestExponents) {y : Operand} {q : Rat} (hy : y.quantity = .rational q) :
    Calculates legible more.DividesByZero (more.rational q) (more.value m y) := by
  match more with
  | .nil => exact .ok id y hy
  | .cons joint x more =>
    obtain ⟨hx, hmore⟩ := List.forall_mem_append.mp (List.forall_mem_append.mp hmore).2
    refine (Signed.calculates x hx hmodest.1).bind fun z hz => ?_
    -- Joining is one more operation between the factor and those behind it.
    have hjoined : Calculates legible (joint = .over ∧ x.rational = 0)
        (joint.link.rational q x.rational)
        (ofArithmetic (joint.link.apply y.quantity z.quantity) >>= fun w => .ok (.computed w)) := by
      rw [hy, hz]
      exact .arithmetic (joint.apply_rational q x.rational)
    have hboth := hjoined.bind fun w hw => Products.calculates more hmore hmodest.2 hw
    rwa [bind_assoc] at hboth

theorem Expr.calculates (x : Expr) (hx : ∀ t ∈ x.tokens, Admitted legible t)
    (hmodest : x.ModestExponents) : Calculates legible x.DividesByZero x.rational (x.value m) := by
  match x with
  | .mk x more =>
    obtain ⟨hx, hmore⟩ := List.forall_mem_append.mp hx
    exact (Term.calculates x hx hmodest.1).bind fun y hy => Sums.calculates more hmore hmodest.2 hy

/-- Behind the first terms, the others are added, and percentages are taken of these. -/
theorem Sums.calculates (more : Sums) (hmore : ∀ t ∈ more.tokens, Admitted legible t)
    (hmodest : more.ModestExponents) {y : Operand} {q : Rat} (hy : y.quantity = .rational q) :
    Calculates legible more.DividesByZero (more.rational q) (more.value m y) := by
  match more with
  | .nil => exact .ok id y hy
  | .term subtracted x more =>
    obtain ⟨hx, hmore⟩ := List.forall_mem_append.mp (List.forall_mem_cons.mp hmore).2
    refine (Term.calculates x hx hmodest.1).bind fun z hz => ?_
    rw [hy, hz, addSummand_rational]
    exact Sums.calculates more hmore hmodest.2 rfl
  | .percentage subtracted x more =>
    obtain ⟨hx, hmore⟩ := List.forall_mem_cons.mp (List.forall_mem_cons.mp hmore).2
    obtain ⟨-, hmore⟩ := List.forall_mem_cons.mp hmore
    show Calculates legible more.DividesByZero _ _
    -- The number of a percentage divides nothing.
    rw [← false_or more.DividesByZero]
    refine (x.calculates hx).bind fun z hz => ?_
    rw [hy, hz, percentageFactor_rational, Quantity.multiply_rational]
    exact Sums.calculates more hmore hmodest rfl

end

end Phrase

end Reckoner.Evaluation

/-! ## §5 Buffers -/

namespace Reckoner.Buffer

open Reckoner.Evaluation

variable {b : Buffer} {degrees : Bool} {t : Phrase.Expr}

/-- A tree that derives all tokens but the binary operators at the end. -/
abbrev DerivesAll (b : Buffer) (degrees : Bool) (t : Phrase.Expr) : Prop :=
  b.Derives ⟨degrees, b.binaryStart⟩ t b.binaryStart

theorem DerivesAll.tokens_eq (h : b.DerivesAll degrees t) : b.withoutTrailingBinary = t.tokens := by
  have hyield := h.yield
  rw [window, Int.toNat_natCast, List.take_take, Nat.min_self] at hyield
  exact hyield.symm

/-- A buffer with a tree evaluates to the value of the tree. -/
theorem DerivesAll.evaluate_eq (h : b.DerivesAll degrees t) :
    b.evaluate degrees = t.value ⟨degrees, false⟩ := by
  have hgreedy := h.greedy
  -- Behind the last operand nothing is read.
  rw [window, Int.toNat_natCast, List.drop_take, Nat.sub_self, List.take_zero] at hgreedy
  exact evaluate_eq_value h.tokens_eq hgreedy (.inl h.nested)

/-- A buffer that has a value has a tree. -/
theorem exists_derivesAll {x : Operand} (h : b.evaluate degrees = .ok x) : ∃ t, b.DerivesAll degrees t := by
  -- Evaluation asks for no more tokens than there are.
  have hreach : (b.binaryStart : Int) ≤ b.length := Int.ofNat_le.mpr b.binaryStart_le
  obtain ⟨t, ht, -⟩ := exists_derives hreach (evaluate_eq_ok_iff.mp h)
  exact ⟨t, ht⟩

/-- A buffer of rational arithmetic whose exponents are integers that are not too large. If it evaluates, it
has a tree, and the result is known to be the rational that the tree is in the field of rationals. If it has
a tree, and its literals are numbers within the limit of conversion, then either nothing divides by zero and
it does evaluate, or something does and the error is that of a division by zero. -/
theorem evaluate_rational (hb : ∀ t ∈ b, t.IsRational) (degrees : Bool) :
    (∀ x, b.evaluate degrees = .ok x → ∃ t, b.DerivesAll degrees t)
    ∧ ∀ t, b.DerivesAll degrees t → t.ModestExponents →
      (∀ x, b.evaluate degrees = .ok x → x.quantity.toRat? = some t.rational ∧ ¬t.DividesByZero)
      ∧ ((∀ u ∈ b, u.IsLegible) →
        ((∃ e, b.evaluate degrees = .error (.arithmetic e)) ↔ t.DividesByZero)
        ∧ ∀ e, b.evaluate degrees = .error e →
          e = .arithmetic .divisionByZero ∧ ArithmeticError.divisionByZero.code = "DIVISION_BY_ZERO") := by
  refine ⟨fun x => exists_derivesAll, fun t ht hmodest => ?_⟩
  -- The tree derives tokens of the buffer only, so what holds of these holds of its own.
  have hmem : ∀ u ∈ t.tokens, u ∈ b := fun u hu => by
    rw [← ht.tokens_eq] at hu
    exact List.mem_of_mem_take hu
  rw [ht.evaluate_eq]
  constructor
  · intro x hx
    -- Nothing is known of the literals but that they are of digits.
    have hcalculates := t.calculates (m := ⟨degrees, false⟩)
      (fun u hu => (⟨hb u (hmem u hu), False.elim⟩ : Admitted False u)) hmodest
    rw [hx] at hcalculates
    cases hcalculates with
    | ok hD _ hq => exact ⟨Quantity.toRat?_eq_some_iff.mpr hq, hD⟩
  · intro hlegible
    have hcalculates := t.calculates (m := ⟨degrees, false⟩)
      (fun u hu => (⟨hb u (hmem u hu), fun _ => hlegible u (hmem u hu)⟩ : Admitted True u)) hmodest
    generalize t.value ⟨degrees, false⟩ = v at hcalculates ⊢
    -- With literals that are numbers, a value or a division by zero is what is left.
    cases hcalculates with
    | ok hD _ _ => exact ⟨iff_of_false (fun ⟨_, h⟩ => by cases h) hD, nofun⟩
    | zero hD => exact ⟨iff_of_true ⟨_, rfl⟩ hD, fun e he => by cases he; exact ⟨rfl, rfl⟩⟩
    | illegible h _ => exact absurd trivial h

/-- Four over the square of a number far below every tolerance. -/
def tinyDivisor : Buffer :=
  [number "4", .symbol .divide, .literal ⟨"1", "", false, -50⟩, .symbol .power, number "2"]

/-- The square is the divisor. -/
def tinyDivisorTree : Phrase.Expr :=
  .mk (.mk (alone (.number (.literal ⟨"4", "", false, 0⟩)))
    (.cons .over (.mk false (.power (.mk (.number (.literal ⟨"1", "", false, -50⟩)) [])
      (alone (.number (.literal ⟨"2", "", false, 0⟩))))) .nil)) .nil

/-- One over the difference of zero to the power zero and one. -/
def zeroDivisor : Buffer :=
  [number "1", .symbol .divide, .symbol .leftParen, number "0", .symbol .power, number "0",
    .symbol .minus, number "1"]

/-- The difference is in a parenthesis that is left open. -/
def zeroDivisorTree : Phrase.Expr :=
  .mk (.mk (alone (.number (.literal ⟨"1", "", false, 0⟩)))
    (.cons .over (alone (.group (.mk (.mk (.mk false (.power (.mk (.number (.literal ⟨"0", "", false, 0⟩)) [])
      (alone (.number (.literal ⟨"0", "", false, 0⟩))))) .nil)
        (.term true (.mk (alone (.number (.literal ⟨"1", "", false, 0⟩))) .nil) .nil)) false)) .nil)) .nil

/-- The tree of the divisor that is small. -/
theorem derivesAll_tinyDivisor : tinyDivisor.DerivesAll false tinyDivisorTree := by
  -- Where one part of the tree ends, nothing that is behind would continue it.
  have hgreedy : tinyDivisorTree.Greedy [] :=
    ⟨⟨⟨⟨trivial, rfl⟩, rfl⟩, nofun, ⟨⟨trivial, rfl⟩, ⟨trivial, rfl⟩, rfl⟩, rfl⟩, rfl⟩
  have hwindow : tinyDivisor.window ⟨false, tinyDivisor.binaryStart⟩ = tinyDivisorTree.tokens ++ [] := rfl
  exact derives_of_window hwindow hgreedy (by decide)

/-- The tree of the divisor that is zero, with its group left open. -/
theorem derivesAll_zeroDivisor : zeroDivisor.DerivesAll false zeroDivisorTree := by
  have hinner : Phrase.Expr.Greedy [] (.mk (.mk (.mk false (.power (.mk (.number (.literal ⟨"0", "", false, 0⟩)) [])
      (alone (.number (.literal ⟨"0", "", false, 0⟩))))) .nil)
        (.term true (.mk (alone (.number (.literal ⟨"1", "", false, 0⟩))) .nil) .nil)) :=
    ⟨⟨⟨⟨trivial, rfl⟩, ⟨trivial, rfl⟩, rfl⟩, rfl⟩, rfl, ⟨⟨⟨trivial, rfl⟩, rfl⟩, rfl⟩, rfl⟩
  have hgreedy : zeroDivisorTree.Greedy [] :=
    ⟨⟨⟨⟨trivial, rfl⟩, rfl⟩, nofun, ⟨⟨⟨hinner, fun _ => rfl⟩, rfl⟩, rfl⟩, rfl⟩, rfl⟩
  have hwindow : zeroDivisor.window ⟨false, zeroDivisor.binaryStart⟩ = zeroDivisorTree.tokens ++ [] := rfl
  exact derives_of_window hwindow hgreedy (by decide)

theorem evaluate_rational_tinyDivisor :
    (∃ x, tinyDivisor.evaluate false = .ok x ∧ x.quantity = .rational (4 * 10 ^ 100)
      ∧ x.quantity.toRat? = some tinyDivisorTree.rational ∧ ¬tinyDivisorTree.DividesByZero)
    ∧ zeroDivisor.evaluate false = .error (.arithmetic .divisionByZero)
    ∧ zeroDivisorTree.DividesByZero := by
  have htiny : ∀ t ∈ tinyDivisor, t.IsRational := by decide
  have hsquare : tinyDivisorTree.ModestExponents :=
    ⟨⟨trivial, ⟨trivial, trivial, 2, by decide +kernel, by decide⟩, trivial⟩, trivial⟩
  have hone : zeroDivisorTree.ModestExponents :=
    ⟨⟨trivial, ⟨⟨⟨trivial, trivial, 0, by decide +kernel, by decide⟩, trivial⟩, ⟨trivial, trivial⟩, trivial⟩,
      trivial⟩, trivial⟩
  have hvalue : tinyDivisor.evaluate false = .ok (.computed (.rational (4 * 10 ^ 100))) := by
    decide +kernel
  have hfails : zeroDivisor.evaluate false = .error (.arithmetic .divisionByZero) := by decide +kernel
  have hzero : ∀ t ∈ zeroDivisor, t.IsRational := by decide
  have hlegible : ∀ t ∈ zeroDivisor, t.IsLegible := by decide
  obtain ⟨-, htinyTree⟩ := evaluate_rational htiny false
  obtain ⟨-, hzeroTree⟩ := evaluate_rational hzero false
  obtain ⟨hexact, -⟩ := htinyTree _ derivesAll_tinyDivisor hsquare
  obtain ⟨-, hdivides⟩ := hzeroTree _ derivesAll_zeroDivisor hone
  exact ⟨⟨_, hvalue, rfl, hexact _ hvalue⟩, hfails, (hdivides hlegible).1.mp ⟨_, hfails⟩⟩

end Reckoner.Buffer
