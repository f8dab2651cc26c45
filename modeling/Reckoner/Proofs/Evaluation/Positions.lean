import Reckoner.Proofs.Buffer.Operation
import Reckoner.Proofs.Evaluation.Abbreviation

/-!
# Evaluation by position

The readers of the grammar take the tokens that are left, so they cannot look past the tokens in scope.
Here the grammar is read once more by position: every reader may look up any position of a buffer that is
longer than the scope, and has to stop at the bound by itself.

Both ways of reading come to the same, position by position. So evaluation of a prefix looks at no token
behind it, even where it looks two tokens ahead to tell a percentage of the running total, and binary
operators at the end of a buffer make no difference at all.

- `Outlook` is what can be looked up, and `Outlook.evaluate` reads it;
- `Outlook.Faces` relates a list of tokens to a position, `Outlook.Beside` what both ways of reading return;
- there is one lemma for each reader up to `Outlook.readers_beside`;
- `outlook_evaluate` says so of evaluation, and `only_prefix_read` draws the conclusions for buffers.
-/

namespace Reckoner.Evaluation

open EvaluationError (syntaxError ofArithmetic ofLiteral)

/-! ## §1 Reading by position -/

/-- Tokens that are looked up by position, the bound from which on nothing is in scope, and the angle
mode. -/
structure Outlook where
  look : Nat → Option Token
  reach : Int
  degrees : Bool

namespace Outlook

/-- How tokens are read below the bound. -/
def mode (o : Outlook) : Mode :=
  ⟨o.degrees, false⟩

/-- How many positions are left below the bound. -/
def left (o : Outlook) (i : Nat) : Nat :=
  o.reach.toNat - i

/-- Look at a position. Below the bound there has to be a token. -/
def peek (o : Outlook) (i : Nat) : Evaluated (Option Token) :=
  if o.reach ≤ i then .ok none
  else
    match o.look i with
    | some t => .ok (some t)
    | none => syntaxError .unexpectedEnd

def nextIs (o : Outlook) (s : Symbol) (i : Nat) : Evaluated Bool := do
  return (← o.peek i).any (Token.isSymbol s)

/-- Read a value that starts at a position, and return the position after it. -/
abbrev Reader := Nat → Evaluated (Operand × Nat)

/-- The readers by position that need room for one nested operand. -/
structure Readers where
  unary : Reader
  exponent : Reader

def suffixes (o : Outlook) : Nat → Operand → Nat → Evaluated (Operand × Nat)
  | 0, x, i => .ok (x, i)
  | fuel + 1, x, i => do
    match ← o.peek i with
    | none => return (x, i)
    | some t =>
      match applySuffix? x.quantity t with
      | none => return (x, i)
      | some y => suffixes o fuel (.computed (← y)) (i + 1)

def factor (o : Outlook) (r : Readers) : Reader := fun i => do
  let (x, i) ← r.unary i
  let (x, i) ← o.suffixes (o.left i) x i
  if ← o.nextIs .power i then
    let (e, i) ← r.exponent (i + 1)
    return (.computed (← ofArithmetic (x.quantity.pow e.quantity)), i)
  else return (x, i)

def signed (o : Outlook) (r : Readers) : Reader := fun i => do
  if ← o.nextIs .minus i then
    let (x, i) ← o.factor r (i + 1)
    return (.computed x.quantity.negate, i)
  else o.factor r i

/-- How the next factor is joined to the product before it, and the position it is read from. -/
def link? (o : Outlook) (i : Nat) : Evaluated (Option (Link × Nat)) := do
  match ← o.peek i with
  | none => return none
  | some t =>
    if t.isSymbol .times then return some (.times, i + 1)
    else if t.isSymbol .divide then return some (.over, i + 1)
    else if startsFactor t then return some (.times, i)
    else return none

def products (o : Outlook) (r : Readers) : Nat → Operand → Nat → Evaluated (Operand × Nat)
  | 0, x, i => .ok (x, i)
  | fuel + 1, x, i => do
    match ← o.link? i with
    | none => return (x, i)
    | some (link, i) =>
      let (y, i) ← o.signed r i
      products o r fuel (.computed (← ofArithmetic (link.apply x.quantity y.quantity))) i

def term (o : Outlook) (r : Readers) : Reader := fun i => do
  let (x, i) ← o.signed r i
  o.products r (o.left i + 1) x i

/-- Whether an operand, a percent sign and then plus, minus, a closing parenthesis or the bound come
next. -/
def isPercentage (o : Outlook) (i : Nat) : Evaluated Bool := do
  if o.reach < i + 2 then return false
  else if !(← o.nextIs .percent (i + 1)) then return false
  else if (← o.peek i).all Token.isOperator then return false
  else return (← o.peek (i + 2)).all endsPercentage

def sums (o : Outlook) (r : Readers) : Nat → Operand → Nat → Evaluated (Operand × Nat)
  | 0, x, i => .ok (x, i)
  | fuel + 1, x, i => do
    let plus ← o.nextIs .plus i
    if plus || (← o.nextIs .minus i) then
      if ← o.isPercentage (i + 1) then
        let (y, _) ← r.unary (i + 1)
        -- The operand is one token, and the percent sign behind it is skipped.
        sums o r fuel (.computed (x.quantity.multiply (percentageFactor (!plus) y.quantity))) (i + 3)
      else
        let (y, i) ← o.term r (i + 1)
        let total := if plus then x.quantity.add y.quantity else x.quantity.subtract y.quantity
        sums o r fuel (.computed total) i
    else return (x, i)

def expr (o : Outlook) (r : Readers) : Reader := fun i => do
  let (x, i) ← o.term r i
  o.sums r (o.left i + 1) x i

def parenthesized (o : Outlook) (r : Readers) : Reader := fun i => do
  let (x, i) ← o.expr r i
  if ← o.nextIs .rightParen i then return (x, i + 1) else return (x, i)

def radicand (o : Outlook) (r : Readers) (i : Nat) : Evaluated (Quantity × Nat) := do
  if ← o.nextIs .minus i then
    let (x, i) ← r.unary (i + 1)
    return (x.quantity.negate, i)
  else
    let (x, i) ← r.unary i
    return (x.quantity, i)

def ofSymbol (o : Outlook) (r : Readers) (s : Symbol) : Reader := fun i =>
  match s with
  | .pi => .ok (.ofValue Constant.pi.value, i)
  | .euler => .ok (.ofValue Constant.euler.value, i)
  | .sqrt => do
    let (x, i) ← o.radicand r i
    return (← ofArithmetic (Operand.sqrt x), i)
  | .leftParen => o.parenthesized r i
  | s =>
    if s.isFunction then do
      let (x, i) ← o.parenthesized r i
      match applyFunction? o.mode x.quantity s with
      | some y => return (.computed (← ofArithmetic y), i)
      | none => syntaxError .unrecognizedToken
    else syntaxError .unrecognizedToken

def unary (o : Outlook) (r : Readers) : Reader := fun i => do
  match ← o.peek i with
  | none => syntaxError .unexpectedEnd
  | some (.literal l) => return (.computed (← l.value.mapError ofLiteral), i + 1)
  | some (.stored _ v _ _ _) => return (.ofValue v, i + 1)
  | some (.operator (.listed s)) => o.ofSymbol r s (i + 1)
  | some (.operator (.unlisted ..)) => syntaxError .unrecognizedToken

def readers (o : Outlook) : Nat → Readers
  | 0 => ⟨fun _ => syntaxError .nestedTooDeeply, fun _ => syntaxError .nestedTooDeeply⟩
  | room + 1 => ⟨o.unary (o.readers room), o.signed (o.readers room)⟩

/-- Evaluate what is in scope: where reading stopped, and the value. -/
def evaluate (o : Outlook) : Evaluated (Nat × Operand) := do
  let (x, i) ← o.expr (o.readers Buffer.deepestNesting) 0
  return (i, x)

/-! ## §2 Tokens at a position -/

variable {o : Outlook} {r : Evaluation.Readers} {r' : Readers} {x : Operand} {ts : List Token} {i : Nat}

/-- The tokens from a position up to the bound. -/
structure Faces (o : Outlook) (ts : List Token) (i : Nat) : Prop where
  bound : i + ts.length = o.reach.toNat
  look : ∀ k, k < ts.length → o.look (i + k) = ts[k]?

/-- One position on there is one token less. -/
theorem Faces.tail {t : Token} (h : o.Faces (t :: ts) i) : o.Faces ts (i + 1) where
  bound := by
    have := h.bound
    simp only [List.length_cons] at this
    omega
  look k hk := by
    have := h.look (k + 1) (by simpa using hk)
    rwa [List.getElem?_cons_succ, show i + (k + 1) = i + 1 + k by omega] at this

theorem Faces.left_eq (h : o.Faces ts i) : o.left i = ts.length := by
  have := h.bound
  unfold left
  omega

/-- Behind a token that was seen are the other ones. -/
theorem Faces.behind {p : Token → Bool} (h : o.Faces ts i) (hp : leads p ts = true) :
    o.Faces ts.tail (i + 1) := by
  cases ts with
  | nil => cases hp
  | cons t ts => exact h.tail

/-- Below the bound a position holds the token in front, and there is none at the bound. -/
theorem Faces.peek_eq (h : o.Faces ts i) : o.peek i = .ok ts.head? := by
  have hbound := h.bound
  unfold peek
  cases ts with
  | nil =>
    rw [List.length_nil] at hbound
    rw [if_pos (by omega), List.head?_nil]
  | cons t ts =>
    rw [List.length_cons] at hbound
    have hlook : o.look i = some t := h.look 0 (Nat.succ_pos _)
    rw [if_neg (by omega), hlook, List.head?_cons]

theorem Faces.nextIs_eq (h : o.Faces ts i) (s : Symbol) :
    o.nextIs s i = .ok (leads (Token.isSymbol s) ts) := by
  rw [nextIs, h.peek_eq]
  rfl

/-- Whether a percentage comes next is told by the same tokens, which are looked at only below the
bound. -/
theorem Faces.isPercentage_eq (h : o.Faces ts i) : o.isPercentage i = .ok (percentageNext ts) := by
  have hbound := h.bound
  unfold isPercentage
  match ts with
  | [] =>
    rw [List.length_nil] at hbound
    rw [if_pos (by omega)]
    rfl
  | [x] =>
    rw [List.length_cons, List.length_nil] at hbound
    rw [if_pos (by omega)]
    rfl
  | x :: sign :: rest =>
    simp only [List.length_cons] at hbound
    -- Two tokens are below the bound; a third one is looked at only if it is, too.
    rw [if_neg (by omega), h.tail.nextIs_eq, h.peek_eq, h.tail.tail.peek_eq]
    simp only [ok_bind, leads, List.head?_cons, Option.any_some, Option.all_some, percentageNext]
    by_cases hsign : sign.isSymbol .percent = true
    · by_cases hx : x.isOperator = true
      · simp only [hsign, hx, Bool.not_true, Bool.false_eq_true, if_false, if_true, Bool.false_and]
        rfl
      · simp only [hsign, hx, Bool.not_true, Bool.false_eq_true, if_false, Bool.not_false, Bool.true_and]
        rfl
    · simp only [hsign, Bool.not_false, if_true, Bool.and_false, Bool.false_and]
      rfl

/-! ## §3 Both ways of reading -/

/-- What both ways of reading return: the same value, and the tokens at the position after it. -/
def Beside (o : Outlook) (p : Operand × List Token) (q : Operand × Nat) : Prop :=
  p.1 = q.1 ∧ o.Faces p.2 q.2

/-- Readers that do alike at a position and on the tokens there. -/
def Alike (o : Outlook) (f : Evaluation.Reader) (g : Reader) : Prop :=
  ∀ ts i, o.Faces ts i → Corresponds o.Beside (f ts) (g i)

/-- Both readers of nested operands do alike, and a number is one token for both. -/
structure AlikeReaders (o : Outlook) (r : Evaluation.Readers) (r' : Readers) : Prop where
  unary : o.Alike r.unary r'.unary
  exponent : o.Alike r.exponent r'.exponent
  number : ∀ (x : Phrase.Number) ts i, o.Faces (x.token :: ts) i →
    Corresponds (fun p q => p.1 = q.1 ∧ p.2 = ts) (r.unary (x.token :: ts)) (r'.unary i)

theorem beside_ok (h : o.Faces ts i) :
    Corresponds (ε := EvaluationError) o.Beside (.ok (x, ts)) (.ok (x, i)) :=
  .ok ⟨rfl, h⟩

/-- Both ways apply the same postfix operators. By induction on the tokens, which are the fuel. -/
theorem suffixes_beside (h : o.Faces ts i) :
    Corresponds o.Beside (Evaluation.suffixes o.mode x ts) (o.suffixes (o.left i) x i) := by
  rw [h.left_eq]
  induction ts generalizing x i with
  | nil => exact beside_ok h
  | cons t ts ih =>
    simp only [Evaluation.suffixes, List.length_cons, suffixes, h.peek_eq, List.head?_cons, ok_bind]
    cases applySuffix? x.quantity t with
    | none => exact beside_ok h
    | some y => exact .bind_same fun a => ih h.tail

/-- Factors are read alike. -/
theorem factor_beside (hr : o.AlikeReaders r r') : o.Alike (Evaluation.factor o.mode r) (o.factor r') := by
  intro ts i h
  refine (hr.unary ts i h).bind ?_
  rintro ⟨x, ts⟩ ⟨_, i⟩ ⟨rfl, h⟩
  refine (suffixes_beside h).bind ?_
  rintro ⟨x, ts⟩ ⟨_, i⟩ ⟨rfl, h⟩
  dsimp only
  rw [h.nextIs_eq, Evaluation.nextIs_eq rfl, ok_bind, ok_bind]
  -- The power sign is at the position, or no exponent comes.
  split
  · next hpower =>
    refine (hr.exponent _ _ (h.behind hpower)).bind ?_
    rintro ⟨e, ts⟩ ⟨_, i⟩ ⟨rfl, h⟩
    exact .bind_same fun a => beside_ok h
  · exact beside_ok h

/-- Factors with their sign are read alike. -/
theorem signed_beside (hr : o.AlikeReaders r r') : o.Alike (Evaluation.signed o.mode r) (o.signed r') := by
  intro ts i h
  unfold Evaluation.signed signed
  rw [h.nextIs_eq, Evaluation.nextIs_eq rfl, ok_bind, ok_bind]
  split
  · next hminus =>
    refine (factor_beside hr _ _ (h.behind hminus)).bind ?_
    rintro ⟨x, ts⟩ ⟨_, i⟩ ⟨rfl, h⟩
    exact beside_ok h
  · exact factor_beside hr ts i h

/-- The next factor is joined alike, and read from the same position. -/
theorem link_beside (h : o.Faces ts i) :
    Corresponds (ε := EvaluationError) (Option.Rel fun p q => p.1 = q.1 ∧ o.Faces p.2 q.2)
      (Evaluation.link? o.mode ts) (o.link? i) := by
  unfold Evaluation.link? link?
  rw [h.peek_eq, Evaluation.peek_eq rfl, ok_bind, ok_bind]
  cases ts with
  | nil => exact .ok .none
  | cons t ts =>
    simp only [List.head?_cons]
    split
    · exact .ok (.some ⟨rfl, h.tail⟩)
    · split
      · exact .ok (.some ⟨rfl, h.tail⟩)
      · split
        · exact .ok (.some ⟨rfl, h⟩)
        · exact .ok .none

/-- Products are read alike, by induction on the fuel. -/
theorem products_beside (hr : o.AlikeReaders r r') (fuel : Nat) (h : o.Faces ts i) :
    Corresponds o.Beside (Evaluation.products o.mode r fuel x ts) (o.products r' fuel x i) := by
  induction fuel generalizing x ts i with
  | zero => exact beside_ok h
  | succ fuel ih =>
    refine (link_beside h).bind ?_
    rintro _ _ (@⟨⟨link, ts⟩, ⟨_, i⟩, ⟨rfl, h⟩⟩ | _)
    · refine (signed_beside hr _ _ h).bind ?_
      rintro ⟨y, ts⟩ ⟨_, i⟩ ⟨rfl, h⟩
      exact .bind_same fun a => ih h
    · exact beside_ok h

theorem term_beside (hr : o.AlikeReaders r r') : o.Alike (Evaluation.term o.mode r) (o.term r') := by
  intro ts i h
  refine (signed_beside hr ts i h).bind ?_
  rintro ⟨x, ts⟩ ⟨_, i⟩ ⟨rfl, h⟩
  -- The fuel is the number of tokens left, which is the same on both sides.
  dsimp only
  rw [h.left_eq]
  exact products_beside hr _ h

/-- Sums are read alike, by induction on the fuel. -/
theorem sums_beside (hr : o.AlikeReaders r r') (fuel : Nat) (h : o.Faces ts i) :
    Corresponds o.Beside (Evaluation.sums o.mode r fuel x ts) (o.sums r' fuel x i) := by
  induction fuel generalizing x ts i with
  | zero => exact beside_ok h
  | succ fuel ih =>
    unfold Evaluation.sums sums
    simp only [h.nextIs_eq, Evaluation.nextIs_eq (m := o.mode) rfl, ok_bind]
    split
    · next hsign =>
      obtain ⟨sign, ts, rfl⟩ : ∃ sign rest, ts = sign :: rest := by
        cases ts with
        | nil => cases hsign
        | cons sign rest => exact ⟨sign, rest, rfl⟩
      simp only [List.tail_cons, h.tail.isPercentage_eq, Evaluation.isPercentage_eq (m := o.mode) rfl,
        ok_bind]
      split
      · next hpercentage =>
        obtain ⟨n, rest, rfl⟩ := of_percentageNext hpercentage
        -- By position, a percentage is three tokens, whatever its number is; so it has to be one token.
        refine (hr.number n _ _ h.tail).bind ?_
        rintro ⟨y, _⟩ ⟨_, _⟩ ⟨rfl, rfl⟩
        exact ih h.tail.tail.tail
      · refine (term_beside hr _ _ h.tail).bind ?_
        rintro ⟨y, ts⟩ ⟨_, i⟩ ⟨rfl, h⟩
        exact ih h
    · exact beside_ok h

/-- Sums are read alike from their first term on. -/
theorem expr_beside (hr : o.AlikeReaders r r') : o.Alike (Evaluation.expr o.mode r) (o.expr r') := by
  intro ts i h
  refine (term_beside hr ts i h).bind ?_
  rintro ⟨x, ts⟩ ⟨_, i⟩ ⟨rfl, h⟩
  dsimp only
  rw [h.left_eq]
  exact sums_beside hr _ h

/-- Groups are read alike. -/
theorem parenthesized_beside (hr : o.AlikeReaders r r') :
    o.Alike (Evaluation.parenthesized o.mode r) (o.parenthesized r') := by
  intro ts i h
  refine (expr_beside hr ts i h).bind ?_
  rintro ⟨x, ts⟩ ⟨_, i⟩ ⟨rfl, h⟩
  dsimp only
  rw [h.nextIs_eq, Evaluation.nextIs_eq rfl, ok_bind, ok_bind]
  -- The parenthesis is taken if it is at the position; at the bound there is none.
  split
  · next hclosed => exact beside_ok (h.behind hclosed)
  · exact beside_ok h

/-- Radicands are read alike. -/
theorem radicand_beside (hr : o.AlikeReaders r r') (h : o.Faces ts i) :
    Corresponds (fun p q => p.1 = q.1 ∧ o.Faces p.2 q.2) (Evaluation.radicand o.mode r ts)
      (o.radicand r' i) := by
  unfold Evaluation.radicand radicand
  rw [h.nextIs_eq, Evaluation.nextIs_eq rfl, ok_bind, ok_bind]
  split
  · next hminus =>
    refine (hr.unary _ _ (h.behind hminus)).bind ?_
    rintro ⟨x, ts⟩ ⟨_, i⟩ ⟨rfl, h⟩
    exact .ok ⟨rfl, h⟩
  · refine (hr.unary _ _ h).bind ?_
    rintro ⟨x, ts⟩ ⟨_, i⟩ ⟨rfl, h⟩
    exact .ok ⟨rfl, h⟩

/-- A function is applied to what is read by position in its parentheses. -/
theorem ofSymbol_call {f : Symbol} (hf : f.isFunction = true) (r : Readers) (i : Nat) :
    o.ofSymbol r f i = (do
      let (x, i) ← o.parenthesized r i
      match applyFunction? o.mode x.quantity f with
      | some y => return (.computed (← ofArithmetic y), i)
      | none => syntaxError .unrecognizedToken) := by
  cases f <;> first | rfl | cases hf

/-- What begins with a key is read alike. -/
theorem ofSymbol_beside (hr : o.AlikeReaders r r') (s : Symbol) :
    o.Alike (Evaluation.ofSymbol o.mode r s) (o.ofSymbol r' s) := by
  intro ts i h
  by_cases hs : s.isFunction = true
  · rw [Phrase.ofSymbol_call _ _ hs, ofSymbol_call hs]
    refine (parenthesized_beside hr ts i h).bind ?_
    rintro ⟨x, ts⟩ ⟨_, i⟩ ⟨rfl, h⟩
    dsimp only
    cases applyFunction? o.mode x.quantity s with
    | some y => exact .bind_same fun a => beside_ok h
    | none => exact .error _
  · cases s
    case sqrt =>
      refine (radicand_beside hr h).bind ?_
      rintro ⟨q, ts⟩ ⟨_, i⟩ ⟨rfl, h⟩
      exact .bind_same fun a => beside_ok h
    case leftParen => exact parenthesized_beside hr ts i h
    -- The others are the constants, and symbols that no operand begins with.
    all_goals first | exact beside_ok h | exact .error _ | exact absurd rfl hs

/-- Operands are read alike. -/
theorem unary_beside (hr : o.AlikeReaders r r') : o.Alike (Evaluation.unary o.mode r) (o.unary r') := by
  intro ts i h
  unfold unary
  rw [h.peek_eq, ok_bind]
  cases ts with
  | nil => exact .error _
  | cons t ts =>
    cases t with
    | literal l => exact .bind_same fun a => beside_ok h.tail
    | stored n v e s x => exact beside_ok h.tail
    | operator op =>
      cases op with
      | listed s => exact ofSymbol_beside hr s ts (i + 1) h.tail
      | unlisted n hn => exact .error _

/-- A number is one token in both ways of reading. -/
theorem unary_number (x : Phrase.Number) (h : o.Faces (x.token :: ts) i) :
    Corresponds (fun p q => p.1 = q.1 ∧ p.2 = ts) (Evaluation.unary o.mode r (x.token :: ts))
      (o.unary r' i) := by
  unfold unary
  rw [h.peek_eq, ok_bind]
  cases x with
  | literal l => exact .bind_same fun a => .ok ⟨rfl, rfl⟩
  | stored n v e s x => exact .ok ⟨rfl, rfl⟩

/-- By induction on the room: readers with one more nested operand use those with one less. -/
theorem readers_beside (o : Outlook) (room : Nat) :
    o.AlikeReaders (Evaluation.readers o.mode room) (o.readers room) := by
  induction room with
  | zero => exact ⟨fun _ _ _ => .error _, fun _ _ _ => .error _, fun _ _ _ _ => .error _⟩
  | succ room ih => exact ⟨unary_beside ih, signed_beside ih, fun x _ _ h => unary_number x h⟩

end Outlook

end Reckoner.Evaluation

/-! ## §4 Buffers -/

namespace Reckoner.Buffer

open Reckoner.Evaluation

variable {b : Buffer}

/-- What is looked up below the bound are the tokens in scope. -/
theorem faces_window {s : Scope} (hreach : s.reach ≤ b.length) {look : Nat → Option Token}
    (hlook : ∀ i : Nat, (i : Int) < s.reach → look i = b[i]?) :
    Outlook.Faces ⟨look, s.reach, s.degrees⟩ (b.window s) 0 := by
  -- The window ends at the bound, or in front of it.
  have hlength : (b.window s).length = s.reach.toNat := by
    rw [window, List.length_take]
    omega
  refine ⟨by rw [hlength, Nat.zero_add], fun k hk => ?_⟩
  rw [hlength] at hk
  show look (0 + k) = _
  rw [Nat.zero_add, hlook k (by omega), window, List.getElem?_take_of_lt hk]

/-- Reading by position, with any tokens at the bound and past it, comes to what reading the tokens in scope
does. -/
theorem outlook_evaluate {s : Scope} (hreach : s.reach ≤ b.length) {look : Nat → Option Token}
    (hlook : ∀ i : Nat, (i : Int) < s.reach → look i = b[i]?) :
    Outlook.evaluate ⟨look, s.reach, s.degrees⟩ = b.evaluatePrefix s := by
  let o : Outlook := ⟨look, s.reach, s.degrees⟩
  have hfaces : o.Faces (b.window s) 0 := faces_window hreach hlook
  -- The bound lies within the buffer, so nobody looks beyond the end.
  have hmode : b.mode s = o.mode := by
    rw [mode, decide_eq_false (by omega), Outlook.mode]
  have hstart : 0 + (b.window s).length = s.reach.toNat := hfaces.bound
  refine (Corresponds.eq ?_).symm
  unfold evaluatePrefix Outlook.evaluate
  rw [hmode]
  refine (Outlook.expr_beside (Outlook.readers_beside o deepestNesting) _ _ hfaces).bind ?_
  rintro ⟨x, rest⟩ ⟨_, i⟩ ⟨rfl, h⟩
  have hend : i + rest.length = s.reach.toNat := h.bound
  -- The position is where the tokens that are left begin.
  exact .ok (by rw [show (b.window s).length - rest.length = i by omega])

/-- Binary operators behind a buffer do not show when it is evaluated. -/
theorem withoutTrailingBinary_append_of_isBinary (b : Buffer) {ops : List Token}
    (hops : ∀ t ∈ ops, isBinary t = true) :
    withoutTrailingBinary (b ++ ops) = b.withoutTrailingBinary := by
  -- The operators at the end of the buffer go together with those behind it.
  obtain ⟨back, hb, hback⟩ := b.exists_eq_append_binary
  calc withoutTrailingBinary (b ++ ops)
      = withoutTrailingBinary (b.withoutTrailingBinary ++ (back ++ ops)) := by
        rw [← List.append_assoc, ← hb]
    _ = b.withoutTrailingBinary :=
        withoutTrailingBinary_append_binary (fun _ ht => isBinary_of_getLast?_withoutTrailingBinary ht)
          fun t ht => (List.mem_append.mp ht).elim (hback t) (hops t)

/-- Plus and minus are binary. -/
theorem isBinary_of_isAdditive {t : Token} (h : isAdditive t = true) : isBinary t = true := by
  rcases Bool.or_eq_true_iff.mp h with h | h
  · rw [isSymbol_iff.mp h]
    rfl
  · rw [isSymbol_iff.mp h]
    rfl

/-- A binary operator has a key, and so a text. -/
theorem text_of_isBinary {t : Token} (h : isBinary t = true) : ∃ text, t.text = .ok text := by
  cases t with
  | literal l => cases h
  | stored n v e s x => cases h
  | operator o =>
    cases o with
    | listed s => exact Token.operatorText_listed s
    | unlisted n hn => cases h

/-- Binary operators behind a buffer change neither its value nor its error. -/
theorem evaluate_append_binary (b : Buffer) {ops : List Token} (hops : ∀ t ∈ ops, isBinary t = true)
    (degrees : Bool) : evaluate (b ++ ops) degrees = b.evaluate degrees := by
  have hwithout := withoutTrailingBinary_append_of_isBinary b hops
  have hstart : binaryStart (b ++ ops) = b.binaryStart := by
    rw [← length_withoutTrailingBinary, hwithout, length_withoutTrailingBinary]
  -- The report that not all tokens were read names the buffer, and the operators can be displayed.
  have hdescribe : Corresponds (fun _ _ => True) (describe (b ++ ops)) b.describe := by
    have hboth : Corresponds (fun _ _ => True) (describe (b ++ (ops ++ []))) (describe (b ++ ([] ++ []))) :=
      describe_between (fun t ht => text_of_isBinary (hops t ht)) (List.forall_mem_nil _) b []
    simpa only [List.append_nil, List.nil_append] using hboth
  refine Corresponds.eq ?_
  rw [evaluate_eq, evaluate_eq, hwithout, hstart]
  refine .bind_same fun p => ?_
  obtain ⟨x, rest⟩ := p
  dsimp only
  split
  · exact .ok rfl
  · generalize describe (b ++ ops) = p at hdescribe ⊢
    generalize b.describe = q at hdescribe ⊢
    cases hdescribe with
    | ok _ => exact .error _
    | error e => exact .error _

/-- Only the tokens in scope are read. What stands at the bound and past it makes no difference: tokens put
behind a buffer do not change how a prefix of it is read, and neither does whatever could be looked up
there. So binary operators behind a buffer do not change its value or its error, and they may be taken away,
all of them or the plus and minus signs only. -/
theorem only_prefix_read (b : Buffer) :
    (∀ s : Scope, s.reach ≤ b.length →
      (∀ ts : List Token, evaluatePrefix (b ++ ts) s = b.evaluatePrefix s)
      ∧ ∀ look : Nat → Option Token, (∀ i : Nat, (i : Int) < s.reach → look i = b[i]?) →
        Outlook.evaluate ⟨look, s.reach, s.degrees⟩ = b.evaluatePrefix s)
    ∧ (∀ (ops : List Token) (degrees : Bool), (∀ t ∈ ops, isBinary t = true) →
      evaluate (b ++ ops) degrees = b.evaluate degrees)
    ∧ ∀ degrees, b.withoutTrailingBinary.evaluate degrees = b.evaluate degrees
      ∧ b.stripAdditive.evaluate degrees = b.evaluate degrees := by
  refine ⟨fun s hreach => ⟨fun ts => ?_, fun look hlook => outlook_evaluate hreach hlook⟩,
    fun ops degrees hops => evaluate_append_binary b hops degrees, fun degrees => ⟨?_, ?_⟩⟩
  · -- Both are what reading by position comes to with the tokens of the longer buffer.
    have hlength : s.reach ≤ (b ++ ts).length := by
      rw [List.length_append]
      omega
    have hlonger : Outlook.evaluate ⟨fun i => (b ++ ts)[i]?, s.reach, s.degrees⟩
        = evaluatePrefix (b ++ ts) s := outlook_evaluate hlength fun _ _ => rfl
    rw [← hlonger]
    exact outlook_evaluate hreach fun i hi => List.getElem?_append_left (by omega)
  · obtain ⟨back, hb, hback⟩ := b.exists_eq_append_binary
    conv_rhs => rw [hb]
    exact (evaluate_append_binary _ hback degrees).symm
  -- The plus and minus signs at the end are binary operators that are put behind what is left.
  · have hb : b = b.stripAdditive ++ b.rtakeWhile isAdditive := by
      rw [stripAdditive_eq, List.rdropWhile_append_rtakeWhile]
    conv_rhs => rw [hb]
    refine (evaluate_append_binary _ (fun t ht => ?_) degrees).symm
    exact isBinary_of_isAdditive (List.mem_rtakeWhile_imp ht)

/-- Ten and ten percent of it, which with the two behind them are ten and a tenth of two. -/
def tenAndTenPercent : Buffer :=
  [number "10", .symbol .plus, number "10", .symbol .percent]

theorem only_prefix_read_tenAndTenPercent :
    evaluatePrefix (tenAndTenPercent ++ [number "2"]) ⟨false, 4⟩ = .ok (4, .computed 11)
    ∧ evaluatePrefix (tenAndTenPercent ++ [number "2"]) ⟨false, 5⟩
      = .ok (5, .computed (.rational (mkRat 51 5)))
    ∧ Outlook.evaluate ⟨fun i => (tenAndTenPercent ++ [number "2"])[i]?, 4, false⟩
      = .ok (4, .computed 11)
    ∧ evaluate (tenAndTenPercent ++ [.symbol .times, .symbol .minus]) false = .ok (.computed 11) := by
  have hprefix : tenAndTenPercent.evaluatePrefix ⟨false, 4⟩ = .ok (4, .computed 11) := by decide +kernel
  have hvalue : tenAndTenPercent.evaluate false = .ok (.computed 11) := by decide +kernel
  obtain ⟨hscope, hbinary, -⟩ := only_prefix_read tenAndTenPercent
  obtain ⟨hbehind, hlook⟩ := hscope ⟨false, 4⟩ (by decide)
  refine ⟨(hbehind [number "2"]).trans hprefix, by decide +kernel, ?_, ?_⟩
  · exact (hlook _ fun i hi => List.getElem?_append_left (Int.ofNat_lt.mp hi)).trans hprefix
  · exact (hbinary _ false (by decide)).trans hvalue

end Reckoner.Buffer
