import Reckoner.Proofs.Evaluation.Agreement
import Reckoner.Proofs.Evaluation.Closing

/-!
# Where reading stops

Reading goes on until there is nothing left, or until a closing parenthesis comes that nothing in front of
it opens. A sum takes every token that could continue it, and a group takes the closing parenthesis
behind it, so no other token can be left.

- `Matched` says that every closing parenthesis among some tokens closes something, and
  `Phrase.Expr.matched` that this is so in every tree of the grammar;
- `Phrase.Expr.unclosed_of_behind`: in front of a closing parenthesis that is left, nothing is open;
- `Reported`: readers never report that tokens were left, as `readers_report` says;
- `stops_at_unmatched` puts all together.
-/

namespace Reckoner.Buffer

/-! ## §1 Parentheses that close something -/

/-- A closing parenthesis with no unmatched parenthesis or function in front of it. -/
def Unmatched (b : Buffer) (i : Nat) : Prop :=
  b[i]? = some (.symbol .rightParen) ∧ unclosed (b.take i) = 0

/-- Every closing parenthesis among some tokens closes something, if `n` are open in front of them. -/
def Matched (n : Nat) (ts : List Token) : Prop :=
  ∀ i, ts[i]? = some (.symbol .rightParen) → openAfter n (ts.take i) ≠ 0

variable {n : Nat} {ts us : List Token} {t : Token}

theorem matched_of_not_mem (h : .symbol .rightParen ∉ ts) : Matched n ts :=
  fun _ hi => absurd (List.mem_of_getElem? hi) h

/-- A first token that is a closing parenthesis needs something open in front of all tokens. -/
theorem matched_cons (ht : t = .symbol .rightParen → n ≠ 0) (hts : Matched (openAfter n [t]) ts) :
    Matched n (t :: ts) := by
  intro i hi
  cases i with
  | zero => exact ht (Option.some.inj hi)
  | succ i =>
    rw [List.take_succ_cons, ← List.singleton_append, openAfter_append]
    exact hts i hi

/-- Tokens are matched together if the second ones are behind what the first ones leave open. -/
theorem Matched.append (hts : Matched n ts) (hus : Matched (openAfter n ts) us) :
    Matched n (ts ++ us) := by
  intro i hi
  -- The parenthesis is among the first tokens, or among the second ones.
  by_cases hlt : i < ts.length
  · rw [List.getElem?_append_left hlt] at hi
    rw [List.take_append_of_le_length (Nat.le_of_lt hlt)]
    exact hts i hi
  · have hle := Nat.le_of_not_lt hlt
    rw [List.getElem?_append_right hle] at hi
    rw [List.take_append, List.take_of_length_le hle, openAfter_append]
    exact hus _ hi

end Reckoner.Buffer

namespace Reckoner.Evaluation

open Reckoner.Buffer (Matched matched_of_not_mem matched_cons openAfter openAfter_opens)

/-- A parenthesis closes what was opened in front of it. -/
theorem matched_closingTokens {n : Nat} (hn : n ≠ 0) (closed : Bool) : Matched n (closingTokens closed) := by
  cases closed with
  | true => exact matched_cons (fun _ => hn) (matched_of_not_mem List.not_mem_nil)
  | false => exact matched_of_not_mem List.not_mem_nil

theorem matched_marks (n : Nat) (marks : List Mark) : Matched n (Mark.tokens marks) := by
  refine matched_of_not_mem fun hmem => ?_
  obtain ⟨k, -, hk⟩ := List.mem_map.mp hmem
  cases k <;> cases hk

theorem matched_signTokens (n : Nat) (negated : Bool) : Matched n (signTokens negated) := by
  cases negated <;> exact matched_of_not_mem (by simp [signTokens, Token.symbol])

theorem matched_joint (n : Nat) (joint : Joint) : Matched n joint.tokens := by
  cases joint <;> exact matched_of_not_mem (by simp [Joint.tokens, Token.symbol])

theorem matched_additive {n : Nat} {subtracted : Bool} {ts : List Token} (hts : Matched n ts) :
    Matched n (.symbol (additiveSymbol subtracted) :: ts) := by
  cases subtracted <;> exact matched_cons nofun hts

namespace Phrase

/-- A number closes nothing. -/
theorem Number.matched_token {n : Nat} (x : Number) {ts : List Token} (hts : Matched n ts) :
    Matched n (x.token :: ts) := by
  refine matched_cons (fun h => absurd h (x.token_ne_symbol _)) ?_
  rw [x.openAfter_token n []]
  exact hts

/-- What is in a group is read behind the parenthesis that opens it. -/
theorem Expr.matched_group {n : Nat} {x : Expr} {s : Symbol} (hs : Buffer.opens (.symbol s) = true)
    (closed : Bool) (hx : Matched (n + 1) x.tokens) :
    Matched n (.symbol s :: (x.tokens ++ closingTokens closed)) := by
  have hopen : openAfter n [.symbol s] = n + 1 := openAfter_opens hs n []
  refine matched_cons (fun h => ?_) ?_
  · rw [h] at hs
    cases hs
  · rw [hopen]
    -- Inside, the parenthesis that opens the group is open, so it is still when the group ends.
    refine hx.append (matched_closingTokens ?_ closed)
    rw [x.openAfter_tokens]
    omega

mutual

/-- Every closing parenthesis in a tree closes a group of it. -/
theorem Unary.matched (x : Unary) (n : Nat) : Matched n x.tokens := by
  match x with
  | .number x => exact x.matched_token (matched_of_not_mem List.not_mem_nil)
  | .pi | .euler => exact matched_cons nofun (matched_of_not_mem List.not_mem_nil)
  | .root negated x =>
    exact matched_cons nofun ((matched_signTokens _ negated).append (Unary.matched x _))
  | .group x closed => exact Expr.matched_group rfl closed (Expr.matched x (n + 1))
  | .call f hf x closed =>
    exact Expr.matched_group (Bool.or_eq_true_iff.mpr (.inr hf)) closed (Expr.matched x (n + 1))

theorem Suffix.matched (x : Suffix) (n : Nat) : Matched n x.tokens := by
  match x with
  | .mk x marks => exact (Unary.matched x n).append (matched_marks _ marks)

theorem Factor.matched (x : Factor) (n : Nat) : Matched n x.tokens := by
  match x with
  | .plain x => exact Suffix.matched x n
  | .power x e => exact (Suffix.matched x n).append (matched_cons nofun (Signed.matched e _))

theorem Signed.matched (x : Signed) (n : Nat) : Matched n x.tokens := by
  match x with
  | .mk negated x => exact (matched_signTokens n negated).append (Factor.matched x _)

theorem Term.matched (x : Term) (n : Nat) : Matched n x.tokens := by
  match x with
  | .mk x more => exact (Signed.matched x n).append (Products.matched more _)

theorem Products.matched (more : Products) (n : Nat) : Matched n more.tokens := by
  match more with
  | .nil => exact matched_of_not_mem List.not_mem_nil
  | .cons joint x more =>
    exact (matched_joint n joint).append ((Signed.matched x _).append (Products.matched more _))

theorem Expr.matched (x : Expr) (n : Nat) : Matched n x.tokens := by
  match x with
  | .mk x more => exact (Term.matched x n).append (Sums.matched more _)

theorem Sums.matched (more : Sums) (n : Nat) : Matched n more.tokens := by
  match more with
  | .nil => exact matched_of_not_mem List.not_mem_nil
  | .term _ x more => exact matched_additive ((Term.matched x n).append (Sums.matched more _))
  | .percentage _ x more =>
    exact matched_additive (x.matched_token (matched_cons nofun (Sums.matched more _)))

end

/-- In front of a closing parenthesis that a tree leaves, nothing is open. -/
theorem Expr.unclosed_of_behind {rest : List Token} (x : Expr) (h : x.Greedy rest) (hrest : rest ≠ []) :
    x.unclosed = 0 :=
  Classical.byContradiction fun hopen => hrest ((x.closes h).1.atEnd hopen)

end Phrase

/-! ## §2 What readers report -/

open Phrase (factor_eq sums_of_not_additive sums_additive)

/-- All errors but that tokens were left, which readers cannot see. -/
def Reported : EvaluationError → Prop
  | .malformed (.unparsed ..) => False
  | _ => True

/-- An outcome that is no report of tokens that were left. -/
abbrev Reports {α : Type} (x : Evaluated α) : Prop :=
  Ends (fun _ => True) Reported x

/-- Readers of nested operands that never report that tokens were left. -/
structure ReportReaders (r : Readers) : Prop where
  unary : ∀ ts, Reports (r.unary ts)
  exponent : ∀ ts, Reports (r.exponent ts)

theorem reports_ok {α : Type} (a : α) : Reports (.ok a) :=
  .ok trivial

/-- Operations on quantities know nothing of tokens. -/
theorem reports_arithmetic {α : Type} (x : Except ArithmeticError α) :
    Reports (EvaluationError.ofArithmetic x) := by
  cases x with
  | ok a => exact .ok trivial
  | error e => exact .error trivial

/-- Postfix operators know nothing of tokens. -/
theorem reports_applySuffix {x : Quantity} {t : Token} {y : Evaluated Quantity}
    (h : applySuffix? x t = some y) : Reports y := by
  unfold applySuffix? at h
  split at h
  case isTrue =>
    cases h
    cases x.factorial with
    | ok _ => exact reports_ok _
    | error e => cases e <;> exact .error trivial
  case isFalse =>
    split at h
    · cases h
      exact reports_ok _
    · split at h
      · cases h
        exact reports_ok _
      · cases h

section
variable {m : Mode} (hm : m.beyond = false) {r : Readers}
include hm

/-- No postfix operators report that tokens were left. -/
theorem suffixes_report (x : Operand) (ts : List Token) : Reports (suffixes m x ts) := by
  induction ts generalizing x with
  | nil =>
    rw [suffixes_of_not_leads hm x rfl]
    exact reports_ok _
  | cons t ts ih =>
    rw [suffixes]
    split
    · exact reports_ok _
    · next hy => exact (reports_applySuffix hy).bind fun _ _ => ih _

variable (hr : ReportReaders r)
include hr

/-- No factor reports that tokens were left. -/
theorem factor_reports (ts : List Token) : Reports (factor m r ts) := by
  rw [factor_eq hm]
  refine ((hr.unary ts).bind fun p _ => suffixes_report hm p.1 p.2).bind fun p _ => ?_
  split
  · exact (hr.exponent _).bind fun _ _ => (reports_arithmetic _).bind fun _ _ => reports_ok _
  · exact reports_ok _

theorem signed_reports (ts : List Token) : Reports (signed m r ts) := by
  rw [signed, nextIs_eq hm, ok_bind]
  split
  · exact (factor_reports hm hr _).bind fun _ _ => reports_ok _
  · exact factor_reports hm hr ts

/-- No product reports that tokens were left. By induction on the fuel. -/
theorem products_report (fuel : Nat) (x : Operand) (ts : List Token) :
    Reports (products m r fuel x ts) := by
  induction fuel generalizing x ts with
  | zero => exact reports_ok _
  | succ fuel ih =>
    rw [products, link_eq hm, ok_bind]
    split
    · exact reports_ok _
    · exact (signed_reports hm hr _).bind fun _ _ => (reports_arithmetic _).bind fun _ _ => ih _ _

theorem term_reports (ts : List Token) : Reports (term m r ts) :=
  (signed_reports hm hr ts).bind fun _ _ => products_report hm hr _ _ _

/-- No sum reports that tokens were left. By induction on the fuel. -/
theorem sums_report (fuel : Nat) (x : Operand) (ts : List Token) : Reports (sums m r fuel x ts) := by
  induction fuel generalizing x ts with
  | zero => exact reports_ok _
  | succ fuel ih =>
    cases hsum : leads Buffer.isAdditive ts with
    | false =>
      rw [sums_of_not_additive hm hsum]
      exact reports_ok _
    | true =>
      obtain ⟨subtracted, us, rfl⟩ := of_leads_additive hsum
      rw [sums_additive hm]
      split
      · exact (hr.unary us).bind fun _ _ => ih _ _
      · exact (term_reports hm hr us).bind fun _ _ => ih _ _

theorem expr_reports (ts : List Token) : Reports (expr m r ts) :=
  (term_reports hm hr ts).bind fun _ _ => sums_report hm hr _ _ _

theorem parenthesized_reports (ts : List Token) : Reports (parenthesized m r ts) := by
  refine (expr_reports hm hr ts).bind fun p _ => ?_
  simp only [nextIs_eq hm, ok_bind]
  split <;> exact reports_ok _

theorem radicand_reports (ts : List Token) : Reports (radicand m r ts) := by
  rw [radicand, nextIs_eq hm, ok_bind]
  split
  · exact (hr.unary _).bind fun _ _ => reports_ok _
  · exact (hr.unary ts).bind fun _ _ => reports_ok _

/-- No operand that begins with a key reports that tokens were left. -/
theorem ofSymbol_reports (s : Symbol) (ts : List Token) : Reports (ofSymbol m r s ts) := by
  unfold ofSymbol
  split
  · exact reports_ok _
  · exact reports_ok _
  · exact (radicand_reports hm hr ts).bind fun _ _ => (reports_arithmetic _).bind fun _ _ => reports_ok _
  · exact parenthesized_reports hm hr ts
  · split
    · refine (parenthesized_reports hm hr ts).bind fun p _ => ?_
      dsimp only
      split
      · exact (reports_arithmetic _).bind fun _ _ => reports_ok _
      · exact .error trivial
    · exact .error trivial

/-- No operand reports that tokens were left. -/
theorem unary_reports (ts : List Token) : Reports (unary m r ts) := by
  match ts with
  | [] => exact .error trivial
  | .literal l :: ts =>
    rw [unary]
    cases l.value with
    | ok q => exact reports_ok _
    -- What is wrong with a literal is not that tokens were left.
    | error e => cases e <;> exact .error trivial
  | .stored .. :: ts => exact reports_ok _
  | .operator (.listed s) :: ts => exact ofSymbol_reports hm hr s ts
  | .operator (.unlisted ..) :: ts => exact .error trivial

end

/-- By induction on the room: readers with one more nested operand use those with one less. -/
theorem readers_report {m : Mode} (hm : m.beyond = false) (room : Nat) :
    ReportReaders (readers m room) := by
  induction room with
  | zero => exact ⟨fun _ => .error trivial, fun _ => .error trivial⟩
  | succ room ih => exact ⟨unary_reports hm ih, signed_reports hm ih⟩

end Reckoner.Evaluation

namespace Reckoner.Buffer

open Reckoner.Evaluation

/-! ## §3 Buffers -/

/-- The first unmatched closing parenthesis of the tokens up to `reach`, or `reach` itself if there is none
there. -/
structure StopsAt (b : Buffer) (reach : Int) (position : Nat) : Prop where
  le : position ≤ reach
  before : ∀ i < position, ¬ b.Unmatched i
  stop : position < reach → b.Unmatched position

/-- The tokens in scope stand at the same places in the buffer. -/
theorem unmatched_window {b : Buffer} {s : Scope} {i : Nat} (hi : i < (b.window s).length) :
    Unmatched (b.window s) i ↔ b.Unmatched i := by
  rw [window, List.length_take] at hi
  have hlt : i < s.reach.toNat := Nat.lt_of_lt_of_le hi (Nat.min_le_left _ _)
  unfold Unmatched window
  rw [List.getElem?_take_of_lt hlt, List.take_take, Nat.min_eq_left (Nat.le_of_lt hlt)]

/-- A tree that takes all continuations ends where the first unmatched closing parenthesis is. -/
theorem Derives.stopsAt {b : Buffer} {s : Scope} {t : Phrase.Expr} {position : Nat}
    (h : b.Derives s t position) (hs : 0 ≤ s.reach) (hreach : s.reach ≤ b.length) :
    b.StopsAt s.reach position := by
  have hlength : ((b.window s).length : Int) = s.reach := by
    rw [window, List.length_take]
    omega
  have hle := h.position_le
  refine ⟨by omega, fun i hi hunmatched => ?_, fun hlt => ?_⟩
  -- An unmatched parenthesis in front would be one of the tree, where none is unmatched.
  · obtain ⟨hclosing, hopen⟩ := (unmatched_window (Nat.lt_of_lt_of_le hi hle)).mpr hunmatched
    rw [h.window_eq, List.getElem?_append_left (by rwa [h.length_tokens])] at hclosing
    rw [h.window_eq, List.take_append_of_le_length (by rw [h.length_tokens]; omega)] at hopen
    exact t.matched 0 i hclosing hopen
  · have hlt : position < (b.window s).length := by omega
    have hrest : (b.window s).drop position ≠ [] := by
      rw [Ne, List.drop_eq_nil_iff]
      omega
    refine (unmatched_window hlt).mp ⟨?_, ?_⟩
    -- What a tree leaves begins with a closing parenthesis.
    · rcases t.behind h.greedy with hnil | hparen
      · exact absurd hnil hrest
      · obtain ⟨rest, hclosing⟩ := leads_isSymbol_iff.mp hparen
        rw [← Nat.add_zero position, ← List.getElem?_drop, hclosing, List.getElem?_cons_zero]
    -- It is unmatched, as the tree would have taken it for a group of its own.
    · rw [← h.yield, unclosed, t.openAfter_tokens, Nat.zero_add]
      exact t.unclosed_of_behind h.greedy hrest

/-- Where evaluation ends, it stops at the first unmatched parenthesis, or at the end of the scope. -/
theorem StopsAt.of_evaluatePrefix {b : Buffer} {s : Scope} {position : Nat} {x : Operand}
    (hreach : s.reach ≤ b.length) (h : b.evaluatePrefix s = .ok (position, x)) :
    b.StopsAt s.reach position := by
  obtain ⟨t, hderives, -⟩ := exists_derives hreach h
  refine hderives.stopsAt ?_ hreach
  -- A tree has some token, so there is one in scope.
  have hpos : 0 < t.tokens.length := List.length_pos_iff.mpr t.tokens_ne_nil
  have hle := hderives.position_le
  rw [← hderives.length_tokens, window, List.length_take] at hle
  omega

/-- Tokens are reported to be left only when reading stopped in front of them. -/
theorem evaluatePrefix_of_unparsed {b : Buffer} {degrees : Bool} {position reach : Int}
    (h : b.evaluate degrees = .error (.malformed (.unparsed position reach))) :
    ∃ (i : Nat) (x : Operand), b.evaluatePrefix ⟨degrees, b.binaryStart⟩ = .ok (i, x)
      ∧ i ≠ b.binaryStart ∧ position = i ∧ reach = b.binaryStart := by
  have hreports : Reports (b.evaluatePrefix ⟨degrees, b.binaryStart⟩) := by
    have hm : (b.mode ⟨degrees, b.binaryStart⟩).beyond = false := by rw [mode_binaryStart]
    exact (expr_reports hm (readers_report hm _) _).bind fun _ _ => reports_ok _
  -- No reader reports that tokens were left, so it is evaluation that does.
  rcases bind_error_iff.mp h with hread | ⟨⟨i, x⟩, hread, h⟩
  · rw [hread] at hreports
    cases hreports with
    | error hreported => exact hreported.elim
  · dsimp only at h
    split at h
    · cases h
    · next hne =>
      refine ⟨i, x, hread, hne, ?_⟩
      cases hdescribe : b.describe with
      | error e =>
        rw [hdescribe] at h
        cases h
      | ok text =>
        rw [hdescribe] at h
        cases h
        exact ⟨rfl, rfl⟩

/-- Whenever reading ends, it has stopped at the first closing parenthesis that nothing in front of it
opens, or at the end of the scope if there is none. So tokens that are left are reported only because
of such a parenthesis. -/
theorem stops_at_unmatched (b : Buffer) :
    (∀ (s : Scope) position x, s.reach ≤ b.length → b.evaluatePrefix s = .ok (position, x) →
      b.StopsAt s.reach position)
    ∧ ∀ degrees e, b.evaluate degrees = .error (.malformed e) →
      e.message = "Failed to parse full expression" →
      ∃ i < b.binaryStart, b.StopsAt b.binaryStart i ∧ b.Unmatched i ∧ e = .unparsed i b.binaryStart := by
  refine ⟨fun s position x hreach h => .of_evaluatePrefix hreach h, fun degrees e h hmessage => ?_⟩
  cases e with
  | unparsed position reach =>
    obtain ⟨i, x, hread, hne, rfl, rfl⟩ := evaluatePrefix_of_unparsed h
    have hstops := StopsAt.of_evaluatePrefix (Int.ofNat_le.mpr b.binaryStart_le) hread
    -- Reading stopped in front of the last operand, not behind it.
    have hlt : i < b.binaryStart := by
      have := hstops.le
      simp only at this
      omega
    exact ⟨i, hlt, hstops, hstops.stop (Int.ofNat_lt.mpr hlt), rfl⟩
  -- No other error has this wording.
  | unexpectedEnd | unrecognizedToken | nestedTooDeeply | incompleteNumber =>
    exact absurd hmessage (by decide)

/-- A number in parentheses, and a parenthesis too many behind it. -/
def closedTwice : Buffer :=
  [.symbol .leftParen, .literal ⟨"1", "", false, 0⟩, .symbol .rightParen, .symbol .rightParen,
    .symbol .plus, .literal ⟨"2", "", false, 0⟩]

theorem stops_at_unmatched_closedTwice :
    closedTwice.evaluatePrefix ⟨false, 5⟩ = .ok (3, .computed (.rational 1))
    ∧ closedTwice.StopsAt 5 3
    ∧ closedTwice.evaluate false = .error (.malformed (.unparsed 3 6))
    ∧ ∃ i < closedTwice.binaryStart, closedTwice.StopsAt closedTwice.binaryStart i
      ∧ closedTwice.Unmatched i ∧ SyntaxError.unparsed 3 6 = .unparsed i closedTwice.binaryStart := by
  have hread : closedTwice.evaluatePrefix ⟨false, 5⟩ = .ok (3, .computed (.rational 1)) := by
    decide +kernel
  have hevaluate : closedTwice.evaluate false = .error (.malformed (.unparsed 3 6)) := by
    decide +kernel
  obtain ⟨hstops, hunparsed⟩ := stops_at_unmatched closedTwice
  exact ⟨hread, hstops ⟨false, 5⟩ 3 _ (by decide) hread, hevaluate, hunparsed _ _ hevaluate rfl⟩

end Reckoner.Buffer
