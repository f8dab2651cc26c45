import Reckoner.Proofs.Buffer.LeftOperand
import Reckoner.Proofs.Typing

/-!
# Runs of binary operators

A plus, times, divide or power sign replaces the binary operators before it, and a minus is put behind them,
as it may be a sign. So a run of binary operators is one operator with nothing but minus signs behind it, and
of operator keys that are pressed behind an operand, what is left are the last one that replaces others and
the minus signs after it.

- `not_isBinary_of_isInfix` and `eq_replicate_of_binary` say so of the runs in a buffer, whatever was done to
  build it;
- `settled` is what is left of operator keys that are pressed in turn;
- `perform_press_replacing` and `perform_press_minus` are the two steps, and `performAll_binary` is the run;
- `operator_runs_normal` puts both together.
-/

namespace Reckoner

/-! ## §1 Ends of operands -/

/-- Symbols that an operand may end with: constants, signs behind an operand, and a closing parenthesis. -/
def Symbol.closes : Symbol → Bool
  | .pi | .euler | .rightParen => true
  | s => s.isTrailing

/-- Tokens that an operand may end with. -/
def Token.closes (t : Token) : Bool :=
  !t.isOperator || t.has Symbol.closes

namespace Token

variable {t : Token}

/-- An operand does not end with a binary operator. -/
theorem not_isBinary_of_closes (h : t.closes = true) : Buffer.isBinary t = false := by
  cases t with
  | operator o =>
    cases o with
    | listed s => cases s <;> first | rfl | exact nomatch h
    | unlisted n hn => rfl
  | _ => rfl

/-- Nor with a token that an operand has to follow. -/
theorem not_opens_of_closes (h : t.closes = true) : t.opens = false := by
  cases t with
  | operator o =>
    cases o with
    | listed s => cases s <;> first | rfl | exact nomatch h
    | unlisted n hn => rfl
  | _ => rfl

/-- Binary operators open nothing. -/
theorem not_opens_of_isBinary (h : Buffer.isBinary t = true) : t.opens = false := by
  rw [Bool.eq_false_iff]
  intro hopens
  rw [isBinary_of_opens hopens] at h
  cases h

end Token

namespace Buffer

/-! ## §2 Runs in a buffer -/

/-- An operator that replaces others does not stand behind one. -/
theorem not_isBinary_of_isInfix {b : Buffer} (h : (.symbol .leftParen :: b : Buffer).IsChain Unreplaced)
    {front back : Buffer} {t : Token} {s : Symbol} (hb : b = front ++ t :: .symbol s :: back)
    (hs : s.isInfix = true) : isBinary t = false := by
  rw [hb, ← List.cons_append] at h
  have hneighbours := (List.isChain_cons_cons.mp h.right_of_append).1
  rw [Bool.eq_false_iff]
  -- Otherwise the operator would have replaced the one on its left.
  intro hbinary
  have hneeds := hneighbours hbinary
  exact absurd hs (Bool.eq_false_iff.mp hneeds)

/-- Behind a binary operator, all others of its run are minus signs. By induction on the run, whose first
operator does not replace the one before it. -/
theorem eq_replicate_of_binary {t : Token} {run : Buffer} (h : (t :: run).IsChain Unreplaced)
    (ht : isBinary t = true) (hrun : ∀ u ∈ run, isBinary u = true) :
    run = List.replicate run.length (.symbol .minus) := by
  induction run generalizing t with
  | nil => rfl
  | cons u us ih =>
    have hu : isBinary u = true := hrun u List.mem_cons_self
    have hchain := List.isChain_cons_cons.mp h
    have hus := ih hchain.2 hu fun v hv => hrun v (List.mem_cons_of_mem _ hv)
    -- The first operator of the run stands behind a binary one, so it needs no left operand.
    have hminus := Token.eq_minus_of_isBinary hu (hchain.1 ht)
    rw [hminus, List.length_cons, List.replicate_succ, ← hus]

/-! ## §3 Operator keys -/

/-- What is left of operator keys pressed in turn: the last one that replaces others, if there is one, and the
minus signs after it. -/
def settled (ss : List Symbol) : List Symbol :=
  (ss.filter Symbol.isInfix).getLast?.toList ++ ss.rtakeWhile fun s => !s.isInfix

/-- A key that replaces others leaves itself only, any other key adds itself. -/
theorem settled_concat (ss : List Symbol) (s : Symbol) :
    settled (ss ++ [s]) = if s.isInfix then [s] else settled ss ++ [s] := by
  unfold settled
  -- A replacing key is the last of its kind, and no sign comes after it.
  by_cases hs : s.isInfix = true
  · rw [List.filter_append, List.rtakeWhile_concat_neg _ _ _ (by simp [hs])]
    simp [hs]
  · rw [List.filter_append, List.rtakeWhile_concat_pos _ _ _ (by simp [hs])]
    simp [hs]

/-- Nothing is left that was not pressed. -/
theorem mem_of_mem_settled {ss : List Symbol} {s : Symbol} (h : s ∈ settled ss) : s ∈ ss := by
  rcases List.mem_append.mp h with h | h
  · rw [Option.mem_toList] at h
    exact List.mem_of_mem_filter (List.mem_of_getLast? h)
  · exact (List.rtakeWhile_suffix _ ss).subset h

/-- Pressing the key of a symbol, as an operation. -/
theorem perform_press_symbol (b : Buffer) (s : Symbol) :
    b.perform (.press s.code) = (b.operated? s).getD b := by
  have hkey : Key.ofCode? s.code = some (.symbol s) := Key.ofCode?_code (.symbol s)
  rw [perform, press_eq, hkey]
  simp only [pressed?_symbol]
  cases b.operated? s <;> rfl

section

variable {b run : Buffer} {t : Token} (hlast : b.getLast? = some t) (ht : t.closes = true)
  (hrun : ∀ u ∈ run, isBinary u = true)

include hlast ht hrun

/-- Binary operators behind an operand have an operand on their left. -/
theorem not_lacksOperand_append : lacksOperand (b ++ run) = false := by
  rw [lacksOperand_eq, List.getLast?_append, hlast]
  -- The last token ends the operand or is one of the operators; neither rejects a key.
  cases hend : run.getLast? with
  | none => exact Token.not_opens_of_closes ht
  | some u => exact Token.not_opens_of_isBinary (hrun u (List.mem_of_getLast? hend))

/-- A plus, times, divide or power sign replaces all of them. -/
theorem perform_press_replacing {s : Symbol} (hs : s.isInfix = true) :
    (b ++ run).perform (.press s.code) = b ++ [.symbol s] := by
  -- The operand in front ends in no binary operator, so all that is replaced is the run.
  have hb : ∀ u, b.getLast? = some u → isBinary u = false := by
    intro u hu
    obtain rfl := Option.some.inj (hlast.symm.trans hu)
    exact Token.not_isBinary_of_closes ht
  rw [perform_press_symbol, operated?, ← Symbol.isInfix_eq, if_pos hs,
    not_lacksOperand_append hlast ht hrun, withoutTrailingBinary_append_binary hb hrun]
  rfl

end

/-- A minus is put behind them. -/
theorem perform_press_minus (b : Buffer) {s : Symbol} (hs : s.isInfix = false) :
    b.perform (.press s.code) = b ++ [.symbol s] := by
  rw [perform_press_symbol, operated?, ← Symbol.isInfix_eq, hs]
  rfl

/-- The tokens of binary operators are binary. -/
theorem isBinary_symbol {ss : List Symbol} (h : ∀ s ∈ ss, s.isBinary = true) :
    ∀ u ∈ ss.map Token.symbol, isBinary u = true := by
  intro u hu
  obtain ⟨s, hs, rfl⟩ := List.mem_map.mp hu
  exact h s hs

/-- Pressing operator keys behind an operand. By induction on the keys, from the last one. -/
theorem performAll_binary {b : Buffer} {t : Token} (hlast : b.getLast? = some t) (ht : t.closes = true)
    {ss : List Symbol} (hss : ∀ s ∈ ss, s.isBinary = true) :
    performAll b (ss.map fun s => .press s.code) = b ++ (settled ss).map Token.symbol := by
  induction ss using List.reverseRecOn with
  | nil => simp [performAll, settled]
  | append_singleton ss s ih =>
    have hbefore : ∀ s ∈ ss, s.isBinary = true := fun s hs => hss s (List.mem_append_left _ hs)
    have hrun : ∀ u ∈ (settled ss).map Token.symbol, isBinary u = true :=
      isBinary_symbol fun s hs => hbefore s (mem_of_mem_settled hs)
    rw [List.map_append, List.map_singleton, performAll_concat, ih hbefore, settled_concat]
    -- The last key replaces what the keys before it left, or is a minus behind that.
    by_cases hs : s.isInfix = true
    · rw [perform_press_replacing hlast ht hrun hs, if_pos hs]
      rfl
    · rw [perform_press_minus _ (Bool.eq_false_iff.mpr hs), if_neg hs, List.map_append, List.append_assoc]
      rfl

/-! ## §4 Reachable buffers -/

/-- In every buffer that operations build, no plus, times, divide or power sign stands behind a binary
operator, so that a run of binary operators is one operator and minus signs behind it. If such a buffer ends
in an operand, operator keys put the last of these signs behind it and the minus signs that were pressed after
that. -/
theorem operator_runs_normal (os : List Operation) :
    (∀ front t s back, performAll [] os = front ++ t :: .symbol s :: back → s.isInfix = true →
      isBinary t = false)
    ∧ (∀ front t run back, performAll [] os = front ++ t :: run ++ back → isBinary t = true →
      (∀ u ∈ run, isBinary u = true) → run = List.replicate run.length (.symbol .minus))
    ∧ ∀ t, (performAll [] os).getLast? = some t → t.closes = true →
      ∀ ss : List Symbol, (∀ s ∈ ss, s.isBinary = true) →
        performAll (performAll [] os) (ss.map fun s => .press s.code)
          = performAll [] os ++ (settled ss).map Token.symbol := by
  have hchain := unreplaced_performAll os
  refine ⟨fun front t s back hb hs => not_isBinary_of_isInfix hchain hb hs, ?_,
    fun t hlast ht ss hss => performAll_binary hlast ht hss⟩
  intro front t run back hb ht hrun
  rw [hb, List.append_assoc, ← List.cons_append] at hchain
  -- What holds of neighbours in the whole buffer holds of those within the run.
  have hbehind := hchain.right_of_append
  exact eq_replicate_of_binary hbehind.left_of_append ht hrun

/-- A product whose second factor has two signs. -/
def twiceSigned : List Operation :=
  [.press 2, .press 20, .press 22, .press 21, .press 21, .press 3]

theorem operator_runs_normal_twiceSigned :
    performAll [] twiceSigned = [.literal ⟨"2", "", false, 0⟩, .symbol .times, .symbol .minus,
      .symbol .minus, .literal ⟨"3", "", false, 0⟩]
    ∧ isBinary (.literal ⟨"2", "", false, 0⟩) = false
    ∧ [Token.symbol .minus, .symbol .minus] = List.replicate 2 (.symbol .minus)
    ∧ (performAll [] twiceSigned).getLast? = some (.literal ⟨"3", "", false, 0⟩)
    ∧ performAll (performAll [] twiceSigned) [.press 21, .press 20, .press 21, .press 23, .press 21]
      = performAll [] twiceSigned ++ [.symbol .divide, .symbol .minus] := by
  have hbuffer : performAll [] twiceSigned = [.literal ⟨"2", "", false, 0⟩, .symbol .times,
      .symbol .minus, .symbol .minus, .literal ⟨"3", "", false, 0⟩] := rfl
  obtain ⟨hsingle, hruns, hkeys⟩ := operator_runs_normal twiceSigned
  refine ⟨hbuffer, hsingle [] _ .times _ hbuffer rfl, ?_, by rw [hbuffer]; rfl, ?_⟩
  · have hbinary : ∀ u ∈ [Token.symbol .minus, .symbol .minus], isBinary u = true := by decide
    exact hruns [.literal ⟨"2", "", false, 0⟩] (.symbol .times) _ [.literal ⟨"3", "", false, 0⟩] hbuffer
      rfl hbinary
  · exact hkeys _ (by rw [hbuffer]; rfl) rfl [.minus, .plus, .minus, .divide, .minus] (by decide)

end Buffer

end Reckoner
