import Reckoner.Proofs.Buffer.Operation

/-!
# Operators and what stands on their left

A plus, times, divide or power sign needs an operand on its left, and such a key is rejected at the beginning
of a buffer, behind an open parenthesis, behind a function and behind a square root. A minus may be typed
there, as a sign. The rejection looks at the last token only, and a minus is no reason to reject; but then
the key replaces the minus, and stands where it would have been rejected.

- `Founded` says of a buffer that no such operator lacks its left operand;
- `unreplaced_performAll`: such an operator never stands behind a binary operator;
- `founded_perform`: an operation preserves `Founded`, unless it presses such a key behind signs;
- `not_founded_perform_press`: pressing such a key behind signs never does;
- `founded_throughout_iff` puts the two together for whole runs;
- `not_founded_minusPlus` is the shortest run that goes wrong.
-/

namespace Reckoner

/-! ## §1 Left operands -/

/-- The binary operator that needs no operand on its left is the minus. -/
theorem Symbol.eq_minus_of_isBinary {s : Symbol} (h : s.isBinary = true) (hneeds : s.isInfix = false) :
    s = .minus := by
  revert h hneeds
  cases s <;> simp [isBinary, isInfix]

/-- Tokens that an operand has to follow: an open parenthesis, a function and a square root. -/
def Token.opens (t : Token) : Bool :=
  t.isSymbol .leftParen || t.has Symbol.isFunction || t.isSymbol .sqrt

namespace Token

theorem opens_of_not_isOperator {t : Token} (h : t.isOperator = false) : t.opens = false := by
  cases t with
  | operator o => cases h
  | _ => rfl

/-- A token that an operand has to follow is what rejects an operator behind it. -/
theorem opens_eq (t : Token) : t.opens
    = (t.isSymbol .leftParen || t.has Symbol.isFunction || (t.has Symbol.isLeading && !t.isSymbol .minus)) := by
  cases t with
  | operator o =>
    cases o with
    | listed s => cases s <;> rfl
    | unlisted n h => rfl
  | _ => rfl

/-- What opens something is no binary operator. -/
theorem isBinary_of_opens {t : Token} (h : t.opens = true) : Buffer.isBinary t = false := by
  cases t with
  | operator o =>
    cases o with
    | listed s => cases s <;> first | rfl | exact nomatch h
    | unlisted n hn => rfl
  | _ => rfl

/-- A binary operator that may stand without a left operand is a minus. -/
theorem eq_minus_of_isBinary {t : Token} (h : Buffer.isBinary t = true)
    (hneeds : t.has Symbol.isInfix = false) : t = .symbol .minus := by
  cases t with
  | operator o =>
    cases o with
    | listed s => exact congrArg symbol (Symbol.eq_minus_of_isBinary h hneeds)
    | unlisted n hn => cases h
  | _ => cases h

end Token

namespace Buffer

/-- An operand is missing at the beginning, and behind a token that opens something. -/
theorem lacksOperand_eq (b : Buffer) : b.lacksOperand = (b.getLast?.map Token.opens).getD true := by
  unfold lacksOperand
  cases b.getLast? with
  | none => rfl
  | some t => exact t.opens_eq.symm

/-- No plus, times, divide or power sign comes first or directly behind a token that an operand has to
follow. -/
def Founded (b : Buffer) : Prop :=
  ∀ front s back, b = front ++ .symbol s :: back → s.isInfix = true →
    ∃ t, front.getLast? = some t ∧ t.opens = false

/-- A buffer that ends in minus signs where an operand has to begin, so that they are signs. -/
def EndsInSigns (b : Buffer) : Prop :=
  ∃ front k, b = front ++ List.replicate (k + 1) (.symbol .minus)
    ∧ ∀ t, front.getLast? = some t → t.opens = true

/-! ## §2 Neighbours -/

/-- Neighbours in a founded buffer. -/
def Founds (t u : Token) : Prop :=
  u.has Symbol.isInfix = true → t.opens = false

/-- Neighbours in a buffer where no operator is typed behind a binary one that it should have replaced. -/
def Unreplaced (t u : Token) : Prop :=
  isBinary t = true → u.has Symbol.isInfix = false

/-- The beginning of a founded buffer is like what follows an open parenthesis. -/
theorem founded_iff_isChain {b : Buffer} :
    b.Founded ↔ (.symbol .leftParen :: b : Buffer).IsChain Founds := by
  rw [List.isChain_iff_forall_rel_of_append_cons_cons]
  constructor
  · intro h t u before after heq hu
    cases u with
    | operator o =>
      cases o with
      | listed s =>
        -- The left neighbour is the parenthesis that was put in front, or a token of the buffer.
        cases before with
        | nil =>
          obtain ⟨-, rfl⟩ := List.cons.inj heq
          obtain ⟨_, hlast, -⟩ := h [] s after rfl hu
          cases hlast
        | cons v before =>
          obtain ⟨-, rfl⟩ := List.cons.inj heq
          obtain ⟨w, hlast, hw⟩ := h (before ++ [t]) s after (List.append_cons _ _ _) hu
          rw [List.getLast?_concat] at hlast
          obtain rfl := Option.some.inj hlast
          exact hw
      | unlisted n hn => cases hu
    | _ => cases hu
  · rintro h front s back rfl hs
    have hneeds : (Token.symbol s).has Symbol.isInfix = true := hs
    -- In the other direction the neighbour is the last token in front, or that parenthesis.
    rcases List.eq_nil_or_concat front with rfl | ⟨front, t, rfl⟩
    · cases @h (.symbol .leftParen) (.symbol s) [] back rfl hneeds
    · rw [List.concat_eq_append] at h ⊢
      refine ⟨t, List.getLast?_concat,
        @h t (.symbol s) (.symbol .leftParen :: front) back ?_ hneeds⟩
      rw [List.append_assoc]
      rfl

/-- Being founded is nothing that the value of a literal matters for. -/
theorem tolerant_founds : Tolerant Founds where
  literal _ _ h := nomatch h
  typed _ _ h := nomatch h
  applied hs h := absurd h (Bool.eq_false_iff.mp hs)
  multiplied ht _ := Token.opens_of_not_isOperator ht

/-- Nor is standing behind a binary operator. -/
theorem tolerant_unreplaced : Tolerant Unreplaced where
  literal _ h ht := h ht
  typed _ _ _ := rfl
  applied hs _ := hs
  multiplied {t} ht hbinary := by
    cases t with
    | operator o => cases ht
    | _ => cases hbinary

variable {b : Buffer}

/-- No operation puts an operator behind one that it should have replaced. -/
theorem unreplaced_perform (h : (.symbol .leftParen :: b : Buffer).IsChain Unreplaced) (o : Operation) :
    (.symbol .leftParen :: b.perform o : Buffer).IsChain Unreplaced := by
  refine (step_perform b o).isChain tolerant_unreplaced rfl h fun n s _ _ _ _ t ht hbinary => ?_
  rw [List.getLast?_cons] at ht
  obtain rfl := Option.some.inj ht
  -- What the key replaced is gone, and in front of it there is no binary operator left.
  cases hlast : b.withoutTrailingBinary.getLast? with
  | none =>
    rw [hlast] at hbinary
    cases hbinary
  | some t =>
    rw [hlast] at hbinary
    exact absurd hbinary (Bool.eq_false_iff.mp (isBinary_of_getLast?_withoutTrailingBinary hlast))

/-! ## §3 One operation -/

/-- Behind a token that an operand has to follow, binary operators are signs. By induction on the operators:
behind the first one the others do not replace it. -/
theorem signs_of_isChain {t : Token} (ht : t.opens = true ∨ isBinary t = true) {back : Buffer}
    (hback : ∀ u ∈ back, isBinary u = true) (hfounds : (t :: back).IsChain Founds)
    (hunreplaced : (t :: back).IsChain Unreplaced) :
    back = List.replicate back.length (.symbol .minus) := by
  induction back generalizing t with
  | nil => rfl
  | cons u us ih =>
    have hu : isBinary u = true := hback u List.mem_cons_self
    rw [List.isChain_cons_cons] at hfounds hunreplaced
    -- What opens something has no operator behind it that needs a left operand, and a binary operator does
    -- not either.
    have hneeds : u.has Symbol.isInfix = false := by
      rcases ht with hopens | hbinary
      · refine Bool.eq_false_iff.mpr fun hneeds => ?_
        rw [hfounds.1 hneeds] at hopens
        cases hopens
      · exact hunreplaced.1 hbinary
    have hus := ih (.inr hu) (fun v hv => hback v (List.mem_cons_of_mem _ hv)) hfounds.2 hunreplaced.2
    rw [Token.eq_minus_of_isBinary hu hneeds, List.length_cons, List.replicate_succ, ← hus]

/-- If an operator is accepted but would stand where an operand has to begin, it replaces signs. -/
theorem endsInSigns_of_opens (hfounded : b.Founded)
    (hunreplaced : (.symbol .leftParen :: b : Buffer).IsChain Unreplaced) (hlacks : b.lacksOperand = false)
    {t : Token} (hlast : (.symbol .leftParen :: b.withoutTrailingBinary : Buffer).getLast? = some t)
    (hopens : t.opens = true) : b.EndsInSigns := by
  obtain ⟨back, hb, hback⟩ := exists_eq_append_binary b
  obtain ⟨before, hbefore⟩ := List.getLast?_eq_some_iff.mp hlast
  have hchain : (.symbol .leftParen :: b : Buffer) = before ++ t :: back := by
    rw [List.append_cons, ← hbefore, List.cons_append, ← hb]
  rw [founded_iff_isChain, hchain] at hfounded
  rw [hchain] at hunreplaced
  -- So all that waits behind the opening token are minus signs.
  have hsigns := signs_of_isChain (.inl hopens) hback hfounded.right_of_append
    hunreplaced.right_of_append
  have hfront : ∀ u, b.withoutTrailingBinary.getLast? = some u → u.opens = true := by
    intro u hu
    rw [List.getLast?_cons, hu] at hlast
    obtain rfl := Option.some.inj hlast
    exact hopens
  -- Whether there are any such signs decides whether the key was rejected.
  cases hlength : back.length with
  | zero =>
    -- Without anything to replace the operator would have been rejected.
    have hnil := List.length_eq_zero_iff.mp hlength
    rw [hnil, List.append_nil] at hb
    rw [hb, lacksOperand_eq] at hlacks
    cases hu : b.withoutTrailingBinary.getLast? with
    | none =>
      rw [hu] at hlacks
      cases hlacks
    | some u =>
      rw [hu] at hlacks
      exact absurd (hfront u hu) (Bool.eq_false_iff.mp hlacks)
  | succ k =>
    rw [hlength] at hsigns
    exact ⟨b.withoutTrailingBinary, k, hsigns ▸ hb, hfront⟩

/-- An operation keeps a buffer founded, unless it presses an operator behind signs. -/
theorem founded_perform (h : b.Founded)
    (hunreplaced : (.symbol .leftParen :: b : Buffer).IsChain Unreplaced) {o : Operation}
    (ho : ∀ n s, o = .press n → Key.ofCode? n = some (.symbol s) → s.isInfix = true →
      ¬ b.EndsInSigns) : (b.perform o).Founded := by
  rw [founded_iff_isChain]
  refine (step_perform b o).isChain tolerant_founds rfl (founded_iff_isChain.mp h)
    fun n s hn hkey hneeds hlacks t hlast _ => ?_
  -- If the operand were missing, the key would have replaced signs, which is excluded.
  refine Bool.eq_false_iff.mpr fun hopens => ho n s hn hkey hneeds ?_
  exact endsInSigns_of_opens h hunreplaced hlacks hlast hopens

/-- Pressed behind signs, an operator replaces them and has nothing on its left. -/
theorem perform_press_of_endsInSigns (h : b.EndsInSigns) {n : Int} {s : Symbol}
    (hn : Key.ofCode? n = some (.symbol s)) (hs : s.isInfix = true) :
    ∃ front, b.perform (.press n) = front ++ [.symbol s]
      ∧ ∀ t, front.getLast? = some t → t.opens = true := by
  obtain ⟨front, k, rfl, hfront⟩ := h
  -- All of the signs wait at the end, and nothing in front of them does.
  have hwithout : withoutTrailingBinary (front ++ List.replicate (k + 1) (.symbol .minus)) = front := by
    refine withoutTrailingBinary_append_binary
      (fun t ht => Token.isBinary_of_opens (hfront t ht)) fun t ht => ?_
    rw [List.eq_of_mem_replicate ht]
    rfl
  -- The key is not rejected, since the last token is a minus.
  have hlacks : lacksOperand (front ++ List.replicate (k + 1) (Token.symbol .minus)) = false := by
    rw [lacksOperand_eq, List.replicate_succ', ← List.append_assoc, List.getLast?_concat]
    rfl
  refine ⟨front, ?_, hfront⟩
  rw [perform, press_eq]
  simp only [hn, pressed?_symbol, operated?, ← Symbol.isInfix_eq, hs, hlacks, hwithout, if_true,
    Bool.false_eq_true, if_false]

/-- Pressing such a key behind signs leaves it without a left operand. -/
theorem not_founded_perform_press (h : b.EndsInSigns) {n : Int} {s : Symbol}
    (hn : Key.ofCode? n = some (.symbol s)) (hs : s.isInfix = true) :
    ¬ (b.perform (.press n)).Founded := by
  obtain ⟨front, hperform, hfront⟩ := perform_press_of_endsInSigns h hn hs
  intro hfounded
  obtain ⟨t, hlast, ht⟩ := hfounded front s [] hperform hs
  rw [hfront t hlast] at ht
  cases ht

/-! ## §4 Runs -/

/-- No run puts an operator behind one that it should have replaced. By induction on the run, from its last
operation. -/
theorem unreplaced_performAll (os : List Operation) :
    (.symbol .leftParen :: performAll [] os : Buffer).IsChain Unreplaced := by
  induction os using List.reverseRecOn with
  | nil => exact List.isChain_singleton _
  | append_singleton os o ih =>
    rw [performAll_concat]
    exact unreplaced_perform ih o

/-- From the empty buffer, every buffer along a run is founded exactly if the run never presses a plus, times,
divide or power key behind signs. By induction on the run, from its last operation. -/
theorem founded_throughout_iff (os : List Operation) :
    (∀ done, done <+: os → (performAll [] done).Founded)
    ↔ ∀ done n s, done ++ [.press n] <+: os → Key.ofCode? n = some (.symbol s) → s.isInfix = true →
      ¬ (performAll [] done).EndsInSigns := by
  constructor
  -- If an operator was pressed behind signs, the buffer right after that is not founded.
  · intro h done n s hprefix hn hs hsigns
    refine not_founded_perform_press hsigns hn hs ?_
    rw [← performAll_concat]
    exact h _ hprefix
  · intro h done hdone
    induction done using List.reverseRecOn with
    | nil =>
      rintro front s back hnil
      cases (List.append_eq_nil_iff.mp hnil.symm).2
    -- The buffer before the last operation is founded by the induction hypothesis, and the operation keeps
    -- that.
    | append_singleton done o ih =>
      rw [performAll_concat]
      refine founded_perform (ih ((List.prefix_append _ _).trans hdone)) (unreplaced_performAll done) ?_
      rintro n s rfl hn hs
      exact h done n s hdone hn hs

/-- A minus and a plus typed into the empty buffer leave the plus alone. -/
theorem not_founded_minusPlus :
    performAll [] [.press 21, .press 20] = [.symbol .plus]
    ∧ ¬ (performAll [] [.press 21, .press 20]).Founded := by
  refine ⟨rfl, fun h => ?_⟩
  obtain ⟨t, hlast, -⟩ := h [] .plus [] rfl rfl
  cases hlast

end Buffer

end Reckoner
