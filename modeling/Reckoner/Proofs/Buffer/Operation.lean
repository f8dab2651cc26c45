import Mathlib.Data.List.Chain
import Mathlib.Data.List.DropRight
import Mathlib.Data.List.Induction
import Reckoner.Proofs.Buffer.Continuation
import Reckoner.Proofs.Buffer.Editing

/-!
# Operations on a buffer

What can be done with one buffer, as data: `Operation` has one constructor for each operation, and
`perform` is the buffer after it; one that is rejected leaves the buffer alone. `Step` says once what the
operations do to the tokens, so that invariants are case analyses of it.

- `edit?` is the edit of an operation, and `perform_eq_apply` says that operations carry out their edits;
- `step_perform`: operations do nothing but what `Step` lists;
- `withoutTrailingBinary_append_binary` and its companions: the binary operators at the end of a buffer;
- `Tolerant` relations of neighbouring tokens allow everything to be typed but operators between operands,
  and `Step.isChain` says that operations preserve them;
- `retyped` is what an operation makes of the literal at the end, and `edit?_cases` and
  `retyped_eq_self` say that edits revise it accordingly.
-/

namespace Reckoner

/-! ## §1 Kinds of tokens -/

/-- The operators that need an operand on their left: all binary ones but the minus, which may also be a
sign. -/
def Symbol.isInfix : Symbol → Bool
  | .plus | .times | .divide | .power => true
  | _ => false

theorem Symbol.isInfix_eq (s : Symbol) : s.isInfix = (s.isBinary && !s.isLeading) := by
  cases s <;> rfl

namespace Buffer

/-! ## §2 Operations -/

/-- An operation on one buffer. -/
inductive Operation where
  | press (n : Int)
  | setExponent (e : Int)
  | delete
  | stripAdditive
  | clear

/-- The buffer after an operation. One that fails or is rejected leaves the buffer alone. -/
def perform (b : Buffer) : Operation → Buffer
  | .press n =>
    match b.press n with
    | .ok (_, c) => c
    | .error _ => b
  | .setExponent e => (b.setExponent e).2
  | .delete => b.delete
  | .stripAdditive => b.stripAdditive
  | .clear => []

/-- The buffer after operations in turn. -/
def performAll (b : Buffer) (os : List Operation) : Buffer :=
  os.foldl perform b

theorem performAll_concat (b : Buffer) (os : List Operation) (o : Operation) :
    b.performAll (os ++ [o]) = (b.performAll os).perform o := by
  rw [performAll, List.foldl_append]
  rfl

/-- The edit of an operation, or `none` if it is rejected. -/
def edit? (b : Buffer) : Operation → Option Edit
  | .press n =>
    match b.pressEdit n with
    | .ok e => e
    | .error _ => none
  | .setExponent e => b.exponentEdit e
  | .delete => some b.deleteEdit
  | .stripAdditive => some b.stripEdit
  | .clear => some (Edit.keeping 0)

/-- An operation carries out its edit. -/
theorem perform_eq_apply (b : Buffer) (o : Operation) :
    b.perform o = ((b.edit? o).map fun e => e.apply b).getD b := by
  cases o with
  | press n =>
    simp only [perform, Buffer.press, edit?]
    cases b.pressEdit n with
    | error e => rfl
    -- A known key may still be rejected, and then there is no edit.
    | ok e => cases e <;> rfl
  | setExponent e =>
    simp only [perform, Buffer.setExponent, edit?]
    cases b.exponentEdit e <;> rfl
  | delete => rfl
  | stripAdditive => rfl
  | clear => rfl

/-- Operations on a buffer whose literals can be typed add such literals and operators, and nothing else. -/
theorem grown_perform {b : Buffer} (hb : b.Typable) (o : Operation) : Grown b (b.perform o) := by
  cases o with
  | press n =>
    rw [perform]
    split
    · next accepted c hpress => exact grown_press hb hpress
    · exact .refl b
  | setExponent e => exact grown_setExponent hb e
  | delete => exact grown_delete hb
  | stripAdditive =>
    rw [perform, Buffer.stripAdditive, stripEdit, Edit.apply, Edit.keeping, List.append_nil]
    exact grown_take b _
  | clear => exact List.forall_mem_nil _

/-- What operations build from nothing is plain. By induction on the operations, from the last one. -/
theorem plain_performAll (os : List Operation) : ∀ t ∈ performAll [] os, t.Plain := by
  induction os using List.reverseRecOn with
  | nil => exact List.forall_mem_nil _
  | append_singleton os o ih =>
    -- The buffer before the last operation is plain, hence typable, and the operation adds nothing else.
    rw [performAll_concat]
    intro t ht
    exact (grown_perform (typable_of_sound fun u hu => (ih u hu).2) o t ht).elim (ih t) id

/-! ## §3 Binary operators at the end -/

/-- Dropping the longest end whose elements have a property. -/
theorem take_trailing (p : Token → Bool) (b : Buffer) :
    b.take (b.length - b.trailing p) = b.rdropWhile p := by
  have hb : b.rdropWhile p ++ b.rtakeWhile p = b := List.rdropWhile_append_rtakeWhile
  -- The end that is dropped is as long as the count of trailing tokens says.
  have hlength : b.length - b.trailing p = (b.rdropWhile p).length := by
    have hsum := congrArg List.length hb
    rw [List.length_append, List.rtakeWhile, List.length_reverse] at hsum
    rw [trailing, ← hsum, Nat.add_sub_cancel]
  calc b.take (b.length - b.trailing p)
      = (b.rdropWhile p ++ b.rtakeWhile p).take (b.rdropWhile p).length := by rw [hb, hlength]
    _ = b.rdropWhile p := List.take_left

theorem withoutTrailingBinary_eq (b : Buffer) : b.withoutTrailingBinary = b.rdropWhile isBinary :=
  take_trailing isBinary b

theorem stripAdditive_eq (b : Buffer) : b.stripAdditive = b.rdropWhile isAdditive := by
  rw [stripAdditive, stripEdit, Edit.apply, Edit.keeping, List.append_nil]
  exact take_trailing isAdditive b

/-- What waits at the end of a buffer are binary operators. -/
theorem exists_eq_append_binary (b : Buffer) :
    ∃ back, b = b.withoutTrailingBinary ++ back ∧ ∀ t ∈ back, isBinary t = true := by
  refine ⟨b.rtakeWhile isBinary, ?_, fun t ht => List.mem_rtakeWhile_imp ht⟩
  rw [withoutTrailingBinary_eq, List.rdropWhile_append_rtakeWhile]

/-- What is left does not end in a binary operator. -/
theorem isBinary_of_getLast?_withoutTrailingBinary {b : Buffer} {t : Token}
    (h : b.withoutTrailingBinary.getLast? = some t) : isBinary t = false := by
  rw [withoutTrailingBinary_eq] at h
  have hne : b.rdropWhile isBinary ≠ [] := by
    intro hnil
    rw [hnil] at h
    cases h
  rw [List.getLast?_eq_some_getLast hne] at h
  obtain rfl := Option.some.inj h
  exact Bool.eq_false_iff.mpr (List.rdropWhile_last_not _ _ hne)

/-- Binary operators behind a buffer that does not end in one are what is dropped from the end. -/
theorem withoutTrailingBinary_append_binary {front back : Buffer}
    (hfront : ∀ t, front.getLast? = some t → isBinary t = false)
    (hback : ∀ t ∈ back, isBinary t = true) : (front ++ back).withoutTrailingBinary = front := by
  induction back using List.reverseRecOn with
  | nil =>
    rw [List.append_nil, withoutTrailingBinary_eq, List.rdropWhile_eq_self_iff]
    intro hne
    exact Bool.eq_false_iff.mp (hfront _ (List.getLast?_eq_some_getLast hne))
  | append_singleton back t ih =>
    -- The last operator is dropped, and by the induction hypothesis so are the others.
    rw [← List.append_assoc, withoutTrailingBinary_eq,
      List.rdropWhile_concat_pos _ _ _ (hback t (by simp)), ← withoutTrailingBinary_eq]
    exact ih fun u hu => hback u (List.mem_append_left _ hu)

/-! ## §4 What operations do -/

/-- The buffer after an operation, as far as the kinds of its tokens go. -/
inductive Step (b : Buffer) : Operation → Buffer → Prop where
  | same {o : Operation} : Step b o b
  | revised {o : Operation} {front : Buffer} {l : Literal} (h : b = front ++ [.literal l])
      (l' : Literal) : Step b o (front ++ [.literal l'])
  | shortened {o : Operation} (n : Nat) : Step b o (b.take n)
  | typed {o : Operation} (h : ∀ t, b.getLast? = some t → t.isOperator = true) (l : Literal) :
      Step b o (b ++ [.literal l])
  | multiplied {o : Operation} {t : Token} (hlast : b.getLast? = some t) (h : t.isOperator = false)
      (l : Literal) : Step b o (b ++ [.symbol .times, .literal l])
  | applied {o : Operation} {s : Symbol} (h : s.isInfix = false) : Step b o (b ++ [.symbol s])
  | replaced {n : Int} {s : Symbol} (hn : Key.ofCode? n = some (.symbol s)) (h : s.isInfix = true)
      (hb : b.lacksOperand = false) :
      Step b (.press n) (b.withoutTrailingBinary ++ [.symbol s])

variable {b c : Buffer}

/-- Typing revises the literal at the end, or begins one. -/
theorem step_typed? {o : Operation} {type : Literal → Option Literal} (h : b.typed? type = some c) :
    Step b o c := by
  unfold typed? at h
  split at h
  · next l hlast =>
    obtain ⟨l', -, rfl⟩ := Option.map_eq_some_iff.mp h
    obtain ⟨front, rfl⟩ := List.getLast?_eq_some_iff.mp hlast
    rw [List.dropLast_concat]
    exact .revised rfl l'
  · next hlast =>
    obtain ⟨l', -, rfl⟩ := Option.map_eq_some_iff.mp h
    exact .multiplied hlast rfl l'
  · next hliteral hstored =>
    obtain ⟨l', -, rfl⟩ := Option.map_eq_some_iff.mp h
    -- Neither a literal nor a stored result is at the end, so an operator is, if anything.
    refine .typed (fun t ht => ?_) l'
    cases t with
    | literal l => exact absurd ht (hliteral l)
    | operator o => rfl
    | stored n v e s x => exact absurd ht (hstored n v e s x)

/-- Pressing a key takes one of the steps that are listed. -/
theorem step_press (b : Buffer) (n : Int) : Step b (.press n) (b.perform (.press n)) := by
  rw [perform, press_eq]
  cases hkey : Key.ofCode? n with
  | none => exact .same
  | some k =>
    dsimp only
    cases hpressed : b.pressed? k with
    | none => exact .same
    | some c =>
      cases k with
      | digit d => exact step_typed? ((b.pressed?_digit d).symm.trans hpressed)
      | point => exact step_typed? (b.pressed?_point.symm.trans hpressed)
      | symbol s =>
        -- An operator that needs a left operand replaces what waits, unless it is rejected.
        rw [pressed?_symbol, operated?, ← Symbol.isInfix_eq] at hpressed
        split at hpressed
        · next hneeds =>
          split at hpressed
          · cases hpressed
          · next hlacks =>
            cases hpressed
            exact .replaced hkey hneeds (Bool.eq_false_iff.mpr hlacks)
        · next hneeds =>
          cases hpressed
          exact .applied (Bool.eq_false_iff.mpr hneeds)

/-- Setting an exponent revises the literal at the end. -/
theorem step_setExponent (b : Buffer) (e : Int) :
    Step b (.setExponent e) (b.perform (.setExponent e)) := by
  rw [perform, Buffer.setExponent, exponentEdit]
  cases hlast : b.getLast? with
  | none => exact .same
  | some t =>
    cases t with
    | literal l =>
      obtain ⟨front, hb⟩ := List.getLast?_eq_some_iff.mp hlast
      have hne : b ≠ [] := by
        rintro rfl
        cases hlast
      dsimp only
      rw [apply_revising hne, hb, List.dropLast_concat]
      exact .revised rfl _
    | operator o => exact .same
    | stored n v e s x => exact .same

/-- Deleting revises the literal at the end, or drops the last token. -/
theorem step_delete (b : Buffer) : Step b .delete (b.perform .delete) := by
  rw [perform, Buffer.delete, deleteEdit]
  split
  · next l hlast =>
    obtain ⟨front, rfl⟩ := List.getLast?_eq_some_iff.mp hlast
    simp only [Edit.apply, Edit.revise, List.dropLast_concat, List.append_nil, List.length_append,
      List.length_singleton]
    -- What is left of the literal decides whether it is revised or dropped; nothing else about it matters
    -- here.
    generalize (if l.isEmpty = true then l else l.delete) = left
    split
    · have hfront : (front ++ [Token.literal left]).take front.length
          = (front ++ [Token.literal l]).take front.length := by
        rw [List.take_left, List.take_left]
      rw [Nat.add_sub_cancel, hfront]
      exact .shortened _
    · rw [List.take_of_length_le (by simp)]
      exact .revised rfl _
  · rw [Edit.apply, Edit.keeping, List.append_nil]
    exact .shortened _

/-- Operations do nothing else. -/
theorem step_perform (b : Buffer) (o : Operation) : Step b o (b.perform o) := by
  cases o with
  | press n => exact step_press b n
  | setExponent e => exact step_setExponent b e
  | delete => exact step_delete b
  | stripAdditive =>
    rw [perform, Buffer.stripAdditive, stripEdit, Edit.apply, Edit.keeping, List.append_nil]
    exact .shortened _
  | clear => exact .shortened 0

/-! ## §5 Neighbours -/

/-- A relation of neighbouring tokens that allows a literal behind every operator, and operators that need no
operand on their left behind everything. Which literal it is does not matter. -/
structure Tolerant (R : Token → Token → Prop) : Prop where
  literal : ∀ {t l} (l' : Literal), R t (.literal l) → R t (.literal l')
  typed : ∀ {t} (l : Literal), t.isOperator = true → R t (.literal l)
  applied : ∀ {t s}, s.isInfix = false → R t (.symbol s)
  multiplied : ∀ {t}, t.isOperator = false → R t (.symbol .times)

variable {R : Token → Token → Prop}

/-- A token may be put behind a chain if the last token there allows that. -/
theorem isChain_concat_iff {t : Token} :
    (b ++ [t]).IsChain R ↔ b.IsChain R ∧ ∀ u, b.getLast? = some u → R u t := by
  rw [List.isChain_append]
  simp only [List.isChain_singleton, List.head?_cons, Option.mem_def, Option.some.injEq, true_and,
    forall_eq']

/-- Operations preserve tolerated neighbours, if the one that replaces operators does. A buffer begins behind
some operator. -/
theorem Step.isChain (hR : Tolerant R) {o : Operation} (h : Step b o c) {start : Token}
    (hstart : start.isOperator = true) (hb : (start :: b).IsChain R)
    (hreplaced : ∀ n s, o = .press n → Key.ofCode? n = some (.symbol s) → s.isInfix = true →
      b.lacksOperand = false →
      ∀ t, (start :: b.withoutTrailingBinary).getLast? = some t → R t (.symbol s)) :
    (start :: c).IsChain R := by
  -- Every kind of step changes the chain at its end, where the relation tolerates it.
  cases h with
  | same => exact hb
  | revised h l' =>
    subst h
    rw [← List.cons_append, isChain_concat_iff] at hb ⊢
    exact ⟨hb.1, fun t ht => hR.literal l' (hb.2 t ht)⟩
  | shortened n => exact hb.take (n + 1)
  | typed h l =>
    rw [← List.cons_append, isChain_concat_iff]
    refine ⟨hb, fun t ht => hR.typed l ?_⟩
    -- The neighbour is the last token of the buffer, or the token that the buffer begins behind.
    rw [List.getLast?_cons] at ht
    obtain rfl := Option.some.inj ht
    cases hlast : b.getLast? with
    | none => exact hstart
    | some t => exact h t hlast
  | multiplied hlast h l =>
    rw [← List.cons_append, List.append_cons, isChain_concat_iff, isChain_concat_iff]
    -- Two tokens are added, and each has a neighbour of its own on its left.
    refine ⟨⟨hb, fun t ht => ?_⟩, fun t ht => ?_⟩
    · rw [List.getLast?_cons, hlast] at ht
      obtain rfl := Option.some.inj ht
      exact hR.multiplied h
    · rw [List.getLast?_concat] at ht
      obtain rfl := Option.some.inj ht
      exact hR.typed l rfl
  | applied h =>
    rw [← List.cons_append, isChain_concat_iff]
    exact ⟨hb, fun t _ => hR.applied h⟩
  | replaced hn hneeds hlacks =>
    rw [← List.cons_append, isChain_concat_iff]
    exact ⟨hb.take (b.binaryStart + 1), hreplaced _ _ rfl hn hneeds hlacks⟩

/-! ## §6 Edits -/

/-- The literal at the end of a buffer after an operation, even if it is dropped then. -/
def Operation.retyped (o : Operation) (l : Literal) : Literal :=
  match o with
  | .press n =>
    match Key.ofCode? n with
    | some (.digit d) => (l.addDigit d).getD l
    | some .point => l.addPoint.getD l
    | _ => l
  | .setExponent e => if e = 0 then l else l.withExponent e
  | .delete => if l.isEmpty then l else l.delete
  | .stripAdditive => l
  | .clear => l

variable {o : Operation} {e : Edit} {l : Literal}

theorem typeEdit_of_getLast? {type : Literal → Option Literal} (hlast : b.getLast? = some (.literal l)) :
    b.typeEdit type = (type l).map (Edit.revising b) := by
  simp only [typeEdit, hlast]

/-- The edit of a digit or a point revises the literal at the end, or pushes a new literal. -/
theorem typeEdit_cases {type : Literal → Option Literal} (h : b.typeEdit type = some e) :
    (∃ l l', b.getLast? = some (.literal l) ∧ type l = some l' ∧ e = Edit.revising b l')
    ∨ ∃ l, e = Edit.pushing b [.literal l] ∨ e = Edit.pushing b [.symbol .times, .literal l] := by
  unfold typeEdit at h
  split at h
  · next l hlast =>
    obtain ⟨l', hl', rfl⟩ := Option.map_eq_some_iff.mp h
    exact .inl ⟨l, l', hlast, hl', rfl⟩
  · obtain ⟨l', -, rfl⟩ := Option.map_eq_some_iff.mp h
    exact .inr ⟨l', .inr rfl⟩
  · obtain ⟨l', -, rfl⟩ := Option.map_eq_some_iff.mp h
    exact .inr ⟨l', .inl rfl⟩

/-- The edit of an operator key pushes the operator. -/
theorem symbolEdit_cases {s : Symbol} (h : b.symbolEdit s = some e) :
    ∃ n, e = ⟨none, n, [.symbol s]⟩ := by
  unfold symbolEdit at h
  split at h
  · split at h
    · cases h
    · cases h
      exact ⟨_, rfl⟩
  · cases h
    exact ⟨_, rfl⟩

/-- An edit pushes literals and operators, and revises nothing but the literal at the end. -/
theorem edit?_cases (h : b.edit? o = some e) : (∀ t ∈ e.push, t.number? = none)
    ∧ (e.revised = none ∨ ∃ l, b.getLast? = some (.literal l) ∧ e.revised = some (o.retyped l)) := by
  -- Digits and points differ only in what they type into the literal.
  have htyped {type : Literal → Option Literal} (htype : b.typeEdit type = some e)
      (ho : ∀ l l', type l = some l' → o.retyped l = l') : (∀ t ∈ e.push, t.number? = none)
      ∧ (e.revised = none ∨ ∃ l, b.getLast? = some (.literal l) ∧ e.revised = some (o.retyped l)) := by
    rcases typeEdit_cases htype with ⟨l, l', hlast, hl', rfl⟩ | ⟨l, rfl | rfl⟩
    · exact ⟨List.forall_mem_nil _, .inr ⟨l, hlast, congrArg some (ho l l' hl').symm⟩⟩
    · exact ⟨by simp [Edit.pushing, Token.number?], .inl rfl⟩
    · exact ⟨by simp [Edit.pushing, Token.symbol, Token.number?], .inl rfl⟩
  -- Of the others, only setting an exponent and deleting revise a literal.
  cases o with
  | press n =>
    simp only [edit?, pressEdit] at h
    cases hkey : Key.ofCode? n with
    | none =>
      rw [hkey] at h
      cases h
    | some k =>
      rw [hkey] at h
      cases k with
      | digit d => exact htyped h fun l l' hl => by simp only [Operation.retyped, hkey, hl, Option.getD_some]
      | point => exact htyped h fun l l' hl => by simp only [Operation.retyped, hkey, hl, Option.getD_some]
      | symbol s =>
        obtain ⟨n, rfl⟩ := symbolEdit_cases h
        exact ⟨by simp [Token.symbol, Token.number?], .inl rfl⟩
  | setExponent x =>
    simp only [edit?, exponentEdit] at h
    split at h
    · next l hlast =>
      cases h
      exact ⟨List.forall_mem_nil _, .inr ⟨l, hlast, rfl⟩⟩
    · cases h
  | delete =>
    simp only [edit?, deleteEdit] at h
    split at h
    · next l hlast =>
      cases h
      exact ⟨List.forall_mem_nil _, .inr ⟨l, hlast, rfl⟩⟩
    · cases h
      exact ⟨List.forall_mem_nil _, .inl rfl⟩
  | stripAdditive =>
    cases h
    exact ⟨List.forall_mem_nil _, .inl rfl⟩
  | clear =>
    cases h
    exact ⟨List.forall_mem_nil _, .inl rfl⟩

/-- An operation that does not revise the literal at the end makes no other literal of it. -/
theorem retyped_eq_self (hlast : b.getLast? = some (.literal l))
    (h : (b.edit? o).bind Edit.revised = none) : o.retyped l = l := by
  -- A key that is rejected leaves the literal, and one that is not revises it.
  have htyped {type : Literal → Option Literal}
      (htype : (b.typeEdit type).bind Edit.revised = none) : (type l).getD l = l := by
    rw [typeEdit_of_getLast? hlast] at htype
    cases hl : type l with
    | none => rfl
    | some l' =>
      rw [hl] at htype
      cases htype
  cases o with
  | press n =>
    simp only [edit?, pressEdit] at h
    simp only [Operation.retyped]
    cases hkey : Key.ofCode? n with
    | none => rfl
    | some k =>
      rw [hkey] at h
      cases k with
      | digit d => exact htyped h
      | point => exact htyped h
      | symbol s => rfl
  | setExponent x =>
    simp only [edit?, exponentEdit, hlast] at h
    cases h
  | delete =>
    simp only [edit?, deleteEdit, hlast] at h
    cases h
  | stripAdditive => rfl
  | clear => rfl

end Buffer

end Reckoner
