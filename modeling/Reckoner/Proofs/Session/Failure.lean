import Reckoner.Proofs.Buffer.Operation
import Reckoner.Proofs.Session.Provenance

/-!
# Operations that fail

An operation that fails, or that is rejected, may have begun to change things before. A key deletes the binary
operators that it replaces, and puts a multiplication sign and an empty literal in place, before it is known
whether it can be typed; and changing memory takes two values and their texts. Here operations are carried out
step by step, so that there is a session after them at every exit.

- `Buffer.pressInPlace` presses a key step by step, and `pressInPlace_eq` says that it comes to what `press`
  says, and that nothing has changed if the key is unknown or rejected;
- `Session.respond` is the outcome of any operation, with the session after it;
- `same_evaluate`, `same_abbreviated`, `same_collapse` and `same_updateMemory` say which exits leave
  expression, memory and angle mode alone, and `respond_failed` puts everything together.
-/

namespace Reckoner

namespace Buffer

/-! ## §1 Deleting operators one by one -/

/-- Deleting drops a binary operator at the end. -/
theorem delete_of_isBinary {front : Buffer} {t : Token} (ht : isBinary t = true) :
    (front ++ [t]).delete = front := by
  cases t with
  -- Deleting an operator takes it away as a whole, and every binary operator is one.
  | operator o =>
    simp only [delete, deleteEdit, List.getLast?_concat, Edit.apply, Edit.keeping, Edit.revise,
      List.append_nil, List.length_append, List.length_singleton, Nat.add_sub_cancel, List.take_left]
  | literal l => cases ht
  | stored n v e s x => cases ht

theorem endsInBinary_concat (front : Buffer) (t : Token) :
    (front ++ [t]).endsInBinary = isBinary t := by
  rw [endsInBinary, List.getLast?_concat, Option.any_some]

/-- Deleting a binary operator makes a buffer shorter. -/
theorem length_delete_lt {b : Buffer} (h : b.endsInBinary = true) : b.delete.length < b.length := by
  cases b using List.reverseRecOn with
  | nil => cases h
  | append_singleton front t ih =>
    rw [endsInBinary_concat] at h
    rw [delete_of_isBinary h, List.length_append]
    exact Nat.lt_succ_self _

/-- Delete from the end as long as there is a binary operator. -/
def dropBinary (b : Buffer) : Buffer :=
  if b.endsInBinary = true then dropBinary b.delete else b
termination_by b.length
decreasing_by
  next h => exact length_delete_lt h

/-- The loop leaves out the binary operators at the end. By induction on the tokens, from the last one. -/
theorem dropBinary_eq (b : Buffer) : b.dropBinary = b.withoutTrailingBinary := by
  rw [withoutTrailingBinary_eq]
  induction b using List.reverseRecOn with
  | nil =>
    rw [dropBinary]
    rfl
  | append_singleton front t ih =>
    rw [dropBinary, endsInBinary_concat]
    -- With a binary operator at the end the loop goes on in front of it, and else it stops.
    by_cases ht : isBinary t = true
    · rw [if_pos ht, delete_of_isBinary ht, ih, List.rdropWhile_concat_pos _ _ _ ht]
    · rw [if_neg ht, List.rdropWhile_concat_neg _ _ _ ht]

/-! ## §2 Keys step by step -/

/-- The tokens in front of the literal that a digit or a point goes to, and that literal: the one at the end,
or a new one. A multiplication sign is put between a stored result and a new literal. -/
def openLiteral (b : Buffer) : Buffer × Literal :=
  match b.getLast? with
  | some (.literal l) => (b.dropLast, l)
  | some (.stored ..) => (b ++ [.symbol .times], .empty)
  | _ => (b, .empty)

/-- Type on a literal behind other tokens, where it stays even if it does not take the key. -/
def typeOn (front : Buffer) (l : Literal) (n : Int) : Except KeyError Bool × Buffer :=
  match l.press n with
  | .ok (taken, l') => (.ok taken, front ++ [.literal l'])
  | .error e => (.error e, front ++ [.literal l])

/-- Whether a key replaces the binary operators before it, so that it needs an operand on their left. -/
def replaces : Key → Bool
  | .symbol s => s.isBinary && !s.isLeading
  | _ => false

/-- Press the key with a number, step by step: whether it was accepted, and what the buffer has become by
then. -/
def pressInPlace (b : Buffer) (n : Int) : Except KeyError Bool × Buffer :=
  -- Whether an operand is there is settled before anything is deleted.
  if (Key.ofCode? n).any replaces && b.lacksOperand then (.ok false, b)
  else
    let b := if (Key.ofCode? n).any replaces then b.dropBinary else b
    match Key.ofCode? n with
    | some (.symbol s) => (.ok true, b ++ [.symbol s])
    | some _ => typeOn b.openLiteral.1 b.openLiteral.2 n
    | none => (.error (.unknownKey n), b)

/-- An outcome with the buffer after it, where nothing has changed unless a key was accepted. -/
def settle (b : Buffer) (accepted? : Option Buffer) : Except KeyError Bool × Buffer :=
  (.ok accepted?.isSome, accepted?.getD b)

/-- A literal at the end is typed on; a new one takes whatever is typed first, so it never stays behind for
nothing. -/
theorem typeOn_openLiteral (b : Buffer) {n : Int} {type : Literal → Option Literal}
    (hpress : ∀ l : Literal, l.press n = .ok ((type l).isSome, (type l).getD l))
    (hempty : (type .empty).isSome = true) :
    typeOn b.openLiteral.1 b.openLiteral.2 n = settle b (b.typed? type) := by
  obtain ⟨first, hfirst⟩ := Option.isSome_iff_exists.mp hempty
  unfold typeOn openLiteral typed? settle
  -- Only a literal that was there can reject the key, and it is then put back as it was.
  cases hlast : b.getLast? with
  | none => simp [hpress, hfirst]
  | some t =>
    cases t with
    | operator o => simp [hpress, hfirst]
    | stored k v e s x => simp [hpress, hfirst]
    | literal l =>
      -- The literal at the end is taken off, and put back with or without the key.
      obtain ⟨front, rfl⟩ := List.getLast?_eq_some_iff.mp hlast
      cases htype : type l with
      | none => simp [hpress, htype]
      | some l' => simp [hpress, htype]

/-- An accepted key does step by step what it does at once, and a rejected one has done nothing. -/
theorem pressInPlace_of_key (b : Buffer) {n : Int} {k : Key} (hkey : Key.ofCode? n = some k) :
    b.pressInPlace n = settle b (b.pressed? k) := by
  simp only [pressInPlace, hkey, Option.any_some]
  cases k with
  -- A new literal takes any digit, as it is empty.
  | digit d =>
    rw [pressed?_digit]
    exact typeOn_openLiteral b (fun l => by simp only [Literal.press, hkey]) rfl
  -- A new literal takes a point, as it has none.
  | point =>
    rw [pressed?_point]
    exact typeOn_openLiteral b (fun l => by simp only [Literal.press, hkey]) rfl
  | symbol s =>
    rw [pressed?_symbol, operated?, replaces, dropBinary_eq]
    -- Nothing can go wrong any more once operators are deleted.
    cases s.isBinary && !s.isLeading with
    | false => rfl
    | true => cases b.lacksOperand <;> rfl

/-- A key comes to the same step by step, and if it is unknown, the buffer is as it was. -/
theorem pressInPlace_eq (b : Buffer) (n : Int) : b.pressInPlace n = match b.press n with
    | .ok (accepted, c) => (.ok accepted, c)
    | .error e => (.error e, b) := by
  rw [press_eq]
  cases hkey : Key.ofCode? n with
  | none => simp [pressInPlace, hkey]
  | some k =>
    rw [pressInPlace_of_key b hkey]
    dsimp only
    cases b.pressed? k <;> rfl

end Buffer

/-! ## §3 Sessions step by step -/

/-- Why an operation on a session fails. -/
inductive CommandError where
  | key (e : KeyError)
  | evaluation (e : EvaluationError)
  | load (e : Codec.LoadError)

namespace Session

variable {s s₁ : Session} {t : Token}

/-- Press the key with a number. The result is forgotten once the key is accepted. -/
def pressInPlace (s : Session) (n : Int) : Except KeyError Bool × Session :=
  match s.expr.pressInPlace n with
  | (.ok true, b) => (.ok true, s.withExpr b)
  | (outcome, b) => (outcome, { s with expr := b })

/-- A key in a session comes to the same step by step. -/
theorem pressInPlace_eq (s : Session) (n : Int) : s.pressInPlace n = match s.press n with
    | .ok (accepted, s') => (.ok accepted, s')
    | .error e => (.error e, s) := by
  unfold pressInPlace Session.press
  rw [Buffer.pressInPlace_eq, Buffer.press_eq]
  cases Key.ofCode? n with
  | none => rfl
  | some k =>
    dsimp only
    cases s.expr.pressed? k <;> rfl

/-- Whether evaluating succeeds, as the outcome of an operation. It is never rejected. -/
def evaluating {α : Type} : Evaluated α × Session → Except CommandError Bool × Session
  | (.ok _, s) => (.ok true, s)
  | (.error e, s) => (.error (.evaluation e), s)

/-- Whether an operation is accepted, or why it fails, and the session after it. Only keys, exponents and
recalling memory can be rejected. -/
def respond (s : Session) : Command → Except CommandError Bool × Session
  | .press n => ((s.pressInPlace n).1.mapError .key, (s.pressInPlace n).2)
  | .setExponent e => (.ok (s.setExponent e).1, (s.setExponent e).2)
  | .delete => (.ok true, s.delete)
  | .clear => (.ok true, s.clear)
  | .paste b => (.ok true, s.paste b)
  | .setDegrees degrees => (.ok true, s.setDegrees degrees)
  | .evaluate => evaluating s.evaluate
  | .collapse => evaluating s.collapse
  | .updateMemory change => evaluating (s.updateMemory change)
  | .recallMemory => (.ok s.recall.1, s.recall.2)
  | .clearMemory => (.ok true, s.clearMemory)
  | .restore room bytes =>
    match restoreWithin room bytes s.next with
    | .ok s' => (.ok true, s')
    | .error e => (.error (.load e), s)

section

variable {α : Type} {p : Evaluated α × Session}

theorem evaluating_snd (p : Evaluated α × Session) : (evaluating p).2 = p.2 := by
  obtain ⟨_ | _, s⟩ := p <;> rfl

theorem evaluating_ne_rejected : (evaluating p).1 ≠ .ok false := by
  obtain ⟨_ | _, s⟩ := p <;> exact nofun

/-- An operation fails in evaluating because an evaluation does. -/
theorem exists_error_of_evaluating {e : CommandError} (h : (evaluating p).1 = .error e) :
    ∃ e', p.1 = .error e' := by
  obtain ⟨e' | _, s⟩ := p
  · exact ⟨e', rfl⟩
  · cases h

end

/-- The session after an operation is the one that runs lead to. -/
theorem respond_snd (s : Session) (c : Command) : (s.respond c).2 = s.after c := by
  cases c with
  | press n =>
    simp only [respond, after, pressInPlace_eq]
    cases s.press n <;> rfl
  | restore room bytes =>
    simp only [respond, after]
    cases restoreWithin room bytes s.next <;> rfl
  | evaluate => exact evaluating_snd _
  | collapse => exact evaluating_snd _
  | updateMemory change => exact evaluating_snd _
  | _ => rfl

/-! ## §4 What failing leaves alone -/

/-- Two sessions with the same expression, memory and angle mode. -/
structure Same (s s' : Session) : Prop where
  expr : s'.expr = s.expr
  memory : s'.memory = s.memory
  degrees : s'.degrees = s.degrees

theorem Same.refl (s : Session) : Same s s :=
  ⟨rfl, rfl, rfl⟩

/-- Evaluating changes none of this at any exit, even when the value or its text is kept. -/
theorem same_evaluate (s : Session) : Same s s.evaluate.2 := by
  obtain ⟨q, text, hframe⟩ := s.evaluate_frame
  rw [hframe]
  exact ⟨rfl, rfl, rfl⟩

/-- Making the stored result of the expression changes the result and the numbers only. -/
theorem same_abbreviated (s : Session) : Same s s.abbreviated.2 := by
  cases habbreviated : s.abbreviated with
  | mk outcome s₁ =>
    cases outcome with
    | error e =>
      obtain rfl := snd_abbreviated_of_error habbreviated
      exact same_evaluate s
    | ok t =>
      obtain ⟨hexpr, hmemory, hdegrees, -⟩ := abbreviated_frame habbreviated
      exact ⟨hexpr, hmemory, hdegrees⟩

/-- The expression is replaced last. -/
theorem same_collapse {e : EvaluationError} (h : s.collapse.1 = .error e) : Same s s.collapse.2 := by
  have hsame := same_abbreviated s
  unfold Session.collapse at h ⊢
  generalize s.abbreviated = p at h hsame ⊢
  obtain ⟨_ | t, s₁⟩ := p
  · exact hsame
  -- Nothing fails once there is a stored result.
  · cases h

/-- Memory is replaced last, after the value of the expression and then the combination with memory were
worked out. -/
theorem same_updateMemory {change : MemoryChange} {e : EvaluationError}
    (h : (s.updateMemory change).1 = .error e) : Same s (s.updateMemory change).2 := by
  have hsame := same_abbreviated s
  unfold Session.updateMemory at h ⊢
  generalize s.abbreviated = p at h hsame ⊢
  obtain ⟨_ | t, s₁⟩ := p
  · exact hsame
  -- So far only the result may have changed. What is left is the combination with memory, if there is one.
  · dsimp only at h hsame ⊢
    split at h
    · cases h
    · next hcombines =>
      rw [if_neg hcombines]
      cases hcombined : s₁.combined change t with
      | error e => exact hsame
      | ok u =>
        rw [hcombined] at h
        cases h

/-- A key that fails or is rejected changes nothing. -/
theorem pressInPlace_snd_eq {n : Int} (h : (s.pressInPlace n).1 ≠ .ok true) :
    (s.pressInPlace n).2 = s := by
  rw [pressInPlace_eq] at h ⊢
  unfold Session.press at h ⊢
  generalize s.expr.press n = outcome at h ⊢
  obtain e | ⟨_ | _, b⟩ := outcome
  · rfl
  · rfl
  -- An accepted key is excluded.
  · exact absurd rfl h

/-- An exponent that is rejected changes nothing. -/
theorem setExponent_snd_eq {e : Int} (h : (s.setExponent e).1 = false) : (s.setExponent e).2 = s := by
  unfold Session.setExponent at h ⊢
  generalize s.expr.setExponent e = p at h ⊢
  obtain ⟨_ | _, b⟩ := p
  · rfl
  · cases h

/-- Recalling memory that is empty changes nothing. -/
theorem recall_snd_eq (h : s.recall.1 = false) : s.recall.2 = s := by
  unfold Session.recall at h ⊢
  generalize s.memory = m at h ⊢
  cases m with
  | none => rfl
  | some b => cases h

/-- What fails leaves the expression, memory and the angle mode alone. -/
theorem same_respond_of_error {c : Command} {e : CommandError} (h : (s.respond c).1 = .error e) :
    Same s (s.respond c).2 := by
  cases c with
  -- A key that fails is not accepted.
  | press n =>
    have hsnd : (s.pressInPlace n).2 = s := pressInPlace_snd_eq fun htrue => by
      simp only [respond, htrue] at h
      cases h
    rw [respond, hsnd]
    exact .refl s
  | evaluate =>
    rw [respond, evaluating_snd]
    exact same_evaluate s
  | collapse =>
    obtain ⟨e', he⟩ := exists_error_of_evaluating h
    rw [respond, evaluating_snd]
    exact same_collapse he
  | updateMemory change =>
    obtain ⟨e', he⟩ := exists_error_of_evaluating h
    rw [respond, evaluating_snd]
    exact same_updateMemory he
  | restore room bytes =>
    simp only [respond] at h ⊢
    generalize restoreWithin room bytes s.next = restored at h ⊢
    cases restored with
    | ok s' => cases h
    | error e => exact .refl s
  | _ => cases h

/-- What is rejected leaves everything alone. -/
theorem respond_of_rejected {c : Command} (h : (s.respond c).1 = .ok false) : (s.respond c).2 = s := by
  cases c with
  | press n =>
    refine pressInPlace_snd_eq fun htrue => ?_
    simp only [respond, htrue] at h
    cases h
  | setExponent e => exact setExponent_snd_eq (Except.ok.inj h)
  | recallMemory => exact recall_snd_eq (Except.ok.inj h)
  -- Evaluations are not rejected.
  | evaluate => exact absurd h evaluating_ne_rejected
  | collapse => exact absurd h evaluating_ne_rejected
  | updateMemory change => exact absurd h evaluating_ne_rejected
  | restore room bytes =>
    simp only [respond] at h
    generalize restoreWithin room bytes s.next = restored at h
    cases restored <;> cases h
  | _ => cases h

/-- Keys come to the same step by step, and so do all operations. One that fails leaves the expression, memory
and the angle mode alone. One that is rejected leaves everything alone, the result and its text, too. -/
theorem respond_failed (s : Session) (c : Command) :
    (∀ n, s.pressInPlace n = match s.press n with
      | .ok (accepted, s') => (.ok accepted, s')
      | .error e => (.error e, s))
    ∧ (s.respond c).2 = s.after c
    ∧ (∀ e, (s.respond c).1 = .error e →
      (s.respond c).2.expr = s.expr ∧ (s.respond c).2.memory = s.memory
      ∧ (s.respond c).2.degrees = s.degrees)
    ∧ ((s.respond c).1 = .ok false → (s.respond c).2 = s) := by
  refine ⟨pressInPlace_eq s, respond_snd s c, fun e he => ?_, respond_of_rejected⟩
  obtain ⟨hexpr, hmemory, hdegrees⟩ := same_respond_of_error he
  exact ⟨hexpr, hmemory, hdegrees⟩

/-- A session that remembers a seven, in which an open parenthesis waits for more. -/
def openParen : Session :=
  [.press 7, .updateMemory .add, .clear, .press 40].foldl after (fresh false)

theorem respond_failed_openParen :
    (openParen.respond (.updateMemory .subtract)).1
      = .error (.evaluation (.malformed .unexpectedEnd))
    ∧ (openParen.respond (.press 99)).1 = .error (.key (.unknownKey 99))
    ∧ (openParen.respond (.press 20)).1 = .ok false
    ∧ (openParen.respond (.updateMemory .subtract)).2.memory = openParen.memory
    ∧ (openParen.respond (.press 99)).2.expr = [.symbol .leftParen]
    ∧ (openParen.respond (.press 20)).2 = openParen := by
  have hvalue : (openParen.respond (.updateMemory .subtract)).1
      = .error (.evaluation (.malformed .unexpectedEnd)) := rfl
  have hunknown : (openParen.respond (.press 99)).1 = .error (.key (.unknownKey 99)) := rfl
  have hrejected : (openParen.respond (.press 20)).1 = .ok false := rfl
  obtain ⟨-, -, hfailed, -⟩ := respond_failed openParen (.updateMemory .subtract)
  obtain ⟨-, -, hfailedKey, -⟩ := respond_failed openParen (.press 99)
  obtain ⟨-, -, -, hleft⟩ := respond_failed openParen (.press 20)
  obtain ⟨-, hmemory, -⟩ := hfailed _ hvalue
  obtain ⟨hexpr, -, -⟩ := hfailedKey _ hunknown
  exact ⟨hvalue, hunknown, hrejected, hmemory, hexpr.trans rfl, hleft hrejected⟩

end Session

end Reckoner
