import Reckoner.Proofs.Buffer.Operation
import Reckoner.Proofs.Outcome
import Reckoner.Session

/-!
# Runs of a session

What can be done with a session, as data: `Command` has one constructor for each operation, and
`Session.after` is the session after it, whether the operation succeeded or not. A `Run` is the sequence
of sessions that commands lead through, the latest first. Which commands are allowed may depend on the
run so far.

- `evaluate_frame`, `after_press` and their companions, `result_of_evaluate_ok` and `of_restoreWithin_ok` say
  what an operation leaves alone and what it returns;
- `resultEffect_after` sums up what operations do to the result of a session.
-/

namespace Reckoner

/-! ## §1 Commands and runs -/

/-- An operation on a session. -/
inductive Command where
  | press (n : Int)
  | setExponent (e : Int)
  | delete
  | clear
  | paste (b : Buffer)
  | setDegrees (degrees : Bool)
  | evaluate
  | collapse
  | updateMemory (change : Session.MemoryChange)
  | recallMemory
  | clearMemory
  | restore (room : Nat) (bytes : Codec.Bytes)

namespace Session

/-- The session after an operation. One that fails leaves the session as it has become by then; bytes
that cannot be restored leave it alone. -/
def after (s : Session) : Command → Session
  | .press n =>
    match s.press n with
    | .ok (_, s') => s'
    | .error _ => s
  | .setExponent e => (s.setExponent e).2
  | .delete => s.delete
  | .clear => s.clear
  | .paste b => s.paste b
  | .setDegrees degrees => s.setDegrees degrees
  | .evaluate => s.evaluate.2
  | .collapse => s.collapse.2
  | .updateMemory change => (s.updateMemory change).2
  | .recallMemory => s.recall.2
  | .clearMemory => s.clearMemory
  | .restore room bytes =>
    match restoreWithin room bytes s.next with
    | .ok s' => s'
    | .error _ => s

/-- The sessions that allowed commands lead through, the latest first. -/
inductive Run (start : Session → Prop) (allowed : List Session → Command → Prop) :
    List Session → Prop where
  | start {s : Session} (h : start s) : Run start allowed [s]
  | step {s : Session} {past : List Session} {c : Command} :
      Run start allowed (s :: past) → allowed (s :: past) c →
      Run start allowed (s.after c :: s :: past)

/-- Restoring reads the mode, the expression and the memory, which is one stored result if it is there.
The session has no result yet, and numbers the next stored result behind those that were read. -/
theorem of_restoreWithin_ok {room next : Nat} {bytes : Codec.Bytes} {s' : Session}
    (h : restoreWithin room bytes next = .ok s') : ∃ p₁ p₂ p₃ : Codec.Progress,
    Codec.Progress.read ⟨bytes, .empty, next⟩ Codec.readBool = .ok (s'.degrees, p₁)
    ∧ Codec.readNested room p₁ = .ok (s'.expr, p₂) ∧ readMemory room p₂ = .ok (s'.memory, p₃)
    ∧ s'.memory.all isMemory = true ∧ s'.result = none ∧ s'.resultText = none
    ∧ s'.next = p₃.next := by
  simp only [restoreWithin, bind_ok_iff] at h
  obtain ⟨⟨degrees, p₁⟩, hdegrees, ⟨expr, p₂⟩, hexpr, ⟨memory, p₃⟩, hmemory, h⟩ := h
  -- What is restored as memory has to be one stored result, and no bytes may be left behind it.
  split at h
  · cases h
  · next hall =>
    split at h
    · cases h
    · cases h
      exact ⟨p₁, p₂, p₃, hdegrees, hexpr, hmemory, by simpa using hall, rfl, rfl, rfl⟩

/-! ## §2 What operations return -/

/-- Keeping a result changes nothing else, even when its text cannot be kept. -/
theorem keepResult_frame (s : Session) (x : Quantity) :
    ∃ text, (s.keepResult x).2 = { s with result := some x, resultText := text } := by
  unfold keepResult
  cases shortTextOf x with
  | error e => exact ⟨_, rfl⟩
  | ok text =>
    refine ⟨some text, ?_⟩
    -- The result is logged with the expression, which may fail after it has been kept.
    cases hdescribe : s.expr.describe with
    | ok _ => simp only [hdescribe]
    | error e => simp only [hdescribe]

/-- Evaluation changes nothing but the result. -/
theorem evaluate_frame (s : Session) :
    ∃ q text, s.evaluate.2 = { s with result := q, resultText := text } := by
  unfold Session.evaluate
  -- A result that is there is returned, and else the expression is evaluated.
  split
  · exact ⟨s.result, s.resultText, rfl⟩
  · split
    · next x _ =>
      obtain ⟨text, htext⟩ := s.keepResult_frame x.quantity
      exact ⟨some x.quantity, text, htext⟩
    · exact ⟨s.result, s.resultText, rfl⟩

/-- A key changes the expression as it does a buffer, and neither memory nor numbers. -/
theorem after_press (s : Session) (n : Int) : (s.after (.press n)).expr = s.expr.perform (.press n)
    ∧ (s.after (.press n)).memory = s.memory ∧ (s.after (.press n)).next = s.next := by
  simp only [after, Session.press, Buffer.perform, Buffer.press]
  cases s.expr.pressEdit n with
  | error e => exact ⟨rfl, rfl, rfl⟩
  | ok e => cases e <;> exact ⟨rfl, rfl, rfl⟩

/-- An exponent changes the expression as it does a buffer, and neither memory nor numbers. -/
theorem after_setExponent (s : Session) (e : Int) :
    (s.after (.setExponent e)).expr = s.expr.perform (.setExponent e)
    ∧ (s.after (.setExponent e)).memory = s.memory ∧ (s.after (.setExponent e)).next = s.next := by
  simp only [after, Session.setExponent, Buffer.perform, Buffer.setExponent]
  cases s.expr.exponentEdit e <;> exact ⟨rfl, rfl, rfl⟩

/-- Choosing the angle mode leaves everything alone but the mode and the result. -/
theorem after_setDegrees (s : Session) (degrees : Bool) :
    (s.after (.setDegrees degrees)).expr = s.expr
    ∧ (s.after (.setDegrees degrees)).memory = s.memory
    ∧ (s.after (.setDegrees degrees)).next = s.next := by
  simp only [after, Session.setDegrees]
  split
  · exact ⟨rfl, rfl, rfl⟩
  · split <;> exact ⟨rfl, rfl, rfl⟩

/-- The session that is restored takes the place of the one there is. -/
theorem after_restore (s : Session) (room : Nat) (bytes : Codec.Bytes) :
    s.after (.restore room bytes) = (restoreWithin room bytes s.next).toOption.getD s := by
  simp only [after]
  cases restoreWithin room bytes s.next <;> rfl

/-- If a result and its text can be kept, it is the result that is returned. -/
theorem value_of_keepResult_ok {s : Session} {x q : Quantity} (h : (s.keepResult x).1 = .ok q) :
    x = q := by
  unfold keepResult at h
  cases htext : shortTextOf x with
  | error e =>
    simp only [htext] at h
    cases h
  | ok text =>
    simp only [htext] at h
    cases hdescribe : s.expr.describe with
    | ok _ =>
      simp only [hdescribe] at h
      exact Except.ok.inj h
    | error e =>
      simp only [hdescribe] at h
      cases h

/-- What evaluation returns is the result of the session after it. -/
theorem result_of_evaluate_ok {s : Session} {q : Quantity} (h : s.evaluate.1 = .ok q) :
    s.evaluate.2.result = some q := by
  unfold Session.evaluate at h ⊢
  cases hresult : s.result with
  | some x =>
    simp only [hresult] at h ⊢
    cases h
    rfl
  | none =>
    simp only [hresult] at h ⊢
    cases heval : s.expr.evaluate s.degrees with
    | error e =>
      simp only [heval] at h
      cases h
    | ok x =>
      simp only [heval] at h ⊢
      obtain ⟨text, htext⟩ := s.keepResult_frame x.quantity
      rw [htext]
      -- The result is kept before its text is made, but nothing is returned if that fails.
      obtain rfl : x.quantity = q := value_of_keepResult_ok h
      rfl

/-- Making the stored result of the expression leaves the result as evaluation does. -/
theorem abbreviated_result (s : Session) : s.abbreviated.2.result = s.evaluate.2.result
    ∧ s.abbreviated.2.resultText = s.evaluate.2.resultText := by
  unfold Session.abbreviated
  generalize s.evaluate = p
  obtain ⟨_ | q, s'⟩ := p
  · exact ⟨rfl, rfl⟩
  · exact ⟨rfl, rfl⟩

/-! ## §3 What operations do to the result -/

/-- The result and its text after an operation: forgotten, kept, or as evaluation leaves them. -/
inductive ResultEffect (s s' : Session) : Prop where
  | forgotten (h : s'.result = none) (htext : s'.resultText = none)
  | kept (h : s'.result = s.result) (htext : s'.resultText = s.resultText)
  | evaluated (h : s'.result = s.evaluate.2.result) (htext : s'.resultText = s.evaluate.2.resultText)

namespace ResultEffect

theorem refl (s : Session) : ResultEffect s s :=
  .kept rfl rfl

theorem withExpr (s : Session) (b : Buffer) : ResultEffect s (s.withExpr b) :=
  .forgotten rfl rfl

/-- A key that is accepted makes the result be forgotten. -/
theorem press (s : Session) (n : Int) : ResultEffect s (s.after (.press n)) := by
  simp only [after, Session.press]
  cases s.expr.press n with
  | error e => exact refl s
  | ok p =>
    obtain ⟨_ | _, b⟩ := p
    · exact refl s
    · exact withExpr s b

theorem setExponent (s : Session) (e : Int) : ResultEffect s (s.setExponent e).2 := by
  unfold Session.setExponent
  split
  · exact withExpr s _
  · exact refl s

/-- Choosing the angle mode forgets the result or keeps it. -/
theorem setDegrees (s : Session) (degrees : Bool) : ResultEffect s (s.setDegrees degrees) := by
  unfold Session.setDegrees
  split
  · exact refl s
  · dsimp only
    split
    · exact .forgotten rfl rfl
    · exact .kept rfl rfl

/-- Collapsing leaves the result as evaluation does, also where it fails. -/
theorem collapse (s : Session) : ResultEffect s s.collapse.2 := by
  obtain ⟨hresult, htext⟩ := abbreviated_result s
  unfold Session.collapse
  generalize s.abbreviated = p at hresult htext ⊢
  obtain ⟨_ | t, s'⟩ := p
  · exact .evaluated hresult htext
  · exact .evaluated hresult htext

/-- Memory is updated with the result, so it is evaluated, also where the update fails. -/
theorem updateMemory (s : Session) (change : MemoryChange) :
    ResultEffect s (s.updateMemory change).2 := by
  obtain ⟨hresult, htext⟩ := abbreviated_result s
  unfold Session.updateMemory
  generalize s.abbreviated = p at hresult htext ⊢
  obtain ⟨_ | t, s'⟩ := p
  · exact .evaluated hresult htext
  · dsimp only
    split
    · exact .evaluated hresult htext
    · split
      · exact .evaluated hresult htext
      · exact .evaluated hresult htext

/-- Recalling memory is pasting, if there is anything in it. -/
theorem recallMemory (s : Session) : ResultEffect s s.recall.2 := by
  unfold Session.recall
  split
  · exact refl s
  · exact withExpr s _

end ResultEffect

/-- No operation does anything else to the result. -/
theorem resultEffect_after (s : Session) (c : Command) : ResultEffect s (s.after c) := by
  cases c with
  | press n => exact .press s n
  | setExponent e => exact .setExponent s e
  | delete => exact .withExpr s _
  | clear => exact .withExpr s _
  | paste b => exact .withExpr s _
  | setDegrees degrees => exact .setDegrees s degrees
  | evaluate => exact .evaluated rfl rfl
  | collapse => exact .collapse s
  | updateMemory change => exact .updateMemory s change
  | recallMemory => exact .recallMemory s
  | clearMemory => exact .kept rfl rfl
  -- A session that is restored has no result yet; if none is, all stays as it is.
  | restore room bytes =>
    simp only [after]
    split
    · next s' hrestore =>
      obtain ⟨-, -, -, -, -, -, -, hresult, htext, -⟩ := of_restoreWithin_ok hrestore
      exact .forgotten hresult htext
    · exact .refl s

end Session

end Reckoner
