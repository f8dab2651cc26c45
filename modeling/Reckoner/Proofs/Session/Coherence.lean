import Reckoner.Proofs.Evaluation.Agreement
import Reckoner.Proofs.Session.Command

/-!
# The result of a session is current

A session keeps the value of its expression until the expression or its angles change. `Current` says
that what it keeps, if anything, is what evaluation would return now.

- one lemma for each operation says that it preserves this, and `current_after` puts them together;
- `result_eq_evaluate` says so of every session that a run leads through.
-/

namespace Reckoner

open Buffer (evaluate_degrees)

/-- A stored result alone evaluates to its value. -/
theorem Buffer.evaluate_stored (n : Nat) (v : Value) (e : Buffer) (s : Scope) (x : Option String)
    (degrees : Bool) : Buffer.evaluate [.stored n v e s x] degrees = .ok (.ofValue v) := rfl

namespace Session

/-- If a session has a result, it is the value of its expression. -/
def Current (s : Session) : Prop :=
  ∀ q, s.result = some q → ∃ x, s.expr.evaluate s.degrees = .ok x ∧ x.quantity = q

variable {s : Session}

theorem current_of_result_eq_none (h : s.result = none) : s.Current := by
  intro q hq
  rw [h] at hq
  cases hq

theorem current_withExpr (s : Session) (b : Buffer) : (s.withExpr b).Current :=
  current_of_result_eq_none rfl

/-! ## §1 Editing -/

/-- A key that is accepted makes the result be forgotten, and one that is not leaves all as it is. -/
theorem Current.press (h : s.Current) (n : Int) : (s.after (.press n)).Current := by
  simp only [after]
  split
  · next s' hpress =>
    unfold Session.press at hpress
    cases hkey : s.expr.press n with
    | error e =>
      rw [hkey] at hpress
      cases hpress
    | ok p =>
      obtain ⟨_ | _, b⟩ := p
      · rw [hkey] at hpress
        cases hpress
        exact h
      · rw [hkey] at hpress
        cases hpress
        exact current_withExpr s b
  -- A key that is not known leaves the session alone.
  · exact h

/-- Setting an exponent forgets the result, or does nothing. -/
theorem Current.setExponent (h : s.Current) (e : Int) : (s.setExponent e).2.Current := by
  unfold Session.setExponent
  split
  · exact current_withExpr s _
  · exact h

/-- Without trigonometric functions the value is the same in both angle modes, so it may be kept. -/
theorem Current.setDegrees (h : s.Current) (degrees : Bool) : (s.setDegrees degrees).Current := by
  unfold Session.setDegrees
  split
  · exact h
  · simp only
    split
    · exact current_of_result_eq_none rfl
    · next htrig =>
      intro q hq
      obtain ⟨x, hx, hxq⟩ := h q hq
      have hmode := evaluate_degrees (Bool.eq_false_iff.mpr htrig) s.degrees degrees
      rw [hx] at hmode
      -- In the other mode the expression evaluates to the same quantity.
      obtain ⟨y, hy, hxy⟩ := hmode.of_ok_left
      exact ⟨y, hy, by rw [← hxy, hxq]⟩

/-! ## §2 Evaluation -/

/-- What evaluation keeps is the value. -/
theorem Current.evaluate (h : s.Current) : s.evaluate.2.Current := by
  unfold Session.evaluate
  split
  · exact h
  · split
    -- The result is kept even where the operation fails in the end.
    · next x hx =>
      obtain ⟨text, htext⟩ := s.keepResult_frame x.quantity
      rw [htext]
      intro q hq
      exact ⟨x, hx, Option.some.inj hq⟩
    · exact h

/-- Making the stored result of the expression evaluates it, and changes nothing else that matters. -/
theorem Current.abbreviated (h : s.Current) : s.abbreviated.2.Current := by
  have heval := h.evaluate
  unfold Session.abbreviated
  generalize s.evaluate = p at heval ⊢
  obtain ⟨_ | q, s'⟩ := p
  · exact heval
  · exact heval

/-- The stored result that stands for the expression has the result of the session as its value. -/
theorem of_abbreviated_ok {t : Token} {s' : Session} (h : s.abbreviated = (.ok t, s')) :
    ∃ q, s.evaluate.1 = .ok q ∧ t = s.evaluate.2.expr.withoutTrailingBinary.abbreviated
        s.evaluate.2.next ⟨q, .result s.evaluate.2.next⟩ s.evaluate.2.degrees
        s.evaluate.2.resultText
      ∧ s' = { s.evaluate.2 with next := s.evaluate.2.next + 1 } := by
  unfold Session.abbreviated at h
  generalize s.evaluate = p at h ⊢
  obtain ⟨_ | q, s₁⟩ := p
  · cases h
  · cases h
    exact ⟨q, rfl, rfl, rfl⟩

/-- Collapsing keeps the result, as the stored result evaluates to it. -/
theorem Current.collapse (h : s.Current) : s.collapse.2.Current := by
  have habbreviated := h.abbreviated
  unfold Session.collapse
  cases hp : s.abbreviated with
  | mk outcome s' =>
    rw [hp] at habbreviated
    cases outcome with
    | error e => exact habbreviated
    | ok t =>
      -- The stored result has the result of the session as its value, which is what it evaluates to.
      obtain ⟨q, hq, rfl, rfl⟩ := of_abbreviated_ok hp
      intro q' hq'
      have hresult := result_of_evaluate_ok hq
      rw [hresult] at hq'
      exact ⟨_, Buffer.evaluate_stored _ _ _ _ _ _, Option.some.inj hq'⟩

/-! ## §3 Memory -/

/-- Memory does not enter the result. -/
theorem Current.updateMemory (h : s.Current) (change : MemoryChange) :
    (s.updateMemory change).2.Current := by
  have habbreviated := h.abbreviated
  unfold Session.updateMemory
  generalize s.abbreviated = p at habbreviated ⊢
  obtain ⟨_ | t, s'⟩ := p
  · exact habbreviated
  · simp only
    split
    · exact habbreviated
    · split
      · exact habbreviated
      · exact habbreviated

/-- Recalling memory pastes, which forgets the result, or does nothing. -/
theorem Current.recallMemory (h : s.Current) : s.recall.2.Current := by
  unfold Session.recall
  split
  · exact h
  · exact current_withExpr s _

/-! ## §4 Runs -/

/-- Every operation preserves that the result is current. -/
theorem current_after (h : s.Current) (c : Command) : (s.after c).Current := by
  cases c with
  | press n => exact h.press n
  | setExponent e => exact h.setExponent e
  | delete => exact current_withExpr s _
  | clear => exact current_withExpr s _
  | paste b => exact current_withExpr s _
  | setDegrees degrees => exact h.setDegrees degrees
  | evaluate => exact h.evaluate
  | collapse => exact h.collapse
  | updateMemory change => exact h.updateMemory change
  | recallMemory => exact h.recallMemory
  | clearMemory => exact h
  | restore room bytes =>
    simp only [after]
    split
    · next s' hrestore =>
      obtain ⟨-, -, -, -, -, -, -, hresult, -⟩ := of_restoreWithin_ok hrestore
      exact current_of_result_eq_none hresult
    · exact h

/-- The result is current all along a run that starts without a result. By induction on the run. -/
theorem current_of_run {start : Session → Prop} {allowed : List Session → Command → Prop}
    (hstart : ∀ s, start s → s.result = none) {past : List Session}
    (h : Run start allowed (s :: past)) : s.Current := by
  generalize hrun : s :: past = run at h
  induction h generalizing s past with
  | start h =>
    cases hrun
    exact current_of_result_eq_none (hstart _ h)
  -- The command may be any, so that it was allowed is of no use.
  | step _ _ ih =>
    cases hrun
    exact current_after (ih rfl) _

/-- Whatever was done with a session, its result is the value of its expression in its angle mode. -/
theorem result_eq_evaluate {past : List Session}
    (h : Run (fun s => s.result = none) (fun _ _ => True) (s :: past)) {q : Quantity}
    (hq : s.result = some q) : ∃ x, s.expr.evaluate s.degrees = .ok x ∧ x.quantity = q :=
  current_of_run (fun _ hs => hs) h q hq

/-- A session whose result was kept when the angle mode changed and the expression was collapsed. -/
def collapsedOne : Session :=
  ((((fresh false).after (.press 1)).after .evaluate).after (.setDegrees true)).after .collapse

/-- The result is kept by the choice of a mode and by collapsing. -/
theorem result_eq_evaluate_collapsedOne : ∃ past,
    Run (fun s => s.result = none) (fun _ _ => True) (collapsedOne :: past)
    ∧ collapsedOne.result = some (.rational 1)
    ∧ ∃ x, collapsedOne.expr.evaluate collapsedOne.degrees = .ok x ∧ x.quantity = .rational 1 := by
  have hrun : Run (fun s => s.result = none) (fun _ _ => True) (collapsedOne :: _) :=
    .step (.step (.step (.step (.start rfl) trivial) trivial) trivial) trivial
  have hresult : collapsedOne.result = some (.rational 1) := rfl
  exact ⟨_, hrun, hresult, result_eq_evaluate hrun hresult⟩

end Session

end Reckoner
