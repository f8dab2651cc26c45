import Reckoner.Proofs.Session.Coherence

/-!
# The angle mode and the result of a session

Choosing the other angle mode does not outdate a result that no angle enters. The session decides this by
the operators of its expression alone, although a stored result carries an expression of its own, which
was evaluated in a mode of its own and may be full of trigonometric functions.

- `setDegrees_frame`: what choosing the mode does to such a session;
- `prefixes_and_result_without_angles`: every prefix of such an expression is read alike in both modes, so
  the result that is kept is the one that evaluation would return.
-/

namespace Reckoner

namespace Session

/-- Without trigonometric functions choosing the angle mode changes nothing else. -/
theorem setDegrees_frame {s : Session} (h : s.expr.hasTrigonometric = false) (degrees : Bool) :
    s.setDegrees degrees = { s with degrees } := by
  unfold Session.setDegrees
  split
  · next hmode => rw [hmode]
  · simp only [h, Bool.false_eq_true, if_false]

/-- In an expression without trigonometric functions, whatever its stored results were computed from, every
prefix is read as far in both angle modes and to the same quantity, or fails with the same error. So a
session with that expression may keep its result and the text of it when the mode is chosen: the result is
what evaluation returns in the new mode, and what the session answers. -/
theorem prefixes_and_result_without_angles {b : Buffer} (h : b.hasTrigonometric = false) :
    (∀ (reach : Int) (degrees degrees' : Bool),
      Corresponds (fun p q => p.1 = q.1 ∧ p.2.quantity = q.2.quantity)
        (b.evaluatePrefix ⟨degrees, reach⟩) (b.evaluatePrefix ⟨degrees', reach⟩))
    ∧ ∀ (s : Session) (past : List Session),
      Run (fun s => s.result = none) (fun _ _ => True) (s :: past) → s.expr = b →
      ∀ degrees, s.setDegrees degrees = { s with degrees }
        ∧ ∀ q, s.result = some q →
          (∃ x, b.evaluate degrees = .ok x ∧ x.quantity = q)
          ∧ (s.setDegrees degrees).evaluate = (.ok q, s.setDegrees degrees) := by
  refine ⟨Buffer.evaluatePrefix_degrees h, ?_⟩
  rintro s past hrun rfl degrees
  have hframe := setDegrees_frame h degrees
  refine ⟨hframe, fun q hq => ?_⟩
  -- What the session keeps is what evaluation returns, before the choice and after it.
  have hcurrent := (current_of_run (fun _ hs => hs) hrun).setDegrees degrees
  rw [hframe] at hcurrent ⊢
  refine ⟨hcurrent q hq, ?_⟩
  unfold Session.evaluate
  simp only [hq]

/-- A session that has evaluated the product of π and a stored result, which came from a sine in degrees. -/
def halfPi : Session :=
  (((((((fresh true).after (.press 50)).after (.press 3)).after (.press 0)).after .collapse).after
    (.press 22)).after (.press 60)).after .evaluate

/-- A sine stands in the stored result only, so the result is kept in radians, too. -/
theorem prefixes_and_result_without_angles_halfPi :
    halfPi.expr.hasTrigonometric = false
    ∧ halfPi.expr.nested.any (Token.has Symbol.isTrigonometric) = true
    ∧ ∃ q, halfPi.result = some q
      ∧ (halfPi.setDegrees false).evaluate = (.ok q, halfPi.setDegrees false) := by
  have htrig : halfPi.expr.hasTrigonometric = false := by decide +kernel
  have hresult : halfPi.result.isSome = true := by decide +kernel
  obtain ⟨q, hq⟩ := Option.isSome_iff_exists.mp hresult
  -- The session is reached by seven commands.
  have hrun : Run (fun s => s.result = none) (fun _ _ => True) (halfPi :: _) :=
    .step (.step (.step (.step (.step (.step (.step (.start rfl) trivial) trivial) trivial)
      trivial) trivial) trivial) trivial
  obtain ⟨-, hkept⟩ := prefixes_and_result_without_angles htrig
  obtain ⟨-, hresults⟩ := hkept halfPi _ hrun rfl false
  exact ⟨htrig, by decide +kernel, q, hq, (hresults q hq).2⟩

end Session

end Reckoner
