import Reckoner.Proofs.Evaluation.Derivation

/-!
# Progress

Whatever is read takes a token at least, so no loop over factors or summands goes round more often than
there are tokens: with enough fuel, it does not matter how much there is.
-/

namespace Reckoner.Evaluation

open Phrase

/-! ## §1 Tokens -/

section
variable {m : Mode} (hm : m.beyond = false) {room : Nat} {ts us rest : List Token} {x y : Operand}
include hm

/-- Every factor takes a token. -/
theorem length_lt_of_signed (h : signed m (readers m room) ts = .ok (y, rest)) :
    rest.length < ts.length := by
  obtain ⟨u, rfl, -⟩ := of_signed_ok hm (readTrees hm room) h
  have hpositive : 0 < u.tokens.length := List.length_pos_iff.mpr u.tokens_ne_nil
  simp only [List.length_append]
  omega

/-- Every product takes a token. -/
theorem length_lt_of_term (h : term m (readers m room) ts = .ok (y, rest)) :
    rest.length < ts.length := by
  obtain ⟨u, rfl, -⟩ := of_term_ok hm (readTrees hm room) h
  have hpositive : 0 < u.tokens.length := List.length_pos_iff.mpr u.tokens_ne_nil
  simp only [List.length_append]
  omega

/-! ## §2 Fuel -/

omit hm in
/-- Linking a factor takes no tokens back. -/
theorem nextLink_length {link : Link} (h : nextLink ts = some (link, us)) : us.length ≤ ts.length := by
  rcases nextLink_cases ts with ⟨hnone, -⟩ | ⟨joint, vs, rfl, hsome, -⟩
  · rw [hnone] at h
    cases h
  · rw [hsome] at h
    cases h
    rw [List.length_append]
    exact Nat.le_add_left _ _

/-- By induction on the fuel: every factor takes a token, and fuel too. -/
theorem products_fuel {fuel fuel' : Nat} (h : ts.length ≤ fuel) (h' : ts.length ≤ fuel') :
    products m (readers m room) fuel x ts = products m (readers m room) fuel' x ts := by
  induction fuel generalizing fuel' x ts with
  -- Without fuel there are no tokens, and so no factor.
  | zero =>
    obtain rfl := List.length_eq_zero_iff.mp (Nat.le_zero.mp h)
    rw [products_of_not_continues hm rfl, products_of_not_continues hm rfl]
  | succ fuel ih =>
    cases fuel' with
    | zero =>
      obtain rfl := List.length_eq_zero_iff.mp (Nat.le_zero.mp h')
      rw [products_of_not_continues hm rfl, products_of_not_continues hm rfl]
    | succ fuel' =>
      rw [products, products, link_eq hm, ok_bind, ok_bind]
      cases hlink : nextLink ts with
      | none => rfl
      | some p =>
        obtain ⟨link, us⟩ := p
        have hle := nextLink_length hlink
        refine bind_congr_ok fun ⟨y, rest⟩ hsigned => bind_congr_ok fun q _ => ?_
        -- The factor took a token, so both sides have fuel for those that are left.
        have hlt := length_lt_of_signed hm hsigned
        exact ih (show rest.length ≤ fuel by omega) (show rest.length ≤ fuel' by omega)

/-- By induction on the fuel: every summand takes a token, and fuel too. -/
theorem sums_fuel {fuel fuel' : Nat} (h : ts.length ≤ fuel) (h' : ts.length ≤ fuel') :
    sums m (readers m room) fuel x ts = sums m (readers m room) fuel' x ts := by
  induction fuel generalizing fuel' x ts with
  | zero =>
    obtain rfl := List.length_eq_zero_iff.mp (Nat.le_zero.mp h)
    rw [sums_of_not_additive hm rfl, sums_of_not_additive hm rfl]
  | succ fuel ih =>
    cases fuel' with
    | zero =>
      obtain rfl := List.length_eq_zero_iff.mp (Nat.le_zero.mp h')
      rw [sums_of_not_additive hm rfl, sums_of_not_additive hm rfl]
    | succ fuel' =>
      cases hsum : leads Buffer.isAdditive ts with
      | false =>
        rw [sums_of_not_additive hm hsum, sums_of_not_additive hm hsum]
      | true =>
        obtain ⟨subtracted, us, rfl⟩ := of_leads_additive hsum
        rw [List.length_cons] at h h'
        rw [sums_additive hm, sums_additive hm]
        split
        · next hpercentage =>
          obtain ⟨u, vs, rfl⟩ := of_percentageNext hpercentage
          refine bind_congr_ok fun ⟨y, rest⟩ hunary => ?_
          -- A percentage takes two tokens, the number and its percent sign.
          obtain ⟨rfl, -, -⟩ := of_unary_number (readTrees hm room) hunary
          rw [List.length_cons, List.length_cons] at h h'
          exact ih (show vs.length ≤ fuel by omega) (show vs.length ≤ fuel' by omega)
        · refine bind_congr_ok fun ⟨y, rest⟩ hterm => ?_
          -- The term took a token, and the sign in front of it another one.
          have hlt := length_lt_of_term hm hterm
          exact ih (show rest.length ≤ fuel by omega) (show rest.length ≤ fuel' by omega)

end

end Reckoner.Evaluation
