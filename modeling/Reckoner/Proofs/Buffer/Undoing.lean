import Mathlib.Data.Nat.Digits.Defs
import Reckoner.Proofs.Buffer.Operation
import Reckoner.Proofs.Typing

/-!
# Undoing keys

Deleting takes back the key that was pressed last: a digit of the exponent, of the fraction or of the whole
part, a point, or an operator. Two kinds of keys do more than one delete takes back. An operator that replaces
others leaves no trace of these, and a number typed behind a stored result brings a multiplication sign along.

- `Literal.delete_addDigit` and `Literal.delete_addPoint`: what a key adds to a literal, deleting removes;
- `delete_pressed?`: one delete after a key that replaces nothing;
- `units` counts how often one has to delete until nothing is left, and `units_delete` and
  `delete_iterate_of_units_le` say that it does;
- `units_pressed?`: no key adds more than one unit, apart from such a sign;
- `delete_undoes_keys` puts these together for the buffers that operations build.
-/

namespace Reckoner

/-! ## §1 Literals -/

namespace Literal

/-- Dropping the last character takes back a digit. -/
theorem dropLastChar_append_digit (s : String) (d : Fin 10) :
    dropLastChar (s ++ toString d.val) = s := by
  have hdigit : (toString d.val).toList = [Char.ofNat (48 + d)] := by
    revert d
    decide
  apply String.toList_inj.mp
  rw [dropLastChar, String.toList_ofList, String.toList_append, hdigit, List.dropLast_concat]

/-- Towards zero, a tenth of an exponent is what it was before its last digit, whatever its sign. -/
theorem tdiv_typed (e : Int) (d : Fin 10) :
    (if 0 < e then 10 * e + (d : Int) else 10 * e - d).tdiv 10 = e := by
  have hd := d.isLt
  split
  · next hpos =>
    rw [Int.tdiv_eq_ediv_of_nonneg (by omega)]
    omega
  · next hneg =>
    -- Division towards zero is that of the absolute value, with the sign put back.
    have hminus : 10 * e - (d : Int) = -(10 * -e + d) := by omega
    rw [hminus, Int.neg_tdiv, Int.tdiv_eq_ediv_of_nonneg (by omega)]
    omega

variable {l l' : Literal}

/-- Deleting removes the digit that was typed last, wherever it went. -/
theorem delete_addDigit (hpoint : l.fraction.isEmpty = false → l.point = true) {d : Fin 10}
    (h : l.addDigit d = some l') : l'.delete = l := by
  obtain ⟨whole, fraction, point, exponent⟩ := l
  unfold addDigit at h
  dsimp only at h hpoint
  -- A digit goes into the exponent if there is one, else behind the point, else into the whole part.
  split at h
  · next hexponent =>
    split at h
    · cases h
    · cases h
      have hdiv := tdiv_typed exponent d
      -- With a digit behind it the exponent is still not zero, so deleting looks at the exponent first.
      have hne : (if 0 < exponent then 10 * exponent + (d : Int) else 10 * exponent - d) ≠ 0 := by
        intro hzero
        rw [hzero, Int.zero_tdiv] at hdiv
        exact hexponent hdiv.symm
      rw [delete, if_pos hne, hdiv]
  · next hexponent =>
    split at h
    · cases h
      have hfraction : (fraction ++ toString d.val).isEmpty = false := append_toString_nonempty _ _
      simp only [delete, hexponent, if_false, hfraction, Bool.not_false, if_true,
        dropLastChar_append_digit]
    · next hnone =>
      cases h
      have hfraction : fraction.isEmpty = true := String.isEmpty_iff.mpr (fraction_eq_empty hpoint hnone)
      simp only [delete, hexponent, if_false, hfraction, Bool.not_true, Bool.false_eq_true, hnone,
        dropLastChar_append_digit]

/-- Deleting removes a point as long as no digit is behind it. -/
theorem delete_addPoint (hpoint : l.fraction.isEmpty = false → l.point = true)
    (h : l.addPoint = some l') : l'.delete = l := by
  obtain ⟨whole, fraction, point, exponent⟩ := l
  unfold addPoint at h
  dsimp only at h hpoint
  split at h
  · cases h
  · next hnone =>
    cases h
    simp only [ne_eq, Bool.or_eq_true, decide_not, Bool.not_eq_true', decide_eq_false_iff_not, not_or,
      Bool.not_eq_true, not_not] at hnone
    -- A point is typed only where there is neither a point nor an exponent.
    obtain ⟨rfl, rfl⟩ := hnone
    obtain rfl := fraction_eq_empty hpoint nofun
    rfl

/-- How often one has to delete until nothing is left of a literal: once for every digit, also of the
exponent, and once for the point. -/
def units (l : Literal) : Nat :=
  l.size + (Nat.digits 10 l.exponent.natAbs).length

theorem length_dropLastChar (s : String) : (dropLastChar s).length = s.length - 1 := by
  rw [dropLastChar, String.length_ofList, List.length_dropLast, String.length_toList]

/-- Deleting takes away one unit. -/
theorem WellFormed.units_delete (h : l.WellFormed) : l.delete.units + 1 = l.units := by
  have hpositive {s : String} (hs : s.isEmpty = false) : 0 < s.length := by
    rw [← String.length_toList, List.length_pos_iff]
    simpa using hs
  unfold delete
  -- Deleting looks at the exponent, the fraction, the point and the whole part in turn.
  split
  · next hexponent =>
    -- A tenth of the exponent has one digit less.
    have hdigits := Nat.digits_def' (b := 10) (by decide) (Int.natAbs_pos.mpr hexponent)
    simp only [units, size, Int.natAbs_tdiv, hdigits, List.length_cons]
    rfl
  · split
    · next hfraction =>
      have := hpositive (s := l.fraction) (by simpa using hfraction)
      simp only [units, size, length_dropLastChar]
      omega
    · split
      · next hpoint =>
        simp only [units, size, hpoint, Bool.toNat_true, Bool.toNat_false]
        omega
      · next hpoint =>
        have hnonempty := h.nonempty
        rw [isEmpty, Bool.eq_false_iff.mpr hpoint] at hnonempty
        have := hpositive (s := l.whole) (by simpa using hnonempty)
        simp only [units, size, length_dropLastChar]
        omega

/-- Once deleting leaves a literal empty, nothing of it is left. -/
theorem WellFormed.delete_eq_empty (h : l.WellFormed) (hempty : l.delete.isEmpty = true) :
    l.delete = .empty := by
  obtain ⟨whole, fraction, point, exponent⟩ := l
  unfold delete at hempty ⊢
  dsimp only at hempty ⊢
  split at hempty
  · exact absurd hempty (Bool.eq_false_iff.mp h.nonempty)
  · next hexponent =>
    obtain rfl : exponent = 0 := not_not.mp hexponent
    rw [if_neg hexponent]
    -- While there is a fraction, the point keeps the literal from being empty.
    split at hempty
    · next hfraction =>
      have hpoint : point = true := h.point (by simpa using hfraction)
      rw [isEmpty, hpoint] at hempty
      cases hempty
    · next hfraction =>
      obtain rfl : fraction = "" := by simpa using hfraction
      rw [if_neg hfraction]
      split at hempty
      · next hpoint =>
        obtain rfl : whole = "" := by simpa [isEmpty] using hempty
        rw [if_pos hpoint]
        rfl
      · next hpoint =>
        obtain rfl : point = false := Bool.eq_false_iff.mpr hpoint
        have hwhole : dropLastChar whole = "" := by simpa [isEmpty] using hempty
        rw [if_neg hpoint, hwhole]
        rfl

end Literal

/-- How often one has to delete until nothing is left of a token. -/
def Token.units : Token → Nat
  | .literal l => l.units
  | _ => 1

/-- The keys that replace the operators which wait for an operand. -/
def Key.isInfix : Key → Bool
  | .symbol s => s.isInfix
  | _ => false

namespace Buffer

/-! ## §2 One key -/

/-- Operators and stored results are deleted as a whole. -/
theorem delete_concat_of_not_isLiteral (front : Buffer) {t : Token} (h : t.isLiteral = false) :
    delete (front ++ [t]) = front := by
  have hedit : deleteEdit (front ++ [t]) = Edit.keeping front.length := by
    cases t with
    | literal l => cases h
    | _ => simp only [deleteEdit, List.getLast?_concat, List.length_append, List.length_singleton,
        Nat.add_sub_cancel]
  rw [delete, hedit, Edit.apply, Edit.keeping, Edit.revise, List.take_left, List.append_nil]

/-- A literal at the end is shortened, and goes once nothing is left of it. -/
theorem delete_concat_literal (front : Buffer) {l : Literal} (h : l.isEmpty = false) :
    delete (front ++ [.literal l])
      = if l.delete.isEmpty then front else front ++ [.literal l.delete] := by
  simp only [delete, deleteEdit, List.getLast?_concat, h, Bool.false_eq_true, if_false, Edit.apply,
    Edit.revise, List.dropLast_concat, List.append_nil, List.length_append, List.length_singleton,
    Nat.add_sub_cancel]
  split
  · exact List.take_left
  · exact List.take_of_length_le (by simp)

/-- The sign by which a number that is typed behind a stored result multiplies it. -/
def multiplier (b : Buffer) : Buffer :=
  match b.getLast? with
  | some (.stored ..) => [.symbol .times]
  | _ => []

/-- What deleting a key leaves behind. -/
def remnant (b : Buffer) : Key → Buffer
  | .symbol _ => []
  | .digit _ | .point => b.multiplier

variable {b c : Buffer} {k : Key}

/-- What keys alone have built holds no stored result, so no sign is left behind. -/
theorem remnant_of_plain (h : ∀ t ∈ b, t.Plain) (k : Key) : b.remnant k = [] := by
  have hmultiplier : b.multiplier = [] := by
    unfold multiplier
    split
    · next hlast => cases (h _ (List.mem_of_getLast? hlast)).1
    · rfl
  cases k with
  | symbol s => rfl
  | digit d => exact hmultiplier
  | point => exact hmultiplier

/-- Deleting takes back what was typed into the literal at the end, or into a new one. -/
theorem delete_typed? (hb : b.Typable) {type : Literal → Option Literal}
    (htype : ∀ l l', l = .empty ∨ l.WellFormed → type l = some l' → l'.WellFormed ∧ l'.delete = l)
    (h : b.typed? type = some c) : c.delete = b ++ b.multiplier := by
  -- A literal that begins with the key is deleted with it.
  have hnew {front : Buffer} {l : Literal} (hl : type .empty = some l) :
      delete (front ++ [.literal l]) = front := by
    obtain ⟨hwellFormed, hdelete⟩ := htype _ _ (.inl rfl) hl
    rw [delete_concat_literal front hwellFormed.nonempty, hdelete]
    rfl
  unfold typed? at h
  unfold multiplier
  -- The key revised a literal, or began one behind a stored result, or began one elsewhere.
  split at h
  · next l hlast =>
    obtain ⟨l', hl', rfl⟩ := Option.map_eq_some_iff.mp h
    obtain ⟨front, rfl⟩ := List.getLast?_eq_some_iff.mp hlast
    have hl := hb l (List.mem_of_getLast? hlast)
    obtain ⟨hwellFormed, hdelete⟩ := htype _ _ (.inr hl) hl'
    rw [List.dropLast_concat, delete_concat_literal front hwellFormed.nonempty, hdelete, hl.nonempty, hlast]
    exact (List.append_nil _).symm
  · next hlast =>
    obtain ⟨l, hl, rfl⟩ := Option.map_eq_some_iff.mp h
    rw [List.append_cons, hnew hl, hlast]
  · next hliteral hstored =>
    obtain ⟨l, hl, rfl⟩ := Option.map_eq_some_iff.mp h
    rw [hnew hl]
    split
    · next hlast => exact absurd hlast (hstored _ _ _ _ _)
    · exact (List.append_nil b).symm

/-- Deleting takes back a key that replaces nothing. -/
theorem delete_pressed? (hb : b.Typable) (hk : k.isInfix = false) (h : b.pressed? k = some c) :
    c.delete = b ++ b.remnant k := by
  -- Either way there are fraction digits only behind a point, which is all that deleting needs.
  have hpoint {l : Literal} (hl : l = .empty ∨ l.WellFormed) :
      l.fraction.isEmpty = false → l.point = true := by
    rcases hl with rfl | hl
    · exact nofun
    · exact hl.point
  cases k with
  | digit d =>
    rw [pressed?_digit] at h
    exact delete_typed? hb (fun l l' hl hl' =>
      ⟨Literal.addDigit_wellFormed hl hl', Literal.delete_addDigit (hpoint hl) hl'⟩) h
  | point =>
    rw [pressed?_point] at h
    exact delete_typed? hb (fun l l' hl hl' =>
      ⟨Literal.addPoint_wellFormed hl hl', Literal.delete_addPoint (hpoint hl) hl'⟩) h
  | symbol s =>
    have hs : s.isInfix = false := hk
    rw [pressed?_symbol, operated?, ← Symbol.isInfix_eq, hs] at h
    cases h
    rw [remnant, List.append_nil, delete_concat_of_not_isLiteral b rfl]

/-! ## §3 Units -/

/-- How often one has to delete until nothing is left of a buffer. -/
def units (b : Buffer) : Nat :=
  (b.map Token.units).sum

theorem units_append (b c : Buffer) : units (b ++ c) = b.units + c.units := by
  rw [units, List.map_append, List.sum_append]
  rfl

theorem Typable.delete (hb : b.Typable) : b.delete.Typable :=
  (grown_delete hb).typable hb

/-- Something is left until a buffer is empty. -/
theorem units_pos (hb : b.Typable) (hne : b ≠ []) : 0 < b.units := by
  obtain ⟨t, b, rfl⟩ := List.exists_cons_of_ne_nil hne
  have ht : 0 < t.units := by
    -- Every token counts, a literal because deleting takes one unit away from it.
    cases t with
    | literal l =>
      have hl : l.WellFormed := hb l List.mem_cons_self
      exact Nat.lt_of_lt_of_eq (Nat.succ_pos _) hl.units_delete
    | operator o => exact Nat.one_pos
    | stored n v e s x => exact Nat.one_pos
  rw [units, List.map_cons, List.sum_cons]
  omega

/-- Deleting takes away one unit. -/
theorem units_delete (hb : b.Typable) : b.delete.units = b.units - 1 := by
  -- Only the last token matters: a literal loses one unit, any other token is one.
  rcases List.eq_nil_or_concat b with rfl | ⟨front, t, rfl⟩
  · rfl
  · rw [List.concat_eq_append] at hb ⊢
    rw [units_append]
    cases t with
    | literal l =>
      have hl : l.WellFormed := hb l (by simp)
      have hunits : units [Token.literal l] = l.delete.units + 1 := by
        rw [hl.units_delete]
        rfl
      rw [delete_concat_literal front hl.nonempty, hunits]
      split
      · next hempty =>
        rw [hl.delete_eq_empty hempty]
        rfl
      · rw [units_append]
        rfl
    | operator o =>
      rw [delete_concat_of_not_isLiteral front rfl]
      rfl
    | stored n v e s x =>
      rw [delete_concat_of_not_isLiteral front rfl]
      rfl

/-- Deleting often enough leaves nothing. By induction on how often. -/
theorem delete_iterate_of_units_le {n : Nat} (hb : b.Typable) (h : b.units ≤ n) : delete^[n] b = [] := by
  induction n generalizing b with
  | zero =>
    by_contra hne
    exact absurd (units_pos hb hne) (by omega)
  | succ n ih =>
    rw [Function.iterate_succ_apply]
    refine ih hb.delete ?_
    rw [units_delete hb]
    omega

/-- A key that is accepted is pressed. -/
theorem pressed?_of_press (h : b.press k.code = .ok (true, c)) : b.pressed? k = some c := by
  simp only [press_eq, Key.ofCode?_code] at h
  cases hpressed : b.pressed? k with
  | none =>
    rw [hpressed] at h
    cases h
  | some d =>
    rw [hpressed] at h
    cases h
    rfl

theorem grown_pressed? (hb : b.Typable) (h : b.pressed? k = some c) : Grown b c := by
  have hpress : b.press k.code = .ok (true, c) := by simp only [press_eq, Key.ofCode?_code, h]
  exact grown_press hb hpress

/-- A key adds one unit at most, apart from the sign behind a stored result. -/
theorem units_pressed? (hb : b.Typable) (h : b.pressed? k = some c) :
    c.units ≤ b.units + (b.remnant k).units + 1 := by
  have hc := (grown_pressed? hb h).typable hb
  -- One delete takes back a key that replaces nothing, so such a key added one unit.
  cases hk : k.isInfix with
  | false =>
    have hdelete := congrArg units (delete_pressed? hb hk h)
    rw [units_delete hc, units_append] at hdelete
    omega
  | true =>
    cases k with
    | digit d => cases hk
    | point => cases hk
    | symbol s =>
      have hs : s.isInfix = true := hk
      rw [pressed?_symbol, operated?, ← Symbol.isInfix_eq, if_pos hs] at h
      -- A replacing key first takes units away.
      have hkept : b.withoutTrailingBinary.units ≤ b.units := by
        have hsplit := congrArg units (List.take_append_drop b.binaryStart b)
        rw [units_append] at hsplit
        exact Nat.le.intro hsplit
      split at h
      · cases h
      · cases h
        rw [units_append]
        exact Nat.succ_le_succ hkept

/-! ## §4 Runs -/

/-- As many keys, as many units at most. By induction on the keys, from the last one. -/
theorem units_foldl_afterKey (ks : List Key) : units (ks.foldl afterKey []) ≤ ks.length := by
  induction ks using List.reverseRecOn with
  | nil => exact Nat.le_refl 0
  | append_singleton ks k ih =>
    have hplain := plain_of_ofKeys (pressAll_codes [] ks)
    have hb := typable_of_sound fun t ht => (hplain t ht).2
    rw [List.foldl_append, List.foldl_cons, List.foldl_nil, List.length_append, List.length_singleton,
      afterKey]
    -- A rejected key adds nothing.
    cases hpressed : pressed? (ks.foldl afterKey []) k with
    | none => exact Nat.le_succ_of_le ih
    | some c =>
      have hc := units_pressed? hb hpressed
      rw [remnant_of_plain hplain] at hc
      exact Nat.le_trans hc (Nat.succ_le_succ ih)

/-- Operations on a buffer without literals leave literals that can be typed. By induction on the
operations, from the last one. -/
theorem typable_performAll {start : Buffer} (hstart : start.Typable) (os : List Operation) :
    (start.performAll os).Typable := by
  induction os using List.reverseRecOn with
  | nil => exact hstart
  | append_singleton os o ih =>
    rw [performAll_concat]
    exact (grown_perform ih o).typable ih

/-- In a buffer that operations make of nothing, or of one stored result, deleting takes back the key that was
pressed last, if that replaces no operators, but for the sign between a stored result and a number. And
however many keys are pressed from the beginning, as many deletes leave nothing. -/
theorem delete_undoes_keys {start : Buffer}
    (hstart : start = [] ∨ ∃ n v e s x, start = [.stored n v e s x]) (os : List Operation) :
    (∀ k c, (start.performAll os).press k.code = .ok (true, c) → k.isInfix = false →
      c.delete = start.performAll os ++ (start.performAll os).remnant k)
    ∧ ∀ ks : List Key, ∃ b, ofKeys (ks.map fun k => (k.code : Int)) = .ok b
      ∧ delete^[ks.length] b = [] := by
  -- Neither start holds a literal.
  have htypable : start.Typable := by
    rcases hstart with rfl | ⟨n, v, e, s, x, rfl⟩ <;> simp [Typable]
  constructor
  · intro k c hpress hk
    exact delete_pressed? (typable_performAll htypable os) hk (pressed?_of_press hpress)
  · intro ks
    have hkeys := pressAll_codes [] ks
    refine ⟨_, hkeys, delete_iterate_of_units_le ?_ (units_foldl_afterKey ks)⟩
    exact typable_of_sound fun t ht => (plain_of_ofKeys hkeys t ht).2

/-- The circle number as a stored result. -/
def keptPi : Token :=
  .stored 0 Constant.pi.value [.symbol .pi] ⟨false, 1⟩ (some "π")

/-- Behind a stored result, a five with a negative exponent loses the digit that this takes last; a five typed
directly there leaves its sign behind. -/
theorem delete_undoes_keys_keptPi :
    (performAll [keptPi] [.press 20, .press 5, .setExponent (-3)]).press (Key.digit 2).code
      = .ok (true, [keptPi, .symbol .plus, .literal ⟨"5", "", false, -32⟩])
    ∧ delete [keptPi, .symbol .plus, .literal ⟨"5", "", false, -32⟩]
      = [keptPi, .symbol .plus, .literal ⟨"5", "", false, -3⟩]
    ∧ press [keptPi] (Key.digit 5).code
      = .ok (true, [keptPi, .symbol .times, .literal ⟨"5", "", false, 0⟩])
    ∧ delete [keptPi, .symbol .times, .literal ⟨"5", "", false, 0⟩] = [keptPi, .symbol .times] := by
  have hstored : [keptPi] = [] ∨ ∃ n v e s x, [keptPi] = [.stored n v e s x] :=
    .inr ⟨_, _, _, _, _, rfl⟩
  have hexponent := (delete_undoes_keys hstored [.press 20, .press 5, .setExponent (-3)]).1
  have hfirst := (delete_undoes_keys hstored []).1
  exact ⟨rfl, hexponent (.digit 2) _ rfl rfl, rfl, hfirst (.digit 5) _ rfl rfl⟩

end Buffer

end Reckoner
