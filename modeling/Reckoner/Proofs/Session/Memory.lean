import Reckoner.Proofs.Quantity.Denotation
import Reckoner.Proofs.Session.Provenance

/-!
# The memory register as an account

Every change of memory that succeeds enters the value that the expression has at that moment; clearing
memory closes the account. `record` keeps the entries, from what operations return and from what the
expression evaluates to, without looking at memory. Memory holds their balance.

- `evaluate_combination_eq`: what a combination with memory evaluates to;
- `updateMemory_cases`: a change of memory fails and leaves memory alone, or enters the value of the
  expression;
- `Balanced` is the invariant of a run, and `balanced_after` says that every operation preserves it;
- `toReal_balance` and `balance_rational`: the balance is the signed sum of the entries;
- `memory_eq_balance` draws the conclusion for whole runs.
-/

namespace Reckoner

namespace Session

/-! ## §1 Accounts -/

/-- A change of memory that succeeded, with the value of the expression at that moment. -/
structure Entry where
  change : MemoryChange
  value : Quantity
  deriving DecidableEq

/-- The value of memory after a change by `x`. The first change brings `x` in as it is, or negated. -/
def MemoryChange.apply (x : Quantity) : MemoryChange → Option Quantity → Quantity
  | .add, none => x
  | .subtract, none => x.negate
  | .add, some m => m.add x
  | .subtract, some m => m.subtract x

/-- What a change of memory does to the sign of what is entered. -/
def MemoryChange.signed {α : Type} [Neg α] (x : α) : MemoryChange → α
  | .add => x
  | .subtract => -x

/-- The value that entries come to, from the first to the last; `none` without entries. -/
def balance (entries : List Entry) : Option Quantity :=
  entries.foldl (fun m e => some (e.change.apply e.value m)) none

/-- The entries after an operation, given those before it. -/
def record (s : Session) (entries : List Entry) : Command → List Entry
  | .updateMemory change =>
    match (s.updateMemory change).1, s.expr.evaluate s.degrees with
    | .ok (), .ok x => entries ++ [⟨change, x.quantity⟩]
    | _, _ => entries
  | .clearMemory => []
  | _ => entries

/-- The session after operations in turn. -/
def afterAll (s : Session) (cs : List Command) : Session :=
  cs.foldl after s

/-- The entries after operations in turn, given those before them. -/
def account (s : Session) (entries : List Entry) : List Command → List Entry
  | [] => entries
  | c :: cs => (s.after c).account (s.record entries c) cs

/-! ## §2 Balances -/

theorem balance_concat (entries : List Entry) (e : Entry) :
    balance (entries ++ [e]) = some (e.change.apply e.value (balance entries)) := by
  rw [balance, List.foldl_append]
  rfl

/-- There is a balance just if there are entries. -/
theorem balance_eq_none_iff {entries : List Entry} : balance entries = none ↔ entries = [] := by
  rcases List.eq_nil_or_concat entries with rfl | ⟨front, e, rfl⟩
  · exact ⟨fun _ => rfl, fun _ => rfl⟩
  · rw [List.concat_eq_append, balance_concat]
    simp

/-- A change adds what is entered with its sign, to zero if there was nothing. -/
theorem toReal_apply (change : MemoryChange) (x : Quantity) (m : Option Quantity) :
    (change.apply x m).toReal = (m.map Quantity.toReal).getD 0 + change.signed x.toReal := by
  cases change with
  | add =>
    cases m with
    | none => exact (zero_add _).symm
    | some m => exact Quantity.toReal_add m x
  -- What is subtracted from nothing is negated.
  | subtract =>
    cases m with
    | none => exact (Quantity.toReal_negate x).trans (zero_add _).symm
    | some m => exact (Quantity.toReal_subtract m x).trans (sub_eq_add_neg _ _)

/-- The balance is exact: it stands for the signed sum of what the entries stand for. By induction on
the entries, from the last one. -/
theorem toReal_balance (entries : List Entry) :
    ((balance entries).map Quantity.toReal).getD 0
      = (entries.map fun e => e.change.signed e.value.toReal).sum := by
  induction entries using List.reverseRecOn with
  | nil => rfl
  | append_singleton front e ih =>
    rw [balance_concat, Option.map_some, Option.getD_some, toReal_apply, ih, List.map_append,
      List.sum_append, List.map_singleton, List.sum_singleton]

/-- Rational entries have a rational balance. -/
theorem balance_rational {entries : List Entry} (q : Entry → Rat)
    (h : ∀ e ∈ entries, e.value = .rational (q e)) :
    balance entries = none ∨ balance entries
      = some (.rational (entries.map fun e => e.change.signed (q e)).sum) := by
  induction entries using List.reverseRecOn with
  | nil => exact .inl rfl
  | append_singleton front e ih =>
    have hlast : e.value = .rational (q e) := h e (by simp)
    have hsum : ((front ++ [e]).map fun e => e.change.signed (q e)).sum
        = (front.map fun e => e.change.signed (q e)).sum + e.change.signed (q e) := by
      rw [List.map_append, List.sum_append, List.map_singleton, List.sum_singleton]
    refine .inr ?_
    rw [balance_concat, hlast, hsum]
    -- The first entry brings its value in; every other one is added to a rational or subtracted from it.
    rcases ih fun e he => h e (List.mem_append_left _ he) with hnone | hsome
    · obtain rfl := balance_eq_none_iff.mp hnone
      cases e.change with
      | add => exact congrArg (some ∘ Quantity.rational) (zero_add _).symm
      | subtract =>
        exact congrArg some ((Quantity.negate_rational _).trans
          (congrArg Quantity.rational (zero_add _).symm))
    · rw [hsome]
      cases e.change with
      | add => rfl
      | subtract => exact congrArg (some ∘ Quantity.rational) (sub_eq_add_neg _ _)

/-! ## §3 Changes of memory -/

/-- The value of a buffer that is one stored result. -/
def storedValue? : Buffer → Option Quantity
  | [.stored _ v _ _ _] => some v.quantity
  | _ => none

/-- A combination with memory evaluates to what the change makes of the value of memory, in both angle
modes. -/
theorem evaluate_combination_eq {m : Option Buffer} (hm : ∀ b, m = some b → isMemory b = true)
    {change : MemoryChange} (hchange : m = none → change = .subtract) (n : Nat) (v : Value)
    (e : Buffer) (r : Scope) (x : Option String) (degrees : Bool) :
    Buffer.evaluate (m.getD [] ++ [.symbol change.symbol, .stored n v e r x]) degrees
      = .ok (.computed (change.apply v.quantity (m.bind storedValue?))) := by
  cases m with
  | none =>
    obtain rfl := hchange rfl
    rfl
  | some b =>
    have hb := hm b rfl
    unfold isMemory at hb
    -- Memory is one stored result, so the combination is a sum or a difference of two values.
    split at hb
    · cases change with
      | add => rfl
      | subtract => rfl
    · cases hb

variable {s : Session}

/-- What a session evaluates to is the value of its expression. -/
theorem evaluate_expr_of_ok (h : s.Current) {q : Quantity} (hq : s.evaluate.1 = .ok q) :
    ∃ x, s.expr.evaluate s.degrees = .ok x ∧ x.quantity = q := by
  -- What evaluation keeps is current, and it leaves expression and mode as they are.
  have hcurrent := h.evaluate q (result_of_evaluate_ok hq)
  obtain ⟨result, text, hframe⟩ := s.evaluate_frame
  rwa [hframe] at hcurrent

/-- A change of memory fails and leaves memory alone, or it enters the value of the expression. -/
theorem updateMemory_cases (h : s.Current) (hm : ∀ b, s.memory = some b → isMemory b = true)
    (change : MemoryChange) :
    (∃ e, (s.updateMemory change).1 = .error e ∧ (s.updateMemory change).2.memory = s.memory)
    ∨ ∃ x b, (s.updateMemory change).1 = .ok () ∧ s.expr.evaluate s.degrees = .ok x
      ∧ (s.updateMemory change).2.memory = some b
      ∧ storedValue? b = some (change.apply x.quantity (s.memory.bind storedValue?)) := by
  unfold Session.updateMemory
  cases hp : s.abbreviated with
  | mk outcome s₁ =>
    cases outcome with
    | error e =>
      obtain rfl := snd_abbreviated_of_error hp
      obtain ⟨result, text, hframe⟩ := s.evaluate_frame
      exact .inl ⟨e, rfl, by rw [hframe]⟩
    | ok t =>
      obtain ⟨hexpr, hmemory, hdegrees, hnext⟩ := abbreviated_frame hp
      obtain ⟨q, hq, rfl⟩ := abbreviated_eq hp
      obtain ⟨x, hx, rfl⟩ := evaluate_expr_of_ok h hq
      dsimp only
      split
      -- What is added to empty memory becomes memory as it is.
      · next hadd =>
        obtain ⟨hnone, hchange⟩ := Bool.and_eq_true_iff.mp hadd
        obtain rfl : change = .add := by simpa using hchange
        have hnone : s.memory = none := by rwa [hmemory, Option.isNone_iff_eq_none] at hnone
        exact .inr ⟨x, _, rfl, hx, rfl, by rw [hnone]; rfl⟩
      -- All else is a combination, which fails or has the value of the change.
      · next hother =>
        have hchange : s.memory = none → change = .subtract := by
          intro hnone
          cases change with
          | subtract => rfl
          | add => exact absurd (by simp [hmemory, hnone]) hother
        split
        · next e hcombined => exact .inl ⟨e, rfl, hmemory⟩
        · next u hcombined =>
          obtain ⟨y, text, hy, -, rfl⟩ := combined_eq hcombined
          rw [hmemory] at hy
          -- The combination has one value only, which is known.
          obtain rfl := Except.ok.inj (hy.symm.trans
            (evaluate_combination_eq hm hchange _ _ _ _ _ _))
          exact .inr ⟨x, _, rfl, hx, rfl, rfl⟩

/-! ## §4 Runs -/

/-- Memory holds the balance of the entries, in one stored result if there are any. -/
structure Balanced (s : Session) (entries : List Entry) : Prop where
  current : s.Current
  memory : ∀ b, s.memory = some b → isMemory b = true
  balance : s.memory.bind storedValue? = balance entries

/-- A buffer with the value of a stored result is one. -/
theorem isMemory_of_storedValue? {b : Buffer} {q : Quantity} (h : storedValue? b = some q) :
    isMemory b = true := by
  unfold storedValue? at h
  split at h
  · rfl
  · cases h

variable {entries : List Entry}

/-- Every operation but restoring another session preserves the balance. -/
theorem balanced_after (h : Balanced s entries) {c : Command}
    (hc : ∀ room bytes, c ≠ .restore room bytes) : Balanced (s.after c) (s.record entries c) := by
  have hcurrent := current_after h.current c
  -- Clearing closes the account, changes of memory are entered, and all else leaves both alone.
  by_cases hclear : c = .clearMemory
  · subst hclear
    exact ⟨hcurrent, nofun, rfl⟩
  by_cases hupdate : ∃ change, c = .updateMemory change
  · obtain ⟨change, rfl⟩ := hupdate
    rcases updateMemory_cases h.current h.memory change with
      ⟨e, herror, hmemory⟩ | ⟨x, b, hok, hx, hmemory, hb⟩
    · have hrecord : s.record entries (.updateMemory change) = entries := by
        simp only [record, herror]
      rw [hrecord]
      exact ⟨hcurrent, fun b hb => h.memory b (hmemory.symm.trans hb),
        (congrArg (Option.bind · storedValue?) hmemory).trans h.balance⟩
    · have hrecord : s.record entries (.updateMemory change) = entries ++ [⟨change, x.quantity⟩] := by
        simp only [record, hok, hx]
      rw [hrecord]
      refine ⟨hcurrent, fun b' hb' => ?_, ?_⟩
      · obtain rfl := Option.some.inj (hmemory.symm.trans hb')
        exact isMemory_of_storedValue? hb
      · refine (congrArg (Option.bind · storedValue?) hmemory).trans ?_
        rw [balance_concat, ← h.balance]
        exact hb
  -- No other operation touches memory.
  · have hmemory := memory_after s (fun change hchange => hupdate ⟨change, hchange⟩) hclear hc
    have hrecord : s.record entries c = entries := by
      cases c with
      | updateMemory change => exact absurd ⟨change, rfl⟩ hupdate
      | clearMemory => exact absurd rfl hclear
      | _ => rfl
    rw [hrecord]
    exact ⟨hcurrent, fun b hb => h.memory b (hmemory ▸ hb),
      (congrArg (Option.bind · storedValue?) hmemory).trans h.balance⟩

/-- The balance is kept all along a run. By induction on the operations. -/
theorem balanced_of_run (h : Balanced s entries) {cs : List Command}
    (hcs : ∀ room bytes, .restore room bytes ∉ cs) :
    Balanced (s.afterAll cs) (s.account entries cs) := by
  induction cs generalizing s entries with
  | nil => exact h
  | cons c cs ih =>
    refine ih (balanced_after h ?_) fun room bytes hmem => hcs room bytes (List.mem_cons_of_mem _ hmem)
    rintro room bytes rfl
    exact hcs room bytes List.mem_cons_self

/-- Whatever is done with a fresh session, memory is empty exactly if nothing was entered since it was last
cleared. Otherwise it is one stored result, whose value is the balance of what was entered: the signed sum
as a real number, and the signed sum of rationals where these were entered. In both angle modes memory
evaluates to that value. -/
theorem memory_eq_balance (degrees : Bool) {cs : List Command}
    (hcs : ∀ room bytes, .restore room bytes ∉ cs) :
    (((fresh degrees).afterAll cs).memory = none ↔ (fresh degrees).account [] cs = [])
    ∧ ∀ b, ((fresh degrees).afterAll cs).memory = some b →
      ∃ n v e r x, b = [.stored n v e r x]
        ∧ balance ((fresh degrees).account [] cs) = some v.quantity
        ∧ v.quantity.toReal
          = (((fresh degrees).account [] cs).map fun e => e.change.signed e.value.toReal).sum
        ∧ (∀ q : Entry → Rat,
          (∀ e ∈ (fresh degrees).account [] cs, e.value = .rational (q e)) →
          v.quantity
            = .rational (((fresh degrees).account [] cs).map fun e => e.change.signed (q e)).sum)
        ∧ ∀ degrees', b.evaluate degrees' = .ok (.ofValue v) := by
  have hstart : Balanced (fresh degrees) [] := ⟨current_of_result_eq_none rfl, nofun, rfl⟩
  obtain ⟨-, hmemory, hbalance⟩ := balanced_of_run hstart hcs
  generalize (fresh degrees).account [] cs = entries at hbalance ⊢
  generalize (fresh degrees).afterAll cs = s at hmemory hbalance ⊢
  -- If there is memory, it is one stored result with the balance as its value.
  have hsome {b : Buffer} (hb : s.memory = some b) :
      ∃ n v e r x, b = [.stored n v e r x] ∧ balance entries = some v.quantity := by
    have hone := hmemory b hb
    rw [hb] at hbalance
    unfold isMemory at hone
    split at hone
    · next n v e r x => exact ⟨n, v, e, r, x, rfl, hbalance.symm⟩
    · cases hone
  refine ⟨⟨fun hnone => ?_, ?_⟩, fun b hb => ?_⟩
  · rw [hnone] at hbalance
    exact balance_eq_none_iff.mp hbalance.symm
  -- Without entries there is no balance, and so no memory.
  · rintro rfl
    cases hm : s.memory with
    | none => rfl
    | some b =>
      obtain ⟨n, v, e, r, x, -, hv⟩ := hsome hm
      cases hv
  · obtain ⟨n, v, e, r, x, rfl, hv⟩ := hsome hb
    refine ⟨n, v, e, r, x, rfl, hv, ?_, fun q hq => ?_, fun degrees' =>
      Buffer.evaluate_stored n v e r x degrees'⟩
    · rw [← toReal_balance, hv]
      rfl
    · rcases balance_rational q hq with hnone | hrational
      · cases hv.symm.trans hnone
      · exact Option.some.inj (hv.symm.trans hrational)

/-- Seven is subtracted from empty memory, which is recalled behind the seven; the product is added with an
operator behind it, and then divided by zero, which cannot be added. -/
def sevens : List Command :=
  [.press 7, .updateMemory .subtract, .recallMemory, .press 20, .setDegrees true, .updateMemory .add,
    .press 23, .press 0, .updateMemory .add]

/-- The change that fails is not entered. -/
theorem memory_eq_balance_sevens :
    (∀ room bytes, Command.restore room bytes ∉ sevens)
    ∧ (fresh false).account [] sevens = [⟨.subtract, .rational 7⟩, ⟨.add, .rational (-49)⟩]
    ∧ ∃ n v e r x, ((fresh false).afterAll sevens).memory = some [.stored n v e r x]
      ∧ v.quantity = .rational (-56) := by
  have hcs : ∀ room bytes, Command.restore room bytes ∉ sevens := by simp [sevens]
  have haccount : (fresh false).account [] sevens
      = [⟨.subtract, .rational 7⟩, ⟨.add, .rational (-49)⟩] := by decide +kernel
  obtain ⟨hempty, hmemory⟩ := memory_eq_balance false hcs
  refine ⟨hcs, haccount, ?_⟩
  rw [haccount] at hempty hmemory
  cases hm : ((fresh false).afterAll sevens).memory with
  | none => cases hempty.mp hm
  | some b =>
    obtain ⟨n, v, e, r, x, rfl, hv, -, hrational, -⟩ := hmemory b hm
    refine ⟨n, v, e, r, x, rfl, ?_⟩
    have hvalue : balance [⟨.subtract, .rational 7⟩, ⟨.add, .rational (-49)⟩]
        = some (.rational (-56)) := by decide +kernel
    exact Option.some.inj (hv.symm.trans hvalue)

end Session

end Reckoner
