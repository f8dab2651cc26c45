import Reckoner.Proofs.Codec.Shelving
import Reckoner.Proofs.Session.Ledger

/-!
# Stored results stay computable

A session keeps with every stored result the expression and the angle mode it came from. Whatever is done
with the session, evaluating that expression again in that mode reads all of it and gives the value that
is stored. This is what makes saved sessions loadable, so restored sessions are included.

- `rebuilds_of_restoreWithin_ok` and `sound_of_restoreWithin_ok`: what is restored from any bytes was rebuilt
  from records, so it is sound;
- `Adds.sound`: what an operation adds is sound;
- `Sustained` is the invariant of a run, and `sustained_after` says that every operation preserves it;
- `stored_reevaluates` draws the conclusion for whole runs.
-/

namespace Reckoner

open Buffer (nested)

namespace Session

/-! ## §1 Restored sessions -/

/-- What is restored was rebuilt from records, those of memory behind those of the expression. -/
theorem rebuilds_of_restoreWithin_ok {room next : Nat} {bytes : Codec.Bytes} {s' : Session}
    (h : restoreWithin room bytes next = .ok s') :
    ∃ rs S, Codec.Rebuilds ⟨.empty, next⟩ rs (s'.expr ++ s'.memory.getD []) S ∧ S.next = s'.next := by
  obtain ⟨p₁, p₂, p₃, hdegrees, hexpr, hmemory, -, -, -, hnext⟩ := of_restoreWithin_ok h
  obtain ⟨-, hstart⟩ := Codec.Progress.of_read_ok hdegrees
  obtain ⟨rs, -, -, hrs, -⟩ := Codec.of_readNested_ok hexpr
  rw [hstart] at hrs
  -- Memory is read with the stored results of the expression at hand.
  simp only [readMemory, bind_ok_iff] at hmemory
  obtain ⟨⟨present, q⟩, hpresent, hmemory⟩ := hmemory
  obtain ⟨-, hbehind⟩ := Codec.Progress.of_read_ok hpresent
  rw [← hbehind] at hrs
  cases present with
  | false =>
    obtain ⟨hm, rfl⟩ := Prod.mk.inj (Except.ok.inj hmemory)
    refine ⟨rs, q.shelf, ?_, hnext.symm⟩
    rw [← hm, Option.getD_none, List.append_nil]
    exact hrs
  | true =>
    simp only [if_pos, bind_ok_iff] at hmemory
    obtain ⟨⟨b, q'⟩, hb, hreturn⟩ := hmemory
    obtain ⟨hm, rfl⟩ := Prod.mk.inj (Except.ok.inj hreturn)
    obtain ⟨rs', -, -, hrs', -⟩ := Codec.of_readNested_ok hb
    refine ⟨rs ++ rs', q'.shelf, ?_, hnext.symm⟩
    rw [← hm, Option.getD_some]
    exact hrs.append hrs'

/-- What is restored is sound, whatever the bytes are. -/
theorem sound_of_restoreWithin_ok {room next : Nat} {bytes : Codec.Bytes} {s' : Session}
    (h : restoreWithin room bytes next = .ok s') : ∀ t ∈ s'.held, t.Sound := by
  obtain ⟨rs, S, hrs, -⟩ := rebuilds_of_restoreWithin_ok h
  rw [held, ← Buffer.nested_append]
  -- What is rebuilt from records was evaluated as it was read.
  exact (hrs.stocked (.empty next)).2.sound

/-- Among what is restored, numbers name stored results. These are numbered from the given number on, and below
the next number of the session. -/
theorem numbered_of_restoreWithin_ok {room next : Nat} {bytes : Codec.Bytes} {s' : Session}
    (h : restoreWithin room bytes next = .ok s') : next ≤ s'.next ∧ Numbered s'.held
    ∧ ∀ t ∈ s'.held, ∀ n, t.number? = some n → next ≤ n ∧ n < s'.next := by
  obtain ⟨rs, S, hrs, hnext⟩ := rebuilds_of_restoreWithin_ok h
  obtain ⟨hstocked, hsupplied⟩ := hrs.stocked (.empty next)
  rw [Buffer.nested_append] at hsupplied
  have hlow := hrs.le_number (Nat.le_refl next) nofun
  refine ⟨hnext ▸ hrs.next_le, hstocked.isNumbered hsupplied, fun t ht n hn => ?_⟩
  -- A numbered token stands on the shelf, where all numbers are new.
  obtain ⟨i, hi⟩ := (hsupplied t ht).2 (by rw [hn]; rfl)
  refine ⟨hlow i t n hi hn, ?_⟩
  obtain ⟨m, v, e, r, x, rfl, hm⟩ := hstocked.stored hi
  obtain rfl : m = n := Option.some.inj hn
  exact hnext ▸ hm

/-! ## §2 Runs -/

/-- What is done with sessions, restoring others included. Only buffers that may be pasted are. -/
def Continued (past : List Session) : Command → Prop
  | .paste b => Pasteable past b
  | _ => True

/-- What is true of a session and of those before it, restored ones included. -/
structure Sustained (s : Session) (past : List Session) : Prop where
  sound : ∀ t ∈ ledger (s :: past), t.Sound
  current : s.Current
  memory : ∀ b, s.memory = some b → isMemory b = true

variable {s s' : Session} {past : List Session} {c : Command} {new : List Token}

/-- What is drawn from sound tokens is sound. -/
theorem Drawn.sound {A b : List Token} (h : Drawn A b) (hA : ∀ t ∈ A, t.Sound) :
    ∀ t ∈ b, t.Sound :=
  h.forall hA fun _ hplain => hplain.2

/-- What an operation adds is sound. -/
theorem Sustained.sound_new (h : Sustained s past) (hc : Continued (s :: past) c)
    (hnew : Adds s s' c new) : ∀ t ∈ new, t.Sound := by
  cases hnew with
  | nothing hnext => simp
  | pasted b hnext => exact (Pasteable.nested hc).sound h.sound
  | value ht hnext => simpa using sound_abbreviated h.current ht
  -- The combination and the value in it are both new.
  | combination ht hchange hu hnext =>
    have hsound := sound_abbreviated h.current ht
    have hsoundNew := (sound_combined h.memory ht hchange hu).1
    simp [hsound, hsoundNew]
  | restored hrestore => exact sound_of_restoreWithin_ok hrestore

theorem sustained_fresh (degrees : Bool) : Sustained (fresh degrees) [] where
  sound := by simp [ledger, held, fresh]
  current := current_of_result_eq_none rfl
  memory _ h := nomatch h

/-- Every operation preserves that all tokens are sound. -/
theorem sustained_after (h : Sustained s past) (hc : Continued (s :: past) c) :
    Sustained (s.after c) (s :: past) := by
  have hexpr : ∀ t ∈ s.expr, t.Sound := fun t ht =>
    h.sound t (expr_subset_ledger s past (Buffer.mem_nested_of_mem ht))
  have heffect := effect_after hexpr c
  obtain ⟨new, hnew, hdrawn⟩ := heffect.adds
  -- New tokens are sound, and so are those that were held.
  have hheld : ∀ t ∈ new ++ s.held, t.Sound := List.forall_mem_append.mpr
    ⟨h.sound_new hc hnew, fun t ht => h.sound t (held_subset_ledger s past ht)⟩
  exact ⟨List.forall_mem_append.mpr ⟨hdrawn.sound hheld, h.sound⟩, current_after h.current c,
    heffect.isMemory h.memory⟩

/-- The invariant holds all along a run. By induction on the run. -/
theorem sustained_of_run (h : Run IsFresh Continued (s :: past)) : Sustained s past := by
  generalize hrun : s :: past = run at h
  induction h generalizing s past with
  | start h =>
    cases hrun
    obtain ⟨degrees, rfl⟩ := h
    exact sustained_fresh degrees
  | step _ hc ih =>
    cases hrun
    exact sustained_after (ih rfl) hc

/-- Whatever was done with a session, the scope of a stored result in its expression or its memory, at
any depth, reaches over the whole expression it came from; evaluating that expression again reads all of
it and returns the quantity of the stored value. -/
theorem stored_reevaluates (h : Run IsFresh Continued (s :: past)) {n : Nat} {v : Value} {e : Buffer}
    {r : Scope} {x : Option String} (ht : .stored n v e r x ∈ s.held) :
    r.reach = e.length
    ∧ ∃ y, e.evaluatePrefix r = .ok (e.length, y) ∧ y.quantity = v.quantity :=
  (sustained_of_run h).sound _ (held_subset_ledger s past ht)

/-- The bytes of a session whose expression and memory are the same stored result, one. -/
def savedOne : Codec.Bytes :=
  [0, 0, 0, 0, 1, 2, 0, 0, 0, 1, 0, 0, 0, 1, 0, 0, 1, 49, 0, 0, 0, 0, 0, 0, 0, 0, 0, 1, 49,
    1, 0, 0, 0, 1, 2, 0, 0, 0, 1]

/-- A restored session that was collapsed in another mode, with an operator behind its expression. -/
def collapsedAgain : Session :=
  ((((fresh false).after (.restore 2 savedOne)).after (.setDegrees true)).after (.press 20)).after
    .collapse

/-- The stored result that is restored from these bytes. -/
def restoredOne : Token :=
  .stored 0 ⟨.rational 1, .result 0⟩ [.literal ⟨"1", "", false, 0⟩] ⟨false, 1⟩ (some "1")

theorem stored_reevaluates_collapsedAgain : ∃ past,
    Run IsFresh Continued (collapsedAgain :: past)
    ∧ .stored 1 ⟨.rational 1, .result 1⟩ [restoredOne] ⟨true, 1⟩ (some "1") ∈ collapsedAgain.held
    ∧ ∃ y, Buffer.evaluatePrefix [restoredOne] ⟨true, 1⟩ = .ok (1, y) ∧ y.quantity = .rational 1 := by
  have hrun : Run IsFresh Continued (collapsedAgain :: _) :=
    .step (.step (.step (.step (.start ⟨false, rfl⟩) trivial) trivial) trivial) trivial
  have hexpr : collapsedAgain.expr
      = [.stored 1 ⟨.rational 1, .result 1⟩ [restoredOne] ⟨true, 1⟩ (some "1")] := rfl
  have hheld : .stored 1 ⟨.rational 1, .result 1⟩ [restoredOne] ⟨true, 1⟩ (some "1")
      ∈ collapsedAgain.held := by
    refine List.mem_append_left _ ?_
    rw [hexpr]
    exact List.mem_cons_self
  exact ⟨_, hrun, hheld, (stored_reevaluates hrun hheld).2⟩

end Session

end Reckoner
