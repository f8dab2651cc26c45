import Mathlib.Data.Option.Basic
import Reckoner.Proofs.Codec.Merging
import Reckoner.Proofs.Session.Ledger

/-!
# Restoring a saved session

The expression and the memory of a session are saved with one numbering, so that a stored result which
both of them hold is saved once. A session gives every stored result a value of its own, so saving
merges none, and what is restored is the session up to the numbers of its stored results.

- `Session.Isomorphic` says when two sessions are the same in this sense;
- `restore_save_isomorphic`: whatever was done with a session, restoring what it saves returns one that
  is isomorphic to it.
-/

namespace Reckoner

open Buffer (nested Alike Renamed)
open Reckoner.Codec

namespace Session

/-! ## §1 Sessions up to numbers -/

/-- Sessions in the same angle mode whose expressions and memories have the same tokens up to the
numbers of stored results. A number in one session belongs to just one number in the other, in
expression and memory alike. -/
structure Isomorphic (s s' : Session) : Prop where
  degrees : s.degrees = s'.degrees
  tokens : ∃ M : Nat → Nat → Prop, Relator.BiUnique M ∧ Alike (Renamed M) s.expr s'.expr
    ∧ Option.Rel (Alike (Renamed M)) s.memory s'.memory

/-- How deeply stored results are nested in the expression or in the memory. -/
def depth (s : Session) : Nat :=
  max s.expr.depth (Buffer.depth (s.memory.getD []))

/-! ## §2 The bytes of a session -/

/-- What is saved of a session are its mode, the records of the expression, and those of the memory if
there is one, with the numbering that the expression has left. -/
theorem of_save_ok {s : Session} {bytes : Bytes} (h : s.save = .ok bytes) :
    ∃ rs T expr, Outlines byValue .empty s.expr rs T ∧ encodeAll rs = .ok expr
      ∧ (s.memory = none ∧ bytes = writeBool s.degrees ++ expr ++ writeBool false
        ∨ ∃ b rs' T' memory, s.memory = some b ∧ Outlines byValue T b rs' T'
          ∧ encodeAll rs' = .ok memory
          ∧ bytes = writeBool s.degrees ++ expr ++ (writeBool true ++ memory)) := by
  simp only [save, saveWithin, bind_ok_iff] at h
  obtain ⟨⟨expr, T⟩, hexpr, h⟩ := h
  -- The memory starts with the numbering that the expression has left.
  obtain ⟨rs, houtlines, hencode⟩ := writeTokens_ok_iff.mp hexpr
  refine ⟨rs, T, expr, houtlines, hencode, ?_⟩
  cases hm : s.memory with
  | none =>
    simp only [hm] at h
    obtain rfl := Except.ok.inj h
    exact .inl ⟨rfl, by simp⟩
  | some b =>
    simp only [hm, map_eq_pure_bind, bind_ok_iff] at h
    obtain ⟨memory, ⟨⟨written, T'⟩, hwritten, hreturn⟩, h⟩ := h
    obtain rfl := Except.ok.inj hreturn
    obtain rfl := Except.ok.inj h
    obtain ⟨rs', houtlines', hencode'⟩ := writeTokens_ok_iff.mp hwritten
    exact .inr ⟨b, rs', T', written, rfl, houtlines', hencode', by simp⟩

/-- Restoring reads the mode, the expression and the memory, and nothing may be left then. -/
theorem restoreWithin_eq_ok {room next : Nat} {degrees : Bool} {rs : List Record} {expr : Bytes}
    {b : Buffer} {S S' : Shelf} (hb : Rebuilds ⟨.empty, next⟩ rs b S) (hroom : depthEach rs < room)
    (hexpr : encodeAll rs = .ok expr) {memory : Bytes} {m : Option Buffer}
    (hmemory : readMemory room (S.before memory) = .ok (m, S'.before []))
    (hm : m.all isMemory = true) :
    restoreWithin room (writeBool degrees ++ expr ++ memory) next
      = .ok ⟨degrees, b, m, none, none, S'.next⟩ := by
  have hdegrees : Progress.read ⟨writeBool degrees ++ expr ++ memory, .empty, next⟩ readBool
      = .ok (degrees, Shelf.before ⟨.empty, next⟩ (expr ++ memory)) := by
    rw [List.append_assoc]
    exact Shelf.read_before ⟨.empty, next⟩ (readBool_writeBool degrees (expr ++ memory))
  simp only [restoreWithin, hdegrees, ok_bind, hb.readNested hroom hexpr memory, hmemory, hm]
  rfl

theorem readMemory_none (room : Nat) (S : Shelf) :
    readMemory room (S.before (writeBool false)) = .ok (none, S.before []) := rfl

/-- A memory that is there is read with the stored results of the expression at hand. -/
theorem readMemory_some {room : Nat} {S S' : Shelf} {rs : List Record} {b : Buffer}
    (hb : Rebuilds S rs b S') (hroom : depthEach rs < room) {memory : Bytes}
    (hmemory : encodeAll rs = .ok memory) :
    readMemory room (S.before (writeBool true ++ memory)) = .ok (some b, S'.before []) := by
  have hread := hb.readNested hroom hmemory []
  rw [List.append_nil] at hread
  simp only [readMemory, S.read_before (readBool_writeBool true memory), ok_bind, hread]
  rfl

/-! ## §3 Restoring what was saved -/

/-- Saving merges no stored results of a session, as each has a value of its own. -/
theorem outline_held {s : Session} {past : List Session} (h : Kept s past) {b : Buffer}
    (hb : nested b ⊆ ledger (s :: past)) : outline byValue b = outline byToken b := by
  refine outline_eq_of_distinct (h.ledger.numbered.subset hb) ?_
  intro n v e r x ht n' v' e' r' x' hu hidentity
  -- Every stored result has the value of its own number, so two with one value have one number.
  have hn := (h.ledger.own (hb ht)).1
  have hn' := (h.ledger.own (hb hu)).1
  rw [hn, hn'] at hidentity
  exact Identity.result.inj hidentity

/-- What rebuilds the expression and the memory of a session together rebuilds an isomorphic pair. -/
theorem rebuilds_held {s : Session} {past : List Session} (h : Kept s past) {rs rs' : List Record}
    {T T' : Issued Identity} {m : Buffer} (hm : nested m ⊆ ledger (s :: past))
    (hexpr : Outlines byValue .empty s.expr rs T) (hmemory : Outlines byValue T m rs' T')
    {bytes : Bytes} (hencode : encodeEach (rs ++ rs') = .ok bytes) (next : Nat) :
    ∃ b b' S S' M, Rebuilds ⟨.empty, next⟩ rs b S ∧ Rebuilds S rs' b' S'
      ∧ Relator.BiUnique M ∧ Alike (Renamed M) s.expr b ∧ Alike (Renamed M) m b' := by
  have hsubset : nested (s.expr ++ m) ⊆ ledger (s :: past) := by
    rw [Buffer.nested_append]
    exact List.append_subset.mpr ⟨expr_subset_ledger s past, hm⟩
  have hsound : Buffer.Sound (s.expr ++ m) := fun t ht => h.ledger.sound t (hsubset ht)
  have hnumbered : Numbered (nested (s.expr ++ m)) := h.ledger.numbered.subset hsubset
  have hcoherent : Coherent byValue (nested (s.expr ++ m)) := by
    intro n v e r x ht n' v' e' r' x' hu hidentity
    have hidentity' : v.identity = v'.identity := hidentity
    rw [(h.ledger.own (hsubset ht)).1, (h.ledger.own (hsubset hu)).1] at hidentity'
    obtain rfl := Identity.result.inj hidentity'
    cases hnumbered.eq ht hu
    rfl
  -- Expression and memory have the records of one buffer, as they share their numbering.
  have hrecords : outline byValue (s.expr ++ m) = rs ++ rs' := (hexpr.append hmemory).eq_outline
  rw [← hrecords] at hencode
  -- Nothing is merged in saving, so numbers are renamed one to one.
  obtain ⟨c, S', hc⟩ := rebuilds_outline hsound hcoherent hencode next
  obtain ⟨M, hM, halike⟩ :=
    (isomorphic_rebuilt_iff hsound hnumbered hc).mpr (outline_held h hsubset)
  rw [hrecords] at hc
  -- What was rebuilt is cut again where the expression ended.
  obtain ⟨b, b', S, rfl, hb, hb'⟩ := hc.of_append
  obtain ⟨c, c', heq, hexprAlike, hmAlike⟩ := halike.of_append
  have hlength : b.length = c.length := by
    rw [hb.length_eq, hexpr.length_eq, hexprAlike.length_eq]
  obtain ⟨rfl, rfl⟩ := List.append_inj heq hlength
  exact ⟨b, b', S, S', M, hb, hb', hM, hexprAlike, hmAlike⟩

/-- Renumbering a memory, one stored result, leaves it one. -/
theorem Alike.isMemory_eq {R : Nat → Value → Nat → Value → Prop} {b c : Buffer}
    (h : Alike R b c) (hb : isMemory b = true) : isMemory c = true := by
  unfold isMemory at hb
  split at hb
  · cases h with
    | stored s x hR he hrest =>
      cases hrest
      rfl
  · cases hb

/-- Whatever was done with a session, what it saves can be restored, and the restored session is
isomorphic to it. -/
theorem restore_save_isomorphic {s : Session} {past : List Session}
    (h : Run IsFresh Within (s :: past)) {bytes : Bytes} (hsave : s.save = .ok bytes) {room : Nat}
    (hroom : s.depth < room) (next : Nat) :
    ∃ s', restoreWithin room bytes next = .ok s' ∧ s.Isomorphic s' := by
  have hkept := kept_of_run h
  obtain ⟨rs, T, expr, houtlines, hexpr, hmemory⟩ := of_save_ok hsave
  obtain ⟨_, each, -, heach, -⟩ := encodeAll_ok_iff.mp hexpr
  have hdepth : depthEach rs < room := by
    have := houtlines.depth_le
    have : s.expr.depth ≤ s.depth := Nat.le_max_left _ _
    omega
  -- Without a memory, the expression is rebuilt alone.
  rcases hmemory with ⟨hnone, rfl⟩ | ⟨m, rs', T', memory, hsome, houtlines', hmemory, rfl⟩
  · obtain ⟨b, b', S, S', M, hb, hb', hM, halike, -⟩ := rebuilds_held hkept
      (List.nil_subset _ : nested [] ⊆ _) houtlines (.nil T)
      (encodeEach_append heach rfl) next
    refine ⟨_, restoreWithin_eq_ok hb hdepth hexpr (readMemory_none room S) rfl, rfl, M, hM,
      halike, ?_⟩
    rw [hnone]
    exact .none
  -- With one, the two are rebuilt together, by one renaming.
  · obtain ⟨_, each', -, heach', -⟩ := encodeAll_ok_iff.mp hmemory
    have hm : nested m ⊆ ledger (s :: past) := by
      have := memory_subset_ledger s past
      rwa [hsome] at this
    obtain ⟨b, b', S, S', M, hb, hb', hM, halike, hmAlike⟩ := rebuilds_held hkept hm houtlines
      houtlines' (encodeEach_append heach heach') next
    have hdepth' : depthEach rs' < room := by
      have := houtlines'.depth_le
      have : m.depth ≤ s.depth := by
        rw [depth, hsome]
        exact Nat.le_max_right _ _
      omega
    have hall : (some b').all isMemory = true := Alike.isMemory_eq hmAlike (hkept.memory m hsome)
    refine ⟨_, restoreWithin_eq_ok hb hdepth hexpr (readMemory_some hb' hdepth' hmemory) hall,
      rfl, M, hM, halike, ?_⟩
    rw [hsome]
    exact .some hmAlike

/-- The first stored result of a session, one. -/
def storedOne : Token :=
  .stored 0 ⟨.rational 1, .result 0⟩ [.literal ⟨"1", "", false, 0⟩] ⟨false, 1⟩ (some "1")

/-- A session whose memory is also its expression. -/
def recalledOne : Session :=
  ((((fresh false).after (.press 1)).after (.updateMemory .add)).after .clear).after .recallMemory

theorem restore_save_isomorphic_recalledOne : ∃ past bytes s', Run IsFresh Within (recalledOne :: past)
    ∧ recalledOne.save = .ok bytes ∧ recalledOne.depth < 2 ∧ restoreWithin 2 bytes 7 = .ok s'
    ∧ recalledOne.Isomorphic s' := by
  have hrun : Run IsFresh Within (recalledOne :: _) :=
    .step (.step (.step (.step (.start ⟨false, rfl⟩) trivial) trivial) trivial) trivial
  have hstate : recalledOne = ⟨false, [storedOne], some [storedOne], none, none, 1⟩ := rfl
  have hsave : recalledOne.save = .ok
      [0, 0, 0, 0, 1,
        2, 0, 0, 0, 1, 0, 0, 0, 1, 0, 0, 1, 49, 0, 0, 0, 0, 0, 0, 0, 0, 0, 1, 49,
        1, 0, 0, 0, 1, 2, 0, 0, 0, 1] := by
    rw [hstate]
    rfl
  have hdepth : recalledOne.depth < 2 := by
    rw [hstate]
    exact Nat.one_lt_two
  obtain ⟨s', hrestore, hiso⟩ := restore_save_isomorphic hrun hsave hdepth 7
  exact ⟨_, _, s', hrun, hsave, hdepth, hrestore, hiso⟩

end Session

end Reckoner
