import Reckoner.Proofs.Codec.Canonical
import Reckoner.Proofs.Codec.Sharing

/-!
# When saving merges stored results

Saving goes by the values of stored results. If two stored results have the same value, one of them is
saved as a reference to the other, and after loading they are one. Nothing is lost exactly if sharing
by value gives a buffer the records that sharing by token does.

- `isomorphic_rebuilt_iff` says so of any sound buffer;
- `outline_eq_of_distinct`: it is so if different stored results have different values;
- `reload_isomorphic_iff` is about buffers that were loaded. Loading makes every stored result anew, but
  takes its value as evaluation returns it, and a value that evaluation did not compute is somebody's
  already: a constant, or the value of a stored result in the expression.
-/

namespace Reckoner.Codec

open Buffer (nested Alike Isomorphic)

variable {b c : Buffer} {next : Nat} {S : Shelf}

/-! ## §1 Sound buffers -/

/-- What was rebuilt from nothing is sound, its numbers name its stored results, its identities name
quantities, and its records by token are those that it was rebuilt from. -/
theorem of_rebuilds_empty {rs : List Record} (h : Rebuilds ⟨.empty, next⟩ rs b S) : b.Sound
    ∧ Numbered (nested b) ∧ Coherent byValue (nested b) ∧ outline byToken b = rs := by
  obtain ⟨hS, hb⟩ := h.stocked (Stocked.empty next)
  -- Soundness and numbers come from the shelf, quantities from the values on it, records from the outline.
  obtain ⟨q, hq⟩ := h.values (Stocked.empty next) (Values.empty next)
  obtain ⟨T, houtlines, -⟩ := h.outlines (Stocked.empty next) (Tracks.empty next)
  exact ⟨hb.sound, hS.isNumbered hb, hq.coherent hb, houtlines.eq_outline⟩

/-- If the records of a sound buffer can be written, they rebuild a buffer. -/
theorem rebuilds_outline (hsound : b.Sound) (hcoherent : Coherent byValue (nested b)) {bytes : Bytes}
    (hencode : encodeEach (outline byValue b) = .ok bytes) (next : Nat) :
    ∃ c S, Rebuilds ⟨.empty, next⟩ (outline byValue b) c S := by
  obtain ⟨c, S, hc, -, -⟩ := (outlines_outlineEach byValue .empty b).rebuilds hcoherent
    (fun t ht => ht) hsound hencode (Stocked.empty next) (Linked.empty byValue (nested b) next)
  exact ⟨c, S, hc⟩

/-- The buffer that is rebuilt is isomorphic to the saved one exactly if the records by value are those
by token. -/
theorem isomorphic_rebuilt_iff (hsound : b.Sound) (hnumbered : Numbered (nested b))
    (h : Rebuilds ⟨.empty, next⟩ (outline byValue b) c S) :
    Isomorphic b c ↔ outline byValue b = outline byToken b := by
  obtain ⟨hcSound, hcNumbered, -, hrecords⟩ := of_rebuilds_empty h
  -- Both buffers are sound, so being isomorphic is a matter of their records by token.
  rw [isomorphic_iff_outline_eq hsound hcSound hnumbered hcNumbered, hrecords]
  exact eq_comm

/-- If different stored results have different values, sharing by value is sharing by token. -/
theorem outline_eq_of_distinct (hnumbered : Numbered (nested b))
    (hdistinct : ∀ n v e s x, .stored n v e s x ∈ nested b → ∀ n' v' e' s' x',
      .stored n' v' e' s' x' ∈ nested b → v.identity = v'.identity → n = n') :
    outline byValue b = outline byToken b := by
  -- Identities and numbers belong together one to one, as the stored results of the buffer have them.
  let K (k : Identity) (n : Nat) : Prop :=
    ∃ v e s x, .stored n v e s x ∈ nested b ∧ v.identity = k
  have hK : Relator.BiUnique K := by
    constructor
    · rintro k k' n ⟨v, e, s, x, ht, rfl⟩ ⟨v', e', s', x', hu, rfl⟩
      cases hnumbered.eq ht hu
      rfl
    · rintro k n n' ⟨v, e, s, x, ht, rfl⟩ ⟨v', e', s', x', hu, hk⟩
      exact hdistinct n v e s x ht n' v' e' s' x' hu hk.symm
  -- The buffer is alike to itself with identities on one side and numbers on the other.
  have hself : Alike (fun n v m _ => K v.identity m ∧ n = m) b b :=
    Alike.self fun n v e s x ht => ⟨⟨v, e, s, x, ht, rfl⟩, rfl⟩
  obtain ⟨T, hT, -⟩ : ∃ T, Outlines byToken .empty b (outline byValue b) T ∧ Matched K _ T :=
    (outlines_outlineEach byValue .empty b).of_alike hK (by rintro n v m w ⟨hv, rfl⟩; exact hv)
      hself .empty
  exact hT.eq_outline.symm

/-! ## §2 Loaded buffers -/

/-- Saving a loaded buffer and loading it again returns an isomorphic buffer exactly if the records
that saving makes of it, sharing stored results by their values, are those that sharing by the stored
results themselves would make. -/
theorem reload_isomorphic_iff {room : Nat} {bytes : Bytes} {loaded : Loaded}
    (h : loadWithin room bytes next = .ok loaded) (next' : Nat) :
    (∃ saved again, save loaded.buffer = .ok saved
      ∧ loadWithin room saved.bytes next' = .ok again ∧ Isomorphic loaded.buffer again.buffer)
    ↔ outline byValue loaded.buffer = outline byToken loaded.buffer := by
  obtain ⟨rs, S, hrebuilds, hdepth, written, hwritten⟩ := of_loadWithin_ok h
  obtain ⟨hsound, hnumbered, hcoherent, hrecords⟩ := of_rebuilds_empty hrebuilds
  have hreload {bytes : Bytes} (hencode : encodeAll (outline byValue loaded.buffer) = .ok bytes) :
      ∃ c S, Rebuilds ⟨.empty, next'⟩ (outline byValue loaded.buffer) c S := by
    obtain ⟨_, each, -, heach, -⟩ := encodeAll_ok_iff.mp hencode
    exact rebuilds_outline hsound hcoherent heach next'
  constructor
  · rintro ⟨saved, again, hsave, hagain, hiso⟩
    obtain ⟨_, _, houtlines, hencode, -⟩ := save_ok_iff.mp hsave
    rw [← houtlines.eq_outline] at hencode
    obtain ⟨c, S', hc⟩ := hreload hencode
    -- With enough room for these records, loading them returns the buffer they rebuild.
    have hroomy := hc.loadWithin (Nat.lt_succ_of_le (Nat.le_max_right room _)) hencode
    rw [loadWithin_of_le (Nat.le_succ_of_le (Nat.le_max_left room _)) hagain] at hroomy
    obtain rfl : again = _ := Except.ok.inj hroomy
    exact (isomorphic_rebuilt_iff hsound hnumbered hc).mp hiso
  · intro heq
    -- Sharing by value writes the records that the bytes were read from, so they can be written.
    have hencode : encodeAll (outline byValue loaded.buffer) = .ok written := by
      rw [heq, hrecords, hwritten]
    obtain ⟨c, S', hc⟩ := hreload hencode
    have hsave : save loaded.buffer
        = .ok ⟨written, (outlineEach byValue .empty loaded.buffer).2.count⟩ := save_ok_iff.mpr
      ⟨_, _, outlines_outlineEach byValue .empty loaded.buffer, hencode, rfl⟩
    refine ⟨_, _, hsave, hc.loadWithin ?_ hencode,
      (isomorphic_rebuilt_iff hsound hnumbered hc).mpr heq⟩
    rw [heq, hrecords]
    exact hdepth

/-- The constant π as a stored result, with its angle mode and its text. -/
def storedPi (n : Nat) (degrees : Bool) (text : String) : Token :=
  .stored n Constant.pi.value [.symbol .pi] ⟨degrees, 1⟩ (some text)

/-- The bytes of a stored π, a plus, and the same stored π again. -/
def onePi : Bytes :=
  [0, 0, 0, 3,
    2, 0, 0, 0, 1, 0, 0, 0, 1, 1, 0, 0, 0, 60, 0, 0, 1, 97,
    1, 0, 0, 0, 20,
    2, 0, 0, 0, 1]

theorem reload_isomorphic_onePi :
    loadWithin 2 onePi 0 = .ok ⟨[storedPi 0 false "a", .symbol .plus, storedPi 0 false "a"], 1, 1⟩
    ∧ ∃ saved again, save [storedPi 0 false "a", .symbol .plus, storedPi 0 false "a"] = .ok saved
      ∧ loadWithin 2 saved.bytes 9 = .ok again
      ∧ Isomorphic [storedPi 0 false "a", .symbol .plus, storedPi 0 false "a"] again.buffer := by
  have hload : loadWithin 2 onePi 0
      = .ok ⟨[storedPi 0 false "a", .symbol .plus, storedPi 0 false "a"], 1, 1⟩ := rfl
  exact ⟨hload, (reload_isomorphic_iff hload 9).mpr rfl⟩

/-- The bytes of two stored results with the expression π, in different angle modes and with different
texts. -/
def twoPis : Bytes :=
  [0, 0, 0, 2,
    2, 0, 0, 0, 1, 0, 0, 0, 1, 1, 0, 0, 0, 60, 0, 0, 1, 97,
    2, 0, 0, 0, 2, 0, 0, 0, 1, 1, 0, 0, 0, 60, 1, 0, 1, 98]

/-- Both results of `twoPis` have the constant π as their value. Saving merges them, and the second is
lost. -/
theorem reload_merges_twoPis : ∃ loaded saved again, load twoPis 0 = .ok loaded
    ∧ save loaded.buffer = .ok saved ∧ load saved.bytes loaded.next = .ok again
    ∧ loaded.buffer.display = .ok "ab" ∧ again.buffer.display = .ok "aa"
    ∧ ¬ Isomorphic loaded.buffer again.buffer := by
  refine ⟨⟨[storedPi 0 false "a", storedPi 1 true "b"], 2, 2⟩,
    ⟨[0, 0, 0, 2, 2, 0, 0, 0, 1, 0, 0, 0, 1, 1, 0, 0, 0, 60, 0, 0, 1, 97, 2, 0, 0, 0, 1], 1⟩,
    ⟨[storedPi 2 false "a", storedPi 2 false "a"], 1, 3⟩, rfl, rfl, rfl, rfl, rfl, ?_⟩
  rintro ⟨M, -, halike⟩
  cases halike with
  | stored s x hR he hrest => nomatch hrest

end Reckoner.Codec
