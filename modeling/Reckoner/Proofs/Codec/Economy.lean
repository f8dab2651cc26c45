import Mathlib.Algebra.Order.BigOperators.Group.List
import Mathlib.Algebra.Order.Group.Nat
import Mathlib.Algebra.Ring.Nat
import Mathlib.Data.List.Perm.Subperm
import Reckoner.Proofs.Codec.Limit
import Reckoner.Proofs.Codec.Placement

/-!
# The size of saved buffers

A stored result may be met in a buffer any number of times, and the buffer grows out of bounds if it is
unfolded. Saving writes it in full once at most, though, and a number of five bytes wherever else it is
met.

- `save_arranged`: the records of a saved buffer are arranged by the values of its stored results;
- `save_writes_once`: so its size is the sum of the sizes of different stored results.
-/

namespace Reckoner.Codec

open Buffer (nested)

/-- A sum over different tokens is no more than one over all of them. -/
theorem sum_map_le_of_subset {A B : List Token} (hA : A.Nodup) (hAB : A ⊆ B) (f : Token → Nat) :
    (A.map f).sum ≤ (B.map f).sum := by
  -- The different tokens are, in some order, a part of all of them.
  obtain ⟨C, hperm, hsublist⟩ := List.subperm_of_subset hA hAB
  calc (A.map f).sum = (C.map f).sum := (hperm.map f).sum_nat.symm
    _ ≤ (B.map f).sum := (hsublist.map f).sum_le_sum fun _ _ => Nat.zero_le _

/-- The records of a saved buffer are arranged by the values of its stored results. -/
theorem save_arranged {b : Buffer} {saved : Saved} (h : save b = .ok saved) :
    ∃ rs A, encodeAll rs = .ok saved.bytes ∧ Arranged (SameKey byValue) b rs A
      ∧ A.length = saved.shared := by
  obtain ⟨rs, T, houtlines, hencode, hshared⟩ := save_ok_iff.mp h
  obtain ⟨A, harranged, hplaced⟩ := houtlines.arranged
  exact ⟨rs, A, hencode, harranged, by rw [← hplaced.count, hshared]⟩

namespace Arranged

variable {R : Token → Token → Prop} {b : Buffer} {rs : List Record} {A : List Token}

/-- If numbers name stored results, those that are written in full have different numbers. -/
theorem nodup_numbers (h : Arranged R b rs A) (hb : Numbered (nested b)) :
    (A.map Token.number?).Nodup :=
  h.nodup.map_on fun u hu t ht heq => hb u (h.subset hu) t (h.subset ht) (h.stands.stored u hu) heq

/-- The size of a buffer is that of its own tokens and of the stored results written in full. -/
theorem length_bytes (h : Arranged R b rs A) {bytes : Bytes} (hencode : encodeAll rs = .ok bytes) :
    bytes.length = 4 + (b.map ownSize).sum + (A.map bodySize).sum := by
  obtain ⟨count, each, hcount, heach, rfl⟩ := encodeAll_ok_iff.mp hencode
  rw [List.length_append, length_of_writeInt hcount, h.stands.length_bytes heach]
  omega

end Arranged

/-- However often stored results are met in a buffer, at whatever depth, and whichever of them share a
value, saving writes each of them in full once at most. These records are numbered from one on, in their
order, and everywhere else five bytes are written: a tag and the number of a record that is complete and
has the same value. So the size is the sum of the sizes of different stored results, and bounded by that
of all which are met. -/
theorem save_writes_once {room : Option Nat} {b : Buffer} {saved : Saved}
    (h : saveWithin room b = .ok saved) :
    ∃ rs A, encodeAll rs = .ok saved.bytes ∧ Arranged (SameKey byValue) b rs A
      ∧ A.length = saved.shared
      ∧ (Numbered (nested b) → (A.map Token.number?).Nodup)
      ∧ numbersEach rs = (List.range' 1 A.length).map Int.ofNat
      ∧ (∀ i bytes, encode (.reference i) = .ok bytes → bytes.length = 5)
      ∧ saved.bytes.length = 4 + (b.map ownSize).sum + (A.map bodySize).sum
      ∧ ∀ B : List Token, (∀ t ∈ nested b, t.number?.isSome = true → t ∈ B) →
          saved.bytes.length ≤ 4 + (b.map ownSize).sum + (B.map bodySize).sum := by
  obtain ⟨rs, A, hencode, harranged, hshared⟩ := save_arranged (save_of_saveWithin h)
  have hlength := harranged.length_bytes hencode
  refine ⟨rs, A, hencode, harranged, hshared, harranged.nodup_numbers, harranged.numbersEach_eq,
    fun i bytes hi => length_of_encode_reference hi, hlength, fun B hB => ?_⟩
  -- Every stored result that is written in full is met in the buffer.
  have hAB : A ⊆ B := fun u hu => hB u (harranged.subset hu) (harranged.stands.stored u hu)
  have hsum := sum_map_le_of_subset harranged.nodup hAB bodySize
  omega

/-- A stored one, and so many others that each add the one before to itself. -/
def doubled : Nat → Token
  | 0 => .stored 0 ⟨1, .result 0⟩ [.literal ⟨"1", "", false, 0⟩] ⟨false, 1⟩ (some "1")
  | n + 1 =>
    .stored (n + 1) ⟨.ofRatio (2 ^ (n + 1)) 1, .result (n + 1)⟩
      [doubled n, .symbol .plus, doubled n] ⟨false, 3⟩ (some "d")

/-- The stored results in a doubled one are those that were doubled before. By induction on how often. -/
theorem mem_nested_doubled {n : Nat} {t : Token} (h : t ∈ nested [doubled n])
    (hstored : t.number?.isSome = true) : ∃ m ≤ n, t = doubled m := by
  induction n with
  | zero =>
    simp only [doubled, Buffer.nested_stored, Buffer.nested_literal, Buffer.nested_nil,
      List.append_nil, List.mem_cons, List.not_mem_nil, or_false] at h
    rcases h with rfl | rfl
    · exact ⟨0, Nat.le_refl 0, rfl⟩
    · cases hstored
  | succ n ih =>
    have hinner : t ∈ nested [doubled n] → ∃ m ≤ n + 1, t = doubled m := fun h => by
      obtain ⟨m, hm, heq⟩ := ih h
      exact ⟨m, Nat.le_succ_of_le hm, heq⟩
    rw [doubled, Buffer.nested_stored, Buffer.nested_nil, List.append_nil] at h
    rcases List.mem_cons.mp h with rfl | h
    · exact ⟨n + 1, Nat.le_refl _, rfl⟩
    · rw [show [doubled n, .symbol .plus, doubled n] = [doubled n] ++ [.symbol .plus] ++ [doubled n]
        from rfl, Buffer.nested_append, Buffer.nested_append] at h
      -- h#1 | It is on the left of the plus, the plus, or on the right.
      rcases List.mem_append.mp h with h | h
      · rcases List.mem_append.mp h with h | h
        · exact hinner h
        · obtain rfl := List.mem_singleton.mp h
          cases hstored
      · exact hinner h

/-- Doubled three times, a stored result is met eight times, but only the four different ones count. -/
theorem save_writes_once_doubled : ∃ saved rs A,
    saveWithin (some deepestWriting) [doubled 3] = .ok saved
    ∧ encodeAll rs = .ok saved.bytes ∧ Arranged (SameKey byValue) [doubled 3] rs A
    ∧ A.length = 4 ∧ numbersEach rs = [1, 2, 3, 4]
    ∧ (nested [doubled 3]).countP (·.number?.isSome) = 15
    ∧ saved.bytes.length = 9 + (A.map bodySize).sum
    ∧ saved.bytes.length ≤ 9 + (((List.range 4).map doubled).map bodySize).sum := by
  have hsave : ∃ saved, saveWithin (some deepestWriting) [doubled 3] = .ok saved
      ∧ saved.shared = 4 := ⟨_, rfl, rfl⟩
  obtain ⟨saved, hsave, hshared⟩ := hsave
  obtain ⟨rs, A, hencode, harranged, hcount, -, hnumbers, -, hlength, hbound⟩ := save_writes_once hsave
  rw [hshared] at hcount
  rw [hcount] at hnumbers
  refine ⟨saved, rs, A, hsave, hencode, harranged, hcount, hnumbers, by decide, hlength, ?_⟩
  -- The four stored results are all that is met, so the sum over them is the bound.
  refine hbound _ fun t ht hstored => ?_
  obtain ⟨m, hm, rfl⟩ := mem_nested_doubled ht hstored
  exact List.mem_map_of_mem (List.mem_range.mpr (Nat.lt_succ_of_le hm))

end Reckoner.Codec
