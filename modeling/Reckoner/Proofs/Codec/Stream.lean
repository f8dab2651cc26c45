import Reckoner.Codec.Stream
import Reckoner.Proofs.Codec.Bytes

/-!
# Streams are read as they were written

Each item has a range in which its call succeeds. What such a call puts on the stream is read back as
that item, whatever stands behind it, and so by induction are any number of items. A refused call
leaves no trace: reading what is there gives the items of the other calls.

- `textOf?_eq_some_iff`: which code points make a text;
- `put_ok_iff`: when a call succeeds;
- `get_bytes`: one item is read back;
- `getAll_putAll`: the items of all calls that were not refused are read back;
- `stream_round_trip`: the same for calls that all succeed, with what each call does.
-/

namespace Reckoner.Codec

/-! ## §1 Code points -/

theorem toNat_ofNat {n : Nat} (h : n.isValidChar) : (Char.ofNat n).toNat = n := by
  rw [Char.ofNat, dif_pos h]
  rfl

/-- A code point leads to the character that it is of. -/
theorem charOf?_eq_some_iff {p : CodePoint} {c : Char} : charOf? p = some c ↔ p = codePoint c := by
  unfold charOf?
  constructor
  · intro h
    split at h
    · next hvalid =>
      obtain rfl := Option.some.inj h
      exact Fin.ext (toNat_ofNat hvalid).symm
    · cases h
  · rintro rfl
    -- Characters are never surrogates, so the test on the code point passes.
    have hvalid : (codePoint c).val.isValidChar := c.valid
    rw [if_pos hvalid]
    exact congrArg some (Char.ofNat_toNat c)

/-- So do code points one by one. By induction on them. -/
theorem mapM_charOf?_eq_some_iff {ps : List CodePoint} {cs : List Char} :
    ps.mapM charOf? = some cs ↔ ps = cs.map codePoint := by
  induction ps generalizing cs with
  | nil =>
    cases cs <;> simp
  | cons p ps ih =>
    cases cs with
    | nil => simp [List.mapM_cons, Option.bind_eq_some_iff]
    | cons c cs =>
      simp only [List.mapM_cons, Option.bind_eq_bind, Option.bind_eq_some_iff, Option.pure_def,
        Option.some.injEq, List.cons.injEq, List.map_cons]
      constructor
      · rintro ⟨_, hp, _, hps, rfl, rfl⟩
        exact ⟨charOf?_eq_some_iff.mp hp, ih.mp hps⟩
      · rintro ⟨hp, hps⟩
        exact ⟨c, charOf?_eq_some_iff.mpr hp, cs, ih.mpr hps, rfl, rfl⟩

/-- Code points make a text if they are the code points of its characters. -/
theorem textOf?_eq_some_iff {ps : List CodePoint} {s : String} :
    textOf? ps = some s ↔ ps = codePoints s := by
  unfold textOf? codePoints
  rw [Option.map_eq_some_iff]
  constructor
  · rintro ⟨cs, hcs, rfl⟩
    rw [String.toList_ofList]
    exact mapM_charOf?_eq_some_iff.mp hcs
  · intro h
    exact ⟨s.toList, mapM_charOf?_eq_some_iff.mpr h, String.ofList_toList⟩

/-! ## §2 What can be written -/

/-- The items that can be written. -/
def Item.Fits : Item → Prop
  | .byte n => -128 ≤ n ∧ n < 128
  | .bool _ => True
  | .int n => -2 ^ 31 ≤ n ∧ n < 2 ^ 31
  | .text ps => ∃ s, ps = codePoints s ∧ (utf8 s).length ≤ 65535

variable {x : Item} {bytes : Bytes}

theorem mapError_eq_ok_iff {ε ε' α : Type} {f : ε → ε'} {r : Except ε α} {a : α} :
    r.mapError f = .ok a ↔ r = .ok a := by
  cases r <;> simp [Except.mapError]

/-- Code points are written if they make a text that can be written. -/
theorem text_bytes_eq_ok_iff {ps : List CodePoint} :
    (Item.text ps).bytes = .ok bytes ↔ ∃ s, ps = codePoints s ∧ writeText s = .ok bytes := by
  simp only [Item.bytes]
  constructor
  · intro h
    split at h
    · next s hs => exact ⟨s, textOf?_eq_some_iff.mp hs, mapError_eq_ok_iff.mp h⟩
    · cases h
  · rintro ⟨s, hps, hs⟩
    rw [textOf?_eq_some_iff.mpr hps]
    exact mapError_eq_ok_iff.mpr hs

/-- Items have bytes if they are in range. -/
theorem bytes_ok_iff (x : Item) : (∃ bytes, x.bytes = .ok bytes) ↔ x.Fits := by
  cases x with
  | byte n => simp only [Item.bytes, mapError_eq_ok_iff, writeByte_ok_iff, Item.Fits]
  | bool b => exact iff_of_true ⟨_, rfl⟩ trivial
  | int n => simp only [Item.bytes, mapError_eq_ok_iff, writeInt_ok_iff, Item.Fits]
  | text ps =>
    simp only [text_bytes_eq_ok_iff, Item.Fits, ← writeText_ok_iff]
    constructor
    · rintro ⟨bytes, s, hps, hs⟩
      exact ⟨s, hps, bytes, hs⟩
    · rintro ⟨s, hps, bytes, hs⟩
      exact ⟨bytes, s, hps, hs⟩

theorem put_of_ok (h : x.bytes = .ok bytes) (written : Bytes) :
    put x written = (.ok (), written ++ bytes) := by
  simp only [put, h]

theorem put_of_error {e : CallError} (h : x.bytes = .error e) (written : Bytes) :
    put x written = (.error e, written) := by
  simp only [put, h]

/-- A call succeeds if its item is in range. -/
theorem put_ok_iff (x : Item) (written : Bytes) : (put x written).1 = .ok () ↔ x.Fits := by
  rw [← bytes_ok_iff]
  cases hx : x.bytes with
  | ok bytes => simp [put_of_ok hx]
  | error e => simp [put_of_error hx]

/-- A call that is refused puts nothing on the stream. -/
theorem put_refused {e : CallError} {written : Bytes} (h : (put x written).1 = .error e) :
    (put x written).2 = written := by
  cases hx : x.bytes with
  | ok bytes => simp [put_of_ok hx] at h
  | error e' => rw [put_of_error hx]

/-! ## §3 Reading back -/

/-- An item is read back from its bytes, and what stands behind them is left. -/
theorem get_bytes (h : x.bytes = .ok bytes) (rest : Bytes) :
    get x.kind (bytes ++ rest) = (.ok x, rest) := by
  -- Each kind of item has a reader that takes back what its writer wrote.
  cases x with
  | byte n =>
    simp only [Item.kind, get, Reader.map, readByte_writeByte (mapError_eq_ok_iff.mp h) rest]
    rfl
  | bool b =>
    obtain rfl := Except.ok.inj h
    simp only [Item.kind, get, Reader.map, readBool_writeBool b rest]
    rfl
  | int n =>
    simp only [Item.kind, get, Reader.map, readInt_writeInt (mapError_eq_ok_iff.mp h) rest]
    rfl
  | text ps =>
    obtain ⟨s, rfl, hs⟩ := text_bytes_eq_ok_iff.mp h
    simp only [Item.kind, get, Reader.map, readText_writeText hs rest]
    rfl

open Classical in
/-- What is on the stream after any calls is read back as the items that were not refused. By
induction on the calls, for whatever was written before. -/
theorem getAll_putAll (calls : List Item) (written : Bytes) :
    ∃ bytes, (putAll calls written).2 = written ++ bytes ∧
      ∀ rest, getAll ((calls.filter (·.Fits)).map Item.kind) (bytes ++ rest) =
        (.ok (calls.filter (·.Fits)), rest) := by
  induction calls generalizing written with
  | nil => exact ⟨[], (List.append_nil written).symm, fun _ => rfl⟩
  | cons x calls ih =>
    -- A call in range adds its bytes and is read first; any other leaves no trace.
    by_cases hfits : x.Fits
    · obtain ⟨head, hhead⟩ := (bytes_ok_iff x).mpr hfits
      obtain ⟨tail, htail, hread⟩ := ih (written ++ head)
      refine ⟨head ++ tail, ?_, fun rest => ?_⟩
      · simp only [putAll, put_of_ok hhead, htail, List.append_assoc]
      · rw [List.filter_cons_of_pos (by simpa using hfits), List.map_cons, List.append_assoc]
        simp only [getAll, get_bytes hhead, Reader.map, hread rest]
        rfl
    · obtain ⟨bytes, hbytes, hread⟩ := ih written
      refine ⟨bytes, ?_, ?_⟩
      · have hsame : (put x written).2 = written := by
          cases hx : x.bytes with
          | ok head => exact absurd ((bytes_ok_iff x).mp ⟨head, hx⟩) hfits
          | error e => rw [put_of_error hx]
        simp only [putAll, hsame, hbytes]
      · rw [List.filter_cons_of_neg (by simpa using hfits)]
        exact hread

/-- If all calls succeed, all items are in range. -/
theorem fits_of_putAll_ok {calls : List Item} {written : Bytes}
    (h : ∀ outcome ∈ (putAll calls written).1, outcome = .ok ()) : ∀ x ∈ calls, x.Fits := by
  induction calls generalizing written with
  | nil => simp
  | cons x calls ih =>
    -- The first call succeeds by itself, and the others where it has left the stream.
    simp only [putAll, List.forall_mem_cons] at h
    exact List.forall_mem_cons.mpr ⟨(put_ok_iff x written).mp h.1, ih h.2⟩

/-- Calls that all succeed put bytes behind those that were there from which their items are read
back in order, with all that follows left. Each call succeeds exactly for the items in its range, and
one that is refused leaves the stream as it was. -/
theorem stream_round_trip :
    (∀ (calls : List Item) (written : Bytes),
      (∀ outcome ∈ (putAll calls written).1, outcome = .ok ()) →
        ∃ bytes, (putAll calls written).2 = written ++ bytes ∧
          ∀ rest, getAll (calls.map Item.kind) (bytes ++ rest) = (.ok calls, rest)) ∧
    (∀ (x : Item) (written : Bytes), (put x written).1 = .ok () ↔ x.Fits) ∧
    (∀ (x : Item) (written : Bytes) (e : CallError),
      (put x written).1 = .error e → (put x written).2 = written) := by
  refine ⟨fun calls written hok => ?_, put_ok_iff, fun _ _ _ => put_refused⟩
  obtain ⟨bytes, hbytes, hread⟩ := getAll_putAll calls written
  -- All items are in range, so none of them is left out.
  rw [List.filter_eq_self.mpr (by simpa using fits_of_putAll_ok hok)] at hread
  exact ⟨bytes, hbytes, hread⟩

/-- An item of each kind, with a text of characters that take one, three and four bytes; and, refused,
an integer just out of range and a text that is a surrogate. -/
theorem stream_round_trip_eachKind :
    let calls := [.int (-2 ^ 31), .text (codePoints "n€𝑛"), .bool true, .byte (-1)]
    (∀ outcome ∈ (putAll calls [0]).1, outcome = .ok ()) ∧
    (∃ bytes, (putAll calls [0]).2 = [0] ++ bytes ∧
      getAll (calls.map Item.kind) (bytes ++ [255]) = (.ok calls, [255])) ∧
    ((put (.int (2 ^ 31)) [0]).1 = .error (.writing (.integerRange (2 ^ 31))) ∧
      (put (.int (2 ^ 31)) [0]).2 = [0]) ∧
    ((put (.text [0xD800]) [0]).1 = .error .unencodable ∧ (put (.text [0xD800]) [0]).2 = [0]) := by
  intro calls
  have hok : ∀ outcome ∈ (putAll calls [0]).1, outcome = .ok () := by decide +kernel
  have hint : (put (.int (2 ^ 31)) [0]).1 = .error (.writing (.integerRange (2 ^ 31))) := by
    decide +kernel
  have htext : (put (.text [0xD800]) [0]).1 = .error .unencodable := by decide +kernel
  obtain ⟨bytes, hbytes, hread⟩ := stream_round_trip.1 calls [0] hok
  exact ⟨hok, ⟨bytes, hbytes, hread [255]⟩, ⟨hint, stream_round_trip.2.2 _ _ _ hint⟩,
    ⟨htext, stream_round_trip.2.2 _ _ _ htext⟩⟩

end Reckoner.Codec
