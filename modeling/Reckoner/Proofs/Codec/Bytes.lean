import Mathlib.Data.List.Induction
import Reckoner.Codec.Bytes

/-!
# Reading what was written, and writing what was read

Integers and texts have one written form each: a reader takes back what its writer wrote and leaves
the bytes behind it, and what a reader takes is what its writer would have written. Truth values are
taken back too, but any byte other than zero reads as true.
-/

namespace Reckoner.Codec

/-! ## §1 Naturals as bytes -/

@[simp] theorem length_bigEndian (width n : Nat) : (bigEndian width n).length = width := by
  induction width generalizing n with
  | zero => rfl
  | succ width ih => simp [bigEndian, ih]

theorem ofBigEndian_concat (bytes : Bytes) (b : UInt8) :
    ofBigEndian (bytes ++ [b]) = 256 * ofBigEndian bytes + b.toNat := by
  simp [ofBigEndian]

/-- What does not fit into the bytes is lost. -/
theorem ofBigEndian_bigEndian (width n : Nat) :
    ofBigEndian (bigEndian width n) = n % 256 ^ width := by
  induction width generalizing n with
  | zero => simp [bigEndian, ofBigEndian, Nat.mod_one]
  | succ width ih =>
    have hlast : (UInt8.ofNat n).toNat = n % 256 := by simp
    -- The last byte is split off on both sides, and the rest is shorter by one.
    rw [bigEndian, ofBigEndian_concat, ih, hlast, Nat.pow_succ', Nat.mod_mul]
    omega

/-- By induction from the last byte on. -/
theorem bigEndian_ofBigEndian (bytes : Bytes) :
    bigEndian bytes.length (ofBigEndian bytes) = bytes := by
  induction bytes using List.reverseRecOn with
  | nil => rfl
  | append_singleton bytes b ih =>
    -- The last byte is the remainder by 256, and the others are the quotient.
    have hlt := b.toNat_lt
    have hinit : (256 * ofBigEndian bytes + b.toNat) / 256 = ofBigEndian bytes := by omega
    have hlast : UInt8.ofNat (256 * ofBigEndian bytes + b.toNat) = b := by
      apply UInt8.toNat_inj.mp
      simp only [UInt8.toNat_ofNat']
      omega
    rw [List.length_append, List.length_singleton, bigEndian, ofBigEndian_concat, hinit, hlast, ih]

/-- So many bytes only reach so far. -/
theorem ofBigEndian_lt (bytes : Bytes) : ofBigEndian bytes < 256 ^ bytes.length := by
  have h := ofBigEndian_bigEndian bytes.length (ofBigEndian bytes)
  rw [bigEndian_ofBigEndian] at h
  rw [h]
  exact Nat.mod_lt _ (Nat.pow_pos (by decide))

/-! ## §2 Taking bytes -/

theorem take_append {n : Nat} {bytes : Bytes} (h : bytes.length = n) (rest : Bytes) :
    take n (bytes ++ rest) = (.ok bytes, rest) := by
  subst h
  simp [take]

/-- What was taken stood in front, and is as long as was asked for. -/
theorem of_take_ok {n : Nat} {bytes taken rest : Bytes} (h : take n bytes = (.ok taken, rest)) :
    bytes = taken ++ rest ∧ taken.length = n := by
  simp only [take, Prod.mk.injEq] at h
  obtain ⟨htaken, rfl⟩ := h
  split at htaken
  · next hlength =>
    obtain rfl := Except.ok.inj htaken
    exact ⟨(List.take_append_drop n bytes).symm, hlength⟩
  · cases htaken

/-- A reader that changes its result succeeds where the reader does. -/
theorem of_map_ok {α β : Type} {f : α → β} {r : Reader α} {bytes rest : Bytes} {y : β}
    (h : Reader.map f r bytes = (.ok y, rest)) : ∃ x, r bytes = (.ok x, rest) ∧ f x = y := by
  unfold Reader.map at h
  rcases hr : r bytes with ⟨e | x, left⟩
  · rw [hr] at h
    cases h
  · rw [hr] at h
    cases h
    exact ⟨x, rfl, rfl⟩

/-! ## §3 Tags and truth values -/

theorem readByte_cons (b : UInt8) (rest : Bytes) :
    readByte (b :: rest) = (.ok (ofComplement [b]), rest) := by
  rfl

/-- As a complement, a byte from 128 on is negative. -/
theorem ofComplement_singleton (b : UInt8) :
    ofComplement [b] = if 128 ≤ b.toNat then (b.toNat : Int) - 256 else b.toNat := by
  have hvalue : ofBigEndian [b] = b.toNat := by simp [ofBigEndian]
  simp only [ofComplement, hvalue, List.length_singleton]
  by_cases h : 128 ≤ b.toNat
  · rw [if_pos h, if_pos (by omega)]
    rfl
  · rw [if_neg h, if_neg (by omega)]

/-- Tags are written as they are, being small. -/
theorem readByte_writeByteTag {tag : Nat} (h : tag < 128) (rest : Bytes) :
    readByte (UInt8.ofNat tag :: rest) = (.ok (tag : Int), rest) := by
  have hbyte : (UInt8.ofNat tag).toNat = tag := by
    simp only [UInt8.toNat_ofNat']
    omega
  rw [readByte_cons, ofComplement_singleton, hbyte, if_neg (by omega)]

/-- Reading a byte takes a byte away. -/
theorem of_readByte_ok {n : Int} {bytes rest : Bytes} (h : readByte bytes = (.ok n, rest)) :
    ∃ b, bytes = b :: rest := by
  obtain ⟨taken, htake, -⟩ := of_map_ok h
  obtain ⟨rfl, hlength⟩ := of_take_ok htake
  obtain ⟨b, rfl⟩ := List.length_eq_one_iff.mp hlength
  exact ⟨b, rfl⟩

/-- A byte that reads as a tag is that tag. -/
theorem of_readByte_tag {tag : Nat} (h : tag < 128) {bytes rest : Bytes}
    (hread : readByte bytes = (.ok (tag : Int), rest)) : bytes = UInt8.ofNat tag :: rest := by
  obtain ⟨b, rfl⟩ := of_readByte_ok hread
  rw [readByte_cons] at hread
  obtain ⟨hvalue, -⟩ := Prod.mk.inj hread
  have hbyte : ofComplement [b] = (tag : Int) := Except.ok.inj hvalue
  have hnat : b.toNat = tag := by
    have hlt := b.toNat_lt
    rw [ofComplement_singleton] at hbyte
    -- The complement is the tag itself, since a tag is below the bytes that count as negative.
    split at hbyte <;> omega
  rw [← hnat, UInt8.ofNat_toNat]

/-- Any byte other than zero reads as true. -/
theorem of_readBool_ok {x : Bool} {bytes rest : Bytes} (h : readBool bytes = (.ok x, rest)) :
    ∃ b, x = decide (b ≠ 0) ∧ bytes = b :: rest := by
  obtain ⟨n, hn, rfl⟩ := of_map_ok h
  obtain ⟨b, rfl⟩ := of_readByte_ok hn
  refine ⟨b, ?_, rfl⟩
  rw [readByte_cons] at hn
  obtain ⟨hvalue, -⟩ := Prod.mk.inj hn
  obtain rfl : ofComplement [b] = n := Except.ok.inj hvalue
  -- The complement of a byte is zero only for the byte zero.
  have hzero : ofComplement [b] = 0 ↔ b = 0 := by
    have hlt := b.toNat_lt
    rw [ofComplement_singleton, ← UInt8.toNat_inj, UInt8.toNat_zero]
    split <;> omega
  simp only [ne_eq, hzero]

theorem readBool_writeBool (b : Bool) (rest : Bytes) :
    readBool (writeBool b ++ rest) = (.ok b, rest) := by
  cases b <;> rfl

/-! ## §4 Integers -/

/-- A number in the range is the one complement of its remainder that lies in the range. -/
theorem ofComplement_bigEndian {width : Nat} {n : Int} (hlow : -256 ^ width ≤ 2 * n)
    (hhigh : 2 * n < 256 ^ width) : ofComplement (bigEndian width (n % 256 ^ width).toNat) = n := by
  have hcast : (256 ^ width : Int) = (256 ^ width : Nat) := (Int.natCast_pow 256 width).symm
  have hpos : 0 < 256 ^ width := Nat.pow_pos (by decide)
  simp only [ofComplement, ofBigEndian_bigEndian, length_bigEndian]
  rw [hcast] at hlow hhigh ⊢
  generalize 256 ^ width = size at hlow hhigh hpos
  have hnonneg : 0 ≤ n % size := Int.emod_nonneg n (by omega)
  have hless : n % size < size := Int.emod_lt_of_pos n (by omega)
  rw [Nat.mod_eq_of_lt (by omega)]
  -- Negative numbers are shifted up by the size, and taking the complement shifts them back.
  by_cases hnegative : n < 0
  · have hshifted : n % size = n + size := by
      rw [← Int.add_emod_right, Int.emod_eq_of_lt (by omega) (by omega)]
    rw [if_pos (by omega)]
    omega
  · have hkept : n % size = n := Int.emod_eq_of_lt (by omega) (by omega)
    rw [if_neg (by omega)]
    omega

/-- The numbers that can be written as a byte. -/
theorem writeByte_ok_iff (n : Int) : (∃ bytes, writeByte n = .ok bytes) ↔ -128 ≤ n ∧ n < 128 := by
  unfold writeByte
  split
  · next h => exact iff_of_true ⟨_, rfl⟩ h
  · next h => exact iff_of_false nofun h

/-- A number that can be written as a byte is read back. -/
theorem readByte_writeByte {n : Int} {bytes : Bytes} (h : writeByte n = .ok bytes) (rest : Bytes) :
    readByte (bytes ++ rest) = (.ok n, rest) := by
  obtain ⟨hlow, hhigh⟩ := (writeByte_ok_iff n).mp ⟨bytes, h⟩
  unfold writeByte at h
  rw [if_pos ⟨hlow, hhigh⟩] at h
  obtain rfl := Except.ok.inj h
  have hvalue : ofComplement (bigEndian 1 (n % 256).toNat) = n :=
    ofComplement_bigEndian (by omega) (by omega)
  simp only [readByte, Reader.map, take_append (length_bigEndian 1 _), Functor.map, Except.map, hvalue]

/-- Integers take four bytes. -/
theorem length_of_writeInt {n : Int} {bytes : Bytes} (h : writeInt n = .ok bytes) :
    bytes.length = 4 := by
  unfold writeInt at h
  split at h
  · obtain rfl := Except.ok.inj h
    exact length_bigEndian _ _
  · cases h

/-- The integers that can be written. -/
theorem writeInt_ok_iff (n : Int) :
    (∃ bytes, writeInt n = .ok bytes) ↔ -2 ^ 31 ≤ n ∧ n < 2 ^ 31 := by
  unfold writeInt
  split
  · next h => exact ⟨fun _ => h, fun _ => ⟨_, rfl⟩⟩
  · next h => exact ⟨fun ⟨_, hb⟩ => (by cases hb), fun h' => absurd h' h⟩

/-- An integer that can be written is read back, with what follows it left over. -/
theorem readInt_writeInt {n : Int} {bytes : Bytes} (h : writeInt n = .ok bytes) (rest : Bytes) :
    readInt (bytes ++ rest) = (.ok n, rest) := by
  have hlength := length_of_writeInt h
  obtain ⟨hlow, hhigh⟩ := (writeInt_ok_iff n).mp ⟨bytes, h⟩
  unfold writeInt at h
  rw [if_pos ⟨hlow, hhigh⟩] at h
  obtain rfl := Except.ok.inj h
  have hvalue : ofComplement (bigEndian 4 (n % 2 ^ 32).toNat) = n :=
    ofComplement_bigEndian (by omega) (by omega)
  simp only [readInt, Reader.map, take_append hlength, Functor.map, Except.map, hvalue]

/-- An integer that was read is written as the bytes that it was read from. -/
theorem of_readInt_ok {n : Int} {bytes rest : Bytes} (h : readInt bytes = (.ok n, rest)) :
    ∃ written, writeInt n = .ok written ∧ bytes = written ++ rest := by
  obtain ⟨taken, htake, rfl⟩ := of_map_ok h
  obtain ⟨rfl, hlength⟩ := of_take_ok htake
  have hlt := ofBigEndian_lt taken
  -- Four bytes are below `2 ^ 32`, so taking the complement loses nothing.
  have hnat : (ofComplement taken % 2 ^ 32).toNat = ofBigEndian taken := by
    rw [hlength] at hlt
    simp only [ofComplement, hlength]
    split <;> omega
  have hrange : -2 ^ 31 ≤ ofComplement taken ∧ ofComplement taken < 2 ^ 31 := by
    rw [hlength] at hlt
    simp only [ofComplement, hlength]
    split <;> omega
  refine ⟨taken, ?_, rfl⟩
  unfold writeInt
  rw [if_pos hrange, hnat, ← hlength, bigEndian_ofBigEndian]

/-- An integer is told by the bytes that are written for it, and by where they end. -/
theorem writeInt_append_inj {n m : Int} {written written' rest rest' : Bytes}
    (h : writeInt n = .ok written) (h' : writeInt m = .ok written')
    (heq : written ++ rest = written' ++ rest') : n = m ∧ rest = rest' := by
  have hread := readInt_writeInt h rest
  rw [heq, readInt_writeInt h' rest'] at hread
  cases hread
  exact ⟨rfl, rfl⟩

/-! ## §5 Texts -/

/-- The form of a text is the forms of its characters, one after the other. -/
theorem utf8_eq_flatMap (s : String) : utf8 s = s.toList.flatMap String.utf8EncodeChar := by
  rw [utf8, String.toUTF8, ← String.utf8Encode_toList, List.utf8Encode]
  simp

/-- Every character takes a byte at least. -/
theorem length_le_utf8 (s : String) : s.length ≤ (utf8 s).length := by
  rw [utf8_eq_flatMap, ← String.length_toList]
  -- On the characters, none of which is written as nothing.
  induction s.toList with
  | nil => simp
  | cons c cs ih =>
    have hc : 0 < (String.utf8EncodeChar c).length :=
      List.length_pos_iff.mpr String.utf8EncodeChar_ne_nil
    simp only [List.flatMap_cons, List.length_append, List.length_cons]
    omega

/-- A text takes two bytes for its length, and its own bytes. -/
theorem length_of_writeText {s : String} {bytes : Bytes} (h : writeText s = .ok bytes) :
    bytes.length = 2 + (utf8 s).length := by
  simp only [writeText] at h
  split at h
  · obtain rfl := Except.ok.inj h
    simp
  · cases h

/-- The texts that can be written. -/
theorem writeText_ok_iff (s : String) :
    (∃ bytes, writeText s = .ok bytes) ↔ (utf8 s).length ≤ 65535 := by
  simp only [writeText]
  split
  · next h => exact iff_of_true ⟨_, rfl⟩ (Nat.le_of_lt_succ h)
  · next h => exact iff_of_false nofun (fun hle => h (Nat.lt_succ_of_le hle))

/-- The bytes of a text are those of a text. -/
theorem ofUtf8_utf8 (s : String) : ofUtf8 (utf8 s) = .ok s := by
  have hbytes : (⟨(utf8 s).toArray⟩ : ByteArray) = s.toByteArray := by
    simp [utf8]
  unfold ofUtf8
  rw [hbytes]
  unfold String.fromUTF8?
  rw [dif_pos s.isValidUTF8]
  rfl

/-- And no other text has these bytes. -/
theorem utf8_of_ofUtf8 {bytes : Bytes} {s : String} (h : ofUtf8 bytes = .ok s) :
    utf8 s = bytes := by
  unfold ofUtf8 String.fromUTF8? at h
  split at h
  · next t ht =>
    obtain rfl := Except.ok.inj h
    split at ht
    · next hvalid =>
      obtain rfl := Option.some.inj ht
      rfl
    · cases ht
  · cases h

/-- A text that can be written is read back, with what follows it left over. -/
theorem readText_writeText {s : String} {bytes : Bytes} (h : writeText s = .ok bytes)
    (rest : Bytes) : readText (bytes ++ rest) = (.ok s, rest) := by
  simp only [writeText] at h
  split at h
  · next hshort =>
    obtain rfl := Except.ok.inj h
    -- The length fits into the two bytes, or the text would not have been written.
    have hsize : ofBigEndian (bigEndian 2 (utf8 s).length) = (utf8 s).length := by
      rw [ofBigEndian_bigEndian]
      omega
    simp only [readText, List.append_assoc, take_append (length_bigEndian 2 _), hsize,
      take_append rfl]
    simp only [bind, Except.bind, ofUtf8_utf8]
  · cases h

/-- A text is told by the bytes that are written for it, and by where they end. -/
theorem writeText_append_inj {s t : String} {written written' rest rest' : Bytes}
    (h : writeText s = .ok written) (h' : writeText t = .ok written')
    (heq : written ++ rest = written' ++ rest') : s = t ∧ rest = rest' := by
  have hread := readText_writeText h rest
  rw [heq, readText_writeText h' rest'] at hread
  cases hread
  exact ⟨rfl, rfl⟩

/-- A text that was read is written as the bytes that it was read from. -/
theorem of_readText_ok {s : String} {bytes rest : Bytes} (h : readText bytes = (.ok s, rest)) :
    ∃ written, writeText s = .ok written ∧ bytes = written ++ rest := by
  unfold readText at h
  rcases hsize : take 2 bytes with ⟨e | size, left⟩
  · rw [hsize] at h
    cases h
  · rw [hsize] at h
    obtain ⟨rfl, hsizeLength⟩ := of_take_ok hsize
    rcases hbody : take (ofBigEndian size) left with ⟨e | body, left'⟩
    · simp [hbody, bind, Except.bind] at h
    · simp only [hbody, bind, Except.bind, Prod.mk.injEq] at h
      obtain ⟨htext, rfl⟩ := h
      obtain ⟨rfl, hbodyLength⟩ := of_take_ok hbody
      have hutf8 := utf8_of_ofUtf8 htext
      have hlt := ofBigEndian_lt size
      -- The length was read from two bytes, so it can be written in two.
      have hwritten : writeText s = .ok (size ++ body) := by
        simp only [writeText, hutf8, hbodyLength]
        rw [hsizeLength] at hlt
        rw [if_pos (by omega), ← hsizeLength, bigEndian_ofBigEndian]
      exact ⟨size ++ body, hwritten, (List.append_assoc ..).symm⟩

end Reckoner.Codec
