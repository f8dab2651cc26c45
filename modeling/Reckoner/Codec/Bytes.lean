import Reckoner.Codec.Error

/-!
# Bytes

Bytes, truth values, integers and texts as they are written, most significant byte first:

- a byte is a number from -128 to 127;
- a truth value is a byte, zero for false;
- an integer takes four bytes, negative ones as complements;
- a text is the length of its UTF-8 form in two bytes, and that form.

A reader takes bytes from the front and also says which bytes are left. One that fails has still
taken what it looked at.
-/

namespace Reckoner.Codec

abbrev Bytes := List UInt8

/-! ## §1 Writing -/

/-- The last `width` bytes of a natural, most significant first. -/
def bigEndian : Nat → Nat → Bytes
  | 0, _ => []
  | width + 1, n => bigEndian width (n / 256) ++ [UInt8.ofNat n]

def writeByte (n : Int) : Except WriteError Bytes :=
  if -128 ≤ n ∧ n < 128 then .ok (bigEndian 1 (n % 256).toNat) else .error .byteRange

def writeBool (b : Bool) : Bytes :=
  [if b then 1 else 0]

def writeInt (n : Int) : Except WriteError Bytes :=
  if -2 ^ 31 ≤ n ∧ n < 2 ^ 31 then .ok (bigEndian 4 (n % 2 ^ 32).toNat)
  else .error (.integerRange n)

/-- The UTF-8 form of a text. -/
def utf8 (s : String) : Bytes :=
  s.toUTF8.data.toList

def writeText (s : String) : Except WriteError Bytes :=
  let bytes := utf8 s
  if bytes.length < 2 ^ 16 then .ok (bigEndian 2 bytes.length ++ bytes) else .error .textTooLong

/-! ## §2 Reading -/

/-- Take something from the front of a byte sequence. -/
abbrev Reader (α : Type) := Bytes → Except FormatError α × Bytes

/-- Take a number of bytes. -/
def take (n : Nat) : Reader Bytes := fun bytes =>
  -- The bytes that are there are gone even if they are too few.
  let taken := bytes.take n
  (if taken.length = n then .ok taken else .error .unexpectedEnd, bytes.drop n)

/-- The natural that bytes make, most significant first. -/
def ofBigEndian (bytes : Bytes) : Nat :=
  bytes.foldl (fun n b => 256 * n + b.toNat) 0

/-- The integer that bytes make as a complement. -/
def ofComplement (bytes : Bytes) : Int :=
  let n := ofBigEndian bytes
  let size := 256 ^ bytes.length
  if size ≤ 2 * n then (n : Int) - size else n

/-- Go on with what a reader took. -/
def Reader.map {α β : Type} (f : α → β) (r : Reader α) : Reader β := fun bytes =>
  let (x, rest) := r bytes
  (f <$> x, rest)

def readByte : Reader Int :=
  Reader.map ofComplement (take 1)

def readBool : Reader Bool :=
  Reader.map (· ≠ 0) readByte

def readInt : Reader Int :=
  Reader.map ofComplement (take 4)

/-- The text whose UTF-8 form bytes are. -/
def ofUtf8 (bytes : Bytes) : Except FormatError String :=
  match String.fromUTF8? ⟨bytes.toArray⟩ with
  | some s => .ok s
  | none => .error .invalidText

def readText : Reader String := fun bytes =>
  match take 2 bytes with
  | (.error e, rest) => (.error e, rest)
  | (.ok size, rest) =>
    let (taken, rest) := take (ofBigEndian size) rest
    (taken >>= ofUtf8, rest)

end Reckoner.Codec
