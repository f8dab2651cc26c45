import Reckoner.Codec.Bytes

/-!
# Streams

Items are written and read with one call after the other. A writer puts bytes behind those that were
written before. A call that is refused puts none there, and the calls after it go on as if it had not
been made.

A text comes to a writer as code points. Some of these are no characters but surrogates, and a text
that has such a code point cannot be encoded.
-/

namespace Reckoner.Codec

/-! ## §1 Code points -/

/-- The number of a character or of a surrogate. -/
abbrev CodePoint := Fin 0x110000

def codePoint (c : Char) : CodePoint :=
  ⟨c.toNat, c.valid.elim (Nat.lt_trans · (by decide)) And.right⟩

/-- The character with a number; surrogates are none. -/
def charOf? (p : CodePoint) : Option Char :=
  if p.val.isValidChar then some (Char.ofNat p) else none

/-- The code points of a text. -/
def codePoints (s : String) : List CodePoint :=
  s.toList.map codePoint

/-- The text with given code points, if they are all characters. -/
def textOf? (ps : List CodePoint) : Option String :=
  (ps.mapM charOf?).map String.ofList

/-! ## §2 Items -/

/-- What one call writes or reads. -/
inductive Item where
  | byte (n : Int)
  | bool (b : Bool)
  | int (n : Int)
  | text (ps : List CodePoint)
  deriving DecidableEq, Repr, Inhabited

/-- What kind of item a call is for. -/
inductive ItemKind where
  | byte
  | bool
  | int
  | text
  deriving DecidableEq, Repr, Inhabited

def Item.kind : Item → ItemKind
  | .byte _ => .byte
  | .bool _ => .bool
  | .int _ => .int
  | .text _ => .text

/-! ## §3 Writing -/

/-- Why a call of a writer is refused. -/
inductive CallError where
  | writing (e : WriteError)
  | unencodable
  deriving DecidableEq, Repr, Inhabited

/-- The bytes of an item. -/
def Item.bytes : Item → Except CallError Bytes
  | .byte n => (writeByte n).mapError .writing
  | .bool b => .ok (writeBool b)
  | .int n => (writeInt n).mapError .writing
  | .text ps =>
    match textOf? ps with
    | some s => (writeText s).mapError .writing
    | none => .error .unencodable

/-- Write an item behind what was written before. -/
def put (x : Item) (written : Bytes) : Except CallError Unit × Bytes :=
  match x.bytes with
  | .ok bytes => (.ok (), written ++ bytes)
  | .error e => (.error e, written)

/-- Write items one after the other: what each call came to, and all bytes in the end. -/
def putAll : List Item → Bytes → List (Except CallError Unit) × Bytes
  | [], written => ([], written)
  | x :: xs, written =>
    let (outcome, written) := put x written
    let (outcomes, written) := putAll xs written
    (outcome :: outcomes, written)

/-! ## §4 Reading -/

/-- Read an item of some kind. -/
def get : ItemKind → Reader Item
  | .byte => Reader.map .byte readByte
  | .bool => Reader.map .bool readBool
  | .int => Reader.map .int readInt
  | .text => Reader.map (fun s => .text (codePoints s)) readText

/-- Read items of some kinds one after the other, until one fails. -/
def getAll : List ItemKind → Reader (List Item)
  | [], bytes => (.ok [], bytes)
  | k :: kinds, bytes =>
    match get k bytes with
    | (.ok x, rest) => Reader.map (x :: ·) (getAll kinds) rest
    | (.error e, rest) => (.error e, rest)

end Reckoner.Codec
