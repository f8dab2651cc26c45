import Reckoner.Proofs.Buffer.Soundness
import Reckoner.Proofs.Codec.Spelling

/-!
# Rebuilding tokens from records

Loading does the two things that saving does, the other way round: it finds the records in the bytes,
and it makes tokens of them. `Rebuilds` is the second part alone. It relates records to the tokens that
they are for, with the stored results at hand before and after.

- `Rebuilds.readNested`: if records rebuild tokens, loading their bytes returns these tokens;
- `of_readNested_ok`: whatever loading returns was rebuilt from records that the bytes spell;
- `Rebuilds.loadWithin` and `spells_of_loadWithin_ok` say the same of whole buffers;
- `loadWithin_of_le`: room for deeper nesting changes nothing for what can be loaded without.

Bytes are read back with anything behind them, and the room for nested records is any that suffices.
-/

namespace Reckoner.Codec

/-! ## §1 Stored results at hand -/

namespace Received

variable {τ : Type}

/-- Entries under other keys do not matter for a key. -/
theorem lookup_filter_ne {n m : Int} (h : m ≠ n) (entries : List (Int × τ)) :
    (entries.filter fun entry => entry.1 ≠ n).lookup m = entries.lookup m := by
  induction entries with
  | nil => rfl
  | cons entry rest ih =>
    obtain ⟨k, y⟩ := entry
    by_cases hk : k = n
    · have hm : (m == k) = false := beq_eq_false_iff_ne.mpr (hk ▸ h)
      rw [List.filter_cons_of_neg (by simp [hk]), ih, List.lookup_cons, hm]
    · rw [List.filter_cons_of_pos (by simp [hk]), List.lookup_cons, List.lookup_cons, ih]

/-- What was put last is what is there under its number. -/
theorem get_put (t : Received τ) (n m : Int) (x : τ) :
    (t.put n x).get m = if m = n then some x else t.get m := by
  unfold Received.get Received.put
  by_cases h : m = n
  · rw [if_pos h, h, List.lookup_cons_self]
  · rw [if_neg h, List.lookup_cons, beq_eq_false_iff_ne.mpr h]
    exact lookup_filter_ne h t.rebuilt

/-- The number that is claimed must be the next one. -/
theorem claim_ok_iff {t t' : Received τ} {n : Int} :
    t.claim n = .ok t' ↔ n = t.highest + 1 ∧ t' = { t with highest := n } := by
  unfold claim
  split
  · next h => exact ⟨fun ht => ⟨h, (Except.ok.inj ht).symm⟩, fun ht => by rw [ht.2]⟩
  · next h => exact ⟨fun ht => (by cases ht), fun ht => absurd ht.1 h⟩

end Received

/-- The stored results rebuilt so far, and the number of the next one. -/
structure Shelf where
  table : Received Token
  next : Nat

namespace Shelf

/-- What was rebuilt for a number of a record. -/
def get (S : Shelf) (i : Int) : Option Token :=
  S.table.get i

/-- The highest number of a record so far. -/
def highest (S : Shelf) : Int :=
  S.table.highest

/-- Begin the next record. -/
def claim (S : Shelf) : Shelf :=
  { S with table := { S.table with highest := S.table.highest + 1 } }

/-- Remember what was rebuilt for a record. -/
def put (S : Shelf) (i : Int) (t : Token) : Shelf :=
  ⟨S.table.put i t, S.next + 1⟩

/-- The stored result that is made of an expression and what it evaluates to. -/
def make (S : Shelf) (e : Buffer) (x : Operand) (degrees : Bool) (text : String) : Token :=
  e.abbreviated S.next (x.keep S.next) degrees (some text)

/-- What loading keeps when it stands before some bytes. -/
def before (S : Shelf) (bytes : Bytes) : Progress :=
  ⟨bytes, S.table, S.next⟩

@[simp] theorem highest_claim (S : Shelf) : S.claim.highest = S.highest + 1 := rfl

@[simp] theorem next_claim (S : Shelf) : S.claim.next = S.next := rfl

theorem get_put (S : Shelf) (i j : Int) (t : Token) :
    (S.put i t).get j = if j = i then some t else S.get j :=
  Received.get_put S.table i j t

@[simp] theorem highest_put (S : Shelf) (i : Int) (t : Token) :
    (S.put i t).highest = S.highest := rfl

@[simp] theorem next_put (S : Shelf) (i : Int) (t : Token) : (S.put i t).next = S.next + 1 := rfl

end Shelf

/-- The stored results at hand while loading. -/
def Progress.shelf (p : Progress) : Shelf :=
  ⟨p.table, p.next⟩

/-! ## §2 Rebuilding -/

/-- The tokens that records are for, given the stored results at hand before and after. A reference
stands for the very token that was rebuilt for its number; a full record makes a new token, whose value
is what its expression evaluates to. -/
inductive Rebuilds : Shelf → List Record → List Token → Shelf → Prop where
  | nil (S : Shelf) : Rebuilds S [] [] S
  | literal {S S' : Shelf} {rs : List Record} {ts : List Token} (l : Literal) (h : l.WellFormed) :
      Rebuilds S rs ts S' → Rebuilds S (.literal l :: rs) (.literal l :: ts) S'
  | operator {S S' : Shelf} {rs : List Record} {ts : List Token} {n : Int} {s : Symbol}
      (h : Symbol.ofCode? n = some s) :
      Rebuilds S rs ts S' → Rebuilds S (.operator n :: rs) (.symbol s :: ts) S'
  | known {S S' : Shelf} {rs : List Record} {ts : List Token} {i : Int} {t : Token}
      (h : S.get i = some t) :
      Rebuilds S rs ts S' → Rebuilds S (.reference i :: rs) (t :: ts) S'
  | fresh {S S₁ S₂ : Shelf} {inner rs : List Record} {e : Buffer} {ts : List Token} {x : Operand}
      {degrees : Bool} (text : String) (h : S.get (S.highest + 1) = none) :
      Rebuilds S.claim inner e S₁ →
      e.evaluatePrefix ⟨degrees, e.length⟩ = .ok (e.length, x) →
      Rebuilds (S₁.put (S.highest + 1) (S₁.make e x degrees text)) rs ts S₂ →
      Rebuilds S (.full (S.highest + 1) inner degrees (some text) :: rs)
        (S₁.make e x degrees text :: ts) S₂

/-- Every record makes one token. -/
theorem Rebuilds.length_eq {S S' : Shelf} {rs : List Record} {ts : List Token}
    (h : Rebuilds S rs ts S') : ts.length = rs.length := by
  induction h with
  | nil S => rfl
  | literal l _ _ ih => simp only [List.length_cons, ih]
  | operator _ _ ih => simp only [List.length_cons, ih]
  | known _ _ ih => simp only [List.length_cons, ih]
  | fresh _ _ _ _ _ _ ih => simp only [List.length_cons, ih]

/-- Rebuilding some tokens and then others. -/
theorem Rebuilds.append {S S₁ S₂ : Shelf} {rs rs' : List Record} {ts us : List Token}
    (h : Rebuilds S rs ts S₁) (h' : Rebuilds S₁ rs' us S₂) :
    Rebuilds S (rs ++ rs') (ts ++ us) S₂ := by
  induction h with
  | nil S => exact h'
  | literal l hl _ ih => exact .literal l hl (ih h')
  | operator hn _ ih => exact .operator hn (ih h')
  | known hget _ ih => exact .known hget (ih h')
  | fresh text hget hinner hx _ _ ih => exact .fresh text hget hinner hx (ih h')

/-- What is rebuilt from records is rebuilt from the first ones and then from the others. -/
theorem Rebuilds.of_append {S S' : Shelf} {rs rs' : List Record} {ts : List Token}
    (h : Rebuilds S (rs ++ rs') ts S') : ∃ ts₁ ts₂ S₁, ts = ts₁ ++ ts₂ ∧ Rebuilds S rs ts₁ S₁
    ∧ Rebuilds S₁ rs' ts₂ S' := by
  induction rs generalizing S ts with
  | nil => exact ⟨[], ts, S, rfl, .nil S, h⟩
  | cons r rs ih =>
    -- Whichever record is first, it makes the first token, and the shelf that it leaves is where the rest
    -- starts.
    cases h with
    | literal l hl h =>
      obtain ⟨ts₁, ts₂, S₁, rfl, h₁, h₂⟩ := ih h
      exact ⟨_ :: ts₁, ts₂, S₁, rfl, .literal l hl h₁, h₂⟩
    | operator hn h =>
      obtain ⟨ts₁, ts₂, S₁, rfl, h₁, h₂⟩ := ih h
      exact ⟨_ :: ts₁, ts₂, S₁, rfl, .operator hn h₁, h₂⟩
    | known hget h =>
      obtain ⟨ts₁, ts₂, S₁, rfl, h₁, h₂⟩ := ih h
      exact ⟨_ :: ts₁, ts₂, S₁, rfl, .known hget h₁, h₂⟩
    | fresh text hget hinner hx h =>
      obtain ⟨ts₁, ts₂, S₁, rfl, h₁, h₂⟩ := ih h
      exact ⟨_ :: ts₁, ts₂, S₁, rfl, .fresh text hget hinner hx h₁, h₂⟩

/-! ## §3 Loading what was encoded -/

theorem Shelf.read_before {α : Type} {r : Reader α} {bytes rest : Bytes} {x : α} (S : Shelf)
    (h : r bytes = (.ok x, rest)) : (S.before bytes).read r = .ok (x, S.before rest) := by
  unfold Progress.read Shelf.before
  rw [h]

/-- The tag of a token decides how it is read. -/
theorem readToken_writeTag {tag : Nat} (htag : tag < 128) (readExpr : Loading Buffer) (S : Shelf)
    (bytes : Bytes) : readToken readExpr (S.before (writeTag tag ++ bytes))
      = if (tag : Int) = Token.literalTag then readLiteral (S.before bytes)
        else if (tag : Int) = Token.operatorTag then readOperator (S.before bytes)
        else if (tag : Int) = Token.storedTag then readStored readExpr (S.before bytes)
        else malformed (.unknownTag tag) := by
  have hread : readByte (writeTag tag ++ bytes) = (.ok (tag : Int), bytes) :=
    readByte_writeByteTag htag bytes
  -- Tags are below 128, so they are read as they were written.
  rw [readToken, S.read_before hread]
  rfl

/-- The bytes of a literal are read as this literal. -/
theorem readToken_literal {l : Literal} (hl : l.WellFormed) {bytes : Bytes}
    (h : encode (.literal l) = .ok bytes) (readExpr : Loading Buffer) (S : Shelf) (tail : Bytes) :
    readToken readExpr (S.before (bytes ++ tail)) = .ok (.literal l, S.before tail) := by
  simp only [encode, writeLiteral, bind_ok_iff, return_ok_iff] at h
  obtain ⟨_, ⟨whole, hwhole, fraction, hfraction, exponent, hexponent, rfl⟩, rfl⟩ := h
  rw [List.append_assoc, readToken_writeTag (by decide), if_pos rfl]
  simp only [List.append_assoc, readLiteral, S.read_before (readText_writeText hwhole _), ok_bind,
    S.read_before (readBool_writeBool _ _), S.read_before (readText_writeText hfraction _),
    S.read_before (readInt_writeInt hexponent _), (literalFault_eq_none_iff l).mpr hl]
  rfl

/-- The bytes of an operator are read as this operator. -/
theorem readToken_operator {n : Int} {s : Symbol} (hs : Symbol.ofCode? n = some s) {bytes : Bytes}
    (h : encode (.operator n) = .ok bytes) (readExpr : Loading Buffer) (S : Shelf) (tail : Bytes) :
    readToken readExpr (S.before (bytes ++ tail)) = .ok (.symbol s, S.before tail) := by
  simp only [encode, bind_ok_iff, return_ok_iff] at h
  obtain ⟨number, hnumber, rfl⟩ := h
  rw [List.append_assoc, readToken_writeTag (by decide), if_neg (by decide), if_pos rfl]
  simp only [readOperator, S.read_before (readInt_writeInt hnumber _), ok_bind, hs]
  rfl

/-- A number on the shelf is read as what is there. -/
theorem readToken_reference {i : Int} {t : Token} {S : Shelf} (ht : S.get i = some t)
    {bytes : Bytes} (h : encode (.reference i) = .ok bytes) (readExpr : Loading Buffer)
    (tail : Bytes) : readToken readExpr (S.before (bytes ++ tail)) = .ok (t, S.before tail) := by
  simp only [encode, bind_ok_iff, return_ok_iff] at h
  obtain ⟨number, hnumber, rfl⟩ := h
  have hget : (S.before tail).table.get i = some t := ht
  rw [List.append_assoc, readToken_writeTag (by decide), if_neg (by decide), if_neg (by decide),
    if_pos rfl]
  simp only [readStored, S.read_before (readInt_writeInt hnumber _), ok_bind, hget]
  rfl

/-- An expression that is evaluated as a whole has a value. -/
theorem evaluateStored_eq_ok {e : Buffer} {degrees : Bool} {x : Operand}
    (h : e.evaluatePrefix ⟨degrees, e.length⟩ = .ok (e.length, x)) (i : Int) :
    evaluateStored i e degrees = .ok x := by
  unfold evaluateStored
  rw [h]
  exact if_pos rfl

/-- A full record is read as its expression is read, which must leave what follows. Then its value is
found, or the error that there is instead. -/
theorem readToken_full {S S₁ : Shelf} {inner : List Record} {e : Buffer}
    {degrees : Bool} {text : String} {readExpr : Loading Buffer} {bytes : Bytes}
    (hnone : S.get (S.highest + 1) = none)
    (h : encode (.full (S.highest + 1) inner degrees (some text)) = .ok bytes)
    (hread : ∀ each, encodeAll inner = .ok each → ∀ rest,
      readExpr (S.claim.before (each ++ rest)) = .ok (e, S₁.before rest)) (tail : Bytes) :
    readToken readExpr (S.before (bytes ++ tail))
      = (evaluateStored (S.highest + 1) e degrees).map fun x => (S₁.make e x degrees text,
        (S₁.put (S.highest + 1) (S₁.make e x degrees text)).before tail) := by
  obtain ⟨number, each, written, hnumber, heach, hwritten, rfl⟩ := encode_full_ok_iff.mp h
  have hget (bytes : Bytes) : (S.before bytes).table.get (S.highest + 1) = none := hnone
  have hclaim (bytes : Bytes) :
      (S.before bytes).table.claim (S.highest + 1) = .ok S.claim.table :=
    Received.claim_ok_iff.mpr ⟨rfl, rfl⟩
  have hexpr (rest : Bytes) :
      readExpr { S.before (each ++ rest) with table := S.claim.table }
        = .ok (e, S₁.before rest) := hread each heach rest
  simp only [List.append_assoc]
  rw [readToken_writeTag (by decide), if_neg (by decide), if_neg (by decide), if_pos rfl]
  simp only [readStored, S.read_before (readInt_writeInt hnumber _), ok_bind, hget, hclaim,
    Except.mapError, hexpr, S₁.read_before (readBool_writeBool _ _),
    S₁.read_before (readText_writeText hwritten _)]
  rfl

/-- The count says how many tokens are to be read. -/
theorem readCounted_encodeAll {readOne : Loading Token} {rs : List Record} {ts : Buffer}
    {S S' : Shelf} (hread : ∀ each, encodeEach rs = .ok each → ∀ rest,
      readEach readOne rs.length (S.before (each ++ rest)) = .ok (ts, S'.before rest))
    {bytes : Bytes} (h : encodeAll rs = .ok bytes) (tail : Bytes) :
    readCounted readOne (S.before (bytes ++ tail)) = .ok (ts, S'.before tail) := by
  obtain ⟨count, each, hcount, heach, rfl⟩ := encodeAll_ok_iff.mp h
  simp only [readCounted, List.append_assoc, S.read_before (readInt_writeInt hcount _), ok_bind]
  rw [if_neg (by omega), Int.toNat_natCast]
  exact hread each heach tail

/-- One token more. -/
theorem readEach_succ_eq_ok {α : Type} {readOne : Loading α} {n : Nat} {p p₁ p₂ : Progress} {x : α}
    {xs : List α} (h : readOne p = .ok (x, p₁)) (hs : readEach readOne n p₁ = .ok (xs, p₂)) :
    readEach readOne (n + 1) p = .ok (x :: xs, p₂) := by
  simp only [readEach, h, hs, ok_bind]
  rfl

/-- If records rebuild tokens, reading their bytes returns these tokens. -/
theorem Rebuilds.readEach {S S' : Shelf} {rs : List Record} {ts : List Token}
    (h : Rebuilds S rs ts S') {room : Nat} (hroom : depthEach rs ≤ room) {bytes : Bytes}
    (hencode : encodeEach rs = .ok bytes) (tail : Bytes) :
    readEach (readToken (readNested room)) rs.length (S.before (bytes ++ tail))
      = .ok (ts, S'.before tail) := by
  -- On the rebuilding: every record takes its bytes from the front, and the shelf that it leaves is where
  -- the next starts.
  induction h generalizing room bytes tail with
  | nil S =>
    obtain rfl := Except.ok.inj hencode
    rfl
  | literal l hl _ ih =>
    obtain ⟨first, rest, hfirst, hrest, rfl⟩ := encodeEach_cons_ok_iff.mp hencode
    have hroom' := Nat.le_trans (Nat.le_max_right _ _) hroom
    rw [List.append_assoc]
    exact readEach_succ_eq_ok (readToken_literal hl hfirst _ _ _) (ih hroom' hrest tail)
  | operator hn _ ih =>
    obtain ⟨first, rest, hfirst, hrest, rfl⟩ := encodeEach_cons_ok_iff.mp hencode
    have hroom' := Nat.le_trans (Nat.le_max_right _ _) hroom
    rw [List.append_assoc]
    exact readEach_succ_eq_ok (readToken_operator hn hfirst _ _ _) (ih hroom' hrest tail)
  | known hget _ ih =>
    obtain ⟨first, rest, hfirst, hrest, rfl⟩ := encodeEach_cons_ok_iff.mp hencode
    have hroom' := Nat.le_trans (Nat.le_max_right _ _) hroom
    rw [List.append_assoc]
    exact readEach_succ_eq_ok (readToken_reference hget hfirst _ _) (ih hroom' hrest tail)
  | @fresh S S₁ S₂ inner rs e ts x degrees text hget _ hx _ ihinner ih =>
    obtain ⟨first, rest, hfirst, hrest, rfl⟩ := encodeEach_cons_ok_iff.mp hencode
    have hroom' := Nat.le_trans (Nat.le_max_right _ _) hroom
    have hinner := Nat.le_trans (Nat.le_max_left _ _) hroom
    -- A full record takes one level, so there is room for at least one.
    obtain ⟨room, rfl⟩ : ∃ below, room = below + 1 := ⟨room - 1, by simp only [depth] at hinner; omega⟩
    have hinner' := Nat.le_of_succ_le_succ hinner
    have hread (each : Bytes) (heach : encodeAll inner = .ok each) (rest : Bytes) :
        readNested (room + 1) (S.claim.before (each ++ rest)) = .ok (e, S₁.before rest) :=
      readCounted_encodeAll (fun each heach rest => ihinner hinner' heach rest) heach rest
    have hfull (rest : Bytes) := readToken_full hget hfirst hread rest
    simp only [evaluateStored_eq_ok hx] at hfull
    rw [List.append_assoc]
    exact readEach_succ_eq_ok (hfull _) (ih hroom' hrest tail)

/-- If the records of a buffer rebuild tokens, loading their bytes returns these tokens. -/
theorem Rebuilds.readNested {S S' : Shelf} {rs : List Record} {ts : List Token}
    (h : Rebuilds S rs ts S') {room : Nat} (hroom : depthEach rs < room) {bytes : Bytes}
    (hencode : encodeAll rs = .ok bytes) (tail : Bytes) :
    readNested room (S.before (bytes ++ tail)) = .ok (ts, S'.before tail) := by
  obtain ⟨below, rfl⟩ : ∃ below, room = below + 1 := ⟨room - 1, by omega⟩
  exact readCounted_encodeAll
    (fun each heach rest => h.readEach (Nat.le_of_lt_succ hroom) heach rest) hencode tail

/-! ## §4 Records of what was loaded -/

namespace Progress

/-- Whatever is read, the shelf stays. -/
theorem of_read_ok {α : Type} {p p' : Progress} {r : Reader α} {x : α}
    (h : p.read r = .ok (x, p')) : r p.bytes = (.ok x, p'.bytes) ∧ p'.shelf = p.shelf := by
  unfold Progress.read at h
  rcases hr : r p.bytes with ⟨e | y, rest⟩
  · rw [hr] at h
    cases h
  · rw [hr] at h
    cases h
    exact ⟨rfl, rfl⟩

/-- An integer was taken in its written form. -/
theorem of_readInt_ok {p p' : Progress} {n : Int} (h : p.read readInt = .ok (n, p')) :
    (∃ written, writeInt n = .ok written ∧ p.bytes = written ++ p'.bytes)
      ∧ p'.shelf = p.shelf := by
  obtain ⟨hread, hshelf⟩ := of_read_ok h
  exact ⟨Codec.of_readInt_ok hread, hshelf⟩

/-- A text was taken in its written form. -/
theorem of_readText_ok {p p' : Progress} {s : String} (h : p.read readText = .ok (s, p')) :
    (∃ written, writeText s = .ok written ∧ p.bytes = written ++ p'.bytes)
      ∧ p'.shelf = p.shelf := by
  obtain ⟨hread, hshelf⟩ := of_read_ok h
  exact ⟨Codec.of_readText_ok hread, hshelf⟩

theorem of_readBool_ok {p p' : Progress} {x : Bool} (h : p.read readBool = .ok (x, p')) :
    (∃ b, x = decide (b ≠ 0) ∧ p.bytes = b :: p'.bytes) ∧ p'.shelf = p.shelf := by
  obtain ⟨hread, hshelf⟩ := of_read_ok h
  exact ⟨Codec.of_readBool_ok hread, hshelf⟩

/-- A tag was taken from the front. -/
structure Tagged (tag : Nat) (p p' : Progress) : Prop where
  bytes : p.bytes = writeTag tag ++ p'.bytes
  shelf : p'.shelf = p.shelf

theorem of_readByte_ok {tag : Nat} (htag : tag < 128) {p p' : Progress}
    (h : p.read readByte = .ok ((tag : Int), p')) : Tagged tag p p' := by
  obtain ⟨hread, hshelf⟩ := of_read_ok h
  exact ⟨of_readByte_tag htag hread, hshelf⟩

end Progress

open Progress (Tagged)

/-- A token that was taken from the front of the bytes: one record is spelled there, which is nested no
more deeply than `room` and rebuilds the token. -/
def TakenToken (room : Nat) (p : Progress) (t : Token) (p' : Progress) : Prop :=
  ∃ r truths taken, Rebuilds p.shelf [r] [t] p'.shelf ∧ depth r ≤ room
    ∧ Spells [r] truths taken ∧ p.bytes = taken ++ p'.bytes

/-- A buffer that was taken from the front of the bytes: the records of a buffer are spelled there, which
are nested less deeply than `room` and rebuild the buffer. -/
def TakenBuffer (room : Nat) (p : Progress) (b : Buffer) (p' : Progress) : Prop :=
  ∃ rs truths taken, Rebuilds p.shelf rs b p'.shelf ∧ depthEach rs < room
    ∧ SpellsAll rs truths taken ∧ p.bytes = taken ++ p'.bytes

/-- A literal that was read is spelled by the bytes, and well formed. -/
theorem of_readLiteral_ok {p₀ p p' : Progress} {t : Token} (h₀ : Tagged Token.literalTag p₀ p)
    (h : readLiteral p = .ok (t, p')) (room : Nat) : TakenToken room p₀ t p' := by
  simp only [readLiteral, bind_ok_iff] at h
  obtain ⟨⟨whole, p₁⟩, hwhole, ⟨point, p₂⟩, hpoint, ⟨fraction, p₃⟩, hfraction, ⟨exponent, p₄⟩,
    hexponent, h⟩ := h
  obtain ⟨⟨w₁, hw₁, hb₁⟩, h₁⟩ := Progress.of_readText_ok hwhole
  obtain ⟨⟨b, rfl, hb₂⟩, h₂⟩ := Progress.of_readBool_ok hpoint
  obtain ⟨⟨w₃, hw₃, hb₃⟩, h₃⟩ := Progress.of_readText_ok hfraction
  obtain ⟨⟨w₄, hw₄, hb₄⟩, h₄⟩ := Progress.of_readInt_ok hexponent
  split at h
  · cases h
  · next hfault =>
    cases h
    have hshelf : p₄.shelf = p₀.shelf := by rw [h₄, h₃, h₂, h₁, h₀.shelf]
    let l : Literal := ⟨whole, fraction, decide (b ≠ 0), exponent⟩
    have hspells : Spells [.literal l] [b]
        (writeTag Token.literalTag ++ (w₁ ++ [b] ++ w₃ ++ w₄) ++ []) :=
      .literal hw₁ rfl hw₃ hw₄ .nil
    refine ⟨_, _, _, ?_, Nat.zero_le _, hspells, ?_⟩
    · rw [hshelf]
      exact .literal l ((literalFault_eq_none_iff l).mp hfault) (.nil _)
    · dsimp only at hb₂ hb₃ hb₄
      simp [h₀.bytes, hb₁, hb₂, hb₃, hb₄]

/-- An operator that was read is spelled by the bytes, and a key. -/
theorem of_readOperator_ok {p₀ p p' : Progress} {t : Token} (h₀ : Tagged Token.operatorTag p₀ p)
    (h : readOperator p = .ok (t, p')) (room : Nat) : TakenToken room p₀ t p' := by
  simp only [readOperator, bind_ok_iff] at h
  obtain ⟨⟨n, p₁⟩, hn, h⟩ := h
  obtain ⟨⟨w, hw, hb⟩, hshelf⟩ := Progress.of_readInt_ok hn
  split at h
  · next s hs =>
    cases h
    refine ⟨_, _, _, ?_, Nat.zero_le _, .operator hw .nil, ?_⟩
    · rw [hshelf, h₀.shelf]
      exact .operator hs (.nil _)
    · simp [h₀.bytes, hb]
  · cases h

/-- There is a value only where the expression was evaluated as a whole. -/
theorem of_evaluateStored_ok {i : Int} {e : Buffer} {degrees : Bool} {x : Operand}
    (h : evaluateStored i e degrees = .ok x) :
    e.evaluatePrefix ⟨degrees, e.length⟩ = .ok (e.length, x) := by
  unfold evaluateStored at h
  split at h
  · next position y hpre =>
    split at h
    · next hposition =>
      cases h
      rw [hpre, hposition]
    · cases h
  all_goals cases h

/-- A stored result that was read is on the shelf, or its full record is spelled by the bytes. -/
theorem of_readStored_ok {readExpr : Loading Buffer} {room : Nat}
    (hread : ∀ p e p', readExpr p = .ok (e, p') → TakenBuffer room p e p') {p₀ p p' : Progress}
    {t : Token} (h₀ : Tagged Token.storedTag p₀ p) (h : readStored readExpr p = .ok (t, p')) :
    TakenToken room p₀ t p' := by
  simp only [readStored, bind_ok_iff] at h
  obtain ⟨⟨i, p₁⟩, hi, h⟩ := h
  obtain ⟨⟨number, hnumber, hb₁⟩, hshelf⟩ := Progress.of_readInt_ok hi
  rw [h₀.shelf] at hshelf
  -- The number is on the shelf, or a record of its own follows.
  cases hget : p₁.table.get i with
  | some u =>
    simp only [hget] at h
    cases h
    refine ⟨.reference i, _, _, ?_, Nat.zero_le _, .reference hnumber .nil, ?_⟩
    · rw [← hshelf]
      exact .known hget (.nil _)
    · simp [h₀.bytes, hb₁]
  | none =>
    simp only [hget, bind_ok_iff] at h
    obtain ⟨table, htable, ⟨e, p₂⟩, he, ⟨degrees, p₃⟩, hdegrees, x, hx, ⟨text, p₄⟩, htext, h⟩ := h
    obtain ⟨⟨b, hdegreesEq, hb₃⟩, h₃⟩ := Progress.of_readBool_ok hdegrees
    obtain ⟨⟨w₄, hw₄, hb₄⟩, h₄⟩ := Progress.of_readText_ok htext
    have hclaim : p₁.table.claim i = .ok table := by
      cases hc : p₁.table.claim i with
      | ok t' => rw [hc] at htable; cases htable; rfl
      | error e => rw [hc] at htable; cases htable
    -- The number that was read is the next one, or claiming it would have failed.
    obtain ⟨rfl, rfl⟩ := Received.claim_ok_iff.mp hclaim
    cases h
    obtain ⟨inner, truths, taken, hinner, hdepth, ⟨count, each, hcount, heach, rfl⟩, hb₂⟩ :=
      hread _ _ _ he
    have hbefore : p₄.shelf = p₂.shelf := by rw [h₄, h₃]
    refine ⟨.full (p₁.shelf.highest + 1) inner degrees (some text), _, _, ?_,
      Nat.succ_le_of_lt hdepth, .full hnumber hcount hdegreesEq hw₄ heach .nil, ?_⟩
    -- Mode and text are read behind the expression, and leave the shelf as it was.
    · have hnext : p₄.next = p₂.shelf.next := congrArg Shelf.next hbefore
      have hput (t : Token) : Progress.shelf
          { p₄ with table := p₄.table.put (p₁.table.highest + 1) t, next := p₄.next + 1 }
          = p₂.shelf.put (p₁.shelf.highest + 1) t := by
        rw [← hbefore]
        rfl
      rw [hput, hnext, ← hshelf]
      exact .fresh text hget hinner (of_evaluateStored_ok hx) (.nil _)
    · dsimp only at hb₂ hb₃ hb₄
      simp [h₀.bytes, hb₁, hb₂, hb₃, hb₄]

/-- A token that was read is spelled by the bytes, whatever its kind. -/
theorem of_readToken_ok {readExpr : Loading Buffer} {room : Nat}
    (hread : ∀ p e p', readExpr p = .ok (e, p') → TakenBuffer room p e p') {p p' : Progress}
    {t : Token} (h : readToken readExpr p = .ok (t, p')) : TakenToken room p t p' := by
  simp only [readToken, bind_ok_iff] at h
  obtain ⟨⟨tag, p₁⟩, htag, h⟩ := h
  split at h
  · next hliteral =>
    obtain rfl : tag = Token.literalTag := hliteral
    exact of_readLiteral_ok (Progress.of_readByte_ok (by decide) htag) h room
  · split at h
    · next hoperator =>
      obtain rfl : tag = Token.operatorTag := hoperator
      exact of_readOperator_ok (Progress.of_readByte_ok (by decide) htag) h room
    · split at h
      · next hstored =>
        obtain rfl : tag = Token.storedTag := hstored
        exact of_readStored_ok hread (Progress.of_readByte_ok (by decide) htag) h
      · cases h

/-- By induction on the count. -/
theorem of_readEach_ok {readOne : Loading Token} {room : Nat}
    (hread : ∀ p t p', readOne p = .ok (t, p') → TakenToken room p t p') {n : Nat}
    {p p' : Progress} {ts : List Token} (h : readEach readOne n p = .ok (ts, p')) :
    ∃ rs truths taken, Rebuilds p.shelf rs ts p'.shelf ∧ rs.length = n ∧ depthEach rs ≤ room
      ∧ Spells rs truths taken ∧ p.bytes = taken ++ p'.bytes := by
  induction n generalizing p ts with
  | zero =>
    cases h
    exact ⟨[], [], [], .nil _, rfl, Nat.zero_le _, .nil, rfl⟩
  | succ n ih =>
    simp only [readEach, bind_ok_iff] at h
    obtain ⟨⟨t, p₁⟩, ht, ⟨ts, p₂⟩, hts, h⟩ := h
    cases h
    -- One record for the first token, and those that the others were rebuilt from.
    obtain ⟨r, truths, first, hr, hdepth, hfirst, hb⟩ := hread _ _ _ ht
    obtain ⟨rs, truths', rest, hrs, hlength, hdepths, hrest, hb'⟩ := ih hts
    refine ⟨r :: rs, truths ++ truths', first ++ rest, hr.append hrs, by rw [List.length_cons, hlength],
      ?_, hfirst.cons hrest, ?_⟩
    · exact Nat.max_le.mpr ⟨hdepth, hdepths⟩
    · rw [hb, hb', List.append_assoc]

/-- Whatever loading returns was rebuilt from records that are spelled by the bytes. By induction on the
room. -/
theorem of_readNested_ok {room : Nat} {p p' : Progress} {b : Buffer}
    (h : readNested room p = .ok (b, p')) : TakenBuffer room p b p' := by
  induction room generalizing p p' b with
  | zero => cases h
  | succ room ih =>
    simp only [readNested, readCounted, bind_ok_iff] at h
    obtain ⟨⟨count, p₁⟩, hcount, h⟩ := h
    obtain ⟨⟨number, hnumber, hb⟩, hshelf⟩ := Progress.of_readInt_ok hcount
    split at h
    · cases h
    · next hnonneg =>
      -- Buffers inside are read with less room, so the induction hypothesis is about them.
      have hread : ∀ p t p', readToken (readNested room) p = .ok (t, p') → TakenToken room p t p' :=
        fun p t p' => of_readToken_ok fun p e p' he => ih he
      obtain ⟨rs, truths, each, hrs, hlength, hdepth, heach, hb'⟩ := of_readEach_ok hread h
      have hcast : (rs.length : Int) = count := by omega
      have hrebuilds : Rebuilds p.shelf rs b p'.shelf := hshelf ▸ hrs
      rw [← hcast] at hnumber
      exact ⟨rs, truths, number ++ each, hrebuilds, Nat.lt_succ_of_le hdepth,
        ⟨number, each, hnumber, heach, rfl⟩, by rw [hb, hb', List.append_assoc]⟩

/-! ## §5 Whole buffers -/

/-- If the records of a buffer rebuild tokens, loading their bytes and nothing else returns these
tokens. -/
theorem Rebuilds.loadWithin {S : Shelf} {next : Nat} {rs : List Record} {b : Buffer}
    (h : Rebuilds ⟨.empty, next⟩ rs b S) {room : Nat} (hroom : depthEach rs < room) {bytes : Bytes}
    (hencode : encodeAll rs = .ok bytes) :
    loadWithin room bytes next = .ok ⟨b, S.table.size, S.next⟩ := by
  have hread := h.readNested hroom hencode []
  rw [List.append_nil] at hread
  unfold Codec.loadWithin
  rw [show (⟨bytes, .empty, next⟩ : Progress) = Shelf.before ⟨.empty, next⟩ bytes from rfl, hread]
  rfl

/-- Whatever is loaded was rebuilt from records, and the bytes are a spelling of these. -/
theorem spells_of_loadWithin_ok {room next : Nat} {bytes : Bytes} {loaded : Loaded}
    (h : loadWithin room bytes next = .ok loaded) :
    ∃ rs truths S, Rebuilds ⟨.empty, next⟩ rs loaded.buffer S ∧ depthEach rs < room
      ∧ SpellsAll rs truths bytes := by
  simp only [loadWithin, bind_ok_iff] at h
  obtain ⟨⟨b, p⟩, hread, h⟩ := h
  obtain ⟨rs, truths, taken, hrs, hdepth, hspells, hbytes⟩ := of_readNested_ok hread
  split at h
  · next hempty =>
    cases h
    have hall : bytes = taken ++ p.bytes := hbytes
    rw [List.isEmpty_iff.mp hempty, List.append_nil] at hall
    rw [hall]
    exact ⟨rs, truths, _, hrs, hdepth, hspells⟩
  · cases h

/-- Whatever is loaded was rebuilt from records that can be written. -/
theorem of_loadWithin_ok {room next : Nat} {bytes : Bytes} {loaded : Loaded}
    (h : loadWithin room bytes next = .ok loaded) :
    ∃ rs S, Rebuilds ⟨.empty, next⟩ rs loaded.buffer S ∧ depthEach rs < room
      ∧ ∃ bytes, encodeAll rs = .ok bytes := by
  obtain ⟨rs, truths, S, hrs, hdepth, hspells⟩ := spells_of_loadWithin_ok h
  obtain ⟨written, hwritten, -⟩ := hspells.encodeAll
  exact ⟨rs, S, hrs, hdepth, written, hwritten⟩

/-! ## §6 More room -/

/-- An action that succeeds wherever another one does, with the same outcome. -/
def Loading.Within {α : Type} (f g : Loading α) : Prop :=
  ∀ p y, f p = .ok y → g p = .ok y

/-- A stored result is read alike if the expression in it is. -/
theorem readStored_within {f g : Loading Buffer} (h : f.Within g) :
    Loading.Within (readStored f) (readStored g) := by
  intro p y hy
  simp only [readStored, bind_ok_iff] at hy ⊢
  obtain ⟨q, hq, hy⟩ := hy
  refine ⟨q, hq, ?_⟩
  split at hy
  · exact hy
  · simp only [bind_ok_iff] at hy ⊢
    obtain ⟨table, htable, r, hr, hy⟩ := hy
    exact ⟨table, htable, r, h _ r hr, hy⟩

/-- Other tokens are not concerned. -/
theorem readToken_within {f g : Loading Buffer} (h : f.Within g) :
    Loading.Within (readToken f) (readToken g) := by
  intro p y hy
  simp only [readToken, bind_ok_iff] at hy ⊢
  obtain ⟨q, hq, hy⟩ := hy
  refine ⟨q, hq, ?_⟩
  by_cases hliteral : q.1 = Token.literalTag
  · rw [if_pos hliteral] at hy ⊢
    exact hy
  · by_cases hoperator : q.1 = Token.operatorTag
    · rw [if_neg hliteral, if_pos hoperator] at hy ⊢
      exact hy
    · by_cases hstored : q.1 = Token.storedTag
      · rw [if_neg hliteral, if_neg hoperator, if_pos hstored] at hy ⊢
        exact readStored_within h _ _ hy
      · rw [if_neg hliteral, if_neg hoperator, if_neg hstored] at hy
        cases hy

/-- Token by token. -/
theorem readEach_within {f g : Loading Token} (h : f.Within g) (n : Nat) :
    Loading.Within (readEach f n) (readEach g n) := by
  induction n with
  | zero => exact fun p y hy => hy
  | succ n ih =>
    intro p y hy
    simp only [readEach, bind_ok_iff] at hy ⊢
    obtain ⟨q, hq, r, hr, hy⟩ := hy
    exact ⟨q, h p q hq, r, ih _ r hr, hy⟩

/-- With more room the same buffers are read. By induction on the room. -/
theorem readNested_within (room extra : Nat) :
    Loading.Within (readNested room) (readNested (room + extra)) := by
  induction room with
  | zero =>
    intro p y hy
    cases hy
  | succ room ih =>
    intro p y hy
    rw [Nat.succ_add]
    simp only [readNested, readCounted, bind_ok_iff] at hy ⊢
    obtain ⟨q, hq, hy⟩ := hy
    refine ⟨q, hq, ?_⟩
    by_cases hnegative : q.1 < 0
    · rw [if_pos hnegative] at hy
      cases hy
    · rw [if_neg hnegative] at hy ⊢
      exact readEach_within (readToken_within ih) _ _ _ hy

/-- More room changes nothing for what could be loaded. -/
theorem loadWithin_of_le {room room' next : Nat} (hle : room ≤ room') {bytes : Bytes}
    {loaded : Loaded} (h : loadWithin room bytes next = .ok loaded) :
    loadWithin room' bytes next = .ok loaded := by
  obtain ⟨extra, rfl⟩ := Nat.exists_eq_add_of_le hle
  simp only [loadWithin, bind_ok_iff] at h ⊢
  obtain ⟨q, hq, h⟩ := h
  exact ⟨q, readNested_within room extra _ q hq, h⟩

end Reckoner.Codec
