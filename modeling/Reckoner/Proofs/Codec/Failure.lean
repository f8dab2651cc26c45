import Reckoner.Proofs.Codec.Rebuilding
import Reckoner.Proofs.Literal
import Reckoner.Session

/-!
# How loading fails

Bytes that are no saved expression are reported as such, with one exception. Loading evaluates the
expressions of stored results, and in one of them a literal, or the argument of a factorial, may have more
digits than conversion takes; this is not reported as a format error.

- `HoldsOverlong` and `HoldsFactorial` say that such a literal, and a factorial, are written somewhere in
  some bytes;
- `readNested_reported` carries through all of reading that nothing else goes wrong;
- `load_restore_reported` draws the conclusion for saved buffers and saved sessions, and
  `not_holdsOverlong` says that short ones are not concerned;
- `Rebuilds.readNested_overlong`: a stored result whose expression begins with such a literal is never
  loaded, though it is written as others are. `load_restore_ones` gives the bytes of some.
-/

namespace Reckoner.Codec

open Reckoner.Decimal (conversionLimit)
open Reckoner.Literal (ones length_digits_ones wellFormed_ones)

/-! ## §1 Errors of loading -/

/-- A literal with more digits than conversion takes is written in some bytes. -/
def HoldsOverlong (bytes : Bytes) : Prop :=
  ∃ l : Literal, l.WellFormed ∧ conversionLimit < l.digits.length
    ∧ ∃ whole point fraction, writeText l.whole = .ok whole ∧ writeText l.fraction = .ok fraction
      ∧ whole ++ point :: fraction <:+: bytes

/-- The factorial is written in some bytes. -/
def HoldsFactorial (bytes : Bytes) : Prop :=
  ∃ code, writeInt Symbol.factorial.code = .ok code ∧ code <:+: bytes

/-- The errors that loading may end with: a format error, a literal too long, or a factorial of an integer
too long. -/
inductive Reported (bytes : Bytes) : LoadError → Prop where
  | format (e : FormatError) : Reported bytes (.format e)
  | overlong (h : HoldsOverlong bytes) : Reported bytes (.evaluation .tooManyDigits)
  | factorial (h : HoldsFactorial bytes) : Reported bytes (.evaluation .overlongFactorial)

/-- A token that was read from some bytes. -/
structure ReadFrom (bytes : Bytes) (t : Token) : Prop where
  wellFormed : ∀ l, t = .literal l → l.WellFormed
  overlong : ∀ l, t = .literal l → conversionLimit < l.digits.length → HoldsOverlong bytes
  factorial : t = .symbol .factorial → HoldsFactorial bytes

/-- A stored result is neither a literal nor an operator, so nothing is asked of it. -/
theorem readFrom_stored {bytes : Bytes} {t : Token} (hliteral : t.isLiteral = false)
    (hoperator : t.isOperator = false) : ReadFrom bytes t where
  wellFormed := by
    rintro l rfl
    cases hliteral
  overlong := by
    rintro l rfl
    cases hliteral
  factorial := by
    rintro rfl
    cases hoperator

/-- Where reading may stand in some bytes: the bytes that are left end them, and there are neither literals
nor operators among the stored results. -/
structure Progress.Inside (p : Progress) (bytes : Bytes) : Prop where
  left : p.bytes <:+ bytes
  stored : ∀ {i t}, p.table.get i = some t → t.isLiteral = false ∧ t.isOperator = false

/-- An action that reads on in some bytes and ends with a good value or a reported error. -/
def Loading.Reports {α : Type} (bytes : Bytes) (P : α → Prop) (f : Loading α) : Prop :=
  ∀ p, p.Inside bytes → Ends (fun y => P y.1 ∧ y.2.Inside bytes) (Reported bytes) (f p)

variable {bytes : Bytes}

/-! ## §2 Parts of records -/

/-- A byte reader takes bytes from the front or reports an error. -/
theorem Progress.read_ends {α : Type} {r : Reader α} {W : α → Bytes → Prop}
    (hr : ∀ {bytes x rest}, r bytes = (.ok x, rest) → ∃ taken, W x taken ∧ bytes = taken ++ rest)
    {p : Progress} (hp : p.Inside bytes) :
    Ends (fun y => y.2.Inside bytes ∧ ∃ taken, W y.1 taken ∧ p.bytes = taken ++ y.2.bytes)
      (Reported bytes) (p.read r) := by
  unfold Progress.read
  -- The bytes that are left after a successful read still end the bytes that there were.
  rcases hread : r p.bytes with ⟨e | x, rest⟩
  · exact .error (.format e)
  · obtain ⟨taken, hW, heq⟩ := hr hread
    have hsuffix : rest <:+ p.bytes := by
      rw [heq]
      exact List.suffix_append taken rest
    exact .ok ⟨⟨hsuffix.trans hp.left, hp.stored⟩, taken, hW, heq⟩

/-- Reading a text takes what would be written for it. -/
theorem Progress.readText_ends {p : Progress} (hp : p.Inside bytes) :
    Ends (fun y => y.2.Inside bytes
        ∧ ∃ taken, writeText y.1 = .ok taken ∧ p.bytes = taken ++ y.2.bytes)
      (Reported bytes) (p.read readText) :=
  read_ends (W := fun s taken => writeText s = .ok taken) Codec.of_readText_ok hp

/-- Reading an integer takes what would be written for it. -/
theorem Progress.readInt_ends {p : Progress} (hp : p.Inside bytes) :
    Ends (fun y => y.2.Inside bytes
        ∧ ∃ taken, writeInt y.1 = .ok taken ∧ p.bytes = taken ++ y.2.bytes)
      (Reported bytes) (p.read readInt) :=
  read_ends (W := fun n taken => writeInt n = .ok taken) Codec.of_readInt_ok hp

/-- Reading a byte takes one. -/
theorem Progress.readByte_ends {p : Progress} (hp : p.Inside bytes) :
    Ends (fun y => y.2.Inside bytes ∧ ∃ taken, (∃ b, taken = [b]) ∧ p.bytes = taken ++ y.2.bytes)
      (Reported bytes) (p.read readByte) := by
  refine read_ends (W := fun _ taken => ∃ b, taken = [b]) ?_ hp
  intro bytes n rest h
  obtain ⟨b, rfl⟩ := Codec.of_readByte_ok h
  exact ⟨[b], ⟨b, rfl⟩, rfl⟩

/-- And so does reading a truth value. -/
theorem Progress.readBool_ends {p : Progress} (hp : p.Inside bytes) :
    Ends (fun y => y.2.Inside bytes ∧ ∃ taken, (∃ b, taken = [b]) ∧ p.bytes = taken ++ y.2.bytes)
      (Reported bytes) (p.read readBool) := by
  refine read_ends (W := fun _ taken => ∃ b, taken = [b]) ?_ hp
  intro bytes x rest h
  obtain ⟨b, -, rfl⟩ := Codec.of_readBool_ok h
  exact ⟨[b], ⟨b, rfl⟩, rfl⟩

/-! ## §3 Tokens -/

/-- A literal that is read has its digits in the bytes. -/
theorem readLiteral_reports : Loading.Reports bytes (ReadFrom bytes) readLiteral := by
  intro p hp
  refine (Progress.readText_ends hp).bind ?_
  rintro ⟨whole, p₁⟩ ⟨hp₁, first, hfirst, h₁⟩
  refine (Progress.readBool_ends hp₁).bind ?_
  rintro ⟨point, p₂⟩ ⟨hp₂, _, ⟨b, rfl⟩, h₂⟩
  refine (Progress.readText_ends hp₂).bind ?_
  rintro ⟨fraction, p₃⟩ ⟨hp₃, second, hsecond, h₃⟩
  refine (Progress.readInt_ends hp₃).bind ?_
  rintro ⟨exponent, p₄⟩ ⟨hp₄, -⟩
  dsimp only at h₁ h₂ h₃ hfirst hsecond ⊢
  split
  · exact .error (.format _)
  · next hfault =>
    let l : Literal := ⟨whole, fraction, point, exponent⟩
    have hl : l.WellFormed := (literalFault_eq_none_iff l).mp hfault
    refine .ok ⟨⟨?_, ?_, nofun⟩, hp₄⟩
    · rintro _ ⟨⟩
      exact hl
    rintro _ ⟨⟩ hlong
    -- The digits stand where the literal was read, one part behind the other.
    have hinfix : first ++ b :: second <:+: p.bytes :=
      ⟨[], p₃.bytes, by rw [h₁, h₂, h₃]; simp⟩
    exact ⟨l, hl, hlong, first, b, second, hfirst, hsecond, hinfix.trans hp.left.isInfix⟩

/-- So has an operator its number. -/
theorem readOperator_reports : Loading.Reports bytes (ReadFrom bytes) readOperator := by
  intro p hp
  refine (Progress.readInt_ends hp).bind ?_
  rintro ⟨n, p₁⟩ ⟨hp₁, written, hwritten, hbytes⟩
  dsimp only at hbytes hwritten ⊢
  split
  case h_1 s hs =>
    refine .ok ⟨⟨nofun, nofun, ?_⟩, hp₁⟩
    rintro ⟨⟩
    -- Only the factorial matters, and its number leads to no other operator.
    have hcode : (Symbol.factorial.code : Int) = n := Operator.code_of_ofCode hs
    have hinfix : written <:+: p.bytes := ⟨[], p₁.bytes, by rw [hbytes]; rfl⟩
    exact ⟨written, hcode ▸ hwritten, hinfix.trans hp.left.isInfix⟩
  case h_2 => exact .error (.format _)

/-- Evaluating the expression of a stored result fails with a format error, unless there is a number in
it that is too long. -/
theorem evaluateStored_ends {e : Buffer} (he : ∀ t ∈ e, ReadFrom bytes t) (i : Int)
    (degrees : Bool) : Ends (fun _ => True) (Reported bytes) (evaluateStored i e degrees) := by
  unfold evaluateStored
  cases hpre : e.evaluatePrefix ⟨degrees, e.length⟩ with
  | ok p =>
    dsimp only
    split
    · exact .ok trivial
    · exact .error (.format _)
  | error cause =>
    -- Evaluation fails for the shape of the expression, for arithmetic, or for a number that is too long.
    cases Buffer.evaluatePrefix_cause_excess (fun l hl => (he _ hl).wellFormed l rfl) hpre with
    | malformed _ => exact .error (.format _)
    | arithmetic _ => exact .error (.format _)
    | faulty h =>
      cases h with
      | literal h =>
        obtain ⟨l, hl, hlong⟩ := h
        exact .error (.overlong ((he _ hl).overlong l rfl hlong))
      | factorial h => exact .error (.factorial ((he _ h).factorial rfl))

/-- Claiming a number puts nothing on the shelf. -/
theorem claim_ends (t : Received Token) (i : Int) :
    Ends (fun t' => t'.rebuilt = t.rebuilt) (Reported bytes)
      ((t.claim i).mapError LoadError.format) := by
  unfold Received.claim
  split
  · exact .ok rfl
  · exact .error (.format _)

/-- A stored result was put on the shelf before, or is made of an expression that was read. -/
theorem readStored_reports {readExpr : Loading Buffer}
    (hread : readExpr.Reports bytes fun e => ∀ t ∈ e, ReadFrom bytes t) :
    Loading.Reports bytes (ReadFrom bytes) (readStored readExpr) := by
  intro p hp
  refine (Progress.readInt_ends hp).bind ?_
  rintro ⟨i, p₁⟩ ⟨hp₁, -⟩
  dsimp only
  split
  · next t ht =>
    obtain ⟨hliteral, hoperator⟩ := hp₁.stored ht
    exact .ok ⟨readFrom_stored hliteral hoperator, hp₁⟩
  · refine (claim_ends p₁.table i).bind fun table htable => ?_
    -- Nothing is put on the shelf before the record is complete.
    have hclaimed : Progress.Inside { p₁ with table } bytes := by
      refine ⟨hp₁.left, fun {j t} ht => hp₁.stored (i := j) ?_⟩
      simp only [Received.get] at ht ⊢
      rwa [htable] at ht
    refine (hread _ hclaimed).bind ?_
    rintro ⟨e, p₂⟩ ⟨he, hp₂⟩
    refine (Progress.readBool_ends hp₂).bind ?_
    rintro ⟨degrees, p₃⟩ ⟨hp₃, -⟩
    refine (evaluateStored_ends he i degrees).bind fun x _ => ?_
    refine (Progress.readText_ends hp₃).bind ?_
    rintro ⟨text, p₄⟩ ⟨hp₄, -⟩
    refine .ok ⟨readFrom_stored rfl rfl, hp₄.left, ?_⟩
    intro j t ht
    -- What is put there is a stored result, as everything else there.
    rw [Received.get_put] at ht
    split at ht
    · cases ht
      exact ⟨rfl, rfl⟩
    · exact hp₄.stored ht

/-- Whichever token the tag announces. -/
theorem readToken_reports {readExpr : Loading Buffer}
    (hread : readExpr.Reports bytes fun e => ∀ t ∈ e, ReadFrom bytes t) :
    Loading.Reports bytes (ReadFrom bytes) (readToken readExpr) := by
  intro p hp
  refine (Progress.readByte_ends hp).bind ?_
  rintro ⟨tag, p₁⟩ ⟨hp₁, -⟩
  dsimp only
  split
  · exact readLiteral_reports p₁ hp₁
  · split
    · exact readOperator_reports p₁ hp₁
    · split
      · exact readStored_reports hread p₁ hp₁
      · exact .error (.format _)

/-! ## §4 Buffers and sessions -/

/-- By induction on the count. -/
theorem readEach_reports {readOne : Loading Token}
    (hread : readOne.Reports bytes (ReadFrom bytes)) (n : Nat) :
    (readEach readOne n).Reports bytes fun ts => ∀ t ∈ ts, ReadFrom bytes t := by
  induction n with
  | zero => exact fun p hp => .ok ⟨by simp, hp⟩
  | succ n ih =>
    intro p hp
    -- The first token, and then the others where it has left off.
    refine (hread p hp).bind ?_
    rintro ⟨t, p₁⟩ ⟨ht, hp₁⟩
    refine (ih p₁ hp₁).bind ?_
    rintro ⟨ts, p₂⟩ ⟨hts, hp₂⟩
    exact .ok ⟨List.forall_mem_cons.mpr ⟨ht, hts⟩, hp₂⟩

/-- Reading a buffer ends with tokens that were read, or with a reported error. By induction on the room
for nested stored results. -/
theorem readNested_reported (room : Nat) :
    (readNested room).Reports bytes fun ts => ∀ t ∈ ts, ReadFrom bytes t := by
  induction room with
  | zero => exact fun p hp => .error (.format _)
  | succ room ih =>
    intro p hp
    refine (Progress.readInt_ends hp).bind ?_
    rintro ⟨count, p₁⟩ ⟨hp₁, -⟩
    dsimp only
    split
    · exact .error (.format _)
    · exact readEach_reports (readToken_reports ih) _ p₁ hp₁

/-- All bytes are left before reading begins. -/
theorem inside_start (bytes : Bytes) (next : Nat) :
    Progress.Inside ⟨bytes, .empty, next⟩ bytes :=
  ⟨List.suffix_refl bytes, fun h => nomatch h⟩

/-- Loading ends with a buffer or with a reported error. -/
theorem loadWithin_reported (room : Nat) (bytes : Bytes) (next : Nat) :
    Ends (fun _ => True) (Reported bytes) (loadWithin room bytes next) := by
  refine (readNested_reported room _ (inside_start bytes next)).bind ?_
  rintro ⟨b, p⟩ -
  dsimp only
  split
  · exact .ok trivial
  · exact .error (.format _)

/-- Memory is a buffer of its own, or nothing. -/
theorem readMemory_reports (room : Nat) :
    Loading.Reports bytes (fun _ => True) (Session.readMemory room) := by
  intro p hp
  refine (Progress.readBool_ends hp).bind ?_
  rintro ⟨present, p₁⟩ ⟨hp₁, -⟩
  dsimp only
  split
  · refine (readNested_reported room p₁ hp₁).bind ?_
    rintro ⟨b, p₂⟩ ⟨-, hp₂⟩
    exact .ok ⟨trivial, hp₂⟩
  · exact .ok ⟨trivial, hp₁⟩

/-- Restoring reads mode, expression and memory, and then checks what is left. -/
theorem restoreWithin_reported (room : Nat) (bytes : Bytes) (next : Nat) :
    Ends (fun _ => True) (Reported bytes) (Session.restoreWithin room bytes next) := by
  refine (Progress.readBool_ends (inside_start bytes next)).bind ?_
  rintro ⟨degrees, p₁⟩ ⟨hp₁, -⟩
  refine (readNested_reported room p₁ hp₁).bind ?_
  rintro ⟨expr, p₂⟩ ⟨-, hp₂⟩
  refine (readMemory_reports room p₂ hp₂).bind ?_
  rintro ⟨memory, p₃⟩ -
  dsimp only
  split
  · exact .error (.format _)
  · split
    · exact .error (.format _)
    · exact .ok trivial

/-! ## §5 What loading reports -/

/-- Loading a buffer, and restoring a session, returns a value or reports a format error, whatever the
bytes are, unless they hold a literal with more digits than conversion takes, or a factorial, whose argument
may have that many. -/
theorem load_restore_reported (bytes : Bytes) (next : Nat) :
    (∀ e, load bytes next = .error e →
      (∃ f, e = .format f) ∨ e = .evaluation .tooManyDigits ∧ HoldsOverlong bytes
        ∨ e = .evaluation .overlongFactorial ∧ HoldsFactorial bytes)
    ∧ ∀ e, Session.restore bytes next = .error e →
      (∃ f, e = .format f) ∨ e = .evaluation .tooManyDigits ∧ HoldsOverlong bytes
        ∨ e = .evaluation .overlongFactorial ∧ HoldsFactorial bytes := by
  have hreported {e : LoadError} (h : Reported bytes e) :
      (∃ f, e = .format f) ∨ e = .evaluation .tooManyDigits ∧ HoldsOverlong bytes
        ∨ e = .evaluation .overlongFactorial ∧ HoldsFactorial bytes := by
    cases h with
    | format f => exact .inl ⟨f, rfl⟩
    | overlong hheld => exact .inr (.inl ⟨rfl, hheld⟩)
    | factorial hheld => exact .inr (.inr ⟨rfl, hheld⟩)
  constructor
  · intro e he
    exact hreported ((loadWithin_reported deepestStorage bytes next).of_error he)
  · intro e he
    exact hreported ((restoreWithin_reported deepestStorage bytes next).of_error he)

/-- Bytes that are no more than the digits that conversion takes hold no literal beyond it. -/
theorem not_holdsOverlong (h : bytes.length ≤ conversionLimit) : ¬HoldsOverlong bytes := by
  intro hheld
  obtain ⟨l, -, hlong, whole, point, fraction, hwhole, hfraction, hinfix⟩ := hheld
  have hdigits : l.digits.length ≤ 1 + l.whole.length + l.fraction.length := by
    have hzero : "0".length = 1 := rfl
    rw [Literal.digits, String.length_append]
    split <;> omega
  -- Every digit takes a byte, and each of the two lengths takes two.
  have hwritten := hinfix.length_le
  have hwholeLength := length_of_writeText hwhole
  have hfractionLength := length_of_writeText hfraction
  have hwholeForm := length_le_utf8 l.whole
  have hfractionForm := length_le_utf8 l.fraction
  simp only [List.length_append, List.length_cons] at hwritten
  omega

/-! ## §6 Stored results beyond conversion -/

/-- The first literal is converted before anything else is looked at. -/
theorem evaluateStored_overlong {l : Literal} (hl : l.WellFormed)
    (hlong : conversionLimit < l.digits.length) (i : Int) (e : Buffer) (degrees : Bool) :
    evaluateStored i (.literal l :: e) degrees = .error (.evaluation .tooManyDigits) := by
  unfold evaluateStored
  rw [Buffer.evaluatePrefix_literal (hl.value_of_overlong hlong)]
  rfl

/-- A full record whose expression begins with a literal beyond conversion ends the reading of a buffer
that begins with it, whatever follows. -/
theorem Rebuilds.readNested_overlong {S S₁ : Shelf} {l : Literal} {inner : List Record} {e : Buffer}
    (h : Rebuilds S.claim (.literal l :: inner) (.literal l :: e) S₁) (hl : l.WellFormed)
    (hlong : conversionLimit < l.digits.length) (hnone : S.get (S.highest + 1) = none)
    {room : Nat} (hroom : depthEach (.literal l :: inner) < room) {n : Nat} {count record : Bytes}
    (hcount : writeInt (n + 1) = .ok count) {degrees : Bool} {text : String}
    (hrecord : encode (.full (S.highest + 1) (.literal l :: inner) degrees (some text)) = .ok record)
    (rest : Bytes) :
    Codec.readNested (room + 1) (S.before (count ++ record ++ rest))
      = .error (.evaluation .tooManyDigits) := by
  have hfull := readToken_full hnone hrecord (fun each heach rest => h.readNested hroom heach rest) rest
  rw [evaluateStored_overlong hl hlong] at hfull
  -- The count is read, then the first token, and there it ends.
  simp only [Codec.readNested, readCounted, List.append_assoc,
    S.read_before (readInt_writeInt hcount _), ok_bind]
  rw [if_neg (by omega), show ((n : Int) + 1).toNat = n + 1 by omega]
  simp only [Codec.readEach, hfull]
  rfl

/-- The bytes of a full record whose expression is a number of ones. -/
def onesRecord (n : Nat) : Bytes :=
  [2, 0, 0, 0, 1, 0, 0, 0, 1, 0] ++ (bigEndian 2 n ++ List.replicate n 49)
    ++ [0, 0, 0, 0, 0, 0, 0, 0, 0, 1, 49]

/-- The bytes of a saved buffer that holds this record and nothing else. -/
def onesSaved (n : Nat) : Bytes :=
  [0, 0, 0, 1] ++ onesRecord n

/-- Ones take a byte each. -/
theorem writeText_ones {n : Nat} (h : n < 2 ^ 16) :
    writeText (ones n).whole = .ok (bigEndian 2 n ++ List.replicate n 49) := by
  have hone : String.utf8EncodeChar '1' = [49] := rfl
  have hutf8 : utf8 (ones n).whole = List.replicate n 49 := by
    simp [utf8_eq_flatMap, ones, List.flatMap_replicate, hone]
  simp only [writeText, hutf8, List.length_replicate, if_pos h]

/-- The record, written out. -/
theorem encode_ones {n : Nat} (h : n < 2 ^ 16) :
    encode (.full 1 [.literal (ones n)] false (some "1")) = .ok (onesRecord n) := by
  have hone : writeText "1" = .ok [0, 1, 49] := rfl
  have hnone : writeText "" = .ok [0, 0] := rfl
  have hnumber : writeInt 1 = .ok [0, 0, 0, 1] := rfl
  have hcount : writeInt (1 : Nat) = .ok [0, 0, 0, 1] := rfl
  have hzero : writeInt 0 = .ok [0, 0, 0, 0] := rfl
  have hfraction : (ones n).fraction = "" := rfl
  have hexponent : (ones n).exponent = 0 := rfl
  simp only [encode, encodeEach, writeLiteral, writeStoredText, writeText_ones h, hfraction,
    hexponent, hone, hnone, hzero, ok_bind, List.length_singleton, hcount, hnumber, pure_bind,
    onesRecord, List.append_assoc, List.append_nil]
  rfl

/-- A stored result whose expression is more ones than conversion takes cannot be loaded: neither in a
buffer nor in a session, and not for a format error. -/
theorem load_restore_ones {n : Nat} (h : conversionLimit < n) (h' : n < 2 ^ 16) (next : Nat) :
    load (onesSaved n) next = .error (.evaluation .tooManyDigits)
    ∧ Session.restore ([0] ++ onesSaved n ++ [0]) next = .error (.evaluation .tooManyDigits) := by
  have hpos : 0 < n := by omega
  have hinner : Rebuilds (Shelf.claim ⟨.empty, next⟩) [.literal (ones n)] [.literal (ones n)]
      (Shelf.claim ⟨.empty, next⟩) := .literal _ (wellFormed_ones hpos) (.nil _)
  have hlong : conversionLimit < (ones n).digits.length := by rwa [length_digits_ones hpos]
  have hcount : writeInt ((0 : Nat) + 1) = .ok [0, 0, 0, 1] := rfl
  have hdepth : depthEach [.literal (ones n)] < 189 := by simp [depthEach, depth]
  -- The expression is the first thing that is read in both.
  have hread (rest : Bytes) :
      readNested deepestStorage (Shelf.before ⟨.empty, next⟩ (onesSaved n ++ rest))
        = .error (.evaluation .tooManyDigits) :=
    hinner.readNested_overlong (wellFormed_ones hpos) hlong rfl hdepth hcount (encode_ones h') rest
  constructor
  · have hload := hread []
    rw [List.append_nil] at hload
    have hstart : (⟨onesSaved n, .empty, next⟩ : Progress)
        = Shelf.before ⟨.empty, next⟩ (onesSaved n) := rfl
    simp only [load, loadWithin, hstart, hload]
    rfl
  · have hdegrees : Progress.read ⟨[0] ++ onesSaved n ++ [0], .empty, next⟩ readBool
        = .ok (false, Shelf.before ⟨.empty, next⟩ (onesSaved n ++ [0])) := rfl
    simp only [Session.restore, Session.restoreWithin, hdegrees, ok_bind, hread]
    rfl

/-- One digit more than conversion takes is enough. -/
theorem load_restore_ones_beyond :
    load (onesSaved 4301) 0 = .error (.evaluation .tooManyDigits)
    ∧ Session.restore ([0] ++ onesSaved 4301 ++ [0]) 0 = .error (.evaluation .tooManyDigits) :=
  load_restore_ones (by decide) (by decide) 0

end Reckoner.Codec
