import Reckoner.Proofs.Buffer.Continuation
import Reckoner.Proofs.Buffer.Editing
import Reckoner.Proofs.Literal
import Reckoner.Report

/-!
# What a text types

Every character of a text is a key at most, and every key that a text stands for is known. So typing fails
in scanning, if it fails, and the digits of the literals that are typed are no more than the characters.

- `bufferOfText_eq`: typing a text is pressing the keys that are scanned;
- `length_digits_le`: a typed literal has no more digits than the text has characters;
- `bufferOfText_digits`: a text of digits types one literal.
-/

namespace Reckoner

open Reckoner.Text (isAsciiDigit isBlank_of_isAsciiDigit)

/-! ## §1 Known keys -/

/-- A key is read back from its number. -/
theorem Key.ofCode?_code (k : Key) : Key.ofCode? k.code = some k := by
  cases k with
  | digit d => revert d; decide
  | point => rfl
  | symbol s => cases s <;> rfl

namespace Buffer

/-- The buffer after a key, accepted or not. -/
def afterKey (b : Buffer) (k : Key) : Buffer :=
  (b.pressed? k).getD b

theorem pressAll_cons (b : Buffer) (k : Key) (ns : List Int) :
    b.pressAll (k.code :: ns) = (b.afterKey k).pressAll ns := by
  simp only [pressAll, press_eq, Key.ofCode?_code, ok_bind, afterKey]
  cases b.pressed? k <;> rfl

/-- Pressing known keys never fails. By induction on the keys. -/
theorem pressAll_codes (b : Buffer) (ks : List Key) :
    b.pressAll (ks.map fun k => (k.code : Int)) = .ok (ks.foldl afterKey b) := by
  induction ks generalizing b with
  | nil => rfl
  | cons k ks ih => rw [List.map_cons, pressAll_cons, ih, List.foldl_cons]

end Buffer

/-- Typing a text is scanning it and pressing its keys. -/
theorem Report.bufferOfText_eq (text : String) :
    bufferOfText text = (Typing.scan text).map fun ks => ks.foldl Buffer.afterKey [] := by
  unfold bufferOfText Typing.keysOf
  cases Typing.scan text with
  | error e => rfl
  | ok ks =>
    -- Every scanned key has a number that is known, so pressing them all does not fail.
    have hkeys : Buffer.ofKeys (ks.map fun k => (k.code : Int)) = _ := Buffer.pressAll_codes [] ks
    simp only [ok_bind, pure_bind, Except.map, hkeys]
    rfl

theorem Report.of_bufferOfText_ok {text : String} {b : Buffer} (h : bufferOfText text = .ok b) :
    ∃ ks, Typing.scan text = .ok ks ∧ b = ks.foldl Buffer.afterKey [] := by
  rw [bufferOfText_eq] at h
  cases hscan : Typing.scan text with
  | error e =>
    rw [hscan] at h
    cases h
  | ok ks =>
    rw [hscan] at h
    cases h
    exact ⟨ks, rfl, rfl⟩

/-- Literals and operators are all that is typed. -/
theorem Report.plain_of_bufferOfText {text : String} {b : Buffer} (h : bufferOfText text = .ok b) :
    ∀ t ∈ b, t.Plain := by
  obtain ⟨ks, -, rfl⟩ := of_bufferOfText_ok h
  exact Buffer.plain_of_ofKeys (Buffer.pressAll_codes [] ks)

/-! ## §2 Digits and characters -/

namespace Literal

/-- How many digits and points are in a literal. -/
def size (l : Literal) : Nat :=
  l.whole.length + l.point.toNat + l.fraction.length

variable {l l' : Literal}

/-- A literal without whole digits has a point, and is read with a zero in place of it. -/
theorem WellFormed.length_digits_le (h : l.WellFormed) : l.digits.length ≤ l.size := by
  have hzero : "0".length = 1 := rfl
  have hnonempty := h.nonempty
  simp only [digits, size, String.length_append]
  cases hwhole : l.whole.isEmpty with
  | false => simp
  -- The zero stands for a point, which is pressed too.
  | true =>
    cases hpoint : l.point with
    | false => simp [isEmpty, hwhole, hpoint] at hnonempty
    | true => simp [hzero]

/-- Typing a digit makes a literal longer by one at most, as its exponent does not count. -/
theorem size_addDigit {d : Fin 10} (h : l.addDigit d = some l') : l'.size ≤ l.size + 1 := by
  have hdigit : (toString d.val).length = 1 := by
    clear h
    revert d
    decide
  unfold addDigit at h
  -- With an exponent, the digit goes there.
  split at h
  · split at h
    · cases h
    · cases h
      exact Nat.le_succ _
  · split at h
    · cases h
      simp only [size, String.length_append, hdigit]
      omega
    · cases h
      simp only [size, String.length_append, hdigit]
      omega

/-- So does typing a point. -/
theorem size_addPoint (h : l.addPoint = some l') : l'.size ≤ l.size + 1 := by
  unfold addPoint at h
  split at h
  · cases h
  · cases h
    simp only [size, Bool.toNat_true]
    omega

end Literal

namespace Buffer

/-- All literals in a buffer are of a size. -/
def SizedBy (n : Nat) (b : Buffer) : Prop :=
  ∀ l, Token.literal l ∈ b → l.size ≤ n

variable {n : Nat} {b : Buffer}

theorem SizedBy.succ (h : SizedBy n b) : SizedBy (n + 1) b :=
  fun l hl => Nat.le_succ_of_le (h l hl)

theorem SizedBy.append {c : Buffer} (hb : SizedBy n b) (hc : SizedBy n c) : SizedBy n (b ++ c) :=
  fun l hl => (List.mem_append.mp hl).elim (hb l) (hc l)

theorem SizedBy.subset {c : Buffer} (h : SizedBy n b) (hsubset : c ⊆ b) : SizedBy n c :=
  fun l hl => h l (hsubset hl)

theorem sizedBy_literal {l : Literal} (h : l.size ≤ n) : SizedBy n [.literal l] := by
  intro l' hl'
  cases List.mem_singleton.mp hl'
  exact h

theorem sizedBy_symbol (s : Symbol) : SizedBy n [.symbol s] :=
  fun _ hl => nomatch List.mem_singleton.mp hl

/-- What types one digit or point more makes literals longer by one. -/
theorem SizedBy.typed? (h : SizedBy n b) {type : Literal → Option Literal}
    (htype : ∀ l l', type l = some l' → l'.size ≤ l.size + 1) {c : Buffer}
    (hc : b.typed? type = some c) : SizedBy (n + 1) c := by
  have hfirst {l : Literal} (hl : type .empty = some l) : SizedBy (n + 1) [.literal l] :=
    sizedBy_literal (Nat.le_trans (htype _ _ hl) (Nat.succ_le_succ (Nat.zero_le n)))
  unfold Buffer.typed? at hc
  split at hc
  -- At the end of the buffer is a literal, which is replaced by the longer one.
  · next l hlast =>
    obtain ⟨l', hl', rfl⟩ := Option.map_eq_some_iff.mp hc
    have hl := h l (List.mem_of_getLast? hlast)
    exact (h.succ.subset (List.dropLast_subset b)).append
      (sizedBy_literal (Nat.le_trans (htype _ _ hl') (Nat.succ_le_succ hl)))
  · obtain ⟨l', hl', rfl⟩ := Option.map_eq_some_iff.mp hc
    -- Behind a stored result a multiplication sign goes before the new literal.
    exact h.succ.append ((sizedBy_symbol .times).append (hfirst hl'))
  · obtain ⟨l', hl', rfl⟩ := Option.map_eq_some_iff.mp hc
    exact h.succ.append (hfirst hl')

/-- An operator leaves literals as they are, or takes away operators in front of it. -/
theorem SizedBy.operated? (h : SizedBy n b) {s : Symbol} {c : Buffer} (hc : b.operated? s = some c) :
    SizedBy n c := by
  unfold Buffer.operated? at hc
  split at hc
  · split at hc
    · cases hc
    · cases hc
      exact (h.subset (List.take_subset _ b)).append (sizedBy_symbol s)
  · cases hc
    exact h.append (sizedBy_symbol s)

/-- Every key makes literals longer by one at most. -/
theorem SizedBy.afterKey (h : SizedBy n b) (k : Key) : SizedBy (n + 1) (b.afterKey k) := by
  unfold Buffer.afterKey
  cases hc : b.pressed? k with
  | none => exact h.succ
  | some c =>
    cases k with
    | digit d =>
      rw [pressed?_digit] at hc
      exact h.typed? (fun _ _ => Literal.size_addDigit) hc
    | point =>
      rw [pressed?_point] at hc
      exact h.typed? (fun _ _ => Literal.size_addPoint) hc
    | symbol s =>
      rw [pressed?_symbol] at hc
      exact (h.operated? hc).succ

/-- By induction on the keys. -/
theorem sizedBy_foldl (h : SizedBy n b) (ks : List Key) : SizedBy (n + ks.length) (ks.foldl afterKey b) := by
  induction ks generalizing n b with
  | nil => exact h
  | cons k ks ih =>
    rw [List.length_cons, Nat.add_comm ks.length, ← Nat.add_assoc]
    exact ih (h.afterKey k)

end Buffer

namespace Typing

/-- A text stands for no more keys than it has characters. By induction on the characters. -/
theorem length_of_scanFrom_ok {skip position : Nat} {cs : List Char} {ks : List Key}
    (h : scanFrom skip position cs = .ok ks) : ks.length ≤ cs.length := by
  induction cs generalizing skip position ks with
  | nil =>
    cases h
    exact Nat.le_refl _
  | cons c cs ih =>
    -- A character that is read as a key gives one key, however many it takes along.
    have hmore {k : Key} {skip : Nat}
        (h : (do return k :: (← scanFrom skip (position + 1) cs)) = .ok ks) :
        ks.length ≤ cs.length + 1 := by
      obtain ⟨rest, hrest, h⟩ := bind_ok_iff.mp h
      cases h
      exact Nat.succ_le_succ (ih hrest)
    unfold scanFrom at h
    split at h
    · exact Nat.le_succ_of_le (ih h)
    · split at h
      · exact Nat.le_succ_of_le (ih h)
      · split at h
        · exact hmore h
        · split at h
          · exact hmore h
          · cases h

/-- The same of a whole text. -/
theorem length_of_scan_ok {text : String} {ks : List Key} (h : scan text = .ok ks) :
    ks.length ≤ text.length := by
  unfold scan at h
  split at h
  · cases h
  · exact Nat.le_trans (length_of_scanFrom_ok h) (Nat.le_of_eq String.length_toList)

end Typing

namespace Report

variable {text : String} {b : Buffer}

/-- A literal that a text types has no more digits than the text has characters. -/
theorem length_digits_le (h : bufferOfText text = .ok b) {l : Literal} (hl : .literal l ∈ b) :
    l.digits.length ≤ text.length := by
  have hwellFormed : l.WellFormed := (plain_of_bufferOfText h _ hl).2
  obtain ⟨ks, hscan, rfl⟩ := of_bufferOfText_ok h
  have hsized : Buffer.SizedBy (0 + ks.length) (ks.foldl Buffer.afterKey []) :=
    Buffer.sizedBy_foldl (by simp [Buffer.SizedBy]) ks
  rw [Nat.zero_add] at hsized
  -- A digit for each character of the literal, a character of it for each key, a key for each of the text.
  calc l.digits.length ≤ l.size := hwellFormed.length_digits_le
    _ ≤ ks.length := hsized l hl
    _ ≤ text.length := Typing.length_of_scan_ok hscan

end Report

/-! ## §3 Texts of digits -/

namespace Typing

/-- The digit that a character is. -/
def digitOf (c : Char) : Fin 10 :=
  Fin.ofNat 10 (c.toNat - 48)

variable {c : Char} {cs : List Char}

theorem exists_digit_of_isAsciiDigit (h : isAsciiDigit c = true) :
    ∃ d : Fin 10, c = Char.ofNat (48 + d) := by
  simp only [isAsciiDigit, Bool.and_eq_true, decide_eq_true_eq] at h
  refine ⟨⟨c.toNat - 48, by omega⟩, ?_⟩
  rw [show 48 + (c.toNat - 48) = c.toNat by omega, Char.ofNat_toNat]

/-- A digit is written as the character it was read from. -/
theorem toString_digitOf (h : isAsciiDigit c = true) : toString (digitOf c).val = String.singleton c := by
  obtain ⟨d, rfl⟩ := exists_digit_of_isAsciiDigit h
  clear h
  revert d
  decide

theorem characterKey?_digit (h : isAsciiDigit c = true) : characterKey? c = some (.digit (digitOf c)) := by
  obtain ⟨d, rfl⟩ := exists_digit_of_isAsciiDigit h
  clear h
  revert d
  decide

/-- No name begins with a digit. -/
theorem nameAt?_digit (h : isAsciiDigit c = true) (cs : List Char) : nameAt? (c :: cs) = none := by
  have hletters : ∀ entry ∈ names, entry.1.toList.head?.any (fun d => !isAsciiDigit d) = true := by
    decide
  refine List.find?_eq_none.mpr fun entry hentry hprefix => ?_
  have hletter := hletters entry hentry
  obtain ⟨rest, hrest⟩ := List.isPrefixOf_iff_prefix.mp hprefix
  -- A name that is a prefix would share its first letter with the digit.
  cases hname : entry.1.toList with
  | nil => simp [hname] at hletter
  | cons d ds =>
    rw [hname, List.cons_append, List.cons.injEq] at hrest
    simp [hname, hrest.1, h] at hletter

/-- A text of digits is scanned to their keys, one by one. By induction on the characters. -/
theorem scanFrom_digits (h : ∀ c ∈ cs, isAsciiDigit c = true) (position : Nat) :
    scanFrom 0 position cs = .ok (cs.map fun c => .digit (digitOf c)) := by
  induction cs generalizing position with
  | nil => rfl
  | cons c cs ih =>
    have hc := h c List.mem_cons_self
    have hrest := ih (fun d hd => h d (List.mem_cons_of_mem c hd)) (position + 1)
    simp only [scanFrom, isBlank_of_isAsciiDigit hc, nameAt?_digit hc, characterKey?_digit hc, hrest]
    rfl

/-- A whole number. -/
def wholeNumber (s : String) : Literal :=
  ⟨s, "", false, 0⟩

theorem wellFormed_wholeNumber {s : String} (hnonempty : s.isEmpty = false)
    (hdigits : ∀ c ∈ s.toList, isAsciiDigit c = true) : (wholeNumber s).WellFormed := by
  refine ⟨?_, hdigits, ?_, ?_⟩
  · simp only [Literal.isEmpty, wholeNumber, hnonempty, Bool.and_false]
  · simp [wholeNumber]
  · simp [wholeNumber]

theorem digits_wholeNumber {s : String} (hnonempty : s.isEmpty = false) :
    (wholeNumber s).digits = s := by
  simp [Literal.digits, wholeNumber, hnonempty]

/-- Digits are put behind those of the literal. By induction on the digits. -/
theorem foldl_digits (h : ∀ c ∈ cs, isAsciiDigit c = true) (s : String) :
    (cs.map fun c => Key.digit (digitOf c)).foldl Buffer.afterKey [.literal (wholeNumber s)]
      = [.literal (wholeNumber (s ++ String.ofList cs))] := by
  induction cs generalizing s with
  | nil => simp
  | cons c cs ih =>
    have hkey : Buffer.afterKey [.literal (wholeNumber s)] (.digit (digitOf c))
        = [.literal (wholeNumber (s ++ toString (digitOf c).val))] := rfl
    have htext : s ++ String.singleton c ++ String.ofList cs = s ++ String.ofList (c :: cs) :=
      String.toList_inj.mp (by simp)
    rw [List.map_cons, List.foldl_cons, hkey, toString_digitOf (h c List.mem_cons_self),
      ih (fun d hd => h d (List.mem_cons_of_mem c hd)), htext]

end Typing

/-- A text of digits types a whole number. -/
theorem Report.bufferOfText_digits {text : String} (hnonempty : text.isEmpty = false)
    (hdigits : ∀ c ∈ text.toList, isAsciiDigit c = true) (hlength : text.length ≤ Typing.longestText) :
    bufferOfText text = .ok [.literal (Typing.wholeNumber text)] := by
  -- The first digit begins the literal, and the others are typed behind it.
  have hfirst (d : Fin 10) : Buffer.afterKey [] (.digit d)
      = [.literal (Typing.wholeNumber ("" ++ toString d.val))] := rfl
  obtain ⟨c, cs, hcs⟩ : ∃ c cs, text.toList = c :: cs :=
    List.exists_cons_of_ne_nil fun h => by simp_all
  rw [bufferOfText_eq, Typing.scan, if_neg (Nat.not_lt.mpr hlength), Typing.scanFrom_digits hdigits]
  rw [hcs] at hdigits ⊢
  have htext : "" ++ String.singleton c ++ String.ofList cs = text :=
    String.toList_inj.mp (by simp [hcs])
  simp only [Except.map, List.map_cons, List.foldl_cons, hfirst]
  rw [Typing.toString_digitOf (hdigits c List.mem_cons_self),
    Typing.foldl_digits (fun d hd => hdigits d (List.mem_cons_of_mem c hd)), htext]

end Reckoner
