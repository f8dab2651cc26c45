import Mathlib.Data.List.Find
import Reckoner.Proofs.Typing

/-!
# Scanning in pieces

Scanning looks ahead: for the longest name that begins at a character, and over blanks for the parenthesis of
a function. So what a part of a text is scanned to depends on what stands behind it. `Scans` says of a part,
with what stands behind it, which keys it is scanned to.

- `nameAt?_eq_some_iff`: at most one name begins at a place, so that their order does not matter;
- `gatherFrom` is scanning that keeps the keys it has collected when it fails, and `scanFrom_eq` says so;
- `Scans.gatherFrom_append`: a part that is scanned, and then the rest;
- `exists_scans`: every text is scanned up to its end, or up to a character that cannot be read;
- `Scans.exchange`: in front of such a character, what stands behind it matters only if it is a letter;
- `scan_located`: where scanning fails, and what was scanned before.
-/

namespace Reckoner.Typing

open Reckoner.Text

/-! ## §1 Names -/

/-- Names are made of letters, which are no blanks. -/
theorem letters_of_mem : ∀ entry ∈ names, entry.1.toList ≠ []
    ∧ ∀ c ∈ entry.1.toList, c.isAlpha = true ∧ isBlank c = false := by
  have hall : ∀ entry ∈ names, entry.1.toList ≠ []
      ∧ entry.1.toList.all (fun c => c.isAlpha && !isBlank c) = true := by
    decide
  intro entry hentry
  obtain ⟨hne, hletters⟩ := hall entry hentry
  refine ⟨hne, fun c hc => ?_⟩
  have hc := List.all_eq_true.mp hletters c hc
  rwa [Bool.and_eq_true, Bool.not_eq_true'] at hc

/-- No name begins with another one. -/
theorem eq_of_begins : ∀ entry ∈ names, ∀ other ∈ names,
    entry.1.toList <+: other.1.toList → entry = other := by
  decide

variable {cs ds : List Char} {entry : String × Symbol}

theorem of_nameAt? (h : nameAt? cs = some entry) : entry ∈ names ∧ entry.1.toList <+: cs := by
  unfold nameAt? at h
  have hprefix := List.find?_some h
  exact ⟨List.mem_of_find?_eq_some h, List.isPrefixOf_iff_prefix.mp hprefix⟩

theorem nameAt?_eq_none_iff : nameAt? cs = none ↔ ∀ entry ∈ names, ¬ entry.1.toList <+: cs := by
  rw [nameAt?, List.find?_eq_none]
  simp only [List.isPrefixOf_iff_prefix]

/-- The name that a text begins with is the only one. -/
theorem nameAt?_eq_some_iff : nameAt? cs = some entry ↔ entry ∈ names ∧ entry.1.toList <+: cs := by
  refine ⟨of_nameAt?, fun ⟨hmem, hprefix⟩ => ?_⟩
  cases hfound : nameAt? cs with
  | none => exact absurd hprefix (nameAt?_eq_none_iff.mp hfound entry hmem)
  | some other =>
    obtain ⟨hothermem, hother⟩ := of_nameAt? hfound
    -- Of two names that begin at one place, one begins with the other.
    rcases List.prefix_or_prefix_of_prefix hother hprefix with h | h
    · rw [eq_of_begins other hothermem entry hmem h]
    · rw [eq_of_begins entry hmem other hothermem h]

/-- Texts that begin with the same names. -/
theorem nameAt?_congr (h : ∀ entry ∈ names, entry.1.toList <+: cs ↔ entry.1.toList <+: ds) :
    nameAt? cs = nameAt? ds := by
  apply Option.ext
  intro entry
  rw [nameAt?_eq_some_iff, nameAt?_eq_some_iff]
  exact and_congr_right (h entry)

/-- A name begins with a letter, so it does not begin at a blank. -/
theorem isBlank_of_nameAt? {c : Char} (h : nameAt? (c :: cs) = some entry) : isBlank c = false := by
  obtain ⟨hmem, hprefix⟩ := nameAt?_eq_some_iff.mp h
  obtain ⟨hne, hletters⟩ := letters_of_mem entry hmem
  obtain ⟨d, name, hname⟩ := List.exists_cons_of_ne_nil hne
  rw [hname, List.cons_prefix_cons] at hprefix
  rw [← hprefix.1]
  exact (hletters d (by rw [hname]; exact List.mem_cons_self)).2

/-! ## §2 Collecting keys -/

/-- Scanning that keeps the keys collected before an error: these keys, and the error if there is one. -/
def gatherFrom (skip position : Nat) : List Char → List Key × Option TypingError
  | [] => ([], none)
  | c :: cs =>
    match skip with
    | skip + 1 => gatherFrom skip (position + 1) cs
    | 0 =>
      if isBlank c then gatherFrom 0 (position + 1) cs
      else
        match nameAt? (c :: cs) with
        | some (name, s) =>
          (gatherFrom (nameLength name s (c :: cs) - 1) (position + 1) cs).map (.symbol s :: ·) id
        | none =>
          match characterKey? c with
          | some k => (gatherFrom 0 (position + 1) cs).map (k :: ·) id
          | none => ([], some (.unknownCharacter c position))

/-- What is scanned, given the keys that were collected and the error if there is one. -/
def concluded : List Key × Option TypingError → Except TypingError (List Key)
  | (ks, none) => .ok ks
  | (_, some e) => .error e

theorem concluded_map (k : Key) (x : List Key × Option TypingError) :
    concluded (x.map (k :: ·) id) = (do return k :: (← concluded x)) := by
  obtain ⟨ks, e⟩ := x
  cases e <;> rfl

/-- Scanning collects keys, and returns them unless there is an error. By induction on the characters. -/
theorem scanFrom_eq (skip position : Nat) (cs : List Char) :
    scanFrom skip position cs = concluded (gatherFrom skip position cs) := by
  induction cs generalizing skip position with
  | nil => rfl
  | cons c cs ih =>
    cases skip with
    | succ skip => exact ih skip (position + 1)
    | zero =>
      rw [scanFrom, gatherFrom]
      split
      · exact ih 0 (position + 1)
      · cases nameAt? (c :: cs) with
        | some entry => simp only [ih, concluded_map]
        | none =>
          cases characterKey? c with
          | some k => simp only [ih, concluded_map]
          | none => rfl

theorem scan_eq {text : String} (h : text.length ≤ longestText) :
    scan text = concluded (gatherFrom 0 0 text.toList) := by
  rw [scan, if_neg (Nat.not_lt.mpr h), scanFrom_eq]

/-- Characters that are skipped. -/
theorem gatherFrom_skip (position : Nat) (cs ds : List Char) :
    gatherFrom cs.length position (cs ++ ds) = gatherFrom 0 (position + cs.length) ds := by
  induction cs generalizing position with
  | nil => rfl
  | cons c cs ih =>
    have hposition : position + (c :: cs).length = position + 1 + cs.length := by
      rw [List.length_cons]
      omega
    rw [hposition]
    exact ih (position + 1)

/-! ## §3 Parts of a text -/

/-- In front of `rest`, the characters are scanned to the keys, and `rest` is not touched. -/
inductive Scans (rest : List Char) : List Char → List Key → Prop where
  | done : Scans rest [] []
  | blank {c : Char} {front : List Char} {ks : List Key} (hblank : isBlank c = true) :
      Scans rest front ks → Scans rest (c :: front) ks
  | named {piece front : List Char} {ks : List Key} {name : String} {s : Symbol}
      (hname : nameAt? (piece ++ front ++ rest) = some (name, s))
      (hlength : piece.length = nameLength name s (piece ++ front ++ rest)) :
      Scans rest front ks → Scans rest (piece ++ front) (.symbol s :: ks)
  | single {c : Char} {front : List Char} {ks : List Key} {k : Key} (hblank : isBlank c = false)
      (hname : nameAt? (c :: (front ++ rest)) = none) (hkey : characterKey? c = some k) :
      Scans rest front ks → Scans rest (c :: front) (k :: ks)

theorem length_pos_of_mem {name : String} {s : Symbol} (h : (name, s) ∈ names) : 0 < name.length := by
  rw [← String.length_toList, List.length_pos_iff]
  exact (letters_of_mem _ h).1

/-- What follows a part that is scanned is scanned behind it. -/
theorem Scans.gatherFrom_append {rest front : List Char} {ks : List Key} (h : Scans rest front ks)
    (position : Nat) : gatherFrom 0 position (front ++ rest)
      = (gatherFrom 0 (position + front.length) rest).map (ks ++ ·) id := by
  induction h generalizing position with
  | done => rfl
  | blank hblank _ ih =>
    rw [List.cons_append, gatherFrom, if_pos hblank, ih, List.length_cons]
    congr 2
    omega
  | @named piece front ks name s hname hlength _ ih =>
    obtain ⟨hmem, hprefix⟩ := of_nameAt? hname
    -- The first character of the name gives its key, and the others are skipped.
    obtain ⟨c, tail, rfl⟩ : ∃ c tail, piece = c :: tail := by
      refine List.exists_cons_of_length_pos ?_
      rw [hlength, nameLength]
      exact Nat.add_pos_left (length_pos_of_mem hmem) _
    have hskip : nameLength name s ((c :: tail) ++ front ++ rest) - 1 = tail.length := by
      rw [← hlength, List.length_cons, Nat.add_sub_cancel]
    simp only [List.cons_append] at hname hskip ⊢
    rw [gatherFrom, isBlank_of_nameAt? hname, hname]
    simp only [Bool.false_eq_true, if_false, hskip]
    have hposition : position + (c :: tail ++ front).length = position + 1 + tail.length + front.length := by
      simp only [List.length_append, List.length_cons]
      omega
    rw [List.append_assoc, gatherFrom_skip, ih, ← List.cons_append, hposition]
    rfl
  | @single c front ks k hblank hname hkey _ ih =>
    have hposition : position + (c :: front).length = position + 1 + front.length := by
      rw [List.length_cons]
      omega
    rw [List.cons_append, gatherFrom, hblank, hname, hkey, hposition]
    simp only [Bool.false_eq_true, if_false, ih]
    rfl

/-- What is scanned up to the end of a text. -/
theorem Scans.scan_ok {text : String} {ks : List Key} (h : Scans [] text.toList ks)
    (hlength : text.length ≤ longestText) : scan text = .ok ks := by
  have hgather := h.gatherFrom_append 0
  rw [List.append_nil] at hgather
  rw [scan_eq hlength, hgather]
  exact congrArg Except.ok (List.append_nil ks)

/-! ## §4 Characters that cannot be read -/

/-- A text begins with a character that is no blank, has no key and begins no name. -/
structure Unreadable (c : Char) (behind : List Char) : Prop where
  blank : isBlank c = false
  key : characterKey? c = none
  name : ∀ entry ∈ names, ¬ entry.1.toList <+: c :: behind

theorem Unreadable.gatherFrom_eq {c : Char} {behind : List Char} (h : Unreadable c behind) (position : Nat) :
    gatherFrom 0 position (c :: behind) = ([], some (.unknownCharacter c position)) := by
  rw [gatherFrom, h.blank, nameAt?_eq_none_iff.mpr h.name, h.key]
  rfl

/-- Blanks and a parenthesis that are found are part of the text. -/
theorem parenthesisLength_le (cs : List Char) : parenthesisLength cs ≤ cs.length := by
  unfold parenthesisLength
  split
  · next tail hdrop =>
    have hsplit := congrArg List.length (List.takeWhile_append_dropWhile (p := isBlank) (l := cs))
    rw [List.length_append, hdrop, List.length_cons] at hsplit
    omega
  · exact Nat.zero_le _

/-- A name and its parenthesis are part of the text. -/
theorem nameLength_le {name : String} {s : Symbol} (h : name.toList <+: cs) :
    nameLength name s cs ≤ cs.length := by
  have hname := h.length_le
  have hparenthesis := parenthesisLength_le (cs.drop name.length)
  rw [String.length_toList] at hname
  rw [List.length_drop] at hparenthesis
  unfold nameLength
  split <;> omega

/-- Every text is scanned up to its end, or up to a character that cannot be read. By induction on its
length. -/
theorem exists_scans (cs : List Char) : ∃ front rest ks, cs = front ++ rest ∧ Scans rest front ks
    ∧ (rest = [] ∨ ∃ c behind, rest = c :: behind ∧ Unreadable c behind) := by
  obtain ⟨n, hn⟩ : ∃ n, cs.length ≤ n := ⟨_, Nat.le_refl _⟩
  induction n generalizing cs with
  | zero =>
    obtain rfl := List.length_eq_zero_iff.mp (Nat.le_zero.mp hn)
    exact ⟨[], [], [], rfl, .done, .inl rfl⟩
  | succ n ih =>
    cases cs with
    | nil => exact ⟨[], [], [], rfl, .done, .inl rfl⟩
    | cons c cs =>
      have hcs : cs.length ≤ n := Nat.le_of_succ_le_succ hn
      -- At a character: a blank, a name, a key of one character, or nothing that can be read.
      cases hblank : isBlank c with
      | true =>
        obtain ⟨front, rest, ks, rfl, hscans, hrest⟩ := ih cs hcs
        exact ⟨c :: front, rest, ks, rfl, .blank hblank hscans, hrest⟩
      | false =>
        cases hname : nameAt? (c :: cs) with
        | some entry =>
          obtain ⟨name, s⟩ := entry
          obtain ⟨hmem, hprefix⟩ := of_nameAt? hname
          have hpositive := length_pos_of_mem hmem
          have hle : nameLength name s (c :: cs) ≤ (c :: cs).length := nameLength_le hprefix
          -- A name has a letter at least, so less is left behind it.
          have hshorter : ((c :: cs).drop (nameLength name s (c :: cs))).length ≤ n := by
            rw [List.length_drop]
            unfold nameLength at hle ⊢
            omega
          obtain ⟨front, rest, ks, hdrop, hscans, hrest⟩ := ih _ hshorter
          have hsplit : c :: cs = (c :: cs).take (nameLength name s (c :: cs)) ++ front ++ rest := by
            rw [List.append_assoc, ← hdrop, List.take_append_drop]
          refine ⟨_, rest, _, hsplit, .named (hsplit ▸ hname) ?_ hscans, hrest⟩
          rw [← hsplit, List.length_take, Nat.min_eq_left hle]
        | none =>
          cases hkey : characterKey? c with
          | some k =>
            obtain ⟨front, rest, ks, rfl, hscans, hrest⟩ := ih cs hcs
            exact ⟨c :: front, rest, k :: ks, rfl, .single hblank hname hkey hscans, hrest⟩
          | none =>
            exact ⟨[], c :: cs, [], rfl, .done,
              .inr ⟨c, cs, rfl, hblank, hkey, nameAt?_eq_none_iff.mp hname⟩⟩

/-! ## §5 What stands behind -/

/-- The end of a text, or a character with no letter behind it. -/
inductive Stops (c : Char) : List Char → Prop where
  | nothing : Stops c []
  | character {behind : List Char} (h : ∀ d, behind.head? = some d → d.isAlpha = false) :
      Stops c (c :: behind)

variable {c : Char} {front behind rest : List Char}

/-- A name that does not reach as far as a character is not made longer by what comes in its place. -/
theorem prefix_exchange (front : List Char) (hmem : entry ∈ names)
    (hshort : entry.1.toList <+: front ++ c :: behind → entry.1.toList.length ≤ front.length)
    (hrest : Stops c rest) :
    entry.1.toList <+: front ++ rest ↔ entry.1.toList <+: front ++ c :: behind := by
  constructor
  · intro h
    by_cases hle : entry.1.toList.length ≤ front.length
    · exact (List.prefix_of_prefix_length_le h (List.prefix_append _ _) hle).trans (List.prefix_append _ _)
    · -- A longer name would have the character in it, and a letter behind it.
      obtain ⟨more, hmore⟩ := List.prefix_of_prefix_length_le (List.prefix_append front rest) h (by omega)
      rw [← hmore, List.prefix_append_right_inj] at h ⊢
      rw [← hmore, List.length_append] at hle
      cases more with
      | nil => exact List.nil_prefix
      | cons d more =>
        cases hrest with
        | nothing => cases List.prefix_nil.mp h
        | character hletter =>
          obtain ⟨rfl, hmorebehind⟩ := List.cons_prefix_cons.mp h
          cases more with
          | nil => exact List.cons_prefix_cons.mpr ⟨rfl, List.nil_prefix⟩
          | cons e more =>
            obtain ⟨tail, rfl⟩ := hmorebehind
            have he := ((letters_of_mem entry hmem).2 e (by simp [← hmore])).1
            rw [hletter e rfl] at he
            cases he
  · intro h
    exact (List.prefix_of_prefix_length_le h (List.prefix_append _ _) (hshort h)).trans
      (List.prefix_append _ _)

theorem parenthesisLength_cons (c : Char) (cs : List Char) : parenthesisLength (c :: cs)
    = if isBlank c then (if parenthesisLength cs = 0 then 0 else parenthesisLength cs + 1)
      else if c = '(' then 1 else 0 := by
  unfold parenthesisLength
  cases hblank : isBlank c with
  | true =>
    rw [List.dropWhile_cons_of_pos hblank, List.takeWhile_cons_of_pos hblank, if_pos rfl]
    split <;> simp
  | false =>
    have hnot : ¬isBlank c = true := by rw [hblank]; nofun
    rw [List.dropWhile_cons_of_neg hnot, List.takeWhile_cons_of_neg hnot]
    split <;> simp_all

/-- The parenthesis of a function is looked for up to the first character that is no blank. -/
theorem parenthesisLength_exchange (hblank : isBlank c = false) (hparen : c ≠ '(') (hrest : Stops c rest)
    (front : List Char) :
    parenthesisLength (front ++ rest) = parenthesisLength (front ++ c :: behind) := by
  -- The character is no blank and no parenthesis, so looking ahead stops there.
  have hnone (tail : List Char) : parenthesisLength (c :: tail) = 0 := by
    rw [parenthesisLength_cons, hblank, if_neg nofun, if_neg hparen]
  induction front with
  | nil =>
    rw [List.nil_append, List.nil_append, hnone]
    cases hrest with
    | nothing => rfl
    | character h => exact hnone _
  | cons d front ih =>
    rw [List.cons_append, List.cons_append, parenthesisLength_cons, parenthesisLength_cons, ih]

/-- Characters that are scanned in front of one that cannot be read are scanned alike if the text ends there,
or goes on with no letter behind that character. -/
theorem Scans.exchange {ks : List Key} (h : Scans (c :: behind) front ks) (hblank : isBlank c = false)
    (hkey : characterKey? c = none) (hrest : Stops c rest) : Scans rest front ks := by
  induction h with
  | done => exact .done
  | blank hblank _ ih => exact .blank hblank ih
  | @named piece front ks name s hname hlength _ ih =>
    obtain ⟨hmem, hprefix⟩ := of_nameAt? hname
    -- The name lies in front of the character, as nothing behind it is touched.
    have hle : name.length ≤ (piece ++ front).length := by
      rw [List.length_append, hlength, nameLength]
      omega
    -- Neither does another name begin here that would reach further.
    have hsame : nameAt? (piece ++ front ++ rest) = nameAt? (piece ++ front ++ c :: behind) := by
      refine nameAt?_congr fun entry hentry => prefix_exchange _ hentry (fun h => ?_) hrest
      have heq := hname.symm.trans (nameAt?_eq_some_iff.mpr ⟨hentry, h⟩)
      obtain rfl := Option.some.inj heq
      exact Nat.le_trans (Nat.le_of_eq String.length_toList) hle
    -- The parenthesis is looked for no further than to the character, which is none.
    have hparen : c ≠ '(' := by
      rintro rfl
      cases hkey
    refine .named (hsame.trans hname) ?_ ih
    rw [hlength, nameLength, nameLength, List.drop_append_of_le_length hle,
      List.drop_append_of_le_length hle, parenthesisLength_exchange hblank hparen hrest]
  | @single d front ks k hdblank hname hdkey _ ih =>
    -- Where no name began, none begins now: it would reach over the character.
    refine .single hdblank ?_ hdkey ih
    rw [← hname]
    refine nameAt?_congr fun entry hentry => prefix_exchange (d :: front) hentry (fun h => ?_) hrest
    exact absurd h (nameAt?_eq_none_iff.mp hname entry hentry)

/-! ## §6 Where scanning fails -/

/-- The numbers of the keys that scanning a text collects, also if it fails in the end. -/
def gathered (text : String) : List Int :=
  (gatherFrom 0 0 text.toList).1.map fun k => (k.code : Int)

theorem keysOf_of_scan_ok {text : String} {ks : List Key} (h : scan text = .ok ks) :
    keysOf text = .ok (ks.map fun k => (k.code : Int)) := by
  rw [keysOf, h]
  rfl

/-- Scanned keys are known, so that pressing them does not fail. -/
theorem press_codes {ks : List Key} {n : Int} (hn : n ∈ ks.map fun k => (k.code : Int)) (b : Buffer) :
    ∃ r, b.press n = .ok r := by
  obtain ⟨k, -, rfl⟩ := List.mem_map.mp hn
  rw [Buffer.press_eq, Key.ofCode?_code]
  exact ⟨_, rfl⟩

/-- Scanning fails at a character that cannot be read behind a part that is scanned. -/
theorem Scans.keysOf_error {ks : List Key} (h : Scans (c :: behind) front ks) (hc : Unreadable c behind)
    {text : String} (htext : text.toList = front ++ c :: behind) (hlength : text.length ≤ longestText) :
    keysOf text = .error (.unknownCharacter c front.length)
      ∧ gathered text = ks.map fun k => (k.code : Int) := by
  -- The keys in front are collected, and then the character stops scanning.
  have hgather : gatherFrom 0 0 text.toList = (ks, some (.unknownCharacter c front.length)) := by
    rw [htext, h.gatherFrom_append, hc.gatherFrom_eq, Nat.zero_add]
    exact congrArg (·, _) (List.append_nil ks)
  refine ⟨?_, by rw [gathered, hgather]⟩
  rw [keysOf, scan_eq hlength, hgather]
  rfl

/-- A character that cannot be read still cannot be read if no letter is behind it. -/
theorem Unreadable.exchange (h : Unreadable c behind) {tail : List Char}
    (htail : ∀ d, tail.head? = some d → d.isAlpha = false) : Unreadable c tail where
  blank := h.blank
  key := h.key
  name entry hentry hprefix := by
    refine h.name entry hentry ?_
    -- Nothing stands in front of the character, and no name reaches over it.
    exact (prefix_exchange [] hentry (fun hname => absurd hname (h.name entry hentry))
      (.character htail)).mp hprefix

/-- A text is too long, or it stands for keys that can all be pressed, or scanning fails at a character that
cannot be read. Then what is before that character stands for the keys collected so far, and every text that is
the same up to there and goes on with no letter fails at the same place. -/
theorem scan_located (text : String) :
    (longestText < text.length ∧ keysOf text = .error .tooLong)
    ∨ (∃ ns, keysOf text = .ok ns ∧ (∀ n ∈ ns, ∀ b : Buffer, ∃ r, b.press n = .ok r)
        ∧ ∃ b, Buffer.ofKeys ns = .ok b)
    ∨ ∃ i c, text.toList[i]? = some c ∧ keysOf text = .error (.unknownCharacter c i)
        ∧ Unreadable c (text.toList.drop (i + 1))
        ∧ keysOf (String.ofList (text.toList.take i)) = .ok (gathered text)
        ∧ ∀ other : String, other.length ≤ longestText → text.toList.take i ++ [c] <+: other.toList →
            (∀ d, other.toList[i + 1]? = some d → d.isAlpha = false) →
            keysOf other = .error (.unknownCharacter c i) := by
  by_cases hlength : text.length ≤ longestText
  · right
    -- The text is scanned as far as it can be read.
    obtain ⟨front, rest, ks, htext, hscans, rfl | ⟨c, behind, rfl, hc⟩⟩ := exists_scans text.toList
    · left
      -- It is read to its end.
      rw [List.append_nil] at htext
      have hscan := Scans.scan_ok (htext ▸ hscans) hlength
      exact ⟨_, keysOf_of_scan_ok hscan, fun n hn b => press_codes hn b, _, Buffer.pressAll_codes [] ks⟩
    · right
      -- It stops at a character, whose position is the length of what is in front.
      obtain ⟨herror, hgathered⟩ := hscans.keysOf_error hc htext hlength
      -- What is in front is no longer than the text, so it is not too long.
      have hfront : (String.ofList front).length ≤ longestText := by
        have hlong := congrArg List.length htext
        rw [String.length_toList, List.length_append] at hlong
        rw [String.length_ofList]
        omega
      refine ⟨front.length, c, ?_, herror, ?_, ?_, ?_⟩
      · rw [htext, List.getElem?_append_right (Nat.le_refl _), Nat.sub_self]
        rfl
      · rw [htext, List.drop_length_add_append]
        exact hc
      · rw [htext, List.take_left, hgathered]
        -- Cut off before the character, the text is scanned to the same keys.
        refine keysOf_of_scan_ok (Scans.scan_ok ?_ hfront)
        rw [String.toList_ofList]
        exact hscans.exchange hc.blank hc.key .nothing
      -- Another text that goes on with no letter behind the character is scanned alike up to it.
      · intro other hother hprefix hletter
        obtain ⟨tail, htail⟩ := hprefix
        rw [htext, List.take_left, List.append_assoc, List.singleton_append] at htail
        have hbehind : ∀ d, tail.head? = some d → d.isAlpha = false := by
          intro d hd
          refine hletter d ?_
          rw [← htail, List.getElem?_append_right (Nat.le_add_right _ 1), Nat.add_sub_cancel_left,
            List.getElem?_cons_succ, ← List.head?_eq_getElem?]
          exact hd
        exact ((hscans.exchange hc.blank hc.key (.character hbehind)).keysOf_error (hc.exchange hbehind)
          htail.symm hother).1
  · left
    -- A text that is too long is refused before it is scanned.
    rw [Nat.not_le] at hlength
    exact ⟨hlength, by rw [keysOf, scan, if_pos hlength]; rfl⟩

/-- Where `e` does not begin the name `exp`, it is a key of its own, and the `x` behind it has none. -/
example : keysOf "ex$p" = .error (.unknownCharacter 'x' 1) := rfl

end Reckoner.Typing
