import Reckoner.Proofs.Buffer.Editing
import Reckoner.Proofs.Quantity.Rational

/-!
# Numbers as they are displayed

A literal is displayed with its whole digits in groups, unless there is an exponent. Without the commas this
is a decimal numeral, from which the literal can be read back, and which denotes the value of the literal.

- `Text.withoutCommas_addCommas`: grouping digits puts nothing in but commas;
- `Text.exponentOf?_toString`: an exponent is read as it was written;
- `Literal.ofText?_text`: a literal of digits is read back from its display;
- `Literal.value_eq_shown`: its value is what its display denotes, unless there is no digit, or more than
  conversion takes. A zero stands for whole digits that are missing, and counts as a digit there, so a
  literal with as many digits as conversion takes has no value if all of them are behind the point.
-/

namespace Reckoner

open Reckoner.Decimal (conversionLimit)

namespace Text

/-! ## §1 Commas -/

/-- A text without its commas. -/
def withoutCommas (s : String) : String :=
  String.ofList (s.toList.filter (· ≠ ','))

theorem withoutCommas_append (s t : String) :
    withoutCommas (s ++ t) = withoutCommas s ++ withoutCommas t := by
  simp only [withoutCommas, String.toList_append, List.filter_append, String.ofList_append]

theorem withoutCommas_eq_self {s : String} (h : ',' ∉ s.toList) : withoutCommas s = s := by
  have hfilter : s.toList.filter (· ≠ ',') = s.toList :=
    List.filter_eq_self.mpr fun c hc => decide_eq_true fun hcomma => h (hcomma ▸ hc)
  rw [withoutCommas, hfilter, String.ofList_toList]

/-- Groups have the digits that they are made of. By induction on the groups. -/
theorem filter_commaGroups (cs : List Char) :
    (commaGroups cs).filter (· ≠ ',') = cs.filter (· ≠ ',') := by
  induction cs using commaGroups.induct with
  | case1 a b c rest ih =>
    rw [commaGroups, List.filter_cons_of_neg (by decide)]
    simp only [List.filter_cons, ih]
  | case2 rest hshort => rw [commaGroups.eq_2 rest hshort]

/-- Grouping digits puts nothing in but commas. -/
theorem withoutCommas_addCommas (digits : String) :
    withoutCommas (addCommas digits) = withoutCommas digits := by
  rw [withoutCommas, addCommas, String.toList_ofList, grouped, List.filter_append, filter_commaGroups,
    ← List.filter_append, List.take_append_drop, withoutCommas]

/-- Digits are no commas. -/
theorem comma_notMem {s : String} (h : ∀ c ∈ s.toList, isAsciiDigit c = true) : ',' ∉ s.toList :=
  fun hcomma => absurd (h ',' hcomma) (by decide)

/-! ## §2 Numerals -/

/-- A natural is read from its digits. -/
theorem natOfDigits_toString (n : Nat) : natOfDigits (toString n) = n := by
  have hread : natOfDigits (toString n) = Nat.ofDigitChars 10 (Nat.toDigits 10 n) 0 := by
    rw [natOfDigits, ofDigits, Nat.toString_eq_ofList_toDigits, String.toList_ofList, List.foldl_map,
      Nat.ofDigitChars_eq_foldl]
    rfl
  rw [hread, Nat.ofDigitChars_ten_toDigits]

/-- An integer is written as its magnitude, behind a sign if it is negative. -/
theorem toList_toString_int (e : Int) : (toString e).toList
    = if e < 0 then '-' :: (toString e.natAbs).toList else (toString e.natAbs).toList := by
  cases e with
  | ofNat n => rfl
  | negSucc n =>
    rw [if_pos (Int.negSucc_lt_zero n), Int.toString_eq_repr, Int.repr, String.toList_append]
    rfl

/-- An exponent is what its sign and its digits say, behind a letter in either case. -/
theorem exponentOf?_cons {letter : Char} (hletter : letter.toLower = 'e') {cs : List Char}
    {negative : Bool} {n : Nat} (hsplit : splitSign cs = (negative, (toString n).toList)) :
    exponentOf? (letter :: cs) = some (if negative then -(n : Int) else n) := by
  have hsome : (toString n).toList.isEmpty = false := by
    rw [Nat.toString_eq_ofList_toDigits, String.toList_ofList, List.isEmpty_eq_false_iff]
    exact Nat.toDigits_ne_nil
  have hall : (toString n).toList.all isAsciiDigit = true := List.all_eq_true.mpr (Literal.digits_toString n)
  have hvalue : ofDigits ((toString n).toList.map (·.toNat - 48)) = n := natOfDigits_toString n
  rw [exponentOf?, if_neg (not_not.mpr hletter), hsplit]
  simp only [hsome, hall, hvalue]
  rfl

/-- An exponent is read as it was written. -/
theorem exponentOf?_toString (e : Int) : exponentOf? ('E' :: (toString e).toList) = some e := by
  -- The sign is taken off first, and what is left are the digits of the magnitude.
  have hsplit : splitSign (toString e).toList = (decide (e < 0), (toString e.natAbs).toList) := by
    rw [toList_toString_int]
    by_cases hneg : e < 0
    · rw [if_pos hneg, decide_eq_true hneg]
      rfl
    · rw [if_neg hneg, decide_eq_false hneg, splitSign_digits (Literal.digits_toString e.natAbs)]
  rw [exponentOf?_cons (by decide) hsplit]
  simp only [decide_eq_true_eq, Option.some.injEq]
  split <;> omega

/-- Digits end where something else begins. -/
theorem span_digits {cs rest : List Char} (hcs : ∀ c ∈ cs, isAsciiDigit c = true)
    (hrest : ∀ c ∈ rest.head?, isAsciiDigit c = false) :
    (cs ++ rest).takeWhile isAsciiDigit = cs ∧ (cs ++ rest).dropWhile isAsciiDigit = rest := by
  rw [List.takeWhile_append_of_pos hcs, List.dropWhile_append_of_pos hcs]
  cases rest with
  | nil => exact ⟨List.append_nil cs, rfl⟩
  | cons c rest =>
    have hc : ¬isAsciiDigit c = true := by simp [hrest c rfl]
    rw [List.takeWhile_cons_of_neg hc, List.dropWhile_cons_of_neg hc, List.append_nil]
    exact ⟨rfl, rfl⟩

end Text

/-! ## §3 Literals -/

namespace Literal

open Reckoner.Text

/-- Read what comes behind the whole digits of a numeral: a point with digits, and an exponent. -/
def behindWhole? (whole : String) : List Char → Option Literal
  | '.' :: cs =>
    (exponentOf? (cs.dropWhile isAsciiDigit)).map
      (⟨whole, String.ofList (cs.takeWhile isAsciiDigit), true, ·⟩)
  | cs => (exponentOf? cs).map (⟨whole, "", false, ·⟩)

/-- Read a decimal numeral. -/
def ofText? (s : String) : Option Literal :=
  behindWhole? (String.ofList (s.toList.takeWhile isAsciiDigit)) (s.toList.dropWhile isAsciiDigit)

/-- The rational that a decimal numeral denotes, which needs a digit. -/
def rationalOf? (s : String) : Option Rat :=
  (ofText? s).bind fun l => if l.isBare then none else some l.denoted

variable {l : Literal}

/-- What is displayed of an exponent. -/
def exponentChars (l : Literal) : List Char :=
  if l.exponent ≠ 0 then 'E' :: (toString l.exponent).toList else []

/-- What is displayed behind the whole digits. -/
def trailingChars (l : Literal) : List Char :=
  (if l.point then '.' :: l.fraction.toList else []) ++ l.exponentChars

/-- The exponent is read from its display, and is zero where none is displayed. -/
theorem exponentOf?_exponentChars (l : Literal) : exponentOf? l.exponentChars = some l.exponent := by
  unfold exponentChars
  split
  · exact exponentOf?_toString l.exponent
  · next hzero => rw [not_not.mp hzero]; rfl

/-- An exponent begins with its letter. -/
theorem head?_exponentChars {c : Char} (hc : c ∈ l.exponentChars.head?) : c = 'E' := by
  unfold exponentChars at hc
  split at hc
  · exact (Option.some.inj hc).symm
  · cases hc

/-- Behind the whole digits comes a point or an exponent. -/
theorem head?_trailingChars {c : Char} (hc : c ∈ l.trailingChars.head?) : c = '.' ∨ c = 'E' := by
  unfold trailingChars at hc
  split at hc
  · exact .inl (Option.some.inj hc).symm
  · exact .inr (head?_exponentChars hc)

/-- There are no commas in an exponent. -/
theorem comma_notMem_exponentChars (l : Literal) : ',' ∉ l.exponentChars := by
  have hdigits := comma_notMem (digits_toString l.exponent.natAbs)
  unfold exponentChars
  split
  · rw [toList_toString_int, List.mem_cons, not_or]
    -- Neither the letter nor the sign is a comma.
    refine ⟨by decide, ?_⟩
    split
    · exact List.not_mem_cons_of_ne_of_not_mem (by decide) hdigits
    · exact hdigits
  · exact List.not_mem_nil

/-- A display is the whole digits, in groups or not, and what is behind them. -/
theorem text_eq (l : Literal) : l.text
    = (if l.exponent ≠ 0 then l.whole else addCommas l.whole) ++ String.ofList l.trailingChars := by
  rw [text, String.append_assoc, trailingChars, exponentChars]
  congr 1
  apply String.toList_injective
  cases l.point <;> by_cases hexp : l.exponent = 0 <;> simp [hexp]

/-- The display without its commas. -/
theorem toList_withoutCommas_text (h : l.AllDigits) :
    (withoutCommas l.text).toList = l.whole.toList ++ l.trailingChars := by
  -- With an exponent the whole digits are not grouped, and so have no commas at all.
  have hwhole : withoutCommas (if l.exponent ≠ 0 then l.whole else addCommas l.whole) = l.whole := by
    split
    · exact withoutCommas_eq_self (comma_notMem h.whole)
    · rw [withoutCommas_addCommas, withoutCommas_eq_self (comma_notMem h.whole)]
  have htrailing : ',' ∉ (String.ofList l.trailingChars).toList := by
    have hfraction := comma_notMem h.fraction
    have hexponent := comma_notMem_exponentChars l
    rw [String.toList_ofList, trailingChars]
    cases l.point <;> simp [hfraction, hexponent]
  rw [text_eq, withoutCommas_append, hwhole, withoutCommas_eq_self htrailing, String.toList_append,
    String.toList_ofList]

/-- A literal of digits is read back from its display. -/
theorem ofText?_text (h : l.AllDigits) (hpoint : l.fraction.isEmpty = false → l.point = true) :
    ofText? (withoutCommas l.text) = some l := by
  have htrailing : ∀ c ∈ l.trailingChars.head?, isAsciiDigit c = false := by
    intro c hc
    rcases head?_trailingChars hc with rfl | rfl <;> rfl
  have hexponent : ∀ c ∈ l.exponentChars.head?, isAsciiDigit c = false := by
    intro c hc
    rw [head?_exponentChars hc]
    rfl
  -- The whole digits end where a point or an exponent begins, or at the end.
  obtain ⟨htake, hdrop⟩ := span_digits h.whole htrailing
  rw [ofText?, toList_withoutCommas_text h, htake, hdrop, String.ofList_toList, trailingChars]
  cases hp : l.point with
  | true =>
    obtain ⟨htakes, hdrops⟩ := span_digits h.fraction hexponent
    rw [if_pos rfl, List.cons_append, behindWhole?, htakes, hdrops, exponentOf?_exponentChars,
      String.ofList_toList, ← hp]
    rfl
  | false =>
    have hfraction : l.fraction = "" := fraction_eq_empty hpoint (Bool.eq_false_iff.mp hp)
    -- Without a point, what follows must not be taken for one.
    have hother (cs : List Char) : l.exponentChars ≠ '.' :: cs := by
      intro hcs
      have := head?_exponentChars (l := l) (c := '.') (by rw [hcs]; rfl)
      exact absurd this (by decide)
    rw [if_neg nofun, List.nil_append, behindWhole?.eq_2 _ _ hother, exponentOf?_exponentChars, ← hp,
      ← hfraction]
    rfl

theorem isBare_iff : l.isBare = true ↔ l.whole = "" ∧ l.fraction = "" := by
  rw [isBare, Bool.and_eq_true, String.isEmpty_iff, String.isEmpty_iff]

/-- Whole digits that are missing count as one digit. -/
theorem length_digits (l : Literal) : l.digits.length = max 1 l.whole.length + l.fraction.length := by
  rw [digits, String.length_append]
  split
  · next hwhole =>
    rw [String.isEmpty_iff.mp hwhole]
    rfl
  · next hwhole =>
    have hpos : l.whole.length ≠ 0 :=
      fun hzero => hwhole (String.isEmpty_iff.mpr (String.length_eq_zero_iff.mp hzero))
    omega

/-- The display of a literal of digits, without its commas, gives the literal back. The literal is incomplete
exactly if it has no digit. Otherwise its value is what the display denotes, unless the digits are more than
conversion takes. -/
theorem value_eq_shown (hdigits : l.AllDigits) (hpoint : l.fraction.isEmpty = false → l.point = true) :
    ofText? (withoutCommas l.text) = some l
    ∧ (l.value = .error .incomplete ↔ l.whole = "" ∧ l.fraction = "")
    ∧ (¬(l.whole = "" ∧ l.fraction = "") → ∃ q, rationalOf? (withoutCommas l.text) = some q
        ∧ l.value = if conversionLimit < max 1 l.whole.length + l.fraction.length
          then .error .tooManyDigits else .ok (.rational q)) := by
  have hread := ofText?_text hdigits hpoint
  have hvalue (hbare : l.isBare = false) := hdigits.value_eq hbare
  rw [← isBare_iff, ← length_digits]
  refine ⟨hread, ⟨?_, WellFormed.value_of_isBare⟩, ?_⟩
  -- A literal with a digit is never incomplete, only overlong.
  · intro hincomplete
    by_contra hbare
    rw [hvalue (Bool.eq_false_iff.mpr hbare)] at hincomplete
    split at hincomplete <;> cases hincomplete
  · intro hbare
    refine ⟨l.denoted, ?_, ?_⟩
    · rw [rationalOf?, hread, Option.bind_some, if_neg hbare]
    · rw [hvalue (Bool.eq_false_iff.mpr hbare), scaled_eq]

/-- A number with groups of digits. -/
def millions : Literal :=
  ⟨"1234567", "25", true, 0⟩

/-- A number that is displayed in groups, with digits behind the point. -/
theorem value_eq_shown_millions :
    millions.AllDigits ∧ (millions.fraction.isEmpty = false → millions.point = true)
    ∧ millions.text = "1,234,567.25"
    ∧ ofText? (withoutCommas millions.text) = some millions
    ∧ ¬(millions.whole = "" ∧ millions.fraction = "")
    ∧ rationalOf? (withoutCommas millions.text) = some (4938269 / 4)
    ∧ millions.value = .ok (.rational (4938269 / 4)) := by
  have hdigits : millions.AllDigits := by decide
  have hsome : ¬(millions.whole = "" ∧ millions.fraction = "") := by decide
  obtain ⟨hread, -, hshown⟩ := value_eq_shown hdigits fun _ => rfl
  obtain ⟨q, hq, hvalue⟩ := hshown hsome
  have hdenoted : rationalOf? (withoutCommas millions.text) = some (4938269 / 4) := by decide +kernel
  obtain rfl : q = 4938269 / 4 := Option.some.inj (hq.symm.trans hdenoted)
  rw [if_neg (by decide)] at hvalue
  exact ⟨hdigits, fun _ => rfl, by decide, hread, hsome, hdenoted, hvalue⟩

/-- Ones behind a point. -/
def onesBehindPoint (n : Nat) : Literal :=
  ⟨"", String.ofList (List.replicate n '1'), true, 0⟩

/-- Ones behind a point are digits. -/
theorem allDigits_onesBehindPoint (n : Nat) : (onesBehindPoint n).AllDigits where
  whole := by simp [onesBehindPoint]
  fraction := by
    simp only [onesBehindPoint, String.toList_ofList, List.mem_replicate]
    rintro c ⟨-, rfl⟩
    rfl

theorem length_fraction_onesBehindPoint (n : Nat) : (onesBehindPoint n).fraction.length = n := by
  simp [onesBehindPoint]

/-- As many digits as conversion takes have no value if they are all behind the point. -/
theorem tooManyDigits_onesBehindPoint :
    (onesBehindPoint conversionLimit).AllDigits
    ∧ (onesBehindPoint conversionLimit).point = true
    ∧ (onesBehindPoint conversionLimit).whole.length + (onesBehindPoint conversionLimit).fraction.length
      = conversionLimit
    ∧ (∃ q, rationalOf? (withoutCommas (onesBehindPoint conversionLimit).text) = some q)
    ∧ (onesBehindPoint conversionLimit).value = .error .tooManyDigits := by
  have hdigits := allDigits_onesBehindPoint conversionLimit
  have hlength := length_fraction_onesBehindPoint conversionLimit
  have hbare : (onesBehindPoint conversionLimit).isBare = false := by
    rw [Bool.eq_false_iff]
    intro hbare
    rw [(isBare_iff.mp hbare).2] at hlength
    exact absurd hlength (by decide)
  -- The zero that stands for the whole digits is one digit too many.
  have hlong : conversionLimit < (onesBehindPoint conversionLimit).digits.length := by
    rw [length_digits, hlength]
    exact Nat.lt_add_of_pos_left (by decide)
  have hdenoted : rationalOf? (withoutCommas (onesBehindPoint conversionLimit).text)
      = some (onesBehindPoint conversionLimit).denoted := by
    rw [rationalOf?, ofText?_text hdigits fun _ => rfl, Option.bind_some, hbare]
    rfl
  refine ⟨hdigits, rfl, ?_, ⟨_, hdenoted⟩, ?_⟩
  · rw [hlength]
    exact Nat.zero_add conversionLimit
  · rw [hdigits.value_eq hbare, if_pos hlong]

end Literal

end Reckoner
