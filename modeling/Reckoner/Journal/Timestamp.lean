import Reckoner.Decimal.Binary64

/-!
# Timestamps

A moment, in seconds from the start of 1970, as a date and a time of day: `2000-02-29T00:00:00`.
Microseconds are written only if there are any. Moments come as binary64 numbers; their fraction is
rounded to microseconds, a half going to the even neighbour.
-/

namespace Reckoner.Journal

open Reckoner.Decimal

/-! ## §1 Dates -/

/-- A day of the calendar. -/
structure Date where
  year : Int
  month : Nat
  day : Nat
  deriving DecidableEq, Repr, Inhabited

/-- Days from the first of March of year zero to the first of January 1970. -/
def epochDay : Int := 719468

/-- Days in four hundred years. -/
def eraDays : Int := 146097

/-- The date that lies a number of days after the first of January 1970. Years are counted from
March, so that leap days come last. -/
def Date.ofDays (days : Int) : Date :=
  let z := days + epochDay
  let era := z / eraDays
  let dayOfEra := (z % eraDays).toNat
  let yearOfEra :=
    (dayOfEra - dayOfEra / 1460 + dayOfEra / 36524 - dayOfEra / 146096) / 365
  let dayOfYear := dayOfEra - (365 * yearOfEra + yearOfEra / 4 - yearOfEra / 100)
  let m := (5 * dayOfYear + 2) / 153
  let month := if m < 10 then m + 3 else m - 9
  let year := (yearOfEra : Int) + era * 400 + (if month ≤ 2 then 1 else 0)
  ⟨year, month, dayOfYear - (153 * m + 2) / 5 + 1⟩

/-! ## §2 Moments -/

/-- Whole seconds and microseconds from the start of 1970. -/
structure Moment where
  seconds : Int
  micros : Nat
  deriving DecidableEq, Repr, Inhabited

/-- Microseconds in a second. -/
def microsPerSecond : Nat := 1000000

/-- Round the magnitude of a fraction to microseconds. -/
def roundMicros (fraction : Ratio) : Nat :=
  if fraction.num = 0 then 0
  else
    (nearestBinary Binary64.precision ⟨fraction.num * microsPerSecond, fraction.den⟩).roundHalfEven

/-- The moment that a binary64 number denotes, if it is finite. -/
def Moment.ofBinary64? : Binary64 → Option Moment
  | .finite negative m e =>
    let r := (⟨m, 1⟩ : Ratio).scale 2 e
    let whole := r.floor
    let micros := roundMicros ⟨r.num % r.den, r.den⟩
    if negative then
      if micros = 0 then some ⟨-whole, 0⟩
      else some ⟨-(whole : Int) - 1, microsPerSecond - micros⟩
    else if microsPerSecond ≤ micros then some ⟨whole + 1, micros - microsPerSecond⟩
    else some ⟨whole, micros⟩
  | _ => none

/-! ## §3 Text -/

/-- A moment lies outside the years that can be written. -/
inductive TimestampError where
  | year (n : Int)
  | notFinite
  deriving DecidableEq, Repr, Inhabited

/-- The wording of a timestamp error, where it has one. -/
def TimestampError.message? : TimestampError → Option String
  | .year n => some ("year " ++ toString n ++ " is out of range")
  | .notFinite => none

/-- A natural with at least a number of digits. -/
def padded (width n : Nat) : String :=
  let digits := toString n
  String.ofList (List.replicate (width - digits.length) '0') ++ digits

/-- How a moment is written. -/
def Moment.text (m : Moment) : Except TimestampError String :=
  let date := Date.ofDays (m.seconds / 86400)
  let second := (m.seconds % 86400).toNat
  if date.year < 1 ∨ 9999 < date.year then .error (.year date.year)
  else
    .ok (padded 4 date.year.toNat ++ "-" ++ padded 2 date.month ++ "-" ++ padded 2 date.day ++ "T"
      ++ padded 2 (second / 3600) ++ ":" ++ padded 2 (second / 60 % 60) ++ ":"
      ++ padded 2 (second % 60)
      ++ (if m.micros = 0 then "" else "." ++ padded 6 m.micros))

/-- How the moment of a binary64 number is written. -/
def timestamp (x : Binary64) : Except TimestampError String :=
  match Moment.ofBinary64? x with
  | some m => m.text
  | none => .error .notFinite

end Reckoner.Journal
