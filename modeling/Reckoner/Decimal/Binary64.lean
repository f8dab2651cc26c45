import Reckoner.Decimal.Significant

/-!
# Binary64 numbers

Floating-point numbers with 53 bits, by their exact values.

- `ofRatio` rounds a ratio to the nearest of them, a half going to the even neighbour; what is too
  large becomes infinite, and what is too small keeps fewer bits;
- `text` is the shortest text that reads back as the same number. For one digit, two digits and so
  on, the two neighbours of the number on the grid of that many digits are tried; the first grid
  with a neighbour that rounds to the number wins, and of two such neighbours the nearer one.
-/

namespace Reckoner.Decimal

/-! ## §1 Numbers -/

/-- A finite number is `mantissa * 2 ^ exponent`, with a sign. -/
inductive Binary64 where
  | finite (negative : Bool) (mantissa : Nat) (exponent : Int)
  | infinite (negative : Bool)
  | notANumber
  deriving DecidableEq, Repr, Inhabited

namespace Binary64

def precision : Nat := 53

/-- The exponent of the smallest numbers. -/
def leastExponent : Int := -1074

/-- The exponent of the largest mantissas. -/
def largestExponent : Int := 971

/-- The nearest number to a ratio. -/
def ofRatio (negative : Bool) (r : Ratio) : Binary64 :=
  if r.num = 0 then .finite negative 0 leastExponent
  else
    -- Below the smallest exponent bits are lost instead.
    let e := max (binade r - (precision - 1)) leastExponent
    let m := (r.scale 2 (-e)).roundHalfEven
    let (m, e) := if m = 2 ^ precision then (2 ^ (precision - 1), e + 1) else (m, e)
    if largestExponent < e then .infinite negative else .finite negative m e

def ofRat (q : Rat) : Binary64 :=
  ofRatio (q < 0) (Ratio.ofRat q)

/-! ## §2 Shortest digits -/

/-- Whether a ratio lies between two others, ends included or not. -/
def liesBetween (ends : Bool) (low high r : Ratio) : Bool :=
  if ends then low.num * r.den ≤ r.num * low.den && r.num * high.den ≤ high.num * r.den
  else low.num * r.den < r.num * low.den && r.num * high.den < high.num * r.den

/-- Whether a ratio rounds to the number `m * 2 ^ e`. Below a power of two the numbers are closer
together. -/
def roundsTo (m : Nat) (e : Int) (r : Ratio) : Bool :=
  -- The ends of the interval lie halfway to the neighbours, in quarters of the last bit.
  let below := if m = 2 ^ (precision - 1) ∧ leastExponent < e then 1 else 2
  let quarter (n : Nat) : Ratio := (⟨n, 1⟩ : Ratio).scale 2 (e - 2)
  liesBetween (m % 2 = 0) (quarter (4 * m - below)) (quarter (4 * m + 2)) r

/-- The multiple of `10 ^ g` next to `m * 2 ^ e` that rounds to it, if there is one. -/
def neighbour? (m : Nat) (e g : Int) : Option Nat :=
  let scaled := ((⟨m, 1⟩ : Ratio).scale 2 e).scale 10 (-g)
  let below := scaled.floor
  let fits (n : Nat) : Bool := roundsTo m e ((⟨n, 1⟩ : Ratio).scale 10 g)
  match fits below, fits (below + 1) with
  | true, true => some scaled.roundHalfEven
  | true, false => some below
  | false, true => some (below + 1)
  | false, false => none

/-- The shortest digits of `m * 2 ^ e`, and the exponent of the last one: grids of `k` digits are
tried for ascending `k`. -/
def shortest (m : Nat) (e first : Int) : Nat → Nat → Nat × Int
  | 0, _ => (m, e)
  | fuel + 1, k =>
    let g := first - (k - 1)
    match neighbour? m e g with
    | some n => (n, g)
    | none => shortest m e first fuel (k + 1)

/-- Digits that tell any two numbers apart. -/
def mostDigits : Nat := 17

/-- Drop zeros at the end of a number's digits, counting them into the exponent of the last one. -/
def trimZeros (cs : List Char) (g : Int) : List Char × Int :=
  let kept := (cs.reverse.dropWhile (· == '0')).reverse
  (kept, g + (cs.length - kept.length))

/-! ## §3 Text -/

/-- Least exponent of positional text. -/
def leastPositional : Int := -4

/-- Exponents from here on are written out. -/
def firstScientific : Int := 16

/-- An exponent with a sign and at least two digits. -/
def exponentText (e : Int) : String :=
  let digits := toString e.natAbs
  "e" ++ (if e < 0 then "-" else "+") ++ (if digits.length < 2 then "0" ++ digits else digits)

/-- Lay out digits, the first of them at `10 ^ e`. -/
def layout (cs : List Char) (e : Int) : String :=
  if leastPositional ≤ e ∧ e < firstScientific then
    if e < 0 then String.ofList ('0' :: '.' :: List.replicate ((-e).toNat - 1) '0' ++ cs)
    else
      let whole := cs.take (e.toNat + 1)
      let fraction := cs.drop (e.toNat + 1)
      let filled := whole ++ List.replicate (e.toNat + 1 - whole.length) '0'
      String.ofList (filled ++ '.' :: (if fraction.isEmpty then ['0'] else fraction))
  else
    String.ofList (cs.take 1 ++ (if cs.length = 1 then [] else '.' :: cs.drop 1)) ++ exponentText e

/-- The shortest text that reads back as the number. -/
def text : Binary64 → String
  | .notANumber => "nan"
  | .infinite negative => if negative then "-inf" else "inf"
  | .finite negative m e =>
    let unsigned :=
      if m = 0 then "0.0"
      else
        let first := decade ((⟨m, 1⟩ : Ratio).scale 2 e)
        let (n, g) := shortest m e first mostDigits 1
        let (cs, g) := trimZeros (toString n).toList g
        layout cs (g + (cs.length - 1))
    if negative then "-" ++ unsigned else unsigned

end Binary64

end Reckoner.Decimal
