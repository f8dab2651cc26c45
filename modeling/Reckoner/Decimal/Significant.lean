import Reckoner.Power

/-!
# Significant digits

Positive rationals seen through their leading digits, in base ten and in base two.

- `decade` is the exponent of the first decimal digit;
- `Significant` is a run of leading decimal digits with that exponent, and `Significant.ofRatio`
  rounds a ratio to a given number of them, a half going up;
- `nearestBinary` rounds to a given number of bits, a half going to the even neighbour;
- `floorBinary` drops the bits below a given number of leading ones.

Everything is exact arithmetic on naturals: a ratio is a numerator over a positive denominator.
-/

namespace Reckoner.Decimal

/-! ## §1 Ratios and powers -/

/-- Number of bits of a natural; zero has none. -/
def bitLength (n : Nat) : Nat :=
  if n = 0 then 0 else n.log2 + 1

/-- A positive ratio of naturals, not necessarily in lowest terms. -/
structure Ratio where
  num : Nat
  den : Nat
  deriving DecidableEq, Repr, Inhabited

namespace Ratio

/-- The magnitude of a rational. -/
def ofRat (q : Rat) : Ratio :=
  ⟨q.num.natAbs, q.den⟩

/-- The rational that a ratio denotes. -/
def toRat (r : Ratio) : Rat :=
  (r.num : Rat) / (r.den : Rat)

/-- Multiply by an integer power of a base. -/
def scale (r : Ratio) (base : Nat) (e : Int) : Ratio :=
  if 0 ≤ e then ⟨r.num * base ^ e.toNat, r.den⟩ else ⟨r.num, r.den * base ^ (-e).toNat⟩

/-- The largest natural not above the ratio. -/
def floor (r : Ratio) : Nat :=
  r.num / r.den

/-- The nearest natural, a half going up. -/
def roundHalfUp (r : Ratio) : Nat :=
  (2 * r.num + r.den) / (2 * r.den)

/-- The nearest natural, a half going to the even neighbour. -/
def roundHalfEven (r : Ratio) : Nat :=
  -- The remainder is compared with half of the denominator, both doubled.
  let below := r.num / r.den
  let twice := 2 * (r.num % r.den)
  if twice < r.den then below
  else if r.den < twice then below + 1
  else if below % 2 = 0 then below else below + 1

/-- Whether the ratio reaches a power of ten. -/
def reaches (r : Ratio) (e : Int) : Bool :=
  if 0 ≤ e then r.den * 10 ^ e.toNat ≤ r.num else r.den ≤ r.num * 10 ^ (-e).toNat

end Ratio

/-! ## §2 The exponent of the first digit -/

/-- Climb from a power of ten that the ratio reaches to the last one it reaches. -/
def climb (r : Ratio) : Nat → Int → Int
  | 0, e => e
  | steps + 1, e => if r.reaches (e + 1) then climb r steps (e + 1) else e

/-- The decimal exponent `e` of the first digit: `10 ^ e ≤ r < 10 ^ (e + 1)`.

The climb starts from an estimate by bit lengths, or from a power of ten that every ratio with
this denominator reaches; no ratio lies further above it than its bit lengths allow. -/
def decade (r : Ratio) : Int :=
  let n := bitLength r.num
  let d := bitLength r.den
  let estimate : Int := ((n : Int) - d - 1) * 30103 / 100000 - 1
  let start : Int := if r.reaches estimate then estimate else -(d : Int)
  climb r (n + 2 * d + 2) start

/-- The binary exponent of the first bit: `2 ^ e ≤ r < 2 ^ (e + 1)`. -/
def binade (r : Ratio) : Int :=
  -- By their lengths alone the exponent is this one or the one below.
  let e : Int := (bitLength r.num : Int) - bitLength r.den
  let reached : Bool :=
    if 0 ≤ e then r.den * 2 ^ e.toNat ≤ r.num else r.den ≤ r.num * 2 ^ (-e).toNat
  if reached then e else e - 1

/-! ## §3 Leading decimal digits -/

/-- Leading decimal digits: `digits` has as many as were asked for, and the first of them counts
multiples of `10 ^ exponent`. -/
structure Significant where
  digits : Nat
  exponent : Int
  deriving DecidableEq, Repr, Inhabited

namespace Significant

/-- Round a ratio to its first `k` digits, a half going up. -/
def ofRatio (r : Ratio) (k : Nat) : Significant :=
  let e := decade r
  let rounded := (r.scale 10 ((k : Int) - 1 - e)).roundHalfUp
  -- Rounding up may carry into a new digit.
  if rounded = 10 ^ k then ⟨10 ^ (k - 1), e + 1⟩ else ⟨rounded, e⟩

/-- The ratio that `k` leading digits denote. -/
def toRatio (s : Significant) (k : Nat) : Ratio :=
  (⟨s.digits, 1⟩ : Ratio).scale 10 (s.exponent - ((k : Int) - 1))

/-- The number that the digits denote with a point after the first of `k`. -/
def mantissa (s : Significant) (k : Nat) : Ratio :=
  ⟨s.digits, 10 ^ (k - 1)⟩

end Significant

/-! ## §4 Leading bits -/

/-- Bits that hold `k` decimal digits, with one digit to spare. -/
def bitsForDigits (k : Nat) : Nat :=
  (2 * (k + 1) * 33219280948873626 + 10 ^ 16) / (2 * 10 ^ 16)

/-- The nearest ratio with `p` bits, a half going to the even neighbour. -/
def nearestBinary (p : Nat) (r : Ratio) : Ratio :=
  let shift := (p : Int) - 1 - binade r
  (⟨(r.scale 2 shift).roundHalfEven, 1⟩ : Ratio).scale 2 (-shift)

/-- The ratio with all bits dropped that lie more than `p` places below its first bit; whole
numbers stay as they are. -/
def floorBinary (p : Nat) (r : Ratio) : Ratio :=
  let shift := ((p : Int) - (binade r + 1)).toNat
  ⟨(r.scale 2 shift).floor, 2 ^ shift⟩

end Reckoner.Decimal
