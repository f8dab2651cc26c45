import Reckoner.Quantity.Ball

/-!
# Elementary functions on balls

Series in fixed point: a fixed-point number `x` with `q` bits stands for `x / 2 ^ q`. Arguments are
first reduced to a small interval, then a power series is summed until its terms vanish at the
working precision. Thirty-two spare bits absorb the rounding of the single steps; what the
operand's own radius contributes is added by the function's slope.
-/

namespace Reckoner.Ball

open Reckoner.Decimal (bitLength)

/-- Spare bits of a fixed-point series. -/
def spare : Nat := 32

/-! ## §1 Constants -/

/-- Sum `± x / (2 i + 1) / k ^ (2 i)` while the terms last. -/
def inverseSeries (square : Nat) (alternate : Bool) : Nat → Nat → Nat → Bool → Int → Int
  | 0, _, _, _, acc => acc
  | fuel + 1, x, i, negative, acc =>
    if x = 0 then acc
    else
      let term : Int := (x / (2 * i + 1) : Nat)
      inverseSeries square alternate fuel (x / square) (i + 1) (alternate && !negative)
        (if negative then acc - term else acc + term)

/-- `atan (1 / k)` in fixed point. -/
def atanInverse (q k : Nat) : Int :=
  inverseSeries (k * k) true (q + 1) (2 ^ q / k) 0 false 0

/-- `atanh (1 / k)` in fixed point. -/
def atanhInverse (q k : Nat) : Int :=
  inverseSeries (k * k) false (q + 1) (2 ^ q / k) 0 false 0

/-- π in fixed point, by Machin's formula. -/
def piFixed (q : Nat) : Int :=
  let p := q + spare
  (16 * atanInverse p 5 - 4 * atanInverse p 239) >>> spare

/-- The logarithm of two in fixed point. -/
def logTwoFixed (q : Nat) : Int :=
  let p := q + spare
  (18 * atanhInverse p 26 - 2 * atanhInverse p 4801 + 8 * atanhInverse p 8749) >>> spare

/-- π, to `w` bits. -/
def pi (w : Nat) : Ball :=
  ⟨piFixed w, 2, -(w : Int)⟩

/-! ## §2 Fixed-point series -/

/-- Sum a series whose next term is the last one times `x`, divided by `d` and then `d + step`. -/
def factorialSeries (q : Nat) (x : Int) (step : Nat) : Nat → Int → Nat → Int → Int
  | 0, _, _, acc => acc
  | fuel + 1, term, d, acc =>
    if term = 0 ∨ term = -1 then acc
    else
      let divisor : Int := if step = 1 then (d : Int) else (d * (d + 1) : Nat)
      let next := ((term * x) >>> q) / divisor
      factorialSeries q x step fuel next (d + step) (acc + next)

/-- Square a fixed-point number repeatedly. -/
def squareFixed (q : Nat) : Nat → Int → Int
  | 0, x => x
  | n + 1, x => squareFixed q n ((x * x) >>> q)

/-- `exp` of a fixed-point number between zero and one. -/
def expFixed (q : Nat) (x : Int) : Int :=
  let p := q + spare
  let halvings : Nat := 8
  let r := (x <<< spare) >>> halvings
  let one : Int := 2 ^ p
  squareFixed p halvings (factorialSeries p r 1 (p + 1) one 1 one) >>> spare

/-- `sin` of a fixed-point number of size at most one. -/
def sinFixed (q : Nat) (x : Int) : Int :=
  let p := q + spare
  let x := x <<< spare
  factorialSeries p (-((x * x) >>> p)) 2 (p + 1) x 2 x >>> spare

/-- `cos` of a fixed-point number of size at most one. -/
def cosFixed (q : Nat) (x : Int) : Int :=
  let p := q + spare
  let x := x <<< spare
  let one : Int := 2 ^ p
  factorialSeries p (-((x * x) >>> p)) 2 (p + 1) one 1 one >>> spare

/-- Sum `± x ^ (2 i + 1) / (2 i + 1)` with `x ^ 2` given, the sign inside the square. -/
def oddSeries (q : Nat) (square : Int) : Nat → Int → Nat → Int → Int
  | 0, _, _, acc => acc
  | fuel + 1, x, i, acc =>
    if x = 0 ∨ x = -1 then acc
    else oddSeries q square fuel ((x * square) >>> q) (i + 1) (acc + x / (2 * i + 1 : Nat))

/-- The square root in fixed point. -/
def sqrtFixed (q : Nat) (x : Int) : Int :=
  natRoot 2 (x.toNat <<< q)

/-- Halve the angle of a tangent: `x / (1 + sqrt (1 + x ^ 2))`. -/
def halfAngle (q : Nat) (x : Int) : Int :=
  let one : Int := 2 ^ q
  (x <<< q) / (one + sqrtFixed q (one + ((x * x) >>> q)))

/-- `atan` of a fixed-point number of size at most one. -/
def atanFixed (q : Nat) (x : Int) : Int :=
  let p := q + spare
  -- Three halvings make the argument small; the result is multiplied by eight again.
  let r := halfAngle p (halfAngle p (halfAngle p (x <<< spare)))
  (8 * oddSeries p (-((r * r) >>> p)) (p + 1) r 0 0) >>> spare

/-! ## §3 Functions on balls -/

/-- The midpoint in fixed point. -/
def midFixed (q : Nat) (b : Ball) : Int :=
  let s := b.exp + q
  if 0 ≤ s then b.mid <<< s.toNat else b.mid >>> (-s).toNat

/-- The radius in fixed point, rounded up. -/
def radFixed (q : Nat) (b : Ball) : Nat :=
  let s := b.exp + q
  if 0 ≤ s then b.rad <<< s.toNat
  else if b.rad = 0 then 0
  else (b.rad >>> (-s).toNat) + 1

/-- Exponents above which no exponential is computed: its own exponent would have more bits than
this. -/
def largestMagnitude : Int := 2 ^ 20

/-- The exponential. -/
def exp? (w : Nat) (b : Ball) : Option Ball :=
  if largestMagnitude < b.top then none
  else
    let q := w + 16
    let p := q + b.top.toNat + 8
    -- The whole powers of two in the result are taken out of the argument.
    let x := b.midFixed p
    let log2 := logTwoFixed p
    let n := x / log2
    let r := (x - n * log2) >>> (p - q)
    let slack := b.radFixed q + 4
    if 2 ^ q ≤ slack then none
    else some (trim w ⟨expFixed q r, 4 * slack + 4, n - q⟩)

/-- The natural logarithm. -/
def log? (w : Nat) (b : Ball) : Option Ball :=
  if b.mid ≤ b.rad then none
  else
    let m := b.mid.natAbs
    let bits := bitLength m
    -- The power of two nearest to the midpoint leaves the smallest quotient for the series.
    let k := if 4 * m < 3 * 2 ^ bits then bits - 1 else bits
    let shift := (k : Int) + b.exp
    let num : Int := (m : Int) - 2 ^ k
    let den : Nat := m + 2 ^ k
    -- Close to one the logarithm is small, and needs as many more bits.
    let near := if shift = 0 then bitLength den - bitLength num.natAbs else 0
    let q := w + spare + near
    let u := (num <<< q) / den
    let series := 2 * oddSeries q ((u * u) >>> q) (q + 1) u 0 0
    let slack := (b.rad <<< q) / (m - b.rad) + 1
    some (trim w
      ⟨series + shift * logTwoFixed q, slack + shift.natAbs + 8 * (q + 4), -(q : Int)⟩)

/-- Sine and cosine at once: the argument is reduced by quarter turns. -/
def sinCos (w : Nat) (b : Ball) : Ball × Ball :=
  let q := w + spare + (-b.top).toNat
  let slack := b.radFixed q + 64
  let unit : Ball := ⟨0, 2 ^ q, -(q : Int)⟩
  -- Where the argument is not known to a turn, nothing is known but the range.
  if 2 ^ q ≤ slack then (unit, unit)
  else
    let p := q + b.top.toNat + 8
    let x := b.midFixed p
    let quarter := piFixed p >>> (1 : Nat)
    let n := (2 * x + quarter) / (2 * quarter)
    let r := (x - n * quarter) >>> (p - q)
    let s := sinFixed q r
    let c := cosFixed q r
    let ball (y : Int) : Ball := trim w ⟨y, slack, -(q : Int)⟩
    match (n % 4).toNat with
    | 0 => (ball s, ball c)
    | 1 => (ball c, ball (-s))
    | 2 => (ball (-s), ball (-c))
    | _ => (ball (-c), ball s)

def sin (w : Nat) (b : Ball) : Ball :=
  (sinCos w b).1

def cos (w : Nat) (b : Ball) : Ball :=
  (sinCos w b).2

/-- The arc tangent of a ball around a midpoint of size at most one. -/
def atanSmall (w : Nat) (b : Ball) : Ball :=
  let q := w + spare + (-b.top).toNat
  trim w ⟨atanFixed q (b.midFixed q), b.radFixed q + 64, -(q : Int)⟩

/-- The arc tangent. -/
def atan? (w : Nat) (b : Ball) : Option Ball :=
  if bitLength b.mid.natAbs + b.exp ≤ 0 then some (atanSmall w b)
  else do
    -- Beyond one the angle is a quarter turn less that of the reciprocal.
    let y ← b.inv? (w + 8)
    let quarter := (pi (w + 8)).scale (-1)
    let turn := if b.mid < 0 then quarter.neg else quarter
    return sub w turn (atanSmall (w + 8) y)

/-- The arc sine of a ball around a midpoint well inside the unit interval. -/
def asinInner? (w : Nat) (b : Ball) : Option Ball := do
  let root := root (w + 8) 2 (sub (w + 8) (ofInt 1) (mul (w + 8) b b))
  atan? w (← div? (w + 8) b root)

/-- The arc cosine of a ball around a midpoint that is not negative:
`2 * asin (sqrt ((1 - x) / 2))`. -/
def acosUpper? (w : Nat) (b : Ball) : Option Ball := do
  let half := root (w + 8) 2 ((sub (w + 8) (ofInt 1) b).scale (-1))
  return (← asinInner? w half).scale 1

/-- The arc cosine. -/
def acos? (w : Nat) (b : Ball) : Option Ball :=
  if b.mid < 0 then (acosUpper? (w + 8) b.neg).map (sub w (pi (w + 8)))
  else acosUpper? w b

/-- The arc sine. -/
def asin? (w : Nat) (b : Ball) : Option Ball :=
  if bitLength b.mid.natAbs + b.exp ≤ -1 then asinInner? w b
  else
    let upper (x : Ball) : Option Ball :=
      (acosUpper? (w + 8) x).map (sub w ((pi (w + 8)).scale (-1)))
    if b.mid < 0 then (upper b.neg).map neg else upper b

end Reckoner.Ball
