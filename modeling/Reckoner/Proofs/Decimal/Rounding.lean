import Reckoner.Proofs.Decimal.Magnitude

/-!
# Digits that are rounded twice

The digits that are shown of a number are rounded from a binary floor, which is taken of a binary neighbour of
digits that are known of it. Every step but the last one changes the number by far less than the last digit
that is shown counts, so only the last step matters, and it goes to the nearest digit.

Where the number is just below a power of ten and the floor is not, the last step counts in digits that are
ten times as large. But then the power of ten is nearest.

- `Within` bounds relative errors, which add up;
- `Significant.Full` and `Significant.value`: digits that begin with one, and what they denote;
- `Known.tells_ofRat`: digits of a rational are known up to the last one;
- `nearestBinary_within` and `floorBinary_within`: what is lost with the bits that are dropped;
- `abs_nearest_sub_le`: what is lost with the digits that are dropped;
- `Significant.shown_spec`: the digits that are shown.
-/

namespace Reckoner.Decimal

variable {r : Ratio} {s : Significant} {e f : Int} {k n p : Nat} {a b c v x α β δ : Rat}

/-! ## §1 Relative errors -/

/-- A number that is off by at most a share of another one. -/
def Within (δ a b : Rat) : Prop :=
  |a - b| ≤ δ * b

namespace Within

theorem mono (h : Within α a b) (hb : 0 ≤ b) (hle : α ≤ β) : Within β a b :=
  h.trans (mul_le_mul_of_nonneg_right hle hb)

theorem mul_right (h : Within δ a b) (hc : 0 ≤ c) : Within δ (a * c) (b * c) := by
  unfold Within at *
  rw [← sub_mul, abs_mul, abs_of_nonneg hc, ← mul_assoc]
  exact mul_le_mul_of_nonneg_right h hc

theorem pos (h : Within δ a b) (hδ : δ < 1) (hb : 0 < b) : 0 < a := by
  have hlow := (abs_le.mp h).1
  nlinarith

/-- Errors add up. The first one is taken of a number that is off itself, and so counts twice at most. -/
theorem trans (hab : Within α a b) (hbc : Within β b c) (hα : 0 ≤ α) (hα' : α ≤ 1) (hβ : 0 ≤ β)
    (hc : 0 ≤ c) : Within (α + 2 * β) a c := by
  -- The first error is a share of `b`, which is at most twice `c`.
  have hb : b ≤ c + β * c := by linarith [(abs_le.mp hbc).2]
  calc |a - c| ≤ |a - b| + |b - c| := abs_sub_le a b c
    _ ≤ α * b + β * c := add_le_add hab hbc
    _ ≤ α * (c + β * c) + β * c := by gcongr
    _ = (α + α * β + β) * c := by ring
    _ ≤ (α + 1 * β + β) * c := by gcongr
    _ = (α + 2 * β) * c := by ring

end Within

/-! ## §2 Digits and what they denote -/

/-- What one in the last place counts, where the first of `k` digits counts multiples of `10 ^ e`. -/
def place (e : Int) (k : Nat) : Rat :=
  10 ^ (e - ((k : Int) - 1))

theorem place_pos (e : Int) (k : Nat) : 0 < place e k :=
  zpow_pos (by norm_num) _

theorem place_mono (h : e ≤ f) (k : Nat) : place e k ≤ place f k :=
  tenPow_mono (by omega)

/-- Moving the first digit to where its number of digits has it. -/
theorem mul_tenPow_eq_div_place (x : Rat) (e : Int) (k : Nat) :
    x * 10 ^ ((k : Int) - 1 - e) = x / place e k := by
  rw [place, div_eq_mul_inv, ← zpow_neg, neg_sub]

theorem tenPow_div_place (hk : 0 < k) (e : Int) : (10 : Rat) ^ e / place e k = (10 ^ (k - 1) : Nat) := by
  rw [place, ← zpow_sub₀ (by norm_num), sub_sub_cancel, Nat.cast_pow, Nat.cast_ofNat, ← zpow_natCast,
    Nat.cast_sub hk, Nat.cast_one]

theorem tenPow_succ_div_place (e : Int) (k : Nat) : (10 : Rat) ^ (e + 1) / place e k = (10 ^ k : Nat) := by
  rw [place, ← zpow_sub₀ (by norm_num), Nat.cast_pow, Nat.cast_ofNat, ← zpow_natCast]
  congr 1
  ring

/-- The nearest natural is off by half of the last place. -/
theorem Nearest.abs_sub_le (h : Nearest n (x / place e k)) : |n * place e k - x| ≤ 1 / 2 * place e k := by
  have hpos := place_pos e k
  calc |n * place e k - x| = |(n - x / place e k) * place e k| := by
        rw [sub_mul, div_mul_cancel₀ _ hpos.ne']
    _ = |n - x / place e k| * place e k := by rw [abs_mul, abs_of_pos hpos]
    _ ≤ 1 / 2 * place e k := mul_le_mul_of_nonneg_right h hpos.le

namespace Significant

/-- The number that `k` digits denote. -/
def value (s : Significant) (k : Nat) : Rat :=
  s.digits * place s.exponent k

/-- There are as many digits as are asked for, and the first of them is not zero. -/
structure Full (s : Significant) (k : Nat) : Prop where
  first : 10 ^ (k - 1) ≤ s.digits
  last : s.digits < 10 ^ k

theorem Full.positive (h : s.Full k) : 0 < s.digits :=
  Nat.lt_of_lt_of_le (Nat.pow_pos (by decide)) h.first

theorem Full.tenPow_le_value (h : s.Full k) (hk : 0 < k) : (10 : Rat) ^ s.exponent ≤ s.value k := by
  rw [value, ← div_le_iff₀ (place_pos s.exponent k), tenPow_div_place hk]
  exact_mod_cast h.first

theorem Full.value_lt_tenPow (h : s.Full k) : s.value k < (10 : Rat) ^ (s.exponent + 1) := by
  rw [value, ← lt_div_iff₀ (place_pos s.exponent k), tenPow_succ_div_place]
  exact_mod_cast h.last

theorem Full.value_pos (h : s.Full k) (hk : 0 < k) : 0 < s.value k :=
  lt_of_lt_of_le (zpow_pos (by norm_num) _) (h.tenPow_le_value hk)

/-- Digits that are not off by as much as nine tenths of a number have its exponent, or one beside it. -/
theorem Full.exponent_near (h : s.Full k) (hk : 0 < k) (hlow : (10 : Rat) ^ e ≤ v) (hhigh : v < 10 ^ (e + 1))
    (hclose : Within (9 / 10) (s.value k) v) : e - 1 ≤ s.exponent ∧ s.exponent ≤ e + 1 := by
  obtain ⟨hbelow, habove⟩ := abs_le.mp hclose
  have hfirst := h.tenPow_le_value hk
  have hlast := h.value_lt_tenPow
  have htenth : (10 : Rat) ^ e = 10 * 10 ^ (e - 1) := by
    rw [← zpow_one_add₀ (by norm_num), add_sub_cancel]
  have htenfold : (10 : Rat) ^ (e + 1 + 1) = 10 * 10 ^ (e + 1) := by
    rw [← zpow_one_add₀ (by norm_num), add_comm 1]
  -- The digits denote a tenth of the number at least, and not twice as much.
  have hunder : (10 : Rat) ^ (e - 1) < 10 ^ (s.exponent + 1) := by linarith
  have hover : (10 : Rat) ^ s.exponent < 10 ^ (e + 1 + 1) := by linarith
  have hless := (zpow_lt_zpow_iff_right₀ (by norm_num)).mp hunder
  have hless' := (zpow_lt_zpow_iff_right₀ (by norm_num)).mp hover
  constructor <;> omega

/-- Rounded digits. Rounding up may have carried into a new digit. -/
def carried (rounded : Nat) (e : Int) (k : Nat) : Significant :=
  if rounded = 10 ^ k then ⟨10 ^ (k - 1), e + 1⟩ else ⟨rounded, e⟩

variable {rounded : Nat}

/-- Rounded digits are full, whether rounding carried or not. -/
theorem full_carried (hk : 0 < k) (hlow : 10 ^ (k - 1) ≤ rounded) (hhigh : rounded ≤ 10 ^ k) (e : Int) :
    (carried rounded e k).Full k := by
  unfold carried
  split
  -- A carry leaves a one and zeros behind it.
  · exact ⟨le_rfl, Nat.pow_lt_pow_right (by decide) (by omega)⟩
  · next hne => exact ⟨hlow, Nat.lt_of_le_of_ne hhigh hne⟩

/-- Carrying does not change what the digits denote. -/
theorem value_carried (hk : 0 < k) (rounded : Nat) (e : Int) :
    (carried rounded e k).value k = rounded * place e k := by
  unfold carried
  split
  · next hcarry =>
    rw [value, hcarry, ← tenPow_div_place hk (e + 1), ← tenPow_succ_div_place e k,
      div_mul_cancel₀ _ (place_pos _ _).ne', div_mul_cancel₀ _ (place_pos _ _).ne']
  · rfl

/-- Rounding never lowers the exponent. -/
theorem le_exponent_carried (rounded : Nat) (e : Int) (k : Nat) : e ≤ (carried rounded e k).exponent := by
  unfold carried
  split
  · exact (Int.lt_succ e).le
  · exact le_rfl

/-- The nearest natural has as many digits as are asked for, if the first one is where it should be. -/
theorem full_of_nearest (hk : 0 < k) (hlow : (10 : Rat) ^ e ≤ x) (hhigh : x < 10 ^ (e + 1))
    (h : Nearest rounded (x / place e k)) (f : Int) : (carried rounded f k).Full k := by
  have hpos := place_pos e k
  -- The bounds of the decade are naturals in units of the last place, so rounding stays within them.
  refine full_carried hk (h.le_of_le ?_) (h.le_of_lt ?_) f
  · rw [← tenPow_div_place hk e]
    gcongr
  · rw [← tenPow_succ_div_place e k]
    gcongr

/-- Rounding a ratio to its first digits. -/
theorem ofRatio_spec (h : r.Positive) (hk : 0 < k) : (ofRatio r k).Full k
    ∧ |(ofRatio r k).value k - r.toRat| ≤ 1 / 2 * place (ofRatio r k).exponent k := by
  obtain ⟨hlow, hhigh⟩ := decade_spec h
  have hnearest := nearest_roundHalfUp (h.scale (by decide : 0 < 10) ((k : Int) - 1 - decade r)).den
  rw [Ratio.toRat_scale (by decide), Nat.cast_ofNat, mul_tenPow_eq_div_place] at hnearest
  have hof : ofRatio r k
      = carried (r.scale 10 ((k : Int) - 1 - decade r)).roundHalfUp (decade r) k := rfl
  -- After a carry the last place counts more, so half of it bounds the error all the more.
  have hplace := place_mono
    (le_exponent_carried (r.scale 10 ((k : Int) - 1 - decade r)).roundHalfUp (decade r) k) k
  rw [hof]
  refine ⟨full_of_nearest hk hlow hhigh hnearest _, ?_⟩
  rw [value_carried hk]
  exact hnearest.abs_sub_le.trans (mul_le_mul_of_nonneg_left hplace (by norm_num))

end Significant

/-! ## §3 Digits that are known -/

/-- What is known of a number tells its sign, and as many digits as are needed to show `n`: they are off by no
more than one in the last place. -/
def Known.Tells : Known → Rat → Nat → Prop
  | .zero, v, _ => v = 0
  | .signed negative s, v, n => v ≠ 0 ∧ negative = decide (v < 0) ∧ s.Full (n + guard)
    ∧ |(|v| - s.value (n + guard))| ≤ place s.exponent (n + guard)

/-- Digits of a rational are known. -/
theorem Known.tells_ofRat (v : Rat) (n : Nat) : (Known.ofRat v n).Tells v n := by
  unfold Known.ofRat
  split
  · next hzero => exact hzero
  · next hne =>
    obtain ⟨hfull, herror⟩ :=
      Significant.ofRatio_spec (Ratio.positive_ofRat hne) (Nat.lt_add_left n (by decide : 0 < guard))
    rw [Ratio.toRat_ofRat, abs_sub_comm] at herror
    have hplace := place_pos (Significant.ofRatio (Ratio.ofRat v) (n + guard)).exponent (n + guard)
    exact ⟨hne, rfl, hfull, by linarith⟩

/-- One in the last place is a small share of the number, whichever of its digits are known. -/
theorem Significant.Full.within (h : s.Full k) (hk : 1 < k) (herror : |v - s.value k| ≤ place s.exponent k) :
    Within (2 * 10 ^ (1 - (k : Int))) (s.value k) v := by
  -- The first digit is not zero, so the number is as large as its power of ten, but for the error.
  have hlow := h.tenPow_le_value (by omega)
  have hsplit : place s.exponent k = 10 ^ (1 - (k : Int)) * 10 ^ s.exponent := by
    rw [place, ← zpow_add₀ (by norm_num)]
    congr 1
    ring
  have hshare : (10 : Rat) ^ (1 - (k : Int)) ≤ 1 / 2 := by
    calc (10 : Rat) ^ (1 - (k : Int)) ≤ 10 ^ (-1 : Int) := tenPow_mono (by omega)
      _ ≤ 1 / 2 := by norm_num
  have hunit : (0 : Rat) < 10 ^ (1 - (k : Int)) := zpow_pos (by norm_num) _
  have hpos : (0 : Rat) < 10 ^ s.exponent := zpow_pos (by norm_num) _
  -- The number is half of what its digits denote at least.
  have hhalf : (10 : Rat) ^ s.exponent ≤ 2 * v := by
    have hhigh := (abs_le.mp herror).1
    rw [hsplit] at hhigh
    nlinarith
  calc |s.value k - v| = |v - s.value k| := abs_sub_comm _ _
    _ ≤ 10 ^ (1 - (k : Int)) * 10 ^ s.exponent := hsplit ▸ herror
    _ ≤ 10 ^ (1 - (k : Int)) * (2 * v) := by gcongr
    _ = 2 * 10 ^ (1 - (k : Int)) * v := by ring

/-! ## §4 Bits that are dropped -/

/-- A ratio that denotes a positive number has a numerator and a denominator. -/
theorem Ratio.Positive.of_toRat_pos (h : 0 < r.toRat) : r.Positive := by
  refine ⟨Nat.pos_of_ne_zero fun hnum => ?_, Nat.pos_of_ne_zero fun hden => ?_⟩
  · rw [Ratio.toRat, hnum, Nat.cast_zero, zero_div] at h
    exact h.false
  · rw [Ratio.toRat, hden, Nat.cast_zero, div_zero] at h
    exact h.false

theorem twoPow_mono {d e : Int} (h : d ≤ e) : (2 : Rat) ^ d ≤ 2 ^ e :=
  zpow_le_zpow_right₀ (by norm_num) h

/-- Rounding to a number of bits. -/
theorem nearestBinary_within (h : r.Positive) (p : Nat) :
    Within (2 ^ (-(p : Int))) (nearestBinary p r).toRat r.toRat := by
  obtain ⟨hlow, -⟩ := binade_spec h
  have htwo : (2 : Rat) ≠ 0 := by norm_num
  set shift := (p : Int) - 1 - binade r with hshift
  have hnearest := nearest_roundHalfEven (h.scale (by decide : 0 < 2) shift).den
  rw [Ratio.toRat_scale (by decide), Nat.cast_ofNat] at hnearest
  have hunit : (0 : Rat) < 2 ^ (-shift) := zpow_pos (by norm_num) _
  have hvalue : (nearestBinary p r).toRat = (r.scale 2 shift).roundHalfEven * 2 ^ (-shift) := by
    rw [nearestBinary, Ratio.toRat_scale (by decide), Nat.cast_ofNat, Ratio.toRat, Nat.cast_one, div_one]
  have hback : r.toRat * 2 ^ shift * 2 ^ (-shift) = r.toRat := by
    rw [mul_assoc, ← zpow_add₀ htwo, add_neg_cancel, zpow_zero, mul_one]
  -- Half of the last bit, counted from the first one.
  have hhalf : (1 / 2 : Rat) * 2 ^ (-shift) = 2 ^ (-(p : Int)) * 2 ^ binade r := by
    rw [← zpow_add₀ htwo, one_div, ← zpow_neg_one, ← zpow_add₀ htwo]
    congr 1
    omega
  calc |(nearestBinary p r).toRat - r.toRat|
      = |((r.scale 2 shift).roundHalfEven - r.toRat * 2 ^ shift) * 2 ^ (-shift)| := by
        rw [sub_mul, hback, hvalue]
    _ = |(r.scale 2 shift).roundHalfEven - r.toRat * 2 ^ shift| * 2 ^ (-shift) := by
        rw [abs_mul, abs_of_pos hunit]
    _ ≤ 1 / 2 * 2 ^ (-shift) := mul_le_mul_of_nonneg_right hnearest hunit.le
    _ = 2 ^ (-(p : Int)) * 2 ^ binade r := hhalf
    _ ≤ 2 ^ (-(p : Int)) * r.toRat := by gcongr

/-- Dropping all bits behind a number of them. -/
theorem floorBinary_within (h : r.Positive) (p : Nat) :
    Within (2 ^ (1 - (p : Int))) (floorBinary p r).toRat r.toRat := by
  obtain ⟨hlow, -⟩ := binade_spec h
  have htwo : (2 : Rat) ≠ 0 := by norm_num
  -- No bits are dropped of a number that has as few of them as are kept.
  set shift := ((p : Int) - (binade r + 1)).toNat with hshift
  have hden := (h.scale (by decide : 0 < 2) (shift : Int)).den
  have hfloor := Ratio.floor_le hden
  have hnext := Ratio.lt_floor_add_one hden
  rw [Ratio.toRat_scale (by decide), Nat.cast_ofNat, zpow_natCast] at hfloor hnext
  have hpos : (0 : Rat) < 2 ^ shift := by positivity
  have hvalue : (floorBinary p r).toRat * 2 ^ shift = (r.scale 2 shift).floor := by
    rw [floorBinary, Ratio.toRat, Nat.cast_pow, Nat.cast_ofNat, div_mul_cancel₀ _ hpos.ne']
  have hunit : (1 : Rat) / 2 ^ shift ≤ 2 ^ (1 - (p : Int)) * 2 ^ binade r := by
    rw [one_div, ← zpow_natCast, ← zpow_neg, ← zpow_add₀ htwo]
    exact twoPow_mono (by omega)
  have hhigh : (floorBinary p r).toRat ≤ r.toRat := by
    rw [← mul_le_mul_iff_left₀ hpos, hvalue]
    exact hfloor
  -- What is dropped is less than one in the last place.
  have hless : r.toRat - (floorBinary p r).toRat ≤ 1 / 2 ^ shift := by
    rw [le_div_iff₀ hpos, sub_mul, hvalue]
    linarith
  calc |(floorBinary p r).toRat - r.toRat| = r.toRat - (floorBinary p r).toRat := by
        rw [abs_sub_comm, abs_of_nonneg (sub_nonneg.mpr hhigh)]
    _ ≤ 2 ^ (1 - (p : Int)) * 2 ^ binade r := hless.trans hunit
    _ ≤ 2 ^ (1 - (p : Int)) * r.toRat := by gcongr

/-- A power of two is small if it has bits for a number of digits. -/
theorem twoPow_neg_le {digits bits : Nat} (h : digits * 33219280948873626 ≤ bits * 10 ^ 16) :
    (2 : Rat) ^ (-(bits : Int)) ≤ 10 ^ (-(digits : Int)) := by
  -- The number is a little more than the binary logarithm of ten.
  have hpow : ((10 ^ digits : Nat) : Rat) ≤ (2 ^ bits : Nat) := by exact_mod_cast tenPow_le_twoPow h
  rw [zpow_neg, zpow_neg, zpow_natCast, zpow_natCast]
  push_cast at hpow
  exact inv_anti₀ (by positivity) hpow

/-- A share of a number that does not matter for `n` digits. -/
def negligible (n : Nat) : Rat :=
  10 ^ (-((n : Int) + 3))

theorem negligible_pos (n : Nat) : 0 < negligible n :=
  zpow_pos (by norm_num) _

theorem negligible_le (n : Nat) : negligible n ≤ 1 / 1000 := by
  calc negligible n ≤ 10 ^ (-3 : Int) := tenPow_mono (by omega)
    _ = 1 / 1000 := by norm_num

theorem two_mul_tenPow_le {d : Int} (h : d < -((n : Int) + 3)) : 2 * (10 : Rat) ^ d ≤ negligible n := by
  have hpos : (0 : Rat) < 10 ^ d := zpow_pos (by norm_num) _
  calc 2 * (10 : Rat) ^ d ≤ 10 * 10 ^ d := by linarith
    _ = 10 ^ (1 + d) := (zpow_one_add₀ (by norm_num) d).symm
    _ ≤ negligible n := tenPow_mono (by omega)

/-- Bits in which the known digits are held. -/
theorem bitsForDigits_negligible (n : Nat) :
    (2 : Rat) ^ (-(bitsForDigits (n + guard) : Int)) ≤ negligible n := by
  have hbits : (n + guard + 1) * 33219280948873626 ≤ (bitsForDigits (n + guard) + 1) * 10 ^ 16 := by
    unfold bitsForDigits
    omega
  have hsmall := twoPow_neg_le hbits
  -- The count of bits is rounded, so it may be one too few.
  have htwice : (2 : Rat) ^ (-(bitsForDigits (n + guard) : Int))
      = 2 * 2 ^ (-((bitsForDigits (n + guard) + 1 : Nat) : Int)) := by
    rw [← zpow_one_add₀ (by norm_num)]
    congr 1
    push_cast
    ring
  rw [htwice]
  refine (mul_le_mul_of_nonneg_left hsmall (by norm_num)).trans (two_mul_tenPow_le ?_)
  simp only [guard]
  push_cast
  omega

/-- Bits of the floor from which the digits are rounded. -/
theorem floorBits_negligible (n : Nat) : (2 : Rat) ^ (1 - (floorBits n : Int)) ≤ negligible n := by
  have hbits : (n + 3) * 33219280948873626 ≤ (floorBits n - 1) * 10 ^ 16 := by
    simp only [floorBits, lookahead]
    omega
  have hpos : 0 < floorBits n := Nat.succ_pos _
  -- The first bit counts as one place, and there are bits to spare for it.
  have hexponent : 1 - (floorBits n : Int) = -((floorBits n - 1 : Nat) : Int) := by omega
  rw [hexponent]
  exact (twoPow_neg_le hbits).trans (tenPow_mono (by push_cast; omega))

/-! ## §5 Digits that are shown -/

/-- Drop the last digit, and round up if it was five or more. -/
def roundLast (digits : Nat) : Nat :=
  if 5 ≤ digits % 10 then digits / 10 + 1 else digits / 10

/-- One digit more decides what the nearest natural is. -/
theorem nearest_roundLast (hlow : (n : Rat) ≤ 10 * x) (hhigh : 10 * x < n + 1) :
    Nearest (roundLast n) x := by
  have hdivision : ((10 * (n / 10) + n % 10 : Nat) : Rat) = n := by rw [Nat.div_add_mod]
  push_cast at hdivision
  unfold roundLast
  split
  -- The last digit is five to nine, and what is left out is less than one of it.
  · next hup =>
    have hlast : (5 : Rat) ≤ (n % 10 : Nat) := by exact_mod_cast hup
    have hdigit : ((n % 10 : Nat) : Rat) ≤ 9 := by exact_mod_cast Nat.le_of_lt_succ (Nat.mod_lt n (by decide))
    push_cast [Nearest]
    rw [abs_le]
    constructor <;> linarith
  -- The last digit is naught to four, and what is left out makes less than five of it.
  · next hdown =>
    have hlast : ((n % 10 : Nat) : Rat) ≤ 4 := by exact_mod_cast Nat.le_of_lt_succ (not_le.mp hdown)
    have hdigit : (0 : Rat) ≤ (n % 10 : Nat) := Nat.cast_nonneg _
    rw [Nearest, abs_le]
    constructor <;> linarith

/-- The digits that are shown are rounded from one digit more. -/
theorem nearest_shown (h : r.Positive) (n : Nat) :
    Nearest (roundLast (r.scale 10 (n - decade r)).floor) (r.toRat / place (decade r) n) := by
  have hden := (h.scale (by decide : 0 < 10) ((n : Int) - decade r)).den
  have hten : 10 * (r.toRat / place (decade r) n) = (r.scale 10 (n - decade r)).toRat := by
    rw [Ratio.toRat_scale (by decide), Nat.cast_ofNat, ← mul_tenPow_eq_div_place, mul_left_comm,
      ← zpow_one_add₀ (by norm_num)]
    congr 2
    ring
  exact nearest_roundLast (hten ▸ Ratio.floor_le hden) (hten ▸ Ratio.lt_floor_add_one hden)

namespace Significant

/-- Digits are held as the number that they denote, or as that number divided by its power of ten. -/
theorem held_eq_or (s : Significant) (k : Nat) :
    s.held k = (nearestBinary (bitsForDigits k) (s.toRatio k), 0)
      ∨ s.held k = (nearestBinary (bitsForDigits k) (s.mantissa k), s.exponent) := by
  unfold held
  -- The number itself is held if its power of ten may be formed and it lies near enough to one.
  split
  · dsimp only
    split
    · exact .inl rfl
    · exact .inr rfl
  · exact .inr rfl

/-- The number that the digits denote is held in binary, as it is or divided by a power of ten. -/
theorem Full.within_held (h : s.Full (n + guard)) : (s.held (n + guard)).1.Positive
    ∧ Within (negligible n) ((s.held (n + guard)).1.toRat * 10 ^ (s.held (n + guard)).2)
      (s.value (n + guard)) := by
  have hk : 0 < n + guard := Nat.lt_add_left n (by decide)
  have hratio : (s.toRatio (n + guard)).toRat = s.value (n + guard) := by
    rw [toRatio, Ratio.toRat_scale (by decide), Ratio.toRat, Nat.cast_one, div_one, Nat.cast_ofNat, value,
      place]
  have hmantissa : (s.mantissa (n + guard)).toRat * 10 ^ s.exponent = s.value (n + guard) := by
    rw [mantissa, Ratio.toRat, value, ← tenPow_div_place hk s.exponent]
    have hpower : (10 : Rat) ^ s.exponent ≠ 0 := (zpow_pos (by norm_num) _).ne'
    have hplace := (place_pos s.exponent (n + guard)).ne'
    field_simp
  have hnear {r : Ratio} (hr : r.Positive) :
      Within (negligible n) (nearestBinary (bitsForDigits (n + guard)) r).toRat r.toRat :=
    (nearestBinary_within hr _).mono hr.toRat_pos.le (bitsForDigits_negligible n)
  have hheld {r : Ratio} (hr : r.Positive) : (nearestBinary (bitsForDigits (n + guard)) r).Positive :=
    .of_toRat_pos ((hnear hr).pos (by linarith [negligible_le n]) hr.toRat_pos)
  -- Both ways of holding the digits denote the same number, once the power of ten is put back.
  rcases held_eq_or s (n + guard) with hwhole | hdivided
  · have hpositive : (s.toRatio (n + guard)).Positive :=
      .of_toRat_pos (hratio ▸ h.value_pos hk)
    rw [hwhole, zpow_zero, mul_one, ← hratio]
    exact ⟨hheld hpositive, hnear hpositive⟩
  · have hpositive : (s.mantissa (n + guard)).Positive :=
      ⟨h.positive, Nat.pow_pos (by decide)⟩
    rw [hdivided, ← hmantissa]
    exact ⟨hheld hpositive, (hnear hpositive).mul_right (zpow_pos (by norm_num) _).le⟩

/-- The digits that are shown are rounded from those of a binary floor. -/
theorem shown_eq_carried (s : Significant) (n : Nat) :
    s.shown n = carried (roundLast ((floorBinary (floorBits n) (s.held (n + guard)).1).scale 10
        (n - decade (floorBinary (floorBits n) (s.held (n + guard)).1))).floor)
      (decade (floorBinary (floorBits n) (s.held (n + guard)).1) + (s.held (n + guard)).2) n := by
  rw [carried, add_right_comm]
  rfl

/-- What is shown are the nearest digits to a number that is as good as the one whose digits are known. -/
theorem Full.exists_floor (h : s.Full (n + guard)) (hv : 0 < v)
    (herror : |v - s.value (n + guard)| ≤ place s.exponent (n + guard)) :
    ∃ (low : Ratio) (offset : Int), low.Positive ∧ Within (5 * negligible n) (low.toRat * 10 ^ offset) v
      ∧ s.shown n = carried (roundLast (low.scale 10 (n - decade low)).floor) (decade low + offset) n := by
  obtain ⟨hheld, hbinary⟩ := h.within_held
  have hshown := s.shown_eq_carried n
  generalize (s.held (n + guard)).1 = held at *
  generalize (s.held (n + guard)).2 = offset at *
  have hsmall := negligible_pos n
  have hsmall' := negligible_le n
  have hscale : (0 : Rat) < 10 ^ offset := zpow_pos (by norm_num) _
  have hdigits := h.value_pos (Nat.lt_add_left n (by decide))
  have hfloor : Within (negligible n) (floorBinary (floorBits n) held).toRat held.toRat :=
    (floorBinary_within hheld _).mono hheld.toRat_pos.le (floorBits_negligible n)
  have hknown : Within (negligible n) (s.value (n + guard)) v := by
    refine (h.within (Nat.lt_add_left n (by decide)) herror).mono hv.le (two_mul_tenPow_le ?_)
    simp only [guard]
    push_cast
    omega
  -- Three errors add up: the known digits, the binary digits that hold them, and the floor.
  have hclose : Within (negligible n + 2 * negligible n + 2 * negligible n)
      ((floorBinary (floorBits n) held).toRat * 10 ^ offset) v :=
    ((hfloor.mul_right hscale.le).trans hbinary hsmall.le (by linarith) hsmall.le hdigits.le).trans hknown
      (by linarith) (by linarith) hsmall.le hv.le
  exact ⟨_, offset, .of_toRat_pos (hfloor.pos (by linarith) hheld.toRat_pos),
    hclose.mono hv.le (by linarith), hshown⟩

/-- A number is changed by a hundredth of the last place at most, and then shown by its nearest digits. They are
off by half of the last place and that hundredth. If the number was just below a power of ten and is no more,
the power of ten is what is shown. -/
theorem abs_nearest_sub_le (hn : 0 < n) (hlow : (10 : Rat) ^ f ≤ x) (hclose : |x - v| ≤ 1 / 100 * place e n)
    (hv : v < 10 ^ (e + 1)) (h : Nearest k (x / place f n)) :
    |k * place f n - v| ≤ 51 / 100 * place e n := by
  have hplace := place_pos f n
  -- Whether the number has stayed in its decade decides which last place the digits have.
  rcases le_or_gt f e with hle | hlt
  · have hmono := place_mono hle n
    have hrounded := h.abs_sub_le
    calc |k * place f n - v| ≤ |k * place f n - x| + |x - v| := abs_sub_le _ _ _
      _ ≤ 51 / 100 * place e n := by linarith
  · have hmono := place_mono hlt.le n
    -- The number crossed a power of ten on the way up, and so lies next to it.
    have hpower : v < 10 ^ f := hv.trans_le (tenPow_mono (by omega))
    have hhigh := (abs_le.mp hclose).2
    have hk : k = 10 ^ (n - 1) := by
      refine h.eq_of_lt ?_
      rw [← tenPow_div_place hn f, ← sub_div, abs_of_nonneg (div_nonneg (by linarith) hplace.le),
        div_lt_iff₀ hplace]
      linarith
    have hshown : (k : Rat) * place f n = 10 ^ f := by
      rw [hk, ← tenPow_div_place hn f, div_mul_cancel₀ _ hplace.ne']
    rw [hshown, abs_of_pos (by linarith)]
    linarith [place_pos e n]

theorem negligible_mul_tenPow (n : Nat) (e : Int) :
    negligible n * 10 ^ (e + 1) = 1 / 1000 * place e n := by
  have hthousandth : (1 / 1000 : Rat) = 10 ^ (-3 : Int) := by norm_num
  rw [negligible, place, hthousandth, ← zpow_add₀ (by norm_num), ← zpow_add₀ (by norm_num)]
  congr 1
  ring

/-- The digits that are shown of a number are as many as are asked for, and off by little more than half of
the last place. -/
theorem shown_spec (h : s.Full (n + guard)) (hn : 0 < n) (hv : 0 < v)
    (herror : |v - s.value (n + guard)| ≤ place s.exponent (n + guard)) :
    (s.shown n).Full n
      ∧ ∀ e : Int, v < 10 ^ (e + 1) → |(s.shown n).value n - v| ≤ 51 / 100 * place e n := by
  obtain ⟨low, offset, hpositive, hclose, hshown⟩ := h.exists_floor hv herror
  obtain ⟨hdecade, hdecade'⟩ := decade_spec hpositive
  have hnearest := nearest_shown hpositive n
  have hscale : (0 : Rat) < 10 ^ offset := zpow_pos (by norm_num) _
  have hoffset : place (decade low + offset) n = place (decade low) n * 10 ^ offset := by
    rw [place, place, ← zpow_add₀ (by norm_num)]
    congr 1
    ring
  rw [hshown]
  refine ⟨full_of_nearest hn hdecade hdecade' hnearest _, fun e he => ?_⟩
  rw [value_carried hn]
  -- The decade of the floor may be the one above that of the number.
  refine abs_nearest_sub_le hn (x := low.toRat * 10 ^ offset) ?_ ?_ he ?_
  · rw [zpow_add₀ (by norm_num)]
    gcongr
  -- Five negligible shares of a number are less than a hundredth of its last place.
  · calc |low.toRat * 10 ^ offset - v| ≤ 5 * negligible n * v := hclose
      _ ≤ 5 * negligible n * 10 ^ (e + 1) := by have := negligible_pos n; gcongr
      _ = 5 * (1 / 1000 * place e n) := by rw [mul_assoc, negligible_mul_tenPow]
      _ ≤ 1 / 100 * place e n := by linarith [place_pos e n]
  · rw [hoffset, mul_div_mul_right _ _ hscale.ne']
    exact hnearest

end Significant

end Reckoner.Decimal
