/-
# Doubles

The `double` of the source is the binary64 format.  A finite double is a sign and a magnitude,
which is a multiple of the smallest positive double `2 ^ -1074` and has at most 53 binary places;
it denotes a rational number.

Every operation is the exact one on these rationals, followed by `round`: to the nearest double,
ties to even (`unitsOf_nearest`), and to an infinity behind the largest one.  `strtod` and
`snprintf("%.17g")` are those of a libc that rounds correctly.
-/
import SJson.Basic
import SJson.Lib.Rounding
import SJson.Lib.Decimal

namespace SJson

open Rounding Decimal

/-! ## The format -/

/-- The units of one. -/
@[irreducible]
def oneUnits : ℕ := 2 ^ 1074

/-- The units of `2 ^ 1024`, which is too large for a double. -/
@[irreducible]
def topUnits : ℕ := 2 ^ 2098

theorem oneUnits_pos : 0 < oneUnits := by
  unfold oneUnits
  positivity

theorem topUnits_pos : 0 < topUnits := by
  unfold topUnits
  positivity

/-- The magnitude of a finite double, in units of `2 ^ -1074`. -/
@[ext]
structure Magnitude where
  units : ℕ
  fits : Fits 53 units
  bounded : units < topUnits
  deriving DecidableEq

/-- A double. -/
inductive Double where
  | finite (negative : Bool) (mag : Magnitude)
  | inf (negative : Bool)
  | nan
  deriving DecidableEq

/-- The rational number that a magnitude denotes. -/
def Magnitude.value (m : Magnitude) : ℚ := m.units / oneUnits

/-- The magnitude zero. -/
def Magnitude.zero : Magnitude := ⟨0, fits_zero 53, topUnits_pos⟩

/-! ## Rounding -/

/-- The units of the double that is nearest to `|x|`. -/
def unitsOf (x : ℚ) : ℕ := toBits 53 (x.num.natAbs * oneUnits) x.den

/-- The units of a rational number have 53 binary places. -/
theorem fits_unitsOf (x : ℚ) : Fits 53 (unitsOf x) := fits_toBits x.den_pos (by decide)

namespace Double

/-- The double with the given sign that is nearest to `|x|`. -/
def round (negative : Bool) (x : ℚ) : Double :=
  if h : unitsOf x < topUnits then .finite negative ⟨unitsOf x, fits_unitsOf x, h⟩
  else .inf negative

/-! ## Operations -/

/-- `-a`. -/
def neg : Double → Double
  | finite a x => finite (!a) x
  | inf a => inf (!a)
  | nan => nan

/-- `a * b`. -/
def mul : Double → Double → Double
  | finite a x, finite b y => round (a != b) (x.value * y.value)
  | inf a, inf b => inf (a != b)
  | inf a, finite b y => if y.units = 0 then nan else inf (a != b)
  | finite a x, inf b => if x.units = 0 then nan else inf (a != b)
  | _, _ => nan

/-- `a == b`: the two zeros are equal, and a NaN equals nothing. -/
def beq : Double → Double → Bool
  | finite a x, finite b y => x.units = y.units ∧ (a = b ∨ x.units = 0)
  | inf a, inf b => a = b
  | _, _ => false

/-- `isnan(a) || isinf(a)`. -/
def nonFinite : Double → Bool
  | finite _ _ => false
  | _ => true

/-! ## `strtod` -/

/-- The digits at the front of a text. -/
def digitsAt (s : List UInt8) : List UInt8 := s.takeWhile fun c => IsDigit c

/-- The byte at the front of a text, if it is one of `cs`. -/
def oneOf (cs : List UInt8) (s : List UInt8) : List UInt8 := (s.take 1).filter cs.contains

/-- The exponent at the front of a text and its length; there is none without a digit. -/
def strtodExp (s : List UInt8) : ℤ × ℕ :=
  let mark := oneOf [0x65, 0x45] s
  let sign := oneOf [0x2B, 0x2D] (s.drop mark.length)
  let digits := digitsAt (s.drop (mark.length + sign.length))
  if mark = [] ∨ digits = [] then (0, 0)
  else (if sign = [0x2D] then -(value digits : ℤ) else value digits,
    mark.length + sign.length + digits.length)

/-- `strtod`, for a text with no white space in front and no hexadecimal number, infinity or NaN
(`json__parse_number` passes none of these): the value and the number of bytes consumed. -/
def strtod (s : List UInt8) : Double × ℕ :=
  let sign := oneOf [0x2B, 0x2D] s
  let int := digitsAt (s.drop sign.length)
  let point := oneOf [0x2E] (s.drop (sign.length + int.length))
  let frac := if point = [] then [] else
    digitsAt (s.drop (sign.length + int.length + point.length))
  let length := sign.length + int.length + point.length + frac.length
  if int = [] ∧ frac = [] then (finite false .zero, 0)
  else
    let exp := strtodExp (s.drop length)
    (round (sign = [0x2D]) (value (int ++ frac) * 10 ^ (exp.1 - frac.length)), length + exp.2)

/-! ## `snprintf("%.17g")` -/

/-- The smallest positive double has more than 17 digits in front of the point when it is
multiplied with this power of ten. -/
@[irreducible]
def decimalShift : ℕ := 400

/-- The first 17 decimal digits of a positive magnitude, rounded, and the exponent of the first
one. -/
def decimal17 (m : Magnitude) : ℕ × ℤ :=
  (toDecimal 17 (m.units * 10 ^ decimalShift) oneUnits).map id fun t : ℕ =>
    (t : ℤ) + 16 - decimalShift

/-- A fraction without the zeros at its end, and without the point if nothing is left. -/
def fractionText (ds : List UInt8) : List UInt8 :=
  if ds.rdropWhile (· = 0x30) = [] then [] else 0x2E :: ds.rdropWhile (· = 0x30)

/-- An exponent, of at least two digits. -/
def exponentText (x : ℤ) : List UInt8 :=
  0x65 :: (if x < 0 then 0x2D else 0x2B) ::
    ((if x.natAbs < 10 then [0x30] else []) ++ text x.natAbs)

/-- The digits `ds` of a magnitude whose first digit has the exponent `x`. -/
def generalText (ds : List UInt8) (x : ℤ) : List UInt8 :=
  if x < -4 ∨ 17 ≤ x then ds.take 1 ++ fractionText (ds.drop 1) ++ exponentText x
  else if x < 0 then [0x30] ++ fractionText (List.replicate (-x - 1).toNat 0x30 ++ ds)
  else ds.take (x.toNat + 1) ++ fractionText (ds.drop (x.toNat + 1))

/-- The text of a magnitude. -/
def magnitudeText (m : Magnitude) : List UInt8 :=
  if m.units = 0 then [0x30]
  else generalText (text (decimal17 m).1) (decimal17 m).2

/-- `snprintf("%.17g", a)`. -/
def snprintf17g : Double → List UInt8
  | finite a x => (if a then [0x2D] else []) ++ magnitudeText x
  | inf a => (if a then [0x2D] else []) ++ [0x69, 0x6E, 0x66]    -- inf
  | nan => [0x6E, 0x61, 0x6E]                                     -- nan

end Double

/-- The `double` of the C compilers that the library is built with. -/
instance : CDouble Double where
  beq := Double.beq
  ofInt64 i := Double.round (i.toInt < 0) i.toInt
  ofUInt64 n := Double.round false n
  mul := Double.mul
  neg := Double.neg
  zero := Double.finite false .zero
  pow10Pos n := Double.round false (10 ^ n)
  pow10Neg n := Double.round false (1 / 10 ^ n)
  nonFinite := Double.nonFinite
  strtod := Double.strtod
  snprintf17g f := some (Double.snprintf17g f)

/-- `==` is transitive; a NaN takes no part in it. -/
theorem Double.beq_trans (f g k : Double) (hfg : CDouble.beq f g = true)
    (hgk : CDouble.beq g k = true) : CDouble.beq f k = true := by
  change Double.beq f g = true at hfg
  change Double.beq g k = true at hgk
  change Double.beq f k = true
  cases f <;> cases g <;> simp only [Double.beq, Bool.false_eq_true] at hfg <;>
    cases k <;> simp only [Double.beq, Bool.false_eq_true, decide_eq_true_eq] at hfg hgk ⊢
  · obtain ⟨hx, hs⟩ := hfg
    obtain ⟨hy, ht⟩ := hgk
    refine ⟨hx.trans hy, ?_⟩
    rw [hx] at hs ⊢
    rcases hs with rfl | hs
    · exact ht
    · exact .inr hs
  · exact hfg.trans hgk

theorem Double.ofInt64_eq (i : Int64) :
    (CDouble.ofInt64 i : Double) = round (i.toInt < 0) i.toInt := rfl

theorem Double.ofUInt64_eq (n : ℕ) : (CDouble.ofUInt64 n : Double) = round false n := rfl

theorem Double.pow10Pos_eq (n : ℕ) : (CDouble.pow10Pos n : Double) = round false (10 ^ n) := rfl

theorem Double.pow10Neg_eq (n : ℕ) :
    (CDouble.pow10Neg n : Double) = round false (1 / 10 ^ n) := rfl

theorem Double.neg_eq (f : Double) : CDouble.neg f = neg f := rfl

theorem Double.mul_finite (a b : Bool) (x y : Magnitude) :
    CDouble.mul (finite a x) (finite b y) = round (a != b) (x.value * y.value) := rfl

theorem Double.strtod_eq (s : List UInt8) : (CDouble.strtod s : Double × ℕ) = strtod s := rfl

theorem Double.nonFinite_eq (f : Double) : CDouble.nonFinite f = nonFinite f := rfl

/-! ## The nearest double -/

theorem units_eq : ∃ j, oneUnits = 2 ^ j ∧ topUnits = 2 ^ (1024 + j) :=
  ⟨1074, by unfold oneUnits; rfl, by unfold topUnits; exact congrArg (fun k => 2 ^ k) rfl⟩

/-- A nonnegative rational number is a fraction of natural numbers. -/
theorem exists_div {x : ℚ} (hx : 0 ≤ x) : ∃ n d : ℕ, 0 < d ∧ x = (n : ℚ) / d := by
  refine ⟨x.num.natAbs, x.den, x.den_pos, ?_⟩
  have hnum : ((x.num.natAbs : ℕ) : ℤ) = x.num := Int.natAbs_of_nonneg (Rat.num_nonneg.mpr hx)
  calc x = (x.num : ℚ) / x.den := (Rat.num_div_den x).symm
    _ = (x.num.natAbs : ℚ) / x.den := by rw [← hnum, Int.cast_natCast, Int.natAbs_natCast]

/-- The units of a fraction. -/
theorem unitsOf_div (n : ℕ) {d : ℕ} (hd : 0 < d) :
    unitsOf ((n : ℚ) / d) = toBits 53 (n * oneUnits) d := by
  generalize hx : (n : ℚ) / d = x
  have hnum : ((x.num.natAbs : ℕ) : ℤ) = x.num :=
    Int.natAbs_of_nonneg (Rat.num_nonneg.mpr (hx ▸ by positivity))
  have hcross : (x.num : ℚ) * d = n * x.den := by
    have hd' : (d : ℚ) ≠ 0 := by positivity
    have hden : (x.den : ℚ) ≠ 0 := by exact_mod_cast x.den_pos.ne'
    rw [← div_eq_div_iff hden hd', Rat.num_div_den, hx]
  rw [← hnum] at hcross
  have hcross' : x.num.natAbs * d = n * x.den := by exact_mod_cast hcross
  apply toBits_congr x.den_pos hd
  calc x.num.natAbs * oneUnits * d = x.num.natAbs * d * oneUnits := by ring
    _ = n * oneUnits * x.den := by rw [hcross']; ring

theorem unitsOf_nat (n : ℕ) : unitsOf n = toBits 53 (n * oneUnits) 1 := by
  simpa using unitsOf_div n Nat.one_pos

theorem unitsOf_one : unitsOf 1 = oneUnits := by
  obtain ⟨j, hj, -⟩ := units_eq
  have h := unitsOf_nat 1
  rw [Nat.cast_one, Nat.one_mul] at h
  rw [h]
  exact toBits_self (by decide) ⟨1, j, by norm_num, by rw [hj, Nat.one_mul]⟩

theorem unitsOf_abs (x : ℚ) : unitsOf |x| = unitsOf x := by
  unfold unitsOf
  rw [Rat.num_abs_eq_abs_num, Rat.den_abs_eq_den, Int.natAbs_abs]

/-- **Rounding goes to the nearest**: no number of 53 binary places is nearer to `x`. -/
theorem unitsOf_nearest {x : ℚ} (hx : 0 ≤ x) {N : ℕ} (hN : Fits 53 N) :
    |(unitsOf x : ℚ) / oneUnits - x| ≤ |(N : ℚ) / oneUnits - x| := by
  obtain ⟨n, d, hd, rfl⟩ := exists_div hx
  have hone : (0 : ℚ) < oneUnits := by exact_mod_cast oneUnits_pos
  have hden : (0 : ℚ) < d := by exact_mod_cast hd
  -- a distance, times the two denominators
  have hdist : ∀ M : ℕ, |(M : ℚ) / oneUnits - n / d| * (oneUnits * d)
      = Nat.dist (M * d) (n * oneUnits) := by
    intro M
    have hsub : ((M : ℚ) / oneUnits - n / d) * (oneUnits * d)
        = ((((M * d : ℕ) : ℤ) - ((n * oneUnits : ℕ) : ℤ) : ℤ) : ℚ) := by
      push_cast
      field_simp
    have hnat : |((M * d : ℕ) : ℤ) - ((n * oneUnits : ℕ) : ℤ)|
        = (Nat.dist (M * d) (n * oneUnits) : ℤ) := by
      rw [Int.abs_eq_natAbs]
      unfold Nat.dist
      omega
    calc |(M : ℚ) / oneUnits - n / d| * (oneUnits * d)
        = |((M : ℚ) / oneUnits - n / d) * (oneUnits * d)| := by
          rw [abs_mul, abs_of_pos (mul_pos hone hden)]
      _ = Nat.dist (M * d) (n * oneUnits) := by
          rw [hsub]
          exact_mod_cast hnat
  refine le_of_mul_le_mul_right ?_ (mul_pos hone hden)
  rw [hdist, hdist, unitsOf_div n hd]
  exact_mod_cast (toBits_nearest hd (by decide) hN).1

/-- A power of two bounds the units. -/
theorem unitsOf_le {x : ℚ} {k : ℕ} (hx : 0 ≤ x) (h : x < 2 ^ k) :
    unitsOf x ≤ 2 ^ k * oneUnits := by
  obtain ⟨n, d, hd, rfl⟩ := exists_div hx
  have hden : (0 : ℚ) < d := by exact_mod_cast hd
  rw [div_lt_iff₀ hden] at h
  have hlt : n < 2 ^ k * d := by exact_mod_cast h
  obtain ⟨j, hj, -⟩ := units_eq
  have hpow : 2 ^ k * oneUnits = 2 ^ (k + j) := by rw [hj, Nat.pow_add]
  rw [unitsOf_div n hd, hpow]
  apply toBits_le hd (by decide)
  calc n * oneUnits < 2 ^ k * d * oneUnits := Nat.mul_lt_mul_of_pos_right hlt oneUnits_pos
    _ = 2 ^ k * oneUnits * d := by ring
    _ = 2 ^ (k + j) * d := by rw [hpow]

/-- A number of 53 binary places in units is not rounded. -/
theorem unitsOf_units {N : ℕ} (h : Fits 53 N) : unitsOf ((N : ℚ) / oneUnits) = N := by
  have hscale : toBits 53 (N * oneUnits) oneUnits = toBits 53 N 1 :=
    toBits_congr oneUnits_pos Nat.one_pos (by ring)
  rw [unitsOf_div N oneUnits_pos, hscale]
  exact toBits_self (by decide) h

theorem Magnitude.unitsOf_value (m : Magnitude) : unitsOf m.value = m.units := unitsOf_units m.fits

/-- A double is not rounded. -/
theorem Double.round_value (negative : Bool) (m : Magnitude) :
    Double.round negative m.value = .finite negative m := by
  have hunits := m.unitsOf_value
  have hlt : unitsOf m.value < topUnits := hunits ▸ m.bounded
  unfold Double.round
  rw [dif_pos hlt]
  exact congrArg _ (Magnitude.ext hunits)

theorem units_div_le {x : ℚ} {k : ℕ} (hx : 0 ≤ x) (h : x < 2 ^ k) :
    (unitsOf x : ℚ) / oneUnits ≤ 2 ^ k := by
  have hone : (0 : ℚ) < oneUnits := by exact_mod_cast oneUnits_pos
  rw [div_le_iff₀ hone]
  exact_mod_cast unitsOf_le hx h

/-- Numbers below `2 ^ 1023` are rounded to finite doubles. -/
theorem unitsOf_lt {x : ℚ} {k : ℕ} (hx : 0 ≤ x) (h : x < 2 ^ k) (hk : k < 1024) :
    unitsOf x < topUnits := by
  obtain ⟨j, hj, htop⟩ := units_eq
  calc unitsOf x ≤ 2 ^ k * oneUnits := unitsOf_le hx h
    _ = 2 ^ (k + j) := by rw [hj, Nat.pow_add]
    _ < 2 ^ (1024 + j) := Nat.pow_lt_pow_right (by decide) (by omega)
    _ = topUnits := htop.symm

namespace Double

theorem round_of_lt {x : ℚ} (negative : Bool) (h : unitsOf x < topUnits) :
    round negative x = .finite negative ⟨unitsOf x, fits_unitsOf x, h⟩ := dif_pos h

theorem round_of_ge {x : ℚ} (negative : Bool) (h : ¬ unitsOf x < topUnits) :
    round negative x = .inf negative := dif_neg h

/-- Where the first of two numbers is rounded to a finite double, they are rounded alike exactly
if their units are. -/
theorem round_eq_iff {x y : ℚ} (negative : Bool) (h : unitsOf x < topUnits) :
    round negative x = round negative y ↔ unitsOf x = unitsOf y := by
  constructor
  · intro heq
    rw [round_of_lt negative h] at heq
    by_cases hy : unitsOf y < topUnits
    · rw [round_of_lt negative hy] at heq
      injection heq with _ hmag
      exact congrArg Magnitude.units hmag
    · rw [round_of_ge negative hy] at heq
      cases heq
  · intro heq
    have hy : unitsOf y < topUnits := heq ▸ h
    rw [round_of_lt negative h, round_of_lt negative hy]
    exact congrArg _ (Magnitude.ext heq)

theorem neg_round (x : ℚ) : neg (round false x) = round true x := by
  by_cases h : unitsOf x < topUnits
  · rw [round_of_lt _ h, round_of_lt _ h]
    rfl
  · rw [round_of_ge _ h, round_of_ge _ h]
    rfl

/-- Only the magnitude of a number is rounded. -/
theorem round_congr {x y : ℚ} (negative : Bool) (h : |x| = |y|) :
    round negative x = round negative y := by
  have hunits : unitsOf x = unitsOf y := by rw [← unitsOf_abs, h, unitsOf_abs]
  unfold round
  simp only [hunits]

end Double

theorem Double.round_zero (negative : Bool) : round negative 0 = finite negative .zero := by
  have h := round_value negative .zero
  have hzero : Magnitude.zero.value = 0 := by
    rw [Magnitude.value, Magnitude.zero, Nat.cast_zero, zero_div]
  rwa [hzero] at h

/-! ## Midpoints -/

/-- The midpoint of the numbers of `m` and `m + 1` units of `2 ^ e`. -/
def midpoint (m e : ℕ) : ℚ := (2 * m + 1) * 2 ^ e / (2 * oneUnits)

/-- In front of the midpoint, which itself belongs to `m` if `m` is even. -/
def Before (m e : ℕ) (x : ℚ) : Prop := x < midpoint m e ∨ (x = midpoint m e ∧ m % 2 = 0)

/-- No midpoint of two neighbouring doubles lies between the two numbers.  A midpoint belongs to
the even one of its neighbours. -/
def SameSide (x y : ℚ) : Prop :=
  ∀ m e, m < 2 ^ 53 → (e = 0 ∨ 2 ^ 52 ≤ m) → (Before m e x ↔ Before m e y)

theorem SameSide.refl (x : ℚ) : SameSide x x := fun _ _ _ _ => Iff.rfl

theorem under_iff {n d m e : ℕ} (hd : 0 < d) :
    Under m e (n * oneUnits) d ↔ Before m e ((n : ℚ) / d) := by
  have hone : (0 : ℚ) < 2 * oneUnits := by
    have h : (0 : ℚ) < oneUnits := by exact_mod_cast oneUnits_pos
    linarith
  have hden : (0 : ℚ) < d := by exact_mod_cast hd
  unfold Under Before midpoint
  rw [div_lt_div_iff₀ hden hone, div_eq_div_iff hden.ne' hone.ne', ← @Nat.cast_lt ℚ,
    ← @Nat.cast_inj ℚ]
  have hl : (n : ℚ) * (2 * oneUnits) = 2 * (n * oneUnits) := by ring
  have hr : ((2 * m + 1) * 2 ^ e : ℚ) * d = (2 * m + 1) * (d * 2 ^ e) := by ring
  rw [hl, hr]
  push_cast
  rfl

/-- **Two numbers are rounded alike** exactly if no midpoint lies between them. -/
theorem unitsOf_eq_iff {x y : ℚ} (hx : 0 ≤ x) (hy : 0 ≤ y) :
    unitsOf x = unitsOf y ↔ SameSide x y := by
  obtain ⟨n, d, hd, rfl⟩ := exists_div hx
  obtain ⟨n', d', hd', rfl⟩ := exists_div hy
  rw [unitsOf_div n hd, unitsOf_div n' hd', toBits_eq_iff hd hd' (by decide)]
  unfold Together SameSide
  simp only [under_iff hd, under_iff hd']

end SJson
