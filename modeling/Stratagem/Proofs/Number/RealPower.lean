import Mathlib.Analysis.SpecialFunctions.Pow.Real
import Mathlib.Data.Sign.Basic

/-!
# Rational powers of reals

The real `k`-th root of a real, with its sign, and the power with a rational exponent `p / q` in
lowest terms: the `p`-th power of the real `q`-th root. An even root of a negative number is no
root, so what is said of roots assumes that the degree is odd or the number is not negative.
-/
namespace Stratagem

/-- A number has a real root of a degree: the degree is not zero, and if it is even the number is
not negative. -/
structure HasRoot (k : ℕ) (x : ℝ) : Prop where
  /-- The degree is not zero. -/
  degree : k ≠ 0
  /-- Even roots are taken of numbers that are not negative. -/
  even : Even k → 0 ≤ x

/-- The real `k`-th root with the sign of the number. -/
noncomputable def realRoot (k : ℕ) (x : ℝ) : ℝ := SignType.sign x * |x| ^ ((k : ℝ)⁻¹)

/-- The power with a rational exponent. -/
noncomputable def rationalPower (x : ℝ) (r : ℚ) : ℝ := realRoot r.den x ^ r.num

open Classical in
/-- The power with a real exponent: for a rational one, the power of a root; otherwise the power of
a positive base. -/
noncomputable def realPower (x y : ℝ) : ℝ :=
  if rational : ∃ r : ℚ, y = r then rationalPower x rational.choose else x ^ y

variable {k : ℕ} {x y : ℝ}

/-- The sign of a number times its magnitude. -/
theorem sign_mul_abs_eq (x : ℝ) : (SignType.sign x : ℝ) * |x| = x := by
  rcases lt_trichotomy x 0 with negative | rfl | positive
  · rw [sign_neg negative, abs_of_neg negative]
    simp
  · simp
  · rw [sign_pos positive, abs_of_pos positive]
    simp

/-- The first root is the number. -/
@[simp] theorem realRoot_one (x : ℝ) : realRoot 1 x = x := by
  rw [realRoot, Nat.cast_one, inv_one, Real.rpow_one, sign_mul_abs_eq]

/-- The root of one is one. -/
@[simp] theorem realRoot_of_one (k : ℕ) : realRoot k 1 = 1 := by
  simp [realRoot]

/-- The root of zero is zero. -/
@[simp] theorem realRoot_zero (k : ℕ) : realRoot k 0 = 0 := by
  simp [realRoot]

/-- The root of a number that is not negative is not negative. -/
theorem realRoot_nonneg (nonneg : 0 ≤ x) (k : ℕ) : 0 ≤ realRoot k x := by
  rcases nonneg.eq_or_lt with rfl | positive
  · rw [realRoot_zero]
  · rw [realRoot, sign_pos positive]
    simpa using Real.rpow_nonneg (abs_nonneg x) _

/-- The root of a number other than zero is not zero. -/
theorem realRoot_ne_zero (nonzero : x ≠ 0) (k : ℕ) : realRoot k x ≠ 0 := by
  refine mul_ne_zero ?_ (Real.rpow_pos_of_pos (abs_pos.mpr nonzero) _).ne'
  rcases nonzero.lt_or_gt with negative | positive
  · simp [sign_neg negative]
  · simp [sign_pos positive]

/-- The power of the root is the number. -/
theorem HasRoot.realRoot_pow (known : HasRoot k x) : realRoot k x ^ k = x := by
  rw [realRoot, mul_pow, Real.rpow_inv_natCast_pow (abs_nonneg x) known.degree]
  rcases lt_trichotomy x 0 with negative | rfl | positive
  · have odd : Odd k := by
      rw [← Nat.not_even_iff_odd]
      exact fun even => (known.even even).not_gt negative
    rw [sign_neg negative, abs_of_neg negative]
    simp [odd.neg_one_pow]
  · simp
  · rw [sign_pos positive, abs_of_pos positive]
    simp

/-- A number whose power is the number, and which is not negative if the degree is even, is the
root. -/
theorem realRoot_eq_of_pow (degree : k ≠ 0) (power : y ^ k = x) (even : Even k → 0 ≤ y) :
    realRoot k x = y := by
  rcases Nat.even_or_odd k with both | odd
  · have nonneg : 0 ≤ x := power ▸ pow_nonneg (even both) k
    have known : HasRoot k x := ⟨degree, fun _ => nonneg⟩
    exact (pow_left_inj₀ (realRoot_nonneg nonneg k) (even both) degree).mp
      (known.realRoot_pow.trans power.symm)
  · have known : HasRoot k x := ⟨degree, fun even => absurd even (Nat.not_even_iff_odd.mpr odd)⟩
    exact odd.strictMono_pow.injective (known.realRoot_pow.trans power.symm)

/-- The second root is the square root. -/
theorem realRoot_two (nonneg : 0 ≤ x) : realRoot 2 x = √x :=
  realRoot_eq_of_pow two_ne_zero (Real.sq_sqrt nonneg) fun _ => Real.sqrt_nonneg x

/-- The power with an integral exponent. -/
@[simp] theorem rationalPower_intCast (x : ℝ) (n : ℤ) : rationalPower x n = x ^ n := by
  rw [rationalPower, Rat.den_intCast, realRoot_one, Rat.num_intCast]

/-- Powers of one are one. -/
@[simp] theorem rationalPower_of_one (r : ℚ) : rationalPower 1 r = 1 := by
  simp [rationalPower]

/-- A real power with a rational exponent. -/
@[simp] theorem realPower_ratCast (x : ℝ) (r : ℚ) : realPower x r = rationalPower x r := by
  have rational : ∃ q : ℚ, (r : ℝ) = q := ⟨r, rfl⟩
  have same : rational.choose = r := by exact_mod_cast rational.choose_spec.symm
  rw [realPower, dif_pos rational, same]

/-- Powers of one are one. -/
@[simp] theorem realPower_of_one (y : ℝ) : realPower 1 y = 1 := by
  unfold realPower
  split
  · exact rationalPower_of_one _
  · exact Real.one_rpow y

end Stratagem
