import Mathlib.Algebra.Polynomial.Mirror
import Mathlib.FieldTheory.Perfect
import Stratagem.Proofs.Polynomial.Primitive

/-!
# Substitutions

The roots of a polynomial after a linear substitution and after reversal, which both keep the roots
simple.
-/
namespace Stratagem.Poly

open Polynomial

variable {p : Poly} {a b : ℚ} {x : ℝ}

/-- Negating the argument is a linear substitution. -/
theorem reflect_eq (p : Poly) : p.reflect = p.composeLinear (-1) 0 := by
  apply toPolynomial_injective
  rw [toPolynomial_reflect, toPolynomial_composeLinear]
  simp

theorem eval_toReal_composeLinear (p : Poly) (a b : ℚ) (x : ℝ) :
    (p.composeLinear a b).toReal.eval x = p.toReal.eval (a * x + b) := by
  rw [toReal, toPolynomial_composeLinear, map_comp, eval_comp, toReal]
  simp

theorem eval_composeLinear (p : Poly) (a b x : ℚ) :
    (p.composeLinear a b).eval x = p.eval (a * x + b) := by
  rw [← eval_toPolynomial, toPolynomial_composeLinear, eval_comp]
  simp

theorem degree_composeLinear (nonzero : a ≠ 0) : (p.composeLinear a b).degree = p.degree := by
  rw [← natDegree_toPolynomial, toPolynomial_composeLinear, natDegree_comp,
    natDegree_linear nonzero, mul_one, natDegree_toPolynomial]

theorem degree_reverse_le (p : Poly) : p.reverse.degree ≤ p.degree := by
  rw [← natDegree_toPolynomial, toPolynomial_reverse, ← natDegree_toPolynomial]
  exact reverse_natDegree_le _

theorem degree_stripZeroRoots_le (p : Poly) : p.stripZeroRoots.degree ≤ p.degree := by
  obtain ⟨n, factored⟩ := toPolynomial_stripZeroRoots p
  rw [← natDegree_toPolynomial, ← natDegree_toPolynomial, factored]
  rcases eq_or_ne p.stripZeroRoots.toPolynomial 0 with zero | nonzero
  · rw [zero, natDegree_zero]
    exact Nat.zero_le _
  · rw [natDegree_mul (pow_ne_zero n X_ne_zero) nonzero]
    exact Nat.le_add_left _ _

theorem leadingCoeff_stripZeroRoots (p : Poly) :
    p.stripZeroRoots.toPolynomial.leadingCoeff = p.toPolynomial.leadingCoeff := by
  obtain ⟨n, factored⟩ := toPolynomial_stripZeroRoots p
  rw [factored, leadingCoeff_monic_mul (monic_X_pow n)]

/-- Without the factors `x` a polynomial does not vanish at zero. -/
theorem eval_zero_stripZeroRoots_ne_zero (nonzero : p.toPolynomial ≠ 0) :
    p.stripZeroRoots.eval 0 ≠ 0 := by
  have same : p.stripZeroRoots.toPolynomial =
      Coefficients.toPolynomial (p.coeffs.dropWhile (· = 0)) := toPolynomial_ofCoeffs _
  rw [← eval_toPolynomial, ← coeff_zero_eq_eval_zero, same, Coefficients.coeff_toPolynomial]
  cases kept : p.coeffs.dropWhile (· = 0) with
  | nil =>
    obtain ⟨n, factored⟩ := toPolynomial_stripZeroRoots p
    rw [factored, same, kept, Coefficients.toPolynomial_nil, mul_zero] at nonzero
    exact absurd rfl nonzero
  | cons c rest =>
    have head := List.head?_dropWhile_not (· = 0) p.coeffs
    rw [kept] at head
    simpa using head

theorem separable_composeLinear (separable : p.toPolynomial.Separable) (nonzero : a ≠ 0) :
    (p.composeLinear a b).toPolynomial.Separable := by
  rw [toPolynomial_composeLinear, Separable, derivative_comp]
  have coprime : IsCoprime (p.toPolynomial.comp (C a * X + C b))
      ((Polynomial.derivative p.toPolynomial).comp (C a * X + C b)) :=
    IsCoprime.map separable (compRingHom (C a * X + C b))
  refine (isCoprime_mul_unit_left_right ?_ _ _).mpr coprime
  simpa using nonzero

theorem toPolynomial_substitutePower_ne_zero (nonzero : p.toPolynomial ≠ 0) {k : ℕ}
    (positive : k ≠ 0) : (p.substitutePower k).toPolynomial ≠ 0 := by
  rw [toPolynomial_substitutePower p positive]
  exact (expand_ne_zero (Nat.pos_of_ne_zero positive)).mpr nonzero

theorem degree_substitutePower (p : Poly) {k : ℕ} (positive : k ≠ 0) :
    (p.substitutePower k).degree = p.degree * k := by
  rw [← natDegree_toPolynomial, toPolynomial_substitutePower p positive, natDegree_expand,
    natDegree_toPolynomial]

/-- The polynomial whose roots are the `k`-th roots of a rational. -/
theorem toPolynomial_monomial_sub (k : ℕ) (r : ℚ) :
    ((monomial 1 k).sub (constant r)).toPolynomial = X ^ k - C r := by
  rw [toPolynomial_sub, toPolynomial_monomial, toPolynomial_constant, C_1, one_mul]

theorem toPolynomial_monomial_sub_ne_zero {k : ℕ} (positive : k ≠ 0) (r : ℚ) :
    ((monomial 1 k).sub (constant r)).toPolynomial ≠ 0 := by
  rw [toPolynomial_monomial_sub]
  exact X_pow_sub_C_ne_zero (Nat.pos_of_ne_zero positive) r

theorem degree_monomial_sub (k : ℕ) (r : ℚ) : ((monomial 1 k).sub (constant r)).degree = k := by
  rw [← natDegree_toPolynomial, toPolynomial_monomial_sub, natDegree_X_pow_sub_C]

/-- The reciprocal of a root other than zero is a root of the reversed polynomial. -/
theorem eval_toReal_reverse (p : Poly) (nonzero : x ≠ 0) :
    p.reverse.toReal.eval x⁻¹ = 0 ↔ p.toReal.eval x = 0 := by
  let _ := invertibleOfNonzero nonzero
  rw [toReal, toPolynomial_reverse, eval_map, toReal, eval_map, ← invOf_eq_inv]
  exact eval₂_reverse_eq_zero_iff _ x _

/-- Zero is no root of the reversed polynomial. -/
theorem eval_zero_reverse_ne_zero (nonzero : p.toPolynomial ≠ 0) :
    p.reverse.toReal.eval 0 ≠ 0 := by
  rw [toReal, toPolynomial_reverse, eval_map, eval₂_at_zero, coeff_zero_reverse]
  simpa using nonzero

theorem toPolynomial_reverse_ne_zero (nonzero : p.toPolynomial ≠ 0) :
    p.reverse.toPolynomial ≠ 0 := by
  rw [toPolynomial_reverse]
  simpa using nonzero

theorem separable_reverse (separable : p.toPolynomial.Separable) :
    p.reverse.toPolynomial.Separable := by
  have simple := PerfectField.separable_iff_squarefree.mp separable
  have mirrored : Squarefree p.toPolynomial.mirror := by
    rintro f ⟨g, product⟩
    have back : p.toPolynomial = f.mirror * f.mirror * g.mirror := by
      rw [← mirror_mirror p.toPolynomial, product, mirror_mul_of_domain, mirror_mul_of_domain]
    have unit := simple f.mirror ⟨g.mirror, back⟩
    rw [Polynomial.isUnit_iff_degree_eq_zero] at unit ⊢
    have nonzero : f ≠ 0 := by
      rintro rfl
      simp at unit
    rw [degree_eq_natDegree nonzero, ← mirror_natDegree,
      ← degree_eq_natDegree (mt mirror_eq_zero.mp nonzero), unit]
  rw [PerfectField.separable_iff_squarefree, toPolynomial_reverse]
  exact mirrored.squarefree_of_dvd (Dvd.intro _ rfl)

end Stratagem.Poly
