import Mathlib.Algebra.Polynomial.FieldDivision
import Mathlib.FieldTheory.Perfect
import Mathlib.RingTheory.Polynomial.Radical
import Stratagem.Polynomial.Division
import Stratagem.Proofs.Polynomial.Meaning

/-!
# Long division, common divisors and square-free parts

Long division on coefficient lists is division with remainder, so the remainder sequence ends in a
greatest common divisor (`Poly.dvd_gcd_iff`), and dividing by the common divisor with the
derivative leaves a separable polynomial (`Poly.separable_squareFree`).
-/
namespace Stratagem

open Polynomial

namespace Coefficients

/-- The polynomial with these coefficients, highest degree first. -/
noncomputable def descending (coeffs : List ℚ) : ℚ[X] := toPolynomial coeffs.reverse

@[simp] theorem descending_nil : descending [] = 0 := rfl

@[simp] theorem descending_cons (c : ℚ) (rest : List ℚ) :
    descending (c :: rest) = C c * X ^ rest.length + descending rest := by
  simp [descending, toPolynomial_append]
  ring

theorem descending_subtractScaled (c : ℚ) (divisor rest : List ℚ)
    (fits : divisor.length ≤ rest.length) :
    descending (subtractScaled c divisor rest) =
      descending rest - C c * X ^ (rest.length - divisor.length) * descending divisor := by
  induction divisor generalizing rest with
  | nil => simp [subtractScaled]
  | cons d divisor ih =>
    cases rest with
    | nil => simp at fits
    | cons a rest =>
      simp only [List.length_cons, Nat.add_le_add_iff_right] at fits
      simp only [subtractScaled, descending_cons, length_subtractScaled, ih rest fits,
        List.length_cons, Nat.add_sub_add_right, C_sub, C_mul]
      rw [← Nat.sub_add_cancel fits, pow_add]
      simp only [Nat.add_sub_cancel]
      ring

theorem length_divideSteps_quotient (lead : ℚ) (lower : List ℚ) (n : ℕ) (rest : List ℚ)
    (fits : n ≤ rest.length) : (divideSteps lead lower n rest).1.length = n := by
  induction n generalizing rest with
  | zero => simp [divideSteps]
  | succ n ih =>
    cases rest with
    | nil => simp at fits
    | cons a rest =>
      have fits : n ≤ (subtractScaled (a / lead) lower rest).length := by
        simpa [length_subtractScaled] using fits
      simp [divideSteps, ih _ fits]

/-- The steps taken so far have subtracted a multiple of the divisor. -/
theorem descending_divideSteps {lead : ℚ} (nonzero : lead ≠ 0) (lower : List ℚ) (n : ℕ)
    (rest : List ℚ) (fits : n + lower.length ≤ rest.length) :
    descending rest = X ^ (rest.length - (n + lower.length)) *
        descending (divideSteps lead lower n rest).1 * descending (lead :: lower) +
      descending (divideSteps lead lower n rest).2 := by
  induction n generalizing rest with
  | zero => simp [divideSteps]
  | succ n ih =>
    cases rest with
    | nil => simp at fits
    | cons a rest =>
      have room : n + lower.length ≤ rest.length := by simpa [Nat.succ_add] using fits
      have step := ih (subtractScaled (a / lead) lower rest) (by rwa [length_subtractScaled])
      have quotient := length_divideSteps_quotient lead lower n
        (subtractScaled (a / lead) lower rest) (by rw [length_subtractScaled]; omega)
      have product : C (a / lead) * C lead = C a := by
        rw [← C_mul, div_mul_cancel₀ _ nonzero]
      have shift : X ^ (rest.length - (n + lower.length)) * X ^ n * X ^ lower.length =
          (X : ℚ[X]) ^ rest.length := by
        rw [← pow_add, ← pow_add]
        congr 1
        omega
      have gap : X ^ (rest.length - (n + lower.length)) * X ^ n =
          (X : ℚ[X]) ^ (rest.length - lower.length) := by
        rw [← pow_add]
        congr 1
        omega
      rw [length_subtractScaled, descending_subtractScaled _ _ _ (by omega)] at step
      simp only [divideSteps, descending_cons, List.length_cons, quotient] at step ⊢
      rw [show rest.length + 1 - (n + 1 + lower.length) = rest.length - (n + lower.length) by omega]
      rw [← gap] at step
      linear_combination step - X ^ rest.length * product - C (a / lead) * C lead * shift

end Coefficients

namespace Poly

variable (p q d : Poly)

theorem descending_reverse_coeffs : Coefficients.descending p.coeffs.reverse = p.toPolynomial := by
  rw [Coefficients.descending, List.reverse_reverse, toPolynomial]

/-- Quotient and remainder recompose the dividend. -/
theorem toPolynomial_of_divRem? {p d quotient remainder : Poly}
    (found : p.divRem? d = some (quotient, remainder)) :
    p.toPolynomial = quotient.toPolynomial * d.toPolynomial + remainder.toPolynomial := by
  unfold divRem? at found
  cases shape : d.coeffs.reverse with
  | nil => simp [shape] at found
  | cons lead lower =>
    simp only [shape, Option.some.injEq, Prod.mk.injEq] at found
    obtain ⟨rfl, rfl⟩ := found
    have nonzero : lead ≠ 0 := by
      rintro rfl
      apply d.normal
      rw [← List.head?_reverse, shape, List.head?_cons]
    rw [toPolynomial_ofCoeffs, toPolynomial_ofCoeffs, ← Coefficients.descending,
      ← Coefficients.descending, ← descending_reverse_coeffs d, ← descending_reverse_coeffs p,
      shape]
    rcases Nat.lt_or_ge p.size lower.length with short | long
    · rw [Nat.sub_eq_zero_of_le short.le]
      simp [Coefficients.divideSteps]
    · have length : p.coeffs.reverse.length = p.size := by simp [size]
      have steps := Coefficients.descending_divideSteps nonzero lower (p.size - lower.length)
        p.coeffs.reverse (by omega)
      rwa [length, Nat.sub_add_cancel long, Nat.sub_self, pow_zero, one_mul] at steps

theorem divRem?_eq_none_iff : p.divRem? d = none ↔ d.toPolynomial = 0 := by
  rw [toPolynomial_eq_zero_iff, ← List.reverse_eq_nil_iff, divRem?]
  cases d.coeffs.reverse <;> simp

variable {p q d}

/-- Division with remainder by a polynomial that is not zero. -/
theorem toPolynomial_eq_mul_add_rem (nonzero : d.toPolynomial ≠ 0) :
    p.toPolynomial = (p.exactDiv d).toPolynomial * d.toPolynomial + (p.rem d).toPolynomial := by
  unfold exactDiv rem
  cases found : p.divRem? d with
  | none => exact absurd ((divRem?_eq_none_iff p d).mp found) nonzero
  | some parts => exact toPolynomial_of_divRem? found

theorem degree_rem_lt (nonzero : d.toPolynomial ≠ 0) :
    (p.rem d).toPolynomial.degree < d.toPolynomial.degree := by
  have filled : d.isZero = false := by
    rw [Bool.eq_false_iff, ne_eq, isZero_iff]
    exact nonzero
  have short := size_rem_lt p filled
  by_cases zero : (p.rem d).toPolynomial = 0
  · rw [zero, degree_zero]
    exact bot_lt_iff_ne_bot.mpr (degree_ne_bot.mpr nonzero)
  · apply degree_lt_degree
    rw [natDegree_toPolynomial, natDegree_toPolynomial, degree, degree]
    have : (p.rem d).size ≠ 0 := by
      intro empty
      exact zero ((toPolynomial_eq_zero_iff _).mpr (List.length_eq_zero_iff.mp empty))
    omega

theorem toPolynomial_rem (nonzero : d.toPolynomial ≠ 0) :
    (p.rem d).toPolynomial = p.toPolynomial % d.toPolynomial := by
  have exact := toPolynomial_eq_mul_add_rem (p := p) nonzero
  have multiple : (p.exactDiv d).toPolynomial * d.toPolynomial % d.toPolynomial = 0 :=
    EuclideanDomain.mod_eq_zero.mpr (dvd_mul_left _ _)
  rw [exact, Polynomial.add_mod, multiple, zero_add,
    (Polynomial.mod_eq_self_iff nonzero).mpr (degree_rem_lt nonzero)]

/-- Division by a divisor is exact. -/
theorem exactDiv_mul (divides : d.toPolynomial ∣ p.toPolynomial) (nonzero : d.toPolynomial ≠ 0) :
    (p.exactDiv d).toPolynomial * d.toPolynomial = p.toPolynomial := by
  have exact := toPolynomial_eq_mul_add_rem (p := p) nonzero
  rwa [toPolynomial_rem nonzero, EuclideanDomain.mod_eq_zero.mpr divides, add_zero,
    eq_comm] at exact

/-! ### Greatest common divisors -/

theorem dvd_lastRemainder_iff (p q : Poly) (f : ℚ[X]) :
    f ∣ (p.lastRemainder q).toPolynomial ↔ f ∣ p.toPolynomial ∧ f ∣ q.toPolynomial := by
  induction p, q using lastRemainder.induct with
  | case1 p q zero =>
    rw [lastRemainder, dif_pos zero, (isZero_iff q).mp zero]
    simp
  | case2 p q zero _ ih =>
    have nonzero : q.toPolynomial ≠ 0 := fun h => zero ((isZero_iff q).mpr h)
    rw [lastRemainder, dif_neg zero, ih, toPolynomial_rem nonzero, and_comm]
    refine and_congr_left fun divides => ?_
    exact EuclideanDomain.dvd_mod_iff divides

theorem lastRemainder_eq_zero_iff :
    (p.lastRemainder q).toPolynomial = 0 ↔ p.toPolynomial = 0 ∧ q.toPolynomial = 0 := by
  have divides := dvd_lastRemainder_iff p q 0
  rwa [zero_dvd_iff, zero_dvd_iff, zero_dvd_iff] at divides

theorem associated_monic (p : Poly) : Associated p.monic.toPolynomial p.toPolynomial := by
  rw [toPolynomial_monic]
  by_cases zero : p.toPolynomial = 0
  · rw [zero, mul_zero]
  · refine (associated_isUnit_mul_left_iff ?_).mpr (Associated.refl _)
    exact isUnit_C.mpr (isUnit_iff_ne_zero.mpr (inv_ne_zero (leadingCoeff_ne_zero.mpr zero)))

/-- The common divisors of two polynomials are the divisors of their greatest. -/
theorem dvd_gcd_iff (p q : Poly) (f : ℚ[X]) :
    f ∣ (p.gcd q).toPolynomial ↔ f ∣ p.toPolynomial ∧ f ∣ q.toPolynomial := by
  rw [gcd, (associated_monic _).dvd_iff_dvd_right, dvd_lastRemainder_iff]

theorem gcd_dvd_left (p q : Poly) : (p.gcd q).toPolynomial ∣ p.toPolynomial :=
  ((dvd_gcd_iff p q _).mp dvd_rfl).1

theorem gcd_dvd_right (p q : Poly) : (p.gcd q).toPolynomial ∣ q.toPolynomial :=
  ((dvd_gcd_iff p q _).mp dvd_rfl).2

theorem gcd_ne_zero (nonzero : p.toPolynomial ≠ 0) : (p.gcd q).toPolynomial ≠ 0 := by
  intro zero
  exact nonzero (zero_dvd_iff.mp (zero ▸ gcd_dvd_left p q))

/-! ### Square-free parts -/

theorem isConstant_iff : p.isConstant = true ↔ p.toPolynomial.natDegree = 0 := by
  rw [natDegree_toPolynomial, isConstant, degree, decide_eq_true_iff]
  omega

/-- What is divided out for the square-free part is a greatest common divisor of the polynomial and
its derivative. -/
theorem exists_squareFree_mul (nonzero : p.toPolynomial ≠ 0) :
    ∃ g : ℚ[X], p.squareFree.toPolynomial * g = p.toPolynomial ∧
      ∀ f, f ∣ g ↔ f ∣ p.toPolynomial ∧ f ∣ Polynomial.derivative p.toPolynomial := by
  have divisors (f : ℚ[X]) := dvd_gcd_iff p p.derivative f
  simp only [toPolynomial_derivative] at divisors
  have coprime (trivial : ∀ f, f ∣ p.toPolynomial ∧ f ∣ Polynomial.derivative p.toPolynomial →
      IsUnit f) : ∃ g : ℚ[X], p.toPolynomial * g = p.toPolynomial ∧
      ∀ f, f ∣ g ↔ f ∣ p.toPolynomial ∧ f ∣ Polynomial.derivative p.toPolynomial := by
    refine ⟨1, mul_one _, fun f => ⟨fun unit => ?_, fun common => (trivial f common).dvd⟩⟩
    exact ⟨(isUnit_of_dvd_one unit).dvd, (isUnit_of_dvd_one unit).dvd⟩
  unfold squareFree
  split
  · next small =>
    refine coprime fun f common => ?_
    rw [← natDegree_toPolynomial] at small
    rcases Nat.lt_or_ge p.toPolynomial.natDegree 1 with constant | linear
    · refine isUnit_of_dvd_unit common.1 ?_
      have value := eq_C_of_natDegree_eq_zero (p := p.toPolynomial) (by omega)
      rw [value] at nonzero ⊢
      exact isUnit_C.mpr (isUnit_iff_ne_zero.mpr (C_ne_zero.mp nonzero))
    · refine isUnit_of_dvd_unit common.2 ?_
      have degree : p.toPolynomial.natDegree = 1 := by omega
      rw [eq_X_add_C_of_natDegree_le_one degree.le] at nonzero ⊢
      have lead : p.toPolynomial.coeff 1 ≠ 0 := by
        rw [← degree]
        exact leadingCoeff_ne_zero.mpr fun zero => by simp [zero] at degree
      simpa using isUnit_C.mpr (isUnit_iff_ne_zero.mpr lead)
  · dsimp only
    split
    · next constant =>
      refine coprime fun f common => ?_
      have divides := (divisors f).mpr common
      have some := gcd_ne_zero (q := p.derivative) nonzero
      rw [eq_C_of_natDegree_eq_zero (isConstant_iff.mp constant)] at divides some
      exact isUnit_of_dvd_unit divides
        (isUnit_C.mpr (isUnit_iff_ne_zero.mpr (C_ne_zero.mp some)))
    · exact ⟨_, exactDiv_mul (gcd_dvd_left _ _) (gcd_ne_zero nonzero), divisors⟩

theorem squareFree_ne_zero (nonzero : p.toPolynomial ≠ 0) : p.squareFree.toPolynomial ≠ 0 := by
  obtain ⟨g, product, -⟩ := exists_squareFree_mul nonzero
  intro zero
  rw [zero, zero_mul] at product
  exact nonzero product.symm

theorem degree_squareFree_le (nonzero : p.toPolynomial ≠ 0) : p.squareFree.degree ≤ p.degree := by
  obtain ⟨g, product, -⟩ := exists_squareFree_mul nonzero
  rw [← natDegree_toPolynomial, ← natDegree_toPolynomial]
  exact natDegree_le_of_dvd ⟨g, product.symm⟩ nonzero

/-- The square-free part has no multiple roots. -/
theorem separable_squareFree (nonzero : p.toPolynomial ≠ 0) :
    p.squareFree.toPolynomial.Separable := by
  obtain ⟨g, product, divisors⟩ := exists_squareFree_mul nonzero
  obtain ⟨k, multiple⟩ : EuclideanDomain.divRadical p.toPolynomial ∣ g :=
    (divisors _).mpr ⟨EuclideanDomain.divRadical_dvd_self _, divRadical_dvd_derivative _⟩
  have whole := EuclideanDomain.radical_mul_divRadical (a := p.toPolynomial)
  have part : p.squareFree.toPolynomial ∣ UniqueFactorizationMonoid.radical p.toPolynomial := by
    refine ⟨k, mul_right_cancel₀ (EuclideanDomain.divRadical_ne_zero nonzero) ?_⟩
    calc _ = p.squareFree.toPolynomial * g := whole.trans product.symm
      _ = _ := by rw [multiple]; ring
  rw [PerfectField.separable_iff_squarefree]
  exact UniqueFactorizationMonoid.squarefree_radical.squarefree_of_dvd part

end Poly
end Stratagem
