import Mathlib.Algebra.Polynomial.Derivative
import Mathlib.Algebra.Polynomial.Expand
import Mathlib.Algebra.Polynomial.Reverse
import Mathlib.Data.List.GetD
import Mathlib.Data.Rat.Cast.CharZero
import Mathlib.Tactic.Ring
import Stratagem.Polynomial.Basic

/-!
# Coefficient lists as polynomials

The polynomial that a coefficient list stands for, and what each operation on lists does to it.
Trimming changes no polynomial, so `Poly` is a faithful copy of the rational polynomials
(`Poly.toPolynomial_injective`) and every operation is the one of its name.
-/
namespace Stratagem

open Polynomial

namespace Coefficients

/-- The polynomial with these coefficients, lowest degree first. -/
noncomputable def toPolynomial : List ℚ → ℚ[X]
  | [] => 0
  | c :: rest => C c + X * toPolynomial rest

@[simp] theorem toPolynomial_nil : toPolynomial [] = 0 := rfl

@[simp] theorem toPolynomial_cons (c : ℚ) (rest : List ℚ) :
    toPolynomial (c :: rest) = C c + X * toPolynomial rest := rfl

theorem toPolynomial_trim (coeffs : List ℚ) :
    toPolynomial (trim coeffs) = toPolynomial coeffs := by
  induction coeffs with
  | nil => simp [trim]
  | cons c rest ih =>
    unfold trim
    cases kept : trim rest with
    | nil =>
      rw [kept, toPolynomial_nil] at ih
      by_cases zero : c = 0 <;> simp [zero, ← ih]
    | cons d more =>
      rw [kept] at ih
      simp only [toPolynomial_cons] at ih ⊢
      rw [ih]

theorem toPolynomial_append (left right : List ℚ) :
    toPolynomial (left ++ right) = toPolynomial left + X ^ left.length * toPolynomial right := by
  induction left with
  | nil => simp
  | cons c rest ih =>
    simp only [List.cons_append, toPolynomial_cons, ih, List.length_cons]
    ring

@[simp] theorem toPolynomial_replicate_zero (n : ℕ) :
    toPolynomial (List.replicate n 0) = 0 := by
  induction n with
  | zero => rfl
  | succ n ih => simp [List.replicate_succ, ih]

theorem coeff_toPolynomial (coeffs : List ℚ) (i : ℕ) :
    (toPolynomial coeffs).coeff i = coeffs.getD i 0 := by
  induction coeffs generalizing i with
  | nil => simp
  | cons c rest ih =>
    cases i with
    | zero => simp
    | succ i => simp [ih]

theorem toPolynomial_map_mul (a : ℚ) (coeffs : List ℚ) :
    toPolynomial (coeffs.map (a * ·)) = C a * toPolynomial coeffs := by
  induction coeffs with
  | nil => simp
  | cons c rest ih =>
    simp only [List.map_cons, toPolynomial_cons, ih, C_mul]
    ring

theorem toPolynomial_add (left right : List ℚ) :
    toPolynomial (add left right) = toPolynomial left + toPolynomial right := by
  induction left generalizing right with
  | nil => simp [add]
  | cons a left ih =>
    cases right with
    | nil => simp [add]
    | cons b right =>
      simp only [add, toPolynomial_cons, ih, C_add]
      ring

theorem toPolynomial_mul (left right : List ℚ) :
    toPolynomial (mul left right) = toPolynomial left * toPolynomial right := by
  induction left with
  | nil => simp [mul]
  | cons a left ih =>
    simp only [mul, toPolynomial_add, toPolynomial_map_mul, toPolynomial_cons, ih, C_0]
    ring

theorem eval_toPolynomial (coeffs : List ℚ) (x : ℚ) :
    (toPolynomial coeffs).eval x = eval coeffs x := by
  induction coeffs with
  | nil => simp [eval]
  | cons c rest ih =>
    simp only [toPolynomial_cons, eval_add, eval_C, eval_mul, eval_X, ih, eval, List.foldr_cons]
    ring

end Coefficients

namespace Poly

/-- The polynomial that a trimmed coefficient list stands for. -/
noncomputable def toPolynomial (p : Poly) : ℚ[X] := Coefficients.toPolynomial p.coeffs

variable (p q : Poly)

@[simp] theorem toPolynomial_ofCoeffs (coeffs : List ℚ) :
    (ofCoeffs coeffs).toPolynomial = Coefficients.toPolynomial coeffs :=
  Coefficients.toPolynomial_trim coeffs

theorem coeff_toPolynomial (i : ℕ) : p.toPolynomial.coeff i = p.coeffs.getD i 0 :=
  Coefficients.coeff_toPolynomial p.coeffs i

@[simp] theorem eval_toPolynomial (x : ℚ) : p.toPolynomial.eval x = p.eval x :=
  Coefficients.eval_toPolynomial p.coeffs x

/-! ### The constructors -/

@[simp] theorem toPolynomial_zero : zero.toPolynomial = 0 := by simp [zero]

@[simp] theorem toPolynomial_constant (c : ℚ) : (constant c).toPolynomial = C c := by
  simp [constant]

@[simp] theorem toPolynomial_monomial (c : ℚ) (degree : ℕ) :
    (monomial c degree).toPolynomial = C c * X ^ degree := by
  rw [monomial, toPolynomial_ofCoeffs, Coefficients.toPolynomial_append]
  simp [mul_comm (X ^ degree)]

/-! ### Degree and leading coefficient -/

theorem toPolynomial_eq_zero_iff : p.toPolynomial = 0 ↔ p.coeffs = [] := by
  constructor
  · intro zero
    by_contra filled
    have last := List.getLast?_eq_some_getLast filled
    have lead := coeff_toPolynomial p (p.coeffs.length - 1)
    rw [zero, Polynomial.coeff_zero, List.getD_eq_getElem?_getD, ← List.getLast?_eq_getElem?, last,
      Option.getD_some] at lead
    exact p.normal (last.trans (congrArg some lead.symm))
  · intro empty
    simp [toPolynomial, empty]

theorem isZero_iff : p.isZero = true ↔ p.toPolynomial = 0 := by
  rw [toPolynomial_eq_zero_iff, isZero, List.isEmpty_iff]

theorem leading?_eq_none_iff : p.leading? = none ↔ p.toPolynomial = 0 := by
  rw [toPolynomial_eq_zero_iff, leading?, List.getLast?_eq_none_iff]

theorem natDegree_toPolynomial : p.toPolynomial.natDegree = p.degree := by
  have small : ∀ i, p.degree < i → p.toPolynomial.coeff i = 0 := by
    intro i past
    rw [coeff_toPolynomial, List.getD_eq_default]
    simp only [degree, size] at past
    omega
  by_cases zero : p.toPolynomial = 0
  · have empty := (toPolynomial_eq_zero_iff p).mp zero
    simp [zero, degree, size, empty]
  · refine natDegree_eq_of_le_of_coeff_ne_zero (natDegree_le_iff_coeff_eq_zero.mpr small) ?_
    have filled : p.coeffs ≠ [] := fun empty => zero ((toPolynomial_eq_zero_iff p).mpr empty)
    rw [coeff_toPolynomial, List.getD_eq_getElem?_getD, degree, size, ← List.getLast?_eq_getElem?,
      List.getLast?_eq_some_getLast filled]
    intro lead
    exact p.normal ((List.getLast?_eq_some_getLast filled).trans (congrArg some lead))

theorem leading?_eq_some_iff {lead : ℚ} :
    p.leading? = some lead ↔ p.toPolynomial ≠ 0 ∧ p.toPolynomial.leadingCoeff = lead := by
  rw [ne_eq, ← leading?_eq_none_iff, leadingCoeff, natDegree_toPolynomial, coeff_toPolynomial,
    List.getD_eq_getElem?_getD, degree, size, ← List.getLast?_eq_getElem?]
  unfold leading?
  cases p.coeffs.getLast? <;> simp

theorem toPolynomial_injective : Function.Injective toPolynomial := by
  intro p q same
  have zero := (toPolynomial_eq_zero_iff p).symm.trans
    ((iff_of_eq (congrArg (· = 0) same)).trans (toPolynomial_eq_zero_iff q))
  have length : p.coeffs.length = q.coeffs.length := by
    have degrees := congrArg natDegree same
    rw [natDegree_toPolynomial, natDegree_toPolynomial, degree, degree, size, size] at degrees
    rcases eq : p.coeffs with _ | ⟨a, left⟩ <;> rcases eq' : q.coeffs with _ | ⟨b, right⟩ <;>
      simp_all
  have coeffs : p.coeffs = q.coeffs := by
    refine List.ext_getElem length fun i inside inside' => ?_
    have := congrArg (Polynomial.coeff · i) same
    simpa [coeff_toPolynomial, List.getD_eq_getElem?_getD, inside, inside'] using this
  cases p
  cases q
  simpa using coeffs

/-! ### Arithmetic -/

@[simp] theorem toPolynomial_add : (p.add q).toPolynomial = p.toPolynomial + q.toPolynomial := by
  rw [add, toPolynomial_ofCoeffs, Coefficients.toPolynomial_add]
  rfl

@[simp] theorem toPolynomial_scale (c : ℚ) : (p.scale c).toPolynomial = C c * p.toPolynomial := by
  have flip : (fun a : ℚ => a * c) = (c * ·) := funext fun a => mul_comm a c
  rw [scale, toPolynomial_ofCoeffs, flip, Coefficients.toPolynomial_map_mul, toPolynomial]

@[simp] theorem toPolynomial_neg : p.neg.toPolynomial = -p.toPolynomial := by
  have flip : (fun a : ℚ => -a) = (-1 * ·) := funext fun a => (neg_one_mul a).symm
  rw [neg, toPolynomial_ofCoeffs, flip, Coefficients.toPolynomial_map_mul, toPolynomial]
  simp

@[simp] theorem toPolynomial_sub : (p.sub q).toPolynomial = p.toPolynomial - q.toPolynomial := by
  simp [sub, sub_eq_add_neg]

@[simp] theorem toPolynomial_mul : (p.mul q).toPolynomial = p.toPolynomial * q.toPolynomial := by
  rw [mul, toPolynomial_ofCoeffs, Coefficients.toPolynomial_mul]
  rfl

theorem toPolynomial_monic :
    p.monic.toPolynomial = C p.toPolynomial.leadingCoeff⁻¹ * p.toPolynomial := by
  unfold monic
  cases lead : p.leading? with
  | none => simp [(leading?_eq_none_iff p).mp lead]
  | some c => simp [((leading?_eq_some_iff p).mp lead).2]

/-! ### Substitutions -/

theorem toPolynomial_ofInts (coeffs : List ℤ) (i : ℕ) :
    (ofInts coeffs).toPolynomial.coeff i = (coeffs.getD i 0 : ℤ) := by
  rw [ofInts, toPolynomial_ofCoeffs, Coefficients.coeff_toPolynomial, List.getD_eq_getElem?_getD,
    List.getD_eq_getElem?_getD, List.getElem?_map]
  cases coeffs[i]? <;> simp [Rational.ofInt]

theorem toPolynomial_derivative :
    p.derivative.toPolynomial = Polynomial.derivative p.toPolynomial := by
  ext i
  rw [derivative, toPolynomial_ofCoeffs, Coefficients.coeff_toPolynomial, coeff_derivative,
    coeff_toPolynomial, List.getD_eq_getElem?_getD, List.getD_eq_getElem?_getD, List.getElem?_drop,
    List.getElem?_mapIdx, Nat.add_comm 1 i]
  cases p.coeffs[i + 1]? <;> simp [Rational.ofInt]

theorem toPolynomial_composeLinear (a b : ℚ) :
    (p.composeLinear a b).toPolynomial = p.toPolynomial.comp (C a * X + C b) := by
  unfold composeLinear
  rw [show p.toPolynomial = Coefficients.toPolynomial p.coeffs from rfl]
  induction p.coeffs with
  | nil => simp
  | cons c rest ih =>
    simp only [List.foldr_cons, toPolynomial_add, toPolynomial_mul, toPolynomial_constant, ih,
      toPolynomial_ofCoeffs, Coefficients.toPolynomial_cons, Coefficients.toPolynomial_nil,
      add_comp, mul_comp, C_comp, X_comp]
    ring

theorem toPolynomial_reflect : p.reflect.toPolynomial = p.toPolynomial.comp (-X) := by
  have negated : (-X : ℚ[X]) = C (-1) * X := by simp
  ext i
  rw [reflect, toPolynomial_ofCoeffs, Coefficients.coeff_toPolynomial, negated,
    comp_C_mul_X_coeff, coeff_toPolynomial, List.getD_eq_getElem?_getD, List.getD_eq_getElem?_getD,
    List.getElem?_mapIdx]
  rcases Nat.mod_two_eq_zero_or_one i with even | odd
  · rw [(Nat.even_iff.mpr even).neg_one_pow]
    cases p.coeffs[i]? <;> simp [even]
  · rw [(Nat.odd_iff.mpr odd).neg_one_pow]
    cases p.coeffs[i]? <;> simp [odd]

theorem toPolynomial_reverse : p.reverse.toPolynomial = p.toPolynomial.reverse := by
  ext i
  rw [reverse, toPolynomial_ofCoeffs, Coefficients.coeff_toPolynomial, coeff_reverse,
    natDegree_toPolynomial, coeff_toPolynomial, degree, size]
  rcases Nat.lt_or_ge i p.coeffs.length with inside | past
  · rw [revAt_le (by omega), List.getD_eq_getElem?_getD, List.getD_eq_getElem?_getD,
      List.getElem?_reverse inside]
  · have fixed : p.coeffs.length ≤ revAt (p.coeffs.length - 1) i := by
      rcases Nat.lt_or_ge (p.coeffs.length - 1) i with after | within
      · rwa [revAt_eq_self_of_lt after]
      · simp [show p.coeffs.length = 0 by omega]
    rw [List.getD_eq_default _ _ (by simpa using past), List.getD_eq_default _ _ fixed]

/-- Spreading a coefficient list substitutes a power. -/
theorem toPolynomial_spread (gap : ℕ) (coeffs : List ℚ) :
    Coefficients.toPolynomial (spread gap coeffs) =
      expand ℚ (gap + 1) (Coefficients.toPolynomial coeffs) := by
  induction coeffs with
  | nil => simp [spread]
  | cons c rest ih =>
    rw [spread, Coefficients.toPolynomial_cons, Coefficients.toPolynomial_append, ih]
    simp [pow_succ]
    ring

theorem toPolynomial_substitutePower {k : ℕ} (positive : k ≠ 0) :
    (p.substitutePower k).toPolynomial = expand ℚ k p.toPolynomial := by
  obtain ⟨gap, rfl⟩ := Nat.exists_eq_succ_of_ne_zero positive
  exact (toPolynomial_ofCoeffs _).trans (toPolynomial_spread gap p.coeffs)

theorem toPolynomial_stripZeroRoots :
    ∃ n, p.toPolynomial = X ^ n * p.stripZeroRoots.toPolynomial := by
  rw [stripZeroRoots, toPolynomial_ofCoeffs, toPolynomial]
  induction p.coeffs with
  | nil => exact ⟨0, by simp⟩
  | cons c rest ih =>
    by_cases zero : c = 0
    · obtain ⟨n, same⟩ := ih
      refine ⟨n + 1, ?_⟩
      rw [List.dropWhile_cons_of_pos (by simpa using zero), Coefficients.toPolynomial_cons, same,
        zero]
      simp
      ring
    · exact ⟨0, by rw [List.dropWhile_cons_of_neg (by simpa using zero)]; simp⟩

end Poly
end Stratagem
