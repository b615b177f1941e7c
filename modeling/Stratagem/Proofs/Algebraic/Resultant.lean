import Mathlib.Analysis.SpecialFunctions.Pow.Real
import Stratagem.Algebraic.Arithmetic
import Stratagem.Proofs.Polynomial.Resultant
import Stratagem.Proofs.Polynomial.Substitution

/-!
# The resultants of sums, products and powers

The polynomials that the arithmetic of algebraic numbers interpolates vanish at the sum and at the
product of a root of each operand, and at a power of a root. Each is a resultant with a family of
polynomials that depends on the parameter as a polynomial, of one degree for all values of it, so
that interpolation gives the resultant at every rational (`Poly.resultants_exact`).
-/
namespace Stratagem

open Polynomial

namespace Poly

variable {p q : Poly} {x y : ℝ}

/-- A polynomial with a root is not constant. -/
theorem degree_ne_zero_of_root (nonzero : p.toPolynomial ≠ 0) (root : p.toReal.eval x = 0) :
    p.degree ≠ 0 := by
  intro flat
  have member := (mem_realRoots nonzero).mpr root
  have few := card_realRoots_le p
  rw [flat, Nat.le_zero, Finset.card_eq_zero] at few
  rw [few] at member
  exact Finset.notMem_empty x member

/-! ### Sums -/

/-- The polynomials `q (x - y)` in `y`. -/
theorem family_sum (q : Poly) : Family (fun t => q.composeLinear (-1) t) q.degree q.degree
    fun z => q.toComplex.comp (X - C z) where
  degree _ := .inr (degree_composeLinear (by norm_num))
  value t z := by
    rw [toComplex, toPolynomial_composeLinear, map_comp, eval_comp, eval_comp, toComplex]
    congr 1
    simp
    ring
  short z := by rw [natDegree_comp, natDegree_X_sub_C, mul_one, natDegree_toComplex]

/-- The eliminant of sums vanishes at the sum of a root of each polynomial. -/
theorem eval_eliminant_sum (varies : p.degree ≠ 0) (first : p.toReal.eval x = 0)
    (second : q.toReal.eval y = 0) :
    (p.eliminant (p.degree * q.degree) fun t => q.composeLinear (-1) t).toReal.eval (x + y) = 0 := by
  refine (family_sum q).eval_eliminant_eq_zero varies le_rfl first ?_
  have value : q.toComplex.eval (y : ℂ) = 0 := by rw [eval_toComplex, second, Complex.ofReal_zero]
  rw [eval_comp, eval_sub, eval_X, eval_C, Complex.ofReal_add, add_sub_cancel_left, value]

/-! ### Products -/

/-- The value of `y ^ n * q (x / y)` at a certain `y`, as a polynomial in `x`. -/
noncomputable def quotientAt (z : ℂ) : List ℚ → ℂ[X]
  | [] => 0
  | c :: rest => C (c * z ^ rest.length) + X * quotientAt z rest

theorem natDegree_quotientAt_le (z : ℂ) (coeffs : List ℚ) :
    (quotientAt z coeffs).natDegree ≤ coeffs.length - 1 := by
  induction coeffs with
  | nil => simp [quotientAt]
  | cons c rest ih =>
    rw [quotientAt, natDegree_C_add, List.length_cons, Nat.add_sub_cancel]
    cases rest with
    | nil => simp [quotientAt]
    | cons d more =>
      refine natDegree_mul_le.trans ?_
      rw [natDegree_X]
      simp only [List.length_cons, Nat.add_sub_cancel] at ih ⊢
      omega

theorem eval_descending_mapIdx (t : ℚ) (z : ℂ) (s : ℕ) (coeffs : List ℚ) :
    ((Coefficients.descending (coeffs.mapIdx fun i c => c * t ^ (i + s))).map
      (algebraMap ℚ ℂ)).eval z = t ^ s * (quotientAt z coeffs).eval (t : ℂ) := by
  induction coeffs generalizing s with
  | nil => simp [quotientAt]
  | cons c rest ih =>
    have shifted : (rest.mapIdx fun i c => c * t ^ (i + 1 + s)) =
        rest.mapIdx fun i c => c * t ^ (i + (s + 1)) := by
      simp only [Nat.add_right_comm, Nat.add_assoc]
    have later := ih (s + 1)
    rw [← shifted] at later
    rw [List.mapIdx_cons, Coefficients.descending_cons, Polynomial.map_add, eval_add, later,
      quotientAt]
    simp
    ring

/-- At a product the value is that of the polynomial at the second factor. -/
theorem eval_quotientAt_mul (z w : ℂ) (coeffs : List ℚ) :
    z * (quotientAt z coeffs).eval (z * w) =
      z ^ coeffs.length * ((Coefficients.toPolynomial coeffs).map (algebraMap ℚ ℂ)).eval w := by
  induction coeffs with
  | nil => simp [quotientAt]
  | cons c rest ih =>
    rw [quotientAt, Coefficients.toPolynomial_cons, List.length_cons]
    simp only [eval_add, eval_mul, eval_C, eval_X, Polynomial.map_add, Polynomial.map_mul, map_C,
      map_X, eq_ratCast]
    linear_combination (z * w) * ih

theorem toPolynomial_quotientPoly (q : Poly) (t : ℚ) :
    (Algebraic.quotientPoly q t).toPolynomial =
      Coefficients.descending (q.coeffs.mapIdx fun i c => c * t ^ i) := by
  rw [Algebraic.quotientPoly, toPolynomial_ofCoeffs]
  rfl

theorem natDegree_descending_cons {c : ℚ} (nonzero : c ≠ 0) (rest : List ℚ) :
    (Coefficients.descending (c :: rest)).natDegree = rest.length := by
  have lower : (Coefficients.descending rest).degree < rest.length := by
    rw [degree_lt_iff_coeff_zero]
    intro i past
    rw [Coefficients.descending, Coefficients.coeff_toPolynomial, List.getD_eq_default]
    rwa [List.length_reverse]
  rw [Coefficients.descending_cons, natDegree_add_eq_left_of_degree_lt,
    natDegree_C_mul_X_pow _ _ nonzero]
  rwa [degree_C_mul_X_pow _ nonzero]

/-- Powers of a parameter other than zero change no degree. -/
theorem natDegree_descending_mapIdx (coeffs : List ℚ) : ∃ d, ∀ t ≠ (0 : ℚ), ∀ s,
    Coefficients.descending (coeffs.mapIdx fun i c => c * t ^ (i + s)) = 0 ∨
      (Coefficients.descending (coeffs.mapIdx fun i c => c * t ^ (i + s))).natDegree = d := by
  induction coeffs with
  | nil => exact ⟨0, fun t _ s => .inl rfl⟩
  | cons c rest ih =>
    rcases eq_or_ne c 0 with rfl | nonzero
    · obtain ⟨d, later⟩ := ih
      refine ⟨d, fun t other s => ?_⟩
      have shifted : (rest.mapIdx fun i c => c * t ^ (i + 1 + s)) =
          rest.mapIdx fun i c => c * t ^ (i + (s + 1)) := by
        simp only [Nat.add_right_comm, Nat.add_assoc]
      rw [List.mapIdx_cons, zero_mul, Coefficients.descending_cons, C_0, zero_mul, zero_add, shifted]
      exact later t other (s + 1)
    · refine ⟨rest.length, fun t other s => .inr ?_⟩
      rw [List.mapIdx_cons, natDegree_descending_cons (mul_ne_zero nonzero (pow_ne_zero _ other)),
        List.length_mapIdx]

/-- The polynomials `y ^ n * q (t / y)` have one degree in `y`, except that they vanish for `t = 0`
if zero is a root. -/
theorem degree_quotientPoly (q : Poly) :
    ∃ d, ∀ t, (Algebraic.quotientPoly q t).toPolynomial = 0 ∨
      (Algebraic.quotientPoly q t).degree = d := by
  simp only [← natDegree_toPolynomial, toPolynomial_quotientPoly]
  rcases q.coeffs with _ | ⟨c, rest⟩
  · exact ⟨0, fun t => .inl rfl⟩
  rcases eq_or_ne c 0 with rfl | nonzero
  · obtain ⟨d, same⟩ := natDegree_descending_mapIdx (0 :: rest)
    refine ⟨d, fun t => ?_⟩
    rcases eq_or_ne t 0 with rfl | other
    · left
      have zeros : ((0 :: rest).mapIdx fun i c => c * (0 : ℚ) ^ i) =
          List.replicate (rest.length + 1) 0 := by
        refine List.ext_getElem (by simp) fun i _ _ => ?_
        rw [List.getElem_mapIdx, List.getElem_replicate]
        cases i with
        | zero => simp
        | succ i => rw [pow_succ, mul_zero, mul_zero]
      rw [zeros, Coefficients.descending, List.reverse_replicate,
        Coefficients.toPolynomial_replicate_zero]
    · exact same t other 0
  · refine ⟨rest.length, fun t => .inr ?_⟩
    rw [List.mapIdx_cons, natDegree_descending_cons, List.length_mapIdx]
    simpa using nonzero

/-- The polynomials `y ^ n * q (x / y)` in `y`. -/
theorem family_product (q : Poly) :
    ∃ d, Family (Algebraic.quotientPoly q) d q.degree fun z => quotientAt z q.coeffs := by
  obtain ⟨d, degree⟩ := degree_quotientPoly q
  refine ⟨d, degree, fun t z => ?_, fun z => natDegree_quotientAt_le z q.coeffs⟩
  have value := eval_descending_mapIdx t z 0 q.coeffs
  rw [pow_zero, one_mul] at value
  rw [toComplex, toPolynomial_quotientPoly]
  exact value

/-- The value of `y ^ n * q (x / y)` at a certain `y` does not vanish for all `x`. -/
theorem quotientAt_ne_zero (z : ℂ) {coeffs : List ℚ} {lead : ℚ} (last : coeffs.getLast? = some lead)
    (nonzero : lead ≠ 0) : quotientAt z coeffs ≠ 0 := by
  induction coeffs with
  | nil => cases last
  | cons c rest ih =>
    rw [quotientAt]
    rcases rest with _ | ⟨d, more⟩
    · obtain rfl : c = lead := by simpa using last
      simpa [quotientAt] using nonzero
    · intro zero
      refine ih (by rwa [List.getLast?_cons_cons] at last) (Polynomial.ext fun i => ?_)
      have coefficient := congrArg (Polynomial.coeff · (i + 1)) zero
      simpa only [coeff_add, coeff_C_succ, coeff_X_mul, zero_add, coeff_zero] using coefficient

/-- The eliminant of products vanishes at the product of a root of each polynomial. -/
theorem eval_eliminant_product (varies : p.degree ≠ 0) (other : q.degree ≠ 0)
    (first : p.toReal.eval x = 0) (second : q.toReal.eval y = 0) :
    (p.eliminant (p.degree * q.degree) (Algebraic.quotientPoly q)).toReal.eval (x * y) = 0 := by
  obtain ⟨d, family⟩ := family_product q
  refine family.eval_eliminant_eq_zero varies le_rfl first ?_
  rcases eq_or_ne x 0 with rfl | nonzero
  · rw [degree, size] at other
    generalize q.coeffs = coeffs at other
    rcases coeffs with _ | ⟨c, _ | ⟨e, more⟩⟩
    · rw [quotientAt, eval_zero]
    · exact absurd rfl other
    · simp [quotientAt]
  · have value : q.toComplex.eval (y : ℂ) = 0 := by rw [eval_toComplex, second, Complex.ofReal_zero]
    have product := eval_quotientAt_mul x y q.coeffs
    rw [toComplex, toPolynomial] at value
    rw [value, mul_zero] at product
    rw [Complex.ofReal_mul]
    exact (mul_eq_zero.mp product).resolve_left (Complex.ofReal_ne_zero.mpr nonzero)

/-! ### Powers -/

/-- The polynomials `x - y ^ k` in `y`. -/
theorem family_power (k : ℕ) :
    Family (fun t => (constant t).sub (monomial 1 k)) k 1 fun z => X - C (z ^ k) where
  degree t := by
    right
    rw [← natDegree_toPolynomial, toPolynomial_sub, toPolynomial_constant, toPolynomial_monomial,
      C_1, one_mul, ← natDegree_neg, neg_sub, natDegree_X_pow_sub_C]
  value t z := by
    rw [toComplex, toPolynomial_sub, toPolynomial_constant, toPolynomial_monomial]
    simp
  short _ := (natDegree_X_sub_C _).le

/-- The eliminant of powers vanishes at the power of a root. -/
theorem eval_eliminant_power (varies : p.degree ≠ 0) (root : p.toReal.eval x = 0) (k : ℕ) :
    (p.eliminant p.degree fun t => (constant t).sub (monomial 1 k)).toReal.eval (x ^ k) = 0 := by
  refine (family_power k).eval_eliminant_eq_zero varies (Nat.mul_one _).le root ?_
  rw [eval_sub, eval_X, eval_C, Complex.ofReal_pow, sub_self]

/-! ### The interpolated resultants -/

/-- The polynomial is not zero, and its value at every rational is the resultant with the member of
the family there. -/
structure Eliminates (r p : Poly) (g : ℚ → Poly) : Prop where
  /-- The values are the resultants. -/
  value : ∀ t, r.eval t = p.resultant (g t)
  /-- The polynomial is not zero. -/
  nonzero : r.isZero = false

variable {g : ℚ → Poly} {d n bound : ℕ} {h : ℂ → ℂ[X]}

theorem isZero_eq_false (nonzero : p.toPolynomial ≠ 0) : p.isZero = false :=
  Bool.eq_false_iff.mpr fun zero => nonzero ((isZero_iff p).mp zero)

theorem Family.eliminates (family : Family g d n h) (varies : p.degree ≠ 0)
    (enough : p.degree * n ≤ bound) (some : ∀ z, h z ≠ 0) :
    (p.eliminant bound g).Eliminates p g :=
  ⟨family.eval_eliminant varies enough,
    isZero_eq_false (family.eliminant_ne_zero varies enough some)⟩

theorem Eliminates.toPolynomial_ne_zero {r : Poly} (known : r.Eliminates p g) :
    r.toPolynomial ≠ 0 :=
  fun zero => Bool.eq_false_iff.mp known.nonzero ((isZero_iff r).mpr zero)

theorem eliminates_sum (varies : p.degree ≠ 0) (other : q.degree ≠ 0) :
    (p.eliminant (p.degree * q.degree) fun t => q.composeLinear (-1) t).Eliminates p
      fun t => q.composeLinear (-1) t := by
  refine (family_sum q).eliminates varies le_rfl fun z zero => other ?_
  have degree := congrArg natDegree zero
  rwa [natDegree_comp, natDegree_X_sub_C, mul_one, natDegree_toComplex, natDegree_zero] at degree

theorem eliminates_product (varies : p.degree ≠ 0) (other : q.degree ≠ 0) :
    (p.eliminant (p.degree * q.degree) (Algebraic.quotientPoly q)).Eliminates p
      (Algebraic.quotientPoly q) := by
  obtain ⟨d, family⟩ := family_product q
  have nonzero := toPolynomial_ne_zero_of_degree other
  have last := (leading?_eq_some_iff q).mpr ⟨nonzero, rfl⟩
  exact family.eliminates varies le_rfl fun z =>
    quotientAt_ne_zero z last (leadingCoeff_ne_zero.mpr nonzero)

theorem eliminates_power (varies : p.degree ≠ 0) (k : ℕ) :
    (p.eliminant p.degree fun t => (constant t).sub (monomial 1 k)).Eliminates p
      fun t => (constant t).sub (monomial 1 k) :=
  (family_power k).eliminates varies (Nat.mul_one _).le fun _ => X_sub_C_ne_zero _

/-- A run that interpolates resultants returns the eliminant. -/
theorem run_resultantIn (p : Poly) (bound : ℕ) (g : ℚ → Poly) (limits : Algebraic.Limits)
    (tally : Algebraic.Tally) :
    ((Algebraic.resultantIn p bound g).run limits tally).1 = .ok (p.eliminant bound g) := rfl

/-- **Resultants by evaluation and interpolation are exact**: the resultant is the determinant of the
Sylvester matrix and vanishes just when there is a common complex root; interpolation finds the only
polynomial of a degree below the number of points through them; and the polynomials that the
arithmetic interpolates are not zero, have the resultants as values at all rationals, and vanish at
the sum, at the product and at a power of roots. -/
theorem resultants_exact :
    (∀ p q : Poly, p.isZero = false → q.isZero = false →
      p.resultant q = (sylvester p.toPolynomial q.toPolynomial p.degree q.degree).det ∧
        (p.resultant q = 0 ↔ ∃ z : ℂ, p.toComplex.eval z = 0 ∧ q.toComplex.eval z = 0)) ∧
    (∀ (xs ys : List ℚ) (f : Poly), xs.Nodup → xs.length = ys.length →
      (f = interpolate xs ys ↔ f.toPolynomial.degree < xs.length ∧ f.PassesThrough xs ys)) ∧
    ∀ (p q : Poly) (k : ℕ) (limits : Algebraic.Limits) (tally : Algebraic.Tally),
      0 < p.degree → 0 < q.degree →
      (∃ r, ((Algebraic.resultantIn p (p.degree * q.degree) fun t =>
            q.composeLinear (-1) t).run limits tally).1 = .ok r ∧
        r.Eliminates p (fun t => q.composeLinear (-1) t) ∧
        ∀ x y, p.toReal.eval x = 0 → q.toReal.eval y = 0 → r.toReal.eval (x + y) = 0) ∧
      (∃ r, ((Algebraic.resultantIn p (p.degree * q.degree)
            (Algebraic.quotientPoly q)).run limits tally).1 = .ok r ∧
        r.Eliminates p (Algebraic.quotientPoly q) ∧
        ∀ x y, p.toReal.eval x = 0 → q.toReal.eval y = 0 → r.toReal.eval (x * y) = 0) ∧
      ∃ r, ((Algebraic.resultantIn p p.degree fun t =>
            (constant t).sub (monomial 1 k)).run limits tally).1 = .ok r ∧
        r.Eliminates p (fun t => (constant t).sub (monomial 1 k)) ∧
        ∀ x, p.toReal.eval x = 0 → r.toReal.eval (x ^ k) = 0 := by
  refine ⟨fun p q first second => ?_, fun xs ys f => eq_interpolate_iff,
    fun p q k limits tally first second => ?_⟩
  · have nonzero : p.toPolynomial ≠ 0 := mt (isZero_iff p).mpr (Bool.eq_false_iff.mp first)
    have other : q.toPolynomial ≠ 0 := mt (isZero_iff q).mpr (Bool.eq_false_iff.mp second)
    refine ⟨?_, resultant_eq_zero_iff_root nonzero other⟩
    rw [resultant_eq nonzero other, Polynomial.resultant, natDegree_toPolynomial,
      natDegree_toPolynomial]
  · have varies := first.ne'
    have other := second.ne'
    exact ⟨⟨_, run_resultantIn .., eliminates_sum varies other, fun x y => eval_eliminant_sum varies⟩,
      ⟨_, run_resultantIn .., eliminates_product varies other,
        fun x y => eval_eliminant_product varies other⟩,
      ⟨_, run_resultantIn .., eliminates_power varies k,
        fun x root => eval_eliminant_power varies root k⟩⟩

/-- The resultant of `x ^ 5 + 1` and `x ^ 3 - 2`, whose remainders drop by more than one degree, the
polynomial `x ^ 2 + 1` through three points, and the polynomial of the sums of roots of `x ^ 2 - 2`
and of `x ^ 2 - 3`. -/
theorem resultants_exact_case :
    let p := ofCoeffs [1, 0, 0, 0, 0, 1]
    let q := ofCoeffs [-2, 0, 0, 1]
    let two := ofCoeffs [-2, 0, 1]
    let three := ofCoeffs [-3, 0, 1]
    p.isZero = false ∧ q.isZero = false ∧ p.resultant q = -33 ∧
      (sylvester p.toPolynomial q.toPolynomial p.degree q.degree).det = -33 ∧
    [(0 : ℚ), 1, 3].Nodup ∧ ofCoeffs [1, 0, 1] = interpolate [0, 1, 3] [1, 2, 10] ∧
      (ofCoeffs [1, 0, 1]).PassesThrough [0, 1, 3] [1, 2, 10] ∧
    0 < two.degree ∧ 0 < three.degree ∧
      ∃ r, ((Algebraic.resultantIn two (two.degree * three.degree) fun t =>
          three.composeLinear (-1) t).run {} {}).1 = .ok r ∧ r = ofCoeffs [1, 0, -10, 0, 1] ∧
        r.toReal.eval (√2 + √3) = 0 := by
  intro p q two three
  have first : p.isZero = false := by decide +kernel
  have second : q.isZero = false := by decide +kernel
  have value : p.resultant q = -33 := by decide +kernel
  have distinct : [(0 : ℚ), 1, 3].Nodup := by decide +kernel
  have found : ofCoeffs [1, 0, 1] = interpolate [0, 1, 3] [1, 2, 10] := by decide +kernel
  have some : 0 < two.degree := by decide +kernel
  have some' : 0 < three.degree := by decide +kernel
  have computed : ((Algebraic.resultantIn two (two.degree * three.degree) fun t =>
      three.composeLinear (-1) t).run {} {}).1 = .ok (ofCoeffs [1, 0, -10, 0, 1]) := by
    decide +kernel
  have root {n : ℚ} (positive : 0 ≤ n) : (ofCoeffs [-n, 0, 1]).toReal.eval √(n : ℝ) = 0 := by
    have square : √(n : ℝ) * √(n : ℝ) = n := Real.mul_self_sqrt (Rat.cast_nonneg.mpr positive)
    rw [toReal, toPolynomial_ofCoeffs]
    simp [square]
  obtain ⟨r, returned, -, vanishes⟩ := (resultants_exact.2.2 two three 2 {} {} some some').1
  obtain rfl := Except.ok.inj (computed.symm.trans returned)
  refine ⟨first, second, value, (resultants_exact.1 p q first second).1 ▸ value, distinct, found,
    ((resultants_exact.2.1 _ [1, 2, 10] _ distinct rfl).mp found).2, some, some', _, computed, rfl, ?_⟩
  have sum := vanishes (√(2 : ℚ)) (√(3 : ℚ)) (root (by norm_num)) (root (by norm_num))
  simpa using sum
end Poly
end Stratagem
