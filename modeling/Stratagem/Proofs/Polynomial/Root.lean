import Mathlib.Algebra.Algebra.Rat
import Mathlib.Analysis.Complex.Basic
import Mathlib.Analysis.Polynomial.CauchyBound
import Mathlib.Data.Real.Basic
import Stratagem.Proofs.Polynomial.Division

/-!
# Real roots

The real roots of a polynomial, which the square-free part keeps and which all lie strictly within
the root bound (`Poly.abs_lt_rootBound`).
-/
namespace Stratagem.Poly

open Polynomial

/-- The polynomial over the reals. -/
noncomputable def toReal (p : Poly) : ℝ[X] := p.toPolynomial.map (algebraMap ℚ ℝ)

/-- The polynomial over the complex numbers. -/
noncomputable def toComplex (p : Poly) : ℂ[X] := p.toPolynomial.map (algebraMap ℚ ℂ)

/-- The distinct real roots. -/
noncomputable def realRoots (p : Poly) : Finset ℝ := p.toReal.roots.toFinset

variable {p q : Poly} {x : ℝ}

theorem toReal_ne_zero_iff : p.toReal ≠ 0 ↔ p.toPolynomial ≠ 0 :=
  Polynomial.map_ne_zero_iff (RingHom.injective _)

theorem natDegree_toReal : p.toReal.natDegree = p.degree := by
  rw [toReal, natDegree_map, natDegree_toPolynomial]

theorem eval_toReal (r : ℚ) : p.toReal.eval (r : ℝ) = (p.eval r : ℚ) := by
  rw [toReal, ← eq_ratCast (algebraMap ℚ ℝ) r, eval_map_apply, eval_toPolynomial, eq_ratCast]

theorem eval_toReal_eq_zero_iff (r : ℚ) : p.toReal.eval (r : ℝ) = 0 ↔ p.eval r = 0 := by
  rw [eval_toReal, Rat.cast_eq_zero]

theorem toComplex_ne_zero_iff : p.toComplex ≠ 0 ↔ p.toPolynomial ≠ 0 :=
  Polynomial.map_ne_zero_iff (RingHom.injective _)

theorem natDegree_toComplex : p.toComplex.natDegree = p.degree := by
  rw [toComplex, natDegree_map, natDegree_toPolynomial]

/-- The complex value at a real is the real value. -/
theorem eval_toComplex (p : Poly) (x : ℝ) : p.toComplex.eval (x : ℂ) = p.toReal.eval x := by
  have factored : algebraMap ℚ ℂ = Complex.ofRealHom.comp (algebraMap ℚ ℝ) := RingHom.ext_rat _ _
  rw [toComplex, factored, ← Polynomial.map_map]
  exact eval_map_apply Complex.ofRealHom x

theorem mem_realRoots (nonzero : p.toPolynomial ≠ 0) : x ∈ p.realRoots ↔ p.toReal.eval x = 0 := by
  rw [realRoots, Multiset.mem_toFinset, mem_roots (toReal_ne_zero_iff.mpr nonzero), IsRoot]

theorem card_realRoots_le (p : Poly) : p.realRoots.card ≤ p.degree := by
  rw [← natDegree_toReal]
  exact (Multiset.toFinset_card_le _).trans (card_roots' _)

/-- A common root of two polynomials is one of their greatest common divisor. -/
theorem eval_gcd_eq_zero (first : p.toReal.eval x = 0) (second : q.toReal.eval x = 0) :
    (p.gcd q).toReal.eval x = 0 := by
  have divides : EuclideanDomain.gcd p.toPolynomial q.toPolynomial ∣ (p.gcd q).toPolynomial :=
    (dvd_gcd_iff p q _).mpr
      ⟨EuclideanDomain.gcd_dvd_left _ _, EuclideanDomain.gcd_dvd_right _ _⟩
  refine eval_eq_zero_of_dvd_of_eval_eq_zero (Polynomial.map_dvd (algebraMap ℚ ℝ) divides) ?_
  rw [toReal] at first second
  rw [EuclideanDomain.gcd_eq_gcd_ab, Polynomial.map_add, Polynomial.map_mul, Polynomial.map_mul,
    eval_add, eval_mul, eval_mul, first, second, zero_mul, zero_mul, add_zero]

/-! ### Square-free parts -/

/-- The square-free part has the roots of the polynomial in every field of characteristic zero. -/
theorem eval_map_squareFree_eq_zero_iff {K : Type*} [Field K] [CharZero K] [Algebra ℚ K]
    (nonzero : p.toPolynomial ≠ 0) {x : K} :
    (p.squareFree.toPolynomial.map (algebraMap ℚ K)).eval x = 0 ↔
      (p.toPolynomial.map (algebraMap ℚ K)).eval x = 0 := by
  obtain ⟨g, product, divisors⟩ := exists_squareFree_mul nonzero
  have some : p.toPolynomial.map (algebraMap ℚ K) ≠ 0 :=
    (Polynomial.map_ne_zero_iff (RingHom.injective _)).mpr nonzero
  have divides : g.map (algebraMap ℚ K) ∣ (p.toPolynomial.map (algebraMap ℚ K)).derivative := by
    rw [derivative_map]
    exact Polynomial.map_dvd _ ((divisors g).mp dvd_rfl).2
  have split : p.squareFree.toPolynomial.map (algebraMap ℚ K) * g.map (algebraMap ℚ K) =
      p.toPolynomial.map (algebraMap ℚ K) := by rw [← Polynomial.map_mul, product]
  generalize p.squareFree.toPolynomial.map (algebraMap ℚ K) = s at *
  generalize p.toPolynomial.map (algebraMap ℚ K) = f at *
  constructor
  · intro root
    rw [← split, eval_mul, root, zero_mul]
  · intro root
    by_contra other
    -- the cofactor would have the root as often as the polynomial, its derivative once less
    have multiplicity : f.rootMultiplicity x = (g.map (algebraMap ℚ K)).rootMultiplicity x := by
      rw [← split] at some ⊢
      rw [rootMultiplicity_mul some, rootMultiplicity_eq_zero other, zero_add]
    have positive := (rootMultiplicity_pos some).mpr root
    have derived := derivative_rootMultiplicity_of_root (p := f) root
    have varies : f.derivative ≠ 0 := by
      intro zero
      have constant := derivative_eq_zero.mp zero
      rw [eq_C_of_natDegree_eq_zero constant] at root some
      exact some (by simpa using root)
    have below := rootMultiplicity_le_rootMultiplicity_of_dvd varies divides x
    omega

/-- The square-free part has the real roots of the polynomial. -/
theorem eval_squareFree_eq_zero_iff (nonzero : p.toPolynomial ≠ 0) :
    p.squareFree.toReal.eval x = 0 ↔ p.toReal.eval x = 0 :=
  eval_map_squareFree_eq_zero_iff nonzero

/-! ### The root bound -/

theorem greatest_abs (most c : ℚ) : Rational.greatest most c.abs = max most |c| := by
  have same : c.abs = |c| := by
    rcases le_total 0 c with up | down
    · rw [Rat.abs_of_nonneg up, abs_of_nonneg up]
    · rw [Rat.abs_of_nonpos down, abs_of_nonpos down]
  rw [same, Rational.greatest, max_def]

theorem le_foldl_greatest (lead : ℚ) (coeffs : List ℚ) (most : ℚ) :
    most ≤ coeffs.foldl (fun most c => Rational.greatest most (c / lead).abs) most ∧
      ∀ c ∈ coeffs,
        |c / lead| ≤ coeffs.foldl (fun most c => Rational.greatest most (c / lead).abs) most := by
  induction coeffs generalizing most with
  | nil => simp
  | cons d rest ih =>
    obtain ⟨least, each⟩ := ih (Rational.greatest most (d / lead).abs)
    rw [List.foldl_cons]
    have start := greatest_abs most (d / lead)
    refine ⟨(start ▸ le_max_left _ _).trans least, List.forall_mem_cons.mpr ⟨?_, each⟩⟩
    exact (start ▸ le_max_right _ _).trans least

theorem one_le_rootBound (p : Poly) : 1 ≤ p.rootBound := by
  unfold rootBound
  split
  · exact le_rfl
  · next lead _ => exact le_add_of_nonneg_left (le_foldl_greatest lead _ 0).1

/-- The root bound exceeds the quotient of every other coefficient by the leading one. -/
theorem abs_coeff_div_le (p : Poly) {i : ℕ} (below : i < p.degree) :
    |p.toPolynomial.coeff i / p.toPolynomial.leadingCoeff| + 1 ≤ p.rootBound := by
  cases leading : p.leading? with
  | none =>
    have zero := (leading?_eq_none_iff p).mp leading
    rw [← natDegree_toPolynomial, zero] at below
    simp at below
  | some lead =>
    rw [((leading?_eq_some_iff p).mp leading).2, rootBound, leading]
    have inside : i < p.coeffs.dropLast.length := by
      rw [List.length_dropLast]
      exact below
    have member : p.toPolynomial.coeff i ∈ p.coeffs.dropLast := by
      have within : i < p.coeffs.length :=
        inside.trans_le (List.length_dropLast.trans_le (Nat.sub_le _ _))
      rw [coeff_toPolynomial, List.getD_eq_getElem _ _ within, ← List.getElem_dropLast inside]
      exact List.getElem_mem inside
    exact add_le_add_left ((le_foldl_greatest lead _ 0).2 _ member) 1

/-- Every complex root is of lesser magnitude than the root bound. -/
theorem norm_lt_rootBound (nonzero : p.toPolynomial ≠ 0) {z : ℂ}
    (root : p.toComplex.eval z = 0) : ‖z‖ < p.rootBound := by
  have some := toComplex_ne_zero_iff.mpr nonzero
  have magnitude (c : ℚ) : ‖algebraMap ℚ ℂ c‖ = |c| := by
    rw [eq_ratCast, ← Complex.ofReal_ratCast, Complex.norm_real, Real.norm_eq_abs, Rat.cast_abs]
  have lead : (0 : ℝ) < |p.toPolynomial.leadingCoeff| := by
    exact_mod_cast abs_pos.mpr (leadingCoeff_ne_zero.mpr nonzero)
  have bound : cauchyBound p.toComplex ≤ (p.rootBound : ℝ) := by
    have room : (0 : ℝ) ≤ p.rootBound - 1 := by exact_mod_cast sub_nonneg.mpr (one_le_rootBound p)
    have coefficients : (Finset.range p.toComplex.natDegree).sup
        (fun i => ‖p.toComplex.coeff i‖₊) ≤
          Real.toNNReal ((p.rootBound - 1) * |p.toPolynomial.leadingCoeff|) := by
      refine Finset.sup_le fun i below => ?_
      rw [Finset.mem_range, natDegree_toComplex] at below
      rw [← NNReal.coe_le_coe, Real.coe_toNNReal _ (mul_nonneg room lead.le), coe_nnnorm, toComplex,
        coeff_map, magnitude, ← div_le_iff₀ lead, le_sub_iff_add_le]
      have each := abs_coeff_div_le p below
      rw [abs_div] at each
      exact_mod_cast each
    have size : ‖p.toComplex.leadingCoeff‖ = |p.toPolynomial.leadingCoeff| := by
      rw [toComplex, leadingCoeff_map, magnitude]
    rw [cauchyBound, NNReal.coe_add, NNReal.coe_div, NNReal.coe_one, coe_nnnorm, size,
      ← le_sub_iff_add_le, div_le_iff₀ lead]
    rw [← NNReal.coe_le_coe, Real.coe_toNNReal _ (mul_nonneg room lead.le)] at coefficients
    exact coefficients
  exact (NNReal.coe_lt_coe.mpr (IsRoot.norm_lt_cauchyBound some root)).trans_le bound

/-- Every real root lies strictly within the root bound. -/
theorem abs_lt_rootBound (nonzero : p.toPolynomial ≠ 0) (root : p.toReal.eval x = 0) :
    |x| < p.rootBound := by
  have complex : p.toComplex.eval (x : ℂ) = 0 := by rw [eval_toComplex, root, Complex.ofReal_zero]
  have within := norm_lt_rootBound nonzero complex
  rwa [Complex.norm_real, Real.norm_eq_abs] at within

end Stratagem.Poly
