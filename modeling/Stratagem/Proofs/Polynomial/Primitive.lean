import Mathlib.RingTheory.Polynomial.Content
import Mathlib.RingTheory.Localization.Rat
import Mathlib.RingTheory.Polynomial.RationalRoot
import Stratagem.Proofs.Polynomial.Root

/-!
# Primitive integer polynomials

The multiple of a polynomial with integer coefficients of greatest common divisor one
(`Poly.isPrimitive_primitive`). It has the roots and the simple roots of the polynomial.
-/
namespace Stratagem

open Polynomial

namespace Coefficients

/-- The integer polynomial with these coefficients, lowest degree first. -/
noncomputable def toIntPolynomial : List ℤ → ℤ[X]
  | [] => 0
  | c :: rest => C c + X * toIntPolynomial rest

theorem coeff_toIntPolynomial (coeffs : List ℤ) (i : ℕ) :
    (toIntPolynomial coeffs).coeff i = coeffs.getD i 0 := by
  induction coeffs generalizing i with
  | nil => simp [toIntPolynomial]
  | cons c rest ih =>
    cases i with
    | zero => simp [toIntPolynomial]
    | succ i => simp only [toIntPolynomial, coeff_add, coeff_C_succ, coeff_X_mul, ih, zero_add,
        List.getD_cons_succ]

/-- The greatest common divisor of a list divides its members and is divided by every other common
divisor. -/
theorem dvd_gcdList_iff (d : ℕ) (values : List ℤ) :
    d ∣ Integer.gcdList values ↔ ∀ v ∈ values, (d : ℤ) ∣ v := by
  have folded (start : ℕ) : d ∣ values.foldl (fun g v => g.gcd v.natAbs) start ↔
      d ∣ start ∧ ∀ v ∈ values, (d : ℤ) ∣ v := by
    induction values generalizing start with
    | nil => simp
    | cons v rest ih =>
      rw [List.foldl_cons, ih, Nat.dvd_gcd_iff, List.forall_mem_cons, and_assoc, Int.natCast_dvd]
  simpa [Integer.gcdList] using folded 0

theorem gcdList_dvd {values : List ℤ} {v : ℤ} (member : v ∈ values) :
    (Integer.gcdList values : ℤ) ∣ v :=
  (dvd_gcdList_iff _ values).mp dvd_rfl v member

/-- The least common multiple of the denominators is a multiple of each of them. -/
theorem den_dvd_foldl_lcm (coeffs : List ℚ) (start : ℕ) :
    start ∣ coeffs.foldl (fun l c => l.lcm c.den) start ∧
      ∀ c ∈ coeffs, c.den ∣ coeffs.foldl (fun l c => l.lcm c.den) start := by
  induction coeffs generalizing start with
  | nil => simp
  | cons d rest ih =>
    obtain ⟨first, others⟩ := ih (start.lcm d.den)
    rw [List.foldl_cons]
    exact ⟨(Nat.dvd_lcm_left _ _).trans first,
      List.forall_mem_cons.mpr ⟨(Nat.dvd_lcm_right _ _).trans first, others⟩⟩

theorem foldl_lcm_pos (coeffs : List ℚ) {start : ℕ} (positive : 0 < start) :
    0 < coeffs.foldl (fun l c => l.lcm c.den) start := by
  induction coeffs generalizing start with
  | nil => exact positive
  | cons d rest ih => exact ih (Nat.lcm_pos positive d.den_pos)

/-- Integers that are rational coefficients times one factor, and have no common divisor. -/
structure Primitive (coeffs : List ℚ) (ints : List ℤ) : Prop where
  /-- One factor scales all coefficients. -/
  scaled : ∃ c : ℚ, c ≠ 0 ∧ ints.map (Int.cast : ℤ → ℚ) = coeffs.map (c * ·)
  /-- A common divisor is a unit. -/
  trivial : ∀ d : ℤ, (∀ v ∈ ints, d ∣ v) → IsUnit d

/-- Dividing by the greatest common divisor leaves no common divisor. -/
theorem Primitive.of_gcdList {coeffs : List ℚ} {ints : List ℤ} {c : ℚ} (some : c ≠ 0)
    (scaled : ints.map (Int.cast : ℤ → ℚ) = coeffs.map (c * ·))
    (content : Integer.gcdList ints ≠ 0) :
    Primitive coeffs (ints.map (· / Int.ofNat (Integer.gcdList ints))) := by
  have other : (Integer.gcdList ints : ℤ) ≠ 0 := Int.natCast_ne_zero.mpr content
  refine ⟨⟨c / Integer.gcdList ints, div_ne_zero some (Nat.cast_ne_zero.mpr content), ?_⟩, ?_⟩
  · have quotients : (ints.map (· / Int.ofNat (Integer.gcdList ints))).map (Int.cast : ℤ → ℚ) =
        (ints.map (Int.cast : ℤ → ℚ)).map (· / (Integer.gcdList ints : ℚ)) := by
      rw [List.map_map, List.map_map]
      refine List.map_congr_left fun v member => ?_
      simp only [Function.comp_apply, Int.ofNat_eq_natCast]
      rw [Int.cast_div (gcdList_dvd member) (Int.cast_ne_zero.mpr other), Int.cast_natCast]
    rw [quotients, scaled, List.map_map]
    exact List.map_congr_left fun a _ => (div_mul_eq_mul_div _ _ _).symm
  · intro d divides
    have multiple : (d.natAbs * Integer.gcdList ints) ∣ Integer.gcdList ints := by
      refine (dvd_gcdList_iff _ ints).mpr fun v member => ?_
      obtain ⟨k, value⟩ := divides _ (List.mem_map_of_mem member)
      have whole := Int.ediv_mul_cancel (gcdList_dvd member)
      rw [Int.ofNat_eq_natCast] at value
      rw [value] at whole
      rw [← whole, Int.natCast_mul]
      exact mul_dvd_mul_right (Int.natAbs_dvd.mpr (dvd_mul_right d k)) _
    rw [← Nat.one_mul (Integer.gcdList ints), ← Nat.mul_assoc, Nat.mul_one] at multiple
    exact Int.isUnit_iff_natAbs_eq.mpr (Nat.dvd_one.mp
      (Nat.dvd_of_mul_dvd_mul_right (Nat.pos_of_ne_zero content) multiple))

theorem Primitive.neg {coeffs : List ℚ} {ints : List ℤ} (known : Primitive coeffs ints) :
    Primitive coeffs (ints.map (-·)) := by
  obtain ⟨⟨c, some, scaled⟩, trivial⟩ := known
  refine ⟨⟨-c, neg_ne_zero.mpr some, ?_⟩, fun d divides => trivial d fun v member => ?_⟩
  · have negated : (ints.map (-·)).map (Int.cast : ℤ → ℚ) =
        (ints.map (Int.cast : ℤ → ℚ)).map (-·) := by simp
    rw [negated, scaled, List.map_map]
    exact List.map_congr_left fun a _ => (neg_mul c a).symm
  · exact Int.dvd_neg.mp (divides _ (List.mem_map_of_mem member))

end Coefficients

namespace Poly

/-- The polynomial has integer coefficients of greatest common divisor one. -/
def IsPrimitive (p : Poly) : Prop :=
  ∃ f : ℤ[X], f.IsPrimitive ∧ f.map (Int.castRingHom ℚ) = p.toPolynomial

variable {p : Poly}

/-- The integer coefficients are the coefficients times one factor, and have no common divisor. -/
theorem primitive_primitiveInts (nonzero : p.toPolynomial ≠ 0) :
    Coefficients.Primitive p.coeffs p.primitiveInts := by
  let common := p.coeffs.foldl (fun l c => l.lcm c.den) 1
  let ints : List ℤ := p.coeffs.map fun c => c.num * Int.ofNat (common / c.den)
  have common_ne : (common : ℚ) ≠ 0 :=
    Nat.cast_ne_zero.mpr (Coefficients.foldl_lcm_pos p.coeffs Nat.one_pos).ne'
  have scaled : ints.map (Int.cast : ℤ → ℚ) = p.coeffs.map ((common : ℚ) * ·) := by
    rw [List.map_map]
    refine List.map_congr_left fun c member => ?_
    have divides : c.den ∣ common := (Coefficients.den_dvd_foldl_lcm p.coeffs 1).2 c member
    have den : (c.den : ℚ) ≠ 0 := Nat.cast_ne_zero.mpr c.den_ne_zero
    simp only [Function.comp_apply, Int.ofNat_eq_natCast, Int.cast_mul, Int.cast_natCast,
      Nat.cast_div divides den]
    rw [← mul_div_assoc, mul_comm, mul_div_assoc, Rat.num_div_den]
  have content : Integer.gcdList ints ≠ 0 := by
    intro zero
    apply nonzero
    have vanish : ∀ v ∈ ints, (v : ℚ) = 0 := fun v member => by
      have divides := Coefficients.gcdList_dvd member
      rw [zero, Int.natCast_zero, zero_dvd_iff] at divides
      rw [divides, Int.cast_zero]
    have multiple : C (common : ℚ) * p.toPolynomial = 0 := by
      rw [toPolynomial, ← Coefficients.toPolynomial_map_mul, ← scaled,
        List.map_congr_left vanish, List.map_const', Coefficients.toPolynomial_replicate_zero]
    exact (mul_eq_zero.mp multiple).resolve_left (C_ne_zero.mpr common_ne)
  have reduced := Coefficients.Primitive.of_gcdList common_ne scaled content
  unfold primitiveInts
  dsimp only
  rw [if_neg content]
  split
  · split
    · exact reduced.neg
    · exact reduced
  · exact reduced

theorem toPolynomial_primitive :
    p.primitive.toPolynomial = Coefficients.toPolynomial (p.primitiveInts.map Int.cast) :=
  toPolynomial_ofCoeffs _

/-- The primitive multiple is a multiple. -/
theorem exists_primitive_eq (nonzero : p.toPolynomial ≠ 0) :
    ∃ c : ℚ, c ≠ 0 ∧ p.primitive.toPolynomial = C c * p.toPolynomial := by
  obtain ⟨c, some, scaled⟩ := (primitive_primitiveInts nonzero).scaled
  refine ⟨c, some, ?_⟩
  rw [toPolynomial_primitive, scaled, Coefficients.toPolynomial_map_mul, toPolynomial]

theorem isPrimitive_primitive (nonzero : p.toPolynomial ≠ 0) : p.primitive.IsPrimitive := by
  refine ⟨Coefficients.toIntPolynomial p.primitiveInts, fun d divides => ?_, ?_⟩
  · refine (primitive_primitiveInts nonzero).trivial d fun v member => ?_
    obtain ⟨i, inside, rfl⟩ := List.getElem_of_mem member
    have each := (C_dvd_iff_dvd_coeff d _).mp divides i
    rwa [Coefficients.coeff_toIntPolynomial, List.getD_eq_getElem _ _ inside] at each
  · ext i
    rw [coeff_map, Coefficients.coeff_toIntPolynomial, toPolynomial_primitive,
      Coefficients.coeff_toPolynomial, List.getD_eq_getElem?_getD, List.getD_eq_getElem?_getD,
      List.getElem?_map]
    cases p.primitiveInts[i]? <;> simp

theorem primitive_ne_zero (nonzero : p.toPolynomial ≠ 0) : p.primitive.toPolynomial ≠ 0 := by
  obtain ⟨c, some, multiple⟩ := exists_primitive_eq nonzero
  rw [multiple]
  exact mul_ne_zero (C_ne_zero.mpr some) nonzero

theorem degree_primitive (nonzero : p.toPolynomial ≠ 0) : p.primitive.degree = p.degree := by
  obtain ⟨c, some, multiple⟩ := exists_primitive_eq nonzero
  rw [← natDegree_toPolynomial, multiple, natDegree_C_mul some, natDegree_toPolynomial]

/-- The sign is chosen so that the last of the integer coefficients is not negative. -/
theorem getLast?_primitiveInts_nonneg {lead : ℤ} (last : p.primitiveInts.getLast? = some lead) :
    0 ≤ lead := by
  unfold primitiveInts at last
  extract_lets common ints content reduced at last
  split at last
  · next first found =>
    split at last
    · next negative =>
      rw [List.getLast?_map, found, Option.map_some] at last
      have value := Option.some.inj last
      omega
    · rw [found] at last
      have value := Option.some.inj last
      omega
  · next none =>
    rw [none] at last
    cases last

/-- The primitive multiple has a positive leading coefficient. -/
theorem leadingCoeff_primitive_pos (nonzero : p.toPolynomial ≠ 0) :
    0 < p.primitive.toPolynomial.leadingCoeff := by
  refine lt_of_le_of_ne ?_ (leadingCoeff_ne_zero.mpr (primitive_ne_zero nonzero)).symm
  have length : p.primitiveInts.length = p.size := by
    obtain ⟨c, -, scaled⟩ := (primitive_primitiveInts nonzero).scaled
    simpa [size] using congrArg List.length scaled
  rw [leadingCoeff, natDegree_toPolynomial, degree_primitive nonzero, degree, ← length,
    primitive, toPolynomial_ofInts, List.getD_eq_getElem?_getD, ← List.getLast?_eq_getElem?]
  cases last : p.primitiveInts.getLast? with
  | none => exact le_rfl
  | some lead => exact Int.cast_nonneg (getLast?_primitiveInts_nonneg last)

theorem separable_primitive (separable : p.toPolynomial.Separable) :
    p.primitive.toPolynomial.Separable := by
  obtain ⟨c, some, multiple⟩ := exists_primitive_eq separable.ne_zero
  rw [multiple]
  exact separable.unit_mul (isUnit_C.mpr (isUnit_iff_ne_zero.mpr some))

theorem eval_primitive_eq_zero_iff (nonzero : p.toPolynomial ≠ 0) {x : ℝ} :
    p.primitive.toReal.eval x = 0 ↔ p.toReal.eval x = 0 := by
  obtain ⟨c, some, multiple⟩ := exists_primitive_eq nonzero
  rw [toReal, multiple, Polynomial.map_mul, map_C, eval_mul, eval_C, toReal]
  exact mul_eq_zero_iff_left (by simpa using some)

theorem eval_rational_primitive_eq_zero_iff (nonzero : p.toPolynomial ≠ 0) (r : ℚ) :
    p.primitive.eval r = 0 ↔ p.eval r = 0 := by
  rw [← eval_toReal_eq_zero_iff, eval_primitive_eq_zero_iff nonzero, eval_toReal_eq_zero_iff]

theorem eval_toComplex_primitive_eq_zero_iff (nonzero : p.toPolynomial ≠ 0) {z : ℂ} :
    p.primitive.toComplex.eval z = 0 ↔ p.toComplex.eval z = 0 := by
  obtain ⟨c, some, multiple⟩ := exists_primitive_eq nonzero
  rw [toComplex, multiple, Polynomial.map_mul, map_C, eval_mul, eval_C, toComplex]
  exact mul_eq_zero_iff_left (by simpa using some)

/-! ### Rational roots -/

/-- The leading coefficient of a primitive polynomial is an integer. -/
theorem IsPrimitive.leadingCoeff_eq {f : ℤ[X]}
    (same : f.map (Int.castRingHom ℚ) = p.toPolynomial) :
    p.toPolynomial.leadingCoeff = f.leadingCoeff := by
  rw [← same, leadingCoeff_map_of_injective (RingHom.injective_int _), eq_intCast]

/-- The denominator of a rational root divides the leading coefficient. -/
theorem IsPrimitive.den_le (primitive : p.IsPrimitive) {r : ℚ} (root : p.eval r = 0) :
    (r.den : ℚ) ≤ |p.toPolynomial.leadingCoeff| := by
  obtain ⟨f, primitive, same⟩ := primitive
  have whole : aeval r f = 0 := by
    rw [aeval_def, eq_comm, ← root, ← eval_toPolynomial, ← same, eval_map]
    rfl
  have divides := den_dvd_of_is_root whole
  rw [leadingCoeff_eq same, ← Int.cast_abs, ← Int.cast_natCast, Int.cast_le, Int.abs_eq_natAbs,
    Int.ofNat_le, ← Rat.isFractionRingDen]
  exact Nat.le_of_dvd (Int.natAbs_pos.mpr (leadingCoeff_ne_zero.mpr primitive.ne_zero))
    (Int.natAbs_dvd_natAbs.mpr divides)

/-- Without the factors `x` a primitive polynomial stays primitive. -/
theorem IsPrimitive.stripZeroRoots (primitive : p.IsPrimitive) : p.stripZeroRoots.IsPrimitive := by
  obtain ⟨f, primitive, same⟩ := primitive
  obtain ⟨n, factored⟩ := toPolynomial_stripZeroRoots p
  obtain ⟨g, rfl⟩ : X ^ n ∣ f := by
    refine X_pow_dvd_iff.mpr fun d below => ?_
    have vanishes := congrArg (Polynomial.coeff · d) (same.trans factored)
    simpa [coeff_X_pow_mul', Nat.not_le.mpr below] using vanishes
  refine ⟨g, isPrimitive_of_dvd primitive (dvd_mul_left g _), ?_⟩
  refine mul_left_cancel₀ (pow_ne_zero n X_ne_zero) ?_
  rw [← factored, ← same, Polynomial.map_mul, Polynomial.map_pow, map_X]

end Poly
end Stratagem
