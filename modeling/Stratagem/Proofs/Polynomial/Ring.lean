import Mathlib.Algebra.BigOperators.Group.List.Basic
import Mathlib.RingTheory.Polynomial.GaussLemma
import Stratagem.Proofs.Polynomial.Primitive

/-!
# The ring of rational polynomials

Coefficient lists without a zero at the end and rational polynomials are the same thing, and the
operations on lists are those of the ring: division with remainder, greatest common divisors,
square-free parts and primitive multiples are the ones that these notions determine
(`Poly.ring_exact`). The notions are stated here for polynomials, without the lists.
-/
namespace Stratagem

open Polynomial

/-- Quotient and remainder of one polynomial by another. -/
structure IsDivision (f d quotient remainder : ℚ[X]) : Prop where
  /-- They recompose the dividend. -/
  recompose : f = quotient * d + remainder
  /-- The remainder is zero or of lesser degree than the divisor. -/
  small : remainder = 0 ∨ remainder.natDegree < d.natDegree

/-- The monic greatest common divisor of two polynomials. -/
structure IsMonicGcd (f g common : ℚ[X]) : Prop where
  /-- It divides the first one. -/
  left : common ∣ f
  /-- It divides the second one. -/
  right : common ∣ g
  /-- Every common divisor divides it. -/
  greatest : ∀ h, h ∣ f → h ∣ g → h ∣ common
  /-- Its leading coefficient is one unless both are zero. -/
  monic : f ≠ 0 ∨ g ≠ 0 → common.Monic
  /-- Two zeros have zero. -/
  zero : f = 0 → g = 0 → common = 0

/-- A rational multiple with integer coefficients of content one and a positive leading
coefficient. -/
structure IsIntegerMultiple (f g : ℚ[X]) : Prop where
  /-- It is a rational multiple. -/
  multiple : ∃ c : ℚ, g = C c * f
  /-- Its coefficients are integers of content one. -/
  content : ∃ h : ℤ[X], h.content = 1 ∧ h.map (Int.castRingHom ℚ) = g
  /-- Its leading coefficient is positive. -/
  positive : 0 < g.leadingCoeff

section Uniqueness

variable {f g d quotient remainder common : ℚ[X]}

theorem IsDivision.degree_lt (known : IsDivision f d quotient remainder) (nonzero : d ≠ 0) :
    remainder.degree < d.degree := by
  rcases known.small with rfl | smaller
  · rw [degree_zero]
    exact bot_lt_iff_ne_bot.mpr (degree_ne_bot.mpr nonzero)
  · exact degree_lt_degree smaller

/-- The remainder is determined. -/
theorem IsDivision.remainder_eq (known : IsDivision f d quotient remainder) (nonzero : d ≠ 0) :
    remainder = f % d := by
  have multiple : quotient * d % d = 0 := EuclideanDomain.mod_eq_zero.mpr (dvd_mul_left d quotient)
  rw [known.recompose, Polynomial.add_mod, multiple, zero_add,
    (Polynomial.mod_eq_self_iff nonzero).mpr (known.degree_lt nonzero)]

/-- The quotient is determined. -/
theorem IsDivision.quotient_eq (known : IsDivision f d quotient remainder) (nonzero : d ≠ 0) :
    quotient = f / d := by
  refine mul_right_cancel₀ nonzero ?_
  have whole := EuclideanDomain.div_add_mod f d
  rw [← known.remainder_eq nonzero] at whole
  linear_combination known.recompose.symm.trans whole.symm

/-- An integer multiple with a positive leading coefficient divides every other one: the rational
factor between them is an integer by the lemma of Gauss. -/
theorem IsIntegerMultiple.dvd {other : ℚ[X]} {h k : ℤ[X]} (first : IsIntegerMultiple f g)
    (second : IsIntegerMultiple f other) (content : h.content = 1)
    (left : h.map (Int.castRingHom ℚ) = g) (right : k.map (Int.castRingHom ℚ) = other) : h ∣ k := by
  rw [IsPrimitive.Int.dvd_iff_map_cast_dvd_map_cast _ _
    (isPrimitive_iff_content_eq_one.mpr content), left, right]
  obtain ⟨c, rfl⟩ := first.multiple
  obtain ⟨e, rfl⟩ := second.multiple
  have nonzero : c ≠ 0 := by
    rintro rfl
    simpa using first.positive
  refine ⟨C (e / c), ?_⟩
  rw [mul_right_comm, ← C_mul, mul_div_cancel₀ e nonzero]

/-- There is at most one integer multiple of content one with a positive leading coefficient: two of
them divide each other, so they differ by a sign. -/
theorem IsIntegerMultiple.unique {other : ℚ[X]} (first : IsIntegerMultiple f g)
    (second : IsIntegerMultiple f other) : g = other := by
  obtain ⟨h, content, left⟩ := first.content
  obtain ⟨k, content', right⟩ := second.content
  obtain ⟨u, same⟩ := associated_of_dvd_dvd (first.dvd second content left right)
    (second.dvd first content' right left)
  obtain ⟨e, unit, value⟩ := Polynomial.isUnit_iff.mp u.isUnit
  rw [← value] at same
  rcases Int.isUnit_iff.mp unit with rfl | rfl
  · rw [← left, ← right, ← same, C_1, mul_one]
  · have opposite : other = -g := by
      rw [← left, ← right, ← same]
      simp
    have negative := second.positive
    rw [opposite, leadingCoeff_neg] at negative
    linarith [first.positive]

end Uniqueness

namespace Coefficients

/-- Trimming drops nothing but zeros at the end. -/
theorem exists_trim_append (coeffs : List ℚ) : ∃ n, coeffs = trim coeffs ++ List.replicate n 0 := by
  induction coeffs with
  | nil => exact ⟨0, rfl⟩
  | cons c rest ih =>
    obtain ⟨n, split⟩ := ih
    unfold trim
    cases kept : trim rest with
    | nil =>
      rw [kept, List.nil_append] at split
      by_cases zero : c = 0
      · exact ⟨n + 1, by simp [zero, split, List.replicate_succ]⟩
      · exact ⟨n, by simp [zero, split]⟩
    | cons d more =>
      rw [kept] at split
      exact ⟨n, congrArg (c :: ·) split⟩

/-- There is nothing to trim in a list that does not end in zero. -/
theorem trim_eq_self {coeffs : List ℚ} (normal : coeffs.getLast? ≠ some 0) :
    trim coeffs = coeffs := by
  obtain ⟨n, split⟩ := exists_trim_append coeffs
  cases n with
  | zero =>
    rw [List.replicate_zero, List.append_nil] at split
    exact split.symm
  | succ n =>
    rw [split, List.replicate_succ', ← List.append_assoc, List.getLast?_append] at normal
    simp at normal

theorem eval_one (coeffs : List ℚ) : eval coeffs 1 = coeffs.sum := by
  induction coeffs with
  | nil => rfl
  | cons c rest ih =>
    rw [List.sum_cons, ← ih, eval, List.foldr_cons, mul_one, add_comm]
    rfl

end Coefficients

namespace Poly

variable (p q d : Poly)

/-! ### Coefficients -/

/-- The coefficients of the negation are the negated ones: none has to be trimmed. -/
theorem coeffs_neg : p.neg.coeffs = p.coeffs.map (-·) := by
  refine Coefficients.trim_eq_self ?_
  rw [List.getLast?_map, ne_eq, Option.map_eq_some_iff]
  rintro ⟨c, last, zero⟩
  exact p.normal (last.trans (congrArg some (neg_eq_zero.mp zero)))

/-- Every polynomial is that of a coefficient list. -/
theorem toPolynomial_surjective : Function.Surjective toPolynomial := by
  intro f
  refine ⟨ofCoeffs ((List.range (f.natDegree + 1)).map f.coeff), ?_⟩
  ext i
  rw [toPolynomial_ofCoeffs, Coefficients.coeff_toPolynomial, List.getD_eq_getElem?_getD,
    List.getElem?_map]
  rcases Nat.lt_or_ge i (f.natDegree + 1) with inside | past
  · rw [List.getElem?_range inside, Option.map_some, Option.getD_some]
  · rw [List.getElem?_eq_none (by simpa using past), Option.map_none, Option.getD_none,
      coeff_eq_zero_of_natDegree_lt past]

theorem toPolynomial_one : one.toPolynomial = 1 := by
  rw [one, toPolynomial_constant, C_1]

theorem toPolynomial_x : x.toPolynomial = X := by
  rw [x, toPolynomial_monomial, C_1, one_mul, pow_one]

/-- The substitution of a power, of the zeroth one too. -/
theorem toPolynomial_substitutePower_eq_comp (k : ℕ) :
    (p.substitutePower k).toPolynomial = p.toPolynomial.comp (X ^ k) := by
  rcases eq_or_ne k 0 with rfl | positive
  · rw [pow_zero, comp_one, eval_toPolynomial, eval, Coefficients.eval_one, substitutePower,
      toPolynomial_constant, List.sum_eq_foldl]
  · rw [toPolynomial_substitutePower p positive, expand_eq_comp_X_pow]

/-! ### Division -/

variable {p q d}

/-- Division by a polynomial that is not zero returns the quotient and the remainder. -/
theorem divRem?_eq_some (nonzero : d.toPolynomial ≠ 0) :
    p.divRem? d = some (p.exactDiv d, p.rem d) := by
  unfold exactDiv rem
  cases found : p.divRem? d with
  | none => exact absurd ((divRem?_eq_none_iff p d).mp found) nonzero
  | some parts => rfl

theorem isDivision (nonzero : d.toPolynomial ≠ 0) :
    IsDivision p.toPolynomial d.toPolynomial (p.exactDiv d).toPolynomial
      (p.rem d).toPolynomial := by
  refine ⟨toPolynomial_eq_mul_add_rem nonzero, ?_⟩
  by_cases zero : (p.rem d).toPolynomial = 0
  · exact .inl zero
  · exact .inr (natDegree_lt_natDegree zero (degree_rem_lt nonzero))

/-! ### Greatest common divisors -/

/-- One round of the algorithm of Euclid. -/
def euclidStep (pair : Poly × Poly) : Poly × Poly := (pair.2, pair.1.rem pair.2)

/-- The rounds end: after at most as many as the second polynomial has coefficients it has become
zero, and what is then the first one is the last remainder. -/
theorem exists_iterate_euclidStep (p q : Poly) :
    ∃ n ≤ q.size, (∀ m < n, (euclidStep^[m] (p, q)).2.isZero = false) ∧
      (euclidStep^[n] (p, q)).2.isZero = true ∧ (euclidStep^[n] (p, q)).1 = p.lastRemainder q := by
  induction p, q using lastRemainder.induct with
  | case1 p q zero =>
    refine ⟨0, Nat.zero_le _, fun m below => absurd below (Nat.not_lt_zero m), zero, ?_⟩
    rw [lastRemainder, dif_pos zero]
    rfl
  | case2 p q zero smaller ih =>
    obtain ⟨n, bound, before, last, value⟩ := ih
    refine ⟨n + 1, by omega, fun m below => ?_, last, ?_⟩
    · cases m with
      | zero => exact Bool.eq_false_iff.mpr zero
      | succ m => exact before m (Nat.lt_of_succ_lt_succ below)
    · rw [lastRemainder, dif_neg zero]
      exact value

theorem monic_gcd (nonzero : p.toPolynomial ≠ 0 ∨ q.toPolynomial ≠ 0) :
    (p.gcd q).toPolynomial.Monic := by
  have some : (p.lastRemainder q).toPolynomial ≠ 0 := by
    rw [ne_eq, lastRemainder_eq_zero_iff, not_and_or]
    exact nonzero
  rw [gcd, toPolynomial_monic]
  exact monic_C_mul_of_mul_leadingCoeff_eq_one (inv_mul_cancel₀ (leadingCoeff_ne_zero.mpr some))

theorem isMonicGcd (p q : Poly) :
    IsMonicGcd p.toPolynomial q.toPolynomial (p.gcd q).toPolynomial where
  left := gcd_dvd_left p q
  right := gcd_dvd_right p q
  greatest h left right := (dvd_gcd_iff p q h).mpr ⟨left, right⟩
  monic := monic_gcd
  zero left right :=
    zero_dvd_iff.mp ((dvd_gcd_iff p q 0).mpr ⟨zero_dvd_iff.mpr left, zero_dvd_iff.mpr right⟩)

/-! ### Square-free parts and primitive multiples -/

/-- The complex roots of the square-free part are simple. -/
theorem rootMultiplicity_squareFree (nonzero : p.toPolynomial ≠ 0) {z : ℂ}
    (root : p.squareFree.toComplex.eval z = 0) : p.squareFree.toComplex.rootMultiplicity z = 1 := by
  have some := toComplex_ne_zero_iff.mpr (squareFree_ne_zero nonzero)
  exact le_antisymm (rootMultiplicity_le_one_of_separable (separable_squareFree nonzero).map z)
    ((rootMultiplicity_pos some).mpr root)

theorem isIntegerMultiple_primitive (nonzero : p.toPolynomial ≠ 0) :
    IsIntegerMultiple p.toPolynomial p.primitive.toPolynomial where
  multiple := (exists_primitive_eq nonzero).imp fun _ => And.right
  content := (isPrimitive_primitive nonzero).imp fun _ =>
    And.imp_left isPrimitive_iff_content_eq_one.mp
  positive := leadingCoeff_primitive_pos nonzero

/-! ### The ring -/

/-- The constructors build the polynomials of their names. -/
structure Constructors : Prop where
  /-- The zero polynomial. -/
  zero : zero.toPolynomial = 0
  /-- The constant one. -/
  one : one.toPolynomial = 1
  /-- The polynomial `x`. -/
  x : x.toPolynomial = X
  /-- Constants. -/
  constant : ∀ c, (constant c).toPolynomial = C c
  /-- Monomials. -/
  monomial : ∀ c n, (monomial c n).toPolynomial = C c * X ^ n
  /-- Coefficients, of which nothing but zeros at the end is dropped. -/
  ofCoeffs : ∀ coeffs, ∃ n, coeffs = (ofCoeffs coeffs).coeffs ++ List.replicate n 0
  /-- Integer coefficients. -/
  ofInts : ∀ coeffs i, (ofInts coeffs).toPolynomial.coeff i = (coeffs.getD i 0 : ℤ)

theorem constructors : Constructors :=
  ⟨toPolynomial_zero, toPolynomial_one, toPolynomial_x, toPolynomial_constant,
    toPolynomial_monomial, Coefficients.exists_trim_append, toPolynomial_ofInts⟩

/-- The operations on coefficient lists are those on polynomials. -/
structure Operations (p q : Poly) : Prop where
  /-- The sum. -/
  add : (p.add q).toPolynomial = p.toPolynomial + q.toPolynomial
  /-- The difference. -/
  sub : (p.sub q).toPolynomial = p.toPolynomial - q.toPolynomial
  /-- The product. -/
  mul : (p.mul q).toPolynomial = p.toPolynomial * q.toPolynomial
  /-- The negation, in which no coefficient has to be trimmed. -/
  neg : p.neg.toPolynomial = -p.toPolynomial ∧ p.neg.coeffs = p.coeffs.map (-·)
  /-- The multiples by a constant. -/
  scale : ∀ c, (p.scale c).toPolynomial = C c * p.toPolynomial
  /-- The derivative. -/
  derivative : p.derivative.toPolynomial = Polynomial.derivative p.toPolynomial
  /-- The substitution of a linear polynomial. -/
  composeLinear : ∀ a b, (p.composeLinear a b).toPolynomial = p.toPolynomial.comp (C a * X + C b)
  /-- The substitution of the negated argument. -/
  reflect : p.reflect.toPolynomial = p.toPolynomial.comp (-X)
  /-- The substitution of a power. -/
  substitutePower : ∀ k, (p.substitutePower k).toPolynomial = p.toPolynomial.comp (X ^ k)

theorem operations (p q : Poly) : Operations p q :=
  ⟨toPolynomial_add p q, toPolynomial_sub p q, toPolynomial_mul p q,
    ⟨toPolynomial_neg p, coeffs_neg p⟩, toPolynomial_scale p, toPolynomial_derivative p,
    toPolynomial_composeLinear p, toPolynomial_reflect p, toPolynomial_substitutePower_eq_comp p⟩

/-- **Coefficient lists are the ring of rational polynomials**: a list does not end in zero, so that
lists are equal just when their polynomials are, every polynomial has one, and the constructors and
operations are those of polynomials. Division by a polynomial that is not zero returns the one
quotient and remainder, the algorithm of Euclid ends and returns the monic greatest common divisor,
the square-free part has the same complex roots and all of them simple, and the primitive multiple
is the one with integer coefficients of content one and a positive leading coefficient. -/
theorem ring_exact (p q : Poly) :
    (p.coeffs.getLast? ≠ some 0 ∧ (p.coeffs = q.coeffs ↔ p.toPolynomial = q.toPolynomial) ∧
      Function.Bijective toPolynomial ∧ ∀ i, p.toPolynomial.coeff i = p.coeff i) ∧
    Constructors ∧ Operations p q ∧
    (q.isZero = false → ∃ quotient remainder, p.divRem? q = some (quotient, remainder) ∧
      IsDivision p.toPolynomial q.toPolynomial quotient.toPolynomial remainder.toPolynomial ∧
      ∀ f r, IsDivision p.toPolynomial q.toPolynomial f r →
        f = quotient.toPolynomial ∧ r = remainder.toPolynomial) ∧
    ((∃ n ≤ q.size, (∀ m < n, (euclidStep^[m] (p, q)).2.isZero = false) ∧
        (euclidStep^[n] (p, q)).2.isZero = true ∧ p.gcd q = (euclidStep^[n] (p, q)).1.monic) ∧
      IsMonicGcd p.toPolynomial q.toPolynomial (p.gcd q).toPolynomial) ∧
    (p.isZero = false → ∀ z : ℂ, (p.squareFree.toComplex.eval z = 0 ↔ p.toComplex.eval z = 0) ∧
      (p.squareFree.toComplex.eval z = 0 → p.squareFree.toComplex.rootMultiplicity z = 1)) ∧
    (p.isZero = false → IsIntegerMultiple p.toPolynomial p.primitive.toPolynomial ∧
      ∀ f, IsIntegerMultiple p.toPolynomial f → f = p.primitive.toPolynomial) := by
  have some {r : Poly} (filled : r.isZero = false) : r.toPolynomial ≠ 0 := by
    rwa [ne_eq, ← isZero_iff, Bool.not_eq_true]
  refine ⟨⟨p.normal, ?_, ⟨toPolynomial_injective, toPolynomial_surjective⟩, coeff_toPolynomial p⟩,
    constructors, operations p q, fun filled => ?_, ⟨?_, isMonicGcd p q⟩, fun filled z => ?_,
    fun filled => ?_⟩
  · exact ⟨congrArg Coefficients.toPolynomial,
      fun same => congrArg coeffs (toPolynomial_injective same)⟩
  · have known := isDivision (p := p) (some filled)
    refine ⟨_, _, divRem?_eq_some (some filled), known, fun f r other => ⟨?_, ?_⟩⟩
    · rw [other.quotient_eq (some filled), known.quotient_eq (some filled)]
    · rw [other.remainder_eq (some filled), known.remainder_eq (some filled)]
  · obtain ⟨n, bound, before, last, value⟩ := exists_iterate_euclidStep p q
    exact ⟨n, bound, before, last, by rw [value, gcd]⟩
  · exact ⟨eval_map_squareFree_eq_zero_iff (some filled), rootMultiplicity_squareFree (some filled)⟩
  · have known := isIntegerMultiple_primitive (some filled)
    exact ⟨known, fun f other => other.unique known⟩

/-- A polynomial with a double root and its derivative up to a factor. -/
theorem ring_exact_double_root :
    let p : Poly := ofCoeffs [1, -3 / 2, 0, 1 / 2]
    let q : Poly := ofInts [-3, 0, 3]
    q.isZero = false ∧ p.isZero = false ∧ p.gcd q = ofInts [-1, 1] ∧
    IsMonicGcd p.toPolynomial q.toPolynomial (ofInts [-1, 1]).toPolynomial ∧
    IsDivision p.toPolynomial q.toPolynomial (ofCoeffs [0, 1 / 6]).toPolynomial
      (ofInts [1, -1]).toPolynomial ∧
    IsIntegerMultiple p.toPolynomial (ofInts [2, -3, 0, 1]).toPolynomial ∧
    ∀ z : ℂ, p.toComplex.eval z = 0 → p.squareFree.toComplex.rootMultiplicity z = 1 := by
  intro p q
  have filled : q.isZero = false := by decide +kernel
  have filled' : p.isZero = false := by decide +kernel
  have common : p.gcd q = ofInts [-1, 1] := by decide +kernel
  have divided : p.divRem? q = some (ofCoeffs [0, 1 / 6], ofInts [1, -1]) := by decide +kernel
  have multiple : p.primitive = ofInts [2, -3, 0, 1] := by decide +kernel
  obtain ⟨-, -, -, division, ⟨-, divisor⟩, roots, primitive⟩ := ring_exact p q
  obtain ⟨quotient, remainder, found, known, -⟩ := division filled
  cases divided.symm.trans found
  refine ⟨filled, filled', common, common ▸ divisor, known, multiple ▸ (primitive filled').1, ?_⟩
  exact fun z root => (roots filled' z).2 ((roots filled' z).1.mpr root)

end Poly
end Stratagem
