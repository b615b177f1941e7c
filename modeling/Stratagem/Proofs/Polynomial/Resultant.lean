import Mathlib.Analysis.Complex.Polynomial.Basic
import Mathlib.RingTheory.Polynomial.Resultant.Basic
import Mathlib.RingTheory.SimpleRing.Principal
import Stratagem.Proofs.Polynomial.Interpolation
import Stratagem.Proofs.Polynomial.Root

/-!
# Resultants

The Euclidean remainder sequence computes the resultant (`Poly.resultant_eq`), which is a product
over the roots of the first polynomial. So the resultants with a family of polynomials, as long as
they depend on the parameter as a polynomial of bounded degree, are the values of one polynomial,
and interpolation finds it (`Poly.Family.toComplex_eliminant`).
-/
namespace Stratagem.Poly

open Polynomial

/-- One step of the remainder sequence. -/
theorem resultant_of_eq_mul_add {f g q r : ℚ[X]} (exact : f = q * g + r)
    (short : r.degree < g.degree) :
    Polynomial.resultant f g = (-1) ^ (f.natDegree * g.natDegree) *
      g.leadingCoeff ^ (f.natDegree - r.natDegree) * Polynomial.resultant g r := by
  have flipped : f = r + g * q := by rw [exact, mul_comm, add_comm]
  rw [resultant_comm, mul_assoc]
  congr 1
  rcases eq_or_ne q 0 with rfl | other
  · rw [mul_zero, add_zero] at flipped
    rw [flipped, Nat.sub_self, pow_zero, one_mul]
  · have product : r.degree < (g * q).degree := short.trans_le (degree_le_mul_left g other)
    have degree : f.natDegree = g.natDegree + q.natDegree := by
      have nonzero : g ≠ 0 := by
        rintro rfl
        simp at short
      rw [flipped, natDegree_add_eq_right_of_degree_lt product, natDegree_mul nonzero other]
    have below : r.natDegree ≤ f.natDegree := by
      have := natDegree_le_natDegree short.le
      omega
    obtain ⟨k, more⟩ := Nat.exists_eq_add_of_le below
    calc Polynomial.resultant g f g.natDegree f.natDegree
        = Polynomial.resultant g r g.natDegree f.natDegree := by
          have moved := resultant_add_mul_right g r q g.natDegree f.natDegree (by omega) le_rfl
          rwa [← flipped] at moved
      _ = g.leadingCoeff ^ (f.natDegree - r.natDegree) * Polynomial.resultant g r := by
          rw [more, Nat.add_sub_cancel_left]
          exact resultant_add_right_deg _ _ _ _ _ le_rfl

variable {p q : Poly}

theorem resultantFrom_eq (factor : ℚ) (other : q.toPolynomial ≠ 0) :
    resultantFrom factor p q = factor * Polynomial.resultant p.toPolynomial q.toPolynomial := by
  induction factor, p, q using resultantFrom.induct with
  | case1 factor p q none => exact absurd ((leading?_eq_none_iff q).mp none) other
  | case2 factor p q lead leading flat =>
    rw [resultantFrom, leading]
    dsimp only
    rw [if_pos flat, Rational.power, ← ((leading?_eq_some_iff q).mp leading).2]
    have constant := eq_C_of_natDegree_eq_zero ((natDegree_toPolynomial q).trans flat)
    rw [natDegree_toPolynomial q, flat, constant, leadingCoeff_C, resultant_C_zero_right,
      natDegree_toPolynomial]
  | case3 factor p q _ _ _ zero => exact absurd ((isZero_iff q).mp zero) other
  | case4 factor p q lead leading long filled _ r zero =>
    rw [resultantFrom, leading]
    dsimp only
    rw [if_neg long, dif_neg filled, if_pos zero]
    have exact := toPolynomial_eq_mul_add_rem (p := p) other
    rw [(isZero_iff (p.rem q)).mp zero, add_zero] at exact
    have varies : q.toPolynomial.natDegree ≠ 0 := by
      rw [natDegree_toPolynomial]
      exact long
    have common : ¬IsCoprime p.toPolynomial q.toPolynomial := fun coprime =>
      varies (natDegree_eq_zero_of_isUnit (coprime.isUnit_of_dvd' (Dvd.intro_left _ exact.symm)
        dvd_rfl))
    rw [resultant_eq_zero_iff.mpr ⟨.inr other, common⟩, mul_zero]
  | case5 factor p q lead leading long filled _ r some sign ih =>
    have nonzero : r.toPolynomial ≠ 0 := fun zero => some ((isZero_iff r).mpr zero)
    rw [resultantFrom, leading]
    dsimp only
    rw [if_neg long, dif_neg filled, if_neg some]
    refine (ih nonzero).trans ?_
    rw [resultant_of_eq_mul_add (toPolynomial_eq_mul_add_rem other) (degree_rem_lt other),
      natDegree_toPolynomial, natDegree_toPolynomial, natDegree_toPolynomial,
      ((leading?_eq_some_iff q).mp leading).2, Rational.power]
    have turned : sign = factor * (-1) ^ (p.degree * q.degree) := by
      show (if p.degree * q.degree % 2 = 1 then -factor else factor) = _
      split
      · next odd => rw [(Nat.odd_iff.mpr odd).neg_one_pow, mul_neg_one]
      · next even =>
        rw [(Nat.not_odd_iff_even.mp (mt Nat.odd_iff.mp even)).neg_one_pow, mul_one]
    rw [turned]
    ring

/-- **The remainder sequence computes the resultant.** -/
theorem resultant_eq (nonzero : p.toPolynomial ≠ 0) (other : q.toPolynomial ≠ 0) :
    p.resultant q = Polynomial.resultant p.toPolynomial q.toPolynomial := by
  have filled : (p.isZero || q.isZero) = false := by
    rw [Bool.or_eq_false_iff, Bool.eq_false_iff, Bool.eq_false_iff, ne_eq, ne_eq, isZero_iff,
      isZero_iff]
    exact ⟨nonzero, other⟩
  rw [resultant, filled, if_neg Bool.false_ne_true, resultantFrom_eq 1 other, one_mul]

/-! ### Products over the roots -/

theorem toPolynomial_ne_zero_of_degree (varies : p.degree ≠ 0) : p.toPolynomial ≠ 0 := by
  intro zero
  rw [← natDegree_toPolynomial, zero, natDegree_zero] at varies
  exact varies rfl

/-- The leading coefficient to a power times the product of the values at the complex roots. -/
theorem resultant_eq_prod {d : ℕ} (varies : p.degree ≠ 0)
    (degree : q.toPolynomial = 0 ∨ q.degree = d) :
    (p.resultant q : ℂ) =
      p.toComplex.leadingCoeff ^ d * (p.toComplex.roots.map q.toComplex.eval).prod := by
  have nonzero := toPolynomial_ne_zero_of_degree varies
  have splits := IsAlgClosed.splits p.toComplex
  by_cases zero : q.toPolynomial = 0
  · have none : p.resultant q = 0 := by
      rw [resultant, (isZero_iff q).mpr zero, Bool.or_true, if_pos rfl]
    have some : p.toComplex.roots ≠ 0 := by
      rw [← Multiset.card_pos, ← splits.natDegree_eq_card_roots, natDegree_toComplex]
      exact Nat.pos_of_ne_zero varies
    obtain ⟨z, member⟩ := Multiset.exists_mem_of_ne_zero some
    have vanishes : (0 : ℂ) ∈ p.toComplex.roots.map q.toComplex.eval := by
      refine Multiset.mem_map.mpr ⟨z, member, ?_⟩
      rw [toComplex, zero, Polynomial.map_zero, eval_zero]
    rw [none, Rat.cast_zero, Multiset.prod_eq_zero vanishes, mul_zero]
  · have same := degree.resolve_left zero
    have mapped := resultant_map_map p.toPolynomial q.toPolynomial p.toPolynomial.natDegree
      q.toPolynomial.natDegree (algebraMap ℚ ℂ)
    rw [resultant_eq nonzero zero, ← eq_ratCast (algebraMap ℚ ℂ), ← mapped, natDegree_toPolynomial,
      natDegree_toPolynomial, same, ← natDegree_toComplex]
    exact resultant_eq_prod_eval _ _ _ (natDegree_toComplex.trans same).le splits

/-- The resultant vanishes just when the polynomials share a complex root. -/
theorem resultant_eq_zero_iff_root (nonzero : p.toPolynomial ≠ 0) (other : q.toPolynomial ≠ 0) :
    p.resultant q = 0 ↔ ∃ z : ℂ, p.toComplex.eval z = 0 ∧ q.toComplex.eval z = 0 := by
  have value (f : Poly) (z : ℂ) : aeval z f.toPolynomial = f.toComplex.eval z :=
    (eval_map_algebraMap f.toPolynomial z).symm
  rw [resultant_eq nonzero other, resultant_eq_zero_iff, and_iff_right (.inl nonzero),
    isCoprime_iff_aeval_ne_zero_of_isAlgClosed ℚ ℂ]
  simp only [value, not_forall, not_or, not_not]

/-! ### Families of polynomials -/

/-- A family of polynomials whose value at each point is a polynomial in the parameter of bounded
degree. Its members are of one degree, unless they vanish. -/
structure Family (g : ℚ → Poly) (d n : ℕ) (h : ℂ → ℂ[X]) : Prop where
  /-- The members are of one degree, unless they vanish. -/
  degree : ∀ t, (g t).toPolynomial = 0 ∨ (g t).degree = d
  /-- The value of a member at a point. -/
  value : ∀ t z, (g t).toComplex.eval z = (h z).eval (t : ℂ)
  /-- The values are of bounded degree in the parameter. -/
  short : ∀ z, (h z).natDegree ≤ n

/-- The polynomial in the parameter that interpolates the resultants with the members of a family
at `0, 1, …, bound`. -/
def eliminant (p : Poly) (bound : ℕ) (g : ℚ → Poly) : Poly :=
  let xs := (List.range (bound + 1)).map fun i => Rational.ofInt (Int.ofNat i)
  interpolate xs (xs.map fun x => p.resultant (g x))

theorem ofInt_ofNat_injective : Function.Injective fun i : ℕ => Rational.ofInt (Int.ofNat i) :=
  fun i j same => by simpa [Rational.ofInt] using same

theorem degree_eliminant_le (p : Poly) (bound : ℕ) (g : ℚ → Poly) :
    (p.eliminant bound g).degree ≤ bound := by
  have short := ((eq_interpolate_iff (List.nodup_range.map ofInt_ofNat_injective)
    (List.length_map _).symm).mp (Eq.refl (p.eliminant bound g))).1
  rw [List.length_map, List.length_range, degree_lt_iff_coeff_zero] at short
  rw [← natDegree_toPolynomial, natDegree_le_iff_coeff_eq_zero]
  exact short

variable {g : ℚ → Poly} {d n bound : ℕ} {h : ℂ → ℂ[X]}

/-- The eliminant is a product over the roots of the first polynomial. -/
theorem Family.toComplex_eliminant (family : Family g d n h) (varies : p.degree ≠ 0)
    (enough : p.degree * n ≤ bound) :
    (p.eliminant bound g).toComplex =
      C (p.toComplex.leadingCoeff ^ d) * (p.toComplex.roots.map h).prod := by
  have distinct := ofInt_ofNat_injective
  rw [eliminant, List.map_map, toComplex, toPolynomial_interpolate distinct]
  have size : p.toComplex.roots.card ≤ p.degree := by
    rw [← natDegree_toComplex]
    exact card_roots' _
  have product : (C (p.toComplex.leadingCoeff ^ d) * (p.toComplex.roots.map h).prod).natDegree ≤
      bound := by
    refine (natDegree_C_mul_le _ _).trans ((natDegree_multiset_prod_le _).trans ?_)
    refine (Multiset.sum_le_card_nsmul _ n fun k member => ?_).trans ?_
    · obtain ⟨f, inside, rfl⟩ := Multiset.mem_map.mp member
      obtain ⟨z, -, rfl⟩ := Multiset.mem_map.mp inside
      exact family.short z
    · rw [Multiset.card_map, Multiset.card_map, smul_eq_mul]
      exact (Nat.mul_le_mul_right n size).trans enough
  refine eq_of_degrees_lt_of_eval_index_eq (Finset.range (bound + 1))
    (v := fun i : ℕ => ((Rational.ofInt (Int.ofNat i) : ℚ) : ℂ))
    (Rat.cast_injective.comp distinct).injOn ?_ ?_ fun i inside => ?_
  · have few := Lagrange.degree_interpolate_lt
      ((fun t => p.resultant (g t)) ∘ fun i : ℕ => Rational.ofInt (Int.ofNat i))
      (distinct.injOn (s := ↑(Finset.range (bound + 1))))
    exact degree_map_le.trans_lt few
  · rw [Finset.card_range]
    exact degree_le_natDegree.trans_lt (by exact_mod_cast Nat.lt_succ_of_le product)
  · have node := Lagrange.eval_interpolate_at_node
      ((fun t => p.resultant (g t)) ∘ fun i : ℕ => Rational.ofInt (Int.ofNat i))
      (distinct.injOn (s := ↑(Finset.range (bound + 1)))) inside
    rw [← eq_ratCast (algebraMap ℚ ℂ), eval_map_apply, node, eq_ratCast, Function.comp_apply,
      resultant_eq_prod varies (family.degree _), eq_ratCast, eval_mul, eval_C, eval_multiset_prod,
      Multiset.map_map]
    simp only [family.value, Function.comp_def]

/-- The value of the eliminant at a rational is the resultant with the member there. -/
theorem Family.eval_eliminant (family : Family g d n h) (varies : p.degree ≠ 0)
    (enough : p.degree * n ≤ bound) (t : ℚ) :
    (p.eliminant bound g).eval t = p.resultant (g t) := by
  have product := congrArg (Polynomial.eval (t : ℂ)) (family.toComplex_eliminant varies enough)
  rw [eval_mul, eval_C, eval_multiset_prod, Multiset.map_map] at product
  apply Rat.cast_injective (α := ℂ)
  rw [resultant_eq_prod varies (family.degree t), funext (family.value t), ← eval_toPolynomial,
    ← eq_ratCast (algebraMap ℚ ℂ), ← eval_map_apply, eq_ratCast]
  exact product

/-- The eliminant does not vanish if the values at the roots do not vanish for all parameters. -/
theorem Family.eliminant_ne_zero (family : Family g d n h) (varies : p.degree ≠ 0)
    (enough : p.degree * n ≤ bound) (some : ∀ z, h z ≠ 0) :
    (p.eliminant bound g).toPolynomial ≠ 0 := by
  have nonzero := toComplex_ne_zero_iff.mpr (toPolynomial_ne_zero_of_degree varies)
  rw [← toComplex_ne_zero_iff, family.toComplex_eliminant varies enough]
  refine mul_ne_zero (C_ne_zero.mpr (pow_ne_zero d (leadingCoeff_ne_zero.mpr nonzero))) ?_
  rw [ne_eq, Multiset.prod_eq_zero_iff, Multiset.mem_map]
  rintro ⟨z, -, zero⟩
  exact some z zero

/-- The eliminant vanishes at a real that makes the family vanish at a root of the first
polynomial. -/
theorem Family.eval_eliminant_eq_zero (family : Family g d n h) (varies : p.degree ≠ 0)
    (enough : p.degree * n ≤ bound) {x y : ℝ} (root : p.toReal.eval x = 0)
    (vanishes : (h x).eval (y : ℂ) = 0) : (p.eliminant bound g).toReal.eval y = 0 := by
  have nonzero := toComplex_ne_zero_iff.mpr (toPolynomial_ne_zero_of_degree varies)
  have member : (x : ℂ) ∈ p.toComplex.roots := by
    rw [mem_roots nonzero, IsRoot, eval_toComplex, root, Complex.ofReal_zero]
  have factor : (0 : ℂ) ∈ p.toComplex.roots.map (Polynomial.eval (y : ℂ) ∘ h) :=
    Multiset.mem_map.mpr ⟨x, member, vanishes⟩
  apply Complex.ofReal_injective
  rw [← eval_toComplex, family.toComplex_eliminant varies enough, eval_mul, eval_multiset_prod,
    Multiset.map_map, Multiset.prod_eq_zero factor, mul_zero, Complex.ofReal_zero]

end Stratagem.Poly
