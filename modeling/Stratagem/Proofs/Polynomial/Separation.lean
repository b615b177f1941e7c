import Mathlib.Analysis.Complex.Polynomial.Basic
import Mathlib.RingTheory.Polynomial.Resultant.Basic
import Mathlib.RingTheory.SimpleRing.Principal
import Stratagem.Algebraic.Isolation
import Stratagem.Proofs.Polynomial.Primitive

/-!
# The distance of roots

The discriminant of a separable integer polynomial is an integer other than zero. It is also, up to
powers of the leading coefficient, the product of the distances of all roots, which bounds every one
of these from below by the leading coefficient and the root bound. A rational polynomial has the
roots of its primitive multiple, and `isolationDepth` is a number of halvings that gets below their
distance (`Poly.separation`).
-/
namespace Stratagem

open Polynomial

/-- A product of numbers that are bounded. -/
theorem norm_prod_map_le {S : Multiset ℂ} {g : ℂ → ℂ} {M : ℝ} (positive : 0 ≤ M)
    (bounded : ∀ z ∈ S, ‖g z‖ ≤ M) : ‖(S.map g).prod‖ ≤ M ^ S.card := by
  induction S using Multiset.induction with
  | empty => simp
  | cons z S ih =>
    rw [Multiset.map_cons, Multiset.prod_cons, norm_mul, Multiset.card_cons, pow_succ']
    exact mul_le_mul (bounded z (Multiset.mem_cons_self z S))
      (ih fun w member => bounded w (Multiset.mem_cons_of_mem member)) (norm_nonneg _) positive

/-- The derivative at a root is the product of the distances to the other ones. -/
theorem eval_derivative_root {F : ℂ[X]} {z : ℂ} (root : z ∈ F.roots) :
    F.derivative.eval z = F.leadingCoeff * ((F.roots.erase z).map (z - ·)).prod := by
  have product := (IsAlgClosed.splits F).eq_prod_roots
  rw [← eval_multiset_prod_X_sub_C_derivative root]
  conv_lhs => rw [product]
  simp

/-- The leading coefficient of a separable integer polynomial does not exceed the resultant with
the derivative. -/
theorem norm_leadingCoeff_le {f : ℤ[X]} (varies : 0 < f.natDegree)
    (separable : (f.map (Int.castRingHom ℂ)).Separable) :
    ‖(f.map (Int.castRingHom ℂ)).leadingCoeff‖ ≤
      ‖resultant (f.map (Int.castRingHom ℂ)) (f.map (Int.castRingHom ℂ)).derivative f.natDegree
        (f.natDegree - 1)‖ := by
  have degree : (f.map (Int.castRingHom ℂ)).natDegree = f.natDegree :=
    natDegree_map_eq_of_injective (RingHom.injective_int _) f
  have some := resultant_ne_zero _ _ separable
  rw [natDegree_derivative, degree, derivative_map, resultant_map_map,
    resultant_deriv (natDegree_pos_iff_degree_pos.mp varies)] at some
  rw [derivative_map, resultant_map_map, resultant_deriv (natDegree_pos_iff_degree_pos.mp varies),
    leadingCoeff_map_of_injective (RingHom.injective_int _)]
  simp only [map_mul, map_pow, map_neg, map_one, norm_mul, norm_pow, norm_neg, norm_one, one_pow,
    one_mul] at some ⊢
  have discriminant : f.discr ≠ 0 := by
    rintro zero
    simp [zero] at some
  refine le_mul_of_one_le_right (norm_nonneg _) ?_
  rw [eq_intCast, Complex.norm_intCast]
  exact_mod_cast Int.one_le_abs discriminant

/-- The product of the derivative over the roots, bounded by the distance of two of them. -/
theorem norm_prod_derivative_le {F : ℂ[X]} {a b : ℂ} (first : a ∈ F.roots)
    (second : b ∈ F.roots) (other : a ≠ b) {M : ℝ} (bounded : ∀ z ∈ F.roots, ‖z‖ ≤ M / 2) {k : ℕ}
    (degree : F.natDegree = k + 2) :
    ‖(F.roots.map F.derivative.eval).prod‖ ≤
      ‖F.leadingCoeff‖ ^ (k + 2) * ‖a - b‖ ^ 2 * M ^ (k * (k + 3)) := by
  have size : F.roots.card = k + 2 := by
    rw [← (IsAlgClosed.splits F).natDegree_eq_card_roots, degree]
  have apart : ∀ z ∈ F.roots, ∀ w ∈ F.roots, ‖z - w‖ ≤ M := fun z here w there =>
    (norm_sub_le z w).trans (by linarith [bounded z here, bounded w there])
  have positive : 0 ≤ M := by linarith [norm_nonneg a, bounded a first]
  obtain ⟨rest, split⟩ : ∃ rest, F.roots = a ::ₘ b ::ₘ rest := by
    refine ⟨(F.roots.erase a).erase b, ?_⟩
    rw [Multiset.cons_erase ((Multiset.mem_erase_of_ne other.symm).mpr second),
      Multiset.cons_erase first]
  have few : rest.card = k := by
    rw [split, Multiset.card_cons, Multiset.card_cons] at size
    omega
  have inside : ∀ z ∈ rest, z ∈ F.roots := fun z member => by
    rw [split]
    exact Multiset.mem_cons_of_mem (Multiset.mem_cons_of_mem member)
  -- The two roots themselves: one factor of each product is the distance.
  have close : ∀ z ∈ F.roots, ∀ w, F.roots.erase z = w ::ₘ rest →
      ‖F.derivative.eval z‖ ≤ ‖F.leadingCoeff‖ * (‖z - w‖ * M ^ k) := by
    intro z member w others
    rw [eval_derivative_root member, others, Multiset.map_cons, Multiset.prod_cons, norm_mul,
      norm_mul]
    refine mul_le_mul_of_nonneg_left (mul_le_mul_of_nonneg_left ?_ (norm_nonneg _)) (norm_nonneg _)
    rw [← few]
    exact norm_prod_map_le positive fun v there => apart z member v (inside v there)
  have left : ‖F.derivative.eval a‖ ≤ ‖F.leadingCoeff‖ * (‖a - b‖ * M ^ k) :=
    close a first b (by rw [split, Multiset.erase_cons_head])
  have right : ‖F.derivative.eval b‖ ≤ ‖F.leadingCoeff‖ * (‖a - b‖ * M ^ k) := by
    rw [norm_sub_rev]
    refine close b second a ?_
    rw [split, Multiset.erase_cons_tail _ other, Multiset.erase_cons_head]
  have others : ‖(rest.map F.derivative.eval).prod‖ ≤ (‖F.leadingCoeff‖ * M ^ (k + 1)) ^ k := by
    rw [← few]
    refine norm_prod_map_le (by positivity) fun z member => ?_
    rw [eval_derivative_root (inside z member), norm_mul, few]
    refine mul_le_mul_of_nonneg_left ?_ (norm_nonneg _)
    have fewer : (F.roots.erase z).card = k + 1 := by
      rw [Multiset.card_erase_of_mem (inside z member), size]
      rfl
    rw [← fewer]
    exact norm_prod_map_le positive fun w there =>
      apart z (inside z member) w (Multiset.mem_of_mem_erase there)
  rw [split, Multiset.map_cons, Multiset.map_cons, Multiset.prod_cons, Multiset.prod_cons, norm_mul,
    norm_mul]
  calc _ ≤ ‖F.leadingCoeff‖ * (‖a - b‖ * M ^ k) * (‖F.leadingCoeff‖ * (‖a - b‖ * M ^ k) *
        (‖F.leadingCoeff‖ * M ^ (k + 1)) ^ k) := by gcongr
    _ = _ := by ring

/-- Two roots of a separable integer polynomial are apart. -/
theorem one_le_norm_sub {f : ℤ[X]} (separable : (f.map (Int.castRingHom ℂ)).Separable) {a b : ℂ}
    (first : a ∈ (f.map (Int.castRingHom ℂ)).roots) (second : b ∈ (f.map (Int.castRingHom ℂ)).roots)
    (other : a ≠ b) {M : ℝ} (large : 1 ≤ M)
    (bounded : ∀ z ∈ (f.map (Int.castRingHom ℂ)).roots, ‖z‖ ≤ M / 2) {k : ℕ}
    (degree : f.natDegree = k + 2) :
    M ≤ ‖(f.map (Int.castRingHom ℂ)).leadingCoeff‖ ^ (k + 1) * ‖a - b‖ *
      M ^ ((k + 1) * (k + 2) / 2) := by
  have same : (f.map (Int.castRingHom ℂ)).natDegree = f.natDegree :=
    natDegree_map_eq_of_injective (RingHom.injective_int _) f
  have lead := norm_leadingCoeff_le (by omega) separable
  have nonzero : (f.map (Int.castRingHom ℂ)).leadingCoeff ≠ 0 :=
    leadingCoeff_ne_zero.mpr separable.ne_zero
  generalize f.map (Int.castRingHom ℂ) = F at *
  rw [← same, resultant_eq_prod_eval _ _ _ ((natDegree_derivative_le F)) (IsAlgClosed.splits F),
    norm_mul, norm_pow, same, degree] at lead
  have product := norm_prod_derivative_le first second other bounded (same.trans degree)
  have positive : 0 < ‖F.leadingCoeff‖ := norm_pos_iff.mpr nonzero
  have even : (k + 1) * (k + 2) / 2 * 2 = k * (k + 3) + 2 := by
    rw [Nat.div_mul_cancel (Nat.even_mul_succ_self (k + 1)).two_dvd]
    ring
  have whole : ‖F.leadingCoeff‖ * 1 ≤ ‖F.leadingCoeff‖ *
      ((‖F.leadingCoeff‖ ^ (k + 1) * ‖a - b‖) ^ 2 * M ^ (k * (k + 3))) := by
    calc ‖F.leadingCoeff‖ * 1 ≤ ‖F.leadingCoeff‖ ^ (k + 1) *
          (‖F.leadingCoeff‖ ^ (k + 2) * ‖a - b‖ ^ 2 * M ^ (k * (k + 3))) := by
          rw [mul_one]
          exact lead.trans (mul_le_mul_of_nonneg_left product (by positivity))
      _ = _ := by ring
  have unit := le_of_mul_le_mul_left whole positive
  refine (sq_le_sq₀ (by linarith) (by positivity)).mp ?_
  calc M ^ 2 = 1 * M ^ 2 := (one_mul _).symm
    _ ≤ (‖F.leadingCoeff‖ ^ (k + 1) * ‖a - b‖) ^ 2 * M ^ (k * (k + 3)) * M ^ 2 :=
      mul_le_mul_of_nonneg_right unit (by positivity)
    _ = (‖F.leadingCoeff‖ ^ (k + 1) * ‖a - b‖ * M ^ ((k + 1) * (k + 2) / 2)) ^ 2 := by
      rw [mul_pow (_ * _) (M ^ _), ← pow_mul M, even, pow_add]
      ring

namespace Poly

variable {p : Poly}

/-- That many halvings undo the product of the primitive leading coefficient and the root bound that
bounds the distance of roots. -/
theorem le_two_pow_isolationDepth (p : Poly) {k : ℕ} (degree : p.degree = k + 2) :
    4 * (((p.primitive.leading?.getD 1).num.natAbs : ℝ) ^ (k + 1) *
        (2 * p.rootBound) ^ ((k + 1) * (k + 2) / 2)) ≤ 2 ^ p.isolationDepth := by
  let lead := (p.primitive.leading?.getD 1).num.natAbs
  let spread := (2 * p.rootBound).ceil.toNat
  have depth : p.isolationDepth =
      (spread.log2 + 1) * ((k + 1) * (k + 2) / 2) + (lead.log2 + 1) * (k + 1) + 2 := by
    show p.degree * (p.degree - 1) / 2 * (spread.log2 + 1) +
      (p.degree - 1) * (lead.log2 + 1) + 2 = _
    rw [degree, show k + 2 - 1 = k + 1 from rfl, Nat.mul_comm (k + 2), Nat.mul_comm (_ / 2),
      Nat.mul_comm (k + 1) (lead.log2 + 1)]
  have bound : (0 : ℝ) ≤ 2 * p.rootBound := by
    exact_mod_cast mul_nonneg zero_le_two (zero_le_one.trans (one_le_rootBound p))
  have wide : (2 * p.rootBound : ℝ) ≤ 2 ^ (spread.log2 + 1) := by
    have ceiling : (2 * p.rootBound : ℚ) ≤ (spread : ℚ) :=
      Rat.le_ceil.trans (by exact_mod_cast Int.self_le_toNat _)
    have power : (spread : ℚ) ≤ 2 ^ (spread.log2 + 1) := by exact_mod_cast Nat.lt_log2_self.le
    exact_mod_cast ceiling.trans power
  have large : (lead : ℝ) ≤ 2 ^ (lead.log2 + 1) := by exact_mod_cast Nat.lt_log2_self.le
  have power : (2 : ℝ) ^ p.isolationDepth =
      4 * ((2 ^ (lead.log2 + 1)) ^ (k + 1) *
        (2 ^ (spread.log2 + 1)) ^ ((k + 1) * (k + 2) / 2)) := by
    rw [depth]
    ring
  rw [power]
  calc _ = 4 * ((lead : ℝ) ^ (k + 1) * (2 * p.rootBound) ^ ((k + 1) * (k + 2) / 2)) := rfl
    _ ≤ 4 * ((2 ^ (lead.log2 + 1)) ^ (k + 1) *
        (2 ^ (spread.log2 + 1)) ^ ((k + 1) * (k + 2) / 2)) := by gcongr

/-- Two real roots of a separable polynomial are apart. -/
theorem separation (separable : p.toPolynomial.Separable) {x y : ℝ} (first : p.toReal.eval x = 0)
    (second : p.toReal.eval y = 0) (other : x ≠ y) :
    8 * (p.rootBound : ℝ) ≤ |x - y| * 2 ^ p.isolationDepth := by
  have nonzero := separable.ne_zero
  have multiple := primitive_ne_zero nonzero
  obtain ⟨f, -, same⟩ := isPrimitive_primitive nonzero
  have whole : f.map (Int.castRingHom ℂ) = p.primitive.toComplex := by
    rw [Poly.toComplex, ← same, Polynomial.map_map]
    congr 1
  have member {x : ℝ} (root : p.toReal.eval x = 0) :
      (x : ℂ) ∈ (f.map (Int.castRingHom ℂ)).roots := by
    rw [whole, mem_roots (toComplex_ne_zero_iff.mpr multiple), IsRoot, eval_toComplex,
      (eval_primitive_eq_zero_iff nonzero).mpr root, Complex.ofReal_zero]
  obtain ⟨k, degree⟩ : ∃ k, p.degree = k + 2 := by
    have two : ({x, y} : Finset ℝ) ⊆ p.realRoots := by
      simp [Finset.insert_subset_iff, mem_realRoots nonzero, first, second]
    have count := (Finset.card_le_card two).trans (card_realRoots_le p)
    rw [Finset.card_pair other] at count
    exact Nat.exists_eq_add_of_le' count
  have bounded : ∀ z ∈ (f.map (Int.castRingHom ℂ)).roots, ‖z‖ ≤ (2 * p.rootBound : ℝ) / 2 := by
    intro z root
    rw [whole] at root
    rw [mul_div_cancel_left₀ _ two_ne_zero]
    have zero := (eval_toComplex_primitive_eq_zero_iff nonzero).mp (isRoot_of_mem_roots root)
    exact (norm_lt_rootBound nonzero zero).le
  have fdegree : f.natDegree = k + 2 := by
    rw [← degree, ← degree_primitive nonzero, ← natDegree_toPolynomial, ← same,
      natDegree_map_eq_of_injective (RingHom.injective_int _)]
  have large : (1 : ℝ) ≤ 2 * p.rootBound := by
    have := one_le_rootBound p
    exact_mod_cast (by linarith : (1 : ℚ) ≤ 2 * p.rootBound)
  have apart := one_le_norm_sub (whole ▸ (separable_primitive separable).map) (member first)
    (member second) (by exact_mod_cast other) large bounded fdegree
  have lead : ‖(f.map (Int.castRingHom ℂ)).leadingCoeff‖ =
      ((p.primitive.leading?.getD 1).num.natAbs : ℝ) := by
    have leading := (leading?_eq_some_iff p.primitive).mpr
      ⟨multiple, IsPrimitive.leadingCoeff_eq same⟩
    rw [leading, Option.getD_some, Rat.num_intCast,
      leadingCoeff_map_of_injective (RingHom.injective_int _), eq_intCast, Complex.norm_intCast,
      ← Int.cast_abs, Int.abs_eq_natAbs, Int.cast_natCast]
  have distance : ‖(x : ℂ) - y‖ = |x - y| := by
    rw [← Complex.ofReal_sub, Complex.norm_real, Real.norm_eq_abs]
  rw [lead, distance] at apart
  have depth := le_two_pow_isolationDepth p degree
  calc 8 * (p.rootBound : ℝ) = 4 * (2 * p.rootBound) := by ring
    _ ≤ 4 * (((p.primitive.leading?.getD 1).num.natAbs : ℝ) ^ (k + 1) * |x - y| *
        (2 * p.rootBound) ^ ((k + 1) * (k + 2) / 2)) := by gcongr
    _ = |x - y| * (4 * (((p.primitive.leading?.getD 1).num.natAbs : ℝ) ^ (k + 1) *
        (2 * p.rootBound) ^ ((k + 1) * (k + 2) / 2))) := by ring
    _ ≤ |x - y| * 2 ^ p.isolationDepth := mul_le_mul_of_nonneg_left depth (abs_nonneg _)

end Poly
end Stratagem
