import Mathlib.Topology.Order.IntermediateValue
import Stratagem.Algebraic.Isolation
import Stratagem.Proofs.Number.Image
import Stratagem.Proofs.Number.Simplest
import Stratagem.Proofs.Polynomial.Sturm

/-!
# Intervals around one root

An interval isolates a root of a polynomial when it has no other root in it and the root is no end
of it (`Interval.Isolates`). A separable polynomial changes its sign at the root and nowhere else in
the interval (`Interval.Isolates.mul_pos_iff`), so halving keeps the half with the root.
-/
namespace Stratagem

open Polynomial

/-! ### Orders and signs of rationals -/

theorem Rational.order_eq_cmp (a b : ℚ) : Rational.order a b = cmp a b := by
  unfold Rational.order
  rcases lt_trichotomy a b with below | rfl | above
  · rw [if_pos below, (cmp_eq_lt_iff a b).mpr below]
  · rw [if_neg (lt_irrefl a), if_pos rfl, cmp_self_eq_eq]
  · rw [if_neg above.not_gt, if_neg above.ne', (cmp_eq_gt_iff a b).mpr above]

/-- Two rationals of which the second is not zero have one sign just when their product is
positive. -/
theorem Rational.sign_eq_sign_iff {a b : ℚ} (other : b ≠ 0) :
    Rational.sign a = Rational.sign b ↔ 0 < a * b := by
  unfold Rational.sign
  rw [order_eq_cmp, order_eq_cmp]
  rcases lt_or_gt_of_ne other with negative | positive
  · rw [(cmp_eq_lt_iff b 0).mpr negative, cmp_eq_lt_iff, ← neg_mul_neg,
      mul_pos_iff_of_pos_right (neg_pos.mpr negative), neg_pos]
  · rw [(cmp_eq_gt_iff b 0).mpr positive, cmp_eq_gt_iff, mul_pos_iff_of_pos_right positive]

namespace Interval

/-- The interval holds one root of the polynomial, and not at an end. -/
structure Isolates (range : Interval) (p : Poly) (x : ℝ) : Prop where
  /-- It is a root. -/
  root : p.toReal.eval x = 0
  /-- The root is above the lower end. -/
  lo_lt : (range.lo : ℝ) < x
  /-- The root is below the upper end. -/
  lt_hi : x < (range.hi : ℝ)
  /-- There is no other. -/
  unique : ∀ y, p.toReal.eval y = 0 → (range.lo : ℝ) ≤ y → y ≤ range.hi → y = x

/-- The interval isolates the root, or it is the point of a rational root. -/
def Locates (range : Interval) (p : Poly) (x : ℝ) : Prop :=
  range.Isolates p x ∨ p.toReal.eval x = 0 ∧ (range.lo : ℝ) = x ∧ (range.hi : ℝ) = x

variable {range other : Interval} {p q : Poly} {x y z : ℝ}

theorem Locates.root (known : range.Locates p x) : p.toReal.eval x = 0 :=
  known.elim Isolates.root And.left

theorem Locates.holds (known : range.Locates p x) : range.Holds x :=
  known.elim (fun isolates => ⟨isolates.lo_lt.le, isolates.lt_hi.le⟩)
    fun point => ⟨point.2.1.le, point.2.2.ge⟩

/-- A range that locates a root has no other in it. -/
theorem Locates.unique (known : range.Locates p x) (root : p.toReal.eval y = 0)
    (inside : range.Holds y) : y = x := by
  rcases known with isolates | ⟨-, low, high⟩
  · exact isolates.unique y root inside.1 inside.2
  · exact le_antisymm (inside.2.trans_eq high) (low.symm.trans_le inside.1)

theorem isPoint_iff : range.isPoint = true ↔ range.lo = range.hi := beq_iff_eq

namespace Isolates

theorem lo_lt_hi (known : range.Isolates p x) : range.lo < range.hi := by
  exact_mod_cast known.lo_lt.trans known.lt_hi

theorem not_isPoint (known : range.Isolates p x) : range.isPoint = false :=
  Bool.eq_false_iff.mpr fun point => known.lo_lt_hi.ne (isPoint_iff.mp point)

/-- A smaller interval around the root isolates it too. -/
theorem mono (known : range.Isolates p x) (above : range.lo ≤ other.lo)
    (below : other.hi ≤ range.hi) (low : (other.lo : ℝ) < x) (high : x < (other.hi : ℝ)) :
    other.Isolates p x where
  root := known.root
  lo_lt := low
  lt_hi := high
  unique y root first second :=
    known.unique y root ((Rat.cast_le.mpr above).trans first) (second.trans (Rat.cast_le.mpr below))

/-- A divisor with that root has no other root in the interval either. -/
theorem of_dvd (known : range.Isolates p x) (divides : q.toPolynomial ∣ p.toPolynomial)
    (root : q.toReal.eval x = 0) : range.Isolates q x where
  root := root
  lo_lt := known.lo_lt
  lt_hi := known.lt_hi
  unique y other := known.unique y
    (eval_eq_zero_of_dvd_of_eval_eq_zero (Polynomial.map_dvd (algebraMap ℚ ℝ) divides) other)

/-- An interval isolates the preimage of a root under an injective map that takes the roots in it
to roots in the isolating interval. -/
theorem preimage (known : range.Isolates p x) {f : ℝ → ℝ} (injective : Function.Injective f)
    (roots : ∀ y, q.toReal.eval y = 0 → p.toReal.eval (f y) = 0)
    (inside : ∀ y, (other.lo : ℝ) ≤ y → y ≤ other.hi → (range.lo : ℝ) ≤ f y ∧ f y ≤ range.hi)
    (value : f z = x) (root : q.toReal.eval z = 0) (low : (other.lo : ℝ) < z)
    (high : z < (other.hi : ℝ)) : other.Isolates q z where
  root := root
  lo_lt := low
  lt_hi := high
  unique y here first second := by
    have image := inside y first second
    exact injective ((known.unique (f y) (roots y here) image.1 image.2).trans value.symm)

/-- In an isolating interval two values of a separable polynomial have one sign just when their
arguments are on one side of the root. -/
theorem mul_pos_iff (known : range.Isolates p x) (separable : p.toPolynomial.Separable)
    (first : y ∈ Set.Icc (range.lo : ℝ) range.hi) (second : z ∈ Set.Icc (range.lo : ℝ) range.hi) :
    0 < p.toReal.eval y * p.toReal.eval z ↔ 0 < (y - x) * (z - x) := by
  obtain ⟨h, factored⟩ := dvd_iff_isRoot.mpr known.root
  have simple : h.eval x ≠ 0 := by
    have slope := separable.eval₂_derivative_ne_zero (algebraMap ℚ ℝ) (x := x)
      (by rw [← eval_map]; exact known.root)
    rw [← eval_map, ← derivative_map] at slope
    rw [Poly.toReal] at factored
    rw [factored, derivative_mul] at slope
    simpa using slope
  -- the cofactor has no root in the interval, so it keeps its sign there
  have away : ∀ w ∈ Set.Icc (range.lo : ℝ) range.hi, h.eval w ≠ 0 := by
    intro w within zero
    have root : p.toReal.eval w = 0 := by rw [factored, eval_mul, zero, mul_zero]
    rw [known.unique w root within.1 within.2] at zero
    exact simple zero
  have same : 0 < h.eval y * h.eval z := by
    by_contra negative
    have crossing : (0 : ℝ) ∈ Set.uIcc (h.eval y) (h.eval z) := by
      rw [Set.mem_uIcc]
      exact (mul_nonpos_iff.mp (not_lt.mp negative)).symm.imp id And.symm
    obtain ⟨w, between, zero⟩ := intermediate_value_uIcc h.continuous.continuousOn crossing
    exact away w (Set.uIcc_subset_Icc first second between) zero
  have value : p.toReal.eval y * p.toReal.eval z =
      (y - x) * (z - x) * (h.eval y * h.eval z) := by
    rw [factored]
    simp only [eval_mul, eval_sub, eval_X, eval_C]
    ring
  rw [value]
  exact mul_pos_iff_of_pos_right same

/-- The signs at the lower end and at another point inside agree just when the point is below the
root. -/
theorem signAt_eq_iff (known : range.Isolates p x) (separable : p.toPolynomial.Separable) {mid : ℚ}
    (low : range.lo ≤ mid) (high : mid ≤ range.hi) (nonzero : p.eval mid ≠ 0) :
    p.signAt range.lo = p.signAt mid ↔ (mid : ℝ) < x := by
  have ends : (range.lo : ℝ) ≤ range.hi := by exact_mod_cast known.lo_lt_hi.le
  have sides := known.mul_pos_iff separable (y := range.lo) (z := mid) ⟨le_rfl, ends⟩
    ⟨by exact_mod_cast low, by exact_mod_cast high⟩
  rw [Poly.eval_toReal, Poly.eval_toReal, ← Rat.cast_mul, Rat.cast_pos] at sides
  unfold Poly.signAt
  rw [Rational.sign_eq_sign_iff nonzero, sides, ← neg_mul_neg, neg_sub, neg_sub,
    mul_pos_iff_of_pos_left (sub_pos.mpr known.lo_lt), sub_pos]

theorem eval_ne_zero (known : range.Isolates p x) {r : ℚ} (low : range.lo ≤ r) (high : r ≤ range.hi)
    (different : (r : ℝ) ≠ x) : p.eval r ≠ 0 := by
  intro zero
  exact different (known.unique r ((Poly.eval_toReal_eq_zero_iff r).mpr zero)
    (by exact_mod_cast low) (by exact_mod_cast high))

end Isolates

/-! ### Halving -/

theorem midpoint_mem (ordered : range.lo ≤ range.hi) :
    range.lo ≤ range.midpoint ∧ range.midpoint ≤ range.hi := by
  unfold midpoint
  constructor <;> linarith

/-- The half that holds the root. -/
theorem Isolates.half (known : range.Isolates p x) (separable : p.toPolynomial.Separable)
    (nonzero : p.eval range.midpoint ≠ 0) :
    (if p.signAt range.lo = p.signAt range.midpoint then range.withLo range.midpoint
      else range.withHi range.midpoint).Isolates p x := by
  obtain ⟨low, high⟩ := midpoint_mem known.lo_lt_hi.le
  have side := known.signAt_eq_iff separable low high nonzero
  split
  · next same => exact known.mono low le_rfl (side.mp same) known.lt_hi
  · next changed =>
    refine known.mono le_rfl high known.lo_lt (lt_of_le_of_ne (not_lt.mp (mt side.mpr changed)) ?_)
    intro equal
    apply nonzero
    exact (Poly.eval_toReal_eq_zero_iff _).mp (equal ▸ known.root)

theorem width_withLo_midpoint : (range.withLo range.midpoint).width = range.width / 2 := by
  simp only [withLo, width, midpoint]
  ring

theorem width_withHi_midpoint : (range.withHi range.midpoint).width = range.width / 2 := by
  simp only [withHi, width, midpoint]
  ring

end Interval

namespace Poly

variable {p : Poly} {range : Interval} {x : ℝ}

/-- Halving an interval that locates a root keeps the root. -/
theorem locates_bisect (separable : p.toPolynomial.Separable) (known : range.Locates p x) :
    (p.bisect range).Locates p x := by
  unfold bisect
  rcases known with isolates | point
  · rw [if_neg (by simp [isolates.not_isPoint])]
    obtain ⟨low, high⟩ := Interval.midpoint_mem isolates.lo_lt_hi.le
    dsimp only
    by_cases zero : p.eval range.midpoint = 0
    · have hit : p.signAt range.midpoint = .eq := by
        rw [signAt, zero, Rational.sign, Rational.order_eq_cmp, cmp_self_eq_eq]
      rw [hit]
      have same := isolates.unique range.midpoint ((eval_toReal_eq_zero_iff _).mpr zero)
        (by exact_mod_cast low) (by exact_mod_cast high)
      exact .inr ⟨isolates.root, same, same⟩
    · have half := isolates.half separable zero
      have miss : p.signAt range.midpoint ≠ .eq := by
        rw [signAt, Rational.sign, Rational.order_eq_cmp, ne_eq, cmp_eq_eq_iff]
        exact zero
      split
      · next hit => exact absurd hit miss
      · exact .inl half
  · have same : range.isPoint = true :=
      Interval.isPoint_iff.mpr (by exact_mod_cast point.2.1.trans point.2.2.symm)
    rw [if_pos same]
    exact .inr point

/-- Halving an interval makes it a point or halves its width. -/
theorem width_bisect (p : Poly) (range : Interval) :
    (p.bisect range).isPoint = true ∨ (p.bisect range).width = range.width / 2 := by
  unfold bisect
  split
  · next point => exact .inl point
  · dsimp only
    split
    · exact .inl (Interval.isPoint_iff.mpr rfl)
    · split
      · exact .inr Interval.width_withLo_midpoint
      · exact .inr Interval.width_withHi_midpoint

theorem locates_bisectBelow (separable : p.toPolynomial.Separable) (width : ℚ) (rounds : ℕ)
    (known : range.Locates p x) : (p.bisectBelow width rounds range).Locates p x := by
  induction rounds generalizing range with
  | zero => exact known
  | succ rounds ih =>
    unfold bisectBelow
    split
    · exact ih (locates_bisect separable known)
    · exact known

/-- After enough halvings the interval is a point or narrower than the width. -/
theorem width_bisectBelow {width : ℚ} {rounds : ℕ} (enough : range.width / 2 ^ rounds < width) :
    (p.bisectBelow width rounds range).isPoint = true ∨
      (p.bisectBelow width rounds range).width < width := by
  induction rounds generalizing range with
  | zero =>
    rw [pow_zero, div_one] at enough
    exact .inr enough
  | succ rounds ih =>
    unfold bisectBelow
    split
    · rcases width_bisect p range with point | half
      · left
        cases rounds with
        | zero => exact point
        | succ rounds =>
          unfold bisectBelow
          rw [if_neg (by simp [point]), point]
      · refine ih ?_
        rw [half, div_div, ← pow_succ']
        exact enough
    · next stopped =>
      rw [Bool.and_eq_true, not_and_or, Bool.not_eq_true', Bool.not_eq_false,
        decide_eq_true_eq, not_le] at stopped
      exact stopped

end Poly
end Stratagem
