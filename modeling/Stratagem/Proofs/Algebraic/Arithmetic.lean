import Mathlib.Analysis.SpecialFunctions.Pow.Real
import Stratagem.Proofs.Algebraic.Linear
import Stratagem.Proofs.Algebraic.Resultant
import Stratagem.Proofs.Number.Root

/-!
# Arithmetic of numerals

What the operations on numerals return denotes the exact sum, product, reciprocal, power or
principal root of what the operands denote. The operations that select a root never rule the result
out, because the intervals of the operands hold the operands at every stage.
-/
namespace Stratagem.Numeral

open Stratagem.Algebraic Stratagem.Algebraic.Compute Polynomial

variable {a b : Numeral} {bound : ℕ∞} {v w : ℝ} {limits : Algebraic.Limits}

theorem denotes_rational {r : ℚ} (same : (r : ℝ) = v) : (rational r).Denotes bound v :=
  ⟨same, by simp [degree]⟩

theorem denotes_irrational {x : Algebraic} (known : x.Represents v) (bounded : x.degree ≤ bound) :
    (irrational x).Denotes bound v := ⟨known, bounded⟩

theorem Denotes.refine (known : a.Denotes bound v) : a.refine.Denotes bound v := by
  refine ⟨known.represents.refine, ?_⟩
  cases a with
  | rational r => exact known.bounded
  | irrational x =>
    have same : x.refine.degree = x.degree := congrArg Poly.degree (poly_refine x)
    have bounded := known.bounded
    rw [degree, ← same] at bounded
    exact bounded

theorem Denotes.neg (known : a.Denotes bound v) : a.neg.Denotes bound (-v) := by
  obtain ⟨represents, bounded⟩ := known
  cases a with
  | rational r =>
    rw [← (represents : (r : ℝ) = v)]
    exact denotes_rational (Rat.cast_neg r)
  | irrational x =>
    refine denotes_irrational (represents_neg represents) ?_
    rw [degree_neg represents]
    exact bounded

theorem Represents.neg (known : a.Represents v) : a.neg.Represents (-v) :=
  (show a.Denotes ⊤ v from ⟨known, le_top⟩).neg.represents

/-- A polynomial that defines an irrational number is not constant. -/
theorem degree_ne_zero {x : Algebraic} (known : x.Represents v) : x.poly.degree ≠ 0 :=
  Poly.degree_ne_zero_of_root known.separable.ne_zero known.isolates.root

/-- Both numerals denote certain reals. -/
def Both (v w : ℝ) (operands : Numeral × Numeral) : Prop :=
  operands.1.Represents v ∧ operands.2.Represents w

theorem Both.refine {operands : Numeral × Numeral} (known : Both v w operands) :
    Both v w (refineBoth operands) :=
  ⟨known.1.refine, known.2.refine⟩

/-- **Sums are exact.** -/
theorem ensures_add (first : a.Denotes bound v) (second : b.Denotes bound w)
    (cap : limits.maxDegree ≤ bound) :
    (a.add b).Ensures limits fun n => n.Denotes bound (v + w) := by
  obtain ⟨left, small⟩ := first
  obtain ⟨right, small'⟩ := second
  cases a with
  | rational r =>
    rw [← (left : (r : ℝ) = v)]
    cases b with
    | rational s =>
      rw [← (right : (s : ℝ) = w)]
      exact ensures_pure (denotes_rational (Rat.cast_add r s))
    | irrational y =>
      rw [add_comm]
      refine ensures_pure (denotes_irrational (represents_shift right r) ?_)
      rw [degree_shift right]
      exact small'
  | irrational x =>
    cases b with
    | rational s =>
      rw [← (right : (s : ℝ) = w)]
      refine ensures_pure (denotes_irrational (represents_shift left s) ?_)
      rw [degree_shift left]
      exact small
    | irrational y =>
      refine ensures_bind (ensures_checkDegree _) fun _ _ => ensures_resultantIn_bind ?_
      have root := Poly.eval_eliminant_sum (degree_ne_zero left) (Represents.isolates left).root
        (Represents.isolates right).root
      refine ensures_selectRoot (Both v w) root (fun _ => Both.refine)
        (fun operands range both holds => ?_) ⟨left, right⟩ cap
      exact holds.overlaps (both.1.holds.add both.2.holds)

theorem isZero_rational {r : ℚ} : ¬(rational r).isZero = true ↔ r ≠ 0 := by simp [isZero]

/-- A numeral that is not zero denotes a number that is not zero. -/
theorem isZero_iff (known : a.Represents v) : a.isZero = true ↔ v = 0 := by
  cases a with
  | rational r =>
    rw [← (known : (r : ℝ) = v), Rat.cast_eq_zero]
    simp [isZero]
  | irrational x => exact iff_of_false Bool.false_ne_true (Represents.irrational known).ne_zero

/-- **Products are exact.** -/
theorem ensures_mul (first : a.Denotes bound v) (second : b.Denotes bound w)
    (cap : limits.maxDegree ≤ bound) :
    (a.mul b).Ensures limits fun n => n.Denotes bound (v * w) := by
  obtain ⟨left, small⟩ := first
  obtain ⟨right, small'⟩ := second
  unfold mul
  split
  · next zero =>
    rw [Bool.or_eq_true, isZero_iff left, isZero_iff right, ← mul_eq_zero] at zero
    exact ensures_pure (denotes_rational (Rat.cast_zero.trans zero.symm))
  · next nonzero =>
    rw [Bool.or_eq_true, not_or] at nonzero
    cases a with
    | rational r =>
      rw [← (left : (r : ℝ) = v)]
      cases b with
      | rational s =>
        rw [← (right : (s : ℝ) = w)]
        exact ensures_pure (denotes_rational (Rat.cast_mul r s))
      | irrational y =>
        have other := isZero_rational.mp nonzero.1
        rw [mul_comm]
        refine ensures_pure (denotes_irrational (represents_scale right other) ?_)
        rw [degree_scale right other]
        exact small'
    | irrational x =>
      cases b with
      | rational s =>
        have other := isZero_rational.mp nonzero.2
        rw [← (right : (s : ℝ) = w)]
        refine ensures_pure (denotes_irrational (represents_scale left other) ?_)
        rw [degree_scale left other]
        exact small
      | irrational y =>
        refine ensures_bind (ensures_checkDegree _) fun _ _ => ensures_resultantIn_bind ?_
        have root := Poly.eval_eliminant_product (degree_ne_zero left) (degree_ne_zero right)
          (Represents.isolates left).root (Represents.isolates right).root
        refine ensures_selectRoot (Both v w) root (fun _ => Both.refine)
          (fun operands range both holds => ?_) ⟨left, right⟩ cap
        exact holds.overlaps (both.1.holds.mul both.2.holds)

/-- **Reciprocals are exact**, and zero has none. -/
theorem ensures_inv (known : a.Denotes bound v) :
    a.inv.Ensures limits fun n => v ≠ 0 ∧ n.Denotes bound v⁻¹ := by
  obtain ⟨represents, bounded⟩ := known
  cases a with
  | rational r =>
    rw [← (represents : (r : ℝ) = v)]
    unfold inv
    dsimp only
    split
    · exact ensures_throw
    · next nonzero =>
      exact ensures_pure ⟨Rat.cast_ne_zero.mpr nonzero, denotes_rational (Rat.cast_inv r)⟩
  | irrational x =>
    unfold inv
    dsimp only
    split
    · exact ensures_throw
    · next range some =>
      have apart : x.separateZero.Represents v := Algebraic.Represents.refineWhile represents _ _
      have same : x.separateZero.degree = x.degree := congrArg Poly.degree (poly_refineWhile _ _ x)
      refine ensures_pure ⟨(Represents.irrational represents).ne_zero,
        denotes_irrational (represents_recip apart some) ?_⟩
      refine (Nat.cast_le.mpr (degree_recip_le apart)).trans ?_
      rw [same]
      exact bounded

/-- **Powers are exact.** -/
theorem ensures_power (known : a.Denotes bound v) (cap : limits.maxDegree ≤ bound) (k : ℕ) :
    (a.power k).Ensures limits fun n => n.Denotes bound (v ^ k) := by
  unfold power
  split
  · next zero =>
    rw [zero, pow_zero]
    exact ensures_pure (denotes_rational Rat.cast_one)
  · split
    · next one =>
      rw [one, pow_one]
      exact ensures_pure known
    · obtain ⟨represents, bounded⟩ := known
      cases a with
      | rational r =>
        rw [← (represents : (r : ℝ) = v)]
        dsimp only
        split
        · next value found =>
          rw [Rational.power?_natCast found]
          exact ensures_pure (denotes_rational (Rat.cast_pow r k))
        · exact ensures_throw
      | irrational x =>
        refine ensures_bind (ensures_checkDegree _) fun _ _ => ensures_resultantIn_bind ?_
        have root := Poly.eval_eliminant_power (degree_ne_zero represents)
          (Represents.isolates represents).root k
        refine ensures_selectRoot (Represents · v) root (fun _ => Represents.refine)
          (fun operand range holder holds => ?_) represents cap
        exact holds.overlaps (holder.holds.power k)

/-! ### Roots -/

/-- A real with a principal root has one: every real for an odd exponent, and every positive one. -/
theorem exists_principal_root {k : ℕ} (positive : k ≠ 0) (nonzero : v ≠ 0)
    (sign : k % 2 = 0 → 0 < v) : ∃ y, y ^ k = v ∧ (k % 2 = 0 → 0 < y) := by
  rcases lt_or_gt_of_ne nonzero with negative | above
  · have odd : Odd k := by
      rw [Nat.odd_iff]
      by_contra even
      exact negative.not_gt (sign (by omega))
    refine ⟨-(-v) ^ (k⁻¹ : ℝ), ?_, fun even => absurd (sign even) negative.not_gt⟩
    rw [odd.neg_pow, Real.rpow_inv_natCast_pow (neg_nonneg.mpr negative.le) positive, neg_neg]
  · exact ⟨v ^ (k⁻¹ : ℝ), Real.rpow_inv_natCast_pow above.le positive,
      fun _ => Real.rpow_pos_of_pos above _⟩

/-- The interval of the principal root is admitted. -/
theorem admitsRoot_of_holds {k : ℕ} {y : ℝ} {range : Interval} (known : a.Represents v)
    (power : y ^ k = v) (sign : k % 2 = 0 → 0 < y) (holds : range.Holds y) :
    admitsRoot k a range = true := by
  rw [admitsRoot, Bool.and_eq_true, Bool.or_eq_true, decide_eq_true_eq, decide_eq_true_eq]
  refine ⟨?_, ?_⟩
  · rcases Nat.mod_two_eq_zero_or_one k with even | odd
    · exact .inr (by exact_mod_cast (sign even).trans_le holds.2)
    · exact .inl odd
  · have image := holds.power k
    rw [power] at image
    exact image.overlaps known.holds

/-- The polynomial of the powers of a number vanishes at its roots. -/
theorem eval_monomial_sub {k : ℕ} {r : ℚ} {y : ℝ} (power : y ^ k = r) :
    ((Poly.monomial 1 k).sub (.constant r)).toReal.eval y = 0 := by
  rw [Poly.toReal, Poly.toPolynomial_sub, Poly.toPolynomial_monomial, Poly.toPolynomial_constant]
  simp [power]

theorem eval_substitutePower {x : Algebraic} {k : ℕ} {y : ℝ} (positive : k ≠ 0)
    (power : y ^ k = v) (root : x.poly.toReal.eval v = 0) :
    (x.poly.substitutePower k).toReal.eval y = 0 := by
  rw [Poly.toReal, Poly.toPolynomial_substitutePower _ positive, map_expand, expand_eval, power]
  exact root

/-- The principal root of a real other than zero, by selection from the roots of a polynomial that
vanishes at it. -/
theorem ensures_selectRoot_principal {q : Poly} {k : ℕ} (known : a.Represents v)
    (positive : k ≠ 0) (nonzero : v ≠ 0) (sign : k % 2 = 0 → 0 < v)
    (vanishes : ∀ y : ℝ, y ^ k = v → q.toReal.eval y = 0) (cap : limits.maxDegree ≤ bound) :
    (selectRoot q (admitsRoot k) refine a).Ensures limits fun n =>
      ∃ y, n.Denotes bound y ∧ y ^ k = v ∧ (k % 2 = 0 → 0 ≤ y) := by
  obtain ⟨y, power, above⟩ := exists_principal_root positive nonzero sign
  exact ensures_mono (ensures_selectRoot (Represents · v) (vanishes y power)
      (fun _ => Represents.refine)
      (fun operand range holder holds => admitsRoot_of_holds holder power above holds) known cap)
    fun n denoted => ⟨y, denoted, power, fun even => (above even).le⟩

/-- **Roots are exact**: the `k`-th power of the result is the radicand, and for even `k` the result
is not negative. -/
theorem ensures_root (known : a.Denotes bound v) (cap : limits.maxDegree ≤ bound) (k : ℕ) :
    (a.root k).Ensures limits fun n =>
      k ≠ 0 ∧ ∃ y, n.Denotes bound y ∧ y ^ k = v ∧ (k % 2 = 0 → 0 ≤ y) := by
  unfold root
  split
  · exact ensures_throw
  next positive =>
  split
  · next easy =>
    refine ensures_pure ⟨positive, v, known, ?_⟩
    rw [Bool.or_eq_true, decide_eq_true_eq, isZero_iff known.represents] at easy
    rcases easy with rfl | rfl
    · exact ⟨pow_one v, by simp⟩
    · exact ⟨zero_pow positive, fun _ => le_rfl⟩
  next hard =>
  rw [Bool.or_eq_true, not_or, decide_eq_true_eq, isZero_iff known.represents] at hard
  split
  · exact ensures_throw
  next real =>
  have sign (even : k % 2 = 0) : 0 < v := by
    rw [Bool.and_eq_true, decide_eq_true_eq, beq_iff_eq, known.represents.sign_eq,
      cmp_eq_lt_iff, not_and, not_lt] at real
    exact lt_of_le_of_ne (real even) (Ne.symm hard.2)
  obtain ⟨represents, bounded⟩ := known
  cases a with
  | rational r =>
    have same : (r : ℝ) = v := represents
    dsimp only
    split
    · next value found =>
      obtain ⟨power, above⟩ := Rational.root?_spec found
      refine ensures_pure ⟨positive, value, denotes_rational rfl, ?_, fun even => ?_⟩
      · rw [← Rat.cast_pow, power, same]
      · refine Rat.cast_nonneg.mpr (above ?_)
        rw [← Rat.cast_nonneg (K := ℝ), same]
        exact (sign even).le
    · refine ensures_bind (ensures_checkDegree _) fun _ _ => ?_
      exact ensures_mono (ensures_selectRoot_principal represents positive hard.2 sign
          (fun y power => eval_monomial_sub (power.trans same.symm)) cap)
        fun n denoted => ⟨positive, denoted⟩
  | irrational x =>
    refine ensures_bind (ensures_checkDegree _) fun _ _ => ?_
    have root := (Represents.isolates represents).root
    exact ensures_mono (ensures_selectRoot_principal represents positive hard.2 sign
        (fun y power => eval_substitutePower positive power root) cap)
      fun n denoted => ⟨positive, denoted⟩

end Stratagem.Numeral
