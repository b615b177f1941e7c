import Stratagem.Proofs.Algebraic.Selection

/-!
# Linear maps and reciprocals

The polynomial, the interval and the position of a sum with a rational, of a multiple, of the
opposite and of the reciprocal are those of the result. An increasing map keeps the position; the
others count it afresh.
-/
namespace Stratagem

open Polynomial

namespace Algebraic

variable {a : Algebraic} {x y z : ℝ} {range : Interval} {limits : Limits}

/-! ### Linear maps -/

section Linear

variable {c d : ℚ}

/-- The preimage of a number under a linear map. -/
theorem Represents.linear (known : a.Represents x) (range : Interval) (nonzero : c ≠ 0)
    (value : (c : ℝ) * z + d = x)
    (inside : ∀ y, (range.lo : ℝ) ≤ y → y ≤ range.hi →
      (a.interval.lo : ℝ) ≤ c * y + d ∧ (c : ℝ) * y + d ≤ a.interval.hi)
    (low : (range.lo : ℝ) < z) (high : z < (range.hi : ℝ)) :
    (⟨(a.poly.composeLinear c d).primitive,
      (a.poly.composeLinear c d).primitive.rootsBelow range.lo, range⟩ :
        Algebraic).Represents z := by
  have separable := Poly.separable_composeLinear (b := d) known.separable nonzero
  have roots (y : ℝ) : (a.poly.composeLinear c d).primitive.toReal.eval y = 0 ↔
      a.poly.toReal.eval (c * y + d) = 0 := by
    rw [Poly.eval_primitive_eq_zero_iff separable.ne_zero, Poly.eval_toReal_composeLinear]
  have injective : Function.Injective fun y : ℝ => (c : ℝ) * y + d := fun y y' same =>
    mul_left_cancel₀ (Rat.cast_ne_zero.mpr nonzero) (add_right_cancel same)
  refine represents_of_isolates (Poly.separable_primitive separable)
    (Poly.isPrimitive_primitive separable.ne_zero) ?_ ?_
  · refine known.isolates.preimage injective (fun y => (roots y).mp) inside value ?_ low high
    rw [roots, value]
    exact known.isolates.root
  · rintro ⟨r, rfl⟩
    refine known.irrational ⟨c * r + d, ?_⟩
    rw [← value]
    push_cast
    rfl

theorem Represents.degree_linear (known : a.Represents x) (nonzero : c ≠ 0) :
    (a.poly.composeLinear c d).primitive.degree = a.degree := by
  have separable := Poly.separable_composeLinear (b := d) known.separable nonzero
  rw [Poly.degree_primitive separable.ne_zero, Poly.degree_composeLinear nonzero, degree]

/-- An increasing linear map keeps the position of a root. -/
theorem Represents.position_linear (known : a.Represents x) (positive : 0 < c)
    (value : (c : ℝ) * z + d = x) :
    ((a.poly.composeLinear c d).primitive.realRoots.filter (· < z)).card = a.rootIndex := by
  have separable := Poly.separable_composeLinear (b := d) known.separable positive.ne'
  have factor : (0 : ℝ) < c := Rat.cast_pos.mpr positive
  have member (y : ℝ) : y ∈ (a.poly.composeLinear c d).primitive.realRoots.filter (· < z) ↔
      (c : ℝ) * y + d ∈ a.poly.realRoots.filter (· < x) := by
    rw [Finset.mem_filter, Finset.mem_filter, Poly.mem_realRoots known.separable.ne_zero,
      Poly.mem_realRoots (Poly.primitive_ne_zero separable.ne_zero),
      Poly.eval_primitive_eq_zero_iff separable.ne_zero, Poly.eval_toReal_composeLinear, ← value,
      add_lt_add_iff_right, mul_lt_mul_iff_right₀ factor]
  rw [known.position]
  refine Finset.card_bij' (fun y _ => (c : ℝ) * y + d) (fun y _ => (y - d) / c)
    (fun y here => (member y).mp here) (fun y here => (member _).mpr ?_) (fun y _ => ?_)
    (fun y _ => ?_)
  · rwa [mul_div_cancel₀ _ factor.ne', sub_add_cancel]
  · rw [add_sub_cancel_right, mul_div_cancel_left₀ _ factor.ne']
  · rw [mul_div_cancel₀ _ factor.ne', sub_add_cancel]

end Linear

theorem represents_neg (known : a.Represents x) : a.neg.Represents (-x) := by
  have low := known.isolates.lo_lt
  have high := known.isolates.lt_hi
  have result := known.linear (c := -1) (d := 0) (z := -x) a.interval.neg (by norm_num)
    (by push_cast; ring) (fun y above below => ?_) ?_ ?_
  · rw [← Poly.reflect_eq] at result
    exact result
  · simp only [Interval.neg, Rat.cast_neg] at above below
    push_cast
    constructor <;> linarith
  · rw [Interval.neg, Rat.cast_neg]
    exact neg_lt_neg high
  · rw [Interval.neg, Rat.cast_neg]
    exact neg_lt_neg low

theorem degree_neg (known : a.Represents x) : a.neg.degree = a.degree := by
  rw [← known.degree_linear (d := 0) (by norm_num : (-1 : ℚ) ≠ 0), ← Poly.reflect_eq]
  rfl

theorem represents_shift (known : a.Represents x) (r : ℚ) : (a.shift r).Represents (x + r) := by
  have low := known.isolates.lo_lt
  have high := known.isolates.lt_hi
  have value : ((1 : ℚ) : ℝ) * (x + r) + (-r : ℚ) = x := by
    push_cast
    ring
  have result := known.linear (a.interval.add (.point r)) one_ne_zero value
    (fun y above below => ?_) ?_ ?_
  · rw [shift, ← known.position_linear one_pos value, ← result.position]
    exact result
  · simp only [Interval.add, Interval.point, Rat.cast_add] at above below
    push_cast
    constructor <;> linarith
  · simp only [Interval.add, Interval.point, Rat.cast_add]
    linarith
  · simp only [Interval.add, Interval.point, Rat.cast_add]
    linarith

theorem degree_shift (known : a.Represents x) (r : ℚ) : (a.shift r).degree = a.degree :=
  known.degree_linear one_ne_zero

/-- The image of an interval under multiplication by a rational. -/
theorem interval_mul_point {r : ℚ} (ordered : range.lo ≤ range.hi) :
    range.mul (.point r) =
      if 0 ≤ r then ⟨range.lo * r, range.hi * r⟩ else ⟨range.hi * r, range.lo * r⟩ := by
  simp only [Interval.mul, Interval.point, List.foldl_cons, List.foldl_nil, Rational.least,
    Rational.greatest]
  rcases le_or_gt 0 r with sign | sign
  · have products := mul_le_mul_of_nonneg_right ordered sign
    simp [sign, products]
  · have products := mul_le_mul_of_nonpos_right ordered sign.le
    rw [if_neg sign.not_ge]
    rcases products.eq_or_lt with same | less
    · simp [same]
    · simp [less.not_ge]

theorem represents_scale (known : a.Represents x) {r : ℚ} (nonzero : r ≠ 0) :
    (a.scale r).Represents (x * r) := by
  have low := known.isolates.lo_lt
  have high := known.isolates.lt_hi
  have other : (r : ℝ) ≠ 0 := Rat.cast_ne_zero.mpr nonzero
  have value : ((r⁻¹ : ℚ) : ℝ) * (x * r) + (0 : ℚ) = x := by
    push_cast
    field_simp
    ring
  unfold scale
  dsimp only
  rw [interval_mul_point known.isolates.lo_lt_hi.le]
  rcases lt_or_gt_of_ne nonzero with negative | positive
  · have factor : (r : ℝ) < 0 := Rat.cast_lt_zero.mpr negative
    rw [if_neg negative.not_gt, if_neg negative.not_ge]
    refine known.linear _ (inv_ne_zero nonzero) value (fun y above below => ?_) ?_ ?_
    · push_cast at above below ⊢
      rw [add_zero, ← div_eq_inv_mul, le_div_iff_of_neg factor, div_le_iff_of_neg factor]
      exact ⟨below, above⟩
    · push_cast
      exact mul_lt_mul_of_neg_right high factor
    · push_cast
      exact mul_lt_mul_of_neg_right low factor
  · have factor : (0 : ℝ) < r := Rat.cast_pos.mpr positive
    rw [if_pos positive, if_pos positive.le]
    have result := known.linear ⟨a.interval.lo * r, a.interval.hi * r⟩ (inv_ne_zero nonzero) value
      (fun y above below => ?_) ?_ ?_
    · rw [← known.position_linear (inv_pos.mpr positive) value, ← result.position]
      exact result
    · push_cast at above below ⊢
      rw [add_zero, ← div_eq_inv_mul, le_div_iff₀ factor, div_le_iff₀ factor]
      exact ⟨above, below⟩
    · push_cast
      exact mul_lt_mul_of_pos_right low factor
    · push_cast
      exact mul_lt_mul_of_pos_right high factor

theorem degree_scale (known : a.Represents x) {r : ℚ} (nonzero : r ≠ 0) :
    (a.scale r).degree = a.degree :=
  known.degree_linear (inv_ne_zero nonzero)

/-! ### The reciprocal -/

/-- The reciprocals of the members of an interval off zero. -/
theorem recip_mem {lo hi : ℝ} (off : hi < 0 ∨ 0 < lo) (low : hi⁻¹ ≤ y) (high : y ≤ lo⁻¹)
    (ordered : lo ≤ hi) : lo ≤ y⁻¹ ∧ y⁻¹ ≤ hi := by
  rcases off with negative | positive
  · have below : lo < 0 := ordered.trans_lt negative
    have sign : y < 0 := high.trans_lt (inv_lt_zero.mpr below)
    exact ⟨(le_inv_of_neg sign below).mp high, (inv_le_of_neg negative sign).mp low⟩
  · have above : 0 < hi := positive.trans_le ordered
    have sign : 0 < y := (inv_pos.mpr above).trans_le low
    exact ⟨(le_inv_comm₀ sign positive).mp high, (inv_le_comm₀ above sign).mp low⟩

/-- The reciprocals at the ends of an interval around a number are on both sides of its
reciprocal. -/
theorem recip_lt {lo hi : ℝ} (off : hi < 0 ∨ 0 < lo) (low : lo < x) (high : x < hi) :
    hi⁻¹ < x⁻¹ ∧ x⁻¹ < lo⁻¹ := by
  rcases off with negative | positive
  · have sign := high.trans negative
    exact ⟨(inv_lt_inv_of_neg negative sign).mpr high,
      (inv_lt_inv_of_neg sign (low.trans sign)).mpr low⟩
  · have sign := positive.trans low
    exact ⟨inv_strictAnti₀ sign high, inv_strictAnti₀ positive low⟩

theorem represents_recip (known : a.Represents x) (some : a.interval.recip? = some range) :
    (⟨a.poly.reverse.primitive, a.poly.reverse.primitive.rootsBelow range.lo, range⟩ :
      Algebraic).Represents x⁻¹ := by
  have nonzero := known.irrational.ne_zero
  have reversed := Poly.toPolynomial_reverse_ne_zero known.separable.ne_zero
  obtain ⟨off, rfl⟩ : a.interval.containsZero = false ∧
      (⟨a.interval.hi⁻¹, a.interval.lo⁻¹⟩ : Interval) = range := by
    rw [Interval.recip?] at some
    split at some
    · cases some
    · next off => exact ⟨by simpa using off, Option.some.inj some⟩
  have ends : (a.interval.hi : ℝ) < 0 ∨ (0 : ℝ) < a.interval.lo := by
    rw [Bool.eq_false_iff, ne_eq, Interval.containsZero_iff, not_and_or, not_le, not_le] at off
    exact off.symm.imp Rat.cast_lt_zero.mpr Rat.cast_pos.mpr
  have roots (y : ℝ) (root : a.poly.reverse.primitive.toReal.eval y = 0) :
      a.poly.toReal.eval y⁻¹ = 0 := by
    rw [Poly.eval_primitive_eq_zero_iff reversed] at root
    have other : y ≠ 0 := by
      rintro rfl
      exact Poly.eval_zero_reverse_ne_zero known.separable.ne_zero root
    rwa [← Poly.eval_toReal_reverse _ (inv_ne_zero other), inv_inv]
  obtain ⟨low, high⟩ := recip_lt ends known.isolates.lo_lt known.isolates.lt_hi
  refine represents_of_isolates (Poly.separable_primitive (Poly.separable_reverse known.separable))
    (Poly.isPrimitive_primitive reversed) ?_ ?_
  · refine known.isolates.preimage inv_injective roots (fun y above below => ?_) (inv_inv x)
      ?_ ?_ ?_
    · rw [Rat.cast_inv] at above below
      exact recip_mem ends above below (by exact_mod_cast known.isolates.lo_lt_hi.le)
    · rw [Poly.eval_primitive_eq_zero_iff reversed, Poly.eval_toReal_reverse _ nonzero]
      exact known.isolates.root
    · rwa [Rat.cast_inv]
    · rwa [Rat.cast_inv]
  · exact irrational_inv_iff.mpr known.irrational

theorem degree_recip_le (known : a.Represents x) : a.poly.reverse.primitive.degree ≤ a.degree := by
  rw [Poly.degree_primitive (Poly.toPolynomial_reverse_ne_zero known.separable.ne_zero)]
  exact Poly.degree_reverse_le a.poly

end Algebraic
end Stratagem
