import Mathlib.NumberTheory.Real.Irrational
import Mathlib.Data.ENat.Basic
import Mathlib.Data.Finset.Sort
import Stratagem.Algebraic.Basic
import Stratagem.Proofs.Algebraic.Isolation
import Stratagem.Proofs.Polynomial.Substitution

/-!
# The number that a numeral denotes

A numeral denotes a rational or the root of its polynomial at its position (`Numeral.value`). What
the operations keep is that the polynomial is primitive and separable, that the interval isolates
the number, that the number is irrational and that the position is the number of lesser roots
(`Algebraic.Represents`). Refinement keeps all of it, since halving never meets an irrational
number.
-/
namespace Stratagem

open Polynomial

/-- The member of a sorted list with as many lesser members as its position says. -/
theorem getElem?_length_filter_lt {xs : List ℝ} (increasing : xs.Pairwise (· < ·)) {x : ℝ}
    (member : x ∈ xs) : xs[(xs.filter (· < x)).length]? = some x := by
  induction xs with
  | nil => cases member
  | cons y rest ih =>
    obtain ⟨above, later⟩ := List.pairwise_cons.mp increasing
    rcases List.mem_cons.mp member with rfl | inside
    · have none : (x :: rest).filter (· < x) = [] := by
        refine List.filter_eq_nil_iff.mpr fun y there => ?_
        rw [decide_eq_true_eq, not_lt]
        exact (List.mem_cons.mp there).elim Eq.ge fun later => (above y later).le
      rw [none]
      rfl
    · rw [List.filter_cons_of_pos (by simpa using above x inside), List.length_cons,
        List.getElem?_cons_succ]
      exact ih later inside

namespace Poly

/-- The root at a position among the real roots in increasing order, from zero. -/
noncomputable def rootAt (p : Poly) (k : ℕ) : ℝ := p.realRoots.sort.getD k 0

/-- A root is the one at the position that counts the lesser roots. -/
theorem rootAt_card {p : Poly} {x : ℝ} (member : x ∈ p.realRoots) :
    p.rootAt (p.realRoots.filter (· < x)).card = x := by
  have position : (p.realRoots.filter (· < x)).card = (p.realRoots.sort.filter (· < x)).length := by
    rw [← List.toFinset_card_of_nodup ((p.realRoots.sort_nodup _).filter _), List.toFinset_filter,
      Finset.sort_toFinset]
    simp
  rw [rootAt, position, List.getD_eq_getElem?_getD,
    getElem?_length_filter_lt p.realRoots.sortedLT_sort.pairwise (Finset.mem_sort _ |>.mpr member),
    Option.getD_some]

end Poly

namespace Algebraic

/-- The number is a certain irrational real, and its parts agree on it. -/
structure Represents (a : Algebraic) (x : ℝ) : Prop where
  /-- The roots of the polynomial are simple. -/
  separable : a.poly.toPolynomial.Separable
  /-- The polynomial has integer coefficients without a common divisor. -/
  primitive : a.poly.IsPrimitive
  /-- The interval holds the number and no other root. -/
  isolates : a.interval.Isolates a.poly x
  /-- The number is irrational. -/
  irrational : Irrational x
  /-- The position is the number of lesser roots. -/
  position : a.rootIndex = (a.poly.realRoots.filter (· < x)).card

variable {a b : Algebraic} {x y : ℝ} {p : Poly} {range : Interval}

theorem Represents.mem_realRoots (known : a.Represents x) : x ∈ a.poly.realRoots :=
  (Poly.mem_realRoots known.separable.ne_zero).mpr known.isolates.root

theorem Represents.rootAt_eq (known : a.Represents x) : a.poly.rootAt a.rootIndex = x := by
  rw [known.position]
  exact Poly.rootAt_card known.mem_realRoots

/-- A number whose position is counted from its interval. -/
theorem represents_of_isolates (separable : p.toPolynomial.Separable) (primitive : p.IsPrimitive)
    (isolates : range.Isolates p x) (irrational : Irrational x) :
    (⟨p, p.rootsBelow range.lo, range⟩ : Algebraic).Represents x :=
  ⟨separable, primitive, isolates, irrational, Poly.rootsBelow_lo separable isolates⟩

/-! ### Refinement -/

theorem poly_refine (a : Algebraic) : a.refine.poly = a.poly := by
  unfold refine
  dsimp only
  split <;> rfl

theorem rootIndex_refine (a : Algebraic) : a.refine.rootIndex = a.rootIndex := by
  unfold refine
  dsimp only
  split <;> rfl

theorem width_refine (a : Algebraic) : a.refine.interval.width = a.interval.width / 2 := by
  unfold refine
  dsimp only
  split
  · exact Interval.width_withLo_midpoint
  · exact Interval.width_withHi_midpoint

/-- Halving keeps the number. -/
theorem Represents.refine (known : a.Represents x) : a.refine.Represents x := by
  obtain ⟨low, high⟩ := Interval.midpoint_mem known.isolates.lo_lt_hi.le
  have nonzero : a.poly.eval a.interval.midpoint ≠ 0 :=
    known.isolates.eval_ne_zero low high (known.irrational.ne_rat _).symm
  have half := known.isolates.half known.separable nonzero
  have interval : a.refine.interval.Isolates a.poly x := by
    unfold Algebraic.refine
    dsimp only
    split
    · next same => rwa [if_pos same] at half
    · next changed => rwa [if_neg changed] at half
  constructor
  · rw [poly_refine]
    exact known.separable
  · rw [poly_refine]
    exact known.primitive
  · rw [poly_refine]
    exact interval
  · exact known.irrational
  · rw [poly_refine, rootIndex_refine]
    exact known.position

/-- The loop of halvings: it stops at the first number that is finished, or when the rounds are
used up. -/
theorem refineWhile_eq_iterate (unfinished : Algebraic → Bool) (rounds : ℕ) (a : Algebraic) :
    ∃ n ≤ rounds, a.refineWhile unfinished rounds = refine^[n] a ∧
      (∀ m < n, unfinished (refine^[m] a) = true) ∧
      (unfinished (refine^[n] a) = true → n = rounds) := by
  induction rounds generalizing a with
  | zero => exact ⟨0, le_rfl, rfl, by simp, fun _ => rfl⟩
  | succ rounds ih =>
    unfold refineWhile
    by_cases more : unfinished a = true
    · obtain ⟨n, within, same, before, after⟩ := ih a.refine
      refine ⟨n + 1, Nat.succ_le_succ within, ?_, fun m less => ?_, fun still => ?_⟩
      · rw [if_pos more, same, Function.iterate_succ_apply]
      · cases m with
        | zero => exact more
        | succ m =>
          rw [Function.iterate_succ_apply]
          exact before m (Nat.lt_of_succ_lt_succ less)
      · rw [Function.iterate_succ_apply] at still
        rw [after still]
    · exact ⟨0, Nat.zero_le _, if_neg more, by simp, fun still => absurd still more⟩

theorem Represents.iterate_refine (known : a.Represents x) (n : ℕ) :
    (Algebraic.refine^[n] a).Represents x := by
  induction n with
  | zero => exact known
  | succ n ih =>
    rw [Function.iterate_succ_apply']
    exact ih.refine

theorem width_iterate_refine (a : Algebraic) (n : ℕ) :
    (Algebraic.refine^[n] a).interval.width = a.interval.width / 2 ^ n := by
  induction n with
  | zero => simp
  | succ n ih => rw [Function.iterate_succ_apply', width_refine, ih, div_div, pow_succ]

theorem Represents.refineWhile (known : a.Represents x) (unfinished : Algebraic → Bool)
    (rounds : ℕ) : (a.refineWhile unfinished rounds).Represents x := by
  obtain ⟨n, -, same, -⟩ := refineWhile_eq_iterate unfinished rounds a
  rw [same]
  exact known.iterate_refine n

theorem poly_refineWhile (unfinished : Algebraic → Bool) (rounds : ℕ) (a : Algebraic) :
    (a.refineWhile unfinished rounds).poly = a.poly := by
  induction rounds generalizing a with
  | zero => rfl
  | succ rounds ih =>
    unfold Algebraic.refineWhile
    split
    · rw [ih, poly_refine]
    · rfl

/-! ### The sign -/

/-- An irrational root is further from zero than the reciprocal of the root bound of the reversed
polynomial. -/
theorem Represents.inv_rootBound_lt (known : a.Represents x) :
    ((a.poly.reverse.rootBound⁻¹ : ℚ) : ℝ) < |x| := by
  have nonzero : x ≠ 0 := known.irrational.ne_zero
  have root := (Poly.eval_toReal_reverse a.poly nonzero).mpr known.isolates.root
  have within := Poly.abs_lt_rootBound (Poly.toPolynomial_reverse_ne_zero known.separable.ne_zero)
    root
  rw [abs_inv] at within
  rw [Rat.cast_inv]
  exact inv_lt_of_inv_lt₀ (abs_pos.mpr nonzero) within

/-- An interval with zero in it is wider than the number is large. -/
theorem Represents.abs_lt_width (known : a.Represents x) (zero : a.interval.containsZero = true) :
    |x| < a.interval.width := by
  obtain ⟨low, high⟩ := Interval.containsZero_iff.mp zero
  have below : (a.interval.lo : ℝ) ≤ 0 := by exact_mod_cast low
  have above : (0 : ℝ) ≤ a.interval.hi := by exact_mod_cast high
  rw [Interval.width, Rat.cast_sub, abs_lt]
  constructor <;> linarith [known.isolates.lo_lt, known.isolates.lt_hi]

/-- The rounds suffice to move the interval off zero. -/
theorem Represents.separateZero (known : a.Represents x) :
    a.separateZero.interval.containsZero = false := by
  obtain ⟨n, -, same, -, last⟩ := refineWhile_eq_iterate (·.interval.containsZero)
    (Rational.halvings a.interval.width a.poly.reverse.rootBound⁻¹) a
  rw [Algebraic.separateZero, same, Bool.eq_false_iff]
  intro zero
  have wide := (known.iterate_refine n).abs_lt_width zero
  have positive : 0 < a.poly.reverse.rootBound⁻¹ :=
    inv_pos.mpr (zero_lt_one.trans_le (Poly.one_le_rootBound _))
  have narrow := Rational.div_two_pow_halvings_lt a.interval.width positive
  rw [width_iterate_refine, last zero] at wide
  have width : ((a.interval.width / 2 ^ Rational.halvings a.interval.width
      a.poly.reverse.rootBound⁻¹ : ℚ) : ℝ) < (a.poly.reverse.rootBound⁻¹ : ℚ) :=
    Rat.cast_lt.mpr narrow
  exact lt_irrefl _ ((wide.trans width).trans known.inv_rootBound_lt)

/-- An interval off zero lies on the side of the number. -/
theorem Represents.zero_lt_lo_iff (known : a.Represents x)
    (off : a.interval.containsZero = false) : 0 < a.interval.lo ↔ 0 < x := by
  rw [Bool.eq_false_iff, ne_eq, Interval.containsZero_iff, not_and_or, not_le, not_le] at off
  constructor
  · intro positive
    exact (Rat.cast_pos.mpr positive).trans known.isolates.lo_lt
  · intro positive
    refine off.resolve_right fun negative => ?_
    exact (known.isolates.lt_hi.trans (Rat.cast_lt_zero.mpr negative)).not_gt positive

theorem Represents.sign_eq (known : a.Represents x) : a.sign = cmp x 0 := by
  have off := known.separateZero
  have side := (known.refineWhile _ _ : a.separateZero.Represents x).zero_lt_lo_iff off
  by_cases positive : 0 < a.separateZero.interval.lo
  · rw [sign, if_pos positive, (cmp_eq_gt_iff x 0).mpr (side.mp positive)]
  · have below : x < 0 :=
      lt_of_le_of_ne (not_lt.mp (mt side.mpr positive)) known.irrational.ne_zero
    rw [sign, if_neg positive, (cmp_eq_lt_iff x 0).mpr below]

end Algebraic

namespace Numeral

/-- The real number that a numeral denotes. -/
noncomputable def value : Numeral → ℝ
  | rational r => r
  | irrational a => a.poly.rootAt a.rootIndex

/-- The numeral is a rational, or its parts agree on the irrational number. -/
def Represents : Numeral → ℝ → Prop
  | rational r, x => (r : ℝ) = x
  | irrational a, x => a.Represents x

theorem Represents.value_eq {n : Numeral} {x : ℝ} (known : n.Represents x) : n.value = x := by
  cases n with
  | rational r => exact known
  | irrational a => exact Algebraic.Represents.rootAt_eq known

theorem Represents.refine {n : Numeral} {x : ℝ} (known : n.Represents x) : n.refine.Represents x := by
  cases n with
  | rational r => exact known
  | irrational a => exact Algebraic.Represents.refine known

/-- The number lies in the interval of the numeral. -/
theorem Represents.holds {n : Numeral} {x : ℝ} (known : n.Represents x) : n.interval.Holds x := by
  cases n with
  | rational r =>
    rw [← (known : (r : ℝ) = x)]
    exact Interval.holds_point r
  | irrational a =>
    have isolates := Algebraic.Represents.isolates known
    exact ⟨isolates.lo_lt.le, isolates.lt_hi.le⟩

theorem Represents.sign_eq {n : Numeral} {x : ℝ} (known : n.Represents x) : n.sign = cmp x 0 := by
  cases n with
  | rational r =>
    have same := (Rat.cast_strictMono (K := ℝ)).cmp_map_eq r 0
    rw [Rat.cast_zero] at same
    rw [sign, Rational.sign, Rational.order_eq_cmp, ← (known : (r : ℝ) = x), same]
  | irrational a => exact Algebraic.Represents.sign_eq known

/-- The parts of the numeral agree on the number that it denotes. -/
def WellFormed (n : Numeral) : Prop := n.Represents n.value

/-- The degree of the polynomial of an irrational number. -/
def degree : Numeral → ℕ
  | rational _ => 0
  | irrational a => a.degree

/-- The numeral is a certain real, and its polynomial has a bounded degree. -/
structure Denotes (n : Numeral) (bound : ℕ∞) (x : ℝ) : Prop where
  /-- It is the real. -/
  represents : n.Represents x
  /-- The degree is bounded. -/
  bounded : n.degree ≤ bound

theorem Denotes.value_eq {n : Numeral} {bound : ℕ∞} {x : ℝ} (known : n.Denotes bound x) :
    n.value = x :=
  known.represents.value_eq

/-- A numeral denotes no other number than its value. -/
theorem Denotes.wellFormed {n : Numeral} {bound : ℕ∞} {x : ℝ} (known : n.Denotes bound x) :
    n.WellFormed := by
  rw [WellFormed, known.value_eq]
  exact known.represents

end Numeral
end Stratagem
