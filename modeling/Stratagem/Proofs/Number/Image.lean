import Mathlib.Algebra.Order.Ring.Abs
import Mathlib.Data.Real.Basic
import Mathlib.Tactic.Linarith
import Mathlib.Topology.Algebra.Monoid
import Mathlib.Topology.Instances.Real.Lemmas
import Mathlib.Topology.Order.IntermediateValue
import Stratagem.Number.Interval

/-!
# Images of intervals

The sum, the product and the powers of reals in given intervals lie in the interval that the
arithmetic of intervals computes (`Interval.Holds.add`, `Interval.Holds.mul`,
`Interval.Holds.power`).
-/
namespace Stratagem

theorem Rational.least_eq_min (s t : ℚ) : least s t = min s t := by rw [least, min_def]

theorem Rational.greatest_eq_max (s t : ℚ) : greatest s t = max s t := by rw [greatest, max_def]

namespace Interval

/-- The real lies in the interval. -/
def Holds (range : Interval) (x : ℝ) : Prop := (range.lo : ℝ) ≤ x ∧ x ≤ range.hi

variable {a b : Interval} {x y : ℝ}

theorem holds_point (r : ℚ) : (point r).Holds r := ⟨le_rfl, le_rfl⟩

theorem holds_lo (ordered : a.lo ≤ a.hi) : a.Holds a.lo := ⟨le_rfl, Rat.cast_le.mpr ordered⟩

theorem holds_hi (ordered : a.lo ≤ a.hi) : a.Holds a.hi := ⟨Rat.cast_le.mpr ordered, le_rfl⟩

theorem Holds.lo_le_hi (known : a.Holds x) : a.lo ≤ a.hi := by
  exact_mod_cast known.1.trans known.2

/-- Intervals with a common member meet. -/
theorem Holds.overlaps (first : a.Holds x) (second : b.Holds x) : a.overlaps b = true := by
  rw [Interval.overlaps, Bool.and_eq_true, decide_eq_true_eq, decide_eq_true_eq]
  exact ⟨by exact_mod_cast first.1.trans second.2, by exact_mod_cast second.1.trans first.2⟩

theorem containsZero_iff : a.containsZero = true ↔ a.lo ≤ 0 ∧ 0 ≤ a.hi := by
  rw [containsZero, Bool.and_eq_true, decide_eq_true_eq, decide_eq_true_eq]

theorem hull_eq (a b : Interval) : a.hull b = ⟨min a.lo b.lo, max a.hi b.hi⟩ := by
  rw [hull, Rational.least_eq_min, Rational.greatest_eq_max]

/-- The members of an interval are in every hull of it. -/
theorem Holds.hull (known : a.Holds x) (b : Interval) : (a.hull b).Holds x := by
  rw [hull_eq]
  exact ⟨(Rat.cast_le.mpr (min_le_left _ _)).trans known.1,
    known.2.trans (Rat.cast_le.mpr (le_max_left _ _))⟩

theorem Holds.add (first : a.Holds x) (second : b.Holds y) : (a.add b).Holds (x + y) := by
  simp only [Holds, Interval.add, Rat.cast_add]
  exact ⟨add_le_add first.1 second.1, add_le_add first.2 second.2⟩

/-! ### Products -/

/-- A lower bound of a multiple at both ends is one in between. -/
theorem le_mul_of_ends {least lo hi : ℝ} (low : lo ≤ y) (high : y ≤ hi) (first : least ≤ x * lo)
    (second : least ≤ x * hi) : least ≤ x * y := by
  rcases le_total 0 x with positive | negative
  · exact first.trans (mul_le_mul_of_nonneg_left low positive)
  · exact second.trans (mul_le_mul_of_nonpos_left high negative)

/-- A lower bound of the products of ends is one of all products. -/
theorem Holds.le_mul (first : a.Holds x) (second : b.Holds y) {least : ℚ}
    (corners : least ≤ a.lo * b.lo ∧ least ≤ a.lo * b.hi ∧ least ≤ a.hi * b.lo ∧
      least ≤ a.hi * b.hi) : (least : ℝ) ≤ x * y := by
  obtain ⟨one, two, three, four⟩ := corners
  have edge {t : ℚ} (left : least ≤ a.lo * t) (right : least ≤ a.hi * t) : (least : ℝ) ≤ x * t := by
    rw [mul_comm]
    refine le_mul_of_ends first.1 first.2 ?_ ?_
    · rw [mul_comm]
      exact_mod_cast left
    · rw [mul_comm]
      exact_mod_cast right
  exact le_mul_of_ends second.1 second.2 (edge one three) (edge two four)

theorem Holds.neg (known : a.Holds x) : a.neg.Holds (-x) := by
  simp only [Holds, Interval.neg, Rat.cast_neg, neg_le_neg_iff]
  exact known.symm

theorem Holds.mul (first : a.Holds x) (second : b.Holds y) : (a.mul b).Holds (x * y) := by
  simp only [Interval.mul, List.foldl_cons, List.foldl_nil, Rational.least_eq_min,
    Rational.greatest_eq_max]
  constructor
  · refine first.le_mul second ⟨?_, ?_, ?_, ?_⟩ <;> simp
  · have negated : ((-max (max (max (a.lo * b.lo) (a.lo * b.hi)) (a.hi * b.lo)) (a.hi * b.hi) : ℚ) :
        ℝ) ≤ -x * y := by
      refine first.neg.le_mul second ⟨?_, ?_, ?_, ?_⟩ <;> simp [Interval.neg]
    rw [neg_mul, Rat.cast_neg] at negated
    exact neg_le_neg_iff.mp negated

/-! ### Powers -/

theorem holds_between {lo hi : ℚ} (low : (lo : ℝ) ≤ x) (high : x ≤ hi) : (between lo hi).Holds x := by
  rw [between, if_pos (by exact_mod_cast low.trans high)]
  exact ⟨low, high⟩

theorem Holds.power (known : a.Holds x) (k : ℕ) : (a.power k).Holds (x ^ k) := by
  obtain ⟨low, high⟩ := known
  unfold Interval.power Rational.power
  split
  · next zero =>
    rw [zero, pow_zero]
    exact_mod_cast holds_point 1
  · dsimp only
    split
    · next rising =>
      refine holds_between ?_ ?_
      · rw [Rat.cast_pow]
        rcases rising with odd | positive
        · exact (Nat.odd_iff.mpr odd).strictMono_pow.monotone low
        · exact pow_le_pow_left₀ (by exact_mod_cast positive) low k
      · rw [Rat.cast_pow]
        rcases rising with odd | positive
        · exact (Nat.odd_iff.mpr odd).strictMono_pow.monotone high
        · exact pow_le_pow_left₀ ((Rat.cast_nonneg.mpr positive).trans low) high k
    · next falling =>
      have even : Even k := by
        rw [← Nat.not_odd_iff_even, Nat.odd_iff]
        exact fun odd => falling (.inl odd)
      split
      · next negative =>
        have below : (a.hi : ℝ) ≤ 0 := by exact_mod_cast negative
        refine holds_between ?_ ?_
        · rw [Rat.cast_pow, ← even.neg_pow, ← even.neg_pow x]
          exact pow_le_pow_left₀ (neg_nonneg.mpr below) (neg_le_neg high) k
        · rw [Rat.cast_pow, ← even.neg_pow, ← even.neg_pow (a.lo : ℝ)]
          exact pow_le_pow_left₀ (neg_nonneg.mpr (high.trans below)) (neg_le_neg low) k
      · refine ⟨(Rat.cast_zero (α := ℝ)).le.trans (even.pow_nonneg x), ?_⟩
        rw [Rational.greatest_eq_max, Rat.cast_max, Rat.cast_pow, Rat.cast_pow, le_max_iff]
        rcases le_total 0 x with positive | negative
        · exact .inr (pow_le_pow_left₀ positive high k)
        · left
          rw [← even.neg_pow, ← even.neg_pow (a.lo : ℝ)]
          exact pow_le_pow_left₀ (neg_nonneg.mpr negative) (neg_le_neg low) k

/-- The ends of a power are powers of members. -/
theorem exists_power_eq (ordered : a.lo ≤ a.hi) (k : ℕ) :
    ∃ s t : ℚ, a.Holds s ∧ a.Holds t ∧ (a.power k).lo = s ^ k ∧
      (a.power k).hi = t ^ k := by
  have first := holds_lo ordered
  have last := holds_hi ordered
  have between (s t : ℚ) (left : a.Holds s) (right : a.Holds t) :
      ∃ s' t' : ℚ, a.Holds s' ∧ a.Holds t' ∧
        (Interval.between (s ^ k) (t ^ k)).lo = s' ^ k ∧
        (Interval.between (s ^ k) (t ^ k)).hi = t' ^ k := by
    unfold Interval.between
    split
    · exact ⟨s, t, left, right, rfl, rfl⟩
    · exact ⟨t, s, right, left, rfl, rfl⟩
  unfold Interval.power Rational.power
  split
  · next zero =>
    rw [zero]
    exact ⟨a.lo, a.lo, first, first, (pow_zero _).symm, (pow_zero _).symm⟩
  next positive =>
  dsimp only
  split
  · exact between _ _ first last
  next falling =>
  split
  · exact between _ _ last first
  next rising =>
  rw [not_or, not_le] at falling
  have zero : a.Holds (0 : ℚ) :=
    ⟨Rat.cast_le.mpr falling.2.le, Rat.cast_le.mpr (not_le.mp rising).le⟩
  unfold Rational.greatest
  split
  · exact ⟨0, a.hi, zero, last, (zero_pow positive).symm, rfl⟩
  · exact ⟨0, a.lo, zero, first, (zero_pow positive).symm, rfl⟩

end Interval

/-!
## The arithmetic of intervals is exact

Every real of a computed interval is the result for members of the operands: a continuous operation
takes the operands, which are connected, onto everything between two of its values, and the ends of
the computed interval are such values (`Interval.spans_image`). With the enclosures this makes sums,
negations, products, reciprocals and powers of intervals the exact images
(`Interval.arithmetic_exact`).
-/

namespace Interval

/-- The reals in an interval. -/
def members (a : Interval) : Set ℝ := {x | a.Holds x}

/-- The interval has its ends in order and holds exactly these reals. -/
structure Spans (range : Interval) (reals : Set ℝ) : Prop where
  /-- The lower end is not above the upper one. -/
  ordered : range.lo ≤ range.hi
  /-- The reals in it are the given ones. -/
  exact : range.members = reals

variable {a b range : Interval}

theorem mem_members {x : ℝ} : x ∈ a.members ↔ a.Holds x := Iff.rfl

theorem members_eq_Icc (a : Interval) : a.members = Set.Icc (a.lo : ℝ) a.hi := rfl

theorem isPreconnected_members (a : Interval) : IsPreconnected a.members := isPreconnected_Icc

/-- An interval that holds the values of a continuous function on a connected set, and the ends of
which are such values, holds nothing else. -/
theorem spans_image {α : Type*} [TopologicalSpace α] {s : Set α} (connected : IsPreconnected s)
    {f : α → ℝ} (continuous : ContinuousOn f s) (encloses : ∀ x ∈ s, range.Holds (f x))
    (low : ∃ x ∈ s, f x = range.lo) (high : ∃ x ∈ s, f x = range.hi) : range.Spans (f '' s) := by
  obtain ⟨x, member, value⟩ := low
  refine ⟨(encloses x member).lo_le_hi, Set.Subset.antisymm ?_ ?_⟩
  · exact (connected.image f continuous).Icc_subset ⟨x, member, value⟩ high
  · rintro _ ⟨y, inside, rfl⟩
    exact encloses y inside

/-- A continuous operation on two intervals. -/
theorem spans_image2 {f : ℝ → ℝ → ℝ} (continuous : Continuous fun p : ℝ × ℝ => f p.1 p.2)
    (encloses : ∀ x y, a.Holds x → b.Holds y → range.Holds (f x y))
    (low : ∃ x y, a.Holds x ∧ b.Holds y ∧ f x y = range.lo)
    (high : ∃ x y, a.Holds x ∧ b.Holds y ∧ f x y = range.hi) :
    range.Spans (Set.image2 f a.members b.members) := by
  have corner (z : ℝ) (attained : ∃ x y, a.Holds x ∧ b.Holds y ∧ f x y = z) :
      ∃ p ∈ a.members ×ˢ b.members, f p.1 p.2 = z := by
    obtain ⟨x, y, first, second, value⟩ := attained
    exact ⟨(x, y), ⟨first, second⟩, value⟩
  rw [← Set.image_prod]
  exact spans_image (a.isPreconnected_members.prod b.isPreconnected_members) continuous.continuousOn
    (fun p inside => encloses p.1 p.2 inside.1 inside.2) (corner _ low) (corner _ high)

/-! ### Sums and products -/

theorem spans_add (first : a.lo ≤ a.hi) (second : b.lo ≤ b.hi) :
    (a.add b).Spans (Set.image2 (· + ·) a.members b.members) := by
  refine spans_image2 (by fun_prop) (fun x y => Holds.add) ?_ ?_
  · exact ⟨a.lo, b.lo, holds_lo first, holds_lo second, (Rat.cast_add ..).symm⟩
  · exact ⟨a.hi, b.hi, holds_hi first, holds_hi second, (Rat.cast_add ..).symm⟩

theorem spans_neg (ordered : a.lo ≤ a.hi) : a.neg.Spans ((- ·) '' a.members) := by
  refine spans_image a.isPreconnected_members (by fun_prop) (fun x => Holds.neg) ?_ ?_
  · exact ⟨a.hi, holds_hi ordered, (Rat.cast_neg _).symm⟩
  · exact ⟨a.lo, holds_lo ordered, (Rat.cast_neg _).symm⟩

/-- The least and the greatest of a list are in it. -/
theorem foldl_mem {choose : ℚ → ℚ → ℚ} (either : ∀ s t, choose s t = s ∨ choose s t = t)
    (start : ℚ) (rest : List ℚ) : rest.foldl choose start ∈ start :: rest := by
  induction rest generalizing start with
  | nil => exact List.mem_singleton.mpr rfl
  | cons next rest ih =>
    rw [List.foldl_cons]
    rcases List.mem_cons.mp (ih (choose start next)) with same | later
    · rw [same]
      rcases either start next with kept | taken
      · rw [kept]
        exact List.mem_cons_self
      · rw [taken]
        exact List.mem_cons_of_mem _ List.mem_cons_self
    · exact List.mem_cons_of_mem _ (List.mem_cons_of_mem _ later)

/-- The ends of a product are products of ends. -/
theorem exists_mul_eq (first : a.lo ≤ a.hi) (second : b.lo ≤ b.hi) (choose : ℚ → ℚ → ℚ)
    (either : ∀ s t, choose s t = s ∨ choose s t = t) :
    ∃ x y, a.Holds x ∧ b.Holds y ∧ x * y =
      (([a.lo * b.hi, a.hi * b.lo, a.hi * b.hi].foldl choose (a.lo * b.lo) : ℚ) : ℝ) := by
  have corner := foldl_mem either (a.lo * b.lo) [a.lo * b.hi, a.hi * b.lo, a.hi * b.hi]
  generalize List.foldl _ _ _ = chosen at corner ⊢
  simp only [List.mem_cons, List.not_mem_nil, or_false] at corner
  rcases corner with rfl | rfl | rfl | rfl
  · exact ⟨a.lo, b.lo, holds_lo first, holds_lo second, (Rat.cast_mul ..).symm⟩
  · exact ⟨a.lo, b.hi, holds_lo first, holds_hi second, (Rat.cast_mul ..).symm⟩
  · exact ⟨a.hi, b.lo, holds_hi first, holds_lo second, (Rat.cast_mul ..).symm⟩
  · exact ⟨a.hi, b.hi, holds_hi first, holds_hi second, (Rat.cast_mul ..).symm⟩

theorem spans_mul (first : a.lo ≤ a.hi) (second : b.lo ≤ b.hi) :
    (a.mul b).Spans (Set.image2 (· * ·) a.members b.members) := by
  refine spans_image2 (by fun_prop) (fun x y => Holds.mul) ?_ ?_
  · refine exists_mul_eq first second Rational.least fun s t => ?_
    rw [Rational.least_eq_min]
    exact min_choice s t
  · refine exists_mul_eq first second Rational.greatest fun s t => ?_
    rw [Rational.greatest_eq_max]
    exact max_choice s t

/-! ### Reciprocals and powers -/

theorem recip?_eq_none_iff : a.recip? = none ↔ (0 : ℝ) ∈ a.members := by
  rw [recip?, mem_members, Holds, ← Rat.cast_zero, Rat.cast_le, Rat.cast_le, ← containsZero_iff]
  cases a.containsZero <;> simp

theorem spans_recip (ordered : a.lo ≤ a.hi) (found : a.recip? = some range) :
    range.Spans ((·⁻¹) '' a.members) := by
  have off : (0 : ℝ) ∉ a.members := by
    rw [← recip?_eq_none_iff, found]
    exact Option.some_ne_none range
  obtain rfl : (⟨a.hi⁻¹, a.lo⁻¹⟩ : Interval) = range := by
    unfold recip? at found
    split at found
    · cases found
    · exact Option.some.inj found
  have nonzero : ∀ x ∈ a.members, x ≠ 0 := fun x inside zero => off (zero ▸ inside)
  refine spans_image a.isPreconnected_members (continuousOn_inv₀.mono nonzero)
    (fun x inside => ?_) ?_ ?_
  · have sides : (a.hi : ℝ) < 0 ∨ (0 : ℝ) < a.lo := by
      by_contra! both
      exact off ⟨both.2, both.1⟩
    simp only [Holds, Rat.cast_inv]
    rcases sides with negative | positive
    · have below := inside.2.trans_lt negative
      exact ⟨(inv_le_inv_of_neg negative below).mpr inside.2,
        (inv_le_inv_of_neg below (inside.1.trans_lt below)).mpr inside.1⟩
    · have above := positive.trans_le inside.1
      exact ⟨inv_anti₀ above inside.2, inv_anti₀ positive inside.1⟩
  · exact ⟨a.hi, holds_hi ordered, (Rat.cast_inv _).symm⟩
  · exact ⟨a.lo, holds_lo ordered, (Rat.cast_inv _).symm⟩

theorem spans_power (ordered : a.lo ≤ a.hi) (k : ℕ) : (a.power k).Spans ((· ^ k) '' a.members) := by
  obtain ⟨s, t, first, last, low, high⟩ := exists_power_eq ordered k
  refine spans_image a.isPreconnected_members (by fun_prop) (fun x inside => inside.power k) ?_ ?_
  · exact ⟨s, first, by rw [low, Rat.cast_pow]⟩
  · exact ⟨t, last, by rw [high, Rat.cast_pow]⟩

/-! ### Hulls and intersections -/

/-- The hull is the least convex set of reals with both intervals in it. -/
theorem isLeast_hull (first : a.lo ≤ a.hi) (second : b.lo ≤ b.hi) :
    IsLeast {s : Set ℝ | s.OrdConnected ∧ a.members ⊆ s ∧ b.members ⊆ s} (a.hull b).members := by
  refine ⟨⟨Set.ordConnected_Icc, fun x => (Holds.hull · b), fun x inside => ?_⟩, ?_⟩
  · rw [hull_eq, min_comm, max_comm, ← hull_eq]
    exact Holds.hull inside a
  · rintro s ⟨convex, left, right⟩
    refine convex.out ?_ ?_
    · rw [hull_eq]
      rcases min_choice a.lo b.lo with same | same <;> simp only [same]
      · exact left (holds_lo first)
      · exact right (holds_lo second)
    · rw [hull_eq]
      rcases max_choice a.hi b.hi with same | same <;> simp only [same]
      · exact left (holds_hi first)
      · exact right (holds_hi second)

theorem overlaps_iff (first : a.lo ≤ a.hi) (second : b.lo ≤ b.hi) :
    a.overlaps b = true ↔ (a.members ∩ b.members).Nonempty := by
  rw [members_eq_Icc, members_eq_Icc, Set.Icc_inter_Icc, Set.nonempty_Icc, overlaps,
    Bool.and_eq_true, decide_eq_true_eq, decide_eq_true_eq, sup_le_iff, le_inf_iff, le_inf_iff]
  norm_cast
  tauto

/-- **The arithmetic of intervals is exact**: for operands with their ends in order every operation
gives an interval with its ends in order that holds the results for members of the operands and
nothing else. There is no reciprocal just when zero is a member, the hull is the least convex set
around both operands, and they overlap just when they have a member in common. -/
theorem arithmetic_exact (first : a.lo ≤ a.hi) (second : b.lo ≤ b.hi) :
    (a.add b).Spans (Set.image2 (· + ·) a.members b.members) ∧
    a.neg.Spans ((- ·) '' a.members) ∧
    (a.mul b).Spans (Set.image2 (· * ·) a.members b.members) ∧
    (a.recip? = none ↔ (0 : ℝ) ∈ a.members) ∧
    (∀ range, a.recip? = some range → range.Spans ((·⁻¹) '' a.members)) ∧
    (∀ k : ℕ, (a.power k).Spans ((· ^ k) '' a.members)) ∧
    ((a.hull b).lo ≤ (a.hull b).hi ∧
      IsLeast {s : Set ℝ | s.OrdConnected ∧ a.members ⊆ s ∧ b.members ⊆ s} (a.hull b).members) ∧
    (a.overlaps b = true ↔ (a.members ∩ b.members).Nonempty) :=
  ⟨spans_add first second, spans_neg first, spans_mul first second, recip?_eq_none_iff,
    fun _ => spans_recip first, spans_power first,
    ⟨((holds_lo first).hull b).lo_le_hi, isLeast_hull first second⟩, overlaps_iff first second⟩

/-- An operand with zero inside: the product takes its ends from two different corners, the square
reaches down to zero, and there is no reciprocal. -/
theorem arithmetic_exact_case :
    let a : Interval := ⟨-3, 2⟩
    let b : Interval := ⟨1 / 2, 4⟩
    a.lo ≤ a.hi ∧ b.lo ≤ b.hi ∧
    (⟨-12, 8⟩ : Interval).Spans (Set.image2 (· * ·) a.members b.members) ∧
    (⟨0, 9⟩ : Interval).Spans ((· ^ 2) '' a.members) ∧ a.recip? = none ∧ (0 : ℝ) ∈ a.members := by
  intro a b
  have first : a.lo ≤ a.hi := by decide +kernel
  have second : b.lo ≤ b.hi := by decide +kernel
  have product : a.mul b = ⟨-12, 8⟩ := by decide +kernel
  have square : a.power 2 = ⟨0, 9⟩ := by decide +kernel
  have refused : a.recip? = none := by decide +kernel
  obtain ⟨-, -, products, zero, -, powers, -⟩ := arithmetic_exact first second
  exact ⟨first, second, product ▸ products, square ▸ powers 2, refused, zero.mp refused⟩

end Interval
end Stratagem
