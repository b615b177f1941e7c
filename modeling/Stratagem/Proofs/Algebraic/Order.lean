import Stratagem.Proofs.Algebraic.Reachable

/-!
# Order, sign and integral part

Comparison, sign and integral part of well-formed numerals are those of the numbers they denote
(`Numeral.order_exact`). Two irrational numbers are found equal through the greatest common divisor
of their polynomials: a root of it is the number in every interval that isolates the number, and an
interval around both numbers with one root of it has both at that root.
-/
namespace Stratagem.Numeral

open Stratagem.Algebraic Stratagem.Algebraic.Compute Polynomial

variable {x y : Algebraic} {v w : ℝ} {limits : Algebraic.Limits}

/-! ### Comparison with a rational -/

theorem ensures_compareRationalFrom (known : x.Represents v) (r : ℚ) (rounds : ℕ) :
    (compareRationalFrom r rounds x).Ensures limits fun o => o = cmp v r := by
  induction rounds generalizing x with
  | zero => exact ensures_outOfRounds
  | succ rounds ih =>
    rw [compareRationalFrom]
    by_cases below : r < x.interval.lo
    · rw [if_pos below]
      exact ensures_pure
        ((cmp_eq_gt_iff v r).mpr ((Rat.cast_lt.mpr below).trans known.isolates.lo_lt)).symm
    rw [if_neg below]
    by_cases above : x.interval.hi < r
    · rw [if_pos above]
      exact ensures_pure
        ((cmp_eq_lt_iff v r).mpr (known.isolates.lt_hi.trans (Rat.cast_lt.mpr above))).symm
    rw [if_neg above]
    exact ih known.refine

/-! ### Comparison of irrational numbers -/

/-- A root of a divisor in an isolating interval is the number. -/
theorem root_of_countRoots {g : Poly} (separable : g.toPolynomial.Separable)
    (divides : g.toPolynomial ∣ x.poly.toPolynomial) (known : x.Represents v)
    (single : Poly.countRoots g.sturm x.interval.lo x.interval.hi = 1) : g.toReal.eval v = 0 := by
  rw [Poly.countRoots_sturm separable known.isolates.lo_lt_hi.le] at single
  obtain ⟨z, only⟩ := Finset.card_eq_one.mp single
  obtain ⟨member, low, high⟩ := Finset.mem_filter.mp (only ▸ Finset.mem_singleton_self z)
  have root := (Poly.mem_realRoots separable.ne_zero).mp member
  have shared : x.poly.toReal.eval z = 0 :=
    eval_eq_zero_of_dvd_of_eval_eq_zero (Polynomial.map_dvd (algebraMap ℚ ℝ) divides) root
  rwa [← known.isolates.unique z shared low.le high]

/-- Two roots in an interval with one root are equal. -/
theorem eq_of_countRoots {g : Poly} (separable : g.toPolynomial.Separable) {lo hi : ℚ}
    (ordered : lo ≤ hi) (single : Poly.countRoots g.sturm lo hi = 1) (first : g.toReal.eval v = 0)
    (second : g.toReal.eval w = 0) (low : (lo : ℝ) < v) (high : v ≤ hi) (low' : (lo : ℝ) < w)
    (high' : w ≤ hi) : v = w := by
  rw [Poly.countRoots_sturm separable ordered] at single
  refine Finset.card_le_one.mp single.le v ?_ w ?_
  · rw [Finset.mem_filter, Poly.mem_realRoots separable.ne_zero]
    exact ⟨first, low, high⟩
  · rw [Finset.mem_filter, Poly.mem_realRoots separable.ne_zero]
    exact ⟨second, low', high'⟩

/-- The refinement of two numbers ends with their order. -/
theorem ensures_compareFrom {g : Poly} (separable : g.toPolynomial.Separable) {shared : Bool}
    (roots : shared = true → g.toReal.eval v = 0 ∧ g.toReal.eval w = 0) (rounds : ℕ)
    (first : x.Represents v) (second : y.Represents w) :
    (compareFrom shared g.sturm rounds x y).Ensures limits fun o => o = cmp v w := by
  induction rounds generalizing x y with
  | zero => exact ensures_outOfRounds
  | succ rounds ih =>
    rw [compareFrom]
    by_cases apart : x.interval.hi < y.interval.lo
    · rw [if_pos apart]
      refine ensures_pure ((cmp_eq_lt_iff v w).mpr ?_).symm
      exact (first.isolates.lt_hi.trans (Rat.cast_lt.mpr apart)).trans second.isolates.lo_lt
    rw [if_neg apart]
    by_cases apart : y.interval.hi < x.interval.lo
    · rw [if_pos apart]
      refine ensures_pure ((cmp_eq_gt_iff v w).mpr ?_).symm
      exact (second.isolates.lt_hi.trans (Rat.cast_lt.mpr apart)).trans first.isolates.lo_lt
    rw [if_neg apart, Interval.hull_eq]
    by_cases met : (shared && Poly.countRoots g.sturm (min x.interval.lo y.interval.lo)
      (max x.interval.hi y.interval.hi) == 1) = true
    · rw [if_pos met]
      rw [Bool.and_eq_true, beq_iff_eq] at met
      obtain ⟨known, single⟩ := met
      obtain ⟨here, there⟩ := roots known
      have ordered : min x.interval.lo y.interval.lo ≤ max x.interval.hi y.interval.hi :=
        (min_le_left _ _).trans (first.isolates.lo_lt_hi.le.trans (le_max_left _ _))
      refine ensures_pure ((cmp_eq_eq_iff v w).mpr
        (eq_of_countRoots separable ordered single here there ?_ ?_ ?_ ?_)).symm
      · exact (Rat.cast_le.mpr (min_le_left _ _)).trans_lt first.isolates.lo_lt
      · exact first.isolates.lt_hi.le.trans (Rat.cast_le.mpr (le_max_left _ _))
      · exact (Rat.cast_le.mpr (min_le_right _ _)).trans_lt second.isolates.lo_lt
      · exact second.isolates.lt_hi.le.trans (Rat.cast_le.mpr (le_max_right _ _))
    rw [if_neg met]
    exact ih first.refine second.refine

theorem ensures_compareIrrational (first : x.Represents v) (second : y.Represents w) :
    (compareIrrational x y).Ensures limits fun o => o = cmp v w := by
  rw [compareIrrational]
  by_cases same : x.sameRoot y = true
  · rw [if_pos same]
    rw [Algebraic.sameRoot, Bool.and_eq_true, beq_iff_eq, beq_iff_eq] at same
    refine ensures_pure ((cmp_eq_eq_iff v w).mpr ?_).symm
    rw [← first.rootAt_eq, ← second.rootAt_eq, same.1, same.2]
  · rw [if_neg same]
    refine ensures_count_bind (ensures_read_bind ?_)
    have separable := first.separable.of_dvd (Poly.gcd_dvd_left _ y.poly)
    refine ensures_compareFrom separable (fun shared => ?_) _ first second
    rw [Bool.and_eq_true, Bool.and_eq_true, beq_iff_eq, beq_iff_eq] at shared
    exact ⟨root_of_countRoots separable (Poly.gcd_dvd_left _ _) first shared.1.2,
      root_of_countRoots separable (Poly.gcd_dvd_right _ _) second shared.2⟩

/-- Whatever a comparison returns is the order of the numbers. -/
theorem ensures_compare {a b : Numeral} (first : a.WellFormed) (second : b.WellFormed) :
    (a.compare b).Ensures limits fun o => o = cmp a.value b.value := by
  cases a with
  | rational r =>
    cases b with
    | rational s =>
      refine ensures_pure ?_
      rw [Rational.order_eq_cmp, value, value]
      exact (Rat.cast_strictMono.cmp_map_eq r s).symm
    | irrational y =>
      refine ensures_bind (ensures_read_bind (ensures_compareRationalFrom second r _))
        fun o same => ensures_pure ?_
      rw [same, cmp_swap]
      rfl
  | irrational x =>
    cases b with
    | rational s => exact ensures_read_bind (ensures_compareRationalFrom first s _)
    | irrational y => exact ensures_compareIrrational first second

/-! ### The integral part -/

theorem ensures_floorFrom (known : x.Represents v) (rounds : ℕ) :
    (floorFrom rounds x).Ensures limits fun n => n = ⌊v⌋ := by
  induction rounds generalizing x with
  | zero => exact ensures_outOfRounds
  | succ rounds ih =>
    unfold floorFrom
    split
    · next same =>
      refine ensures_pure (Int.floor_eq_iff.mpr ⟨?_, ?_⟩).symm
      · have below : ((x.interval.lo.floor : ℚ) : ℝ) ≤ x.interval.lo :=
          Rat.cast_le.mpr (Int.floor_le x.interval.lo)
        exact (by exact_mod_cast below : (x.interval.lo.floor : ℝ) ≤ x.interval.lo).trans
          known.isolates.lo_lt.le
      · have above : (x.interval.hi : ℝ) < ((x.interval.hi.floor : ℚ) + 1 : ℚ) :=
          Rat.cast_lt.mpr (Int.lt_floor_add_one x.interval.hi)
        rw [same]
        exact known.isolates.lt_hi.trans (by exact_mod_cast above)
    · exact ih known.refine

theorem ensures_floor {a : Numeral} (known : a.WellFormed) :
    a.floor.Ensures limits fun n => n = ⌊a.value⌋ := by
  cases a with
  | rational r => exact ensures_pure (Rat.floor_cast r).symm
  | irrational x => exact ensures_read_bind (ensures_floorFrom known _)

/-! ### The sign -/

theorem sign_eq {a : Numeral} (known : a.WellFormed) : a.sign = cmp a.value 0 :=
  known.sign_eq

/-- The refinement for the sign halves the interval until zero is outside, and it ends. -/
theorem exists_iterate_separateZero (known : (irrational x).WellFormed) :
    ∃ n, x.separateZero = Algebraic.refine^[n] x ∧
      (∀ m < n, (Algebraic.refine^[m] x).interval.containsZero = true) ∧
      x.separateZero.interval.containsZero = false := by
  obtain ⟨n, -, same, before, -⟩ := refineWhile_eq_iterate (·.interval.containsZero)
    (Rational.halvings x.interval.width x.poly.reverse.rootBound⁻¹) x
  exact ⟨n, same, before, Algebraic.Represents.separateZero known⟩

/-- **Order, sign and integral part of reachable numerals**: whatever a comparison returns is the
order of the denoted numbers; the sign is found by halving until zero is outside the interval, which
ends, and is the sign of the denoted number; and whatever the integral part returns is the largest
integer not above the denoted number. -/
theorem order_exact {allowed : Algebraic.Limits → Prop} {a b : Numeral}
    (first : Reachable allowed a) (second : Reachable allowed b) :
    (∀ limits tally order, ((a.compare b).run limits tally).1 = .ok order →
      order = cmp a.value b.value) ∧
    ((∀ x, a = irrational x → ∃ n, x.separateZero = Algebraic.refine^[n] x ∧
      (∀ m < n, (Algebraic.refine^[m] x).interval.containsZero = true) ∧
      x.separateZero.interval.containsZero = false) ∧ a.sign = cmp a.value 0) ∧
    ∀ limits tally n, (a.floor.run limits tally).1 = .ok n →
      IsGreatest {m : ℤ | (m : ℝ) ≤ a.value} n := by
  refine ⟨fun limits => ensures_compare first.wellFormed second.wellFormed,
    ⟨fun x same => ?_, sign_eq first.wellFormed⟩, fun limits tally n returned => ?_⟩
  · subst same
    exact exists_iterate_separateZero first.wellFormed
  · rw [ensures_floor first.wellFormed tally n returned]
    exact ⟨Int.floor_le a.value, fun m below => Int.le_floor.mpr below⟩

/-- The square root of two as the operation computes it is less than `3 / 2`. -/
theorem order_exact_sqrt_two :
    ((root (rational 2) 2).run {} {}).1 =
      .ok (irrational ⟨.ofInts [-2, 0, 1], 1, ⟨3 / 4, 3 / 2⟩⟩) ∧
    cmp (irrational ⟨.ofInts [-2, 0, 1], 1, ⟨3 / 4, 3 / 2⟩⟩).value
      (rational (3 / 2)).value = .lt := by
  have computed : ((root (rational 2) 2).run {} {}).1 =
      .ok (irrational ⟨.ofInts [-2, 0, 1], 1, ⟨3 / 4, 3 / 2⟩⟩) := by decide +kernel
  have known : Reachable (fun _ => True) (irrational ⟨.ofInts [-2, 0, 1], 1, ⟨3 / 4, 3 / 2⟩⟩) := by
    have operands : ∀ a ∈ (Operation.root (rational 2) 2).operands,
        Reachable (fun _ => True) a := by
      intro a member
      rw [List.mem_singleton.mp member]
      exact .rational 2
    exact .compute trivial operands computed
  have compared : ((compare (irrational ⟨.ofInts [-2, 0, 1], 1, ⟨3 / 4, 3 / 2⟩⟩)
      (rational (3 / 2))).run {} {}).1 = .ok .lt := by decide +kernel
  exact ⟨computed, ((order_exact known (.rational (3 / 2))).1 {} {} .lt compared).symm⟩

end Stratagem.Numeral
