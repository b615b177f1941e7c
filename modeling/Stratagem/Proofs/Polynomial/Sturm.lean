import Mathlib.Analysis.Calculus.Deriv.Polynomial
import Mathlib.FieldTheory.Perfect
import Mathlib.Topology.Algebra.Polynomial
import Mathlib.Topology.LocallyConstant.Basic
import Stratagem.Proofs.Polynomial.Root

/-!
# Sturm's theorem

The number of sign changes of a Sturm sequence drops by one at every root of a separable polynomial
and changes nowhere else, so the difference at two points counts the roots between them
(`Poly.countRoots_sturm`). One step of the argument is local: where the head of a sequence of signed
remainders does not vanish, the number of sign changes stays the same nearby, because a later
member that vanishes stands between two of opposite sign.
-/
namespace Stratagem

open Polynomial Topology Filter

/-! ### Sign changes of reals -/

/-- The number of sign changes in a list of reals after a first one, zeros passed over. -/
noncomputable def changesAfter : ℝ → List ℝ → ℕ
  | _, [] => 0
  | a, b :: rest =>
    if b = 0 then changesAfter a rest
    else (if a * b < 0 then 1 else 0) + changesAfter b rest

/-- The number of sign changes in a list of reals, zeros passed over. -/
noncomputable def changes : List ℝ → ℕ
  | [] => 0
  | a :: rest => if a = 0 then changes rest else changesAfter a rest

variable {a b : ℝ} {rest : List ℝ}

theorem changesAfter_zero : changesAfter a (0 :: rest) = changesAfter a rest := by
  simp [changesAfter]

theorem changesAfter_cons (other : b ≠ 0) :
    changesAfter a (b :: rest) = (if a * b < 0 then 1 else 0) + changesAfter b rest := by
  simp [changesAfter, other]

/-- Products of two pairs of reals of one sign each have one sign. -/
theorem mul_neg_congr {a' b' : ℝ} (first : 0 < a * a') (second : 0 < b * b') :
    a * b < 0 ↔ a' * b' < 0 := by
  have product : 0 < (a * b) * (a' * b') := by
    calc 0 < (a * a') * (b * b') := mul_pos first second
      _ = (a * b) * (a' * b') := by ring
  exact neg_iff_neg_of_mul_pos product

/-- A real between two of opposite sign makes no difference. -/
theorem changesAfter_between {c : ℝ} (opposite : a * c < 0) :
    changesAfter a (b :: c :: rest) = 1 + changesAfter c rest := by
  have other : c ≠ 0 := right_ne_zero_of_mul opposite.ne
  by_cases zero : b = 0
  · rw [zero, changesAfter_zero, changesAfter_cons other, if_pos opposite]
  · rw [changesAfter_cons zero, changesAfter_cons other, ← Nat.add_assoc]
    congr 1
    have crossed : (a * b) * (b * c) < 0 := by
      calc (a * b) * (b * c) = (b * b) * (a * c) := by ring
        _ < 0 := mul_neg_of_pos_of_neg (mul_self_pos.mpr zero) opposite
    rcases mul_neg_iff.mp crossed with ⟨first, second⟩ | ⟨first, second⟩
    · rw [if_neg first.not_gt, if_pos second]
    · rw [if_pos first, if_neg second.not_gt]

namespace Poly

variable {p q : Poly} {c : ℝ}

/-- The values of a sequence of polynomials at a real. -/
noncomputable def valuesAt (sequence : List Poly) (x : ℝ) : List ℝ :=
  sequence.map (·.toReal.eval x)

/-- The number of sign changes at a real of the signed remainders after a head that does not
vanish there. -/
noncomputable def laterChanges (p q : Poly) (x : ℝ) : ℕ :=
  changesAfter (p.toReal.eval x) (valuesAt (signedRemainders p q).tail x)

theorem signedRemainders_tail (nonzero : q.toPolynomial ≠ 0) :
    (signedRemainders p q).tail = signedRemainders q (p.rem q).neg := by
  have some : ¬q.isZero = true := fun zero => nonzero ((isZero_iff q).mp zero)
  rw [signedRemainders, dif_neg some, List.tail_cons]

theorem signedRemainders_eq_cons (p q : Poly) :
    signedRemainders p q = p :: (signedRemainders p q).tail := by
  rw [signedRemainders]
  split <;> rfl

theorem laterChanges_zero (zero : q.toPolynomial = 0) (x : ℝ) : laterChanges p q x = 0 := by
  have none : q.isZero = true := (isZero_iff q).mpr zero
  rw [laterChanges, signedRemainders, dif_pos none]
  rfl

/-- The value of a signed remainder at a root of the divisor is the opposite of the value of the
dividend. -/
theorem eval_rem_neg (nonzero : q.toPolynomial ≠ 0) (root : q.toReal.eval c = 0) :
    (p.rem q).neg.toReal.eval c = -p.toReal.eval c := by
  have exact := congrArg (fun f => (f.map (algebraMap ℚ ℝ)).eval c)
    (toPolynomial_eq_mul_add_rem (p := p) nonzero)
  simp only [Polynomial.map_add, Polynomial.map_mul, eval_add, eval_mul] at exact
  rw [toReal, toPolynomial_neg, Polynomial.map_neg, eval_neg]
  rw [toReal] at root ⊢
  rw [exact, root, mul_zero, zero_add]

theorem isCoprime_rem_neg (coprime : IsCoprime p.toPolynomial q.toPolynomial)
    (nonzero : q.toPolynomial ≠ 0) :
    IsCoprime q.toPolynomial (p.rem q).neg.toPolynomial := by
  rw [toPolynomial_neg, IsCoprime.neg_right_iff]
  have exact := toPolynomial_eq_mul_add_rem (p := p) nonzero
  rw [exact, add_comm, IsCoprime.add_mul_right_left_iff] at coprime
  exact coprime.symm

/-- Where a polynomial does not vanish it keeps its sign nearby. -/
theorem eventually_mul_pos {f : ℝ[X]} (other : f.eval c ≠ 0) :
    ∀ᶠ x in 𝓝 c, 0 < f.eval x * f.eval c := by
  have continuous : ContinuousAt (fun x => f.eval x * f.eval c) c :=
    (f.continuous.mul continuous_const).continuousAt
  exact continuous.eventually_const_lt (mul_self_pos.mpr other)

/-- The number of sign changes after a head, counted from the next member. -/
theorem laterChanges_step (nonzero : q.toPolynomial ≠ 0) {x : ℝ} (next : q.toReal.eval x ≠ 0) :
    laterChanges p q x =
      (if p.toReal.eval x * q.toReal.eval x < 0 then 1 else 0) +
        laterChanges q (p.rem q).neg x := by
  rw [laterChanges, signedRemainders_tail nonzero, signedRemainders_eq_cons, valuesAt,
    List.map_cons, changesAfter_cons next]
  rfl

/-- The number of sign changes after a head, counted from the member after the next, which is of
opposite sign. -/
theorem laterChanges_skip (nonzero : q.toPolynomial ≠ 0) {r : Poly} (rest : r = (p.rem q).neg)
    (some : r.toPolynomial ≠ 0) {x : ℝ} (opposite : p.toReal.eval x * r.toReal.eval x < 0) :
    laterChanges p q x = 1 + laterChanges r (q.rem r).neg x := by
  rw [laterChanges, signedRemainders_tail nonzero, ← rest, signedRemainders_eq_cons,
    signedRemainders_tail some, signedRemainders_eq_cons r]
  exact changesAfter_between opposite

/-- Where the head of a sequence of signed remainders does not vanish, its number of sign changes
stays the same nearby. -/
theorem eventually_laterChanges_eq (coprime : IsCoprime p.toPolynomial q.toPolynomial) :
    (p.toReal.eval c ≠ 0 → ∀ᶠ x in 𝓝 c, laterChanges p q x = laterChanges p q c) ∧
    (q.toPolynomial ≠ 0 → q.toReal.eval c ≠ 0 → ∀ᶠ x in 𝓝 c,
      laterChanges q (p.rem q).neg x = laterChanges q (p.rem q).neg c) := by
  -- The second part is the first one for the rest of the sequence: the step at a member that
  -- vanishes passes over that member, so it needs the result for the member after it.
  induction p, q using signedRemainders.induct with
  | case1 p q zero =>
    have none := (isZero_iff q).mp zero
    refine ⟨fun _ => .of_forall fun x => ?_, fun some => absurd none some⟩
    rw [laterChanges_zero none, laterChanges_zero none]
  | case2 p q filled _ ih =>
    have nonzero : q.toPolynomial ≠ 0 := fun zero => filled ((isZero_iff q).mpr zero)
    obtain ⟨next, after⟩ := ih (isCoprime_rem_neg coprime nonzero)
    refine ⟨fun head => ?_, fun _ => next⟩
    by_cases root : q.toReal.eval c = 0
    · have value := eval_rem_neg (p := p) nonzero root
      have other : (p.rem q).neg.toReal.eval c ≠ 0 := by
        rw [value]
        exact neg_ne_zero.mpr head
      have some : (p.rem q).neg.toPolynomial ≠ 0 := by
        intro zero
        apply other
        simp [toReal, zero]
      have opposite : p.toReal.eval c * (p.rem q).neg.toReal.eval c < 0 := by
        rw [value, mul_neg]
        exact neg_neg_of_pos (mul_self_pos.mpr head)
      filter_upwards [eventually_mul_pos head, eventually_mul_pos other, after some other]
        with x first second same
      rw [laterChanges_skip nonzero rfl some opposite, laterChanges_skip nonzero rfl some
        ((mul_neg_congr first second).mpr opposite), same]
    · filter_upwards [eventually_mul_pos head, eventually_mul_pos root, next root]
        with x first second same
      have here : q.toReal.eval x ≠ 0 := left_ne_zero_of_mul second.ne'
      rw [laterChanges_step nonzero here, laterChanges_step nonzero root, same]
      simp only [mul_neg_congr first second]

/-! ### Counting roots -/

theorem toReal_derivative : p.derivative.toReal = Polynomial.derivative p.toReal := by
  rw [toReal, toPolynomial_derivative, toReal, derivative_map]

/-- The number of sign changes of a Sturm sequence at a real and of the roots up to there. -/
noncomputable def sturmSum (p : Poly) (x : ℝ) : ℕ :=
  changes (valuesAt p.sturm x) + (p.realRoots.filter (· ≤ x)).card

theorem changes_sturm_of_ne {x : ℝ} (other : p.toReal.eval x ≠ 0) :
    changes (valuesAt p.sturm x) = laterChanges p p.derivative x := by
  rw [sturm, signedRemainders_eq_cons, valuesAt, List.map_cons, changes, if_neg other]
  rfl

/-- Around a point where the derivative does not vanish, the sign changes are those after the
derivative and one more where the polynomial and its derivative have opposite signs. -/
theorem changes_sturm_of_derivative_ne {x : ℝ} (other : p.derivative.toReal.eval x ≠ 0) :
    changes (valuesAt p.sturm x) =
      (if p.toReal.eval x * p.derivative.toReal.eval x < 0 then 1 else 0) +
        laterChanges p.derivative (p.rem p.derivative).neg x := by
  have nonzero : p.derivative.toPolynomial ≠ 0 := by
    intro zero
    apply other
    simp [toReal, zero]
  by_cases root : p.toReal.eval x = 0
  · rw [sturm, signedRemainders_eq_cons, signedRemainders_tail nonzero, signedRemainders_eq_cons,
      valuesAt, List.map_cons, List.map_cons, changes, if_pos root, changes, if_neg other, root,
      zero_mul, if_neg (lt_irrefl _), zero_add]
    rfl
  · rw [changes_sturm_of_ne root, laterChanges_step nonzero other]

/-- Near a root of a separable polynomial, the polynomial and its derivative have opposite signs
below the root only. -/
theorem eventually_mul_derivative_neg_iff (root : p.toReal.eval c = 0)
    (other : p.derivative.toReal.eval c ≠ 0) :
    ∀ᶠ x in 𝓝 c, (p.toReal.eval x * p.derivative.toReal.eval x < 0 ↔ x < c) := by
  obtain ⟨h, factored⟩ := dvd_iff_isRoot.mpr root
  have slope : p.derivative.toReal.eval c = h.eval c := by
    rw [toReal_derivative, factored, derivative_mul]
    simp
  have some : h.eval c ≠ 0 := slope ▸ other
  filter_upwards [eventually_mul_pos some, eventually_mul_pos other] with x first second
  have same : 0 < h.eval x * p.derivative.toReal.eval x := by
    have product := mul_pos first second
    rw [slope] at product
    refine pos_of_mul_pos_left (b := h.eval c * h.eval c) ?_ (mul_self_nonneg _)
    calc 0 < _ := product
      _ = _ := by ring
  have value : p.toReal.eval x * p.derivative.toReal.eval x =
      (x - c) * (h.eval x * p.derivative.toReal.eval x) := by
    rw [factored]
    simp
    ring
  rw [value]
  exact ⟨fun negative => sub_neg.mp (neg_of_mul_neg_left negative same.le),
    fun below => mul_neg_of_neg_of_pos (sub_neg.mpr below) same⟩

/-- Near a point the roots up to there are the same, the point itself apart. -/
theorem eventually_card_roots (roots : Finset ℝ) (c : ℝ) :
    ∀ᶠ x in 𝓝 c, (roots.filter (· ≤ x)).card + (if c ∈ roots ∧ x < c then 1 else 0) =
      (roots.filter (· ≤ c)).card := by
  have still : ∀ᶠ x in 𝓝 c, ∀ r ∈ roots, r ≠ c → (r ≤ x ↔ r ≤ c) := by
    refine (eventually_all_finset roots).mpr fun r _ => ?_
    rcases lt_trichotomy r c with below | rfl | above
    · filter_upwards [eventually_gt_nhds below] with x within _
      exact iff_of_true within.le below.le
    · exact .of_forall fun _ other => absurd rfl other
    · filter_upwards [eventually_lt_nhds above] with x within _
      exact iff_of_false within.not_ge above.not_ge
  filter_upwards [still] with x still
  split
  · next here =>
    have fewer : roots.filter (· ≤ x) = (roots.filter (· ≤ c)).erase c := by
      ext r
      simp only [Finset.mem_filter, Finset.mem_erase]
      by_cases same : r = c
      · rw [same]
        exact iff_of_false (fun inside => here.2.not_ge inside.2) (fun inside => inside.1 rfl)
      · constructor
        · exact fun inside => ⟨same, inside.1, (still r inside.1 same).mp inside.2⟩
        · exact fun inside => ⟨inside.2.1, (still r inside.2.1 same).mpr inside.2.2⟩
    rw [fewer]
    exact Finset.card_erase_add_one (Finset.mem_filter.mpr ⟨here.1, le_rfl⟩)
  · next away =>
    rw [Nat.add_zero]
    congr 1
    refine Finset.filter_congr fun r inside => ?_
    by_cases same : r = c
    · rw [same] at inside ⊢
      exact iff_of_true (not_lt.mp fun below => away ⟨inside, below⟩) le_rfl
    · exact still r inside same

theorem eventually_sturmSum_eq (separable : p.toPolynomial.Separable) (c : ℝ) :
    ∀ᶠ x in 𝓝 c, sturmSum p x = sturmSum p c := by
  have coprime : IsCoprime p.toPolynomial p.derivative.toPolynomial := by
    rw [toPolynomial_derivative]
    exact separable
  obtain ⟨head, next⟩ := eventually_laterChanges_eq (c := c) coprime
  have nonzero := separable.ne_zero
  unfold sturmSum
  by_cases root : p.toReal.eval c = 0
  · have other : p.derivative.toReal.eval c ≠ 0 := by
      rw [toReal, eval_map] at root
      rw [toReal, toPolynomial_derivative, eval_map]
      exact separable.eval₂_derivative_ne_zero _ root
    have varies : p.derivative.toPolynomial ≠ 0 := by
      intro zero
      apply other
      simp [toReal, zero]
    filter_upwards [eventually_mul_pos other, eventually_mul_derivative_neg_iff root other,
      next varies other, eventually_card_roots p.realRoots c] with x nearby crossed same roots
    have here : p.derivative.toReal.eval x ≠ 0 := left_ne_zero_of_mul nearby.ne'
    rw [changes_sturm_of_derivative_ne here, changes_sturm_of_derivative_ne other, same, root,
      zero_mul, if_neg (lt_irrefl _), ← roots]
    simp only [crossed, mem_realRoots nonzero, root, true_and]
    omega
  · filter_upwards [eventually_mul_pos root, head root, eventually_card_roots p.realRoots c]
      with x nearby same roots
    have here : p.toReal.eval x ≠ 0 := left_ne_zero_of_mul nearby.ne'
    have away : ¬(c ∈ p.realRoots ∧ x < c) := fun inside =>
      root ((mem_realRoots nonzero).mp inside.1)
    rw [changes_sturm_of_ne here, changes_sturm_of_ne root, same, ← roots, if_neg away,
      Nat.add_zero]

/-- The sign changes and the roots up to a point are as many everywhere. -/
theorem sturmSum_eq (separable : p.toPolynomial.Separable) (x y : ℝ) :
    sturmSum p x = sturmSum p y := by
  have constant : IsLocallyConstant (sturmSum p) :=
    (IsLocallyConstant.iff_eventually_eq _).mpr (eventually_sturmSum_eq separable)
  exact constant.apply_eq_of_preconnectedSpace x y

theorem signChanges_filter (a : ℚ) (other : a ≠ 0) (rest : List ℚ) :
    signChanges (a :: rest.filter (· ≠ 0)) = changesAfter a (rest.map Rat.cast) := by
  induction rest generalizing a with
  | nil => rfl
  | cons b rest ih =>
    rw [List.map_cons]
    by_cases zero : b = 0
    · rw [List.filter_cons_of_neg (by simpa using zero), zero, Rat.cast_zero, changesAfter_zero,
        ih a other]
    · rw [List.filter_cons_of_pos (by simpa using zero),
        changesAfter_cons (Rat.cast_ne_zero.mpr zero), signChanges, ih b zero]
      congr 1
      rw [← Rat.cast_mul]
      have signs : decide (0 < a) = decide (0 < b) ↔ ¬a * b < 0 := by
        rw [decide_eq_decide]
        rcases lt_or_gt_of_ne other with below | above <;>
          rcases lt_or_gt_of_ne zero with low | high
        · exact iff_of_true (iff_of_false below.not_gt low.not_gt)
            (mul_pos_of_neg_of_neg below low).not_gt
        · exact iff_of_false (fun same => below.not_gt (same.mpr high))
            (not_not.mpr (mul_neg_of_neg_of_pos below high))
        · exact iff_of_false (fun same => low.not_gt (same.mp above))
            (not_not.mpr (mul_neg_of_pos_of_neg above low))
        · exact iff_of_true (iff_of_true above high) (mul_pos above high).not_gt
      by_cases opposite : a * b < 0
      · rw [if_neg (mt signs.mp (not_not.mpr opposite)), if_pos (by exact_mod_cast opposite)]
      · rw [if_pos (signs.mpr opposite), if_neg (by exact_mod_cast opposite)]

theorem variations_eq (sequence : List Poly) (x : ℚ) :
    variations sequence x = changes (valuesAt sequence x) := by
  have values : valuesAt sequence x = (sequence.map (·.eval x)).map Rat.cast := by
    simp [valuesAt, eval_toReal]
  rw [values, variations]
  induction sequence.map (·.eval x) with
  | nil => rfl
  | cons a rest ih =>
    rw [List.map_cons, changes]
    by_cases zero : a = 0
    · rw [List.filter_cons_of_neg (by simpa using zero), if_pos (Rat.cast_eq_zero.mpr zero), ih]
    · rw [List.filter_cons_of_pos (by simpa using zero), if_neg (Rat.cast_ne_zero.mpr zero),
        signChanges_filter a zero]

/-- **Sturm's theorem**: the Sturm sequence of a separable polynomial counts its roots in a
half-open interval. -/
theorem countRoots_sturm (separable : p.toPolynomial.Separable) {lo hi : ℚ} (ordered : lo ≤ hi) :
    countRoots p.sturm lo hi = (p.realRoots.filter fun x => (lo : ℝ) < x ∧ x ≤ hi).card := by
  have sums := sturmSum_eq separable lo hi
  rw [sturmSum, sturmSum, ← variations_eq, ← variations_eq] at sums
  have parts : (p.realRoots.filter (· ≤ (hi : ℝ))).card =
      (p.realRoots.filter (· ≤ (lo : ℝ))).card +
        (p.realRoots.filter fun x => (lo : ℝ) < x ∧ x ≤ hi).card := by
    have below : (lo : ℝ) ≤ hi := by exact_mod_cast ordered
    rw [← Finset.card_union_of_disjoint]
    · congr 1
      ext x
      simp only [Finset.mem_union, Finset.mem_filter, ← and_or_left]
      refine and_congr_right fun _ => ⟨fun upto => ?_, fun either => ?_⟩
      · exact (le_or_gt x lo).imp id fun above => ⟨above, upto⟩
      · exact either.elim (fun low => low.trans below) And.right
    · refine Finset.disjoint_filter.mpr fun x _ low above => ?_
      exact above.1.not_ge low
  rw [countRoots]
  omega

/-- Each division of a remainder sequence makes the remainder shorter, so there are no more
divisions than coefficients. -/
theorem length_signedRemainders_le (p q : Poly) : (signedRemainders p q).length ≤ q.size + 1 := by
  induction p, q using signedRemainders.induct with
  | case1 p q zero =>
    rw [signedRemainders, dif_pos zero]
    exact Nat.le_add_left 1 q.size
  | case2 p q filled shorter ih =>
    rw [signedRemainders, dif_neg filled, List.length_cons]
    exact Nat.succ_le_succ (ih.trans shorter)

theorem size_derivative_le (p : Poly) : p.derivative.size ≤ p.size - 1 := by
  have := Coefficients.length_trim_le ((p.coeffs.mapIdx fun i c => c * Rational.ofInt i).drop 1)
  rwa [List.length_drop, List.length_mapIdx] at this

/-- **Root counting is exact**: the Sturm sequence of a square-free polynomial has no more members
than the polynomial has coefficients, and its count for an interval that is open below and closed
above is the number of distinct real roots in it. -/
theorem countRoots_exact {p : Poly} (squareFree : Squarefree p.toPolynomial) {lo hi : ℚ}
    (ordered : lo ≤ hi) :
    p.sturm.length ≤ p.size ∧
      (countRoots p.sturm lo hi : ℕ∞) =
        {x : ℝ | p.toReal.eval x = 0 ∧ (lo : ℝ) < x ∧ x ≤ hi}.encard := by
  have separable := PerfectField.separable_iff_squarefree.mpr squareFree
  have nonzero := separable.ne_zero
  constructor
  · have some : 0 < p.size :=
      List.length_pos_of_ne_nil fun none => nonzero ((toPolynomial_eq_zero_iff p).mpr none)
    have bound := length_signedRemainders_le p p.derivative
    have shorter := size_derivative_le p
    rw [sturm]
    omega
  · have same : {x : ℝ | p.toReal.eval x = 0 ∧ (lo : ℝ) < x ∧ x ≤ hi} =
        (p.realRoots.filter fun x => (lo : ℝ) < x ∧ x ≤ hi : Finset ℝ) := by
      ext x
      simp only [Set.mem_ofPred_eq, Finset.coe_filter, mem_realRoots nonzero]
    rw [countRoots_sturm separable ordered, same, Set.encard_coe_eq_coe_finsetCard]

/-- The polynomial `x ^ 3 - 2 * x` is coprime to its derivative. -/
theorem squarefree_cube_sub : Squarefree (ofCoeffs [0, -2, 0, 1]).toPolynomial := by
  refine Separable.squarefree ⟨C (-9 / 8) * X, C (3 / 8) * X ^ 2 - C (1 / 2), ?_⟩
  refine Polynomial.funext fun r => ?_
  rw [toPolynomial_ofCoeffs]
  simp [Coefficients.toPolynomial]
  ring

/-- The roots of `x ^ 3 - 2 * x` above the root zero and up to two: there is one, and zero is not
counted. -/
theorem countRoots_exact_above_root :
    Squarefree (ofCoeffs [0, -2, 0, 1]).toPolynomial ∧ (0 : ℚ) ≤ 2 ∧
      (ofCoeffs [0, -2, 0, 1]).sturm.length ≤ 4 ∧
      countRoots (ofCoeffs [0, -2, 0, 1]).sturm 0 2 = 1 ∧
      {x : ℝ | (ofCoeffs [0, -2, 0, 1]).toReal.eval x = 0 ∧ ((0 : ℚ) : ℝ) < x ∧
        x ≤ ((2 : ℚ) : ℝ)}.encard = 1 := by
  have ordered : (0 : ℚ) ≤ 2 := by norm_num
  obtain ⟨short, count⟩ := countRoots_exact squarefree_cube_sub ordered
  have one : countRoots (ofCoeffs [0, -2, 0, 1]).sturm 0 2 = 1 := by decide +kernel
  rw [one] at count
  exact ⟨squarefree_cube_sub, ordered, short, one, count.symm⟩

end Poly
end Stratagem
