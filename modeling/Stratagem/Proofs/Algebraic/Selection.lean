import Stratagem.Algebraic.Arithmetic
import Stratagem.Proofs.Algebraic.Value
import Stratagem.Proofs.Polynomial.Resultant

/-!
# The selection of a root

What a computation on numerals ensures when it returns (`Algebraic.Compute.Ensures`), the numeral of
the root in an interval, a rational just when the root is one (`Algebraic.represents_numeralOf`), and
the selection of a root, which is exact as long as the operands never rule out the interval of that
root (`Algebraic.ensures_selectRoot`).
-/
namespace Stratagem.Algebraic

open Polynomial

variable {α β σ : Type} {limits : Limits}

namespace Compute

/-- Whatever the computation returns under these limits satisfies a condition. -/
def Ensures (work : Compute α) (limits : Limits) (post : α → Prop) : Prop :=
  ∀ tally value, (work.run limits tally).1 = .ok value → post value

variable {post : α → Prop} {final : β → Prop}

theorem run_bind (work : Compute α) (next : α → Compute β) (limits : Limits) (tally : Tally) :
    (work >>= next).run limits tally =
      match work.run limits tally with
      | (.ok a, after) => (next a).run limits after
      | (.error e, after) => (.error e, after) := by
  show StateT.run (ExceptT.bindCont (fun a => ReaderT.run (next a) limits)
    (work.run limits tally).1) (work.run limits tally).2 = _
  generalize work.run limits tally = result
  obtain ⟨_ | _, after⟩ := result <;> rfl

theorem ensures_pure {a : α} (holds : post a) : (pure a : Compute α).Ensures limits post := by
  intro tally value returned
  rw [← Except.ok.inj returned]
  exact holds

/-- A refusal returns nothing. -/
theorem ensures_throw {error : AlgebraicError} :
    (throw error : Compute α).Ensures limits post := by
  intro tally value returned
  cases returned

theorem ensures_outOfRounds : (outOfRounds : Compute α).Ensures limits post := by
  intro tally value returned
  cases returned

/-- What is ensured implies something else. -/
theorem ensures_mono {work : Compute α} {weak : α → Prop} (ensured : work.Ensures limits post)
    (weaker : ∀ a, post a → weak a) : work.Ensures limits weak :=
  fun tally value returned => weaker value (ensured tally value returned)

theorem ensures_and {work : Compute α} {other : α → Prop} (first : work.Ensures limits post)
    (second : work.Ensures limits other) : work.Ensures limits fun a => post a ∧ other a :=
  fun tally value returned => ⟨first tally value returned, second tally value returned⟩

/-- A computation and then another one on its result. -/
theorem ensures_bind {work : Compute α} {next : α → Compute β} (first : work.Ensures limits post)
    (second : ∀ a, post a → (next a).Ensures limits final) :
    (work >>= next).Ensures limits final := by
  intro tally value returned
  rw [run_bind] at returned
  split at returned
  · next a after same =>
    exact second a (first tally a (by rw [same])) after value returned
  · cases returned

/-- Reading the limits and then a computation on them. -/
theorem ensures_read_bind {next : Limits → Compute β}
    (ensured : (next limits).Ensures limits final) :
    (read >>= next).Ensures limits final := ensured

/-- The tally makes no difference to what a computation ensures. -/
theorem ensures_count_bind {more : Tally → Tally} {next : Unit → Compute β}
    (ensured : (next ()).Ensures limits final) : (count more >>= next).Ensures limits final := by
  intro tally value returned
  exact ensured (more tally) value returned

theorem ensures_checkDegree (degree : ℕ) :
    (checkDegree degree).Ensures limits fun _ => degree ≤ limits.maxDegree := by
  refine ensures_read_bind ?_
  split
  · exact ensures_throw
  · next fits => exact ensures_pure (not_lt.mp fits)

/-- The eliminant of a family and then a computation on it. -/
theorem ensures_resultantIn_bind {p : Poly} {bound : ℕ} {g : ℚ → Poly} {next : Poly → Compute β}
    (ensured : (next (p.eliminant bound g)).Ensures limits final) :
    (resultantIn p bound g >>= next).Ensures limits final := by
  intro tally value returned
  exact ensured { tally with resultants := tally.resultants + 1 } value returned

end Compute

open Compute

/-! ### Numerals of located roots -/

variable {q : Poly} {x : ℝ} {range : Interval}

theorem rationalWidth_pos {lead : ℚ} (nonzero : lead ≠ 0) :
    Poly.rationalWidth lead = (lead * lead)⁻¹ ∧ 0 < Poly.rationalWidth lead := by
  rw [Poly.rationalWidth, if_neg (mul_self_ne_zero.mpr nonzero)]
  exact ⟨rfl, inv_pos.mpr (mul_self_pos.mpr nonzero)⟩

/-- A rational root is the fraction of least denominator in a narrow interval around it. -/
theorem simplestBetween_eq_of_root (primitive : q.IsPrimitive) {r : ℚ} (root : q.eval r = 0)
    (low : range.lo ≤ r) (high : r ≤ range.hi)
    (narrow : range.width < Poly.rationalWidth q.toPolynomial.leadingCoeff)
    (nonzero : q.toPolynomial.leadingCoeff ≠ 0) :
    Rational.simplestBetween range.lo range.hi = r := by
  obtain ⟨inside, least⟩ := Rational.simplestBetween_spec (low.trans high)
  have denominator := primitive.den_le root
  generalize Rational.simplestBetween range.lo range.hi = s at inside least
  have fewer : (s.den : ℚ) ≤ r.den := Nat.cast_le.mpr (least r low high)
  rw [(rationalWidth_pos nonzero).1] at narrow
  have square : 0 < q.toPolynomial.leadingCoeff * q.toPolynomial.leadingCoeff :=
    mul_self_pos.mpr nonzero
  have near : |s - r| < (q.toPolynomial.leadingCoeff * q.toPolynomial.leadingCoeff)⁻¹ := by
    refine lt_of_le_of_lt ?_ narrow
    rw [Interval.width, abs_le]
    constructor <;> linarith [inside.1, inside.2]
  have product : (s.den * r.den : ℚ) ≤
      q.toPolynomial.leadingCoeff * q.toPolynomial.leadingCoeff := by
    rw [← abs_mul_abs_self]
    exact mul_le_mul (fewer.trans denominator) denominator (Nat.cast_nonneg _) (abs_nonneg _)
  refine Rational.eq_of_abs_sub_lt ?_
  calc |s - r| * (s.den * r.den)
      ≤ |s - r| * (q.toPolynomial.leadingCoeff * q.toPolynomial.leadingCoeff) :=
        mul_le_mul_of_nonneg_left product (abs_nonneg _)
    _ < 1 := (lt_inv_mul_iff₀' square).mp (by rwa [mul_one])

/-- Without the factors `x` a polynomial keeps its other roots. -/
theorem isolates_stripZeroRoots (known : range.Isolates q x) (nonzero : x ≠ 0) :
    range.Isolates q.stripZeroRoots x := by
  obtain ⟨n, factored⟩ := Poly.toPolynomial_stripZeroRoots q
  have value (y : ℝ) : q.toReal.eval y = y ^ n * q.stripZeroRoots.toReal.eval y := by
    rw [Poly.toReal, factored]
    simp [Poly.toReal]
  refine ⟨?_, known.lo_lt, known.lt_hi, fun y root => known.unique y ?_⟩
  · exact (mul_eq_zero.mp ((value x).symm.trans known.root)).resolve_left (pow_ne_zero n nonzero)
  · rw [value, root, mul_zero]

theorem separable_stripZeroRoots (separable : q.toPolynomial.Separable) :
    q.stripZeroRoots.toPolynomial.Separable := by
  obtain ⟨n, factored⟩ := Poly.toPolynomial_stripZeroRoots q
  rw [factored] at separable
  exact separable.of_mul_right

/-- The numeral of an interval denotes the root that the interval locates. -/
theorem represents_numeralOf (primitive : q.IsPrimitive) (separable : q.toPolynomial.Separable)
    (known : range.Locates q x) : (numeralOf q range).Represents x := by
  have nonzero := leadingCoeff_ne_zero.mpr separable.ne_zero
  have leading := (Poly.leading?_eq_some_iff q).mpr ⟨separable.ne_zero, rfl⟩
  unfold numeralOf
  rw [leading]
  dsimp only
  generalize bounded : Rational.halvings _ _ = rounds
  have enough := Rational.div_two_pow_halvings_lt range.width (rationalWidth_pos nonzero).2
  rw [bounded] at enough
  have width := Poly.width_bisectBelow (p := q) enough
  have located := Poly.locates_bisectBelow separable
    (Poly.rationalWidth q.toPolynomial.leadingCoeff) rounds known
  generalize q.bisectBelow _ rounds range = narrow at width located
  rcases located with isolates | point
  · rw [if_neg (by simp [isolates.not_isPoint])]
    replace width := width.resolve_left (by simp [isolates.not_isPoint])
    have ordered := isolates.lo_lt_hi.le
    split
    · next root =>
      obtain ⟨low, high⟩ := (Rational.simplestBetween_spec ordered).1
      exact isolates.unique _ ((Poly.eval_toReal_eq_zero_iff _).mpr root) (Rat.cast_le.mpr low)
        (Rat.cast_le.mpr high)
    · next other =>
      have irrational : Irrational x := by
        rintro ⟨r, rfl⟩
        have root := (Poly.eval_toReal_eq_zero_iff r).mp isolates.root
        rw [simplestBetween_eq_of_root primitive root (Rat.cast_lt.mp isolates.lo_lt).le
          (Rat.cast_lt.mp isolates.lt_hi).le width nonzero] at other
        exact other root
      exact represents_of_isolates (separable_stripZeroRoots separable) primitive.stripZeroRoots
        (isolates_stripZeroRoots isolates irrational.ne_zero) irrational
  · rw [if_pos (Interval.isPoint_iff.mpr (by exact_mod_cast point.2.1.trans point.2.2.symm))]
    exact point.2.1

theorem degree_numeralOf_le (q : Poly) (range : Interval) :
    (numeralOf q range).degree ≤ q.degree := by
  unfold numeralOf
  dsimp only
  generalize q.bisectBelow _ _ range = narrow
  split
  · exact Nat.zero_le _
  · split
    · exact Nat.zero_le _
    · exact Poly.degree_stripZeroRoots_le q

/-! ### Selection -/

section Selection

variable {good : σ → Prop} {admits : σ → Interval → Bool} {refine' : σ → σ} {operands : σ}

/-- Selection returns the numeral of a root that one of the candidates locates, if the operands
admit that candidate at every stage. -/
theorem ensures_selectFrom (primitive : q.IsPrimitive) (separable : q.toPolynomial.Separable)
    (keeps : ∀ s, good s → good (refine' s))
    (admitted : ∀ s range, good s → range.Holds x → admits s range = true) (rounds : ℕ)
    (start : good operands) (candidates : List Interval)
    (located : ∃ range ∈ candidates, range.Locates q x) :
    (selectFrom q admits refine' rounds operands candidates).Ensures limits
      fun n => n.Denotes q.degree x := by
  induction rounds generalizing operands candidates with
  | zero => exact ensures_outOfRounds
  | succ rounds ih =>
    obtain ⟨range, member, known⟩ := located
    have kept : range ∈ candidates.filter (admits operands) :=
      List.mem_filter.mpr ⟨member, admitted operands range start known.holds⟩
    unfold selectFrom
    split
    · exact ensures_throw
    · next single =>
      rw [single, List.mem_singleton] at kept
      rw [← kept]
      exact ensures_pure ⟨represents_numeralOf primitive separable known,
        Nat.cast_le.mpr (degree_numeralOf_le q range)⟩
    · refine ensures_count_bind (ih (keeps operands start) _ ?_)
      exact ⟨q.bisect range, List.mem_map_of_mem kept, Poly.locates_bisect separable known⟩

/-- Without roots there is nothing to select. -/
theorem isolateRoots_eq_nil (zero : q.toPolynomial = 0) :
    q.squareFree.primitive.isolateRoots = [] := by
  have empty := (Poly.toPolynomial_eq_zero_iff q).mp zero
  obtain ⟨coeffs, normal⟩ := q
  subst empty
  rfl

/-- **Selection** returns the numeral of a root of the polynomial, if the operands admit every
interval that holds the root at every stage of their refinement. -/
theorem ensures_selectRoot (good : σ → Prop) (root : q.toReal.eval x = 0)
    (keeps : ∀ s, good s → good (refine' s))
    (admitted : ∀ s range, good s → range.Holds x → admits s range = true) (start : good operands)
    {bound : ℕ∞} (cap : limits.maxDegree ≤ bound) :
    (selectRoot q admits refine' operands).Ensures limits fun n => n.Denotes bound x := by
  refine ensures_bind (ensures_checkDegree _) fun _ fits => ?_
  refine ensures_count_bind (ensures_read_bind ?_)
  by_cases zero : q.toPolynomial = 0
  · rw [isolateRoots_eq_nil zero]
    cases limits.maxRefinements with
    | zero => exact ensures_outOfRounds
    | succ rounds => exact ensures_throw
  · have some := Poly.squareFree_ne_zero zero
    have separable := Poly.separable_primitive (Poly.separable_squareFree zero)
    have primitive := Poly.isPrimitive_primitive some
    have simple : q.squareFree.primitive.toReal.eval x = 0 := by
      rw [Poly.eval_primitive_eq_zero_iff some, Poly.eval_squareFree_eq_zero_iff zero]
      exact root
    exact ensures_mono (ensures_selectFrom primitive separable keeps admitted
        limits.maxRefinements start _ (Poly.exists_mem_isolateRoots separable simple))
      fun n denoted => ⟨denoted.represents, denoted.bounded.trans ((Nat.cast_le.mpr fits).trans cap)⟩

end Selection

end Stratagem.Algebraic
