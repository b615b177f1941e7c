import Stratagem.Proofs.Algebraic.Settling

/-!
# When operations refuse

An operation on reachable numerals refuses for four reasons only: a division by zero, a root that is
not real, a degree above the limit, or lack of rounds. The first three are decided by the operands,
and the last does not happen when the rounds suffice (`Numeral.refusals_exact`).
-/
namespace Stratagem

open Filter

namespace Algebraic.Compute

variable {α : Type} {work : Compute α} {degree : ℕ} {zero unreal : Prop}

/-- The computation refuses as a division by zero and for lack of a real root just under certain
conditions, otherwise for a degree just when it is above the limit, and it returns when none of this
is so and there are enough rounds. -/
structure RefusesOnly (work : Compute α) (degree : ℕ) (zero unreal : Prop) : Prop where
  /-- Division by zero. -/
  divisionByZero : ∀ limits tally, (work.run limits tally).1 = .error .divisionByZero ↔ zero
  /-- No real root. -/
  noRealRoot : ∀ limits tally, (work.run limits tally).1 = .error .noRealRoot ↔ unreal
  /-- A degree above the limit. -/
  degreeExceeded : ∀ (limits : Limits) tally refused limit,
    (work.run limits tally).1 = .error (.degreeExceeded refused limit) ↔
      (¬zero ∧ ¬unreal ∧ limits.maxDegree < degree) ∧ refused = degree ∧ limit = limits.maxDegree
  /-- Lack of rounds. -/
  refinementLimit : ∀ (limits : Limits) tally rounds,
    (work.run limits tally).1 = .error (.refinementLimit rounds) → rounds = limits.maxRefinements
  /-- With enough rounds there is a result. -/
  returns : ¬zero → ¬unreal → ∃ enough, ∀ limits : Limits, degree ≤ limits.maxDegree →
    enough ≤ limits.maxRefinements → ∀ tally, ∃ a, (work.run limits tally).1 = .ok a

theorem refusesOnly_divisionByZero (asked : zero) (real : ¬unreal) :
    (throw .divisionByZero : Compute α).RefusesOnly degree zero unreal where
  divisionByZero _ _ := iff_of_true rfl asked
  noRealRoot _ _ := iff_of_false nofun real
  degreeExceeded _ _ _ _ := iff_of_false nofun fun refused => refused.1.1 asked
  refinementLimit _ _ _ := nofun
  returns nonzero := absurd asked nonzero

theorem refusesOnly_noRealRoot (nonzero : ¬zero) (asked : unreal) :
    (throw .noRealRoot : Compute α).RefusesOnly degree zero unreal where
  divisionByZero _ _ := iff_of_false nofun nonzero
  noRealRoot _ _ := iff_of_true rfl asked
  degreeExceeded _ _ _ _ := iff_of_false nofun fun refused => refused.1.2.1 asked
  refinementLimit _ _ _ := nofun
  returns _ real := absurd asked real

/-- A computation that settles once its degree is checked. -/
theorem Settles.refusesOnly_checkDegree (settles : work.Settles degree) (nonzero : ¬zero)
    (real : ¬unreal) : (checkDegree degree >>= fun _ => work).RefusesOnly degree zero unreal := by
  have within {limits : Limits} (fits : degree ≤ limits.maxDegree) (tally : Tally) :
      (checkDegree degree >>= fun _ => work).run limits tally = work.run limits tally := by
    rw [run_checkDegree_bind, if_neg (not_lt.mpr fits)]
  have beyond {limits : Limits} (above : limits.maxDegree < degree) (tally : Tally) :
      ((checkDegree degree >>= fun _ => work).run limits tally).1 =
        .error (.degreeExceeded degree limits.maxDegree) := by
    rw [run_checkDegree_bind, if_pos above]
  -- above the limit the error is the degree, and below it lack of rounds
  have refused (limits : Limits) (tally : Tally) (error : AlgebraicError)
      (same : ((checkDegree degree >>= fun _ => work).run limits tally).1 = .error error) :
      limits.maxDegree < degree ∧ error = .degreeExceeded degree limits.maxDegree ∨
        error = .refinementLimit limits.maxRefinements := by
    rcases lt_or_ge limits.maxDegree degree with above | fits
    · rw [beyond above] at same
      exact .inl ⟨above, (Except.error.inj same).symm⟩
    · rw [within fits] at same
      exact .inr (settles.refuses limits fits tally error same)
  refine ⟨fun limits tally => iff_of_false (fun same => ?_) nonzero,
    fun limits tally => iff_of_false (fun same => ?_) real,
    fun limits tally degree' limit => ⟨fun same => ?_, ?_⟩, fun limits tally rounds same => ?_,
    fun _ _ => ?_⟩
  · rcases refused limits tally _ same with ⟨-, other⟩ | other <;> cases other
  · rcases refused limits tally _ same with ⟨-, other⟩ | other <;> cases other
  · rcases refused limits tally _ same with ⟨above, other⟩ | other
    · cases other
      exact ⟨⟨nonzero, real, above⟩, rfl, rfl⟩
    · cases other
  · rintro ⟨⟨-, -, above⟩, rfl, rfl⟩
    exact beyond above tally
  · rcases refused limits tally _ same with ⟨-, other⟩ | other
    · cases other
    · exact AlgebraicError.refinementLimit.inj other
  · obtain ⟨enough, returns⟩ := settles.returns
    refine ⟨enough, fun limits fits rounds tally => ?_⟩
    rw [within fits]
    exact returns limits fits rounds tally

/-- A computation that settles at any degree. -/
theorem Settles.refusesOnly (settles : work.Settles 0) (nonzero : ¬zero) (real : ¬unreal) :
    work.RefusesOnly 0 zero unreal :=
  (show (checkDegree 0 >>= fun _ => work).RefusesOnly 0 zero unreal from
    Settles.refusesOnly_checkDegree settles nonzero real)

theorem settles_resultantIn_bind {p : Poly} {bound : ℕ} {g : ℚ → Poly} {then' : Poly → Compute α}
    (settles : (then' (p.eliminant bound g)).Settles degree) :
    (resultantIn p bound g >>= then').Settles degree := by
  show ((count fun t => { t with resultants := t.resultants + 1 }) >>= fun _ =>
    then' (p.eliminant bound g)).Settles degree
  exact settles_count_bind settles

end Algebraic.Compute

namespace Numeral

open Algebraic Algebraic.Compute

variable {a b : Numeral} {x y : Algebraic} {v w : ℝ} {limits : Algebraic.Limits}
  {allowed : Algebraic.Limits → Prop}

namespace Operation

/-- The operation divides by zero. -/
def DividesByZero : Operation → Prop
  | inv a | div _ a => a.value = 0
  | root _ k => k = 0
  | _ => False

/-- The operation asks for an even root of a negative number. -/
def LacksRealRoot : Operation → Prop
  | root a k => k ≠ 0 ∧ k % 2 = 0 ∧ a.value < 0
  | _ => False

/-- The degree that is checked before a root is selected; zero if none is. -/
def checkedDegree : Operation → ℕ
  | add (irrational x) (irrational y) => x.degree * y.degree
  | sub (irrational x) (irrational y) => x.degree * y.degree
  | mul (irrational x) (irrational y) => x.degree * y.degree
  | div (irrational x) (irrational y) => x.degree * y.poly.reverse.degree
  | power (irrational x) k => if k < 2 then 0 else x.degree
  | root (rational r) k => if k < 2 ∨ r = 0 ∨ (Rational.root? r k).isSome then 0 else k
  | root (irrational x) k => if k < 2 then 0 else x.degree * k
  | _ => 0

/-- The exponent, of 32 bits. -/
def exponent : Operation → ℕ
  | power _ k | root _ k => k
  | _ => 0

end Operation

/-! ### What the operands select -/

theorem iterate_refineBoth (a b : Numeral) (n : ℕ) :
    refineBoth^[n] (a, b) = (refine^[n] a, refine^[n] b) :=
  congrFun (Prod.map_iterate refine refine n) (a, b)

/-- Two numerals select the sum of their numbers. -/
theorem selects_add (first : a.Represents v) (second : b.Represents w) :
    Selects (fun both range => range.overlaps (both.1.interval.add both.2.interval)) refineBoth
      (a, b) (v + w) := by
  refine selects_overlaps ?_
  simp only [iterate_refineBoth]
  exact first.shrinks.add second.shrinks

/-- Two numerals select the product of their numbers. -/
theorem selects_mul (first : a.Represents v) (second : b.Represents w) :
    Selects (fun both range => range.overlaps (both.1.interval.mul both.2.interval)) refineBoth
      (a, b) (v * w) := by
  refine selects_overlaps ?_
  simp only [iterate_refineBoth]
  exact first.shrinks.mul second.shrinks

/-- A numeral selects the powers of its number. -/
theorem selects_power (known : a.Represents v) (k : ℕ) :
    Selects (fun base range => range.overlaps (base.interval.power k)) refine a (v ^ k) :=
  selects_overlaps (known.shrinks.power k)

theorem Represents.iterate_refine (known : a.Represents v) (n : ℕ) :
    (Numeral.refine^[n] a).Represents v := by
  induction n with
  | zero => exact known
  | succ n ih =>
    rw [Function.iterate_succ_apply']
    exact ih.refine

/-- A number selects its principal root: of another real either the power or, for even exponents,
the sign is wrong. -/
theorem selects_root {k : ℕ} {z : ℝ} (known : a.Represents v) (positive : k ≠ 0)
    (power : z ^ k = v) (sign : k % 2 = 0 → 0 < z) : Selects (admitsRoot k) refine a z where
  admitted n _ holds := admitsRoot_of_holds (known.iterate_refine n) power sign holds
  excluded y different ranges shrinks := by
    by_cases same : y ^ k = v
    · obtain ⟨opposite, even⟩ : y = -z ∧ Even k :=
        ((pow_eq_pow_iff_of_ne_zero positive).mp (same.trans power.symm)).resolve_left different
      have negative : y < 0 := by
        rw [opposite]
        exact neg_neg_of_pos (sign (Nat.even_iff.mp even))
      filter_upwards [shrinks.hi.eventually_lt_const negative] with n below
      have below : (ranges n).hi < 0 := by exact_mod_cast below
      rw [admitsRoot, Nat.even_iff.mp even, decide_eq_false below.not_gt]
      rfl
    · filter_upwards [(shrinks.power k).eventually_not_overlaps known.shrinks same] with n apart
      rw [admitsRoot, apart, Bool.and_false]

/-! ### The operations -/

theorem refusesOnly_pure (a : Numeral) : (pure a : Compute Numeral).RefusesOnly 0 False False :=
  (settles_pure a).refusesOnly id id

theorem refusesOnly_add (first : a.Represents v) (second : b.Represents w) :
    (a.add b).RefusesOnly (Operation.add a b).checkedDegree False False := by
  cases a with
  | rational r => cases b <;> exact refusesOnly_pure _
  | irrational x =>
    cases b with
    | rational s => exact refusesOnly_pure _
    | irrational y =>
      have varies := degree_ne_zero first
      refine Settles.refusesOnly_checkDegree (settles_resultantIn_bind ?_) id id
      exact settles_selectRoot
        (Poly.eliminates_sum varies (degree_ne_zero second)).toPolynomial_ne_zero
        (Poly.eval_eliminant_sum varies (Represents.isolates first).root
          (Represents.isolates second).root)
        (selects_add first second) (Poly.degree_eliminant_le _ _ _)

theorem refusesOnly_sub (first : a.Represents v) (second : b.Represents w) :
    (a.sub b).RefusesOnly (Operation.sub a b).checkedDegree False False := by
  have degree : (Operation.add a b.neg).checkedDegree = (Operation.sub a b).checkedDegree := by
    cases a with
    | rational r => cases b <;> rfl
    | irrational x =>
      cases b with
      | rational s => rfl
      | irrational y => exact congrArg (x.degree * ·) (degree_neg second)
  rw [← degree]
  exact refusesOnly_add first second.neg

theorem refusesOnly_mul (first : a.Represents v) (second : b.Represents w) :
    (a.mul b).RefusesOnly (Operation.mul a b).checkedDegree False False := by
  unfold mul
  cases a with
  | rational r => cases b <;> split <;> exact refusesOnly_pure _
  | irrational x =>
    cases b with
    | rational s => split <;> exact refusesOnly_pure _
    | irrational y =>
      have varies := degree_ne_zero first
      refine Settles.refusesOnly_checkDegree (settles_resultantIn_bind ?_) id id
      exact settles_selectRoot
        (Poly.eliminates_product varies (degree_ne_zero second)).toPolynomial_ne_zero
        (Poly.eval_eliminant_product varies (degree_ne_zero second)
          (Represents.isolates first).root (Represents.isolates second).root)
        (selects_mul first second) (Poly.degree_eliminant_le _ _ _)

/-- The reciprocal of zero is refused, and any other is returned. -/
theorem inv_eq (known : b.Represents w) :
    w = 0 ∧ b.inv = throw .divisionByZero ∨
      w ≠ 0 ∧ ∃ c, b.inv = pure c ∧ ∀ a, (Operation.mul a c).checkedDegree =
        (Operation.div a b).checkedDegree := by
  cases b with
  | rational s =>
    rw [← (known : (s : ℝ) = w), ne_eq, Rat.cast_eq_zero]
    unfold inv
    dsimp only
    by_cases zero : s = 0
    · exact .inl ⟨zero, if_pos zero⟩
    · exact .inr ⟨zero, rational s⁻¹, if_neg zero, fun a => by cases a <;> rfl⟩
  | irrational y =>
    have represents : y.Represents w := known
    have off : y.separateZero.interval.recip? =
        some ⟨y.separateZero.interval.hi⁻¹, y.separateZero.interval.lo⁻¹⟩ := by
      rw [Interval.recip?, represents.separateZero, if_neg Bool.false_ne_true]
    refine .inr ⟨represents.irrational.ne_zero, ?_⟩
    unfold inv
    dsimp only
    rw [off]
    refine ⟨_, rfl, fun a => ?_⟩
    cases a with
    | rational r => rfl
    | irrational x =>
      have nonzero := Poly.toPolynomial_reverse_ne_zero represents.separable.ne_zero
      have same : y.separateZero.poly = y.poly := poly_refineWhile _ _ y
      show x.degree * y.separateZero.poly.reverse.primitive.degree = _
      rw [same, Poly.degree_primitive nonzero]
      rfl

theorem refusesOnly_inv (known : a.Represents v) :
    a.inv.RefusesOnly 0 (v = 0) False := by
  rcases inv_eq known with ⟨zero, same⟩ | ⟨nonzero, c, same, -⟩
  · rw [same]
    exact refusesOnly_divisionByZero zero id
  · rw [same]
    exact (settles_pure c).refusesOnly nonzero id

theorem refusesOnly_div (first : a.Represents v) (second : b.Represents w) :
    (a.div b).RefusesOnly (Operation.div a b).checkedDegree (w = 0) False := by
  unfold div
  rcases inv_eq second with ⟨zero, same⟩ | ⟨nonzero, c, same, degree⟩
  · rw [same]
    exact refusesOnly_divisionByZero zero id
  · have denotes : b.Denotes ⊤ w := ⟨second, le_top⟩
    have returned : (b.inv.run {} {}).1 = .ok c := by
      rw [same]
      rfl
    have inverse := (ensures_inv denotes {} c returned).2.represents
    rw [same, ← degree a, eq_false nonzero]
    exact refusesOnly_mul first inverse

theorem refusesOnly_power (known : a.Represents v) {k : ℕ} (small : k < 2 ^ 32) :
    (a.power k).RefusesOnly (Operation.power a k).checkedDegree False False := by
  rcases k with _ | _ | k
  · cases a <;> exact refusesOnly_pure _
  · cases a <;> exact refusesOnly_pure _
  unfold power
  rw [if_neg (by omega), if_neg (by omega)]
  cases a with
  | rational r =>
    dsimp only
    rw [Rational.power?_of_lt r small]
    exact refusesOnly_pure _
  | irrational x =>
    have varies := degree_ne_zero known
    rw [show (Operation.power (irrational x) (k + 2)).checkedDegree = x.degree from rfl]
    refine Settles.refusesOnly_checkDegree (settles_resultantIn_bind ?_) id id
    exact settles_selectRoot (Poly.eliminates_power varies (k + 2)).toPolynomial_ne_zero
      (Poly.eval_eliminant_power varies (Represents.isolates known).root (k + 2))
      (selects_power known (k + 2)) (Poly.degree_eliminant_le _ _ _)

theorem refusesOnly_root (known : a.Represents v) (k : ℕ) :
    (a.root k).RefusesOnly (Operation.root a k).checkedDegree (k = 0)
      (k ≠ 0 ∧ k % 2 = 0 ∧ v < 0) := by
  rcases k with _ | _ | k
  · exact refusesOnly_divisionByZero rfl fun asked => asked.1 rfl
  · cases a <;> exact (settles_pure _).refusesOnly one_ne_zero fun asked => by omega
  have positive : k + 2 ≠ 0 := Nat.succ_ne_zero _
  unfold root
  rw [if_neg positive]
  split
  · next easy =>
    have zero : a.isZero = true := by simpa using easy
    have real : ¬(k + 2 ≠ 0 ∧ (k + 2) % 2 = 0 ∧ v < 0) :=
      fun asked => asked.2.2.ne ((isZero_iff known).mp zero)
    cases a with
    | rational r =>
      have none : (Operation.root (rational r) (k + 2)).checkedDegree = 0 :=
        if_pos (.inr (.inl (of_decide_eq_true zero)))
      rw [none]
      exact (settles_pure _).refusesOnly positive real
    | irrational x => cases zero
  next hard =>
  rw [Bool.or_eq_true, not_or, isZero_iff known] at hard
  split
  · next negative =>
    rw [Bool.and_eq_true, decide_eq_true_eq, beq_iff_eq, known.sign_eq, cmp_eq_lt_iff] at negative
    exact refusesOnly_noRealRoot positive ⟨positive, negative⟩
  next real =>
  rw [Bool.and_eq_true, decide_eq_true_eq, beq_iff_eq, known.sign_eq, cmp_eq_lt_iff] at real
  have above (even : (k + 2) % 2 = 0) : 0 < v :=
    lt_of_le_of_ne (not_lt.mp fun below => real ⟨even, below⟩) (Ne.symm hard.2)
  obtain ⟨z, power, sign⟩ := exists_principal_root positive hard.2 above
  have selects := selects_root known positive power sign
  cases a with
  | rational r =>
    have same : (r : ℝ) = v := known
    dsimp only
    split
    · next value found =>
      have none : (Operation.root (rational r) (k + 2)).checkedDegree = 0 :=
        if_pos (.inr (.inr (by rw [found]; rfl)))
      rw [none]
      exact (settles_pure _).refusesOnly positive fun asked => real asked.2
    · next missing =>
      have nonzero : r ≠ 0 := by
        rw [← Rat.cast_ne_zero (α := ℝ), same]
        exact hard.2
      have degree : (Operation.root (rational r) (k + 2)).checkedDegree = k + 2 :=
        if_neg (by simp [missing, nonzero])
      rw [degree]
      refine Settles.refusesOnly_checkDegree ?_ positive fun asked => real asked.2
      exact settles_selectRoot (Poly.toPolynomial_monomial_sub_ne_zero positive r)
        (eval_monomial_sub (power.trans same.symm)) selects (Poly.degree_monomial_sub _ r).le
  | irrational x =>
    rw [show (Operation.root (irrational x) (k + 2)).checkedDegree = x.degree * (k + 2) from rfl]
    refine Settles.refusesOnly_checkDegree ?_ positive fun asked => real asked.2
    exact settles_selectRoot (Poly.toPolynomial_substitutePower_ne_zero
        (Represents.separable known).ne_zero positive)
      (eval_substitutePower positive power (Represents.isolates known).root) selects
      (Poly.degree_substitutePower x.poly positive).le

/-! ### Reachable numerals -/

/-- **Operations refuse for the documented reasons only**: reciprocals and quotients by zero are
refused as such, even roots of negative numbers as not real, and a degree that is checked when it is
above the limit; comparison and the integral part have none of these refusals. When no such reason
is there, an operation returns if the rounds of refinement suffice. -/
theorem refusals_exact :
    (∀ operation : Operation, (∀ a ∈ operation.operands, Reachable allowed a) →
      operation.exponent < 2 ^ 32 →
      operation.compute.RefusesOnly operation.checkedDegree operation.DividesByZero
        operation.LacksRealRoot) ∧
    ∀ a b, Reachable allowed a → Reachable allowed b →
      (a.compare b).RefusesOnly 0 False False ∧ a.floor.RefusesOnly 0 False False := by
  refine ⟨fun operation reachable small => ?_, fun a b first second =>
    ⟨(settles_compare first.wellFormed second.wellFormed).refusesOnly id id,
      (settles_floor first.wellFormed).refusesOnly id id⟩⟩
  have known (a : Numeral) (member : a ∈ operation.operands) : a.WellFormed :=
    (reachable a member).wellFormed
  cases operation with
  | neg a => cases a <;> exact refusesOnly_pure _
  | add a b => exact refusesOnly_add (known a (.head _)) (known b (.tail _ (.head _)))
  | sub a b => exact refusesOnly_sub (known a (.head _)) (known b (.tail _ (.head _)))
  | mul a b => exact refusesOnly_mul (known a (.head _)) (known b (.tail _ (.head _)))
  | inv a => exact refusesOnly_inv (known a (.head _))
  | div a b => exact refusesOnly_div (known a (.head _)) (known b (.tail _ (.head _)))
  | power a k => exact refusesOnly_power (known a (.head _)) small
  | root a k => exact refusesOnly_root (known a (.head _)) k

/-- The square root of two is returned and that of minus two is refused; the square of the former is
returned if the rounds suffice and the degree four is allowed, and refused for its degree if not. -/
theorem refusals_exact_sqrt_two :
    let two := irrational ⟨.ofInts [-2, 0, 1], 1, ⟨3 / 4, 3 / 2⟩⟩
    ((root (rational 2) 2).run {} {}).1 = .ok two ∧
    (∀ limits tally, ((root (rational (-2)) 2).run limits tally).1 = .error .noRealRoot) ∧
    (∃ enough, ∀ limits : Algebraic.Limits, 4 ≤ limits.maxDegree →
      enough ≤ limits.maxRefinements → ∀ tally, ∃ n, ((mul two two).run limits tally).1 = .ok n) ∧
    ∀ limits : Algebraic.Limits, limits.maxDegree < 4 → ∀ tally,
      ((mul two two).run limits tally).1 = .error (.degreeExceeded 4 limits.maxDegree) := by
  intro two
  have computed : ((root (rational 2) 2).run {} {}).1 = .ok two := by decide +kernel
  have rationals (r : ℚ) : ∀ a ∈ (Operation.root (rational r) 2).operands,
      Reachable (fun _ => True) a := fun a member => List.mem_singleton.mp member ▸ .rational r
  have reached : Reachable (fun _ => True) two := .compute trivial (rationals 2) computed
  have negative := refusals_exact.1 (.root (rational (-2)) 2) (rationals (-2))
    (by norm_num [Operation.exponent])
  have square := refusals_exact.1 (.mul two two)
    (List.forall_mem_cons.mpr ⟨reached, List.forall_mem_singleton.mpr reached⟩)
    (by norm_num [Operation.exponent])
  have degree : (Operation.mul two two).checkedDegree = 4 := by decide +kernel
  rw [degree] at square
  have below : (rational (-2)).value < 0 := by
    rw [value]
    norm_num
  refine ⟨computed, fun limits tally => ?_, square.returns id id, fun limits above tally => ?_⟩
  · exact (negative.noRealRoot limits tally).mpr ⟨two_ne_zero, rfl, below⟩
  · exact (square.degreeExceeded limits tally 4 limits.maxDegree).mpr
      ⟨⟨id, id, above⟩, rfl, rfl⟩

end Numeral
end Stratagem
