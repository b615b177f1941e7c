import Stratagem.Proofs.Algebraic.Reachable

/-!
# The form of a numeral

A reachable numeral is rational just when the number it denotes is (`Numeral.rationals_recognized`).
The polynomial of an irrational one is square-free and primitive with a positive leading
coefficient, and whether zero is a root of it is decided by the operation: selection and reciprocals
leave no factors `x`, but a linear map takes the rational roots of the polynomial of its operand with
it, and one of them may come to stand at zero (`Numeral.representation_exact`).
-/
namespace Stratagem

open Stratagem.Algebraic Stratagem.Algebraic.Compute Polynomial

namespace Numeral

variable {a b : Numeral} {x y : Algebraic} {v w : ℝ} {limits : Algebraic.Limits}
  {allowed : Algebraic.Limits → Prop}

/-! ### Rationals -/

theorem Represents.isRational_iff (known : a.Represents v) :
    a.isRational = true ↔ ∃ r : ℚ, v = r := by
  cases a with
  | rational r => exact iff_of_true rfl ⟨r, (known : (r : ℝ) = v).symm⟩
  | irrational x =>
    refine iff_of_false Bool.false_ne_true fun rational => ?_
    obtain ⟨r, same⟩ := rational
    exact Represents.irrational known ⟨r, same.symm⟩

theorem Represents.isIntegral_iff (known : a.Represents v) :
    a.isIntegral = true ↔ ∃ m : ℤ, v = m := by
  cases a with
  | rational r =>
    rw [← (known : (r : ℝ) = v), isIntegral, Rational.isIntegral, beq_iff_eq]
    constructor
    · intro whole
      exact ⟨r.num, by exact_mod_cast (Rat.coe_int_num_of_den_eq_one whole).symm⟩
    · rintro ⟨m, same⟩
      rw [(by exact_mod_cast same : r = m)]
      exact Rat.den_intCast m
  | irrational x =>
    refine iff_of_false Bool.false_ne_true fun whole => ?_
    obtain ⟨m, same⟩ := whole
    exact (Represents.irrational known).ne_int m same

/-- **Rational results are recognized**: what an operation returns is a rational just when the
number that it asks for is one, and an integer just when that is one; and no irrational numeral that
is reachable denotes a rational. -/
theorem rationals_recognized {operation : Operation}
    (known : ∀ a ∈ operation.operands, Reachable allowed a) (fits : allowed limits) {tally : Tally}
    {n : Numeral} (returned : (operation.compute.run limits tally).1 = .ok n) :
    operation.Asks n.value ∧ (n.isRational = true ↔ ∃ r : ℚ, n.value = r) ∧
      (n.isIntegral = true ↔ ∃ m : ℤ, n.value = m) ∧
      ∀ x, Reachable allowed (irrational x) → Irrational (irrational x).value := by
  have reached : Reachable allowed n := .compute fits known returned
  have bounded (a : Numeral) (member : a ∈ operation.operands) : a.Bounded ⊤ :=
    (known a member).bounded fun _ _ => le_top
  obtain ⟨v, asked, denoted⟩ := operation.ensures_compute bounded le_top tally n returned
  refine ⟨?_, reached.wellFormed.isRational_iff, reached.wellFormed.isIntegral_iff,
    fun x other => Algebraic.Represents.irrational other.wellFormed⟩
  rw [denoted.value_eq]
  exact asked

/-- The square root of two is no rational, and its square is recognized to be one. -/
theorem rationals_recognized_sqrt_two :
    let two := irrational ⟨.ofInts [-2, 0, 1], 1, ⟨3 / 4, 3 / 2⟩⟩
    ((root (rational 2) 2).run {} {}).1 = .ok two ∧ two.value ^ 2 = 2 ∧
    (∀ r : ℚ, two.value ≠ r) ∧ ((mul two two).run {} {}).1 = .ok (rational 2) := by
  intro two
  have computed : ((root (rational 2) 2).run {} {}).1 = .ok two := by decide +kernel
  have known : ∀ a ∈ (Operation.root (rational 2) 2).operands, Reachable (fun _ => True) a :=
    fun a member => List.mem_singleton.mp member ▸ .rational 2
  obtain ⟨⟨-, square, -⟩, recognized, -⟩ := rationals_recognized known trivial computed
  refine ⟨computed, ?_, fun r same => ?_, by decide +kernel⟩
  · rw [square, value, Rat.cast_ofNat]
  · exact Bool.false_ne_true (recognized.mpr ⟨r, same⟩)

/-! ### The polynomial -/

/-- The polynomial of an irrational numeral has a positive leading coefficient, and zero is a root
of it under a condition. -/
def Form (zero : Prop) : Numeral → Prop
  | rational _ => True
  | irrational x => 0 < x.poly.toPolynomial.leadingCoeff ∧ (x.poly.eval 0 = 0 ↔ zero)

theorem Form.congr {first second : Prop} (known : a.Form first) (same : first ↔ second) :
    a.Form second := by
  rwa [propext same] at known

namespace Operation

/-- The operand that the operation maps linearly, and the rational that it takes to zero. -/
def preimageOfZero? : Operation → Option (Algebraic × ℚ)
  | neg (irrational x) => some (x, 0)
  | add (irrational x) (rational r) => some (x, -r)
  | add (rational r) (irrational x) => some (x, -r)
  | sub (irrational x) (rational r) => some (x, r)
  | sub (rational r) (irrational x) => some (x, r)
  | mul (irrational x) (rational _) => some (x, 0)
  | mul (rational _) (irrational x) => some (x, 0)
  | div (irrational x) (rational _) => some (x, 0)
  | power (irrational x) 1 => some (x, 0)
  | root (irrational x) 1 => some (x, 0)
  | _ => none

/-- The operation maps an operand linearly, and takes a rational root of its polynomial to zero. -/
def MovesRootToZero (operation : Operation) : Prop :=
  ∃ x r, operation.preimageOfZero? = some (x, r) ∧ x.poly.eval r = 0

theorem movesRootToZero_iff {operation : Operation} {r : ℚ}
    (found : operation.preimageOfZero? = some (x, r)) :
    operation.MovesRootToZero ↔ x.poly.eval r = 0 := by
  constructor
  · rintro ⟨y, s, same, zero⟩
    obtain ⟨rfl, rfl⟩ := Prod.mk.inj (Option.some.inj (found.symm.trans same))
    exact zero
  · exact fun zero => ⟨x, r, found, zero⟩

theorem not_movesRootToZero {operation : Operation} (none : operation.preimageOfZero? = none) :
    ¬operation.MovesRootToZero := by
  rintro ⟨x, r, found, -⟩
  rw [none] at found
  cases found

end Operation

/-- A linear map takes the preimage of zero to zero. -/
theorem form_linear {operation : Operation} {r c : ℚ}
    (found : operation.preimageOfZero? = some (x, r)) (known : x.Represents v) (other : c ≠ 0)
    (index : ℕ) (range : Interval) :
    (irrational ⟨(x.poly.composeLinear c r).primitive, index, range⟩).Form
      operation.MovesRootToZero := by
  have nonzero := (Poly.separable_composeLinear (b := r) known.separable other).ne_zero
  refine ⟨Poly.leadingCoeff_primitive_pos nonzero, ?_⟩
  rw [Operation.movesRootToZero_iff found, Poly.eval_rational_primitive_eq_zero_iff nonzero,
    Poly.eval_composeLinear, mul_zero, zero_add]

theorem form_neg (known : x.Represents v) :
    (irrational x.neg).Form (Operation.neg (irrational x)).MovesRootToZero := by
  have form (index : ℕ) (range : Interval) :
      (irrational ⟨(x.poly.composeLinear (-1) 0).primitive, index, range⟩).Form
        (Operation.neg (irrational x)).MovesRootToZero :=
    form_linear rfl known (neg_ne_zero.mpr one_ne_zero) index range
  rw [← Poly.reflect_eq] at form
  exact form _ _

theorem form_numeralOf {q : Poly} (positive : 0 < q.toPolynomial.leadingCoeff) (range : Interval) :
    (numeralOf q range).Form False := by
  have nonzero := leadingCoeff_ne_zero.mp positive.ne'
  unfold numeralOf
  dsimp only
  generalize q.bisectBelow _ _ range = narrow
  split
  · trivial
  · split
    · trivial
    · refine ⟨?_, iff_false_intro (Poly.eval_zero_stripZeroRoots_ne_zero nonzero)⟩
      rwa [Poly.leadingCoeff_stripZeroRoots]

section Selection

variable {σ : Type} {q : Poly} {admits : σ → Interval → Bool} {refine' : σ → σ} {operands : σ}

theorem ensures_selectFrom_form (positive : 0 < q.toPolynomial.leadingCoeff) (rounds : ℕ)
    (candidates : List Interval) :
    (selectFrom q admits refine' rounds operands candidates).Ensures limits (Form False) := by
  induction rounds generalizing operands candidates with
  | zero => exact ensures_outOfRounds
  | succ rounds ih =>
    unfold selectFrom
    split
    · exact ensures_throw
    · exact ensures_pure (form_numeralOf positive _)
    · exact ensures_count_bind (ih _)

/-- A selected root has a polynomial without the factors `x`. -/
theorem ensures_selectRoot_form (nonzero : q.toPolynomial ≠ 0) {zero : Prop} (never : ¬zero) :
    (selectRoot q admits refine' operands).Ensures limits (Form zero) := by
  refine ensures_bind (ensures_checkDegree _) fun _ _ => ensures_count_bind (ensures_read_bind ?_)
  have positive := Poly.leadingCoeff_primitive_pos (Poly.squareFree_ne_zero nonzero)
  exact ensures_mono (ensures_selectFrom_form positive _ _)
    fun n form => form.congr (iff_of_false id never)

end Selection

/-! ### The operations -/

theorem ensures_add_form (first : a.Represents v) (second : b.Represents w) :
    (a.add b).Ensures limits (Form (Operation.add a b).MovesRootToZero) := by
  cases a with
  | rational r =>
    cases b with
    | rational s => exact ensures_pure trivial
    | irrational y =>
      exact ensures_pure (form_linear rfl second one_ne_zero _ _)
  | irrational x =>
    cases b with
    | rational s =>
      exact ensures_pure (form_linear rfl first one_ne_zero _ _)
    | irrational y =>
      refine ensures_bind (ensures_checkDegree _) fun _ _ => ensures_resultantIn_bind ?_
      have eliminates := Poly.eliminates_sum (degree_ne_zero first) (degree_ne_zero second)
      exact ensures_selectRoot_form eliminates.toPolynomial_ne_zero
        (Operation.not_movesRootToZero rfl)

/-- The polynomial of the opposite vanishes at the opposite rationals. -/
theorem eval_poly_neg (known : x.Represents v) (r : ℚ) :
    x.neg.poly.eval r = 0 ↔ x.poly.eval (-r) = 0 := by
  have other : (-1 : ℚ) ≠ 0 := neg_ne_zero.mpr one_ne_zero
  have nonzero := (Poly.separable_composeLinear (b := 0) known.separable other).ne_zero
  show x.poly.reflect.primitive.eval r = 0 ↔ _
  rw [Poly.reflect_eq, Poly.eval_rational_primitive_eq_zero_iff nonzero, Poly.eval_composeLinear,
    neg_one_mul, add_zero]

theorem movesRootToZero_sub (second : b.Represents w) :
    (Operation.add a b.neg).MovesRootToZero ↔ (Operation.sub a b).MovesRootToZero := by
  cases a with
  | rational r =>
    cases b with
    | rational s =>
      exact iff_of_false (Operation.not_movesRootToZero rfl) (Operation.not_movesRootToZero rfl)
    | irrational y =>
      rw [neg, Operation.movesRootToZero_iff rfl, Operation.movesRootToZero_iff rfl,
        eval_poly_neg second, neg_neg]
  | irrational x =>
    cases b with
    | rational s =>
      rw [neg, Operation.movesRootToZero_iff rfl, Operation.movesRootToZero_iff rfl, neg_neg]
    | irrational y =>
      exact iff_of_false (Operation.not_movesRootToZero rfl) (Operation.not_movesRootToZero rfl)

theorem ensures_mul_form (first : a.Represents v) (second : b.Represents w) :
    (a.mul b).Ensures limits (Form (Operation.mul a b).MovesRootToZero) := by
  unfold mul
  split
  · exact ensures_pure trivial
  next nonzero =>
  rw [Bool.or_eq_true, not_or] at nonzero
  cases a with
  | rational r =>
    cases b with
    | rational s => exact ensures_pure trivial
    | irrational y =>
      have other := inv_ne_zero (isZero_rational.mp nonzero.1)
      exact ensures_pure (form_linear rfl second other _ _)
  | irrational x =>
    cases b with
    | rational s =>
      have other := inv_ne_zero (isZero_rational.mp nonzero.2)
      exact ensures_pure (form_linear rfl first other _ _)
    | irrational y =>
      refine ensures_bind (ensures_checkDegree _) fun _ _ => ensures_resultantIn_bind ?_
      have eliminates := Poly.eliminates_product (degree_ne_zero first) (degree_ne_zero second)
      exact ensures_selectRoot_form eliminates.toPolynomial_ne_zero
        (Operation.not_movesRootToZero rfl)

/-- The polynomial of a reciprocal has no factors `x`. -/
theorem ensures_inv_form (known : a.Represents v) :
    a.inv.Ensures limits fun n => n.Form False ∧ n.isRational = a.isRational := by
  cases a with
  | rational r =>
    unfold inv
    dsimp only
    split
    · exact ensures_throw
    · exact ensures_pure ⟨trivial, rfl⟩
  | irrational x =>
    unfold inv
    dsimp only
    split
    · exact ensures_throw
    · have separable := Algebraic.Represents.separable known
      have nonzero := Poly.toPolynomial_reverse_ne_zero separable.ne_zero
      rw [show x.separateZero.poly = x.poly from poly_refineWhile _ _ x]
      refine ensures_pure ⟨⟨Poly.leadingCoeff_primitive_pos nonzero, iff_false_intro ?_⟩, rfl⟩
      rw [Poly.eval_rational_primitive_eq_zero_iff nonzero, ← Poly.eval_toReal_eq_zero_iff,
        Rat.cast_zero]
      exact Poly.eval_zero_reverse_ne_zero separable.ne_zero

theorem movesRootToZero_div {inverse : Numeral} (form : inverse.Form False)
    (same : inverse.isRational = b.isRational) :
    (Operation.mul a inverse).MovesRootToZero ↔ (Operation.div a b).MovesRootToZero := by
  cases inverse with
  | rational s =>
    cases b with
    | irrational y => cases same
    | rational t =>
      cases a with
      | rational r =>
        exact iff_of_false (Operation.not_movesRootToZero rfl) (Operation.not_movesRootToZero rfl)
      | irrational x => rw [Operation.movesRootToZero_iff rfl, Operation.movesRootToZero_iff rfl]
  | irrational z =>
    cases b with
    | rational t => cases same
    | irrational y =>
      refine iff_of_false ?_ (Operation.not_movesRootToZero (by cases a <;> rfl))
      cases a with
      | rational r =>
        rw [Operation.movesRootToZero_iff rfl]
        exact form.2.mp
      | irrational x => exact Operation.not_movesRootToZero rfl

theorem form_self {zero : Prop} (form : (irrational x).Form zero) :
    (irrational x).Form (x.poly.eval 0 = 0) := ⟨form.1, Iff.rfl⟩

theorem ensures_power_form (known : a.Represents v) {zero : Prop} (form : a.Form zero) (k : ℕ) :
    (a.power k).Ensures limits (Form (Operation.power a k).MovesRootToZero) := by
  rcases k with _ | _ | k
  · exact ensures_pure trivial
  · refine ensures_pure ?_
    cases a with
    | rational r => trivial
    | irrational x => exact (form_self form).congr (Operation.movesRootToZero_iff rfl).symm
  · unfold power
    rw [if_neg (by omega), if_neg (by omega)]
    cases a with
    | rational r =>
      dsimp only
      split
      · exact ensures_pure trivial
      · exact ensures_throw
    | irrational x =>
      refine ensures_bind (ensures_checkDegree _) fun _ _ => ensures_resultantIn_bind ?_
      have eliminates := Poly.eliminates_power (degree_ne_zero known) (k + 2)
      exact ensures_selectRoot_form eliminates.toPolynomial_ne_zero
        (Operation.not_movesRootToZero rfl)

theorem ensures_root_form (known : a.Represents v) {zero : Prop} (form : a.Form zero) (k : ℕ) :
    (a.root k).Ensures limits (Form (Operation.root a k).MovesRootToZero) := by
  rcases k with _ | _ | k
  · exact ensures_throw
  · refine ensures_pure ?_
    cases a with
    | rational r => trivial
    | irrational x => exact (form_self form).congr (Operation.movesRootToZero_iff rfl).symm
  have positive : k + 2 ≠ 0 := Nat.succ_ne_zero _
  unfold root
  rw [if_neg positive]
  split
  · next easy =>
    refine ensures_pure ?_
    cases a with
    | rational r => trivial
    | irrational x => simp [isZero] at easy
  split
  · exact ensures_throw
  cases a with
  | rational r =>
    dsimp only
    split
    · exact ensures_pure trivial
    · refine ensures_bind (ensures_checkDegree _) fun _ _ => ?_
      exact ensures_selectRoot_form (Poly.toPolynomial_monomial_sub_ne_zero positive r)
        (Operation.not_movesRootToZero rfl)
  | irrational x =>
    refine ensures_bind (ensures_checkDegree _) fun _ _ => ?_
    have nonzero := (Algebraic.Represents.separable known).ne_zero
    exact ensures_selectRoot_form (Poly.toPolynomial_substitutePower_ne_zero nonzero positive)
      (Operation.not_movesRootToZero rfl)

theorem ensures_compute_form (operation : Operation)
    (known : ∀ a ∈ operation.operands, a.WellFormed)
    (form : ∀ a ∈ operation.operands, ∃ zero, a.Form zero) :
    operation.compute.Ensures limits (Form operation.MovesRootToZero) := by
  cases operation with
  | neg a =>
    refine ensures_pure ?_
    cases a with
    | rational r => trivial
    | irrational x =>
      exact form_neg (known (irrational x) (.head _))
  | add a b =>
    exact ensures_add_form (known a (.head _)) (known b (.tail _ (.head _)))
  | sub a b =>
    have second := known b (.tail _ (.head _))
    exact ensures_mono (ensures_add_form (known a (.head _)) second.neg)
      fun n form => form.congr (movesRootToZero_sub second)
  | mul a b =>
    exact ensures_mul_form (known a (.head _)) (known b (.tail _ (.head _)))
  | inv a =>
    exact ensures_mono (ensures_inv_form (known a (.head _)))
      fun n form => form.1.congr (iff_of_false id (Operation.not_movesRootToZero rfl))
  | div a b =>
    have second := known b (.tail _ (.head _))
    have denotes : b.Denotes ⊤ b.value := ⟨second, le_top⟩
    refine ensures_bind (ensures_and (ensures_inv denotes) (ensures_inv_form second))
      fun n part => ?_
    obtain ⟨⟨-, denoted⟩, form, same⟩ := part
    have first := known a (.head _)
    exact ensures_mono (ensures_mul_form first denoted.represents)
      fun m result => result.congr (movesRootToZero_div form same)
  | power a k =>
    obtain ⟨zero, form⟩ := form a (.head _)
    exact ensures_power_form (known a (.head _)) form k
  | root a k =>
    obtain ⟨zero, form⟩ := form a (.head _)
    exact ensures_root_form (known a (.head _)) form k

end Numeral

/-! ### Reachable numbers -/

namespace Algebraic

/-- The form of an irrational number: its parts agree, the polynomial has a positive leading
coefficient, and the position is the number of lesser roots. -/
structure Normal (a : Algebraic) : Prop where
  /-- The parts agree. -/
  regular : a.Regular
  /-- The leading coefficient is positive. -/
  positive : 0 < a.poly.toPolynomial.leadingCoeff
  /-- The position is the number of roots below the number. -/
  position : (a.rootIndex : ℕ∞) =
    {y : ℝ | a.poly.toReal.eval y = 0 ∧ y < a.poly.rootAt a.rootIndex}.encard

/-- Halving an interval any number of times, once or down to a width each. -/
inductive NarrowsTo (a : Algebraic) : Algebraic → Prop
  /-- Not at all. -/
  | refl : NarrowsTo a a
  /-- Once more. -/
  | refine {b : Algebraic} (before : NarrowsTo a b) : NarrowsTo a b.refine
  /-- Down to a width. -/
  | refineBelow {b : Algebraic} (before : NarrowsTo a b) (width : ℚ) :
      NarrowsTo a (b.refineBelow width)

variable {a b : Algebraic} {v : ℝ}

theorem NarrowsTo.exists_iterate (later : a.NarrowsTo b) : ∃ n, b = Algebraic.refine^[n] a := by
  induction later with
  | refl => exact ⟨0, rfl⟩
  | refine before ih =>
    obtain ⟨n, rfl⟩ := ih
    exact ⟨n + 1, (Function.iterate_succ_apply' _ _ _).symm⟩
  | refineBelow before width ih =>
    obtain ⟨n, rfl⟩ := ih
    obtain ⟨m, -, same, -⟩ := refineWhile_eq_iterate (fun b => width ≤ b.interval.width)
      (Rational.halvings (Algebraic.refine^[n] a).interval.width width) (Algebraic.refine^[n] a)
    exact ⟨m + n, same.trans (Function.iterate_add_apply _ _ _ _).symm⟩

theorem poly_iterate_refine (a : Algebraic) (n : ℕ) : (Algebraic.refine^[n] a).poly = a.poly := by
  induction n with
  | zero => rfl
  | succ n ih => rw [Function.iterate_succ_apply', poly_refine, ih]

theorem Represents.normal (known : a.Represents v)
    (positive : 0 < a.poly.toPolynomial.leadingCoeff) : a.Normal := by
  refine ⟨known.regular, positive, ?_⟩
  have below : {y : ℝ | a.poly.toReal.eval y = 0 ∧ y < v} = (a.poly.realRoots.filter (· < v)) := by
    ext y
    rw [Finset.coe_filter, Set.mem_ofPred_eq, Set.mem_ofPred_eq,
      Poly.mem_realRoots known.separable.ne_zero]
  rw [known.rootAt_eq, below, Set.encard_coe_eq_coe_finsetCard, known.position]

end Algebraic

namespace Numeral

theorem Reachable.form (known : Reachable allowed a) : ∃ zero, a.Form zero := by
  induction known with
  | rational r => exact ⟨False, trivial⟩
  | @refine a known ih =>
    obtain ⟨zero, form⟩ := ih
    refine ⟨zero, ?_⟩
    cases a with
    | rational r => trivial
    | irrational x =>
      rw [Form, ← poly_refine] at form
      exact form
  | compute fits operands returned ih =>
    exact ⟨_, ensures_compute_form _ (fun a member => (operands a member).wellFormed) ih _ _
      returned⟩

/-- **The form of an irrational result**: whatever operation returns it and however often its
interval is halved after that, its polynomial is square-free and primitive with a positive leading
coefficient, its position is the number of lesser roots, and its interval holds no other root and
none at its ends. Zero is a root of the polynomial just when the operation maps an operand linearly
and takes a rational root of its polynomial to zero. -/
theorem representation_exact {operation : Operation}
    (known : ∀ a ∈ operation.operands, Reachable allowed a) (fits : allowed limits) {tally : Tally}
    (returned : (operation.compute.run limits tally).1 = .ok (irrational x))
    (later : x.NarrowsTo y) :
    y.Normal ∧ (irrational y).value = (irrational x).value ∧
      (y.poly.eval 0 = 0 ↔ operation.MovesRootToZero) := by
  have reached : Reachable allowed (irrational x) := .compute fits known returned
  have form := ensures_compute_form operation (fun a member => (known a member).wellFormed)
    (fun a member => (known a member).form) tally _ returned
  have represents : x.Represents (irrational x).value := reached.wellFormed
  obtain ⟨n, rfl⟩ := later.exists_iterate
  have narrow := represents.iterate_refine n
  have same : (Algebraic.refine^[n] x).poly = x.poly := poly_iterate_refine x n
  refine ⟨narrow.normal ?_, narrow.rootAt_eq, ?_⟩
  · rw [same]
    exact form.1
  · rw [same]
    exact form.2

/-- The square root of two and one more than it have a sum whose polynomial has the root one; less
one, the sum has a polynomial that vanishes at zero. -/
theorem representation_exact_zero_root :
    let two := irrational ⟨.ofInts [-2, 0, 1], 1, ⟨3 / 4, 3 / 2⟩⟩
    let more := irrational ⟨.ofInts [-1, -2, 1], 1, ⟨7 / 4, 5 / 2⟩⟩
    let sum := irrational ⟨.ofInts [7, -5, -3, 1], 2, ⟨7 / 2, 4⟩⟩
    let less : Algebraic := ⟨.ofInts [0, -8, 0, 1], 2, ⟨5 / 2, 3⟩⟩
    ((root (rational 2) 2).run {} {}).1 = .ok two ∧
    ((add two (rational 1)).run {} {}).1 = .ok more ∧
    ((add two more).run {} {}).1 = .ok sum ∧
    ((add sum (rational (-1))).run {} {}).1 = .ok (irrational less) ∧
    less.poly.eval 0 = 0 ∧ less.Normal := by
  intro two more sum less
  have first : ((root (rational 2) 2).run {} {}).1 = .ok two := by decide +kernel
  have second : ((add two (rational 1)).run {} {}).1 = .ok more := by decide +kernel
  have third : ((add two more).run {} {}).1 = .ok sum := by decide +kernel
  have last : ((add sum (rational (-1))).run {} {}).1 = .ok (irrational less) := by decide +kernel
  have squareRoot : Reachable (fun _ => True) two := by
    have known : ∀ a ∈ (Operation.root (rational 2) 2).operands, Reachable (fun _ => True) a :=
      fun a member => List.mem_singleton.mp member ▸ .rational 2
    exact .compute trivial known first
  have sums {a b n : Numeral} (left : Reachable (fun _ => True) a)
      (right : Reachable (fun _ => True) b) (computed : ((add a b).run {} {}).1 = .ok n) :
      Reachable (fun _ => True) n := by
    have known : ∀ c ∈ (Operation.add a b).operands, Reachable (fun _ => True) c :=
      List.forall_mem_cons.mpr ⟨left, List.forall_mem_singleton.mpr right⟩
    exact .compute trivial known computed
  have whole := sums squareRoot (sums squareRoot (.rational 1) second) third
  have known : ∀ c ∈ (Operation.add sum (rational (-1))).operands, Reachable (fun _ => True) c :=
    List.forall_mem_cons.mpr ⟨whole, List.forall_mem_singleton.mpr (.rational (-1))⟩
  obtain ⟨normal, -, zero⟩ := representation_exact known trivial last .refl
  have moved : (Operation.add sum (rational (-1))).MovesRootToZero :=
    (Operation.movesRootToZero_iff rfl).mpr (by decide +kernel)
  exact ⟨first, second, third, last, zero.mpr moved, normal⟩

end Numeral
end Stratagem
