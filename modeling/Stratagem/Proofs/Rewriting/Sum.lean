import Mathlib.Algebra.BigOperators.Ring.List
import Stratagem.Proofs.Soundness.Monomial
import Stratagem.Rewriting.Sum

/-!
# Sums and products keep the value of terms

The rules for sums, products, differences and negation answer with terms of the same sort and
value: literals, also irrational ones, are added and multiplied exactly, monomials with one power
product are merged, and products are multiplied out over sums. That is shown for every semantics,
of which the values of well-sorted terms under an assignment are one.
-/
namespace Stratagem

namespace Arithmetic

variable {s : Store} {t : TermId}

/-- What holds of a factor and its arguments holds of its base. -/
theorem basePower_all {P : TermId → Prop} (down : ∀ a, P a → ∀ b ∈ s.args a, P b) (known : P t) :
    P (basePower s t).1 := by
  unfold basePower
  split
  · next base e view =>
    have argument : P base := down t known base (by rw [(Store.view_eq_iff.mp view).2]; simp)
    split
    · split
      · exact argument
      · exact known
    · exact known
  · exact known

/-- The exponent of a factor is positive. -/
theorem basePower_positive (s : Store) (t : TermId) : 0 < (basePower s t).2 := by
  unfold basePower
  split
  · split
    · split
      · next positive =>
        have some := Rat.num_pos.mpr (of_decide_eq_true (Bool.and_eq_true_iff.mp positive).2)
        dsimp only
        omega
      · exact Nat.one_pos
    · exact Nat.one_pos
  · exact Nat.one_pos

/-- The product of powers. -/
noncomputable def powersValue (v : TermId → ℝ) (powers : List (TermId × ℕ)) : ℝ :=
  (powers.map fun power => v power.1 ^ power.2).prod

/-- Adding to an exponent multiplies the value. -/
theorem powersValue_addExponent (v : TermId → ℝ) (base : TermId) (k : ℕ) :
    ∀ powers, powersValue v (addExponent base k powers) = powersValue v powers * v base ^ k
  | [] => by simp [addExponent, powersValue]
  | (other, j) :: rest => by
    have tail := powersValue_addExponent v base k rest
    unfold addExponent
    split
    · next same =>
      subst same
      simp only [powersValue, List.map_cons, List.prod_cons, pow_add]
      ring
    · simp only [powersValue, List.map_cons, List.prod_cons] at tail ⊢
      rw [tail]
      ring

/-- Adding to an exponent keeps a property of bases with positive exponents. -/
theorem forall_addExponent {P : TermId → Prop} {base : TermId} {k : ℕ} (new : P base ∧ 0 < k) :
    ∀ powers, (∀ power ∈ powers, P power.1 ∧ 0 < power.2) →
      ∀ power ∈ addExponent base k powers, P power.1 ∧ 0 < power.2
  | [], _ => by simpa [addExponent] using new
  | (other, j) :: rest, known => by
    rw [List.forall_mem_cons] at known
    unfold addExponent
    split
    · exact List.forall_mem_cons.mpr ⟨⟨known.1.1, Nat.add_pos_left known.1.2 k⟩, known.2⟩
    · exact List.forall_mem_cons.mpr ⟨known.1, forall_addExponent new rest known.2⟩

/-- Factors in ascending order are the same factors. -/
theorem ascending_perm (terms : List TermId) : (ascending terms).Perm terms :=
  List.mergeSort_perm terms _

section Choices

variable {R : Type} [CommSemiring R]

/-- The sum of the products of lists of terms. -/
def sumOfProducts (v : TermId → R) (products : List (List TermId)) : R :=
  (products.map fun p => (p.map v).prod).sum

/-- Appending every summand to every product multiplies the value by the sum of the summands. -/
theorem sumOfProducts_append (v : TermId → R) (products : List (List TermId))
    (summands : List TermId) :
    sumOfProducts v (products.flatMap fun p => summands.map fun t => p ++ [t]) =
      sumOfProducts v products * (summands.map v).sum := by
  unfold sumOfProducts
  induction products with
  | nil => simp
  | cons p rest tail =>
    rw [List.flatMap_cons, List.map_append, List.sum_append, tail, List.map_cons, List.sum_cons,
      add_mul]
    simp [Function.comp_def, List.sum_map_mul_left]

/-- The products of all choices add up to the product of the sums. -/
theorem sumOfProducts_choices (v : TermId → R) (choices products : List (List TermId)) :
    sumOfProducts v (choices.foldl (fun products summands =>
      products.flatMap fun p => summands.map fun t => p ++ [t]) products) =
      sumOfProducts v products * (choices.map fun summands => (summands.map v).sum).prod := by
  induction choices generalizing products with
  | nil => simp
  | cons summands rest tail =>
    rw [List.foldl_cons, tail, sumOfProducts_append, List.map_cons, List.prod_cons, mul_assoc]

end Choices

end Arithmetic

namespace Semantics

open Arithmetic Terms Rule

variable {M : Semantics} {s : Store} {config : SimplifierConfig} {isInt : Bool}
  {t a b : TermId} {x y : ℝ} {args : List TermId}

/-- A monomial denotes its value. -/
theorem mkMonomial_means {c : ℚ} {product : PowerProduct} (fits : M.Fits s isInt ⟨c, product⟩) :
    (mkMonomial c product isInt).Ensures config s fun t after =>
      M.Number after isInt t (Monomial.eval (M.num s) ⟨c, product⟩) := by
  obtain ⟨integral, some, factors⟩ := fits
  unfold mkMonomial
  split
  · contradiction
  · next first rest =>
    have plain : (liftM (mkNumeral c isInt) >>= fun lead =>
        (liftM (mkMul (lead :: first :: rest)) : Rule TermId)).Ensures config s fun t after =>
        M.Number after isInt t (Monomial.eval (M.num s) ⟨c, first :: rest⟩) := by
      refine ensures_bind (ensures_lift (mkNumeral_means (M := M) integral))
        fun lead middle grown known => ?_
      have all := List.Forall₂.cons known (Number.mono_all factors.forall₂ grown)
      refine ensures_lift ((mkMul_means (List.cons_ne_nil _ _) all).imp
        fun t after _ built => built.congr ?_)
      simp [Monomial.eval]
    split
    · next one =>
      refine ensures_lift ((mkMul_means some factors.forall₂).imp
        fun t after _ built => built.congr ?_)
      simp [Monomial.eval, one]
    · refine ensures_peek_bind (ensures_read_bind ?_)
      split
      · next irrational _ found =>
        -- The coefficient is taken up by the irrational literal in front, which is a real.
        have head : s.op first = .algebraic irrational := by
          unfold Store.algebraic? at found
          split at found <;> simp_all
        obtain ⟨⟨sorted, same⟩, others⟩ := List.forall_mem_cons.mp factors
        obtain ⟨_, _, real, _⟩ := M.irrational sorted head
        obtain rfl : isInt = false := by
          cases isInt with
          | false => rfl
          | true => rw [same] at real; cases real
        have literal : M.Literal false (.irrational irrational) (M.num s first) :=
          literal_of_exactNumeral? (Number.self sorted same) (by simp [Store.exactNumeral?, head])
        have lead : M.Literal false (.rational c) c := .ofRat (by simp)
        refine compute_bind_means (fun _ => Numeral.ensures_mul lead.denotes literal.denotes le_top)
          (fun folded known => ?_) fun _ => plain
        refine ensures_bind (mkNumber_means ⟨known.represents, lead.writes.mul literal.writes⟩)
          fun folded middle grown built => ?_
        have all := List.Forall₂.cons built (Number.mono_all (Numbers.forall₂ others) grown)
        refine ensures_lift ((mkMul_means (List.cons_ne_nil _ _) all).imp
          fun t after _ built => built.congr ?_)
        simp [Monomial.eval, mul_assoc]
      · exact plain

/-- Monomials denote their values. -/
theorem mkMonomials_means {monomials : List Monomial} (fits : ∀ m ∈ monomials, M.Fits s isInt m) :
    (mkMonomials monomials isInt).Ensures config s fun terms after =>
      List.Forall₂ (M.Number after isInt) terms (monomials.map (·.eval (M.num s))) := by
  have each : ∀ m ∈ monomials, ∀ now, s.Extends now →
      (mkMonomial m.coeff m.product isInt).Ensures config now fun t after =>
        M.Number after isInt t (m.eval (M.num s)) := by
    intro m member now grown
    exact (mkMonomial_means ((fits m member).mono grown)).imp fun t after _ built =>
      built.congr ((fits m member).eval_eq grown)
  exact mapM_means each

/-- An optional number before other numbers adds to their sum. -/
theorem forall₂_toList_append {constant : Option TermId} {terms : List TermId} {xs : List ℝ}
    (known : ∀ c ∈ constant, M.Number s isInt c x) (absent : constant = none → x = 0)
    (others : List.Forall₂ (M.Number s isInt) terms xs) :
    ∃ ys, List.Forall₂ (M.Number s isInt) (constant.toList ++ terms) ys ∧
      ys.sum = x + xs.sum := by
  cases constant with
  | none => exact ⟨xs, others, by rw [absent rfl, zero_add]⟩
  | some c => exact ⟨x :: xs, .cons (known c rfl) others, List.sum_cons⟩

/-- The sum of an optional number and monomials denotes its value. -/
theorem mkSum_means {constant : Option TermId} {monomials : List Monomial}
    (known : ∀ c ∈ constant, M.Number s isInt c x) (absent : constant = none → x = 0)
    (fits : ∀ m ∈ monomials, M.Fits s isInt m) :
    (mkSum constant monomials isInt).Ensures config s fun t after =>
      M.Number after isInt t (x + Monomials.sumOf (M.num s) monomials) := by
  unfold mkSum
  refine ensures_bind (mkMonomials_means fits) fun terms middle grown built => ?_
  obtain ⟨xs, all, total⟩ := forall₂_toList_append (fun c found => (known c found).mono grown)
    absent built
  split
  · next empty =>
    rw [empty] at all
    obtain rfl := List.forall₂_nil_left_iff.mp all
    refine ensures_lift ((mkNumeral_means fun _ => Rational.isIntegral_zero).imp
      fun t after _ zero => zero.congr ?_)
    change _ = x + (monomials.map (·.eval (M.num s))).sum
    simp [← total]
  · next some =>
    exact ensures_lift ((mkAdd_means some all).imp fun t after _ sum => sum.congr total)

/-- An optional numeral of a sort stands for a number; none stands for zero. -/
def Constant (M : Semantics) (isInt : Bool) (constant : Option Numeral) (x : ℝ) : Prop :=
  (∀ n ∈ constant, M.Literal isInt n x) ∧ (constant = none → x = 0)

/-- Gathered summands have the value of the terms they are gathered from. -/
theorem gatherSum_means : ∀ (terms : List TermId) (constant : Option Numeral)
    (monomials : Monomials) (x : ℝ), M.Numbers s isInt terms → M.Constant isInt constant x →
    M.AllFit s isInt monomials →
    (gatherSum terms constant monomials).Ensures config s fun found after =>
      ∀ total gathered, found = some (total, gathered) → after = s ∧ ∃ y,
        M.Constant isInt total y ∧ M.AllFit s isInt gathered ∧
        y + gathered.eval (M.num s) = x + monomials.eval (M.num s) + (terms.map (M.num s)).sum
  | [], constant, monomials, x, _, known, fits =>
    ensures_pure fun total gathered same => by
      obtain ⟨rfl, rfl⟩ := Prod.mk.inj (Option.some.inj same)
      exact ⟨rfl, x, known, fits, by simp⟩
  | t :: rest, constant, monomials, x, numbers, known, fits => by
    obtain ⟨⟨sorted, same⟩, later⟩ := List.forall_mem_cons.mp numbers
    unfold gatherSum
    refine numeralValue?_bind_means (Number.self sorted same) (fun n _ literal => ?_) fun _ => ?_
    · cases constant with
      | none =>
        have start : M.Constant isInt (some n) (M.num s t) := ⟨by simpa using literal, by simp⟩
        refine (gatherSum_means rest (some n) monomials _ later start fits).imp
          fun found after _ result total gathered found => ?_
        obtain ⟨rfl, y, constant, fit, sum⟩ := result total gathered found
        refine ⟨rfl, y, constant, fit, ?_⟩
        rw [sum, known.2 rfl, List.map_cons, List.sum_cons]
        ring
      | some c =>
        refine add_bind_means (known.1 c rfl) literal (fun r total => ?_) ?_
        · have start : M.Constant isInt (some r) (x + M.num s t) := ⟨by simpa using total, by simp⟩
          refine (gatherSum_means rest (some r) monomials _ later start fits).imp
            fun found after _ result total gathered found => ?_
          obtain ⟨rfl, y, constant, fit, sum⟩ := result total gathered found
          refine ⟨rfl, y, constant, fit, ?_⟩
          rw [sum, List.map_cons, List.sum_cons]
          ring
        · exact ensures_pure (by simp)
    · have gathering : (gatherSum rest constant (monomials.add (s.monomial t).coeff
          (s.monomial t).product)).Ensures config s fun found after =>
          ∀ total gathered, found = some (total, gathered) → after = s ∧ ∃ y,
            M.Constant isInt total y ∧ M.AllFit s isInt gathered ∧
            y + gathered.eval (M.num s) =
              x + monomials.eval (M.num s) + ((t :: rest).map (M.num s)).sum := by
        have more : M.AllFit s isInt
            (monomials.add (s.monomial t).coeff (s.monomial t).product) :=
          fits.add (fits_monomial sorted same)
        refine (gatherSum_means rest constant _ x later known more).imp
          fun found after _ result total gathered found => ?_
        obtain ⟨rfl, y, constant, fit, sum⟩ := result total gathered found
        refine ⟨rfl, y, constant, fit, ?_⟩
        rw [sum, Monomials.eval_add, List.map_cons, List.sum_cons, ← eval_monomial sorted]
        ring
      cases constant <;> exact ensures_peek_bind gathering

/-- The arguments of a sum or product of a sort are numbers of it. -/
theorem numbers_of_view {op : Op} (known : M.Number s isInt t x) (view : s.view t = (op, args))
    (either : op = .add ∨ op = .mul) : M.Numbers s isInt args := by
  obtain ⟨rfl, rfl⟩ := Store.view_eq_iff.mp view
  exact numbers_of_op known.sorted known.sort_eq either

/-- The flattened members of numbers are numbers. -/
theorem numbers_flatMap {head : Op} (numbers : M.Numbers s isInt args)
    (either : head = .add ∨ head = .mul) :
    M.Numbers s isInt (args.flatMap fun t => s.flattenTo head (t + 1) t) := by
  intro a member
  obtain ⟨b, inside, member⟩ := List.mem_flatMap.mp member
  exact numbers_of_flattenTo either (b + 1) (numbers b inside).1 (numbers b inside).2 a member

/-- The literal of a numeral that is not zero. -/
theorem mkConstant_means {constant : Option Numeral} (known : M.Constant isInt constant x) :
    ((constant.filter fun c => !c.isZero).mapM (mkNumber · isInt)).Ensures config s
      fun constant after => (∀ c ∈ constant, M.Number after isInt c x) ∧
        (constant = none → x = 0) := by
  cases constant with
  | none => exact ensures_pure ⟨(by simp), fun _ => known.2 rfl⟩
  | some n =>
    have literal := known.1 n rfl
    by_cases zero : n.isZero = true
    · rw [Option.filter_some, if_neg (by simpa using zero)]
      exact ensures_pure ⟨(by simp), fun _ => literal.isZero_iff.mp zero⟩
    · rw [Option.filter_some, if_pos (by simpa using zero), Option.mapM_some, map_eq_pure_bind]
      refine ensures_bind (mkNumber_means literal) fun c after _ built => ?_
      refine ensures_pure ⟨?_, (by simp)⟩
      rintro _ ⟨⟩
      exact built

/-- Sum keeps its value. -/
theorem reduceAdd_means (known : M.Number s isInt t x) (view : s.view t = (.add, args)) :
    (reduceAdd t args).Ensures config s fun o after =>
      M.Answers after o (.number isInt) (.number x) := by
  have numbers := numbers_of_view known view (.inl rfl)
  obtain ⟨head, arguments⟩ := Store.view_eq_iff.mp view
  have value : ((args.flatMap s.summands).map (M.num s)).sum = x := by
    rw [← known.num_eq, num_of_add known.sorted head, arguments, List.flatMap_def, List.map_flatten,
      List.sum_flatten, List.map_map, List.map_map]
    exact congrArg List.sum (List.map_congr_left fun a member =>
      sum_flattenTo (a + 1) (numbers a member).1)
  unfold reduceAdd
  refine ensures_peek_bind (ensures_peek_bind ?_)
  rw [known.isInt_eq]
  refine ensures_bind (gatherSum_means (args.flatMap s.summands) none {} 0
    (numbers_flatMap numbers (.inl rfl)) ⟨by simp, fun _ => rfl⟩ .empty)
    fun found middle _ result => ?_
  split
  · exact answers_failed
  · next total gathered =>
    obtain ⟨rfl, y, constant, fits, sum⟩ := result total gathered rfl
    refine ensures_read_bind ?_
    -- Neither dropping zeros nor ordering matters.
    obtain ⟨monomials, same, fits, sum⟩ : ∃ monomials : Monomials,
        (if config.sortSums then gathered.retainNonzero.sort else gathered.retainNonzero) =
          monomials ∧ M.AllFit middle isInt monomials ∧
        y + monomials.eval (M.num middle) = x := by
      refine ⟨_, rfl, ?_, ?_⟩
      · split
        · exact fits.retainNonzero.sort
        · exact fits.retainNonzero
      · rw [value] at sum
        split <;> simpa using sum
    simp only [same]
    refine ensures_bind (mkConstant_means constant) fun constant after grown lead => ?_
    have later : ∀ m ∈ monomials.toList, M.Fits after isInt m :=
      fun m member => (fits m member).mono grown
    refine ensures_bind (mkMonomials_means later) fun terms last more built => ?_
    obtain ⟨xs, all, value⟩ := forall₂_toList_append (fun c found => (lead.1 c found).mono more)
      lead.2 built
    have value : xs.sum = x := by
      rw [value, ← sum]
      exact congrArg _ (sumOf_eq fits grown)
    split
    · exact answers_failed
    split
    · next empty =>
      rw [List.isEmpty_iff.mp empty] at all
      obtain rfl := List.forall₂_nil_left_iff.mp all
      refine answers_build (fun _ => rfl) ((mkNumeral_means fun _ =>
        Rational.isIntegral_zero).imp fun _ _ _ zero => zero.congr ?_)
      simp [← value]
    · next some =>
      exact answers_build (fun _ => rfl) ((mkAdd_means (by simpa using some) all).imp
        fun _ _ _ sum => sum.congr value)

/-- Gathered factors have the value of the terms they are gathered from; a factor zero makes the
product zero. -/
theorem gatherProduct_means : ∀ (terms : List TermId) (coeff : Numeral) (others : List TermId)
    (x : ℝ), M.Numbers s isInt terms → M.Literal isInt coeff x → M.Numbers s isInt others →
    (gatherProduct isInt terms coeff others).Ensures config s fun found after =>
      match found with
      | .ok (lead, factors) => after = s ∧ ∃ y, M.Literal isInt lead y ∧
          M.Numbers s isInt factors ∧ y * (factors.map (M.num s)).prod =
            x * (others.map (M.num s)).prod * (terms.map (M.num s)).prod
      | .error o => M.Answers after o (.number isInt) (.number
          (x * (others.map (M.num s)).prod * (terms.map (M.num s)).prod))
  | [], coeff, others, x, _, known, numbers => by
    refine ensures_pure ⟨rfl, x, known, ?_, ?_⟩
    · exact fun t member => numbers t (List.mem_reverse.mp member)
    · rw [((List.reverse_perm others).map _).prod_eq]
      simp
  | t :: rest, coeff, others, x, numbers, known, before => by
    obtain ⟨⟨sorted, same⟩, later⟩ := List.forall_mem_cons.mp numbers
    have shift : x * (others.map (M.num s)).prod * ((t :: rest).map (M.num s)).prod =
        x * M.num s t * (others.map (M.num s)).prod * (rest.map (M.num s)).prod := by
      rw [List.map_cons, List.prod_cons]
      ring
    rw [shift]
    unfold gatherProduct
    refine numeralValue?_bind_means (Number.self sorted same) (fun n _ literal => ?_) fun _ => ?_
    · dsimp only
      split
      · next zero =>
        have zero := literal.isZero_iff.mp zero
        refine ensures_bind (ensures_lift (mkNumeral_means (M := M)
          fun _ => Rational.isIntegral_zero)) fun _ _ _ built => ensures_pure ?_
        exact Answers.of_result? rfl (built.congr (by simp [zero]))
      · refine mul_bind_means known literal (fun r product => ?_) (ensures_pure .failed)
        exact gatherProduct_means rest r others _ later product before
    · have more : M.Numbers s isInt (t :: others) :=
        List.forall_mem_cons.mpr ⟨⟨sorted, same⟩, before⟩
      have value : x * M.num s t * (others.map (M.num s)).prod * (rest.map (M.num s)).prod =
          x * ((t :: others).map (M.num s)).prod * (rest.map (M.num s)).prod := by
        rw [List.map_cons, List.prod_cons]
        ring
      rw [value]
      exact gatherProduct_means rest coeff (t :: others) x later known more

/-- Base and exponent of a number: the base is a number of the same sort, and their power is the
number. -/
theorem basePower_means (sorted : M.Sorted s t) (same : s.sortOf t = .number isInt) :
    (M.Sorted s (basePower s t).1 ∧ s.sortOf (basePower s t).1 = .number isInt) ∧
      M.num s (basePower s t).1 ^ (basePower s t).2 = M.num s t := by
  have self : (M.Sorted s t ∧ s.sortOf t = .number isInt) ∧ M.num s t ^ 1 = M.num s t :=
    ⟨⟨sorted, same⟩, pow_one _⟩
  unfold basePower
  split
  · next base e view =>
    split
    · next r literal =>
      split
      · next positive =>
        simp only [Bool.and_eq_true, decide_eq_true_eq] at positive
        obtain ⟨inner, _, sorts, value⟩ := M.power sorted view literal positive.1 positive.2
        exact ⟨⟨inner, sorts.symm.trans same⟩, by rw [num, num, value, Value.num_number]⟩
      · exact self
    · exact self
  · exact self

/-- Collecting factors into powers keeps their product. -/
theorem groupPowers_means {factors : List TermId} (numbers : M.Numbers s isInt factors) :
    (groupPowers factors).Ensures config s fun terms after => M.Numbers after isInt terms ∧
      (terms.map (M.num after)).prod = (factors.map (M.num s)).prod := by
  have collect : ∀ (factors : List TermId) (powers : List (TermId × ℕ)),
      M.Numbers s isInt factors →
      (∀ power ∈ powers, (M.Sorted s power.1 ∧ s.sortOf power.1 = .number isInt) ∧
        0 < power.2) →
      let all := factors.foldl (fun powers t =>
        addExponent (basePower s t).1 (basePower s t).2 powers) powers
      (∀ power ∈ all, (M.Sorted s power.1 ∧ s.sortOf power.1 = .number isInt) ∧
        0 < power.2) ∧
      powersValue (M.num s) all = powersValue (M.num s) powers * (factors.map (M.num s)).prod := by
    intro factors
    induction factors with
    | nil => exact fun powers _ known => ⟨known, by simp⟩
    | cons t rest tail =>
      intro powers numbers known
      obtain ⟨⟨sorted, same⟩, later⟩ := List.forall_mem_cons.mp numbers
      obtain ⟨base, power⟩ := basePower_means sorted same
      have more := forall_addExponent (P := fun t => M.Sorted s t ∧
        s.sortOf t = .number isInt) ⟨base, basePower_positive s t⟩ powers known
      obtain ⟨all, value⟩ := tail _ later more
      refine ⟨all, ?_⟩
      rw [List.foldl_cons, value, powersValue_addExponent, power, List.map_cons, List.prod_cons]
      ring
  obtain ⟨all, value⟩ := collect factors [] numbers (by simp)
  unfold groupPowers
  refine ensures_peek_bind ?_
  change Rule.Ensures (List.mapM _ (factors.foldl (fun powers t =>
    addExponent (basePower s t).1 (basePower s t).2 powers) []) >>= _) _ _ _
  generalize factors.foldl _ [] = powers at all value
  have each : ∀ power ∈ powers, ∀ now, s.Extends now →
      (show Rule TermId from if power.2 = 1 then return power.1 else do
        let e ← mkInt (Int.ofNat power.2)
        mkApp .power [power.1, e]).Ensures config now fun t after =>
          M.Number after isInt t (M.num s power.1 ^ power.2) := by
    intro power member now grown
    obtain ⟨⟨sorted, same⟩, positive⟩ := all power member
    have number := (Number.self sorted same).mono grown
    dsimp only
    split
    · next one => exact ensures_pure (number.congr (by rw [one, pow_one]))
    · refine ensures_bind (ensures_lift ((mkInt_means (M := M) _).and (mkInt_op _)))
        fun e after more literal => ?_
      exact ensures_lift (mkPower_means (number.mono more) positive literal.2 literal.1.sorted)
  refine ensures_bind (mapM_means each) fun terms after _ known => ensures_pure ?_
  obtain ⟨known, values⟩ := Numbers.of_forall₂ known
  have order := ascending_perm terms
  refine ⟨fun t member => known t (order.mem_iff.mp member), ?_⟩
  rw [(order.map _).prod_eq, values]
  simpa [powersValue] using value

/-- All choices of one summand for each factor: their products add up to the product of the
factors. -/
theorem choices_means {factors : List TermId} {products : List (List TermId)}
    (numbers : M.Numbers s isInt factors) (known : ∀ p ∈ products, M.Numbers s isInt p)
    (some : ∀ p ∈ products, p ≠ []) (any : products ≠ []) :
    let all := (factors.map s.summands).foldl (fun products summands =>
      products.flatMap fun p => summands.map fun t => p ++ [t]) products
    (∀ p ∈ all, M.Numbers s isInt p ∧ p ≠ []) ∧ all ≠ [] ∧
      sumOfProducts (M.num s) all =
        sumOfProducts (M.num s) products * (factors.map (M.num s)).prod := by
  induction factors generalizing products with
  | nil => exact ⟨fun p member => ⟨known p member, some p member⟩, any, by simp⟩
  | cons f rest tail =>
    obtain ⟨⟨sorted, same⟩, later⟩ := List.forall_mem_cons.mp numbers
    have summands := numbers_of_flattenTo (.inl rfl) (f + 1) sorted same
    have longer : ∀ q ∈ products.flatMap fun p => (s.summands f).map fun t => p ++ [t],
        M.Numbers s isInt q ∧ q ≠ [] := by
      intro q member
      obtain ⟨p, inside, member⟩ := List.mem_flatMap.mp member
      obtain ⟨t, summand, rfl⟩ := List.mem_map.mp member
      refine ⟨fun a found => ?_, by simp⟩
      obtain old | new := List.mem_append.mp found
      · exact known p inside a old
      · obtain rfl := List.mem_singleton.mp new
        exact summands a summand
    obtain ⟨first, member⟩ := List.exists_mem_of_ne_nil products any
    obtain ⟨t, summand⟩ := List.exists_mem_of_ne_nil _ (summands_ne_nil sorted)
    have any : products.flatMap (fun p => (s.summands f).map fun t => p ++ [t]) ≠ [] :=
      List.ne_nil_of_mem (List.mem_flatMap.mpr ⟨first, member, List.mem_map.mpr ⟨t, summand, rfl⟩⟩)
    obtain ⟨all, nonempty, value⟩ := tail later (fun p member => (longer p member).1)
      (fun p member => (longer p member).2) any
    refine ⟨all, nonempty, ?_⟩
    have sum : ((s.summands f).map (M.num s)).sum = M.num s f := sum_flattenTo (f + 1) sorted
    rw [List.map_cons, List.foldl_cons, value, sumOfProducts_append, sum, List.map_cons,
      List.prod_cons]
    ring

/-- Multiplying out keeps the value of a product. -/
theorem distribute_means {coeff : Numeral} {factors : List TermId} (known : M.Literal isInt coeff x)
    (numbers : M.Numbers s isInt factors) :
    (distribute coeff factors isInt).Ensures config s fun t after =>
      M.Number after isInt t (x * (factors.map (M.num s)).prod) := by
  unfold distribute
  refine ensures_bind (mkNumber_means known) fun lead middle grown number => ?_
  refine ensures_peek_bind ?_
  have first : ∀ p ∈ [[lead]], M.Numbers middle isInt p := by
    simpa [Numbers] using ⟨number.sorted, number.sort_eq⟩
  obtain ⟨all, any, value⟩ := choices_means (numbers.mono grown) first (by simp) (by simp)
  dsimp only at all any value ⊢
  generalize List.foldl _ [[lead]] _ = products at all any value
  have each : ∀ p ∈ products, ∀ now, middle.Extends now →
      (liftM (mkMul p) : Rule TermId).Ensures config now fun t after =>
        M.Number after isInt t (p.map (M.num middle)).prod := by
    intro p member now more
    obtain ⟨known, some⟩ := all p member
    exact ensures_lift (mkMul_means some (Number.mono_all known.forall₂ more))
  refine ensures_bind (mapM_means each) fun terms after _ built => ?_
  have some : terms ≠ [] := by
    rintro rfl
    have := List.forall₂_nil_left_iff.mp built
    exact any (List.map_eq_nil_iff.mp this)
  refine ensures_lift ((mkAdd_means some built).imp fun t last _ sum => sum.congr ?_)
  rw [numbers.map_num grown] at value
  change sumOfProducts (M.num middle) products = _
  rw [value]
  simp [sumOfProducts, number.num_eq]

/-- A literal times a sum, multiplied out, keeps its value. -/
theorem scaleSum_means {coeff : Numeral} {summands : List TermId} (known : M.Literal isInt coeff x)
    (numbers : M.Numbers s isInt summands) (some : summands ≠ []) :
    (scaleSum coeff summands isInt).Ensures config s fun o after =>
      M.Answers after o (.number isInt) (.number (x * (summands.map (M.num s)).sum)) := by
  unfold scaleSum
  refine ensures_bind (mkNumber_means known) fun lead middle grown number => ?_
  have each : ∀ t ∈ summands, ∀ now, middle.Extends now →
      (liftM (mkMul [lead, t]) : Rule TermId).Ensures config now fun r after =>
        M.Number after isInt r (x * M.num s t) := by
    intro t member now more
    have factor := (Number.self (numbers t member).1 (numbers t member).2).mono grown
    exact ensures_lift (mkMul_pair_means (number.mono more) (factor.mono more))
  refine ensures_bind (mapM_means each) fun terms after _ built => ?_
  have some : terms ≠ [] := by
    rintro rfl
    have := List.forall₂_nil_left_iff.mp built
    exact some (List.map_eq_nil_iff.mp this)
  refine answers_build (fun _ => rfl) ((mkAdd_means some built).imp fun t last _ sum =>
    sum.congr ?_)
  exact List.sum_map_mul_left ..

/-- A literal times factors keeps its value. -/
theorem mkProduct_means {coeff : Numeral} {factors : List TermId} (known : M.Literal isInt coeff x)
    (numbers : M.Numbers s isInt factors) :
    (mkProduct coeff factors args isInt).Ensures config s fun o after =>
      M.Answers after o (.number isInt) (.number (x * (factors.map (M.num s)).prod)) := by
  unfold mkProduct
  -- The literal one is not written.
  have lead : Rule.Ensures (if coeff.asRational? = some 1 then pure []
      else (fun c => [c]) <$> mkNumber coeff isInt) config s fun lead after =>
      ∃ xs, List.Forall₂ (M.Number after isInt) lead xs ∧ xs.prod = x := by
    split
    · next one =>
      have same : coeff = .rational 1 := by
        cases coeff <;> simp_all [Numeral.asRational?]
      subst same
      exact ensures_pure ⟨[], .nil, by simpa using known.rational_eq.1⟩
    · rw [map_eq_pure_bind]
      exact ensures_bind (mkNumber_means known) fun t after _ built =>
        ensures_pure ⟨[x], .cons built .nil, by simp⟩
  refine ensures_ite_bind lead fun lead middle grown found => ?_
  obtain ⟨xs, found, value⟩ := found
  have all : List.Forall₂ (M.Number middle isInt) (lead ++ factors)
      (xs ++ factors.map (M.num s)) :=
    List.rel_append found (Number.mono_all numbers.forall₂ grown)
  have value : (xs ++ factors.map (M.num s)).prod = x * (factors.map (M.num s)).prod := by
    rw [List.prod_append, value]
  dsimp only
  split
  · exact answers_failed
  split
  · next empty =>
    rw [List.isEmpty_iff.mp empty] at all
    rw [List.forall₂_nil_left_iff.mp all] at value
    refine answers_build (fun _ => rfl) ((mkNumeral_means fun _ =>
      Rational.isIntegral_one).imp fun _ _ _ one => one.congr ?_)
    simp [← value]
  · next some =>
    exact answers_build (fun _ => rfl) ((mkMul_means (by simpa using some) all).imp
      fun _ _ _ product => product.congr value)

/-- Product keeps its value. -/
theorem reduceMul_means (known : M.Number s isInt t x) (view : s.view t = (.mul, args)) :
    (reduceMul t args).Ensures config s fun o after =>
      M.Answers after o (.number isInt) (.number x) := by
  have numbers := numbers_of_view known view (.inr rfl)
  obtain ⟨head, arguments⟩ := Store.view_eq_iff.mp view
  have value : ((s.factors args).map (M.num s)).prod = x := by
    rw [← known.num_eq, num_of_mul known.sorted head, arguments, Store.factors, List.flatMap_def,
      List.map_flatten, List.prod_flatten, List.map_map, List.map_map]
    exact congrArg List.prod (List.map_congr_left fun a member =>
      prod_flattenTo (a + 1) (numbers a member).1)
  unfold reduceMul
  refine ensures_peek_bind (ensures_peek_bind ?_)
  rw [known.isInt_eq]
  have one : M.Literal isInt (.rational 1) ((1 : ℚ) : ℝ) := .ofRat fun _ => Rational.isIntegral_one
  refine ensures_bind (gatherProduct_means (s.factors args) (.rational 1) [] _
    (numbers_flatMap numbers (.inr rfl)) one (List.forall_mem_nil _))
    fun found middle _ result => ?_
  split
  · next o =>
    refine ensures_pure ?_
    simpa [value] using result
  · next lead factors =>
    obtain ⟨rfl, y, literal, numbers, product⟩ := result
    have order := ascending_perm factors
    have numbers : M.Numbers middle isInt (ascending factors) :=
      fun a member => numbers a (order.mem_iff.mp member)
    have product : y * ((ascending factors).map (M.num middle)).prod = x := by
      rw [(order.map _).prod_eq, product, value]
      simp
    generalize ascending factors = factors at numbers product
    refine ensures_read_bind ?_
    -- Collecting powers changes the factors but not their product.
    have grouped : Rule.Ensures (if config.mulToPower then groupPowers factors else pure factors)
        config middle fun terms after => M.Numbers after isInt terms ∧
          y * (terms.map (M.num after)).prod = x := by
      split
      · exact (groupPowers_means numbers).imp fun terms after _ known =>
          ⟨known.1, by rw [known.2, product]⟩
      · exact ensures_pure ⟨numbers, product⟩
    refine ensures_ite_bind grouped fun factors after _ known => ?_
    obtain ⟨numbers, product⟩ := known
    refine ensures_peek_bind (ensures_read_bind ?_)
    split
    · refine ensures_bind (distribute_means literal numbers) fun r _ _ built => ?_
      exact answers_with rfl (built.congr product)
    · rw [← product]
      split
      · next f _ _ =>
        refine ensures_peek_bind ?_
        split
        · next summands view =>
          obtain ⟨sorted, same⟩ := numbers f (by simp)
          obtain ⟨head, rfl⟩ := Store.view_eq_iff.mp view
          have inner := numbers_of_op sorted same (.inl head)
          have single :
              (([f].map (M.num after)).prod) = ((after.args f).map (M.num after)).sum := by
            simp [num_of_add sorted head]
          rw [single]
          exact scaleSum_means literal inner (args_ne_nil sorted (.inl head))
        · exact mkProduct_means literal numbers
      · exact mkProduct_means literal numbers

/-- Negation keeps its value. -/
theorem reduceNeg_means (sort : s.isInt t = isInt) (known : M.Number s isInt a x) :
    (reduceNeg t a).Ensures config s fun o after =>
      M.Answers after o (.number isInt) (.number (-x)) := by
  unfold reduceNeg
  refine ensures_peek_bind ?_
  rw [sort]
  refine numeralValue?_bind_means known (fun n _ literal => ?_) fun _ => ?_
  · exact ensures_bind (mkNumber_means literal.neg) fun n _ _ built => answers_with rfl built
  · refine ensures_bind (ensures_lift (mkNumeral_means (M := M)
      fun _ => Rational.isIntegral_neg Rational.isIntegral_one)) fun m _ grown minus => ?_
    exact answers_build (fun _ => rfl) ((mkMul_pair_means minus (known.mono grown)).imp
      fun _ _ _ built => built.congr (by simp))

/-- Difference keeps its value. -/
theorem reduceSub_means (sort : s.isInt t = isInt) (left : M.Number s isInt a x)
    (right : M.Number s isInt b y) :
    (reduceSub t a b).Ensures config s fun o after =>
      M.Answers after o (.number isInt) (.number (x - y)) := by
  unfold reduceSub
  refine ensures_peek_bind ?_
  rw [sort]
  refine ensures_bind (ensures_lift (mkNumeral_means (M := M)
    fun _ => Rational.isIntegral_neg Rational.isIntegral_one)) fun m middle grown minus => ?_
  refine ensures_bind (ensures_lift (mkMul_pair_means minus (right.mono grown)))
    fun n after more negated => ?_
  have sum : List.Forall₂ (M.Number after isInt) [a, n] [x, ((-1 : ℚ) : ℝ) * y] :=
    .cons (left.mono (grown.trans more)) (.cons negated .nil)
  exact answers_build (fun _ => rfl) ((mkAdd_means (by simp) sum).imp fun _ _ _ built =>
    built.congr (by simp; ring))

end Semantics

namespace Arithmetic

open Rule

section Assignments

variable {s : Store} {Γ : Signature} {I : Assignment} {config : SimplifierConfig} {isInt : Bool}
  {t a b : TermId} {x y : ℝ} {args : List TermId}

/-- The arguments of a sum or product of a sort are numbers of it. -/
theorem numbers_of_view {op : Op} (known : s.Number Γ I isInt t x) (view : s.view t = (op, args))
    (either : op = .add ∨ op = .mul) : s.Numbers Γ isInt args :=
  Semantics.numbers_of_view (Assignment.denotes_iff.mpr known) view either

/-- The flattened members of numbers are numbers. -/
theorem numbers_flatMap {head : Op} (numbers : s.Numbers Γ isInt args)
    (either : head = .add ∨ head = .mul) :
    s.Numbers Γ isInt (args.flatMap fun t => s.flattenTo head (t + 1) t) := by
  intro a member
  obtain ⟨b, inside, member⟩ := List.mem_flatMap.mp member
  exact (numbers b inside).1.numbers_of_flattenTo either (b + 1) (numbers b inside).2 a member

/-- Sum keeps its value. -/
theorem reduceAdd_denotes (known : s.Number Γ I isInt t x) (view : s.view t = (.add, args)) :
    (reduceAdd t args).Ensures config s fun o after =>
      o.Denotes after Γ I (.number isInt) (.number x) :=
  ensures_denotes (Semantics.reduceAdd_means (Assignment.denotes_iff.mpr known) view)

/-- Product keeps its value. -/
theorem reduceMul_denotes (known : s.Number Γ I isInt t x) (view : s.view t = (.mul, args)) :
    (reduceMul t args).Ensures config s fun o after =>
      o.Denotes after Γ I (.number isInt) (.number x) :=
  ensures_denotes (Semantics.reduceMul_means (Assignment.denotes_iff.mpr known) view)

/-- Negation keeps its value. -/
theorem reduceNeg_denotes (sort : s.isInt t = isInt) (known : s.Number Γ I isInt a x) :
    (reduceNeg t a).Ensures config s fun o after =>
      o.Denotes after Γ I (.number isInt) (.number (-x)) :=
  ensures_denotes (Semantics.reduceNeg_means sort (Assignment.denotes_iff.mpr known))

/-- Difference keeps its value. -/
theorem reduceSub_denotes (sort : s.isInt t = isInt) (left : s.Number Γ I isInt a x)
    (right : s.Number Γ I isInt b y) :
    (reduceSub t a b).Ensures config s fun o after =>
      o.Denotes after Γ I (.number isInt) (.number (x - y)) :=
  ensures_denotes (Semantics.reduceSub_means sort (Assignment.denotes_iff.mpr left)
    (Assignment.denotes_iff.mpr right))

end Assignments

end Arithmetic

end Stratagem
