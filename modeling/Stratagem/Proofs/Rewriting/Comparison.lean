import Mathlib.Algebra.Order.Floor.Ring
import Mathlib.Data.Rat.Floor
import Mathlib.Data.Sign.Basic
import Mathlib.Tactic.Linarith
import Stratagem.Proofs.Algebraic.Order
import Stratagem.Proofs.Rewriting.Sum
import Stratagem.Rewriting.Comparison

/-!
# Comparisons keep their truth value

A comparison of numbers stays equivalent when literals are compared, powers are reduced against
zero, casts are dropped from both sides, common monomials cancel, a side is divided by a number, and
the constant of an integer comparison is rounded. That is shown for every semantics, of which the
values of well-sorted terms under an assignment are one.
-/
namespace Stratagem

namespace Relation

variable {relation : Relation} {x y z c : ℝ}

/-- The relation of two numbers. -/
def Holds : Relation → ℝ → ℝ → Prop
  | le, x, y => x ≤ y
  | ge, x, y => x ≥ y
  | eq, x, y => x = y

/-- The flipped relation holds with the sides exchanged. -/
theorem holds_flip : relation.flip.Holds x y ↔ relation.Holds y x := by
  cases relation with
  | le => exact Iff.rfl
  | ge => exact Iff.rfl
  | eq => exact eq_comm

/-- The relation depends on the difference of the sides only. -/
theorem holds_sub : relation.Holds x y ↔ relation.Holds (x - y) 0 := by
  cases relation with
  | le => exact sub_nonpos.symm
  | ge => exact sub_nonneg.symm
  | eq => exact sub_eq_zero.symm

/-- Sides with equal differences are related alike. -/
theorem holds_congr {x' y' : ℝ} (same : x - y = x' - y') :
    relation.Holds x y ↔ relation.Holds x' y' := by
  rw [holds_sub, same, ← holds_sub]

/-- Dividing both sides by a positive number keeps the relation. -/
theorem holds_div_pos (positive : 0 < c) : relation.Holds (x / c) (y / c) ↔ relation.Holds x y := by
  cases relation with
  | le => exact div_le_div_iff_of_pos_right positive
  | ge => exact div_le_div_iff_of_pos_right positive
  | eq => exact div_left_inj' positive.ne'

/-- Dividing both sides by a negative number flips the relation. -/
theorem holds_div_neg (negative : c < 0) :
    relation.flip.Holds (x / c) (y / c) ↔ relation.Holds x y := by
  rw [holds_flip]
  cases relation with
  | le => exact div_le_div_right_of_neg negative
  | ge => exact div_le_div_right_of_neg negative
  | eq => exact (div_left_inj' negative.ne).trans eq_comm

/-- The order of rationals decides the relation. -/
theorem holds_order (r q : ℚ) :
    relation.holds (Rational.order r q) = true ↔ relation.Holds r q := by
  unfold Rational.order
  cases relation <;> split_ifs <;> simp_all [holds, Holds] <;> first | exact le_of_lt ‹_› | grind

/-- A comparison with an integer may be rounded: down if the integer is the smaller side, up if it
is the greater one. -/
theorem holds_round (n : ℤ) (bound : ℚ) :
    relation.Holds n (match relation with
      | .le => Rational.ofInt bound.floor
      | .ge => Rational.ofInt bound.ceil
      | .eq => bound : ℚ) ↔ relation.Holds n bound := by
  cases relation with
  | le =>
    simp only [Holds, Rational.ofInt]
    exact_mod_cast (Rat.le_floor_iff (x := n) (a := bound))
  | ge =>
    simp only [Holds, Rational.ofInt]
    exact_mod_cast (Rat.ceil_le_iff (x := bound) (y := n))
  | eq => rfl

/-- The order of two numbers decides the relation. -/
theorem holds_cmp (x y : ℝ) :
    relation.holds (cmp x y) = true ↔ relation.Holds x y := by
  rcases lt_trichotomy x y with less | same | more
  · rw [(cmp_eq_lt_iff x y).mpr less]
    cases relation <;> simp [holds, Holds, less.le, less.ne]
    exact less
  · rw [(cmp_eq_eq_iff x y).mpr same]
    cases relation <;> simp [holds, Holds, same]
  · rw [(cmp_eq_gt_iff x y).mpr more]
    cases relation <;> simp [holds, Holds, more.le, more.ne']
    exact more

end Relation

namespace Arithmetic

section Signs

variable {relation : Relation} {x y : ℝ}

/-- Two numbers compare with zero alike: for equations both or neither is zero, and for orders they
have one sign. -/
def LikeZero (relation : Relation) (x y : ℝ) : Prop :=
  if relation = .eq then (x = 0 ↔ y = 0) else SignType.sign x = SignType.sign y

/-- Numbers that compare with zero alike are related to zero alike, on either side. -/
theorem LikeZero.holds (alike : LikeZero relation x y) :
    (relation.Holds x 0 ↔ relation.Holds y 0) ∧ (relation.Holds 0 x ↔ relation.Holds 0 y) := by
  unfold LikeZero at alike
  cases relation with
  | eq => simpa [Relation.Holds, eq_comm] using alike
  | le =>
    have same : SignType.sign x = SignType.sign y := by simpa using alike
    exact ⟨by rw [Relation.Holds, ← sign_nonpos_iff, same, sign_nonpos_iff]; rfl,
      by rw [Relation.Holds, ← sign_nonneg_iff, same, sign_nonneg_iff]; rfl⟩
  | ge =>
    have same : SignType.sign x = SignType.sign y := by simpa using alike
    exact ⟨by rw [Relation.Holds, ge_iff_le, ← sign_nonneg_iff, same, sign_nonneg_iff]; rfl,
      by rw [Relation.Holds, ge_iff_le, ← sign_nonpos_iff, same, sign_nonpos_iff]; rfl⟩

/-- Every number compares with zero like itself. -/
theorem likeZero_self (relation : Relation) (x : ℝ) : LikeZero relation x x := by
  unfold LikeZero
  split <;> rfl

/-- Products of numbers that compare with zero alike do so too. -/
theorem likeZero_prod {xs ys : List ℝ} (alike : List.Forall₂ (LikeZero relation) xs ys) :
    LikeZero relation xs.prod ys.prod := by
  induction alike with
  | nil => exact likeZero_self relation _
  | cons first _ rest =>
    rw [List.prod_cons, List.prod_cons]
    unfold LikeZero at first rest ⊢
    split at first
    · simp_all
    · simp_all [sign_mul]

/-- An odd power has the sign of its base. -/
theorem sign_pow_odd {k : ℕ} (odd : Odd k) (x : ℝ) :
    SignType.sign (x ^ k) = SignType.sign x := by
  obtain negative | rfl | positive := lt_trichotomy x 0
  · rw [sign_neg negative, sign_neg (odd.pow_neg negative)]
  · rw [zero_pow odd.pos.ne']
  · rw [sign_pos positive, sign_pos (pow_pos positive k)]

/-- Even powers have the sign of a square. -/
theorem sign_pow_even {k : ℕ} (even : Even k) (some : k ≠ 0) (x : ℝ) :
    SignType.sign (x ^ k) = SignType.sign (x ^ 2) := by
  obtain rfl | nonzero := eq_or_ne x 0
  · rw [zero_pow some, zero_pow two_ne_zero]
  · rw [sign_pos (even.pow_pos nonzero), sign_pos (even_two.pow_pos nonzero)]

end Signs

section Collections

variable {v : TermId → ℝ}

/-- No monomial of a collection has the coefficient zero. -/
def Nonzero (m : Monomials) : Prop := ∀ e ∈ m.toList, e.coeff ≠ 0

/-- Dropping zeros leaves none. -/
theorem nonzero_retainNonzero (m : Monomials) : Nonzero m.retainNonzero :=
  fun _ member => (Monomials.mem_retainNonzero member).2

/-- An empty collection has the value zero. -/
theorem eval_of_isEmpty {m : Monomials} (empty : m.isEmpty) : m.eval v = 0 := by
  have none : m.toList = [] := List.isEmpty_iff.mp empty
  rw [Monomials.eval, none, Monomials.sumOf_nil]

end Collections

section Parts

variable {P : TermId → Prop} {left right : Monomials}

/-- Cancelling keeps to the factors of both sides. -/
theorem cancel_all (first : left.All P) (second : right.All P) :
    (cancel left right).1.All P ∧ (cancel left right).2.All P := by
  have both := List.foldlRecOn (motive := fun pair : Monomials × Monomials =>
      pair.1.All P ∧ pair.2.All P) left.toList
    (fun pair (m : Monomial) =>
      (Monomials.add pair.1 (m.coeff - (pair.2.take m.product).1.getD 0) m.product,
        (pair.2.take m.product).2))
    (b := (({} : Monomials), right)) ⟨Monomials.all_empty, second⟩
    fun pair known m member => ⟨known.1.add _ (first m member), known.2.take m.product⟩
  exact ⟨both.1.retainNonzero, both.2.retainNonzero⟩

/-- Every factor of both sides of a balance has a property. -/
structure Balance.All (P : TermId → Prop) (b : Balance) : Prop where
  /-- The factors on the left have the property. -/
  left : b.left.All P
  /-- The factors on the right have the property. -/
  right : b.right.All P

/-- The factors of the balance of a comparison are among what its sides are taken apart to. -/
theorem balance_all (down : ∀ a, P a → ∀ b ∈ s.args a, P b) (lhsOnly : Bool) (relation : Relation)
    (first : P a) (second : P b) : (balance s lhsOnly relation a b).All P := by
  obtain ⟨left, right⟩ := cancel_all (Store.linearForm_all down first)
    (Store.linearForm_all down second)
  unfold balance
  dsimp only
  cases lhsOnly with
  | true =>
    have all := (left.foldl_add right (- ·.coeff)).retainNonzero
    simp only [↓reduceIte]
    split
    · exact ⟨Monomials.all_empty, all⟩
    · exact ⟨all, Monomials.all_empty⟩
  | false =>
    simp only [Bool.false_eq_true, ↓reduceIte]
    split
    · exact ⟨right, left⟩
    · exact ⟨left, right⟩

/-- Dividing keeps to the factors. -/
theorem Balance.All.divide? {balance divided : Balance} (known : balance.All P) {g : ℕ}
    (found : balance.divide? g = some divided) : divided.All P := by
  unfold Balance.divide? at found
  dsimp only at found
  split at found
  · cases found
  · obtain rfl := Option.some.inj found
    exact ⟨Monomials.all_empty.foldl_add known.left _, Monomials.all_empty.foldl_add known.right _⟩

end Parts

section Divisors

/-- The common divisor divides every value. -/
theorem gcdList_dvd (values : List ℤ) : ∀ n ∈ values, (Integer.gcdList values : ℤ) ∣ n := by
  have fold : ∀ (values : List ℤ) (start : ℕ),
      (values.foldl (fun g v => g.gcd v.natAbs) start ∣ start) ∧
        ∀ n ∈ values, ((values.foldl (fun g v => g.gcd v.natAbs) start : ℕ) : ℤ) ∣ n := by
    intro values
    induction values with
    | nil => exact fun start => ⟨dvd_rfl, nofun⟩
    | cons first rest tail =>
      intro start
      obtain ⟨begins, each⟩ := tail (start.gcd first.natAbs)
      refine ⟨begins.trans (Nat.gcd_dvd_left ..), List.forall_mem_cons.mpr ⟨?_, each⟩⟩
      exact Int.natCast_dvd.mpr (begins.trans (Nat.gcd_dvd_right ..))
  exact (fold values 0).2

/-- Dividing the coefficients divides the value. -/
theorem eval_divide (v : TermId → ℝ) (m : Monomials) (d : ℚ) :
    (m.divide d).eval v = m.eval v / d := by
  have fold : ∀ (monomials : List Monomial) (scaled : Monomials),
      (monomials.foldl (fun scaled e => scaled.add (e.coeff / d) e.product) scaled).eval v =
        scaled.eval v + Monomials.sumOf v monomials / d := by
    intro monomials
    induction monomials with
    | nil => simp
    | cons e rest tail =>
      intro scaled
      rw [List.foldl_cons, tail, Monomials.eval_add, Monomials.sumOf_cons]
      simp only [Monomial.eval]
      push_cast
      ring
  rw [Monomials.divide, fold, Monomials.eval_empty, zero_add]
  rfl

/-- A common divisor is more than one and divides the coefficients, which are integers. -/
theorem commonDivisor?_spec {b : Balance} {g : ℕ} (found : commonDivisor? b = some g) :
    1 < g ∧ Rational.isIntegral b.bound ∧ ∀ e ∈ b.left.toList ++ b.right.toList,
      Rational.isIntegral e.coeff ∧ (g : ℤ) ∣ e.coeff.num := by
  unfold commonDivisor? at found
  dsimp only at found
  split at found
  · next integral =>
    obtain ⟨bound, all⟩ := Bool.and_eq_true_iff.mp integral
    split at found
    · next big =>
      obtain rfl := Option.some.inj found
      refine ⟨big, bound, fun e member => ⟨List.all_eq_true.mp all e member, ?_⟩⟩
      exact gcdList_dvd _ _ (List.mem_map_of_mem member)
    · cases found
  · cases found

end Divisors

end Arithmetic

namespace Semantics

open Arithmetic Terms Rule

variable {s : Store} {M : Semantics} {config : SimplifierConfig} {isInt : Bool}
  {t a b : TermId} {x y : ℝ} {relation : Relation}

/-- A flipped equation is an equation. -/
theorem flip_eq (flipped : relation.flip = .eq) : relation = .eq := by
  cases relation <;> simp_all [Relation.flip]

/-- A comparison has the truth value of its relation. -/
theorem mkComparison_means (allowed : relation = .eq → M.equations)
    (left : M.Number s isInt a x) (right : M.Number s isInt b y) :
    (mkComparison relation a b).Ensures config s fun t after =>
      M.Formula after t (relation.Holds x y) := by
  cases relation with
  | le => exact ensures_lift (mkLe_means left right)
  | ge => exact ensures_lift (mkGe_means left right)
  | eq =>
    exact ensures_lift ((mkEq_means (allowed rfl) left right).imp fun _ _ _ built =>
      built.congr (by simp [Relation.Holds]))

section ZeroPowers

/-- A reduced factor compares with zero like the factor. -/
theorem reduceZeroFactor?_means {f : TermId} (sorted : M.Sorted s f)
    (same : s.sortOf f = .number isInt) :
    (reduceZeroFactor? relation f).Ensures config s fun reduced after =>
      ∃ y, M.Number after isInt (reduced.getD f) y ∧ LikeZero relation (M.num s f) y := by
  have number := Number.self sorted same
  have unchanged : (pure none : Rule (Option TermId)).Ensures config s fun reduced after =>
      ∃ y, M.Number after isInt (reduced.getD f) y ∧ LikeZero relation (M.num s f) y :=
    ensures_pure ⟨_, number, likeZero_self relation _⟩
  unfold reduceZeroFactor?
  refine ensures_peek_bind ?_
  split
  · next base e view =>
    refine ensures_peek_bind ?_
    split
    · next r exponent =>
      split
      · next big =>
        simp only [Bool.and_eq_true, decide_eq_true_eq] at big
        obtain ⟨inner, _, sorts, value⟩ :=
          M.power sorted view exponent big.1 (zero_lt_one.trans big.2)
        have number' : M.Number s isInt base (M.num s base) := .self inner (sorts.symm.trans same)
        -- The exponent is a natural number above one.
        obtain ⟨k, numerator, many⟩ : ∃ k : ℕ, r.num = k ∧ 1 < k := by
          have whole : (1 : ℚ) < (r.num : ℚ) := by rw [num_of_isIntegral big.1]; exact big.2
          have whole : 1 < r.num := by exact_mod_cast whole
          exact ⟨r.num.toNat, by omega, by omega⟩
        have value : M.num s f = M.num s base ^ k := by
          rw [num, value, numerator]
          rfl
        rw [numerator, value]
        split
        · next equation =>
          subst equation
          refine ensures_pure ⟨_, number', ?_⟩
          simp [LikeZero, (zero_lt_one.trans many).ne']
        · next order =>
          split
          · next big =>
            have big : 2 < k := by exact_mod_cast big
            split
            · next odd =>
              have odd : Odd k := Nat.odd_iff.mpr (by omega)
              refine ensures_pure ⟨_, number', ?_⟩
              simp [LikeZero, order, sign_pow_odd odd]
            · next even =>
              have even : Even k := Nat.even_iff.mpr (by omega)
              refine ensures_bind (ensures_lift ((mkInt_means (M := M) 2).and (mkInt_op 2)))
                fun two middle grown literal => ?_
              refine ensures_bind (ensures_lift (mkPower_means (k := 2) (number'.mono grown) two_pos
                literal.2 literal.1.sorted)) fun r after _ built => ensures_pure ⟨_, built, ?_⟩
              simp only [LikeZero, order, ↓reduceIte]
              exact sign_pow_even even (by omega) _
          · rw [← value]
            exact unchanged
      · exact unchanged
    · exact unchanged
  · exact unchanged

/-- The factors of a product, or a power as its only factor, are numbers with the value of the
term. -/
theorem zeroFactors?_means {p : TermId} {factors : List TermId} (number : M.Number s isInt p x)
    (found : zeroFactors? s p = some factors) :
    M.Numbers s isInt factors ∧ factors ≠ [] ∧ (factors.map (M.num s)).prod = x := by
  unfold zeroFactors? at found
  split at found
  · next args view =>
    obtain rfl := Option.some.inj found
    obtain ⟨head, rfl⟩ := Store.view_eq_iff.mp view
    refine ⟨numbers_of_view number view (.inr rfl), ?_, ?_⟩
    · exact args_ne_nil number.sorted (.inr head)
    · rw [← num_of_mul number.sorted head, number.num_eq]
  · obtain rfl := Option.some.inj found
    refine ⟨?_, List.cons_ne_nil p [], by simp [number.num_eq]⟩
    exact List.forall_mem_singleton.mpr ⟨number.sorted, number.sort_eq⟩
  · cases found

/-- Reduced factors in the place of the factors: their product compares with zero like the product
of the factors. -/
theorem zipWith_likeZero {factors : List TermId} {reduced : List (Option TermId)}
    {v : TermId → ℝ} (known : List.Forall₂ (fun f r => ∃ y, M.Number s isInt (r.getD f) y ∧
      LikeZero relation (v f) y) factors reduced) :
    ∃ ys, List.Forall₂ (M.Number s isInt) (factors.zipWith (fun f r => r.getD f) reduced) ys ∧
      List.Forall₂ (LikeZero relation) (factors.map v) ys := by
  induction known with
  | nil => exact ⟨[], .nil, .nil⟩
  | cons first _ rest =>
    obtain ⟨y, number, alike⟩ := first
    obtain ⟨ys, numbers, all⟩ := rest
    exact ⟨y :: ys, .cons number numbers, .cons alike all⟩

/-- A comparison with zero whose powers are reduced keeps its truth value. -/
theorem reduceZeroPower?_means (allowed : relation = .eq → M.equations)
    (left : M.Number s isInt a x) (right : M.Number s isInt b y) :
    (reduceZeroPower? relation a b).Ensures config s fun found after =>
      ∀ o ∈ found, M.Answers after o .bool (.truth (relation.Holds x y)) := by
  have none : (pure none : Rule (Option Outcome)).Ensures config s fun found after =>
      ∀ o ∈ found, M.Answers after o .bool (.truth (relation.Holds x y)) := ensures_pure (by simp)
  unfold reduceZeroPower?
  refine ensures_peek_bind (ensures_peek_bind ?_)
  split
  · exact none
  next zero =>
  -- One side is zero; the other one is the side to reduce.
  obtain ⟨z, p, side, number, zeroValue⟩ : ∃ z p, (if s.isZero a then b else a) = p ∧
      M.Number s isInt p z ∧
      (relation.Holds x y ↔ if s.isZero a then relation.Holds 0 z else relation.Holds z 0) := by
    by_cases first : s.isZero a
    · have value : x = (0 : ℚ) := (left.of_numeral? (by simpa [Store.isZero] using first)).1
      exact ⟨y, b, by simp [first], right, by simp [first, value]⟩
    · have second : s.isZero b := by simpa [first] using zero
      have value : y = (0 : ℚ) := (right.of_numeral? (by simpa [Store.isZero] using second)).1
      exact ⟨x, a, by simp [first], left, by simp [first, value]⟩
  rw [side]
  refine ensures_peek_bind ?_
  split
  · exact none
  next factors found =>
  obtain ⟨numbers, some, product⟩ := zeroFactors?_means number found
  refine ensures_peek_bind ?_
  rw [number.isInt_eq]
  have each : ∀ f ∈ factors, ∀ now, s.Extends now →
      (reduceZeroFactor? relation f).Ensures config now fun r after =>
        ∃ y, M.Number after isInt (r.getD f) y ∧ LikeZero relation (M.num s f) y := by
    intro f member now grown
    have later := numbers.mono grown f member
    have value : M.num now f = M.num s f :=
      congrArg Value.num (M.value_mono (numbers f member).1 grown)
    rw [← value]
    exact reduceZeroFactor?_means later.1 later.2
  have lasting : ∀ (f : TermId) (r : Option TermId) (before after : Store), before.Extends after →
      (∃ y, M.Number before isInt (r.getD f) y ∧ LikeZero relation (M.num s f) y) →
      ∃ y, M.Number after isInt (r.getD f) y ∧ LikeZero relation (M.num s f) y :=
    fun _ _ _ _ more known => known.imp fun _ both => ⟨both.1.mono more, both.2⟩
  refine ensures_bind (ensures_mapM lasting factors each) fun reduced middle _ known => ?_
  split
  · exact ensures_pure (by simp)
  obtain ⟨ys, built, alike⟩ := zipWith_likeZero known
  have nonempty : factors.zipWith (fun f r => r.getD f) reduced ≠ [] := by
    intro empty
    rw [empty] at built
    rw [List.forall₂_nil_left_iff.mp built, List.forall₂_nil_right_iff] at alike
    exact some (List.map_eq_nil_iff.mp alike)
  obtain ⟨rightward, leftward⟩ := (likeZero_prod alike).holds
  rw [product] at rightward leftward
  refine ensures_bind (ensures_lift (mkMul_means nonempty built)) fun r after _ reduced => ?_
  refine ensures_bind (ensures_lift (mkNumeral_means (M := M)
    fun _ => Rational.isIntegral_zero)) fun nought last grown nothing => ?_
  split
  · next first =>
    refine ensures_bind (mkComparison_means allowed nothing (reduced.mono grown))
      fun _ _ _ formula => ensures_pure ?_
    rintro _ ⟨⟩
    refine Answers.of_result? rfl (formula.congr ?_)
    rw [zeroValue, if_pos first, leftward, Rat.cast_zero]
  · next second =>
    refine ensures_bind (mkComparison_means allowed (reduced.mono grown) nothing)
      fun _ _ _ formula => ensures_pure ?_
    rintro _ ⟨⟩
    refine Answers.of_result? rfl (formula.congr ?_)
    rw [zeroValue, if_neg second, rightward, Rat.cast_zero]

end ZeroPowers

section Casts

variable {terms : List TermId}

/-- The integer factors that real factors stand for have the same product. -/
theorem stripFactors_means (strict : ¬M.realCasts) :
    ∀ (terms ints : List TermId) (found : Bool) {s : Store}, M.Numbers s false terms →
    M.Numbers s true ints →
    (stripFactors terms ints found).Ensures config s fun result after =>
      ∀ ints' found', result = some (ints', found') → M.Numbers after true ints' ∧
        (ints'.map (M.num after)).prod =
          (ints.map (M.num s)).prod * (terms.map (M.num s)).prod ∧
        ints'.length = ints.length + terms.length
  | [], ints, found, s, _, numbers => by
    refine ensures_pure ?_
    rintro _ _ ⟨⟩
    refine ⟨fun t member => numbers t (List.mem_reverse.mp member), ?_, by simp⟩
    rw [((List.reverse_perm ints).map _).prod_eq]
    simp
  | f :: rest, ints, found, s, reals, numbers => by
    obtain ⟨⟨sorted, same⟩, later⟩ := List.forall_mem_cons.mp reals
    have later : M.Numbers s false rest := later
    -- One more integer factor with the value of the real one.
    have step : ∀ {u : TermId} {now : Store}, s.Extends now → M.Number now true u (M.num s f) →
        ∀ found', (stripFactors rest (u :: ints) found').Ensures config now fun result after =>
          ∀ ints' found', result = some (ints', found') → M.Numbers after true ints' ∧
            (ints'.map (M.num after)).prod =
              (ints.map (M.num s)).prod * ((f :: rest).map (M.num s)).prod ∧
            ints'.length = ints.length + (f :: rest).length := by
      intro u now grown number found'
      have more : M.Numbers now true (u :: ints) :=
        List.forall_mem_cons.mpr ⟨⟨number.sorted, number.sort_eq⟩, numbers.mono grown⟩
      refine (stripFactors_means strict rest (u :: ints) found' (later.mono grown) more).imp
        fun result after _ known ints' found'' shape => ?_
      obtain ⟨integers, product, length⟩ := known ints' found'' shape
      refine ⟨integers, ?_, ?_⟩
      · rw [product, later.map_num grown, List.map_cons, List.prod_cons, number.num_eq,
          numbers.map_num grown, List.map_cons, List.prod_cons]
        ring
      · rw [length, List.length_cons, List.length_cons]
        omega
    unfold stripFactors
    refine ensures_peek_bind ?_
    split
    · next r literal =>
      split
      · next integral =>
        refine ensures_bind (ensures_lift (mkInt_means (M := M) r.num))
          fun n now grown built => ?_
        refine step grown (built.congr ?_) found
        rw [num_of_numeral? sorted literal]
        exact_mod_cast num_of_isIntegral integral
      · exact ensures_pure (by simp)
    · refine ensures_peek_bind ?_
      split
      · next u view =>
        obtain ⟨⟨_, int | ⟨casts, _⟩⟩, arguments, value⟩ :=
          (Denotes.self sorted).of_view view rfl
        · have int : s.sortOf u = .number true := int
          have number := Number.self (arguments u (by simp)) int
          refine step (.refl s) (number.congr ?_) true
          rw [num, num, value]
          rfl
        · exact absurd casts strict
      · exact ensures_pure (by simp)

/-- The factors of a number are numbers with its value as their product. -/
theorem productFactors_means (number : M.Number s isInt t x) :
    M.Numbers s isInt (productFactors s t) ∧ productFactors s t ≠ [] ∧
      ((productFactors s t).map (M.num s)).prod = x := by
  unfold productFactors
  split
  · next args view => exact zeroFactors?_means number (by rw [zeroFactors?, view])
  · refine ⟨?_, List.cons_ne_nil t [], by simp [number.num_eq]⟩
    exact List.forall_mem_singleton.mpr ⟨number.sorted, number.sort_eq⟩

/-- The integer summands that real summands stand for have the same sum. -/
theorem stripSummands_means (strict : ¬M.realCasts) :
    ∀ (terms ints : List TermId) (found : Bool) {s : Store}, M.Numbers s false terms →
    M.Numbers s true ints →
    (stripSummands terms ints found).Ensures config s fun result after =>
      ∀ ints' found', result = some (ints', found') → M.Numbers after true ints' ∧
        (ints'.map (M.num after)).sum =
          (ints.map (M.num s)).sum + (terms.map (M.num s)).sum ∧
        ints'.length = ints.length + terms.length
  | [], ints, found, s, _, numbers => by
    refine ensures_pure ?_
    rintro _ _ ⟨⟩
    refine ⟨fun t member => numbers t (List.mem_reverse.mp member), ?_, by simp⟩
    rw [((List.reverse_perm ints).map _).sum_eq]
    simp
  | t :: rest, ints, found, s, reals, numbers => by
    obtain ⟨⟨sorted, same⟩, later⟩ := List.forall_mem_cons.mp reals
    have later : M.Numbers s false rest := later
    have number : M.Number s false t (M.num s t) := .self sorted same
    unfold stripSummands
    refine ensures_peek_bind ?_
    obtain ⟨factorNumbers, some, value⟩ := productFactors_means number
    generalize productFactors s t = factors at factorNumbers some value
    refine ensures_bind (stripFactors_means (M := M) strict factors [] found factorNumbers
      (List.forall_mem_nil _))
      fun result middle grown known => ?_
    split
    · next product found' =>
      obtain ⟨integers, values, length⟩ := known product found' rfl
      have nonempty : product ≠ [] := by
        rintro rfl
        have : factors.length = 0 := by simpa using length.symm
        exact some (List.length_eq_zero_iff.mp this)
      refine ensures_bind (ensures_lift (mkMul_means nonempty integers.forall₂))
        fun n after more built => ?_
      have whole := grown.trans more
      have next : M.Numbers after true (n :: ints) :=
        List.forall_mem_cons.mpr ⟨⟨built.sorted, built.sort_eq⟩, numbers.mono whole⟩
      refine (stripSummands_means strict rest (n :: ints) found' (later.mono whole) next).imp
        fun result last _ known ints' found'' shape => ?_
      obtain ⟨integers, total, length⟩ := known ints' found'' shape
      refine ⟨integers, ?_, ?_⟩
      · rw [total, later.map_num whole, List.map_cons, List.sum_cons, built.num_eq, values, value,
          numbers.map_num whole, List.map_cons, List.sum_cons]
        simp
        ring
      · rw [length, List.length_cons, List.length_cons]
        omega
    · exact ensures_pure (by simp)

/-- The integer term that a real term stands for has its value. -/
theorem stripToReal?_means (strict : ¬M.realCasts) (number : M.Number s isInt t x) :
    (stripToReal? t).Ensures config s fun result after =>
      ∀ r found, result = some (r, found) → isInt = false ∧ M.Number after true r x := by
  unfold stripToReal?
  refine ensures_peek_bind ?_
  split
  · exact ensures_pure (by simp)
  next real =>
  obtain rfl : isInt = false := by
    have same := number.sort_eq
    cases isInt with
    | false => rfl
    | true => simp [Store.isReal, same, TermSort.number] at real
  have numbers : M.Numbers s false (s.summands t) :=
    numbers_of_flattenTo (.inl rfl) (t + 1) number.sorted number.sort_eq
  have value : ((s.summands t).map (M.num s)).sum = x :=
    (sum_flattenTo (t + 1) number.sorted).trans number.num_eq
  refine ensures_peek_bind ?_
  refine ensures_bind (stripSummands_means (M := M) strict (s.summands t) [] false numbers
    (List.forall_mem_nil _)) fun result middle grown known => ?_
  split
  · next ints found =>
    obtain ⟨integers, total, length⟩ := known ints found rfl
    have nonempty : ints ≠ [] := by
      rintro rfl
      have : (s.summands t).length = 0 := by simpa using length.symm
      exact summands_ne_nil number.sorted (List.length_eq_zero_iff.mp this)
    refine ensures_bind (ensures_lift (mkAdd_means nonempty integers.forall₂))
      fun r after _ built => ensures_pure ?_
    rintro _ _ ⟨⟩
    refine ⟨rfl, built.congr ?_⟩
    rw [total, value]
    simp
  · exact ensures_pure (by simp)

/-- The integer terms that both sides of a comparison stand for have the values of the sides. -/
theorem stripSides?_means (strict : ¬M.realCasts) (left : M.Number s isInt a x)
    (right : M.Number s isInt b y) :
    (stripSides? a b).Ensures config s fun sides after =>
      ∀ u w, sides = some (u, w) →
        isInt = false ∧ M.Number after true u x ∧ M.Number after true w y := by
  unfold stripSides?
  refine ensures_read_bind ?_
  split
  · exact ensures_pure (by simp)
  refine ensures_bind (stripToReal?_means strict left) fun first middle grown leftward => ?_
  refine ensures_bind (stripToReal?_means strict (right.mono grown))
    fun second after more rightward => ?_
  split
  · next u castLeft w castRight =>
    refine ensures_pure ?_
    split
    · rintro _ _ ⟨⟩
      obtain ⟨real, number⟩ := leftward u castLeft rfl
      exact ⟨real, number.mono more, (rightward w castRight rfl).2⟩
    · simp
  · exact ensures_pure (by simp)

end Casts

section Balances

variable {left right : Monomials} {v : TermId → ℝ}

/-- Cancelling common monomials keeps the difference of the sides. -/
theorem cancel_means (leftFits : M.AllFit s isInt left) (rightFits : M.AllFit s isInt right) :
    (M.AllFit s isInt (cancel left right).1 ∧ M.AllFit s isInt (cancel left right).2) ∧
    (Nonzero (cancel left right).1 ∧ Nonzero (cancel left right).2) ∧
    (cancel left right).1.eval v - (cancel left right).2.eval v = left.eval v - right.eval v := by
  have step : ∀ (monomials : List Monomial) (kept right : Monomials),
      (∀ m ∈ monomials, M.Fits s isInt m) → M.AllFit s isInt kept → M.AllFit s isInt right →
      let result := monomials.foldl (fun pair (m : Monomial) =>
        (pair.1.add (m.coeff - (pair.2.take m.product).1.getD 0) m.product,
          (pair.2.take m.product).2)) (kept, right)
      (M.AllFit s isInt result.1 ∧ M.AllFit s isInt result.2) ∧
        result.1.eval v - result.2.eval v =
          kept.eval v - right.eval v + Monomials.sumOf v monomials := by
    intro monomials
    induction monomials with
    | nil => exact fun kept right _ first second => ⟨⟨first, second⟩, by simp⟩
    | cons m rest tail =>
      intro kept right all first second
      obtain ⟨here, later⟩ := List.forall_mem_cons.mp all
      have taken : isInt → Rational.isIntegral ((right.take m.product).1.getD 0) := by
        intro int
        cases found : (right.take m.product).1 with
        | none => exact Rational.isIntegral_zero
        | some c => exact (second _ (Monomials.coeff?_mem found)).integral int
      have new : M.Fits s isInt
          ⟨m.coeff - (right.take m.product).1.getD 0, m.product⟩ := { here with
        integral := fun int => Rational.isIntegral_sub (here.integral int) (taken int) }
      have added := first.add new
      obtain ⟨fits, value⟩ := tail _ _ later added (second.take m.product)
      refine ⟨fits, ?_⟩
      rw [List.foldl_cons]
      refine value.trans ?_
      have split := Monomials.eval_take (v := v) (m := right) m.product
      rw [Monomials.eval_add, Monomials.sumOf_cons, split]
      simp only [Monomial.eval]
      push_cast
      ring
  obtain ⟨⟨first, second⟩, value⟩ := step left.toList {} right leftFits .empty rightFits
  refine ⟨⟨first.retainNonzero, second.retainNonzero⟩,
    ⟨nonzero_retainNonzero _, nonzero_retainNonzero _⟩, ?_⟩
  unfold cancel
  rw [Monomials.eval_retainNonzero, Monomials.eval_retainNonzero]
  refine value.trans ?_
  rw [Monomials.eval_empty, Monomials.eval, Monomials.eval]
  ring

/-- The sides of a balance fit its sort, it is no equation where there are none, and it has a truth
value. -/
structure Compares (M : Semantics) (s : Store) (isInt : Bool) (b : Balance) (p : Prop) : Prop where
  /-- The monomials on the left fit the sort. -/
  left : M.AllFit s isInt b.left
  /-- The monomials on the right fit the sort. -/
  right : M.AllFit s isInt b.right
  /-- The constant is an integer if the sort is that of integers. -/
  bound : isInt → Rational.isIntegral b.bound
  /-- An equation is allowed. -/
  allowed : b.relation = .eq → M.equations
  /-- The truth value of the comparison. -/
  holds : p ↔ b.relation.Holds (b.left.eval (M.num s)) (b.bound + b.right.eval (M.num s))

/-- A balance without zeros on the left whose left side is empty only if both are. -/
structure Balances (M : Semantics) (s : Store) (isInt : Bool) (b : Balance) (p : Prop) : Prop
    extends M.Compares s isInt b p where
  /-- No monomial on the left is zero. -/
  nonzero : Nonzero b.left
  /-- The left side is empty only if both are. -/
  leading : b.left.isEmpty → b.right.isEmpty

/-- Adding negated monomials subtracts their value. -/
theorem foldl_subtract_means (monomials : List Monomial) (all : Monomials)
    (fits : ∀ m ∈ monomials, M.Fits s isInt m) (known : M.AllFit s isInt all) :
    M.AllFit s isInt (monomials.foldl (fun all m => all.add (-m.coeff) m.product) all) ∧
      (monomials.foldl (fun all m => all.add (-m.coeff) m.product) all).eval v =
        all.eval v - Monomials.sumOf v monomials := by
  induction monomials generalizing all with
  | nil => exact ⟨known, by simp⟩
  | cons m rest tail =>
    obtain ⟨here, later⟩ := List.forall_mem_cons.mp fits
    obtain ⟨fit, value⟩ := tail (all.add (-m.coeff) m.product) later (known.add { here with
      integral := fun int => Rational.isIntegral_neg (here.integral int) })
    refine ⟨fit, ?_⟩
    rw [List.foldl_cons, value, Monomials.eval_add, Monomials.sumOf_cons]
    simp only [Monomial.eval]
    push_cast
    ring

/-- Balancing a comparison keeps its truth value. -/
theorem balance_means (lhsOnly : Bool) (allowed : relation = .eq → M.equations)
    (first : M.Number s isInt a x)
    (second : M.Number s isInt b y) :
    M.Balances s isInt (balance s lhsOnly relation a b) (relation.Holds x y) := by
  have leftFits := fits_linearForm first.sorted first.sort_eq
  have rightFits := fits_linearForm second.sorted second.sort_eq
  have leftValue := (eval_linearForm first.sorted first.sort_eq).trans first.num_eq
  have rightValue := (eval_linearForm second.sorted second.sort_eq).trans second.num_eq
  obtain ⟨⟨fits, fits'⟩, ⟨nonzero, nonzero'⟩, value⟩ :=
    cancel_means (v := M.num s) leftFits.2 rightFits.2
  have bound : isInt → Rational.isIntegral
      ((s.linearForm b).constant - (s.linearForm a).constant) :=
    fun int => Rational.isIntegral_sub (rightFits.1 int) (leftFits.1 int)
  unfold LinearForm.eval at leftValue rightValue
  unfold balance
  -- Whether or not everything moves to the left, the difference of the sides stays.
  obtain ⟨left, right, shape, fits, fits', nonzero, nonzero', value⟩ : ∃ left right : Monomials,
      (if lhsOnly then (((cancel (s.linearForm a).monomials
          (s.linearForm b).monomials).2.toList.foldl (fun all m => all.add (-m.coeff) m.product)
          (cancel (s.linearForm a).monomials (s.linearForm b).monomials).1).retainNonzero, {})
        else ((cancel (s.linearForm a).monomials (s.linearForm b).monomials).1,
          (cancel (s.linearForm a).monomials (s.linearForm b).monomials).2)) = (left, right) ∧
      M.AllFit s isInt left ∧ M.AllFit s isInt right ∧ Nonzero left ∧ Nonzero right ∧
      left.eval (M.num s) - right.eval (M.num s) =
        (s.linearForm a).monomials.eval (M.num s) - (s.linearForm b).monomials.eval (M.num s) := by
    cases lhsOnly with
    | false => exact ⟨_, _, rfl, fits, fits', nonzero, nonzero', value⟩
    | true =>
      obtain ⟨moved, total⟩ := foldl_subtract_means (v := M.num s) _ _ fits' fits
      refine ⟨_, _, rfl, moved.retainNonzero, .empty, nonzero_retainNonzero _,
        List.forall_mem_nil _, ?_⟩
      rw [Monomials.eval_retainNonzero, total, Monomials.eval_empty, sub_zero, ← value]
      rfl
  dsimp only
  rw [shape]
  dsimp only
  split
  · next swapped =>
    obtain ⟨empty, _⟩ := Bool.and_eq_true_iff.mp swapped
    refine ⟨⟨fits', fits, fun int => Rational.isIntegral_neg (bound int),
      fun flipped => allowed (flip_eq flipped), ?_⟩, nonzero', by simp_all⟩
    rw [Relation.holds_flip]
    refine Relation.holds_congr ?_
    rw [← leftValue, ← rightValue]
    push_cast
    linarith
  · next kept =>
    refine ⟨⟨fits, fits', bound, allowed, ?_⟩, nonzero, by simpa using kept⟩
    refine Relation.holds_congr ?_
    rw [← leftValue, ← rightValue]
    push_cast
    linarith

end Balances

section Bounds

/-- The comparison of two numbers keeps its truth value, also when an equation is split in two. -/
theorem finishComparison_means (allowed : relation = .eq → M.equations) (left : M.Number s isInt a x)
    (right : M.Number s isInt b y) :
    (finishComparison t relation a b).Ensures config s fun o after =>
      M.Answers after o .bool (.truth (relation.Holds x y)) := by
  unfold finishComparison
  refine ensures_bind (mkComparison_means allowed left right) fun r middle grown formula => ?_
  refine ensures_read_bind ?_
  split
  · next split =>
    obtain ⟨rfl, _⟩ := split
    refine ensures_bind (ensures_lift (mkLe_means (left.mono grown) (right.mono grown)))
      fun l after more below => ?_
    have whole := grown.trans more
    refine ensures_bind (ensures_lift (mkGe_means (left.mono whole) (right.mono whole)))
      fun g last most above => ?_
    refine answers_build (fun _ => rfl) ((mkAnd_pair_means (below.mono most) above).imp
      fun _ _ _ both => both.congr ?_)
    exact le_antisymm_iff.symm
  · split
    · exact answers_failed
    · exact answers_with rfl formula

/-- A multiple of a power product against a constant, as a bound on the power product. -/
theorem reduceBound_means {m : Monomial} {bound : ℚ} (allowed : relation = .eq → M.equations)
    (fits : M.Fits s isInt m) (nonzero : m.coeff ≠ 0) :
    (reduceBound t relation m (bound / m.coeff) isInt).Ensures config s fun o after =>
      M.Answers after o .bool (.truth (relation.Holds (m.eval (M.num s)) bound)) := by
  obtain ⟨r, shape, value⟩ : ∃ r : Relation, (if m.coeff < 0 then relation.flip else relation) = r ∧
      (relation.Holds (m.eval (M.num s)) bound ↔
        r.Holds (m.product.map (M.num s)).prod (bound / m.coeff : ℚ)) := by
    refine ⟨_, rfl, ?_⟩
    have scaled : (m.product.map (M.num s)).prod = m.eval (M.num s) / m.coeff := by
      have : (m.coeff : ℝ) ≠ 0 := by exact_mod_cast nonzero
      rw [Monomial.eval]
      field_simp
    rw [scaled, Rat.cast_div]
    split
    · next negative => exact (Relation.holds_div_neg (by exact_mod_cast negative)).symm
    · next other =>
      have positive : 0 < m.coeff := lt_of_le_of_ne (not_lt.mp other) nonzero.symm
      exact (Relation.holds_div_pos (by exact_mod_cast positive)).symm
  have allowed : r = .eq → M.equations := by
    intro equation
    rw [equation] at shape
    split at shape
    · exact allowed (flip_eq shape)
    · exact allowed shape
  rw [propext value]
  unfold reduceBound
  simp only [shape]
  refine ensures_bind (ensures_lift (mkMul_means fits.some fits.factors.forall₂))
    fun x after grown product => ?_
  generalize (m.product.map (M.num s)).prod = z at product
  generalize bound / m.coeff = bound
  split
  · next fraction =>
    -- An integer is not equal to a fraction.
    simp only [Bool.and_eq_true, beq_iff_eq, Bool.not_eq_true'] at fraction
    obtain ⟨⟨rfl, rfl⟩, broken⟩ := fraction
    obtain ⟨n, rfl⟩ := product.integral
    refine decided_means ?_
    simp only [Bool.false_eq_true, Relation.Holds, false_iff]
    intro same
    have same : (n : ℚ) = bound := by exact_mod_cast same
    rw [← same, Rational.isIntegral_intCast] at broken
    cases broken
  · next whole =>
    cases isInt with
    | false =>
      refine ensures_bind (ensures_lift (mkNumeral_means (M := M) (by simp)))
        fun c last more literal => ?_
      exact finishComparison_means allowed (product.mono more) literal
    | true =>
      obtain ⟨n, rfl⟩ := product.integral
      rw [← propext (Relation.holds_round n bound)]
      refine ensures_bind (ensures_lift (mkNumeral_means (M := M) fun _ => ?_))
        fun c last more literal => ?_
      · cases r with
        | le => exact Rational.isIntegral_intCast _
        | ge => exact Rational.isIntegral_intCast _
        | eq => simpa using whole
      · exact finishComparison_means allowed (product.mono more) literal

end Bounds

section Divisors

variable {balance : Balance} {p : Prop}

/-- Coefficients that are divided by a common divisor stay integers. -/
theorem fits_divide_means {m : Monomials} {g : ℕ} (fits : M.AllFit s isInt m) (positive : 1 < g)
    (integral : ∀ e ∈ m.toList, Rational.isIntegral e.coeff)
    (divides : ∀ e ∈ m.toList, (g : ℤ) ∣ e.coeff.num) :
    M.AllFit s isInt (m.divide (Rational.ofInt (Int.ofNat g))) := by
  refine List.foldlRecOn (motive := M.AllFit s isInt) m.toList _ .empty
    fun scaled known e member => known.add { fits e member with integral := fun _ => ?_ }
  obtain ⟨k, quotient⟩ := divides e member
  refine Rational.isIntegral_iff.mpr ⟨k, ?_⟩
  have nonzero : (g : ℚ) ≠ 0 := by positivity
  rw [← num_of_isIntegral (integral e member), quotient]
  simp only [Rational.ofInt, Int.ofNat_eq_natCast]
  push_cast
  field_simp

/-- The value of a collection with integer coefficients is an integer. -/
theorem integral_eval_means {m : Monomials} (fits : M.AllFit s true m) :
    ∃ n : ℤ, m.eval (M.num s) = n := by
  have each : ∀ e ∈ m.toList, e.eval (M.num s) ∈ Value.integers := by
    intro e member
    obtain ⟨n, coefficient⟩ := Rational.isIntegral_iff.mp ((fits e member).integral rfl)
    refine mul_mem (Value.mem_integers.mpr ⟨n, by rw [coefficient]; push_cast; rfl⟩) ?_
    refine list_prod_mem fun x found => ?_
    obtain ⟨f, inside, rfl⟩ := List.mem_map.mp found
    obtain ⟨sorted, same⟩ := (fits e member).factors f inside
    have same : s.sortOf f = .int := same
    exact Value.num_mem_integers (same ▸ M.hasSort sorted (.inr (same ▸ rfl)))
  refine Value.mem_integers.mp (list_sum_mem fun x found => ?_)
  obtain ⟨e, inside, rfl⟩ := List.mem_map.mp found
  exact each e inside

/-- An integral number and the multiple of a divisor are comparable after division. -/
theorem holds_divide_means {b : Balance} {g : ℕ} (known : M.Compares s true b p) (positive : 1 < g) :
    p ↔ b.relation.Holds
      ((b.left.divide (Rational.ofInt (Int.ofNat g))).eval (M.num s) -
        (b.right.divide (Rational.ofInt (Int.ofNat g))).eval (M.num s))
      (b.bound / Rational.ofInt (Int.ofNat g) : ℚ) := by
  have big : (0 : ℝ) < (Rational.ofInt (Int.ofNat g) : ℚ) := by
    have : 0 < g := by omega
    simpa [Rational.ofInt] using this
  rw [known.holds, ← Relation.holds_div_pos big]
  refine Relation.holds_congr ?_
  rw [eval_divide, eval_divide]
  push_cast
  ring

/-- Dividing an integer comparison by a common divisor of the coefficients keeps its truth value;
an equation whose constant is not divisible is false. -/
theorem divide?_means {b : Balance} {g : ℕ} (known : M.Compares s true b p)
    (found : commonDivisor? b = some g) :
    match b.divide? g with
    | none => ¬p
    | some divided => M.Compares s true divided p := by
  obtain ⟨positive, integral, coefficients⟩ := commonDivisor?_spec found
  have value := holds_divide_means known positive
  obtain ⟨leftward, rightward⟩ := List.forall_mem_append.mp coefficients
  have leftFits := fits_divide_means known.left positive (fun e member => (leftward e member).1)
    fun e member => (leftward e member).2
  have rightFits := fits_divide_means known.right positive (fun e member => (rightward e member).1)
    fun e member => (rightward e member).2
  obtain ⟨n, whole⟩ : ∃ n : ℤ, (b.left.divide (Rational.ofInt (Int.ofNat g))).eval (M.num s) -
      (b.right.divide (Rational.ofInt (Int.ofNat g))).eval (M.num s) = n := by
    obtain ⟨m, first⟩ := integral_eval_means (M := M) leftFits
    obtain ⟨k, second⟩ := integral_eval_means (M := M) rightFits
    exact ⟨m - k, by rw [first, second]; push_cast; rfl⟩
  have nonzero : (g : ℚ) ≠ 0 := by positivity
  have divisible : b.bound.num % Int.ofNat g = 0 ↔
      Rational.isIntegral (b.bound / Rational.ofInt (Int.ofNat g)) := by
    rw [← Int.dvd_iff_emod_eq_zero, Rational.isIntegral_iff]
    simp only [dvd_def, Rational.ofInt, Int.ofNat_eq_natCast, Int.cast_natCast]
    refine exists_congr fun k => ?_
    rw [div_eq_iff nonzero, ← num_of_isIntegral integral]
    rw [mul_comm]
    norm_cast
  unfold Balance.divide?
  dsimp only
  split_ifs with broken
  · obtain ⟨equation, remainder⟩ := broken
    rw [equation, whole] at value
    intro holds
    have same : (n : ℝ) = (b.bound / Rational.ofInt (Int.ofNat g) : ℚ) := value.mp holds
    have same : (n : ℚ) = b.bound / Rational.ofInt (Int.ofNat g) := by exact_mod_cast same
    exact remainder (divisible.mpr (same ▸ Rational.isIntegral_intCast n))
  · refine ⟨leftFits, rightFits, fun _ => ?_, known.allowed, ?_⟩
    · cases relation : b.relation with
      | le => exact Rational.isIntegral_intCast _
      | ge => exact Rational.isIntegral_intCast _
      | eq => exact divisible.mp (by simpa [relation] using broken)
    · rw [value, whole, ← Relation.holds_round]
      refine Relation.holds_congr ?_
      rw [← whole]
      exact (sub_add_eq_sub_sub_swap _ _ _).symm

end Divisors

section Sides

/-- A balance as a comparison of terms keeps its truth value. -/
theorem mkBalance_means {b : Balance} {p : Prop} (known : M.Compares s isInt b p) :
    (mkBalance t b isInt).Ensures config s fun o after =>
      M.Answers after o .bool (.truth p) := by
  unfold mkBalance
  refine ensures_bind (mkSum_means (M := M) (x := 0) (by simp) (fun _ => rfl) known.left)
    fun l middle grown left => ?_
  have constant : (if b.bound ≠ 0 ∨ b.right.isEmpty = true then some <$> mkNumeral b.bound isInt
      else pure none : Rule (Option TermId)).Ensures config middle fun constant after =>
      (∀ c ∈ constant, M.Number after isInt c b.bound) ∧
        (constant = none → (b.bound : ℝ) = 0 ∧ b.right.isEmpty = false) := by
    split_ifs with shown
    · refine ensures_bind (ensures_lift (mkNumeral_means (M := M) known.bound))
        fun c _ _ literal => ensures_pure ⟨?_, by simp⟩
      rintro _ ⟨⟩
      exact literal
    · refine ensures_pure ⟨by simp, fun _ => ?_⟩
      simp only [ne_eq, not_or, not_not, Bool.not_eq_true] at shown
      exact ⟨by exact_mod_cast shown.1, shown.2⟩
  refine ensures_ite_bind constant fun constant after more literal => ?_
  obtain ⟨present, absent⟩ := literal
  have right : ∀ m ∈ b.right.toList, M.Fits after isInt m :=
    fun m member => (known.right m member).mono (grown.trans more)
  have finish : ∀ {r : TermId} {now : Store}, after.Extends now →
      M.Number now isInt r (b.bound + b.right.eval (M.num s)) →
      (finishComparison t b.relation l r).Ensures config now fun o after =>
        M.Answers after o .bool (.truth p) := by
    intro r now last built
    have left := left.mono (more.trans last)
    rw [zero_add] at left
    rw [propext known.holds]
    exact finishComparison_means known.allowed left built
  dsimp only
  split
  · next c empty =>
    refine ensures_pure_bind (finish (.refl _) ((present c rfl).congr ?_))
    rw [eval_of_isEmpty empty, add_zero]
  · refine ensures_bind (mkSum_means (M := M) (x := b.bound) present
      (fun none => (absent none).1) right) fun r last most built => ?_
    refine finish most (built.congr ?_)
    rw [sumOf_eq known.right (grown.trans more)]
    rfl

/-- A comparison of sums keeps its truth value. -/
theorem reduceBalance_means {b : Balance} {p : Prop} (known : M.Balances s isInt b p) :
    (reduceBalance t b isInt).Ensures config s fun o after =>
      M.Answers after o .bool (.truth p) := by
  unfold reduceBalance
  split
  · next empty =>
    have empty : b.left.isEmpty := List.isEmpty_iff.mpr empty
    refine decided_means ?_
    rw [Relation.holds_order, known.holds, eval_of_isEmpty empty,
      eval_of_isEmpty (known.leading empty), add_zero, Rat.cast_zero]
  · next m alone empty =>
    have fits : M.Fits s isInt m := known.left m (by rw [alone]; exact List.mem_singleton_self m)
    have nonzero : m.coeff ≠ 0 := known.nonzero m (by rw [alone]; exact List.mem_singleton_self m)
    rw [propext known.holds, eval_of_isEmpty empty, add_zero, Monomials.eval, alone,
      Monomials.sumOf_cons, Monomials.sumOf_nil, add_zero]
    exact reduceBound_means known.allowed fits nonzero
  · refine ensures_read_bind ?_
    dsimp only
    split
    · exact mkBalance_means known.toCompares
    · next g divisor =>
      split at divisor
      · next asked =>
        obtain ⟨_, rfl⟩ := Bool.and_eq_true_iff.mp asked
        have divided := divide?_means known.toCompares divisor
        split
        · next absent =>
          rw [absent] at divided
          exact decided_means (by simpa using divided)
        · next result present =>
          rw [present] at divided
          exact ensures_modify_bind (mkBalance_means divided)
      · cases divisor

/-- A comparison of numbers keeps its truth value. -/
theorem reduceComparison_means (allowed : relation = .eq → M.equations) (strict : ¬M.realCasts)
    (left : M.Number s isInt a x) (right : M.Number s isInt b y) :
    (reduceComparison t relation a b).Ensures config s fun o after =>
      M.Answers after o .bool (.truth (relation.Holds x y)) := by
  unfold reduceComparison
  refine numeralValue?_bind_found left fun v first => ?_
  refine numeralValue?_bind_found right fun w second => ?_
  split
  · next v w =>
    have first := first v rfl
    have second := second w rfl
    refine evaluate?_bind_means
      (fun _ => Numeral.ensures_compare first.wellFormed second.wellFormed) (fun order same => ?_)
      answers_failed
    refine decided_means ?_
    rw [same, first.value_eq, second.value_eq]
    exact Relation.holds_cmp x y
  · refine ensures_bind (reduceZeroPower?_means allowed left right) ?_
    intro found middle grown result
    split
    · next o => exact ensures_pure (result o rfl)
    have left := left.mono grown
    have right := right.mono grown
    refine ensures_bind (stripSides?_means strict left right) fun sides after more known => ?_
    have left := left.mono more
    have right := right.mono more
    split
    · next u w =>
      obtain ⟨_, first, second⟩ := known u w rfl
      refine ensures_bind (mkComparison_means allowed first second) fun r last _ built => ?_
      exact answers_with rfl built
    · refine ensures_peek_bind (ensures_read_bind (ensures_peek_bind ?_))
      have same : (after.isInt a && after.isInt b) = isInt := by
        rw [left.isInt_eq, right.isInt_eq, Bool.and_self]
      rw [same]
      exact reduceBalance_means (balance_means _ allowed left right)

end Sides

end Semantics

/-- A comparison of numbers keeps its truth value. -/
theorem Arithmetic.reduceComparison_denotes {s : Store} {Γ : Signature} {I : Assignment}
    {config : SimplifierConfig} {isInt : Bool} {t a b : TermId} {x y : ℝ} {relation : Relation}
    (strict : ¬Γ.realCasts) (left : s.Number Γ I isInt a x) (right : s.Number Γ I isInt b y) :
    (reduceComparison t relation a b).Ensures config s fun o after =>
      o.Denotes after Γ I .bool (.truth (relation.Holds x y)) :=
  Rule.ensures_denotes (Semantics.reduceComparison_means (fun _ => trivial) strict
    (Assignment.denotes_iff.mpr left) (Assignment.denotes_iff.mpr right))

end Stratagem
