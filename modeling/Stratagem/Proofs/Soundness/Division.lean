import Mathlib.Data.Int.ModEq
import Stratagem.Proofs.Algebraic.Order
import Stratagem.Proofs.Algebraic.Representation
import Stratagem.Proofs.Rewriting.Power
import Stratagem.Proofs.Soundness.Valuation
import Stratagem.Rewriting.Division

/-!
# Division and casts keep their value

Division of reals keeps its value where the quotient is known: a quotient of two products by zero
is moved to the quotient of their factors, which need not be the same. Euclidean division,
remainders and casts keep their value whatever division by zero gives. Under a remainder, the
members of sums and products may be replaced by numbers that are congruent to them.
-/
namespace Stratagem

open Arithmetic Terms Rule

/-- Members that are congruent one by one have congruent sums and products. -/
theorem modEq_of_forall₂ {k : ℤ} {ms ns : List ℤ} (each : List.Forall₂ (Int.ModEq k) ms ns) :
    ms.sum ≡ ns.sum [ZMOD k] ∧ ms.prod ≡ ns.prod [ZMOD k] := by
  induction each with
  | nil => exact ⟨rfl, rfl⟩
  | cons first _ rest =>
    simp only [List.sum_cons, List.prod_cons]
    exact ⟨first.add rest.1, first.mul rest.2⟩

namespace Semantics

variable {M : Semantics} {s : Store} {config : SimplifierConfig} {isInt : Bool} {t a b f : TermId}
  {x : ℝ} {r : ℚ} {k : ℤ}

/-- An integral literal denotes its value. -/
theorem eq_of_intValue? (known : M.Number s isInt t x) (found : intValue? s t = some k) :
    x = k := by
  obtain ⟨r, literal, whole⟩ := Option.bind_eq_some_iff.mp found
  obtain ⟨rfl, _⟩ := known.of_numeral? literal
  split at whole
  · next integral =>
    obtain rfl := Option.some.inj whole
    exact_mod_cast (num_of_isIntegral integral).symm
  · cases whole

/-- The value of an integral literal among integers. -/
theorem eq_of_intValue?_integer {n : ℤ} (known : M.Number s true t n)
    (found : intValue? s t = some k) : n = k := by
  exact_mod_cast eq_of_intValue? known found

/-- The factors of a product with a literal. -/
theorem of_scaledFactor? (known : M.Number s isInt t x) (found : scaledFactor? s t = some (r, f)) :
    (∃ y, M.Number s isInt f y ∧ x = r * y) ∧ s.op t = .mul := by
  unfold scaledFactor? at found
  split at found
  case h_2 => cases found
  next c g view =>
  obtain ⟨q, literal, same⟩ := Option.map_eq_some_iff.mp found
  obtain ⟨rfl, rfl⟩ := Prod.mk.inj same
  have numbers := numbers_of_view known view (.inr rfl)
  obtain ⟨head, arguments⟩ := Store.view_eq_iff.mp view
  obtain ⟨lead, factor⟩ := And.intro (numbers c (by simp)) (numbers g (by simp))
  refine ⟨⟨M.num s g, .self factor.1 factor.2, ?_⟩, head⟩
  rw [← known.num_eq, num_of_mul known.sorted head, arguments,
    ← ((Number.self lead.1 lead.2).of_numeral? literal).1]
  simp

/-- The value of a cast is an integer where only integers are cast. -/
theorem integral_of_toReal (strict : ¬M.realCasts) (sorted : M.Sorted s t)
    (head : s.op t = .toReal) : ∃ u n, s.args t = [u] ∧ M.Number s true u (n : ℤ) ∧
      M.num s t = n := by
  have common : (s.op t).isCommon := by rw [head]; rfl
  have fits := M.fits sorted common
  have value := M.value_eq sorted common
  rw [head] at fits value
  cases arguments : s.args t with
  | nil => rw [arguments] at fits; exact fits.elim
  | cons u rest =>
    cases rest with
    | cons => rw [arguments] at fits; exact fits.elim
    | nil =>
      rw [arguments] at fits value
      obtain ⟨_, int | ⟨casts, _⟩⟩ := fits
      · have inner : M.Number s true u _ :=
          .self (M.of_mem_args sorted common (by simp [arguments])) int
        obtain ⟨n, same⟩ := inner.integral
        refine ⟨u, n, rfl, inner.congr same, ?_⟩
        rw [num, value, ← same]
        rfl
      · exact absurd casts strict

end Semantics

namespace Valuation

open Semantics

variable {J : Valuation} {L : Language} {s : Store} {config : SimplifierConfig} {isInt : Bool}
  {t a b u : TermId} {x y : ℝ} {m n k : ℤ}

/-- The quotient of two products with literals is known to be that of the literals times that of
the factors. -/
theorem divideProducts_means (left : (J.semantics L).Number s false a x)
    (right : (J.semantics L).Number s false b y) (quotient : s.QuotientKnown J a b) :
    (divideProducts a b).Ensures config s fun o after =>
      (J.semantics L).Answers after o .real (.number (J.divide x y)) := by
  unfold divideProducts
  refine ensures_peek_bind (ensures_peek_bind ?_)
  split
  case h_2 => exact answers_failed
  next v f w g first second =>
  obtain ⟨⟨p, numerator, rfl⟩, above⟩ := of_scaledFactor? left first
  obtain ⟨⟨q, denominator, rfl⟩, below⟩ := of_scaledFactor? right second
  split
  · exact answers_failed
  next nonzero =>
  have nonzero : (w : ℝ) ≠ 0 := Rat.cast_ne_zero.mpr nonzero
  -- Products are neither constants nor literals, so by zero all quotients are zero.
  have zero : q = 0 → ∀ x, J.quotient x = 0 := by
    rintro rfl
    have divisor : (s.meaning J b).num = 0 := by
      rw [show s.meaning J b = _ from right.value_eq]
      simp
    obtain off | atom | atom | all := quotient
    · exact absurd divisor off
    · rw [above] at atom
      cases atom
    · rw [below] at atom
      cases atom
    · exact all
  have known : s.QuotientKnown J f g := by
    by_cases absent : q = 0
    · exact .inr (.inr (.inr (zero absent)))
    · refine .inl ?_
      rw [show s.meaning J g = _ from denominator.value_eq]
      exact absent
  refine ensures_bind (ensures_lift (mkReal_means (M := J.semantics L) (v / w)))
    fun c middle grown literal => ?_
  refine ensures_bind (ensures_lift (mkDiv_means (numerator.mono grown) (denominator.mono grown)
    (known.mono grown numerator.inside denominator.inside))) fun r after more divided => ?_
  refine answers_build (fun _ => rfl) ((mkMul_pair_means (literal.mono more) divided).imp
    fun _ _ _ built => built.congr ?_)
  unfold divide
  by_cases absent : q = 0
  · simp [absent, zero absent]
  · rw [if_neg absent, if_neg (mul_ne_zero nonzero absent)]
    push_cast
    field_simp

/-- Division keeps its value where the quotient is known. -/
theorem reduceDiv_means (left : (J.semantics L).Number s false a x)
    (right : (J.semantics L).Number s false b y) (quotient : s.QuotientKnown J a b) :
    (reduceDiv a b).Ensures config s fun o after =>
      (J.semantics L).Answers after o .real (.number (J.divide x y)) := by
  unfold reduceDiv
  refine numeralValue?_bind_means right (fun w _ divisor => ?_) fun _ => ?_
  · dsimp only
    split
    · exact answers_failed
    next nonzero =>
    have nonzero : y ≠ 0 := fun zero => nonzero (divisor.isZero_iff.mpr zero)
    have inverse : ∀ limits, w.inv.Ensures limits fun n => y ≠ 0 ∧ n.Denotes ⊤ y⁻¹ :=
      fun _ => Numeral.ensures_inv divisor.denotes
    have value : J.divide x y = x * y⁻¹ := by rw [divide, if_neg nonzero, div_eq_mul_inv]
    rw [value]
    refine numeralValue?_bind_means left (fun v _ dividend => ?_) fun _ => ?_
    · have divided : ∀ limits, (v.div w).Ensures limits fun n => n.Denotes ⊤ (x * y⁻¹) := by
        intro limits
        refine Algebraic.Compute.ensures_bind (inverse limits) fun i known => ?_
        exact Numeral.ensures_mul dividend.denotes known.2 le_top
      refine evaluate?_bind_means divided (fun q known => ?_) answers_failed
      refine ensures_bind (mkNumber_means ⟨known.represents, dividend.writes.mul divisor.writes.inv⟩)
        fun _ _ _ built => answers_with rfl built
    · refine evaluate?_bind_means inverse (fun r known => ?_) answers_failed
      refine ensures_bind (mkNumber_means ⟨known.2.represents, divisor.writes.inv⟩)
        fun c middle grown literal => ?_
      exact answers_build (fun _ => rfl) ((mkMul_pair_means literal (left.mono grown)).imp
        fun _ _ _ built => built.congr (mul_comm _ _))
  · exact divideProducts_means left right quotient

/-- Euclidean division keeps its value. -/
theorem reduceIntDiv_means (left : (J.semantics L).Number s true a m)
    (right : (J.semantics L).Number s true b n) :
    (reduceIntDiv a b).Ensures config s fun o after =>
      (J.semantics L).Answers after o .int (.number (J.divideInt m n)) := by
  unfold reduceIntDiv
  refine ensures_peek_bind ?_
  split
  · exact answers_failed
  next k found =>
  obtain rfl := eq_of_intValue?_integer right found
  refine ensures_peek_bind ?_
  split
  · next q divided =>
    obtain ⟨i, literal, quotient⟩ := Option.bind_eq_some_iff.mp divided
    obtain rfl := eq_of_intValue?_integer left literal
    unfold Integer.div? at quotient
    split at quotient
    · cases quotient
    next nonzero =>
    obtain rfl := Option.some.inj quotient
    rw [divideInt, if_neg nonzero]
    exact answers_build (fun _ => rfl) (mkInt_means _)
  · split
    · next one =>
      subst one
      refine answers_with rfl (left.congr ?_)
      simp [divideInt]
    · exact answers_failed

/-- A remainder by a number other than zero. -/
theorem modulo_of_ne_zero (nonzero : k ≠ 0) : J.modulo m k = m % k := if_neg nonzero

/-- The integers that arguments of a sum or product under a remainder become. -/
theorem reduceModArg_means (nonzero : k ≠ 0) (divisor : (J.semantics L).Number s true b k)
    (known : (J.semantics L).Number s true t m) :
    (reduceModArg t b k).Ensures config s fun u after =>
      ∃ n : ℤ, (J.semantics L).Number after true u n ∧ n ≡ m [ZMOD k] := by
  have reduced (n : ℤ) : (Integer.mod? n k).getD n = n % k := by
    rw [Integer.mod?, if_neg nonzero, Option.getD_some]
  have unchanged : ∃ n : ℤ, (J.semantics L).Number s true t n ∧ n ≡ m [ZMOD k] := ⟨m, known, rfl⟩
  unfold reduceModArg
  refine ensures_peek_bind ?_
  split
  · next n found =>
    obtain rfl := eq_of_intValue?_integer known found
    rw [reduced]
    exact ensures_lift ((mkInt_means (M := J.semantics L) _).imp fun _ _ _ built =>
      ⟨m % k, built, Int.mod_modEq m k⟩)
  refine ensures_peek_bind ?_
  split
  · next u d view =>
    refine ensures_pure ?_
    split
    · next same =>
      subst same
      obtain ⟨admits, _, sensible, value⟩ := evaluate_of_view known view
      obtain ⟨_, first, second⟩ := admits.sorts
      have inner : (J.semantics L).Number s true u _ := .self (sensible u (by simp)) first
      obtain ⟨i, same⟩ := inner.integral
      rw [same] at inner
      refine ⟨i, inner, ?_⟩
      have value : (m : ℝ) = (i % k : ℤ) := by
        have first : s.meaning J u = .number i := inner.value_eq
        have second : s.meaning J d = .number k := divisor.value_eq
        simpa [Op.evaluate, first, second, modulo_of_ne_zero nonzero] using Value.number.inj value
      obtain rfl : m = i % k := by exact_mod_cast value
      exact (Int.mod_modEq i k).symm
    · exact unchanged
  · next lead rest view =>
    obtain ⟨⟨sorted, sort⟩, others⟩ := List.forall_mem_cons.mp
      (numbers_of_view known view (.inr rfl))
    obtain ⟨head, arguments⟩ := Store.view_eq_iff.mp view
    refine ensures_peek_bind ?_
    split
    · exact ensures_pure unchanged
    next c found =>
    have literal := eq_of_intValue? (Number.self sorted sort) found
    rw [reduced]
    dsimp only
    split
    · exact ensures_pure unchanged
    refine ensures_bind (ensures_lift (mkInt_means (M := J.semantics L) (c % k)))
      fun i middle grown built => ?_
    have all := List.Forall₂.cons built (Number.mono_all (Numbers.forall₂ others) grown)
    refine ensures_lift ((mkMul_means (by simp) all).imp fun u after _ product => ?_)
    obtain ⟨p, integer⟩ : ∃ p : ℤ, (rest.map ((J.semantics L).num s)).prod = p := by
      have each : ∀ z ∈ rest.map ((J.semantics L).num s), z ∈ Value.integers := by
        intro z member
        obtain ⟨f, inside, rfl⟩ := List.mem_map.mp member
        obtain ⟨i, same⟩ := (Number.self (others f inside).1 (others f inside).2).integral
        exact ⟨i, same.symm⟩
      obtain ⟨p, same⟩ := list_prod_mem each
      exact ⟨p, same.symm⟩
    have value : (m : ℝ) = (c * p : ℤ) := by
      rw [← known.num_eq, num_of_mul known.sorted head, arguments, List.map_cons, List.prod_cons,
        literal, integer]
      push_cast
      rfl
    obtain rfl : m = c * p := by exact_mod_cast value
    refine ⟨c % k * p, product.congr ?_, (Int.mod_modEq c k).mul_right p⟩
    rw [List.prod_cons, integer]
    push_cast
    rfl
  · exact ensures_pure unchanged

/-- The arguments of a sum or product under a remainder by a literal may be reduced. -/
theorem pushMod_means (nonzero : k ≠ 0) (known : (J.semantics L).Number s true a m)
    (divisor : (J.semantics L).Number s true b k) :
    (pushMod a b k).Ensures config s fun o after =>
      (J.semantics L).Answers after o .int (.number (J.modulo m k)) := by
  unfold pushMod
  refine ensures_peek_bind ?_
  change (if s.op a = .add ∨ s.op a = .mul then _ else _ : Rule Outcome).Ensures config s _
  split
  case isFalse => exact answers_failed
  next either =>
  have numbers : (J.semantics L).Numbers s true (s.args a) := numbers_of_view known rfl either
  let integer (u : TermId) : ℤ := ⌊(J.semantics L).num s u⌋
  have integral : ∀ u ∈ s.args a, (J.semantics L).Number s true u (integer u) := by
    intro u member
    have number := Number.self (numbers u member).1 (numbers u member).2
    obtain ⟨i, same⟩ := number.integral
    exact number.congr (by simp [integer, same])
  have each : ∀ u ∈ s.args a, ∀ now, s.Extends now →
      (reduceModArg u b k).Ensures config now fun w after =>
        ∃ n : ℤ, (J.semantics L).Number after true w n ∧ n ≡ integer u [ZMOD k] :=
    fun u member now grown =>
      reduceModArg_means nonzero (divisor.mono grown) ((integral u member).mono grown)
  refine ensures_bind (ensures_mapM (fun u w before after more known => ?_) _ each)
    fun reduced middle grown congruent => ?_
  · obtain ⟨n, number, same⟩ := known
    exact ⟨n, number.mono more, same⟩
  obtain ⟨ns, built, same⟩ : ∃ ns : List ℤ,
      List.Forall₂ ((J.semantics L).Number middle true) reduced (ns.map Int.cast) ∧
        List.Forall₂ (Int.ModEq k) ns ((s.args a).map integer) := by
    change List.Forall₂ _ (s.args a) reduced at congruent
    clear each integral numbers
    generalize s.args a = terms at congruent
    induction congruent with
    | nil => exact ⟨[], .nil, .nil⟩
    | cons first _ rest =>
      obtain ⟨n, number, same⟩ := first
      obtain ⟨ns, built, others⟩ := rest
      exact ⟨n :: ns, .cons number built, .cons same others⟩
  have whole : (s.args a).map ((J.semantics L).num s) =
      ((s.args a).map integer).map Int.cast := by
    rw [List.map_map]
    exact List.map_congr_left fun u member => (integral u member).num_eq
  have some : reduced ≠ [] := by
    rintro rfl
    exact args_ne_nil known.sorted either (List.forall₂_nil_right_iff.mp congruent)
  split
  · exact answers_failed
  -- What is built under the remainder is congruent to the sum or product.
  have inner : (if s.op a = .add then liftM (mkAdd reduced) else liftM (mkMul reduced) :
      Rule TermId).Ensures config middle fun u after =>
        ∃ n : ℤ, (J.semantics L).Number after true u n ∧ n ≡ m [ZMOD k] := by
    obtain ⟨sums, products⟩ := modEq_of_forall₂ same
    split
    · next sum =>
      refine ensures_lift ((mkAdd_means some built).imp fun u after _ total =>
        ⟨ns.sum, total.congr (Int.cast_list_sum ns).symm, sums.trans ?_⟩)
      have value : (m : ℝ) = (((s.args a).map integer).sum : ℤ) := by
        rw [← known.num_eq, num_of_add known.sorted sum, whole, Int.cast_list_sum]
      exact congrArg (· % k) (by exact_mod_cast value.symm)
    · next other =>
      refine ensures_lift ((mkMul_means some built).imp fun u after _ total =>
        ⟨ns.prod, total.congr (Int.cast_list_prod ns).symm, products.trans ?_⟩)
      have value : (m : ℝ) = (((s.args a).map integer).prod : ℤ) := by
        rw [← known.num_eq, num_of_mul known.sorted (either.resolve_left other), whole,
          Int.cast_list_prod]
      exact congrArg (· % k) (by exact_mod_cast value.symm)
  refine ensures_ite_bind inner ?_
  rintro u after more ⟨n, number, congruent⟩
  refine answers_build (fun _ => rfl) ((mkMod_means number
    (divisor.mono (grown.trans more))).imp fun _ _ _ built => built.congr ?_)
  rw [modulo_of_ne_zero nonzero, modulo_of_ne_zero nonzero, congruent.eq]

/-- Euclidean remainder keeps its value. -/
theorem reduceMod_means (left : (J.semantics L).Number s true a m)
    (right : (J.semantics L).Number s true b n) :
    (reduceMod a b).Ensures config s fun o after =>
      (J.semantics L).Answers after o .int (.number (J.modulo m n)) := by
  unfold reduceMod
  refine ensures_peek_bind ?_
  split
  · exact answers_failed
  next k found =>
  obtain rfl := eq_of_intValue?_integer right found
  split
  · exact answers_failed
  next nonzero =>
  refine ensures_peek_bind ?_
  split
  · next r divided =>
    obtain ⟨i, literal, remainder⟩ := Option.bind_eq_some_iff.mp divided
    obtain rfl := eq_of_intValue?_integer left literal
    rw [Integer.mod?, if_neg nonzero] at remainder
    obtain rfl := Option.some.inj remainder
    rw [modulo_of_ne_zero nonzero]
    exact answers_build (fun _ => rfl) (mkInt_means _)
  split
  · next unit =>
    rw [modulo_of_ne_zero nonzero, Int.emod_eq_zero_of_dvd (Int.natAbs_dvd_natAbs.mp
      (by rw [unit]; exact one_dvd _))]
    exact answers_build (fun _ => rfl) (mkInt_means _)
  refine ensures_peek_bind ?_
  split
  · next u d view =>
    split
    · next same =>
      subst same
      refine answers_with rfl (left.congr ?_)
      obtain ⟨admits, _, sensible, value⟩ := evaluate_of_view left view
      have divisor : s.meaning J d = .number n := right.value_eq
      have value : (m : ℝ) = (⌊(s.meaning J u).num⌋ % n : ℤ) := by
        simpa [Op.evaluate, divisor, modulo_of_ne_zero nonzero] using Value.number.inj value
      obtain rfl : m = ⌊(s.meaning J u).num⌋ % n := by exact_mod_cast value
      rw [modulo_of_ne_zero nonzero, Int.emod_emod]
    · exact answers_failed
  · split
    · exact pushMod_means nonzero left right
    · exact answers_failed

/-- The remainder with the sign of the divisor keeps its value. -/
theorem reduceRem_means (left : (J.semantics L).Number s true a m)
    (right : (J.semantics L).Number s true b n) :
    (reduceRem a b).Ensures config s fun o after =>
      (J.semantics L).Answers after o .int (.number (J.signedRemainder m n)) := by
  unfold reduceRem
  refine ensures_peek_bind ?_
  split
  · next k found =>
    obtain rfl := eq_of_intValue?_integer right found
    split
    · exact answers_failed
    next nonzero =>
    refine ensures_peek_bind ?_
    split
    · next r divided =>
      obtain ⟨i, literal, remainder⟩ := Option.bind_eq_some_iff.mp divided
      obtain rfl := eq_of_intValue?_integer left literal
      rw [Integer.rem?, Integer.mod?, if_neg nonzero] at remainder
      obtain rfl := Option.some.inj remainder
      refine answers_build (fun _ => rfl) ((mkInt_means _).imp fun _ _ _ built => built.congr ?_)
      rw [signedRemainder, modulo_of_ne_zero nonzero]
      dsimp only
      by_cases negative : n < 0
      · rw [if_pos negative, if_neg (not_le.mpr negative)]
      · rw [if_neg negative, if_pos (not_lt.mp negative)]
    split
    · next unit =>
      have zero : J.modulo m n = 0 := by
        rw [modulo_of_ne_zero nonzero]
        exact Int.emod_eq_zero_of_dvd (Int.natAbs_dvd_natAbs.mp (by rw [unit]; exact one_dvd _))
      rw [signedRemainder, zero, neg_zero, ite_self]
      exact answers_build (fun _ => rfl) (mkInt_means _)
    refine ensures_bind (ensures_lift (mkMod_means left right)) fun r middle grown remainder => ?_
    split
    · next negative =>
      rw [signedRemainder, if_neg (not_le.mpr negative)]
      refine ensures_bind (ensures_lift (mkInt_means (M := J.semantics L) (-1)))
        fun c after more minus => ?_
      exact answers_build (fun _ => rfl) ((mkMul_pair_means minus (remainder.mono more)).imp
        fun _ _ _ built => built.congr (by simp))
    · next positive =>
      rw [signedRemainder, if_pos (not_lt.mp positive)]
      exact answers_with rfl remainder
  · refine ensures_read_bind ?_
    split
    case isFalse => exact answers_failed
    refine ensures_bind (ensures_lift (mkInt_means (M := J.semantics L) 0))
      fun nought first grown literal => ?_
    refine ensures_bind (ensures_lift (mkGe_means (right.mono grown) literal))
      fun c second more condition => ?_
    have all := grown.trans more
    refine ensures_bind (ensures_lift (mkMod_means (left.mono all) (right.mono all)))
      fun r third most remainder => ?_
    refine ensures_bind (ensures_lift (mkNeg_means remainder)) fun w last again negated => ?_
    refine answers_build (fun _ => rfl) ((mkIte_means (condition.mono (most.trans again))
      (remainder.mono again) negated).imp fun _ _ _ built => ?_)
    have value : (if (n : ℝ) ≥ ((0 : ℤ) : ℝ) then Value.number (J.modulo m n) else
        .number (-(J.modulo m n : ℝ))) = .number (J.signedRemainder m n) := by
      rw [signedRemainder]
      by_cases nonneg : 0 ≤ n
      · rw [if_pos nonneg, if_pos (by exact_mod_cast nonneg)]
      · rw [if_neg nonneg, if_neg (by exact_mod_cast nonneg), Int.cast_neg]
    exact value ▸ built

/-- The integral part keeps its value. -/
theorem reduceToInt_means (known : (J.semantics L).Number s false a x) :
    (reduceToInt a).Ensures config s fun o after =>
      (J.semantics L).Answers after o .int (.number ⌊x⌋) := by
  unfold reduceToInt
  refine numeralValue?_bind_means known (fun n _ literal => ?_) fun _ => ?_
  · refine evaluate?_bind_means (fun _ => Numeral.ensures_floor literal.wellFormed)
      (fun i same => ?_) answers_failed
    rw [same, literal.value_eq]
    exact answers_build (fun _ => rfl) (mkInt_means _)
  refine ensures_peek_bind ?_
  split
  · next u view =>
    obtain ⟨head, arguments⟩ := Store.view_eq_iff.mp view
    obtain ⟨u', n, same, inner, value⟩ := integral_of_toReal id known.sorted head
    obtain ⟨rfl, _⟩ := List.cons_eq_cons.mp (same.symm.trans arguments)
    rw [← known.num_eq, value, Int.floor_intCast]
    exact answers_with rfl inner
  · exact answers_failed

/-- The test for integers keeps its truth value. -/
theorem reduceIsInt_means (allowed : L.equations) (known : (J.semantics L).Number s false a x) :
    (reduceIsInt a).Ensures config s fun o after =>
      (J.semantics L).Answers after o .bool (.truth (∃ n : ℤ, x = n)) := by
  unfold reduceIsInt
  refine numeralValue?_bind_means known (fun n _ literal => ?_) fun _ => ?_
  · refine answers_with rfl ((ofBool_means s _).congr ?_)
    exact literal.represents.isIntegral_iff
  refine ensures_peek_bind ?_
  rw [known.isInt_eq, Bool.false_or]
  split
  · next cast =>
    have head : s.op a = .toReal := eq_of_beq cast
    refine answers_with rfl ((trueId_means s).congr (iff_of_true trivial ?_))
    obtain ⟨_, n, _, _, value⟩ := integral_of_toReal id known.sorted head
    exact ⟨n, known.num_eq.symm.trans value⟩
  · refine ensures_bind (ensures_lift (mkToInt_means known)) fun i first grown part => ?_
    refine ensures_bind (ensures_lift (mkToReal_means part)) fun c second more cast => ?_
    refine answers_build (fun _ => rfl) ((mkEq_means allowed cast
      (known.mono (grown.trans more))).imp fun _ _ _ built => built.congr ?_)
    rw [Value.number.injEq]
    exact ⟨fun same => ⟨⌊x⌋, same.symm⟩, by rintro ⟨i, rfl⟩; rw [Int.floor_intCast]⟩

end Valuation
end Stratagem
