import Stratagem.Proofs.Rewriting.Sum
import Stratagem.Rewriting.Division
import Stratagem.Rewriting.Power

/-!
# Powers and casts keep the value of terms

Powers with a positive integer literal as exponent are computed, merged with inner powers or
written as products, and casts of integers are moved into sums and products; the value stays.
-/
namespace Stratagem

namespace Semantics

open Arithmetic Terms Rule

variable {M : Semantics} {s : Store} {config : SimplifierConfig} {isInt : Bool} {a : TermId}
  {x : ℝ}

/-- Cast of an integer keeps its value, and so does a cast of a real. -/
theorem reduceToReal_means (known : M.Number s isInt a x) :
    (reduceToReal a).Ensures config s fun o after => M.Answers after o .real (.number x) := by
  unfold reduceToReal
  refine ensures_peek_bind ?_
  split
  · next r literal =>
    obtain ⟨rfl, _⟩ := known.of_numeral? literal
    exact answers_build (fun _ => rfl) (mkReal_means r)
  refine ensures_peek_bind ?_
  rw [known.isInt_eq]
  cases isInt with
  | false => exact answers_with rfl known
  | true =>
    refine ensures_peek_bind (ensures_read_bind ?_)
    split
    · next pushed =>
      have either : s.op a = .add ∨ s.op a = .mul := by
        simpa [Store.op] using (Bool.and_eq_true_iff.mp pushed).2
      have numbers : M.Numbers s true (s.args a) := numbers_of_view known rfl either
      have cast : ∀ u ∈ s.args a, ∀ now, s.Extends now →
          (liftM (mkApp .toReal [u]) : Rule TermId).Ensures config now fun r after =>
            M.Number after false r (M.num s u) := by
        intro u member now grown
        have number := Number.self (numbers u member).1 (numbers u member).2
        exact ensures_lift (mkToReal_means (number.mono grown))
      refine ensures_bind (mapM_means cast) fun terms middle _ built => ?_
      have some : terms ≠ [] := by
        rintro rfl
        exact args_ne_nil known.sorted either
          (List.map_eq_nil_iff.mp (List.forall₂_nil_left_iff.mp built))
      split
      · next sum =>
        refine answers_build (fun _ => rfl) ((mkAdd_means some built).imp fun _ _ _ final =>
          final.congr ?_)
        exact (num_of_add known.sorted sum).symm.trans known.num_eq
      · next other =>
        have product := either.resolve_left other
        refine answers_build (fun _ => rfl) ((mkMul_means some built).imp fun _ _ _ final =>
          final.congr ?_)
        exact (num_of_mul known.sorted product).symm.trans known.num_eq
    · exact answers_failed

end Semantics

namespace Arithmetic

open Terms Rule

variable {s : Store} {Γ : Signature} {I : Assignment} {config : SimplifierConfig} {isInt : Bool}
  {t base e a : TermId} {x y : ℝ}

/-- Base and exponent of a well-sorted power. -/
theorem of_power (known : s.Number Γ I isInt t x) (view : s.view t = (.power, [base, e])) :
    ∃ k : ℕ, 0 < k ∧ s.numeral? e = some (k : ℚ) ∧ s.Number Γ I isInt base (s.num I base) ∧
      x = s.num I base ^ k := by
  obtain ⟨⟨_, same, k, positive, literal⟩, sorted, value⟩ := known.of_view view
  have exponent : s.numeral? e = some (k : ℚ) := by
    rw [Store.numeral?, literal]
    simp [Rational.ofInt]
  refine ⟨k, positive, exponent, .self (sorted base (by simp)) same I, ?_⟩
  have floor : (s.value I e).num = k := by
    have := Store.num_of_numeral? (I := I) exponent
    exact_mod_cast this
  simpa [Op.denote, Op.interpret, Store.num, floor] using value

/-- A power of a rational with a natural exponent within a word is computed. -/
theorem rationalPower?_eq {r : ℚ} {k : ℕ} (small : k < 4294967296) :
    rationalPower? r k 1 = some (r ^ k) := by
  have nonneg : ¬(k : ℤ) < 0 := by omega
  unfold rationalPower? Rational.power?
  simp [small, nonneg]

/-- The power of a rational literal keeps its value. -/
theorem foldPower_denotes {r : ℚ} {k : ℕ} (whole : isInt → Rational.isIntegral r) :
    (foldPower (.rational r) k isInt).Ensures config s fun o after =>
      o.Denotes after Γ I (.number isInt) (.number ((r : ℝ) ^ k)) := by
  unfold foldPower
  refine ensures_read_bind ?_
  have numerator : ((k : ℚ)).num = k := Rat.num_natCast k
  have denominator : ((k : ℚ)).den = 1 := Rat.den_natCast k
  simp only [numerator, denominator]
  split
  · exact ensures_failed
  · next within =>
    split
    · exact ensures_failed
    split
    · exact ensures_failed
    -- The exponent is at most the largest degree, which is a word.
    have small : k < 4294967296 := by
      have limit := config.maxDegree.toNat_lt
      simp only [isWithin, leastWord, Bool.or_eq_true, Bool.not_eq_true', not_or] at within
      simp at within
      omega
    have computed : (Numeral.rational r).asRational?.bind (rationalPower? · k 1) =
        some (r ^ k) := rationalPower?_eq small
    rw [computed]
    exact ensures_build (fun _ => rfl) ((mkNumeral_number fun int =>
      Rational.isIntegral_pow (whole int) k).imp fun _ _ _ built =>
        built.congr (by push_cast; rfl))

/-- Repeated factors have repeated values. -/
theorem forall₂_replicate (known : s.Number Γ I isInt base x) (k : ℕ) :
    List.Forall₂ (s.Number Γ I isInt) (List.replicate k base) (List.replicate k x) := by
  induction k with
  | zero => exact .nil
  | succ k tail => exact .cons known tail

/-- An integer power of a term keeps its value. -/
theorem reduceIntPower_denotes {k : ℕ} (positive : 0 < k) (known : s.Number Γ I isInt base x) :
    (reduceIntPower t base k).Ensures config s fun o after =>
      o.Denotes after Γ I (.number isInt) (.number (x ^ k)) := by
  unfold reduceIntPower
  refine ensures_peek_bind ?_
  split
  · next b j inner =>
    obtain ⟨e, view, exponent⟩ : ∃ e, s.view base = (.power, [b, e]) ∧
        reduceIntPower.intPower? s e = some j := by
      split at inner
      · next b' e view =>
        obtain ⟨j', found, same⟩ := Option.map_eq_some_iff.mp inner
        obtain ⟨rfl, rfl⟩ := Prod.mk.inj same
        exact ⟨e, view, found⟩
      · cases inner
    obtain ⟨i, some, literal, number, rfl⟩ := of_power known view
    obtain rfl : (i : ℤ) = j := by
      simpa [reduceIntPower.intPower?, literal, Rational.isIntegral] using exponent
    have product : (i : ℤ) * k = ((i * k : ℕ) : ℤ) := by push_cast; rfl
    rw [product]
    refine ensures_bind (ensures_lift (mkInt_literal (Γ := Γ) ((i * k : ℕ) : ℤ)))
      fun n middle grown literal => ?_
    refine ensures_build (fun _ => rfl) ((mkPower_number (number.mono grown)
      (Nat.mul_pos some positive) literal.1 literal.2).imp fun _ _ _ built => built.congr ?_)
    exact pow_mul ..
  · have nonneg : ¬(k : ℤ) < 0 := by omega
    rw [if_neg nonneg]
    refine ensures_read_bind (ensures_peek_bind ?_)
    split
    · refine ensures_build (fun _ => rfl) ((mkMul_number (by simp; omega)
        (forall₂_replicate known k)).imp fun _ _ _ built => built.congr ?_)
      exact List.prod_replicate ..
    · exact ensures_failed

/-- Power keeps its value. -/
theorem reducePower_denotes (known : s.Number Γ I isInt t x)
    (view : s.view t = (.power, [base, e])) :
    (reducePower t base e).Ensures config s fun o after =>
      o.Denotes after Γ I (.number isInt) (.number x) := by
  obtain ⟨k, positive, exponent, number, rfl⟩ := of_power known view
  unfold reducePower
  refine ensures_peek_bind (ensures_peek_bind ?_)
  rw [known.isInt_eq]
  split
  · next one =>
    have one : s.num I base = (1 : ℚ) :=
      Store.num_of_numeral? (by simpa [Store.isOne] using one)
    refine ensures_build (fun _ => rfl) ((mkNumeral_number fun _ =>
      Rational.isIntegral_one).imp fun _ _ _ built => built.congr ?_)
    simp [one]
  refine ensures_peek_bind ?_
  rw [exponent]
  refine ensures_peek_bind ?_
  split
  · next one =>
    have one : k = 1 := by exact_mod_cast one
    exact ensures_answer rfl (number.congr (by simp [one]))
  rw [if_neg (by exact_mod_cast positive.ne')]
  split
  · next zero =>
    have zero : s.num I base = (0 : ℚ) :=
      Store.num_of_numeral? (by simpa [Store.isZero] using (Bool.and_eq_true_iff.mp zero).1)
    refine ensures_build (fun _ => rfl) ((mkNumeral_number fun _ =>
      Rational.isIntegral_zero).imp fun _ _ _ built => built.congr ?_)
    simp [zero, positive.ne']
  refine ensures_numeralValue?_bind number.sorted ?_
  cases literal : s.numeral? base with
  | some r =>
    obtain ⟨value, whole⟩ := number.of_numeral? literal
    rw [value]
    exact foldPower_denotes whole
  | none =>
    have integral : Rational.isIntegral (k : ℚ) := Rational.isIntegral_intCast k
    have numerator : ((k : ℚ)).num = k := Rat.num_natCast k
    dsimp only [Option.map_none]
    rw [if_pos integral, numerator]
    exact reduceIntPower_denotes positive number

/-- Cast of an integer keeps its value, and so does a cast of a real. -/
theorem reduceToReal_denotes (known : s.Number Γ I isInt a x) :
    (reduceToReal a).Ensures config s fun o after => o.Denotes after Γ I .real (.number x) :=
  ensures_denotes (Semantics.reduceToReal_means (Assignment.denotes_iff.mpr known))

end Arithmetic

end Stratagem
