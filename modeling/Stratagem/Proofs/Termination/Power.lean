import Stratagem.Proofs.Rewriting.Power
import Stratagem.Proofs.Termination.Sum

/-!
# Rules for powers make numbers lighter

A power is heavier than its base, than the product it is written as if powers are not collected,
and than the power whose exponent is the product of its own and that of its base. A cast that is
moved into a sum or a product stands before each summand or factor afterwards.
-/
namespace Stratagem

open Store (Extends)

variable {s : Store} {config : SimplifierConfig} {Γ : Signature} {I : Assignment} {x : ℝ}
  {t a base e : TermId} {isInt : Bool} {δ n j k : ℕ}

section Weights

/-- A base is lighter than its powers. -/
theorem lt_powerWeight (config : SimplifierConfig) (n : ℕ) (positive : 0 < k) :
    n < config.powerWeight n k := by
  unfold SimplifierConfig.powerWeight
  split
  · have several : 1 < max n 2 := lt_max_of_lt_right Nat.one_lt_two
    have log : 0 < Nat.clog 2 (max k 2) :=
      Nat.clog_pos Nat.one_lt_two (lt_max_of_lt_right Nat.one_lt_two)
    calc n ≤ max n 2 := le_max_left ..
      _ = max n 2 ^ 1 := (pow_one _).symm
      _ < max n 2 ^ (1 + Nat.clog 2 (max k 2)) := Nat.pow_lt_pow_right several (by omega)
  · calc n < 2 * (n + 1) := by omega
      _ ≤ 2 * (n + 1) ^ k := Nat.mul_le_mul_left 2 (Nat.le_self_pow positive.ne' _)

/-- Unless powers are collected, a product of equal factors is lighter than their power. -/
theorem prod_lt_powerWeight (expanded : config.mulToPower = false) (n : ℕ) (positive : 0 < k) :
    2 * n ^ k < config.powerWeight n k := by
  unfold SimplifierConfig.powerWeight
  rw [if_neg (by simp [expanded])]
  exact Nat.mul_lt_mul_of_pos_left (Nat.pow_lt_pow_left (Nat.lt_succ_self n) positive.ne')
    Nat.two_pos

/-- The power of a power is heavier than the power with the product of the exponents. -/
theorem powerWeight_mul_lt (config : SimplifierConfig) (n j : ℕ) (positive : 0 < k) :
    config.powerWeight n (j * k) < config.powerWeight (config.powerWeight n j) k := by
  have inner := two_le_powerWeight config n j
  unfold SimplifierConfig.powerWeight at inner ⊢
  split
  · next collected =>
    rw [if_pos collected] at inner
    have several : 1 < max n 2 := lt_max_of_lt_right Nat.one_lt_two
    rw [max_eq_left inner, ← pow_mul]
    refine Nat.pow_lt_pow_right several ?_
    have first : 0 < Nat.clog 2 (max j 2) :=
      Nat.clog_pos Nat.one_lt_two (lt_max_of_lt_right Nat.one_lt_two)
    have second : 0 < Nat.clog 2 (max k 2) :=
      Nat.clog_pos Nat.one_lt_two (lt_max_of_lt_right Nat.one_lt_two)
    have product : Nat.clog 2 (max (j * k) 2) ≤ Nat.clog 2 (max j 2) + Nat.clog 2 (max k 2) := by
      refine Nat.clog_le_of_le_pow ?_
      rw [pow_add]
      have left := Nat.le_pow_clog Nat.one_lt_two (max j 2)
      have right := Nat.le_pow_clog Nat.one_lt_two (max k 2)
      refine max_le (Nat.mul_le_mul ((le_max_left ..).trans left) ((le_max_left ..).trans right)) ?_
      calc 2 ≤ 2 * 2 := by decide
        _ ≤ _ := Nat.mul_le_mul ((le_max_right ..).trans left) ((le_max_right ..).trans right)
    calc 1 + Nat.clog 2 (max (j * k) 2) ≤ 1 + (Nat.clog 2 (max j 2) + Nat.clog 2 (max k 2)) := by
          omega
      _ < 1 + (Nat.clog 2 (max j 2) + Nat.clog 2 (max k 2)) +
            Nat.clog 2 (max j 2) * Nat.clog 2 (max k 2) :=
          Nat.lt_add_of_pos_right (Nat.mul_pos first second)
      _ = (1 + Nat.clog 2 (max j 2)) * (1 + Nat.clog 2 (max k 2)) := by ring
  · rw [pow_mul]
    refine Nat.mul_lt_mul_of_pos_left (Nat.pow_lt_pow_left ?_ positive.ne') Nat.two_pos
    omega

/-- A square is lighter than the powers from the fourth on. -/
theorem powerWeight_two_lt (config : SimplifierConfig) (some : 1 ≤ n) (big : 4 ≤ k) :
    config.powerWeight n 2 < config.powerWeight n k := by
  unfold SimplifierConfig.powerWeight
  split
  · have several : 1 < max n 2 := lt_max_of_lt_right Nat.one_lt_two
    refine Nat.pow_lt_pow_right several (Nat.add_lt_add_left ?_ 1)
    calc Nat.clog 2 (max 2 2) < Nat.clog 2 4 := by decide
      _ ≤ Nat.clog 2 (max k 2) := Nat.clog_mono_right 2 (le_max_of_le_left big)
  · have several : 1 < n + 1 := Nat.lt_succ_of_le some
    exact Nat.mul_lt_mul_of_pos_left (Nat.pow_lt_pow_right several (by omega)) Nat.two_pos

end Weights

namespace Arithmetic

open Terms Rule

/-- The power of a rational literal is one again, if any. -/
theorem foldPower_falls {r : ℚ} {k : ℕ} :
    (foldPower (.rational r) k isInt).Ensures config s fun o after => o.Falls after config δ 1 := by
  unfold foldPower
  refine ensures_read_bind ?_
  have numerator : ((k : ℚ)).num = k := Rat.num_natCast k
  have denominator : ((k : ℚ)).den = 1 := Rat.den_natCast k
  simp only [numerator, denominator]
  split
  · exact ensures_pure trivial
  · next within =>
    split
    · exact ensures_pure trivial
    split
    · exact ensures_pure trivial
    have small : k < 4294967296 := by
      have limit := config.maxDegree.toNat_lt
      simp only [isWithin, leastWord, Bool.or_eq_true, Bool.not_eq_true', not_or] at within
      simp at within
      omega
    have computed : (Numeral.rational r).asRational?.bind (rationalPower? · k 1) =
        some (r ^ k) := rationalPower?_eq small
    rw [computed]
    exact ensures_done (mkNumeral_bounded config δ _ isInt)

/-- A power of a term that is not a literal. -/
theorem reduceIntPower_falls (positive : 0 < k) (number : s.Number Γ I isInt base x)
    (known : s.Bounded config δ base (s.weight config base)) :
    (reduceIntPower t base k).Ensures config s fun o after =>
      o.Falls after config δ (config.powerWeight (s.weight config base) k) := by
  unfold reduceIntPower
  refine ensures_peek_bind ?_
  split
  · next b j inner =>
    obtain ⟨e, view, exponent⟩ : ∃ e, s.view base = (.power, [b, e]) ∧
        reduceIntPower.intPower? s e = some j := by
      split at inner
      · next b' e view =>
        obtain ⟨j', found, same⟩ := Option.map_eq_some_iff.mp inner
        obtain ⟨rfl, rfl⟩ := Prod.mk.inj same
        exact ⟨e, view, found⟩
      · cases inner
    obtain ⟨i, _, literal, _, _⟩ := of_power number view
    obtain rfl : (i : ℤ) = j := by
      simpa [reduceIntPower.intPower?, literal, Rational.isIntegral] using exponent
    have below : s.Bounded config δ b (s.weight config b) :=
      known.of_mem_args (by rw [(Store.view_eq_iff.mp view).2]; simp)
    have weight : s.weight config base = config.powerWeight (s.weight config b) i := by
      rw [Store.weight_of_view config view]
      simp [Op.weigh, Store.gauge, literal]
    refine ensures_bind (ensures_lift (mkInt_bounded config δ (i * k)))
      fun n middle grown literal => ?_
    refine ensures_revisit (mkPower_bounded (below.mono grown) literal) ?_
    rw [weight]
    exact powerWeight_mul_lt config _ i positive
  · have nonneg : ¬(k : ℤ) < 0 := by omega
    rw [if_neg nonneg]
    refine ensures_read_bind (ensures_peek_bind ?_)
    split
    · next expanded =>
      have expanded : config.mulToPower = false := by
        simp only [Bool.and_eq_true, Bool.not_eq_true'] at expanded
        exact expanded.1.2
      have copies : ∀ k : ℕ, List.Forall₂ (s.Bounded config δ) (List.replicate k base)
          (List.replicate k (s.weight config base)) := by
        intro k
        induction k with
        | zero => exact .nil
        | succ k tail => exact .cons known tail
      refine ensures_revisit (mkMul_bounded (copies k)) ?_
      rw [List.prod_replicate]
      exact prod_lt_powerWeight expanded _ positive
    · exact ensures_pure trivial

/-- Power. -/
theorem reducePower_falls (known : s.Number Γ I isInt t x) (rank : s.rank t ≤ δ)
    (view : s.view t = (.power, [base, e])) :
    (reducePower t base e).Ensures config s fun o after =>
      o.Falls after config δ (s.weight config t) := by
  obtain ⟨k, positive, exponent, number, _⟩ := of_power known view
  have weight : s.weight config t = config.powerWeight (s.weight config base) k := by
    rw [Store.weight_of_view config view]
    simp [Op.weigh, Store.gauge, exponent]
  have below : s.Bounded config δ base (s.weight config base) :=
    (Store.Bounded.self known.inside rank).of_mem_args (by rw [(Store.view_eq_iff.mp view).2]; simp)
  have some : 1 ≤ s.weight config t := s.one_le_weight config t
  have literal (r : ℚ) : (liftM (mkNumeral r (s.isInt t)) >>= fun r => pure (.done r) :
      Rule Outcome).Ensures config s fun o after => o.Falls after config δ (s.weight config t) :=
    ensures_done ((mkNumeral_bounded config δ r _).imp fun _ _ _ built => built.le some)
  unfold reducePower
  refine ensures_peek_bind (ensures_peek_bind ?_)
  split
  · exact literal 1
  refine ensures_peek_bind ?_
  rw [exponent]
  refine ensures_peek_bind ?_
  split
  · exact ensures_pure (below.le (weight ▸ (lt_powerWeight config _ positive).le))
  rw [if_neg (by exact_mod_cast positive.ne')]
  split
  · exact literal 0
  refine ensures_numeralValue?_bind number.sorted ?_
  cases s.numeral? base with
  | some r => exact foldPower_falls.imp fun _ _ _ falls => falls.le some
  | none =>
    have integral : Rational.isIntegral (k : ℚ) := Rational.isIntegral_intCast k
    have numerator : ((k : ℚ)).num = k := Rat.num_natCast k
    dsimp only [Option.map_none]
    rw [if_pos integral, numerator, weight]
    exact reduceIntPower_falls positive number below

/-- A cast is moved into a sum or a product: the terms that are cast are its arguments. -/
def Pushes (o : Outcome) (s : Store) (op : Op) (args : List TermId) : Prop :=
  (op = .add ∨ op = .mul) ∧ ∃ r terms, o = .revisit 2 r ∧ r < s.size ∧ s.view r = (op, terms) ∧
    List.Forall₂ (fun c u => c < s.size ∧ s.view c = (.toReal, [u])) terms args

/-- The cast of an integer is a literal, stays as it is, or is moved into a sum or a product. -/
theorem reduceToReal_settles (known : s.Number Γ I true a x) :
    (reduceToReal a).Ensures config s fun o after =>
      o = .failed ∧ 2 ≤ s.weight config a ∨ (∃ r, o = .done r ∧ after.Bounded config δ r 1) ∨
        Pushes o after (s.op a) (s.args a) := by
  unfold reduceToReal
  refine ensures_peek_bind ?_
  split
  · exact ensures_bind (ensures_lift (mkNumeral_bounded config δ _ false)) fun r _ _ built =>
      ensures_pure (.inr (.inl ⟨r, rfl, built⟩))
  next other =>
  refine ensures_peek_bind ?_
  rw [known.isInt_eq]
  refine ensures_peek_bind (ensures_read_bind ?_)
  split
  · next pushed =>
    have either : s.op a = .add ∨ s.op a = .mul := by
      simpa [Store.op] using (Bool.and_eq_true_iff.mp pushed).2
    have several : 2 ≤ (s.args a).length := by
      have fits := known.sorted.fits
      obtain sum | product := either
      · rw [sum] at fits
        exact fits.2.1
      · rw [product] at fits
        exact fits.2.1
    have cast : ∀ u ∈ s.args a, ∀ now, s.Extends now →
        (liftM (mkApp .toReal [u]) : Rule TermId).Ensures config now fun c after =>
          c < after.size ∧ after.view c = (.toReal, [u]) := by
      intro u member now grown
      have inside := grown.lt_size ((Store.lt_of_mem_args member).trans known.inside)
      exact ensures_lift ((mkApp_node (by simp [inside])).imp fun c _ _ node =>
        ⟨node.1, by rw [Store.view, node.2]⟩)
    refine ensures_bind (ensures_mapM (fun u c before after more built =>
      ⟨more.lt_size built.1, (more.view_eq built.1).trans built.2⟩) (s.args a) cast)
      fun terms middle _ built => ?_
    have length : 2 ≤ terms.length := built.length_eq ▸ several
    have whole : (mkApp (s.op a) terms).Ensures middle fun r after =>
        Pushes (.revisit 2 r) after (s.op a) (s.args a) := by
      have inside : ∀ c ∈ terms, c < middle.size := fun c member => by
        obtain ⟨u, _, both⟩ := exists_of_forall₂ built.flip member
        exact both.1
      refine (mkApp_node inside).imp fun r after grown node => ⟨either, r, terms, rfl, node.1, ?_, ?_⟩
      · rw [Store.view, node.2]
      · exact built.flip.imp fun c u both =>
          ⟨grown.lt_size both.1, (grown.view_eq both.1).trans both.2⟩
    obtain ⟨first, second, rest, rfl⟩ : ∃ first second rest, terms = first :: second :: rest := by
      rcases terms with _ | ⟨first, _ | ⟨second, rest⟩⟩
      · simp at length
      · simp at length
      · exact ⟨first, second, rest, rfl⟩
    split
    · next sum =>
      have sum : s.op a = .add := sum
      rw [sum] at whole ⊢
      exact ensures_bind (ensures_lift whole) fun r _ _ pushes =>
        ensures_pure (.inr (.inr pushes))
    · next other =>
      have product := either.resolve_left other
      rw [product] at whole ⊢
      exact ensures_bind (ensures_lift whole) fun r _ _ pushes =>
        ensures_pure (.inr (.inr pushes))
  · have arith : (s.sortOf a).isArith := known.sort_eq ▸ TermSort.isArith_number true
    exact ensures_pure (.inl ⟨rfl, two_le_weight_of_numeral? known.sorted arith other⟩)

end Arithmetic

end Stratagem
