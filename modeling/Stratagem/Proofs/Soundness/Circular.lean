import Stratagem.Proofs.Number.Circle
import Stratagem.Proofs.Soundness.Division
import Stratagem.Proofs.Soundness.Power

/-!
# Circular and hyperbolic functions keep their value

A function of a number inside its domain keeps its value by each of the rules: the tables, the
inverse functions, the parity of the function, the period and its quarters, and the tangent as a
quotient.
-/
namespace Stratagem

open Arithmetic Terms Rule

namespace Op

/-- The domain of a function that is odd or even has the opposite of every number in it. -/
theorem inDomain_neg {op : Op} {odd : Bool} (parity : isOdd? op = some odd) {x : ℝ}
    (inside : op.InDomain x) : op.InDomain (-x) := by
  cases op <;> cases parity <;> simp only [InDomain, Real.cos_neg] at inside ⊢
  case tan => exact inside
  case asin => constructor <;> linarith [inside.1, inside.2]
  case atanh => constructor <;> linarith [inside.1, inside.2]

/-- The inverse hyperbolic tangent is odd. -/
theorem artanh_neg (x : ℝ) : Real.artanh (-x) = -Real.artanh x := by
  rw [Real.artanh, Real.artanh, ← Real.log_inv, ← Real.sqrt_inv, inv_div, sub_neg_eq_add,
    ← sub_eq_add_neg]

/-- The value of an odd function at the opposite number is the opposite value, and that of an even
function is the same. -/
theorem function?_neg {op : Op} {odd : Bool} {f : ℝ → ℝ} (parity : isOdd? op = some odd)
    (function : op.function? = some f) (x : ℝ) : f (-x) = if odd then -f x else f x := by
  cases op <;> cases parity <;> cases function <;> simp [artanh_neg]

/-- A function takes back its inverse where that is defined. -/
theorem function?_inverse {op inverse : Op} {f g : ℝ → ℝ} (known : inverse? op = some inverse)
    (outer : op.function? = some f) (inner : inverse.function? = some g) {x : ℝ}
    (inside : inverse.InDomain x) : f (g x) = x := by
  cases op <;> cases known <;> cases outer <;> cases inner
  · exact Real.sin_arcsin inside.1 inside.2
  · exact Real.cos_arccos inside.1 inside.2
  · exact Real.tan_arctan x
  · exact Real.sinh_arsinh x
  · exact Real.cosh_arcosh inside
  · exact Real.tanh_artanh inside

/-- Sine, cosine or tangent. -/
def IsCircular (op : Op) : Prop := op = .sin ∨ op = .cos ∨ op = .tan

variable {op : Op} {f : ℝ → ℝ}

/-- A circular function has the same domain after integral multiples of pi. -/
theorem IsCircular.inDomain_of_add (circular : op.IsCircular) (n : ℤ) {x : ℝ}
    (inside : op.InDomain (n * Real.pi + x)) : op.InDomain x := by
  obtain rfl | rfl | rfl := circular
  · trivial
  · trivial
  · intro zero
    refine inside ?_
    rw [(circular_add_int_mul_pi n x).2.1, zero]
    simp

/-- A circular function has the same values after integral multiples of pi if it is a tangent or the
multiple is even, and else the opposite ones. -/
theorem IsCircular.add_int_mul_pi (circular : op.IsCircular) (function : op.function? = some f)
    (n : ℤ) (x : ℝ) : f (n * Real.pi + x) = if op = .tan ∨ n % 2 = 0 then f x else -f x := by
  obtain ⟨sine, cosine, tangent⟩ := circular_add_int_mul_pi n x
  obtain rfl | rfl | rfl := circular <;> cases function
  · simpa using sine
  · simpa using cosine
  · simpa using tangent

/-- A fraction of the period of a circular function, times any integer, is an integral multiple of pi
after which the function has the same values. -/
theorem IsCircular.add_period (circular : op.IsCircular) (function : op.function? = some f) {c : ℚ}
    (integral : Rational.isIntegral (c / if op = .tan then 1 else 2)) (n : ℤ) :
    ∃ m : ℤ, (c : ℝ) * n * Real.pi = m * Real.pi ∧ ∀ x, f (m * Real.pi + x) = f x := by
  have whole := num_of_isIntegral integral
  generalize (c / if op = .tan then 1 else 2).num = k at whole
  by_cases tangent : op = .tan
  · rw [if_pos tangent, div_one] at whole
    refine ⟨k * n, by rw [← whole]; push_cast; rfl, fun x => ?_⟩
    rw [circular.add_int_mul_pi function, if_pos (.inl tangent)]
  · rw [if_neg tangent, eq_div_iff two_ne_zero] at whole
    refine ⟨2 * (k * n), by rw [← whole]; push_cast; ring, fun x => ?_⟩
    rw [circular.add_int_mul_pi function, if_pos (.inr (by omega))]

end Op

namespace Valuation

open Semantics

variable {J : Valuation} {L : Language} {s : Store} {config : SimplifierConfig} {t a : TermId}
  {x : ℝ} {k r : ℚ} {op : Op} {f : ℝ → ℝ}

/-- What an attempt finds, if anything, denotes a number. -/
def Finds (J : Valuation) (L : Language) (s : Store) (found : Option Outcome) (x : ℝ) : Prop :=
  ∀ o, found = some o → (J.semantics L).Answers s o .real (.number x)

/-- An attempt that finds nothing. -/
theorem finds_none :
    (pure none : Rule (Option Outcome)).Ensures config s fun found after =>
      Finds J L after found x :=
  ensures_pure (by simp [Finds])

/-- An attempt that finds a term that denotes the number. -/
theorem finds_with {o : Outcome} (result : o.result? = some t)
    (known : (J.semantics L).Number s false t x) :
    (pure (some o) : Rule (Option Outcome)).Ensures config s fun found after =>
      Finds J L after found x := by
  refine ensures_pure ?_
  rintro _ ⟨⟩
  exact .of_result? result known

/-- An attempt that builds a term that denotes the number. -/
theorem finds_build {work : Rule TermId} {answer : TermId → Outcome}
    (result : ∀ t, (answer t).result? = some t)
    (built : work.Ensures config s fun t after => (J.semantics L).Number after false t x) :
    (work >>= fun t => pure (some (answer t)) : Rule (Option Outcome)).Ensures config s
      fun found after => Finds J L after found x :=
  ensures_bind built fun t _ _ known => finds_with (result t) known

section Angles

/-- The value of pi. -/
theorem num_of_pi (head : s.op t = .pi) : (J.semantics L).num s t = Real.pi := by
  change (s.meaning J t).num = Real.pi
  rw [Store.meaning_eq, head]
  rfl

/-- A multiple of pi. -/
theorem eq_of_piMultiple? (known : (J.semantics L).Number s false t x)
    (found : piMultiple? s t = some k) : x = k * Real.pi := by
  unfold piMultiple? at found
  split at found
  · next zero =>
    obtain rfl := Option.some.inj found
    rw [(known.of_numeral? (beq_iff_eq.mp zero)).1]
    simp
  split at found
  · next view =>
    obtain rfl := Option.some.inj found
    rw [← known.num_eq, num_of_pi (Store.view_eq_iff.mp view).1]
    simp
  · next c y view =>
    split at found
    case isFalse => cases found
    next pi =>
    obtain ⟨head, arguments⟩ := Store.view_eq_iff.mp view
    have numbers := numbers_of_view known view (.inr rfl)
    rw [← known.num_eq, num_of_mul known.sorted head, arguments, List.map_cons, List.map_singleton,
      List.prod_pair, num_of_numeral? (numbers c (by simp)).1 found, num_of_pi pi]
  · cases found

/-- A multiple of pi and a cast integer. -/
theorem eq_of_piIntMultiple? (known : (J.semantics L).Number s false t x)
    (found : piIntMultiple? s t = some k) : ∃ n : ℤ, x = k * n * Real.pi := by
  have value := eval_monomial known.sorted
  have factors := (fits_monomial known.sorted known.sort_eq).factors
  unfold piIntMultiple? at found
  dsimp only at found
  split at found
  case h_2 => cases found
  next y z product =>
  rw [product] at factors
  rw [Monomial.eval, product, List.map_cons, List.map_singleton, List.prod_pair, known.num_eq]
    at value
  split at found
  case isFalse => cases found
  next either =>
  obtain rfl := Option.some.inj found
  obtain ⟨pi, cast⟩ | ⟨pi, cast⟩ := either
  · obtain ⟨_, n, _, _, integer⟩ := integral_of_toReal id (factors z (by simp)).1 cast
    refine ⟨n, ?_⟩
    rw [← value, num_of_pi pi, integer]
    ring
  · obtain ⟨_, n, _, _, integer⟩ := integral_of_toReal id (factors y (by simp)).1 cast
    refine ⟨n, ?_⟩
    rw [← value, num_of_pi pi, integer]
    ring

/-- A multiple of pi is built. -/
theorem mkPiTimes_means (k : ℚ) : (mkPiTimes k).Ensures config s fun t after =>
    (J.semantics L).Number after false t (k * Real.pi) := by
  unfold mkPiTimes
  split
  · next zero =>
    exact ensures_lift ((mkReal_means k).imp fun _ _ _ built => built.congr (by simp [zero]))
  refine ensures_bind (ensures_lift (mkPi_means (J := J) (L := L))) fun p first grown pi => ?_
  split
  · next one => exact ensures_pure (pi.congr (by simp [one]))
  · refine ensures_bind (ensures_lift (mkReal_means (M := J.semantics L) k))
      fun c second more literal => ?_
    exact ensures_lift (mkMul_pair_means literal (pi.mono more))

/-- The opposite number is built. -/
theorem mkNegated_means (known : (J.semantics L).Number s false t x) :
    (mkNegated t).Ensures config s fun u after => (J.semantics L).Number after false u (-x) := by
  unfold mkNegated
  refine ensures_bind (ensures_lift (mkReal_means (M := J.semantics L) (-1)))
    fun c after grown literal => ?_
  exact ensures_lift ((mkMul_pair_means literal (known.mono grown)).imp fun _ _ _ built =>
    built.congr (by simp))

end Angles

section Tables

variable (allowed : L.irrationals)
include allowed

/-- A sum of square roots is built. -/
theorem mkSurdSum?_means (v : SurdSum) : (mkSurdSum? v).Ensures config s fun found after =>
    Finds J L after found v.value := by
  unfold mkSurdSum?
  split
  · exact finds_build (fun _ => rfl) (ensures_lift ((mkReal_means 0).imp fun _ _ _ built =>
      built.congr (by simp [SurdSum.value])))
  · next c =>
    exact finds_build (fun _ => rfl) (ensures_lift ((mkReal_means c).imp fun _ _ _ built =>
      built.congr (by simp [SurdSum.value])))
  next nonempty _ =>
  refine ensures_read_bind ?_
  split
  · exact finds_none
  refine ensures_bind (ensures_lift (mkReal_numeral (M := J.semantics L) (mkRat 1 2)))
    fun half first grown exponent => ?_
  have each : ∀ e ∈ v, ∀ now, first.Extends now → (show Rule TermId from do
      let coeff ← mkReal e.1
      if e.2 = 1 then return coeff
      else
        let radicand ← mkReal (Rational.ofInt (Int.ofNat e.2))
        let root ← mkApp .power [radicand, half]
        mkMul [coeff, root]).Ensures config now fun t after =>
          (J.semantics L).Number after false t (e.1 * √e.2) := by
    rintro ⟨c, n⟩ _ now more
    refine ensures_bind (ensures_lift (mkReal_means (M := J.semantics L) c))
      fun coeff second most literal => ?_
    split
    · next one => exact ensures_pure (literal.congr (by simp [show n = 1 from one]))
    have before := more.trans most
    have value : ((Rational.ofInt (Int.ofNat n) : ℚ) : ℝ) = n := by
      rw [Rational.ofInt]
      push_cast
      rfl
    refine ensures_bind (ensures_lift ((mkReal_means (M := J.semantics L) _).imp
      fun _ _ _ built => built.congr value)) fun radicand third other base => ?_
    have all := before.trans other
    have known : third.numeral? half = some (mkRat 1 2) := by
      rw [Store.numeral?_mono all exponent.1.inside, exponent.2]
    refine ensures_bind (ensures_lift (mkRoot_means base (exponent.1.mono all) known one_lt_two
      allowed fun _ => n.cast_nonneg)) fun root fourth last taken => ?_
    refine ensures_lift ((mkMul_pair_means (literal.mono (other.trans last)) taken).imp
      fun _ _ _ built => built.congr ?_)
    rw [realRoot_two n.cast_nonneg]
  refine ensures_bind (mapM_means each) fun parts second more known => ?_
  have present : parts ≠ [] := by
    rintro rfl
    exact nonempty (List.map_eq_nil_iff.mp (List.forall₂_nil_left_iff.mp known))
  exact finds_build (fun _ => rfl) (ensures_lift (mkAdd_means present known))

/-- A function at a multiple of pi. -/
theorem reduceAtPi?_means (function : op.function? = some f)
    (known : (J.semantics L).Number s false a x) :
    (reduceAtPi? op a).Ensures config s fun found after => Finds J L after found (f x) := by
  unfold reduceAtPi?
  refine ensures_peek_bind ?_
  split
  case h_2 => exact finds_none
  next v found =>
  obtain ⟨k, multiple, found⟩ := Option.bind_eq_some_iff.mp found
  have value : f x = v.value := by
    rw [eq_of_piMultiple? known multiple]
    obtain ⟨rfl, same⟩ | ⟨rfl, same⟩ | ⟨rfl, same⟩ := value_of_atPi? found <;>
      · cases function
        exact same.symm
  rw [value]
  exact mkSurdSum?_means allowed v

/-- A tangent as a quotient. -/
theorem expandTangent?_means (function : op.function? = some f) (inside : op.InDomain x)
    (known : (J.semantics L).Number s false a x) :
    (expandTangent? op a).Ensures config s fun found after => Finds J L after found (f x) := by
  unfold expandTangent?
  refine ensures_read_bind ?_
  split
  case isFalse => exact finds_none
  next asked =>
  obtain ⟨rfl, _⟩ := asked
  cases function
  refine ensures_bind (ensures_lift (mkFunction_means allowed rfl known trivial))
    fun sine first grown above => ?_
  refine ensures_bind (ensures_lift (mkFunction_means allowed rfl (known.mono grown) trivial))
    fun cosine second more below => ?_
  have divisor : (second.meaning J cosine).num ≠ 0 := by
    rw [show second.meaning J cosine = _ from below.value_eq]
    exact inside
  refine finds_build (fun _ => rfl) (ensures_lift ((mkDiv_means (above.mono more) below
    (.inl divisor)).imp fun _ _ _ built => built.congr ?_))
  have nonzero : Real.cos x ≠ 0 := inside
  rw [divide, if_neg nonzero, Real.tan_eq_sin_div_cos]

/-- A function of a number with a negative coefficient. -/
theorem reduceParity?_means (function : op.function? = some f) (inside : op.InDomain x)
    (known : (J.semantics L).Number s false a x) :
    (reduceParity? op a).Ensures config s fun found after => Finds J L after found (f x) := by
  unfold reduceParity?
  split
  · exact finds_none
  next odd parity =>
  refine ensures_peek_bind (ensures_peek_bind ?_)
  split
  case isFalse => exact finds_none
  have value := eval_monomial known.sorted
  obtain ⟨_, nonempty, factors⟩ := fits_monomial known.sorted known.sort_eq
  rw [known.num_eq, Monomial.eval] at value
  have finish : ∀ {p : TermId} {now : Store}, (J.semantics L).Number now false p (-x) →
      (do
        let fx ← mkApp op [p]
        if odd then return some (.revisit 2 (← mkNegated fx)) else return some (.revisit 1 fx) :
        Rule (Option Outcome)).Ensures config now fun found after =>
          Finds J L after found (f x) := by
    intro p now opposite
    refine ensures_bind (ensures_lift (mkFunction_means allowed function opposite
      (Op.inDomain_neg parity inside))) fun fx second more applied => ?_
    rw [Op.function?_neg parity function] at applied
    split
    · next odd =>
      rw [if_pos odd] at applied
      exact finds_build (fun _ => rfl) ((mkNegated_means applied).imp fun _ _ _ built =>
        built.congr (neg_neg _))
    · next even =>
      rw [if_neg even] at applied
      exact finds_with rfl applied
  -- The opposite number is the monomial with the opposite coefficient.
  dsimp only
  split
  · next one =>
    have coeff : (s.monomial a).coeff = -1 := by linarith
    refine ensures_bind (ensures_lift (mkMul_means nonempty factors.forall₂)) fun p _ _ built =>
      finish (built.congr ?_)
    rw [← value, coeff]
    simp
  · refine ensures_bind (ensures_lift (mkReal_means (M := J.semantics L) _))
      fun c first grown literal => ?_
    refine ensures_bind (ensures_lift (mkMul_means (by simp)
      (.cons literal (Number.mono_all factors.forall₂ grown)))) fun p _ _ built =>
        finish (built.congr ?_)
    rw [List.prod_cons, ← value]
    push_cast
    ring

end Tables

/-- A function at a rational. -/
theorem reduceAtNumeral?_means (function : op.function? = some f)
    (known : (J.semantics L).Number s false a x) :
    (reduceAtNumeral? op a).Ensures config s fun found after => Finds J L after found (f x) := by
  unfold reduceAtNumeral?
  refine ensures_peek_bind ?_
  split
  case h_2 => exact finds_none
  next v literal =>
  obtain ⟨rfl, _⟩ := known.of_numeral? literal
  have multiple {k : Option ℚ} (same : ∀ m, k = some m → f v = m * Real.pi) :
      (k.mapM fun m => do return .done (← mkPiTimes m) : Rule (Option Outcome)).Ensures config s
        fun found after => Finds J L after found (f v) := by
    cases k with
    | none => exact finds_none
    | some m =>
      rw [same m rfl]
      have result (t : TermId) : (Outcome.done t).result? = some t := rfl
      exact finds_build result (mkPiTimes_means (J := J) (L := L) m)
  have constant {holds : Bool} {c : ℚ} (same : holds = true → f v = c) :
      (if holds = true then do return some (.done (← mkReal c)) else return none :
        Rule (Option Outcome)).Ensures config s fun found after => Finds J L after found (f v) := by
    split
    · next holds =>
      rw [same holds]
      exact finds_build (fun _ => rfl) (ensures_lift (mkReal_means c))
    · exact finds_none
  unfold atNumeral?
  dsimp only
  split
  case h_10 => exact finds_none
  case h_7 =>
    cases function
    exact multiple fun m found => arcsin_of_asinOverPi? found
  case h_8 =>
    cases function
    refine multiple fun m found => ?_
    obtain ⟨n, looked, rfl⟩ := Option.map_eq_some_iff.mp found
    rw [Real.arccos, arcsin_of_asinOverPi? looked, Rat.mkRat_eq_div]
    push_cast
    ring
  case h_9 =>
    cases function
    exact multiple fun m found => arctan_of_atanOverPi? found
  all_goals
    cases function
    refine constant fun holds => ?_
    obtain rfl : v = _ := of_decide_eq_true holds
    simp

/-- A function of a value of its inverse. -/
theorem reduceInverse?_means (function : op.function? = some f)
    (known : (J.semantics L).Number s false a x) :
    (reduceInverse? op a).Ensures config s fun found after => Finds J L after found (f x) := by
  unfold reduceInverse?
  refine ensures_peek ?_
  split
  case h_2 => simp [Finds]
  next g head y inverse view =>
  split
  case isFalse => simp [Finds]
  next same =>
  subst same
  rintro _ ⟨⟩
  obtain ⟨admits, defines, sensible, value⟩ := evaluate_of_view known view
  obtain ⟨g, inner⟩ : ∃ g, head.function? = some g := by
    cases op <;> cases inverse <;> exact ⟨_, rfl⟩
  have real : s.sortOf y = .real := by
    have sorts := admits.sorts
    cases op <;> cases inverse <;>
      · obtain ⟨common, _⟩ | ⟨_, _, _, same, real⟩ := sorts
        · cases common
        · obtain ⟨rfl, _⟩ := List.cons_eq_cons.mp same
          exact real
  have argument : (J.semantics L).Number s false y _ := .self (sensible y (by simp)) real
  have taken : x = g (s.meaning J y).num := by
    rw [List.map_singleton, Op.evaluate_of_function? inner] at value
    exact Value.number.inj value
  rw [taken, Op.function?_inverse inverse function inner (defines.function y rfl)]
  exact .of_result? rfl argument

/-- The first attempt that finds something. -/
theorem firstOutcome_means : ∀ (attempts : List (Rule (Option Outcome))) {s : Store},
    (∀ attempt ∈ attempts, ∀ now, s.Extends now → attempt.Ensures config now fun found after =>
      Finds J L after found x) →
    (firstOutcome attempts).Ensures config s fun o after =>
      (J.semantics L).Answers after o .real (.number x)
  | [], _, _ => answers_failed
  | attempt :: rest, s, each => by
    obtain ⟨here, others⟩ := List.forall_mem_cons.mp each
    refine ensures_bind (here s (.refl s)) fun found now grown finds => ?_
    split
    · exact ensures_pure (finds _ rfl)
    · exact firstOutcome_means rest fun attempt member later more =>
        others attempt member later (grown.trans more)

section Periods

variable (allowed : L.irrationals)
include allowed

/-- A circular function of a sum without one of its members, a multiple of pi. -/
theorem dropMultiple?_means (circular : op.IsCircular) (function : op.function? = some f)
    {rest : List TermId} (nonempty : rest ≠ [])
    (numbers : (J.semantics L).Numbers s false rest)
    (value : (rest.map ((J.semantics L).num s)).sum = x)
    (inside : op.InDomain (k * Real.pi + x)) :
    (dropMultiple? op k rest).Ensures config s fun found after =>
      Finds J L after found (f (k * Real.pi + x)) := by
  unfold dropMultiple?
  refine ensures_bind (ensures_lift (mkAdd_means nonempty numbers.forall₂))
    fun r first grown built => ?_
  rw [value] at built
  split
  · next integral =>
    have whole : (k : ℝ) = k.num := by exact_mod_cast (num_of_isIntegral integral).symm
    rw [whole] at inside ⊢
    rw [circular.add_int_mul_pi function]
    refine ensures_bind (ensures_lift (mkFunction_means allowed function built
      (circular.inDomain_of_add _ inside))) fun fr second more applied => ?_
    split
    · exact finds_with rfl applied
    · exact finds_build (fun _ => rfl) (mkNegated_means applied)
  · split
    case isFalse => exact finds_none
    next fraction halves =>
    obtain ⟨curved, halves⟩ := halves
    rw [eq_floor_add_half fraction halves]
    obtain ⟨sine, cosine⟩ := circular_add_half k.floor x
    -- The other function of the two, and whether it is negated.
    have cofunction : ∀ {g : Op} {h : ℝ → ℝ} (negate : Bool), g.function? = some h →
        (∀ y, g.InDomain y) → f ((k.floor + 1 / 2) * Real.pi + x) = (if negate then -h x else h x) →
        (do
          let gr ← mkApp g [r]
          if negate then return some (.revisit 3 (← mkNegated gr))
          else return some (.revisit 2 gr) : Rule (Option Outcome)).Ensures config first
            fun found after => Finds J L after found (f ((k.floor + 1 / 2) * Real.pi + x)) := by
      intro g h negate known total same
      rw [same]
      refine ensures_bind (ensures_lift (mkFunction_means allowed known built (total x)))
        fun gr second more applied => ?_
      cases negate with
      | false => exact finds_with rfl applied
      | true => exact finds_build (fun _ => rfl) (mkNegated_means applied)
    obtain rfl | rfl | rfl := circular
    · cases function
      refine cofunction (g := .cos) (decide (k.floor % 2 = 1)) rfl (fun _ => trivial) ?_
      simpa using sine
    · cases function
      refine cofunction (g := .sin) (!decide (k.floor % 2 = 1)) rfl (fun _ => trivial) ?_
      rw [cosine]
      by_cases odd : k.floor % 2 = 1 <;> simp [odd]
    · exact absurd rfl curved

/-- A circular function of a sum without the first multiple of the period or of half of it. The
induction is on the members that are still to be looked at. -/
theorem shiftFrom_means (circular : op.IsCircular) (function : op.function? = some f)
    (inside : op.InDomain x) :
    ∀ (before later : List TermId) {s : Store}, 2 ≤ before.length + later.length →
      (J.semantics L).Numbers s false (before ++ later) →
      ((before ++ later).map ((J.semantics L).num s)).sum = x →
      (shiftFrom op before later).Ensures config s fun found after => Finds J L after found (f x)
  | _, [], _, _, _, _ => by
    unfold shiftFrom
    exact finds_none
  | before, y :: later, s, several, numbers, value => by
    have perm : (before ++ y :: later).Perm (y :: before ++ later) := List.perm_middle
    have next : ∀ {now : Store}, s.Extends now →
        (shiftFrom op (y :: before) later).Ensures config now fun found after =>
          Finds J L after found (f x) := by
      intro now grown
      refine shiftFrom_means circular function inside (y :: before) later ?_ ?_ ?_
      · simpa [Nat.add_right_comm, Nat.add_assoc] using several
      · exact fun t member => numbers.mono grown t (perm.mem_iff.mpr member)
      · rw [← (perm.map _).sum_eq, numbers.map_num grown, value]
    have whole : (J.semantics L).num s y +
        ((before.reverse ++ later).map ((J.semantics L).num s)).sum = x := by
      rw [← value, (perm.map _).sum_eq]
      simp
    have rest : (J.semantics L).Numbers s false (before.reverse ++ later) := fun t member =>
      numbers t (by simp only [List.mem_append, List.mem_reverse, List.mem_cons] at member ⊢; tauto)
    have nonempty : before.reverse ++ later ≠ [] := by
      intro empty
      obtain ⟨first, second⟩ := List.append_eq_nil_iff.mp empty
      rw [List.reverse_eq_nil_iff.mp first, second] at several
      simp at several
    obtain ⟨sorted, same⟩ := numbers y (by simp)
    have number := Number.self sorted same
    unfold shiftFrom
    refine ensures_peek_bind ?_
    split
    · next c found =>
      dsimp only
      obtain ⟨n, multiple⟩ := eq_of_piIntMultiple? number found
      rw [multiple] at whole
      by_cases integral : Rational.isIntegral (c / if op = .tan then 1 else 2)
      · rw [if_pos integral]
        obtain ⟨m, integer, periodic⟩ := circular.add_period function integral n
        rw [integer] at whole
        rw [← whole, periodic]
        rw [← whole] at inside
        refine ensures_bind (ensures_lift (mkAdd_means nonempty rest.forall₂))
          fun r first grown built => ?_
        exact finds_build (fun _ => rfl) (ensures_lift (mkFunction_means allowed function built
          (circular.inDomain_of_add m inside)))
      · rw [if_neg integral]
        exact next (.refl s)
    refine ensures_peek_bind ?_
    split
    · exact next (.refl s)
    next c found =>
    rw [eq_of_piMultiple? number found] at whole
    have dropped : (dropMultiple? op c (before.reverse ++ later)).Ensures config s
        fun found after => Finds J L after found (f x) := by
      rw [← whole] at inside ⊢
      exact dropMultiple?_means allowed circular function nonempty rest rfl inside
    refine ensures_bind dropped fun found after grown finds => ?_
    split
    · exact ensures_pure finds
    · exact next grown

/-- A circular function of a sum without a multiple of the period or of half of it. -/
theorem shiftPeriod?_means (function : op.function? = some f) (inside : op.InDomain x)
    (known : (J.semantics L).Number s false a x) :
    (shiftPeriod? op a).Ensures config s fun found after => Finds J L after found (f x) := by
  have shift : ∀ {summands : List TermId}, op.IsCircular → s.view a = (.add, summands) →
      (shiftFrom op [] summands).Ensures config s fun found after =>
        Finds J L after found (f x) := by
    intro summands circular view
    obtain ⟨head, arguments⟩ := Store.view_eq_iff.mp view
    have several := (known.of_view view rfl).1.2.1
    refine shiftFrom_means allowed circular function inside [] summands (by simpa using several)
      (numbers_of_view known view (.inl rfl)) ?_
    rw [List.nil_append, ← arguments, ← num_of_add known.sorted head, known.num_eq]
  unfold shiftPeriod?
  refine ensures_peek_bind ?_
  split
  · next view => exact shift (.inl rfl) view
  · next view => exact shift (.inr (.inl rfl)) view
  · next view => exact shift (.inr (.inr rfl)) view
  · exact finds_none

/-- A circular or hyperbolic function or an inverse of one keeps its value. -/
theorem reduceFunction_means (function : op.function? = some f) (inside : op.InDomain x)
    (known : (J.semantics L).Number s false a x) :
    (reduceFunction op a).Ensures config s fun o after =>
      (J.semantics L).Answers after o .real (.number (f x)) := by
  refine firstOutcome_means _ fun attempt member now grown => ?_
  have known := known.mono grown
  simp only [List.mem_cons, List.not_mem_nil, or_false] at member
  obtain rfl | rfl | rfl | rfl | rfl | rfl := member
  · exact reduceAtPi?_means allowed function known
  · exact reduceAtNumeral?_means function known
  · exact reduceInverse?_means function known
  · exact reduceParity?_means allowed function inside known
  · exact shiftPeriod?_means allowed function inside known
  · exact expandTangent?_means allowed function inside known

end Periods

end Valuation
end Stratagem
