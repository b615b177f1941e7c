import Stratagem.Rewriting.Simplifier

/-!
# Rules and the limit on steps

The configuration of a simplifier holds the limit on its steps beside the choices of the rules. No
rule looks at the limit: under another one it builds the same terms, counts the same and has the
same outcome. This is so for looking at terms, building and counting, it passes from rules to
sequences of rules, and a rule that reads the configuration goes on in a way that depends on its
choices only.
-/
namespace Stratagem

variable {α β : Type}

/-- A configuration with another limit on steps. -/
def SimplifierConfig.withMaxSteps (config : SimplifierConfig) (n : Nat) : SimplifierConfig :=
  { config with maxSteps := n }

namespace Rule

/-- A rule that does not look at the limit on steps. -/
def Unlimited (rule : Rule α) : Prop :=
  ∀ (config : SimplifierConfig) n, rule.run (config.withMaxSteps n) = rule.run config

namespace Unlimited

/-- A result alone. -/
@[grind .]
theorem of_pure (a : α) : Unlimited (pure a : Rule α) := fun _ _ => rfl

/-- Building terms. -/
@[grind .]
theorem of_build (work : Terms α) : Unlimited (liftM work : Rule α) := fun _ _ => rfl

/-- Looking at the store. -/
@[grind .]
theorem of_peek (look : Store → α) : Unlimited (peek look) := fun _ _ => rfl

/-- Counting. -/
@[grind .]
theorem of_modify (count : RuleTally → RuleTally) : Unlimited (modify count : Rule Unit) :=
  fun _ _ => rfl

/-- A rule and then another one on its result. -/
@[grind ←]
theorem bind {rule : Rule α} {next : α → Rule β} (first : Unlimited rule)
    (second : ∀ a, Unlimited (next a)) : Unlimited (rule >>= next) := by
  intro config n
  show (rule.run _ >>= fun a => (next a).run _) = rule.run _ >>= fun a => (next a).run _
  rw [first config n]
  exact congrArg _ (funext fun a => second a config n)

/-- Reading the configuration, and then a rule that does not depend on the limit. -/
theorem read_bind {next : SimplifierConfig → Rule β}
    (choices : ∀ config n, next (SimplifierConfig.withMaxSteps config n) = next config)
    (rest : ∀ config, Unlimited (next config)) : Unlimited (read >>= next) := by
  intro config n
  show (next (config.withMaxSteps n)).run (config.withMaxSteps n) = (next config).run config
  rw [choices config n]
  exact rest config config n

/-- A rule whose result is changed. -/
@[grind ←]
theorem map {rule : Rule α} {f : α → β} (first : Unlimited rule) : Unlimited (f <$> rule) := by
  rw [← bind_pure_comp]
  exact first.bind fun _ => .of_pure _

/-- A rule on every member of a list. -/
@[grind ←]
theorem mapM {rule : α → Rule β} (each : ∀ a, Unlimited (rule a)) (members : List α) :
    Unlimited (members.mapM rule) := by
  induction members with
  | nil => exact .of_pure _
  | cons a rest others =>
    rw [List.mapM_cons]
    exact (each a).bind fun _ => others.bind fun _ => .of_pure _

/-- A rule on a member that may be missing. -/
@[grind ←]
theorem mapM_option {rule : α → Rule β} (each : ∀ a, Unlimited (rule a)) (member : Option α) :
    Unlimited (member.mapM rule) := by
  cases member with
  | none => exact .of_pure _
  | some a => exact (each a).map

end Unlimited

/-- Reading the value of a literal. -/
@[grind .]
theorem numeralValue?_unlimited (t : TermId) : Unlimited (numeralValue? t) := fun _ _ => rfl

/-- Computing with numerals. -/
@[grind .]
theorem compute_unlimited (work : Algebraic.Compute α) : Unlimited (compute work) := fun _ _ => rfl

/-- Computing with numerals where the degree may be too high. -/
@[grind .]
theorem evaluate?_unlimited (work : Algebraic.Compute α) : Unlimited (evaluate? work) := by
  unfold evaluate?
  grind

/-- Building a literal. -/
@[grind .]
theorem mkNumber_unlimited (n : Numeral) (isInt : Bool) : Unlimited (mkNumber n isInt) := by
  unfold mkNumber
  grind

/-- A known answer. -/
@[grind .]
theorem decided_unlimited (answer : Bool) : Unlimited (decided answer) := by
  unfold decided
  grind

end Rule

open Rule

namespace Arithmetic

/-- Building a multiple of a power product. -/
@[grind .]
theorem mkMonomial_unlimited (c : Rat) (product : PowerProduct) (isInt : Bool) :
    Unlimited (mkMonomial c product isInt) := by
  unfold mkMonomial
  cases product with
  | nil => exact .of_build _
  | cons first rest =>
    dsimp only
    split
    · exact .of_build _
    · refine (Unlimited.of_peek _).bind fun irrational => ?_
      refine .read_bind (fun _ _ => rfl) fun config => ?_
      grind

/-- Building several monomials. -/
@[grind .]
theorem mkMonomials_unlimited (monomials : List Monomial) (isInt : Bool) :
    Unlimited (mkMonomials monomials isInt) := by
  unfold mkMonomials
  grind

/-- Building a sum. -/
@[grind .]
theorem mkSum_unlimited (constant : Option TermId) (monomials : List Monomial) (isInt : Bool) :
    Unlimited (mkSum constant monomials isInt) := by
  unfold mkSum
  grind

/-- Gathering summands. -/
@[grind .]
theorem gatherSum_unlimited (summands : List TermId) (constant : Option Numeral)
    (monomials : Monomials) : Unlimited (gatherSum summands constant monomials) := by
  induction summands generalizing constant monomials with
  | nil => exact .of_pure _
  | cons t rest others =>
    unfold gatherSum
    grind

/-- The rule for sums. -/
@[grind .]
theorem reduceAdd_unlimited (t : TermId) (args : List TermId) : Unlimited (reduceAdd t args) := by
  unfold reduceAdd
  refine (Unlimited.of_peek _).bind fun isInt => ?_
  refine (Unlimited.of_peek _).bind fun summands => ?_
  refine (gatherSum_unlimited _ _ _).bind fun found => ?_
  split
  · exact .of_pure _
  · refine .read_bind (fun _ _ => rfl) fun config => ?_
    grind

/-- Gathering factors. -/
@[grind .]
theorem gatherProduct_unlimited (isInt : Bool) (factors : List TermId) (coeff : Numeral)
    (others : List TermId) : Unlimited (gatherProduct isInt factors coeff others) := by
  induction factors generalizing coeff others with
  | nil => exact .of_pure _
  | cons t rest more =>
    unfold gatherProduct
    grind

/-- Collecting powers. -/
@[grind .]
theorem groupPowers_unlimited (factors : List TermId) : Unlimited (groupPowers factors) := by
  unfold groupPowers
  grind

/-- Multiplying sums out. -/
@[grind .]
theorem distribute_unlimited (coeff : Numeral) (factors : List TermId) (isInt : Bool) :
    Unlimited (distribute coeff factors isInt) := by
  unfold distribute
  grind

/-- Multiplying a sum by a literal. -/
@[grind .]
theorem scaleSum_unlimited (coeff : Numeral) (summands : List TermId) (isInt : Bool) :
    Unlimited (scaleSum coeff summands isInt) := by
  unfold scaleSum
  grind

/-- Building a product. -/
@[grind .]
theorem mkProduct_unlimited (coeff : Numeral) (factors args : List TermId) (isInt : Bool) :
    Unlimited (mkProduct coeff factors args isInt) := by
  unfold mkProduct
  split
  · refine (Unlimited.of_pure _).bind fun lead => ?_
    grind
  · refine (mkNumber_unlimited _ _).map.bind fun lead => ?_
    grind

/-- The rule for products. -/
@[grind .]
theorem reduceMul_unlimited (t : TermId) (args : List TermId) : Unlimited (reduceMul t args) := by
  unfold reduceMul
  refine (Unlimited.of_peek _).bind fun isInt => ?_
  refine (Unlimited.of_peek _).bind fun factors => ?_
  refine (gatherProduct_unlimited _ _ _ _).bind fun found => ?_
  split
  · exact .of_pure _
  · refine .read_bind (fun _ _ => rfl) fun config => ?_
    split
    all_goals
      refine Unlimited.bind (by grind) fun factors => ?_
      refine (Unlimited.of_peek _).bind fun hasSum => ?_
      refine .read_bind (fun _ _ => rfl) fun config => ?_
      grind

/-- The rule for negation. -/
@[grind .]
theorem reduceNeg_unlimited (t a : TermId) : Unlimited (reduceNeg t a) := by
  unfold reduceNeg
  grind

/-- The rule for differences. -/
@[grind .]
theorem reduceSub_unlimited (t a b : TermId) : Unlimited (reduceSub t a b) := by
  unfold reduceSub
  grind

/-- Computing a power. -/
@[grind .]
theorem numeralPower_unlimited (value : Numeral) (p : Int) (q : Nat) :
    Unlimited (numeralPower value p q) := by
  unfold numeralPower
  grind

/-- The rule for powers of literals. -/
@[grind .]
theorem foldPower_unlimited (value : Numeral) (y : Rat) (isInt : Bool) :
    Unlimited (foldPower value y isInt) := by
  unfold foldPower
  refine .read_bind (fun _ _ => rfl) fun config => ?_
  grind

/-- The rule for integer powers of other terms. -/
@[grind .]
theorem reduceIntPower_unlimited (t base : TermId) (k : Int) :
    Unlimited (reduceIntPower t base k) := by
  unfold reduceIntPower
  refine (Unlimited.of_peek _).bind fun inner => ?_
  split
  · grind
  · split
    · grind
    · refine .read_bind (fun _ _ => rfl) fun config => ?_
      grind

/-- The rule for fractional powers of other terms. -/
@[grind .]
theorem reduceFractionPower_unlimited (base : TermId) (y : Rat) :
    Unlimited (reduceFractionPower base y) := by
  unfold reduceFractionPower
  grind

/-- The rule for powers. -/
@[grind .]
theorem reducePower_unlimited (t base e : TermId) : Unlimited (reducePower t base e) := by
  unfold reducePower
  refine (Unlimited.of_peek _).bind fun isInt => ?_
  refine (Unlimited.of_peek _).bind fun isOne => ?_
  split
  · grind
  · refine (Unlimited.of_peek _).bind fun exponent => ?_
    split
    · exact .of_pure _
    · refine (Unlimited.of_peek _).bind fun zeroBase => ?_
      grind

/-- Dividing products. -/
@[grind .]
theorem divideProducts_unlimited (a b : TermId) : Unlimited (divideProducts a b) := by
  unfold divideProducts
  grind

/-- The rule for division. -/
@[grind .]
theorem reduceDiv_unlimited (a b : TermId) : Unlimited (reduceDiv a b) := by
  unfold reduceDiv
  refine (numeralValue?_unlimited _).bind fun divisor => ?_
  split
  · exact divideProducts_unlimited a b
  · split
    · exact .of_pure _
    · refine (numeralValue?_unlimited _).bind fun dividend => ?_
      split <;> grind

/-- The rule for Euclidean division. -/
@[grind .]
theorem reduceIntDiv_unlimited (a b : TermId) : Unlimited (reduceIntDiv a b) := by
  unfold reduceIntDiv
  grind

/-- Reducing an argument under a remainder. -/
@[grind .]
theorem reduceModArg_unlimited (x b : TermId) (k : Int) : Unlimited (reduceModArg x b k) := by
  unfold reduceModArg
  refine (Unlimited.of_peek _).bind fun value => ?_
  split
  · exact .of_build _
  · refine (Unlimited.of_peek _).bind fun view => ?_
    split
    · exact .of_pure _
    · refine (Unlimited.of_peek _).bind fun lead => ?_
      grind
    · exact .of_pure _

/-- Reducing a sum or product under a remainder. -/
@[grind .]
theorem pushMod_unlimited (a b : TermId) (k : Int) : Unlimited (pushMod a b k) := by
  unfold pushMod
  grind

/-- The rule for Euclidean remainders. -/
@[grind .]
theorem reduceMod_unlimited (a b : TermId) : Unlimited (reduceMod a b) := by
  unfold reduceMod
  refine (Unlimited.of_peek _).bind fun divisor => ?_
  split
  · exact .of_pure _
  · split
    · exact .of_pure _
    · refine (Unlimited.of_peek _).bind fun dividend => ?_
      grind

/-- The rule for signed remainders. -/
@[grind .]
theorem reduceRem_unlimited (a b : TermId) : Unlimited (reduceRem a b) := by
  unfold reduceRem
  refine (Unlimited.of_peek _).bind fun divisor => ?_
  split
  · grind
  · refine .read_bind (fun _ _ => rfl) fun config => ?_
    grind

/-- The rule for integral parts. -/
@[grind .]
theorem reduceToInt_unlimited (a : TermId) : Unlimited (reduceToInt a) := by
  unfold reduceToInt
  grind

/-- The rule for casts. -/
@[grind .]
theorem reduceToReal_unlimited (a : TermId) : Unlimited (reduceToReal a) := by
  unfold reduceToReal
  refine (Unlimited.of_peek _).bind fun value => ?_
  split
  · grind
  · refine (Unlimited.of_peek _).bind fun isInt => ?_
    split
    · exact .of_pure _
    · refine (Unlimited.of_peek _).bind fun head => ?_
      refine .read_bind (fun _ _ => rfl) fun config => ?_
      grind

/-- The rule for integrality. -/
@[grind .]
theorem reduceIsInt_unlimited (a : TermId) : Unlimited (reduceIsInt a) := by
  unfold reduceIsInt
  grind

/-- Building a comparison. -/
@[grind .]
theorem mkComparison_unlimited (relation : Relation) (a b : TermId) :
    Unlimited (mkComparison relation a b) := by
  exact .of_build _

/-- Reducing a factor that is compared with zero. -/
@[grind .]
theorem reduceZeroFactor?_unlimited (relation : Relation) (f : TermId) :
    Unlimited (reduceZeroFactor? relation f) := by
  unfold reduceZeroFactor?
  refine (Unlimited.of_peek _).bind fun view => ?_
  split
  · refine (Unlimited.of_peek _).bind fun exponent => ?_
    grind
  · exact .of_pure _

/-- Reducing a product that is compared with zero. -/
@[grind .]
theorem reduceZeroPower?_unlimited (relation : Relation) (a b : TermId) :
    Unlimited (reduceZeroPower? relation a b) := by
  unfold reduceZeroPower?
  refine (Unlimited.of_peek _).bind fun zeroLeft => ?_
  refine (Unlimited.of_peek _).bind fun zeroRight => ?_
  split
  · exact .of_pure _
  · refine (Unlimited.of_peek _).bind fun factors => ?_
    split
    · exact .of_pure _
    · refine (Unlimited.of_peek _).bind fun isInt => ?_
      refine (Unlimited.mapM (reduceZeroFactor?_unlimited relation) _).bind fun reduced => ?_
      grind

/-- Reading integer factors. -/
@[grind .]
theorem stripFactors_unlimited (factors ints : List TermId) (found : Bool) :
    Unlimited (stripFactors factors ints found) := by
  induction factors generalizing ints found with
  | nil => exact .of_pure _
  | cons f rest others =>
    unfold stripFactors
    grind

/-- Reading integer summands. -/
@[grind .]
theorem stripSummands_unlimited (summands ints : List TermId) (found : Bool) :
    Unlimited (stripSummands summands ints found) := by
  induction summands generalizing ints found with
  | nil => exact .of_pure _
  | cons t rest others =>
    unfold stripSummands
    grind

/-- Reading the integer term of a real term. -/
@[grind .]
theorem stripToReal?_unlimited (t : TermId) : Unlimited (stripToReal? t) := by
  unfold stripToReal?
  grind

/-- Reading the integer terms of a comparison. -/
@[grind .]
theorem stripSides?_unlimited (a b : TermId) : Unlimited (stripSides? a b) := by
  unfold stripSides?
  refine .read_bind (fun _ _ => rfl) fun config => ?_
  grind

/-- Building the comparison in the end. -/
@[grind .]
theorem finishComparison_unlimited (t : TermId) (relation : Relation) (a b : TermId) :
    Unlimited (finishComparison t relation a b) := by
  unfold finishComparison
  refine (mkComparison_unlimited _ _ _).bind fun r => ?_
  refine .read_bind (fun _ _ => rfl) fun config => ?_
  grind

/-- The rule for bounds on a power product. -/
@[grind .]
theorem reduceBound_unlimited (t : TermId) (relation : Relation) (m : Monomial) (bound : Rat)
    (isInt : Bool) : Unlimited (reduceBound t relation m bound isInt) := by
  unfold reduceBound
  grind

/-- Building the comparison of a balance. -/
@[grind .]
theorem mkBalance_unlimited (t : TermId) (b : Balance) (isInt : Bool) :
    Unlimited (mkBalance t b isInt) := by
  unfold mkBalance
  grind

/-- The rule for comparisons of sums. -/
@[grind .]
theorem reduceBalance_unlimited (t : TermId) (b : Balance) (isInt : Bool) :
    Unlimited (reduceBalance t b isInt) := by
  unfold reduceBalance
  split
  · exact decided_unlimited _
  · exact reduceBound_unlimited _ _ _ _ _
  · refine .read_bind (fun _ _ => rfl) fun config => ?_
    grind

/-- The rule for comparisons. -/
@[grind .]
theorem reduceComparison_unlimited (t : TermId) (relation : Relation) (a b : TermId) :
    Unlimited (reduceComparison t relation a b) := by
  unfold reduceComparison
  refine (numeralValue?_unlimited _).bind fun left => ?_
  refine (numeralValue?_unlimited _).bind fun right => ?_
  split
  · grind
  · refine (reduceZeroPower?_unlimited _ _ _).bind fun found => ?_
    split
    · exact .of_pure _
    · refine (stripSides?_unlimited _ _).bind fun sides => ?_
      split
      · grind
      · refine (Unlimited.of_peek _).bind fun isInt => ?_
        refine .read_bind (fun _ _ => rfl) fun config => ?_
        grind

/-- Building a sum of square roots. -/
@[grind .]
theorem mkSurdSum?_unlimited (v : SurdSum) : Unlimited (mkSurdSum? v) := by
  unfold mkSurdSum?
  split
  · grind
  · grind
  · refine .read_bind (fun _ _ => rfl) fun config => ?_
    grind

/-- Building a multiple of pi. -/
@[grind .]
theorem mkPiTimes_unlimited (k : Rat) : Unlimited (mkPiTimes k) := by
  unfold mkPiTimes
  grind

/-- Building a negated term. -/
@[grind .]
theorem mkNegated_unlimited (t : TermId) : Unlimited (mkNegated t) := by
  unfold mkNegated
  grind

/-- The value of a function at a rational. -/
@[grind .]
theorem atNumeral?_unlimited (f : Op) (v : Rat) : Unlimited (atNumeral? f v) := by
  unfold atNumeral?
  grind

/-- The rule for functions of negative terms. -/
@[grind .]
theorem reduceParity?_unlimited (f : Op) (a : TermId) : Unlimited (reduceParity? f a) := by
  unfold reduceParity?
  split
  · exact .of_pure _
  · refine (Unlimited.of_peek _).bind fun m => ?_
    refine (Unlimited.of_peek _).bind fun literal => ?_
    grind

/-- Dropping a multiple of pi. -/
@[grind .]
theorem dropMultiple?_unlimited (f : Op) (c : Rat) (rest : List TermId) :
    Unlimited (dropMultiple? f c rest) := by
  unfold dropMultiple?
  grind

/-- Dropping the first multiple of the period. -/
@[grind .]
theorem shiftFrom_unlimited (f : Op) (before summands : List TermId) :
    Unlimited (shiftFrom f before summands) := by
  induction summands generalizing before with
  | nil =>
    unfold shiftFrom
    exact .of_pure _
  | cons x after others =>
    unfold shiftFrom
    refine (Unlimited.of_peek _).bind fun multiple => ?_
    split
    · grind
    · refine (Unlimited.of_peek _).bind fun multiple => ?_
      grind

/-- The rule for functions of sums. -/
@[grind .]
theorem shiftPeriod?_unlimited (f : Op) (a : TermId) : Unlimited (shiftPeriod? f a) := by
  unfold shiftPeriod?
  grind

/-- The rule for functions of multiples of pi. -/
@[grind .]
theorem reduceAtPi?_unlimited (f : Op) (a : TermId) : Unlimited (reduceAtPi? f a) := by
  unfold reduceAtPi?
  grind

/-- The rule for functions of literals. -/
@[grind .]
theorem reduceAtNumeral?_unlimited (f : Op) (a : TermId) : Unlimited (reduceAtNumeral? f a) := by
  unfold reduceAtNumeral?
  grind

/-- The rule for functions of their inverses. -/
@[grind .]
theorem reduceInverse?_unlimited (f : Op) (a : TermId) : Unlimited (reduceInverse? f a) := by
  exact .of_peek _

/-- The rule for tangents as quotients. -/
@[grind .]
theorem expandTangent?_unlimited (f : Op) (a : TermId) : Unlimited (expandTangent? f a) := by
  unfold expandTangent?
  refine .read_bind (fun _ _ => rfl) fun config => ?_
  grind

/-- The first outcome of several attempts. -/
theorem firstOutcome_unlimited {attempts : List (Rule (Option Outcome))}
    (each : ∀ attempt ∈ attempts, Unlimited attempt) : Unlimited (firstOutcome attempts) := by
  induction attempts with
  | nil => exact .of_pure _
  | cons attempt rest others =>
    have later : Unlimited (firstOutcome rest) :=
      others fun attempt member => each attempt (List.mem_cons_of_mem _ member)
    refine (each attempt (List.mem_cons_self ..)).bind fun found => ?_
    cases found with
    | some outcome => exact .of_pure _
    | none => exact later

/-- The rule for circular and hyperbolic functions. -/
@[grind .]
theorem reduceFunction_unlimited (f : Op) (a : TermId) : Unlimited (reduceFunction f a) := by
  apply firstOutcome_unlimited
  grind

/-- The rule for the head of a term. -/
@[grind .]
theorem reduceHead_unlimited (t : TermId) : Unlimited (reduceHead t) := by
  unfold reduceHead
  grind

/-- The rules for numbers. -/
@[grind .]
theorem reduce_unlimited (t : TermId) : Unlimited (reduce t) := by
  unfold reduce
  grind

end Arithmetic

namespace BitVector

/-- Building a computed literal. -/
@[grind .]
theorem fold_unlimited (value : Int) (width : Nat) : Unlimited (fold value width) := by
  unfold fold
  grind

/-- Building a computed comparison. -/
@[grind .]
theorem foldBool_unlimited (answer : Bool) : Unlimited (foldBool answer) := by
  unfold foldBool
  grind

/-- The rule for operators on literals. -/
@[grind .]
theorem foldBinary_unlimited (op : Op) (a b width : Nat) : Unlimited (foldBinary op a b width) := by
  unfold foldBinary
  grind

/-- The rule for neutral and absorbing literals. -/
@[grind .]
theorem simplifyBinary_unlimited (op : Op) (a b : TermId) (va vb : Option Nat) :
    Unlimited (simplifyBinary op a b va vb) := by
  unfold simplifyBinary
  grind

/-- The rule for binary operators. -/
@[grind .]
theorem reduceBinary_unlimited (op : Op) (a b : TermId) : Unlimited (reduceBinary op a b) := by
  unfold reduceBinary
  grind

/-- The rule for parts of bit-vectors. -/
@[grind .]
theorem reduceExtract_unlimited (high low : Nat) (a : TermId) :
    Unlimited (reduceExtract high low a) := by
  unfold reduceExtract
  grind

/-- The rule for operators that undo themselves. -/
@[grind .]
theorem reduceInvolution_unlimited (op : Op) (a : TermId) (value : Nat → Nat → Int) :
    Unlimited (reduceInvolution op a value) := by
  unfold reduceInvolution
  grind

/-- The rules for bit-vectors. -/
@[grind .]
theorem reduce_unlimited (t : TermId) : Unlimited (reduce t) := by
  unfold reduce
  grind

end BitVector

namespace Connective

/-- The rule for conjunctions and disjunctions. -/
@[grind .]
theorem reduceJunction_unlimited (isAnd : Bool) (args : List TermId) :
    Unlimited (reduceJunction isAnd args) := by
  unfold reduceJunction
  refine .read_bind (fun _ _ => rfl) fun config => ?_
  grind

/-- The rule for conjunctions. -/
@[grind .]
theorem reduceAnd_unlimited (t : TermId) (args : List TermId) : Unlimited (reduceAnd t args) := by
  unfold reduceAnd
  refine (reduceJunction_unlimited _ _).bind fun outcome => ?_
  refine .read_bind (fun _ _ => rfl) fun config => ?_
  grind

/-- The rule for negations of booleans. -/
@[grind .]
theorem reduceNot_unlimited (a : TermId) : Unlimited (reduceNot a) := by
  exact .of_peek _

/-- The rule for case distinctions between booleans. -/
@[grind .]
theorem reduceBoolIte_unlimited (c a b : TermId) : Unlimited (reduceBoolIte c a b) := by
  unfold reduceBoolIte
  grind

/-- The rule for case distinctions. -/
@[grind .]
theorem reduceIte_unlimited (c a b : TermId) : Unlimited (reduceIte c a b) := by
  unfold reduceIte
  grind

/-- The rule for equality of booleans. -/
@[grind .]
theorem reduceIff_unlimited (a b : TermId) : Unlimited (reduceIff a b) := by
  unfold reduceIff
  grind

/-- The rule for equality. -/
@[grind .]
theorem reduceEq_unlimited (a b : TermId) : Unlimited (reduceEq a b) := by
  unfold reduceEq
  grind

/-- The rule for pairwise difference. -/
@[grind .]
theorem reduceDistinct_unlimited (args : List TermId) : Unlimited (reduceDistinct args) := by
  unfold reduceDistinct
  grind

/-- The rules for connectives. -/
@[grind .]
theorem reduce_unlimited (t : TermId) : Unlimited (reduce t) := by
  unfold reduce
  grind

end Connective

namespace Rewriting

/-- The first family of rules that applies. -/
theorem reduceBy_unlimited {families : List (TermId → Rule Outcome)}
    (each : ∀ family ∈ families, ∀ t, Unlimited (family t)) (t : TermId) :
    Unlimited (reduceBy families t) := by
  induction families with
  | nil => exact .of_pure _
  | cons family rest others =>
    have later : Unlimited (reduceBy rest t) :=
      others fun family member => each family (List.mem_cons_of_mem _ member)
    refine (each family (List.mem_cons_self ..) t).bind fun outcome => ?_
    split
    · exact later
    · exact .of_pure _

/-- No rule of the simplifier looks at the limit on steps. -/
theorem reduce_unlimited (t : TermId) : Unlimited (reduce t) := by
  apply reduceBy_unlimited
  simp only [List.mem_cons, List.not_mem_nil, or_false]
  rintro family (rfl | rfl | rfl) t
  · exact Connective.reduce_unlimited t
  · exact Arithmetic.reduce_unlimited t
  · exact BitVector.reduce_unlimited t

end Rewriting
end Stratagem
