import Stratagem.Rewriting.Config
import Stratagem.Term.Traversal

/-!
# Rules

A rule looks at one application whose arguments are in normal form and says what becomes of it.
Rules build terms, read the configuration and count what they do.
-/
namespace Stratagem

/-- What a rule makes of a term. -/
inductive Outcome where
  /-- No rule applies. -/
  | failed
  /-- The result, in normal form. -/
  | done (result : TermId)
  /-- The result, to be revisited down to a depth. -/
  | revisit (depth : Nat) (result : TermId)
  /-- The result, to be revisited completely. -/
  | revisitAll (result : TermId)
  deriving DecidableEq, Repr

namespace Outcome

/-- The result, if a rule applied. -/
def result? : Outcome → Option TermId
  | failed => none
  | done t | revisit _ t | revisitAll t => some t

/-- Whether no rule applied. -/
def isFailed (o : Outcome) : Bool := o.result?.isNone

end Outcome

/-- Counts of what the rules did. -/
structure RuleTally where
  /-- Arithmetic rules that applied. -/
  reductions : Nat := 0
  /-- Comparisons decided. -/
  comparisonsDecided : Nat := 0
  /-- Comparisons tightened by a common divisor. -/
  gcdRoundings : Nat := 0
  /-- Operations given up because of the degree of an irrational number. -/
  degreeCapHits : Nat := 0
  /-- Bit-vector operations on literals. -/
  folded : Nat := 0
  deriving DecidableEq, Repr

/-- A computation of a rule. -/
abbrev Rule := ReaderT SimplifierConfig (StateT RuleTally Terms)

namespace Rule

/-- Look at the store. -/
def peek {α : Type} (f : Store → α) : Rule α := do
  return f (← readThe Store)

/-- The value of a literal; irrational ones count only if computing with them is enabled. -/
def numeralValue? (t : TermId) : Rule (Option Numeral) := do
  let config ← read
  peek fun s =>
    match s.exactNumeral? t with
    | some (.rational r) => some (.rational r)
    | some (.irrational a) => if config.algebraicNumberEvaluator then some (.irrational a) else none
    | none => none

/-- The outcome of a computation on numerals within the largest degree. -/
def compute {α : Type} (work : Algebraic.Compute α) : Rule (Except AlgebraicError α) := do
  return (work.run { maxDegree := (← read).maxDegree.toNat } {}).1

/-- The result of a computation on numerals; a degree that is too high is counted. -/
def evaluate? {α : Type} (work : Algebraic.Compute α) : Rule (Option α) := do
  match ← compute work with
  | .ok a => return some a
  | .error (.degreeExceeded ..) =>
    modify fun t => { t with degreeCapHits := t.degreeCapHits + 1 }
    return none
  | .error _ => return none

/-- A literal: of the integer sort if that is asked for and the value is an integer. -/
def mkNumber (n : Numeral) (isInt : Bool) : Rule TermId :=
  match n with
  | .rational r => Terms.mkNumeral r isInt
  | .irrational a => Terms.mkRealNumeral (.irrational a)

/-- A comparison with a known answer. -/
def decided (answer : Bool) : Rule Outcome := do
  modify fun t => { t with comparisonsDecided := t.comparisonsDecided + 1 }
  return .done (Terms.ofBool answer)

end Rule
end Stratagem
