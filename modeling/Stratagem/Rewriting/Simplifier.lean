import Stratagem.Budget
import Stratagem.Proof
import Stratagem.Rewriting.Arithmetic
import Stratagem.Rewriting.BitVector
import Stratagem.Rewriting.Connective

/-!
# The simplifier

Terms are rewritten from the leaves up: the arguments first, then the rules for the head, and the
result again as far down as its rule asks for. Complete rewritings are remembered. Every visit of
a term that is not remembered is a step; steps are limited, and the circumstances are checked at
each.
-/
namespace Stratagem

/-- A simplifier: its configuration, what it remembers and what it counts. -/
structure Simplifier where
  /-- Choices of the rules. -/
  config : SimplifierConfig := {}
  /-- Terms rewritten completely, with their results. -/
  memo : Substitution := ∅
  /-- Steps of the last rewriting. -/
  steps : Nat := 0
  /-- Terms visited, the remembered ones included. -/
  visited : Nat := 0
  /-- Rules that applied. -/
  rewritten : Nat := 0
  /-- Terms found remembered. -/
  hits : Nat := 0
  /-- Counts of the rules. -/
  tally : RuleTally := {}

/-- A computation of a simplifier, which may fail and then keeps what it has done. -/
abbrev Rewriting := Attempt Simplifier

namespace Simplifier

/-- Forget all results. -/
def reset (r : Simplifier) : Simplifier := { r with memo := ∅, steps := 0 }

/-- A new simplifier of the same configuration. -/
def fresh (r : Simplifier) : Simplifier := { config := r.config }

end Simplifier

namespace Rewriting

/-- Run a rule. -/
def runRule {α : Type} (rule : Rule α) : StateT Simplifier Terms α := do
  let r ← get
  let (a, tally) ← (rule.run r.config).run r.tally
  modify fun r => { r with tally }
  return a

/-- The outcome of the first family of rules that applies. -/
def reduceBy : List (TermId → Rule Outcome) → TermId → Rule Outcome
  | [], _ => return .failed
  | family :: rest, t => do
    let outcome ← family t
    if outcome.isFailed then reduceBy rest t else return outcome

/-- The outcome of the rules for connectives, numbers and bit-vectors. -/
def reduce : TermId → Rule Outcome :=
  reduceBy [Connective.reduce, Arithmetic.reduce, BitVector.reduce]

/-- Count a step: fail if there are too many, or if the circumstances ask for it. -/
def step (context : Context) (limit : Nat) : Rewriting Unit := do
  modify fun r => { r with steps := r.steps + 1 }
  if limit < (← get).steps then throw (.stepsExceeded limit) else Attempt.check context

/-- Fail if a term is not in the store. -/
def known (t : TermId) : Rewriting Unit := do
  if (← readThe Store).size ≤ t then throw (.internal s!"unknown term id {t}") else return ()

/-- The depth that is left below a term. -/
def below : Option Nat → Option Nat
  | some depth => some (depth - 1)
  | none => none

/-- The remembered result of a complete rewriting. -/
def remembered (depth : Option Nat) (t : TermId) : Rewriting (Option TermId) := do
  if depth.isNone then return (← get).memo[t]? else return none

/-- Count a rule that applied. -/
def countRule (outcome : Outcome) : Rewriting Unit :=
  if outcome.isFailed then return ()
  else modify fun r => { r with rewritten := r.rewritten + 1 }

/-- Remember the result of a complete rewriting. -/
def remember (depth : Option Nat) (t result : TermId) : Rewriting Unit :=
  if depth.isNone then modify fun r => { r with memo := r.memo.insert t result } else return ()

/-- Simplify a term given how to visit its arguments and the result of a rule: the arguments
first, then the rules for the head. -/
def rewriteWith (visit : Option Nat → TermId → Rewriting TermId) (depth : Option Nat) (t : TermId) :
    Rewriting TermId := do
  let args := (← readThe Store).args t
  let args ← args.mapM (visit (below depth))
  let t' ← (Terms.rebuild t args : Terms TermId)
  let outcome ← (runRule (reduce t') : StateT Simplifier Terms Outcome)
  countRule outcome
  match outcome with
  | .failed => return t'
  | .done r => return r
  | .revisit again r => visit (some again) r
  | .revisitAll r => visit none r

/-- Simplify a term down to a depth, or completely. Every level of the recursion that does work
takes a step, so one more than the number of allowed steps bounds the levels. -/
def visit (context : Context) (limit : Nat) : Nat → Option Nat → TermId → Rewriting TermId
  | 0, _, _ => throw (.stepsExceeded limit)
  | fuel + 1, depth, t => do
    if depth = some 0 then return t
    else
      modify fun r => { r with visited := r.visited + 1 }
      match ← remembered depth t with
      | some result =>
        modify fun r => { r with hits := r.hits + 1 }
        return result
      | none =>
        step context limit
        known t
        let result ← rewriteWith (visit context limit fuel) depth t
        remember depth t result
        return result

/-- Simplify a term completely with at most a number of steps. -/
def simplifyWithin (context : Context) (limit : Nat) (t : TermId) : Rewriting TermId := do
  modify fun r => { r with steps := 0 }
  visit context limit (limit + 1) none t

/-- Simplify a term completely, limited only by the configuration. -/
def simplify (t : TermId) : Rewriting TermId := do
  simplifyWithin .unbounded (← get).config.maxSteps t

/-- The steps allowed by limits and configuration. -/
def stepLimit (limits : Limits) (config : SimplifierConfig) : Nat :=
  match limits.maxSteps with
  | some n => Nat.min n config.maxSteps
  | none => config.maxSteps

/-- Simplify a term completely in given circumstances. -/
def simplifyIn (context : Context) (t : TermId) : Rewriting TermId := do
  simplifyWithin context (stepLimit context.limits (← get).config) t

/-- Simplify a term, with a proof of the equation of the term and the result if they differ. -/
def simplifyWithProof (context : Context) (t : TermId) : Rewriting (TermId × Option Proof) := do
  let result ← simplifyIn context t
  if result = t then return (result, none)
  else
    let proof ← (Proof.rewriting t result : Terms Proof)
    return (result, some proof)

end Rewriting

/-- The normal form of a term under the default configuration. -/
def Terms.simplify (t : TermId) : Terms (Except Error TermId) := do
  let (result, _) ← Attempt.runFrom (Rewriting.simplify t) {}
  return result

end Stratagem
