import Stratagem.Tactic.Result

/-!
# Simplification

The tactic that simplifies every formula of a goal in its place.
-/
namespace Stratagem.Simplify

/-- The rewritten formula of an entry, with its proof if the goal keeps proofs. -/
def simplifyEntry (context : Context) (g : Goal) (e : Entry) : Rewriting Entry := do
  if g.proofs then
    let (f, equation) ← Rewriting.simplifyWithProof context e.formula
    match e.proof, equation with
    | some p, some q =>
      return ⟨f, some (← Attempt.build (Proof.make .modusPonens [p, q] f)), e.deps⟩
    | proof, _ => return ⟨f, proof, e.deps⟩
  else return ⟨← Rewriting.simplifyIn context e.formula, none, e.deps⟩

/-- Simplify the formula of a slot. -/
def visit (context : Context) (slot : Nat) (e : Entry) (g : Goal) : Rewriting Goal := do
  let rewritten ← simplifyEntry context g e
  let g ← if rewritten.formula = e.formula then pure g
    else Attempt.build (g.update slot rewritten)
  Attempt.check context
  return g

/-- Simplify every formula and drop what became redundant. -/
def simplifyAll (context : Context) (g : Goal) : Rewriting Goal := do
  let g ← g.visitAll (visit context)
  Attempt.build g.elimRedundancies

/-- Simplify a goal. -/
def run (context : Context) (g : Goal) : Rewriting TacticResult := do
  modify Simplifier.reset
  let g ← if g.inconsistent then pure g else simplifyAll context g
  return .single g.deeper

end Stratagem.Simplify
