import Stratagem.BitBlast.Blaster
import Stratagem.Tactic.Result

/-!
# Bit-blasting of goals

The tactic that encodes the bit-vector atoms of a goal. Constants and applications that stay in
the goal beside their bits are tied to them by equations; a model of the result assembles the
constants of their bits and hides the bits.
-/
namespace Stratagem.Blaster

/-- Encode the formula of a slot. -/
def visit (context : Context) (slot : Nat) (e : Entry) (g : Goal) : Attempt Blaster Goal := do
  Attempt.check context
  let encoding ← formula context (e.formula + 1) e.formula
  if encoding = e.formula then return g
  else
    let (f, proof) ← Attempt.build (Goal.derive .bitBlast e.proof encoding)
    Attempt.build (g.update slot ⟨f, proof, e.deps⟩)

/-- The terms that stay in the goal beside their bits: the constants of kept atoms, and all
applications. -/
def linked (w : BlastWork) : List (TermId × Bits) :=
  w.constants.toList.filter (fun (c, _) => w.kept.contains c) ++ w.applications.toList

/-- Assert the equations that tie terms to their bits. -/
def assertLinks (g : Goal) : List (TermId × Bits) → Terms Goal
  | [] => return g
  | (t, bits) :: rest => do
    match ← Circuit.link? t bits with
    | some link =>
      let proof ← if g.proofs then some <$> Proof.make .bitBlast [] link else pure none
      assertLinks (← g.assertEntry ⟨link, proof, none⟩) rest
    | none => assertLinks g rest

/-- How a model of the encoded goal becomes a model of the goal. -/
def converter (w : BlastWork) : ModelConverter :=
  let assembled : ModelConverter :=
    if w.constants.isEmpty then .identity else .bits w.constants.toList
  let hidden := w.applications.toList.flatMap (·.2)
  assembled.andThen (if hidden.isEmpty then .identity else .filter hidden)

/-- Forget the working state of earlier runs. -/
def cleanup (b : Blaster) : Blaster := { b with work := {} }

/-- Encode the bit-vector atoms of a goal. -/
def run (context : Context) (g : Goal) : Attempt Blaster TacticResult := do
  if g.proofs && (← get).config.quantified then
    throw (.unsupported "quantified variable blasting does not support proof generation")
  modify cleanup
  let g ← Goal.visitFrom (visit context) g.size 0 g
  let g ← Attempt.build g.elimRedundancies
  let work := (← get).work
  let g ← if g.inconsistent then pure g else Attempt.build (assertLinks g (linked work))
  modify fun b => cleanup { b with stats := { b.stats with steps := work.steps } }
  return { goals := [g.deeper], models := if g.models then converter work else .identity }

end Stratagem.Blaster
