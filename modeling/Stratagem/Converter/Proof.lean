import Stratagem.Budget
import Stratagem.Proof

/-!
# Proof converters

A tactic that turns a goal into subgoals says how refutations of all subgoals become a refutation
of the goal. After a case split on a clause, the case of each literal is refuted under the literal
as a hypothesis; discharging it proves the negated literal, and the negated literals together
contradict the clause.
-/
namespace Stratagem

/-- How refutations of the subgoals become a refutation of the goal. -/
inductive ProofConverter where
  /-- The refutation of the only subgoal is one of the goal. -/
  | identity
  /-- The goal was split on the members of a clause with this proof. -/
  | splitClause (clause : TermId) (proof : Proof)
  /-- The converter of a tactic, and those of the tactic that ran on each of its subgoals with the
  numbers of subgoals it made. -/
  | concat (parent : ProofConverter) (children : List ProofConverter) (counts : List Nat)

namespace ProofConverter

/-- Whether the converter passes on the refutation of one subgoal. -/
def isIdentity : ProofConverter → Bool
  | identity => true
  | _ => false

/-- The composition of the converter of a tactic with those of the tactic that ran on each of its
subgoals. -/
def ofBranches (parent : ProofConverter) (children : List ProofConverter) (counts : List Nat) :
    ProofConverter :=
  if parent.isIdentity then
    match children with
    | [child] => child
    | children => if children.all isIdentity then identity else concat parent children counts
  else concat parent children counts

/-- The lemmas that refute the literals of a clause, from their refutations as hypotheses. -/
def lemmas : List TermId → List Proof → Terms (List Proof)
  | l :: literals, p :: proofs => do
    let conclusion ← Terms.mkNot l
    let first ← Proof.discharge p conclusion
    return first :: (← lemmas literals proofs)
  | _, _ => return []

/-- Refute a clause by refuting each of its literals. -/
def resolve (clause : TermId) (proof : Proof) (proofs : List Proof) :
    Terms (Except Error Proof) := do
  match (← read).view clause with
  | (.or, literals) =>
    if literals.length = proofs.length then
      let premises ← lemmas literals proofs
      return .ok (← Proof.make .unitResolution (proof :: premises) Store.falseId)
    else
      let expected := literals.length
      let found := proofs.length
      return .error (.internal s!"expected {expected} proofs, got {found}")
  | _ => return .error (.internal "split clause is not a disjunction")

mutual

/-- Combine refutations of the subgoals into a refutation of the goal. -/
def apply : ProofConverter → List Proof → Terms (Except Error Proof)
  | identity, [p] => return .ok p
  | identity, _ => return .error (.internal "missing proof converter for split subgoal")
  | splitClause clause proof, proofs => resolve clause proof proofs
  | concat parent children counts, proofs => do
    match ← applyGroups children counts proofs with
    | .error e => return .error e
    | .ok combined =>
      if parent.isIdentity && combined.length != 1 then
        return .error (.internal "missing proof converter for split goal")
      else apply parent combined

/-- Combine consecutive groups of refutations, each by its own converter. -/
def applyGroups :
    List ProofConverter → List Nat → List Proof → Terms (Except Error (List Proof))
  | child :: children, count :: counts, proofs => do
    if proofs.length < count then return .error (.internal "too few subgoal proofs")
    else
      match ← apply child (proofs.take count) with
      | .error e => return .error e
      | .ok p =>
        match ← applyGroups children counts (proofs.drop count) with
        | .error e => return .error e
        | .ok rest => return .ok (p :: rest)
  | _, _, _ => return .ok []

end

end ProofConverter
end Stratagem
