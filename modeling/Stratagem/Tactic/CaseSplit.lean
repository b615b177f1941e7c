import Stratagem.Parameter
import Stratagem.Tactic.Result

/-!
# Case splits

The tactic that splits a goal on a disjunction: each member takes the place of the disjunction in
a subgoal of its own.
-/
namespace Stratagem.CaseSplit

/-- The parameters of the tactic. -/
def descrs : ParamDescrs := .ofList [
  ("split-largest-clause", .bool false, "split the clause with most literals")]

/-- The position and the members of a disjunction of a goal. -/
abbrev Clause := Nat × List TermId

/-- The disjunctions of a list of formulas, whose positions are counted from a number on. -/
def clauses (s : Store) (position : Nat) : List TermId → List Clause
  | [] => []
  | f :: rest =>
    match s.view f with
    | (.or, members) => (position, members) :: clauses s (position + 1) rest
    | _ => clauses s (position + 1) rest

/-- The larger of two clauses, the first when they have equal size. -/
def larger (best next : Clause) : Clause :=
  if best.2.length < next.2.length then next else best

/-- The clause to split: the first, or the first of the largest. -/
def select? (largest : Bool) (s : Store) (g : Goal) : Option Clause :=
  match clauses s 0 g.formulas with
  | [] => none
  | first :: rest => some (if largest then rest.foldl larger first else first)

/-- Assert all entries. -/
def assertAll (g : Goal) : List Entry → Terms Goal
  | [] => return g
  | e :: rest => do assertAll (← g.assertEntry e) rest

/-- The case of one member of the clause. -/
def case (base : Goal) (deps : Option DependencySet) (member : TermId) : Terms Goal := do
  let proof ← if base.proofs then some <$> Proof.hypothesis member else pure none
  base.assertEntry ⟨member, proof, deps⟩

/-- The cases of the members of the clause. -/
def cases (context : Context) (base : Goal) (deps : Option DependencySet) :
    List TermId → Attempt Unit (List Goal)
  | [] => return []
  | member :: rest => do
    Attempt.check context
    let g ← Attempt.build (case base deps member)
    return g :: (← cases context base deps rest)

/-- Split a goal on a clause. -/
def run (largest : Bool) (context : Context) (g : Goal) : Attempt Unit TacticResult := do
  match select? largest (← readThe Store) g with
  | none =>
    throw (.tacticFailed "split-clause tactic failed, goal does not contain any clause")
  | some (slot, members) =>
    let clause := g.entries[slot]?.getD ⟨Store.trueId, none, none⟩
    let base ← Attempt.build (assertAll g.cleared (g.entries.eraseIdx slot))
    let goals ← cases context base.deeper clause.deps members
    let proofs := match clause.proof with
      | some proof => .splitClause clause.formula proof
      | none => .identity
    return { goals, proofs }

end Stratagem.CaseSplit
