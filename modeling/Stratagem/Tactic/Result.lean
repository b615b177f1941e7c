import Stratagem.Converter.Model
import Stratagem.Converter.Proof
import Stratagem.Goal

/-!
# Results of tactics

A tactic answers with subgoals, with converters that bring models and refutations of the subgoals
back to the goal, and with the tracked assumptions that it used up. Here is how the result of a
tactic on a goal and the results of another one on its subgoals become one result.
-/
namespace Stratagem

/-- What a tactic made of a goal. -/
structure TacticResult where
  /-- Subgoals in order. -/
  goals : List Goal := []
  /-- How a model of a subgoal becomes a model of the goal. -/
  models : ModelConverter := .identity
  /-- How refutations of the subgoals become a refutation of the goal. -/
  proofs : ProofConverter := .identity
  /-- Tracked assumptions used up by what the tactic closed. -/
  core : Option DependencySet := none

namespace TacticResult

/-- One subgoal and nothing to convert. -/
def single (g : Goal) : TacticResult := { goals := [g] }

/-- Whether the goal is satisfiable: there is no subgoal, or a single satisfied one. -/
def isDecidedSat (r : TacticResult) : Bool :=
  match r.goals with
  | [] => true
  | [g] => g.isDecidedSat
  | _ => false

/-- Whether the goal is refuted: there is a single refuted subgoal. -/
def isDecidedUnsat (r : TacticResult) : Bool :=
  match r.goals with
  | [g] => g.isDecidedUnsat
  | _ => false

/-- The number of formulas in all subgoals. -/
def totalSize (r : TacticResult) : Nat := r.goals.foldl (fun total g => total + g.size) 0

/-- The satisfied subgoal of a result that decides its goal so: the goal without its formulas if
no subgoal is left. -/
def satisfied? (r : TacticResult) (goal : Goal) : Option Goal :=
  if r.isDecidedSat then some (r.goals.head?.getD goal.cleared) else none

/-- The core of a result and of results on its subgoals. -/
def joinedCore (first : TacticResult) (rest : List TacticResult) : Option DependencySet :=
  rest.foldl (fun core r => DependencySet.join core r.core) first.core

/-- The converter branches of results on the subgoals from a position on. -/
def branches (position : Nat) : List TacticResult → List (Branch ModelConverter)
  | [] => []
  | r :: rest => ⟨position, r.models, r.goals.length⟩ :: branches (position + 1) rest

/-- The result of a tactic that left one subgoal, and of another one on that subgoal. -/
def after (first next : TacticResult) : TacticResult where
  goals := next.goals
  models := first.models.andThen next.models
  proofs := .ofBranches first.proofs [next.proofs] [next.goals.length]
  core := DependencySet.join first.core next.core

/-- The result of a tactic one of whose subgoals, at a position, another tactic satisfied. -/
def satisfiedAt (first : TacticResult) (results : List TacticResult) (position : Nat)
    (converter : ModelConverter) (goal : Goal) : TacticResult where
  goals := [goal]
  models := .ofBranches first.models [⟨position, converter, 1⟩]
  core := first.joinedCore results

/-- The refutation of a goal by the refutations of all its subgoals: present if the goals keep
proofs and there is a converter. -/
def combinedRefutation (converter : ProofConverter) (template : Goal) (goals : List Goal) :
    Terms (Except Error (Option Proof)) := do
  match goals.mapM Goal.refutation? with
  | some proofs =>
    if template.proofs && !converter.isIdentity then return (← converter.apply proofs).map some
    else return .ok none
  | none => return .ok none

/-- The single refuted goal that subgoals which are all refuted come down to. -/
def collapsed (converter : ProofConverter) (template : Goal) (goals : List Goal) :
    Terms (Except Error Goal) := do
  match ← combinedRefutation converter template goals with
  | .error e => return .error e
  | .ok proof =>
    let deps := goals.foldl (fun deps g => DependencySet.join deps g.allDeps) none
    return .ok (← template.cleared.assertEntry ⟨Store.falseId, proof, deps⟩)

/-- The result of a tactic with several subgoals, and of another one on all of them. -/
def afterAll (first : TacticResult) (results : List TacticResult) :
    Terms (Except Error TacticResult) := do
  let goals := results.flatMap (·.goals)
  let core := first.joinedCore results
  let proofs : ProofConverter :=
    .ofBranches first.proofs (results.map (·.proofs)) (results.map (·.goals.length))
  let models : ModelConverter := .ofBranches first.models (branches 0 results)
  match goals with
  | template :: _ =>
    if goals.all Goal.isDecidedUnsat then
      return (← collapsed proofs template goals).map fun g => { single g with core }
    else return .ok { goals, models, proofs, core }
  | [] => return .ok { goals, models, proofs, core }

variable {σ : Type}

/-- Run a tactic on subgoals from a position on, until it satisfies one: the results, and the
position, converter and goal of the satisfied one. -/
def results (context : Context) (next : Goal → Attempt σ TacticResult) :
    Nat → List Goal → Attempt σ (List TacticResult × Option (Nat × ModelConverter × Goal))
  | _, [] => return ([], none)
  | position, goal :: rest => do
    Attempt.check context
    let r ← next goal
    match r.satisfied? goal with
    | some g => return ([r], some (position, r.models, g))
    | none =>
      let (others, satisfied) ← results context next (position + 1) rest
      return (r :: others, satisfied)

/-- Run a tactic on every subgoal of a result. A satisfied subgoal becomes the only one, and
subgoals that are all refuted become one refuted goal. -/
def sequence (context : Context) (first : TacticResult) (next : Goal → Attempt σ TacticResult) :
    Attempt σ TacticResult := do
  match first.goals with
  | [] => return first
  | [goal] => return first.after (← next goal)
  | goals =>
    let (results, satisfied) ← results context next 0 goals
    match satisfied with
    | some (position, converter, goal) =>
      return first.satisfiedAt results position converter goal
    | none => Attempt.ofExcept (← Attempt.build (first.afterAll results))

end TacticResult
end Stratagem
