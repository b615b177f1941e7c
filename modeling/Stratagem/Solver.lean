import Stratagem.Tactic.Apply

/-!
# Solvers

A solver collects assertions in nested scopes and decides their conjunction by one run of a
tactic. No subgoal, or a single satisfied one, means satisfiable; a single refuted one means
unsatisfiable; anything else, and every failure, leaves the answer unknown.
-/
namespace Stratagem

/-- The answer of a solver. -/
inductive Verdict where
  | sat
  | unsat
  | unknown
  deriving DecidableEq, Repr

/-- The text of an answer. -/
def Verdict.text : Verdict → String
  | sat => "sat"
  | unsat => "unsat"
  | unknown => "unknown"

/-- What a solver is to produce, and its limits. -/
structure SolverConfig where
  /-- Give a model of satisfiable assertions. -/
  models : Bool := true
  /-- Give a refutation of unsatisfiable assertions. -/
  proofs : Bool := false
  /-- Give the tracked assertions that a refutation uses. -/
  cores : Bool := false
  /-- Time budget of a check in milliseconds. -/
  timeout : Option Nat := none
  /-- Limits on memory and steps. -/
  limits : Limits := {}
  deriving DecidableEq, Repr

/-- The answer to the last check, with what it rests on. -/
structure Answer where
  /-- Model of satisfiable assertions. -/
  model : Option Model := none
  /-- Refutation of unsatisfiable assertions. -/
  proof : Option Proof := none
  /-- Tracked assertions that the refutation uses. -/
  core : List TermId := []
  /-- Why the answer is unknown. -/
  reason : Option String := none

/-- A solver. -/
structure Solver where
  /-- Tactic that decides the assertions. -/
  tactic : Tactic
  /-- What to produce. -/
  config : SolverConfig := {}
  /-- Assertions in order, with whether they are tracked. -/
  assertions : List (TermId × Bool) := []
  /-- Numbers of assertions at the openings of the scopes, the innermost first. -/
  scopes : List Nat := []
  /-- Whether cancellation was requested. -/
  canceled : Bool := false
  /-- Answer to the last check. -/
  answer : Answer := {}

namespace Solver

/-- Replace the configuration; it may not ask for proofs and cores at once. -/
def configure (v : Solver) (config : SolverConfig) : Except Error Solver := do
  let _ ← Goal.new config.models config.proofs config.cores
  return { v with config }

/-- Add an assertion. -/
def assert (v : Solver) (f : TermId) : Solver :=
  { v with assertions := v.assertions ++ [(f, false)] }

/-- Add a tracked assertion. -/
def track (v : Solver) (f : TermId) : Solver :=
  { v with assertions := v.assertions ++ [(f, true)] }

/-- Open a scope. -/
def push (v : Solver) : Solver := { v with scopes := v.assertions.length :: v.scopes }

/-- Close the innermost scope and drop its assertions. -/
def pop (v : Solver) : Solver :=
  match v.scopes with
  | count :: scopes => { v with assertions := v.assertions.take count, scopes }
  | [] => v

/-- Drop all assertions, scopes and answers. -/
def reset (v : Solver) : Solver :=
  { v with assertions := [], scopes := [], answer := {}, tactic := v.tactic.cleanup }

/-- Assert formulas in a goal, each tracked or not. -/
def assertAll (g : Goal) : List (TermId × Bool) → Terms Goal
  | [] => return g
  | (f, tracked) :: rest => do
    assertAll (← if tracked then g.track f else g.assert f) rest

/-- The unknown answer for a reason. -/
def unknown (reason : String) : Verdict × Answer := (.unknown, { reason := some reason })

/-- The answer of a satisfied goal: its model, if it is asked for. -/
def satisfied (config : SolverConfig) (r : TacticResult) : Terms (Verdict × Answer) := do
  if config.models then
    match ← r.models.convert 0 {} with
    | (.ok (), model) => return (.sat, { model := some model })
    | (.error e, _) => return unknown e.message
  else return (.sat, {})

/-- The refutation of the assertions by that of the only subgoal. -/
def refutation (config : SolverConfig) (r : TacticResult) (g : Goal) :
    Terms (Except Error (Option Proof)) := do
  match g.refutation? with
  | some proof =>
    if !config.proofs then return .ok none
    else if r.proofs.isIdentity then return .ok (some proof)
    else return (← r.proofs.apply [proof]).map some
  | none => return .ok none

/-- The answer of a refuted goal: its refutation and its core. -/
def refuted (config : SolverConfig) (r : TacticResult) (g : Goal) : Terms (Verdict × Answer) := do
  match ← refutation config r g with
  | .error e => return unknown e.message
  | .ok proof =>
    let deps := DependencySet.join r.core (g.entries.head?.bind (·.deps))
    return (.unsat, { proof, core := (deps.map (·.members)).getD [] })

/-- The answer that a result gives. -/
def verdict (config : SolverConfig) (r : TacticResult) : Terms (Verdict × Answer) := do
  match r.goals with
  | [] => satisfied config r
  | [g] =>
    if g.isDecidedSat then satisfied config r
    else if g.isDecidedUnsat then refuted config r g
    else return unknown "incomplete"
  | _ => return unknown "incomplete"

/-- The circumstances of a check. -/
def context (v : Solver) : Context where
  canceled := v.canceled
  limits := v.config.limits
  deadline := v.config.timeout

/-- Decide the conjunction of the assertions. -/
def check (v : Solver) : Terms (Verdict × Solver) := do
  match Goal.new v.config.models v.config.proofs v.config.cores with
  | .error e =>
    let (verdict, answer) := unknown e.message
    return (verdict, { v with answer })
  | .ok empty =>
    let goal ← assertAll empty v.assertions
    let (outcome, tactic) ← v.tactic.apply v.context goal
    match outcome with
    | .ok r =>
      let (verdict, answer) ← verdict v.config r
      return (verdict, { v with tactic, answer })
    | .error e =>
      let (verdict, answer) := unknown e.message
      return (verdict, { v with tactic := tactic.cleanup, answer })

end Solver
end Stratagem
