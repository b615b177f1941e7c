import Stratagem.Tactic.Basic

/-!
# Running tactics

Running a tactic on a goal gives its result or the cause of its failure, and the tactic with the
working state that the run leaves. Tactics nest and repeat without a bound of their own, so a run
has a bound on the depth to which it nests; a run that reaches it fails, and a deeper bound does
not change the outcome of one that does not.
-/
namespace Stratagem.Tactic

/-- The outcome of a run and the tactic that it leaves. -/
abbrev Run := Terms (Except Error TacticResult × Tactic)

/-- Run the first of the tactics that does not raise a tactic exception; the last one decides. -/
def firstOf (run : Tactic → Run) :
    List Tactic → Terms (Except Error TacticResult × List Tactic)
  | [] => return (.error (.tacticFailed "or-else has no alternatives"), [])
  | [t] => do
    let (outcome, t) ← run t
    return (outcome, [t])
  | t :: rest => do
    let (outcome, t) ← run t
    match outcome with
    | .ok r => return (.ok r, t :: rest)
    | .error e =>
      if e.isTacticException then
        let (outcome, rest) ← firstOf run rest
        return (outcome, t.cleanup :: rest)
      else return (.error e, t :: rest)

/-- The outcome of a run, unless restoring the parameters failed after it. -/
def restored (outcome : Except Error TacticResult) (restoring : Except Error Unit) :
    Except Error TacticResult := do
  let r ← outcome
  restoring
  return r

/-- Run a tactic with other parameters and set its own again. -/
def runWith (params : Params) (run : Tactic → Run) (inner : Tactic) : Run := do
  match inner.update params with
  | (.error e, inner) => return (.error e, inner)
  | (.ok (), changed) =>
    let (outcome, left) ← run changed
    let (restoring, left) := left.update inner.params
    return (restored outcome restoring, left)

/-- Whether a run left a goal with the formulas it had before. -/
def unchanged (before : List TermId) (r : TacticResult) : Bool :=
  match r.goals with
  | [g] => g.formulas == before
  | _ => false

/-- Whether the repetition of a tactic is over. -/
def finished (limit : Option Nat) (g : Goal) : Bool := g.isDecided || limit == some 0

/-- The error of a run that nests too deeply. -/
def tooDeep : Error := .internal "tactic nested too deeply"

mutual

/-- Run a tactic on a goal, down to a depth of nesting. -/
def applyTo (context : Context) : Nat → Tactic → Goal → Run
  | 0, t, _ => return (.error tooDeep, t)
  | depth + 1, t, goal => do
    match t with
    | simplify name simplifier =>
      let (outcome, simplifier) ← (Simplify.run context goal).runFrom simplifier
      return (outcome, simplify name simplifier)
    | solveEqs solver =>
      let (outcome, solver) ← solver.run context goal
      return (outcome, solveEqs solver)
    | splitClause largest =>
      let (outcome, ()) ← (CaseSplit.run largest context goal).runFrom ()
      return (outcome, t)
    | bitBlast blaster =>
      let (outcome, blaster) ← (Blaster.run context goal).runFrom blaster
      return (outcome, bitBlast blaster)
    | skip => return (.ok (.single goal), t)
    | fail reason => return (.error (.tacticFailed reason), t)
    | failIfUndecided =>
      if goal.isDecided then return (.ok (.single goal), t)
      else return (.error (.tacticFailed "undecided"), t)
    | failIf probe =>
      if probe.holds (← read) goal then return (.error (.tacticFailed "fail-if tactic"), t)
      else return (.ok (.single goal), t)
    | custom _ reply => return (reply goal, t)
    | andThen first second =>
      let (outcome, first) ← applyTo context depth first goal
      match outcome with
      | .error e => return (.error e, andThen first second)
      | .ok r =>
        let next (g : Goal) : Attempt Tactic TacticResult :=
          Attempt.ofRun fun second => applyTo context depth second g
        let (outcome, second) ← (r.sequence context next).runFrom second
        return (outcome, andThen first second)
    | orElse alternatives =>
      let (outcome, alternatives) ← firstOf (fun t => applyTo context depth t goal) alternatives
      return (outcome, orElse alternatives)
    | cond probe yes no =>
      if probe.holds (← read) goal then
        let (outcome, yes) ← applyTo context depth yes goal
        return (outcome, cond probe yes no)
      else
        let (outcome, no) ← applyTo context depth no goal
        return (outcome, cond probe yes no)
    | iterate inner limit =>
      let (outcome, inner) ← iterateTo context depth limit inner goal
      return (outcome, iterate inner limit)
    | tryFor inner budget =>
      let deadline := Context.tightest context.deadline (some budget)
      let (outcome, inner) ← applyTo { context with deadline } depth inner goal
      return (outcome, tryFor inner budget)
    | usingParams inner params =>
      let (outcome, inner) ← runWith params (fun t => applyTo context depth t goal) inner
      return (outcome, usingParams inner params)

/-- Run a tactic on a goal and on its subgoals in turn, until nothing changes or the limit of
rounds is reached. -/
def iterateTo (context : Context) : Nat → Option Nat → Tactic → Goal → Run
  | 0, _, inner, _ => return (.error tooDeep, inner)
  | depth + 1, limit, inner, goal => do
    match context.check (← read) with
    | .error e => return (.error e, inner)
    | .ok () =>
      if finished limit goal then return (.ok (.single goal), inner)
      else
        let (outcome, inner) ← applyTo context depth inner goal
        match outcome with
        | .error e => return (.error e, inner)
        | .ok r =>
          if unchanged goal.formulas r then return (.ok r, inner)
          else
            let next (g : Goal) : Attempt Tactic TacticResult :=
              Attempt.ofRun fun inner => iterateTo context depth (limit.map (· - 1)) inner g
            (r.sequence context next).runFrom inner

end

/-- The depth of nesting that a run may have. -/
def depthLimit : Nat := 4294967296

/-- Run a tactic on a goal. -/
def apply (t : Tactic) (context : Context) (goal : Goal) : Run :=
  applyTo context depthLimit t goal

end Stratagem.Tactic
