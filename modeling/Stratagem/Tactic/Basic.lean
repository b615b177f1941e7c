import Stratagem.Probe.Basic
import Stratagem.Tactic.BitBlast
import Stratagem.Tactic.CaseSplit
import Stratagem.Tactic.EquationSolver
import Stratagem.Tactic.Simplify
import Stratagem.Text.Quoted

/-!
# Tactics

Tactics as a language: those that transform a goal, those that only pass or fail, and the ways to
combine them. A tactic holds its configuration and its working state, so running it gives the
tactic back as the run leaves it. Here are the names, the parameters and the upkeep of tactics;
running them is in `Stratagem.Tactic.Apply`.
-/
namespace Stratagem

/-- A tactic. -/
inductive Tactic where
  /-- Simplify every formula. -/
  | simplify (name : String) (simplifier : Simplifier)
  /-- Eliminate constants that formulas define. -/
  | solveEqs (solver : EquationSolver)
  /-- Split on the first disjunction, or on the largest. -/
  | splitClause (largest : Bool)
  /-- Encode bit-vectors by their bits. -/
  | bitBlast (blaster : Blaster)
  /-- Leave the goal as it is. -/
  | skip
  /-- Fail for a reason. -/
  | fail (reason : String)
  /-- Fail unless the goal is decided. -/
  | failIfUndecided
  /-- Fail if a probe holds. -/
  | failIf (probe : Probe)
  /-- Answer by a function of the goal. -/
  | custom (name : String) (reply : Goal → Except Error TacticResult)
  /-- Run the second tactic on every subgoal of the first. -/
  | andThen (first second : Tactic)
  /-- Run the first of the tactics that does not fail. -/
  | orElse (alternatives : List Tactic)
  /-- Run one of two tactics, as a probe says. -/
  | cond (probe : Probe) (yes no : Tactic)
  /-- Run a tactic on its own subgoals until nothing changes, or up to a depth. -/
  | iterate (inner : Tactic) (limit : Option Nat)
  /-- Run a tactic with a time budget in milliseconds. -/
  | tryFor (inner : Tactic) (budget : Nat)
  /-- Run a tactic with other parameters. -/
  | usingParams (inner : Tactic) (params : Params)

namespace Tactic

/-- The name of a tactic. -/
def name : Tactic → String
  | simplify name _ | custom name _ => name
  | solveEqs _ => "solve-eqs"
  | splitClause _ => "split-clause"
  | bitBlast _ => "bit-blast"
  | skip => "skip"
  | fail _ => "fail"
  | failIfUndecided => "fail-if-undecided"
  | failIf _ => "fail-if"
  | andThen .. => "then"
  | orElse _ => "or-else"
  | cond .. => "cond"
  | iterate .. => "repeat"
  | tryFor .. => "try-for"
  | usingParams .. => "using-params"

/-- What a tactic does, in one line. -/
def description : Tactic → String
  | simplify .. => "apply the theory rewriter to every formula"
  | solveEqs _ => "eliminate variables defined by equations"
  | splitClause _ => "case split on a clause of the goal"
  | bitBlast _ => "reduce bit-vector constraints to propositional logic"
  | skip => "do nothing"
  | fail _ => "always fail"
  | failIfUndecided => "fail if the goal is neither empty nor refuted"
  | failIf _ | custom .. => ""
  | andThen .. => "apply the second tactic to every subgoal of the first"
  | orElse _ => "try alternatives in order until one succeeds"
  | cond .. => "apply one of two tactics depending on a probe"
  | iterate .. => "apply a tactic to its subgoals until a fixpoint or the depth limit"
  | tryFor .. => "fail with a timeout if the tactic does not finish in time"
  | usingParams .. => "apply a tactic with the given parameters"

/-- The text that identifies a tactic in messages. -/
def debugText (t : Tactic) : String := "Tactic \x7b name: " ++ Quoted.encode t.name ++ " \x7d"

/-- Simplification with a configuration. -/
def simplifyWith (config : SimplifierConfig) : Tactic := simplify "simplify" { config }

/-- Simplification that replaces conjunctions by negated disjunctions. -/
def elimAnd : Tactic := simplify "elim-and" { config := { elimAnd := true } }

/-- The tactics one after the other; nothing is done by none. -/
def thenAll : List Tactic → Tactic
  | [] => skip
  | first :: rest => rest.foldl andThen first

/-- Run a tactic if a probe holds. -/
def when (probe : Probe) (t : Tactic) : Tactic := cond probe t skip

mutual

/-- A new tactic of the same configuration, without working state and counts. -/
def fresh : Tactic → Tactic
  | simplify name simplifier => simplify name simplifier.fresh
  | solveEqs solver => solveEqs { config := solver.config }
  | bitBlast blaster => bitBlast { config := blaster.config }
  | andThen first second => andThen first.fresh second.fresh
  | orElse alternatives => orElse (freshAll alternatives)
  | cond probe yes no => cond probe yes.fresh no.fresh
  | iterate inner limit => iterate inner.fresh limit
  | tryFor inner budget => tryFor inner.fresh budget
  | usingParams inner params => usingParams inner.fresh params
  | t => t

/-- New tactics of the same configurations. -/
def freshAll : List Tactic → List Tactic
  | [] => []
  | t :: rest => t.fresh :: freshAll rest

end

mutual

/-- The tactic without the working state that earlier runs left. -/
def cleanup : Tactic → Tactic
  | simplify name simplifier => simplify name simplifier.reset
  | solveEqs solver => solveEqs solver.cleanup
  | bitBlast blaster => bitBlast blaster.cleanup
  | andThen first second => andThen first.cleanup second.cleanup
  | orElse alternatives => orElse (cleanupAll alternatives)
  | cond probe yes no => cond probe yes.cleanup no.cleanup
  | iterate inner limit => iterate inner.cleanup limit
  | tryFor inner budget => tryFor inner.cleanup budget
  | usingParams inner params => usingParams inner.cleanup params
  | t => t

/-- The tactics without their working states. -/
def cleanupAll : List Tactic → List Tactic
  | [] => []
  | t :: rest => t.cleanup :: cleanupAll rest

end

mutual

/-- The parameters that a tactic understands. -/
def descrs : Tactic → ParamDescrs
  | simplify .. => SimplifierConfig.descrs
  | solveEqs _ => EquationConfig.descrs
  | splitClause _ => CaseSplit.descrs
  | bitBlast _ => BlastConfig.descrs
  | andThen first second => first.descrs.union second.descrs
  | orElse alternatives => descrsOfAll alternatives
  | cond _ yes no => yes.descrs.union no.descrs
  | iterate inner _ | tryFor inner _ | usingParams inner _ => inner.descrs
  | _ => {}

/-- The parameters that some of the tactics understands; a later description replaces an earlier
one. -/
def descrsOfAll : List Tactic → ParamDescrs
  | [] => {}
  | t :: rest => t.descrs.union (descrsOfAll rest)

end

mutual

/-- The current values of the parameters of a tactic. -/
def params : Tactic → Params
  | simplify _ simplifier => simplifier.config.toParams
  | solveEqs solver => solver.config.toParams
  | splitClause largest => .ofList [("split-largest-clause", .bool largest)]
  | bitBlast blaster => blaster.config.toParams
  | andThen first second => first.params.merge second.params
  | orElse alternatives => paramsOfAll alternatives
  | cond _ yes no => yes.params.merge no.params
  | iterate inner _ | tryFor inner _ | usingParams inner _ => inner.params
  | _ => {}

/-- The current values of the parameters of the tactics; that of a later tactic counts. -/
def paramsOfAll : List Tactic → Params
  | [] => {}
  | t :: rest => t.params.merge (paramsOfAll rest)

end

/-- A simplifier with other parameters. It starts anew if they change its configuration, and stays
as it is if one of them is refused. -/
def updateSimplifier (p : Params) (simplifier : Simplifier) : Except Error Unit × Simplifier :=
  match (SimplifierConfig.update p).result simplifier.config with
  | .ok config => (.ok (), if config = simplifier.config then simplifier else { config })
  | .error e => (.error e, simplifier)

mutual

/-- Set the parameters of a tactic. A part that refuses one of them keeps what was set before, and
the parts after it are not changed. -/
def update (p : Params) : Tactic → Except Error Unit × Tactic
  | simplify name simplifier =>
    let (outcome, simplifier) := updateSimplifier p simplifier
    (outcome, simplify name simplifier)
  | solveEqs solver =>
    let (outcome, config) := (EquationConfig.update p).apply solver.config
    (outcome, solveEqs { solver with config })
  | splitClause largest =>
    match p.getBool "split-largest-clause" largest with
    | .ok value => (.ok (), splitClause value)
    | .error e => (.error e, splitClause largest)
  | bitBlast blaster =>
    let (outcome, config) := (BlastConfig.update p).apply blaster.config
    (outcome, bitBlast { blaster with config })
  | andThen first second =>
    match update p first with
    | (.ok (), first) =>
      let (outcome, second) := update p second
      (outcome, andThen first second)
    | (.error e, first) => (.error e, andThen first second)
  | orElse alternatives =>
    let (outcome, alternatives) := updateAll p alternatives
    (outcome, orElse alternatives)
  | cond probe yes no =>
    match update p yes with
    | (.ok (), yes) =>
      let (outcome, no) := update p no
      (outcome, cond probe yes no)
    | (.error e, yes) => (.error e, cond probe yes no)
  | iterate inner limit =>
    let (outcome, inner) := update p inner
    (outcome, iterate inner limit)
  | tryFor inner budget =>
    let (outcome, inner) := update p inner
    (outcome, tryFor inner budget)
  | usingParams inner params =>
    let (outcome, inner) := update p inner
    (outcome, usingParams inner params)
  | t => (.ok (), t)

/-- Set the parameters of the tactics in order. -/
def updateAll (p : Params) : List Tactic → Except Error Unit × List Tactic
  | [] => (.ok (), [])
  | t :: rest =>
    match update p t with
    | (.ok (), t) =>
      let (outcome, rest) := updateAll p rest
      (outcome, t :: rest)
    | (.error e, t) => (.error e, t :: rest)

end

/-- The tactic with other parameters, which it has to understand. -/
def withParams (t : Tactic) (p : Params) : Except Error Tactic := do
  t.descrs.validate p
  return usingParams t p

end Tactic
end Stratagem
