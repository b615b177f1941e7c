import Stratagem.Tactic.Basic

/-!
# Registries

Tactics under names, with a description each, in the order of the names.
-/
namespace Stratagem

/-- A registered tactic. -/
structure Registration where
  /-- What the tactic does. -/
  description : String
  /-- The tactic, without working state. -/
  tactic : Tactic

/-- Tactics by name. -/
structure Registry where
  /-- Registered tactics in the order of their names. -/
  entries : Named Registration := []

namespace Registry

/-- Register a tactic, in place of one that has the name already. -/
def register (r : Registry) (name description : String) (t : Tactic) : Registry :=
  ⟨Named.insert name ⟨description, t⟩ r.entries⟩

/-- The registry of the built-in tactics. -/
def builtin : Registry :=
  [("simplify", "apply the theory rewriter to every formula", Tactic.simplifyWith {}),
    ("elim-and", "simplify, turning conjunctions into negated disjunctions", .elimAnd),
    ("solve-eqs", "eliminate variables defined by equations", .solveEqs {}),
    ("split-clause", "case split on a clause of the goal", .splitClause false),
    ("bit-blast", "reduce bit-vector constraints to propositional logic", .bitBlast {}),
    ("skip", "do nothing", .skip),
    ("fail", "always fail", .fail "fail tactic"),
    ("fail-if-undecided", "fail if the goal is undecided", .failIfUndecided)].foldl
    (fun r (name, description, t) => r.register name description t) {}

/-- Whether a tactic is registered under a name. -/
def contains (r : Registry) (name : String) : Bool := (Named.find? r.entries name).isSome

/-- Names and descriptions in the order of the names. -/
def toList (r : Registry) : List (String × String) :=
  r.entries.map fun (name, entry) => (name, entry.description)

/-- A new tactic of the one registered under a name. -/
def tactic (r : Registry) (name : String) : Except Error Tactic :=
  match Named.find? r.entries name with
  | some entry => .ok entry.tactic.fresh
  | none => .error (.invalidParameter name "unknown tactic")

/-- A new tactic of the one registered under a name, with parameters. -/
def tacticWith (r : Registry) (name : String) (p : Params) : Except Error Tactic := do
  (← r.tactic name).withParams p

/-- The parameters of the tactic registered under a name. -/
def descrs (r : Registry) (name : String) : Except Error ParamDescrs :=
  (r.tactic name).map (·.descrs)

/-- The text that identifies a registry in messages. -/
def debugText (r : Registry) : String :=
  let names := r.entries.map fun (name, _) => Quoted.encode name
  "TacticRegistry \x7b tactics: [" ++ ", ".intercalate names ++ "] \x7d"

end Registry
end Stratagem
