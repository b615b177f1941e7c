import Stratagem.Tactic.Result

/-!
# Elimination of defined constants

The tactic that reads definitions off the formulas of a goal: a boolean constant or its negation,
an equation with a constant on one side that does not occur on the other, or a linear equation
solved for a constant. The formula is dropped and the constant replaced by its definition in the
other formulas; a model of the result is extended by the definitions.
-/
namespace Stratagem

/-- Choices of the elimination. -/
structure EquationConfig where
  /-- Most formulas that an eliminated constant may occur in. -/
  maxOccs : Nat := 18446744073709551615
  /-- Solve linear equations. -/
  theorySolver : Bool := true
  deriving DecidableEq, Repr

namespace EquationConfig

/-- The parameters of the elimination. -/
def descrs : ParamDescrs := .ofList [
  ("solve-eqs-max-occs", .uint 18446744073709551615,
    "maximum number of formulas a variable may occur in to be eliminated"),
  ("theory-solver", .bool true, "solve linear arithmetic equations")]

/-- Read the fields that are set. -/
def update (p : Params) : Update EquationConfig Unit := do
  Update.uint p "solve-eqs-max-occs" (·.maxOccs) fun c v => { c with maxOccs := v }
  Update.bool p "theory-solver" (·.theorySolver) fun c v => { c with theorySolver := v }

/-- The parameters of a configuration. -/
def toParams (c : EquationConfig) : Params := .ofList [
  ("solve-eqs-max-occs", .uint c.maxOccs), ("theory-solver", .bool c.theorySolver)]

end EquationConfig

/-- The tactic with what it works on and what it counts. -/
structure EquationSolver where
  /-- Choices of the elimination. -/
  config : EquationConfig := {}
  /-- Simplifier of definitions and formulas. -/
  simplifier : Simplifier := {}
  /-- Constants eliminated by the last run. -/
  eliminated : Nat := 0

/-- A constant and the term it is defined by. -/
abbrev Definition := TermId × TermId

namespace EquationSolver

/-- A constant defined by a term in which it does not occur. -/
def direct? (s : Store) (x t : TermId) : Option Definition :=
  if s.isVar x && s.sortOf x == s.sortOf t && !s.occurs x t then some (x, t) else none

/-- Whether a constant occurs in few enough formulas to be eliminated. -/
def admits (config : EquationConfig) (s : Store) (g : Goal) (var : TermId) : Bool :=
  g.formulas.countP (s.occurs var) ≤ config.maxOccs

/-- The constant and the monomials of the difference of two terms. -/
def difference (s : Store) (a b : TermId) : LinearForm :=
  let left := s.linearForm a
  let right := s.linearForm b
  let monomials := right.monomials.toList.foldl (fun m e => m.add (-e.coeff) e.product)
    left.monomials
  ⟨left.constant - right.constant, monomials.retainNonzero⟩

/-- Whether an equation can be solved for a monomial: it is a multiple of a constant that occurs
in no other monomial, and over the integers the coefficient is a unit and the others are
integers. -/
def solvable (s : Store) (allowed : TermId → Bool) (form : LinearForm) (m : Monomial) : Bool :=
  match m.product with
  | [x] =>
    let coefficient :=
      if s.isInt x then
        (m.coeff == 1 || m.coeff == -1) && Rational.isIntegral form.constant
      else s.isReal x
    let others := form.monomials.toList.filter (·.product != m.product)
    coefficient && s.isVar x && allowed x && others.all fun other =>
      (!s.isInt x || Rational.isIntegral other.coeff) &&
        other.product.all fun factor => !s.occurs x factor
  | _ => false

/-- A summand of a definition: a multiple of a product. -/
def summand (isInt : Bool) (coeff : Rat) (product : PowerProduct) : Terms TermId := do
  let product ← match product with
    | [factor] => pure factor
    | factors => Terms.mkMul factors
  if coeff = 1 then return product
  else Terms.mkMul [← Terms.mkNumeral coeff isInt, product]

/-- The sum of a constant and monomials divided by the negated coefficient of the solved
monomial. -/
def solution (isInt : Bool) (constant leading : Rat) (others : List Monomial) : Terms TermId := do
  let free := -constant / leading
  let first ← if free = 0 then pure [] else List.singleton <$> Terms.mkNumeral free isInt
  let rest ← others.mapM fun m => summand isInt (-m.coeff / leading) m.product
  match first ++ rest with
  | [] => Terms.mkNumeral 0 isInt
  | parts => Terms.mkAdd parts

/-- Solve a linear equation for the first monomial that allows it. -/
def linear? (allowed : Store → TermId → Bool) (a b : TermId) : Terms (Option Definition) := do
  let s ← read
  let form := difference s a b
  let monomials := form.monomials.toList
  match monomials.findIdx? (solvable s (allowed s) form) with
  | none => return none
  | some position =>
    match monomials[position]? with
    | some ⟨leading, [x]⟩ =>
      let others := monomials.eraseIdx position
      return some (x, ← solution (s.isInt x) form.constant leading others)
    | _ => return none

/-- The definition that a formula gives, for a constant that is admitted. -/
def definition? (config : EquationConfig) (g : Goal) (f : TermId) : Terms (Option Definition) := do
  let s ← read
  let allowed := admits config s g
  match s.view f with
  | (.var _, _) => return if s.isBool f && allowed f then some (f, Store.trueId) else none
  | (.not, [a]) => return if s.isVar a && allowed a then some (a, Store.falseId) else none
  | (.eq, [a, b]) =>
    let admitted (d : Definition) : Bool := allowed d.1
    match ((direct? s a b).filter admitted).or ((direct? s b a).filter admitted) with
    | some d => return some d
    | none =>
      if config.theorySolver && s.isArith a then linear? (fun s => admits config s g) a b
      else return none
  | _ => return none

/-- The first definition that formulas give, with the slot of its formula; slots are counted from
a number on. -/
def candidate? (config : EquationConfig) (g : Goal) (slot : Nat) :
    List TermId → Terms (Option (Nat × Definition))
  | [] => return none
  | f :: rest => do
    match ← definition? config g f with
    | some d => return some (slot, d)
    | none => candidate? config g (slot + 1) rest

/-- The proof of a formula after the replacement of a constant by an equation. -/
def substituted (proof equation : Option Proof) (f : TermId) : Terms (Option Proof) := do
  match proof, equation with
  | some p, some q => return some (← Proof.make .substitution [p, q] f)
  | _, _ => return none

/-- Replace a constant in the formula of a slot, other than the slot of its definition. -/
def replaceIn (context : Context) (slot : Nat) (equation : Entry) (d : Definition) (i : Nat)
    (e : Entry) (g : Goal) : Rewriting Goal := do
  if i != slot && (← readThe Store).occurs d.1 e.formula then
    let image ← Attempt.build (Terms.substitute e.formula (.ofList [d]))
    let f ← Rewriting.simplifyIn context image
    let proof ← Attempt.build (substituted e.proof equation.proof f)
    Attempt.build (g.update i ⟨f, proof, DependencySet.join e.deps equation.deps⟩)
  else return g

/-- Drop the formula of a slot and replace the constant that it defines everywhere else. -/
def eliminate (context : Context) (slot : Nat) (d : Definition) (g : Goal) : Rewriting Goal := do
  let equation := g.entries[slot]?.getD ⟨Store.trueId, none, none⟩
  let g ← Attempt.build (g.update slot ⟨Store.trueId, none, none⟩)
  g.visitAll (replaceIn context slot equation d)

/-- Eliminate constants as long as a formula defines one. Every round removes a constant from the
goal and none comes in, so the number of subterms bounds the rounds. -/
def eliminateAll (config : EquationConfig) (context : Context) :
    Nat → Goal → Rewriting (Goal × List Definition)
  | 0, g => return (g, [])
  | rounds + 1, g => do
    if g.inconsistent then return (g, [])
    else
      match ← Attempt.build (candidate? config g 0 g.formulas) with
      | none => return (g, [])
      | some (slot, var, body) =>
        Attempt.check context
        let body ← Rewriting.simplifyIn context body
        let g ← eliminate context slot (var, body) g
        let (g, rest) ← eliminateAll config context rounds g
        return (g, (var, body) :: rest)

/-- Eliminate all constants that formulas define. -/
def solve (config : EquationConfig) (context : Context) (g : Goal) :
    Rewriting (Goal × List Definition) := do
  let bound := g.exprCount (← readThe Store) + 1
  let (g, defs) ← eliminateAll config context bound g
  return (← Attempt.build g.elimRedundancies, defs)

/-- The result of an elimination. -/
def result (g : Goal) (defs : List Definition) : TacticResult where
  goals := [g.deeper]
  models := if g.models && !defs.isEmpty then .extension defs else .identity

/-- Forget what earlier runs left. -/
def cleanup (e : EquationSolver) : EquationSolver :=
  { e with simplifier := e.simplifier.reset, eliminated := 0 }

/-- Eliminate the defined constants of a goal. -/
def run (e : EquationSolver) (context : Context) (g : Goal) :
    Terms (Except Error TacticResult × EquationSolver) := do
  let ⟨config, simplifier, _⟩ := e
  let (outcome, simplifier) ← (solve config context g).runFrom simplifier.reset
  match outcome with
  | .ok (g, defs) => return (.ok (result g defs), ⟨config, simplifier, defs.length⟩)
  | .error error => return (.error error, ⟨config, simplifier, 0⟩)

end EquationSolver
end Stratagem
