import Stratagem.Parameter

/-!
# Configuration of the simplifier

The choices that the rules leave open, each with its parameter.
-/
namespace Stratagem

/-- Choices of the simplifier. -/
structure SimplifierConfig where
  /-- Most steps of one rewriting. -/
  maxSteps : Nat := 18446744073709551615
  /-- Flatten nested conjunctions and disjunctions. -/
  flat : Bool := true
  /-- Replace conjunctions by negated disjunctions. -/
  elimAnd : Bool := false
  /-- Move every monomial of a comparison to the left. -/
  arithLhs : Bool := false
  /-- Divide integer comparisons by the common divisor of their coefficients. -/
  gcdRounding : Bool := false
  /-- Split equations of numbers into two inequalities. -/
  eq2ineq : Bool := false
  /-- Drop casts of integers from comparisons. -/
  elimToReal : Bool := false
  /-- Move casts of integers into sums and products. -/
  pushToReal : Bool := true
  /-- Order sums by their power products. -/
  sortSums : Bool := false
  /-- Largest exponent that is folded, and largest degree of an irrational number; a word of 32
  bits. -/
  maxDegree : UInt32 := 64
  /-- Write powers as products. -/
  expandPower : Bool := false
  /-- Write repeated factors as powers. -/
  mulToPower : Bool := false
  /-- Write tangents as quotients of sine and cosine. -/
  expandTan : Bool := false
  /-- Write `rem` by `mod` and a case split on the sign of the divisor. -/
  elimRem : Bool := false
  /-- Compute with irrational numbers. -/
  algebraicNumberEvaluator : Bool := true
  /-- Multiply out products of sums. -/
  som : Bool := false
  deriving DecidableEq, Repr

namespace SimplifierConfig

/-- The parameters of the simplifier. -/
def descrs : ParamDescrs := .ofList [
  ("max-steps", .uint 18446744073709551615, "maximum number of rewrite steps"),
  ("flat", .bool true, "flatten nested and/or"),
  ("elim-and", .bool false, "replace (and a b) by (not (or (not a) (not b)))"),
  ("arith-lhs", .bool false, "all monomials are moved to the left-hand side"),
  ("gcd-rounding", .bool false, "use gcd rounding on integer comparisons"),
  ("eq2ineq", .bool false, "split arithmetic equalities into two inequalities"),
  ("elim-to-real", .bool false, "eliminate to_real from comparisons over integers"),
  ("push-to-real", .bool true, "distribute to_real over * and +"),
  ("sort-sums", .bool false, "sort the arguments of + by power product"),
  ("max-degree", .uint 64, "maximum degree of folded powers and algebraic numbers"),
  ("expand-power", .bool false, "expand (^ t k) into t*...*t for 1 < k <= max-degree"),
  ("mul-to-power", .bool false, "collapse repeated factors into powers"),
  ("expand-tan", .bool false, "replace (tan x) by (/ (sin x) (cos x))"),
  ("elim-rem", .bool false, "replace rem by mod with a case split on the divisor sign"),
  ("algebraic-number-evaluator", .bool true,
    "simplify and evaluate expressions containing algebraic irrational numbers"),
  ("som", .bool false, "put polynomials in sum-of-monomials form")]

/-- Read the largest degree, which has at most 32 bits. -/
def updateMaxDegree (p : Params) : Update SimplifierConfig Unit := do
  let value ← p.getUInt "max-degree" (← get).maxDegree.toNat
  if 4294967296 ≤ value then
    throw (.invalidParameter "max-degree" "value does not fit in 32 bits")
  modify fun c => { c with maxDegree := value.toUInt32 }

/-- Read the fields that are set. -/
def update (p : Params) : Update SimplifierConfig Unit := do
  Update.uint p "max-steps" (·.maxSteps) fun c v => { c with maxSteps := v }
  Update.bool p "flat" (·.flat) fun c v => { c with flat := v }
  Update.bool p "elim-and" (·.elimAnd) fun c v => { c with elimAnd := v }
  Update.bool p "arith-lhs" (·.arithLhs) fun c v => { c with arithLhs := v }
  Update.bool p "gcd-rounding" (·.gcdRounding) fun c v => { c with gcdRounding := v }
  Update.bool p "eq2ineq" (·.eq2ineq) fun c v => { c with eq2ineq := v }
  Update.bool p "elim-to-real" (·.elimToReal) fun c v => { c with elimToReal := v }
  Update.bool p "push-to-real" (·.pushToReal) fun c v => { c with pushToReal := v }
  Update.bool p "sort-sums" (·.sortSums) fun c v => { c with sortSums := v }
  updateMaxDegree p
  Update.bool p "expand-power" (·.expandPower) fun c v => { c with expandPower := v }
  Update.bool p "mul-to-power" (·.mulToPower) fun c v => { c with mulToPower := v }
  Update.bool p "expand-tan" (·.expandTan) fun c v => { c with expandTan := v }
  Update.bool p "elim-rem" (·.elimRem) fun c v => { c with elimRem := v }
  Update.bool p "algebraic-number-evaluator" (·.algebraicNumberEvaluator) fun c v =>
    { c with algebraicNumberEvaluator := v }
  Update.bool p "som" (·.som) fun c v => { c with som := v }

/-- The configuration with these parameters and defaults for the others. -/
def ofParams (p : Params) : Except Error SimplifierConfig := (update p).result {}

/-- The parameters of a configuration. -/
def toParams (c : SimplifierConfig) : Params := .ofList [
  ("max-steps", .uint c.maxSteps), ("flat", .bool c.flat), ("elim-and", .bool c.elimAnd),
  ("arith-lhs", .bool c.arithLhs), ("gcd-rounding", .bool c.gcdRounding),
  ("eq2ineq", .bool c.eq2ineq), ("elim-to-real", .bool c.elimToReal),
  ("push-to-real", .bool c.pushToReal), ("sort-sums", .bool c.sortSums),
  ("max-degree", .uint c.maxDegree.toNat), ("expand-power", .bool c.expandPower),
  ("mul-to-power", .bool c.mulToPower), ("expand-tan", .bool c.expandTan),
  ("elim-rem", .bool c.elimRem),
  ("algebraic-number-evaluator", .bool c.algebraicNumberEvaluator), ("som", .bool c.som)]

end SimplifierConfig
end Stratagem
