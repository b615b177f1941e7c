import Stratagem.Rewriting.Circular
import Stratagem.Rewriting.Comparison
import Stratagem.Rewriting.Division
import Stratagem.Rewriting.Power

/-!
# Arithmetic

The rules for all operators on numbers.
-/
namespace Stratagem.Arithmetic

open Terms Rule

/-- The rule for the head of a term. -/
def reduceHead (t : TermId) : Rule Outcome := do
  match ← peek (·.view t) with
  | (.add, args) => reduceAdd t args
  | (.mul, args) => reduceMul t args
  | (.neg, [a]) => reduceNeg t a
  | (.sub, [a, b]) => reduceSub t a b
  | (.div, [a, b]) => reduceDiv a b
  | (.intDiv, [a, b]) => reduceIntDiv a b
  | (.mod, [a, b]) => reduceMod a b
  | (.rem, [a, b]) => reduceRem a b
  | (.power, [a, b]) => reducePower t a b
  | (.le, [a, b]) => reduceComparison t .le a b
  | (.ge, [a, b]) => reduceComparison t .ge a b
  | (.eq, [a, b]) =>
    if ← peek (·.isArith a) then reduceComparison t .eq a b else return .failed
  | (.lt, [a, b]) => return .revisit 2 (← mkNot (← mkApp .le [b, a]))
  | (.gt, [a, b]) => return .revisit 2 (← mkNot (← mkApp .le [a, b]))
  | (.toInt, [a]) => reduceToInt a
  | (.toReal, [a]) => reduceToReal a
  | (.isInt, [a]) => reduceIsInt a
  | (op, [a]) =>
    match op with
    | .sin | .cos | .tan | .asin | .acos | .atan | .sinh | .cosh | .tanh | .asinh | .acosh
    | .atanh => reduceFunction op a
    | _ => return .failed
  | _ => return .failed

/-- The rules for numbers. -/
def reduce (t : TermId) : Rule Outcome := do
  let outcome ← reduceHead t
  if !outcome.isFailed then
    modify fun tally => { tally with reductions := tally.reductions + 1 }
  return outcome

end Stratagem.Arithmetic
