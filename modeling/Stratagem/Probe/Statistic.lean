import Stratagem.Number.Binary64
import Stratagem.Probe.Fragment

/-!
# Statistics of a goal

Measures of a goal as a whole, and figures over the degrees of its comparisons and the sizes of
its literals. Degrees are counted in words of 64 bits: a sum wraps around and a multiple stops at
the largest word.
-/
namespace Stratagem

/-- A measure of a goal. -/
inductive Measure where
  /-- The number of formulas. -/
  | size
  /-- The number of distinct subterms. -/
  | numExprs
  /-- The number of constants. -/
  | numConsts
  /-- The number of transformations so far. -/
  | depth
  | isInconsistent
  | isDecidedSat
  | isDecidedUnsat
  | produceProofs
  | produceModels
  | produceUnsatCores
  | hasQuantifiers
  deriving DecidableEq, Repr

namespace Measure

/-- The measures in the order in which they are listed. -/
def all : List Measure :=
  [size, numExprs, numConsts, depth, isInconsistent, isDecidedSat, isDecidedUnsat, produceProofs,
    produceModels, produceUnsatCores, hasQuantifiers]

/-- The name of the probe for a measure. -/
def name : Measure → String
  | size => "size"
  | numExprs => "num-exprs"
  | numConsts => "num-consts"
  | depth => "depth"
  | isInconsistent => "is-inconsistent"
  | isDecidedSat => "is-decided-sat"
  | isDecidedUnsat => "is-decided-unsat"
  | produceProofs => "produce-proofs"
  | produceModels => "produce-models"
  | produceUnsatCores => "produce-unsat-cores"
  | hasQuantifiers => "has-quantifiers"

/-- The constants that occur free in some formula. -/
def constants (s : Store) (g : Goal) : Std.HashSet TermId :=
  g.formulas.foldl (fun found f => (s.freeConstants f).foldl (·.insert ·) found) ∅

/-- The value of a measure; a property counts one when it holds. -/
def value (s : Store) (g : Goal) : Measure → Nat
  | size => g.size
  | numExprs => g.exprCount s
  | numConsts => (constants s g).size
  | depth => g.depth
  | isInconsistent => g.inconsistent.toNat
  | isDecidedSat => g.isDecidedSat.toNat
  | isDecidedUnsat => g.isDecidedUnsat.toNat
  | produceProofs => g.proofs.toNat
  | produceModels => g.models.toNat
  | produceUnsatCores => g.cores.toNat
  | hasQuantifiers => ((s.subtermsOfAll g.formulas).any fun t => (s.op t).isQuantifier).toNat

end Measure

namespace Word

/-- The number of words. -/
def modulus : Nat := 18446744073709551616

/-- The sum of words, which wraps around. -/
def sum (values : List Nat) : Nat := values.foldl (fun total n => (total + n) % modulus) 0

/-- The number itself, or the largest word. -/
def saturate (n : Nat) : Nat := Nat.min n (modulus - 1)

end Word

namespace Store

/-- The degree of a term as a polynomial, down to a depth. -/
def degreeTo (s : Store) : Nat → TermId → Nat
  | 0, _ => 1
  | depth + 1, t =>
    match s.view t with
    | (.int _, _) | (.real _, _) | (.algebraic _, _) => 0
    | (.add, args) | (.sub, args) | (.neg, args) =>
      (args.map (s.degreeTo depth)).foldl Nat.max 0
    | (.mul, args) => Word.sum (args.map (s.degreeTo depth))
    | (.power, [base, exponent]) =>
      match s.numeral? exponent with
      | some k =>
        if Rational.isIntegral k && 0 ≤ k then
          Word.saturate (s.degreeTo depth base * Word.saturate k.num.toNat)
        else 1
      | none => 1
    | _ => 1

/-- The degree of a term as a polynomial; a term that is no sum, product or power has degree one.
-/
def degree (s : Store) (t : TermId) : Nat := s.degreeTo (t + 1) t

/-- The larger degree of the two sides of a comparison. -/
def comparisonDegree? (s : Store) (t : TermId) : Option Nat :=
  (s.comparison? t).map fun (a, b) => Nat.max (s.degree a) (s.degree b)

/-- The number of binary digits of the numerator of a literal; zero has one. -/
def literalBits? (s : Store) (t : TermId) : Option Nat :=
  (s.numeral? t).map fun r => r.num.natAbs.log2 + 1

end Store

/-- A figure over the arithmetic of a goal. -/
inductive Statistic where
  /-- Largest degree of a comparison. -/
  | maxDegree
  /-- Average degree of the comparisons. -/
  | avgDegree
  /-- Most binary digits of a literal. -/
  | maxBits
  /-- Average number of binary digits of the literals. -/
  | avgBits
  deriving DecidableEq, Repr

namespace Statistic

/-- The statistics in the order in which they are listed. -/
def all : List Statistic := [maxDegree, avgDegree, maxBits, avgBits]

/-- The name of the probe for a statistic. -/
def name : Statistic → String
  | maxDegree => "arith-max-deg"
  | avgDegree => "arith-avg-deg"
  | maxBits => "arith-max-bw"
  | avgBits => "arith-avg-bw"

/-- The double nearest to a natural number. -/
def double (n : Nat) : Float := Binary64.ofRat (Rational.ofInt (Int.ofNat n))

/-- The largest value. -/
def largest (values : List Nat) : Float := double (values.foldl Nat.max 0)

/-- The average value; zero of no values. -/
def average (values : List Nat) : Float :=
  if values.isEmpty then 0 else double (Word.sum values) / double values.length

/-- The value of a statistic. -/
def value (s : Store) (g : Goal) (statistic : Statistic) : Float :=
  let terms := s.subtermsOfAll g.formulas
  match statistic with
  | maxDegree => largest (terms.filterMap s.comparisonDegree?)
  | avgDegree => average (terms.filterMap s.comparisonDegree?)
  | maxBits => largest (terms.filterMap s.literalBits?)
  | avgBits => average (terms.filterMap s.literalBits?)

end Statistic
end Stratagem
