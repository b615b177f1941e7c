import Stratagem.Goal

/-!
# Fragments

Logics that a goal may lie in. A fragment admits sorts and operators, and a goal lies in it when
every one of its subterms is admitted on its own: a product is linear, for instance, when at most
one of its factors is not a literal.
-/
namespace Stratagem

/-- A logic. -/
inductive Fragment where
  /-- Connectives and boolean constants. -/
  | propositional
  /-- Bit-vectors without quantifiers. -/
  | qfBv
  /-- Linear integer arithmetic without quantifiers. -/
  | qfLia
  /-- Linear real arithmetic without quantifiers. -/
  | qfLra
  /-- Linear mixed arithmetic without quantifiers. -/
  | qfLira
  /-- Conjunctions of linear constraints on integers. -/
  | ilp
  /-- Conjunctions of linear constraints on numbers. -/
  | mip
  /-- Integer arithmetic without quantifiers. -/
  | qfNia
  /-- Real arithmetic without quantifiers. -/
  | qfNra
  /-- Integer arithmetic. -/
  | nia
  /-- Real arithmetic. -/
  | nra
  deriving DecidableEq, Repr

/-- What a fragment admits. -/
structure Admits where
  quantifiers : Bool := false
  /-- Connectives and distinctness. -/
  connectives : Bool := true
  int : Bool := false
  real : Bool := false
  nonlinear : Bool := false
  bitVec : Bool := false
  /-- Every formula is a comparison of numbers. -/
  atomsOnly : Bool := false
  deriving DecidableEq, Repr

namespace Admits

/-- Whether numbers of some sort are admitted. -/
def arith (a : Admits) : Bool := a.int || a.real

/-- Whether terms of a sort are admitted. -/
def sort (a : Admits) : TermSort → Bool
  | .bool => a.connectives || !a.atomsOnly
  | .int => a.int
  | .real => a.real
  | .bitVec _ => a.bitVec
  | _ => false

/-- Whether a divisor is admitted. -/
def divisor (a : Admits) (s : Store) (args : List TermId) : Bool :=
  a.nonlinear || (args.drop 1).all s.isNumeral

/-- Whether a product is admitted: without nonlinear terms, of one factor that is no literal. -/
def product (a : Admits) (s : Store) (args : List TermId) : Bool :=
  a.nonlinear || args.countP (fun t => !s.isNumeral t) ≤ 1

/-- Whether a term is admitted, its arguments aside. -/
def term (a : Admits) (s : Store) (t : TermId) : Bool :=
  let (op, args) := s.view t
  match op with
  | .bool _ => true
  | .var _ => a.sort (s.sortOf t)
  | .int _ => a.arith
  | .real _ => a.real
  | .algebraic _ => a.real && a.nonlinear
  | .not | .and | .or | .implies | .xor | .ite | .distinct => a.connectives
  | .eq => a.sort (s.headSort args)
  | .neg | .add | .sub | .le | .lt | .ge | .gt => a.arith
  | .mul => a.arith && a.product s args
  | .div => a.real && a.divisor s args
  | .intDiv | .mod | .rem => a.int && a.divisor s args
  | .power => a.arith && a.nonlinear
  | .toReal | .toInt | .isInt => a.int && a.real
  | .bitVec .. | .bvNot | .bvNeg | .bvAnd | .bvOr | .bvXor | .bvAdd | .bvSub | .bvMul | .bvConcat
  | .bvExtract .. | .bvUlt | .bvUle | .bvSlt | .bvSle => a.bitVec
  | .universal _ | .existential _ => a.quantifiers
  | _ => false

end Admits

namespace Fragment

/-- The fragments in the order in which they are listed. -/
def all : List Fragment :=
  [propositional, qfBv, qfLia, qfLra, qfLira, ilp, mip, qfNia, qfNra, nia, nra]

/-- The name of the probe for a fragment. -/
def name : Fragment → String
  | propositional => "is-propositional"
  | qfBv => "is-qfbv"
  | qfLia => "is-qflia"
  | qfLra => "is-qflra"
  | qfLira => "is-qflira"
  | ilp => "is-ilp"
  | mip => "is-mip"
  | qfNia => "is-qfnia"
  | qfNra => "is-qfnra"
  | nia => "is-nia"
  | nra => "is-nra"

/-- What a fragment admits. -/
def admits : Fragment → Admits
  | propositional => {}
  | qfBv => { bitVec := true }
  | qfLia => { int := true }
  | qfLra => { real := true }
  | qfLira => { int := true, real := true }
  | ilp => { int := true, connectives := false, atomsOnly := true }
  | mip => { int := true, real := true, connectives := false, atomsOnly := true }
  | qfNia => { int := true, nonlinear := true }
  | qfNra => { real := true, nonlinear := true }
  | nia => { int := true, nonlinear := true, quantifiers := true }
  | nra => { real := true, nonlinear := true, quantifiers := true }

end Fragment

/-- The two sides of a comparison of numbers. -/
def Store.comparison? (s : Store) (t : TermId) : Option (TermId × TermId) :=
  match s.view t with
  | (.le, [a, b]) | (.lt, [a, b]) | (.ge, [a, b]) | (.gt, [a, b]) | (.eq, [a, b]) =>
    if s.isArith a then some (a, b) else none
  | _ => none

/-- Whether a goal lies in a fragment. -/
def Goal.inFragment (g : Goal) (s : Store) (fragment : Fragment) : Bool :=
  let a := fragment.admits
  (!a.atomsOnly || g.formulas.all fun f => (s.comparison? f).isSome) &&
    (s.subtermsOfAll g.formulas).all (a.term s)

end Stratagem
