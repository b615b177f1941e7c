import Stratagem.Algebraic.Basic

/-!
# Arithmetic of algebraic numbers

Sums, products, powers and roots of numerals, exactly. The defining polynomial of a result is a
resultant, computed by evaluation and interpolation; its real roots are isolated, and the
operands are refined until only one candidate can be the result. A result that is rational is
returned as a rational. Degrees and rounds of refinement are limited, and every refusal is an
`AlgebraicError`.
-/
namespace Stratagem

/-- Why an operation on algebraic numbers has no result. -/
inductive AlgebraicError where
  /-- The defining polynomial of the result has too high a degree. -/
  | degreeExceeded (degree limit : Nat)
  /-- Division by zero. -/
  | divisionByZero
  /-- The result is not real. -/
  | noRealRoot
  /-- The refinement did not separate the candidates in the allowed number of rounds. -/
  | refinementLimit (rounds : Nat)
  deriving DecidableEq, Repr

/-- The wording of an error. -/
def AlgebraicError.message : AlgebraicError → String
  | degreeExceeded degree limit =>
    s!"algebraic number degree {degree} exceeds the limit {limit}"
  | divisionByZero => "division by zero"
  | noRealRoot => "no real root"
  | refinementLimit rounds => s!"refinement limit of {rounds} iterations reached"

namespace Algebraic

/-- Limits on the work of an operation. -/
structure Limits where
  /-- Highest degree of a defining polynomial. -/
  maxDegree : Nat := 64
  /-- Most rounds of refinement. -/
  maxRefinements : Nat := 4096
  deriving DecidableEq, Repr

/-- Counts of the work done. -/
structure Tally where
  /-- Resultants computed. -/
  resultants : Nat := 0
  /-- Root isolations. -/
  isolations : Nat := 0
  /-- Rounds of refinement while a root was selected. -/
  refinements : Nat := 0
  /-- Comparisons of two irrational numbers. -/
  comparisons : Nat := 0
  deriving DecidableEq, Repr

/-- A computation on numerals under limits, which may fail and counts its work. -/
abbrev Compute := ReaderT Limits (ExceptT AlgebraicError (StateM Tally))

/-- Run a computation from a tally; the tally is kept when it fails. -/
def Compute.run {α : Type} (work : Compute α) (limits : Limits) (tally : Tally) :
    Except AlgebraicError α × Tally :=
  StateT.run (ExceptT.run (ReaderT.run work limits)) tally

/-- Add to the tally. -/
def count (more : Tally → Tally) : Compute Unit := modify more

/-- Refuse a degree above the limit. -/
def checkDegree (degree : Nat) : Compute Unit := do
  let limits ← read
  if limits.maxDegree < degree then throw (.degreeExceeded degree limits.maxDegree)

/-- Refuse for lack of rounds. -/
def outOfRounds {α : Type} : Compute α := do
  throw (.refinementLimit (← read).maxRefinements)

/-- The polynomial in `x` of degree at most `bound` that is the resultant of `p` and `g x`, by
interpolation at `0, 1, …, bound`. -/
def resultantIn (p : Poly) (bound : Nat) (g : Rat → Poly) : Compute Poly := do
  count fun t => { t with resultants := t.resultants + 1 }
  let xs := (List.range (bound + 1)).map fun i => Rational.ofInt (Int.ofNat i)
  return .interpolate xs (xs.map fun x => p.resultant (g x))

/-- The numeral of the root isolated by an interval. If the root is rational, it is the fraction
of least denominator in the interval, once that is narrow enough. -/
def numeralOf (q : Poly) (range : Interval) : Numeral :=
  let width := match q.leading? with
    | some lead => Poly.rationalWidth lead
    | none => 1
  let range := q.bisectBelow width (Rational.halvings range.width width) range
  if range.isPoint then .rational range.lo
  else
    let simplest := Rational.simplestBetween range.lo range.hi
    if q.eval simplest = 0 then .rational simplest
    else
      let p := q.stripZeroRoots
      .irrational ⟨p, p.rootsBelow range.lo, range⟩

/-- Refine operands and candidates until the operands admit one candidate. -/
def selectFrom {σ : Type} (q : Poly) (admits : σ → Interval → Bool) (refine : σ → σ) :
    Nat → σ → List Interval → Compute Numeral
  | 0, _, _ => outOfRounds
  | rounds + 1, operands, candidates =>
    match candidates.filter (admits operands) with
    | [] => throw .noRealRoot
    | [range] => return numeralOf q range
    | several => do
      count fun t => { t with refinements := t.refinements + 1 }
      selectFrom q admits refine rounds (refine operands) (several.map q.bisect)

/-- The root of a polynomial that the operands admit at every stage of their refinement. -/
def selectRoot {σ : Type} (q : Poly) (admits : σ → Interval → Bool) (refine : σ → σ)
    (operands : σ) : Compute Numeral := do
  let q := q.squareFree.primitive
  checkDegree q.degree
  count fun t => { t with isolations := t.isolations + 1 }
  selectFrom q admits refine (← read).maxRefinements operands q.isolateRoots

/-- The number plus a rational. -/
def shift (a : Algebraic) (r : Rat) : Algebraic :=
  ⟨(a.poly.composeLinear 1 (-r)).primitive, a.rootIndex, a.interval.add (.point r)⟩

/-- The number times a rational that is not zero. -/
def scale (a : Algebraic) (r : Rat) : Algebraic :=
  let p := (a.poly.composeLinear r⁻¹ 0).primitive
  let range := a.interval.mul (.point r)
  ⟨p, if 0 < r then a.rootIndex else p.rootsBelow range.lo, range⟩

/-- The negated number. -/
def neg (a : Algebraic) : Algebraic :=
  let p := a.poly.reflect.primitive
  let range := a.interval.neg
  ⟨p, p.rootsBelow range.lo, range⟩

/-- The polynomial `y ^ degree * q (x / y)` in `y`, whose roots `y` are the quotients of `x` by
the roots of `q`. -/
def quotientPoly (q : Poly) (x : Rat) : Poly :=
  .ofCoeffs (q.coeffs.mapIdx fun i c => c * Rational.power x i).reverse

/-- Refine both of two numerals. -/
def refineBoth (operands : Numeral × Numeral) : Numeral × Numeral :=
  (operands.1.refine, operands.2.refine)

end Algebraic

namespace Numeral

open Stratagem.Algebraic

/-- Negation. -/
def neg : Numeral → Numeral
  | rational r => rational (-r)
  | irrational a => irrational a.neg

/-- Sum. -/
def add (a b : Numeral) : Compute Numeral :=
  match a, b with
  | rational r, rational s => return rational (r + s)
  | rational r, irrational x => return irrational (x.shift r)
  | irrational x, rational r => return irrational (x.shift r)
  | irrational x, irrational y => do
    checkDegree (x.degree * y.degree)
    let q ← resultantIn x.poly (x.degree * y.degree) fun at' => y.poly.composeLinear (-1) at'
    selectRoot q (fun both range => range.overlaps (both.1.interval.add both.2.interval))
      refineBoth (a, b)

/-- Difference. -/
def sub (a b : Numeral) : Compute Numeral := a.add b.neg

/-- Product. -/
def mul (a b : Numeral) : Compute Numeral :=
  if a.isZero || b.isZero then return rational 0
  else
    match a, b with
    | rational r, rational s => return rational (r * s)
    | rational r, irrational x => return irrational (x.scale r)
    | irrational x, rational r => return irrational (x.scale r)
    | irrational x, irrational y => do
      checkDegree (x.degree * y.degree)
      let q ← resultantIn x.poly (x.degree * y.degree) (quotientPoly y.poly)
      selectRoot q (fun both range => range.overlaps (both.1.interval.mul both.2.interval))
        refineBoth (a, b)

/-- Reciprocal. -/
def inv : Numeral → Compute Numeral
  | rational r => if r = 0 then throw .divisionByZero else return rational r⁻¹
  | irrational x =>
    let x := x.separateZero
    match x.interval.recip? with
    | none => throw .divisionByZero
    | some range =>
      let p := x.poly.reverse.primitive
      return irrational ⟨p, p.rootsBelow range.lo, range⟩

/-- Quotient. -/
def div (a b : Numeral) : Compute Numeral := do a.mul (← b.inv)

/-- Power with a natural exponent. -/
def power (a : Numeral) (k : Nat) : Compute Numeral :=
  if k = 0 then return rational 1
  else if k = 1 then return a
  else
    match a with
    | rational r =>
      match Rational.power? r k with
      | some value => return rational value
      | none => throw .divisionByZero
    | irrational x => do
      checkDegree x.degree
      let q ← resultantIn x.poly x.degree fun at' => (Poly.constant at').sub (.monomial 1 k)
      selectRoot q (fun base range => range.overlaps (base.interval.power k)) refine a

/-- Whether an interval can hold the principal `k`-th root of a numeral: for even `k` the root is
not negative. -/
def admitsRoot (k : Nat) (base : Numeral) (range : Interval) : Bool :=
  (k % 2 = 1 || 0 < range.hi) && (range.power k).overlaps base.interval

/-- The principal real `k`-th root: the one of the sign of the radicand for odd `k`, the
non-negative one for even `k`. -/
def root (a : Numeral) (k : Nat) : Compute Numeral :=
  if k = 0 then throw .divisionByZero
  else if k = 1 || a.isZero then return a
  else if k % 2 = 0 && a.sign == .lt then throw .noRealRoot
  else
    match a with
    | rational r =>
      match Rational.root? r k with
      | some value => return rational value
      | none => do
        checkDegree k
        selectRoot ((Poly.monomial 1 k).sub (.constant r)) (admitsRoot k) refine a
    | irrational x => do
      checkDegree (x.degree * k)
      selectRoot (x.poly.substitutePower k) (admitsRoot k) refine a

/-- Refine until a rational lies outside the interval. -/
def compareRationalFrom (r : Rat) : Nat → Algebraic → Compute Ordering
  | 0, _ => outOfRounds
  | rounds + 1, x =>
    if r < x.interval.lo then return .gt
    else if x.interval.hi < r then return .lt
    else compareRationalFrom r rounds x.refine

/-- The order of an irrational number and a rational. -/
def compareRational (x : Algebraic) (r : Rat) : Compute Ordering := do
  compareRationalFrom r (← read).maxRefinements x

/-- Refine two numbers until their intervals are apart, or, when both are roots of the common
divisor `g`, until one interval around both has only one root of it. -/
def compareFrom (shared : Bool) (sequence : List Poly) :
    Nat → Algebraic → Algebraic → Compute Ordering
  | 0, _, _ => outOfRounds
  | rounds + 1, x, y =>
    let hull := x.interval.hull y.interval
    if x.interval.hi < y.interval.lo then return .lt
    else if y.interval.hi < x.interval.lo then return .gt
    else if shared && Poly.countRoots sequence hull.lo hull.hi == 1 then return .eq
    else compareFrom shared sequence rounds x.refine y.refine

/-- The order of two irrational numbers. -/
def compareIrrational (x y : Algebraic) : Compute Ordering :=
  if x.sameRoot y then return .eq
  else do
    count fun t => { t with comparisons := t.comparisons + 1 }
    let g := x.poly.gcd y.poly
    let sequence := g.sturm
    let isRoot (n : Algebraic) := Poly.countRoots sequence n.interval.lo n.interval.hi == 1
    compareFrom (!g.isConstant && isRoot x && isRoot y) sequence (← read).maxRefinements x y

/-- The order of two numerals. -/
def compare (a b : Numeral) : Compute Ordering :=
  match a, b with
  | rational r, rational s => return Rational.order r s
  | irrational x, rational r => compareRational x r
  | rational r, irrational x => return (← compareRational x r).swap
  | irrational x, irrational y => compareIrrational x y

/-- Refine until both ends of the interval have one integral part. -/
def floorFrom : Nat → Algebraic → Compute Int
  | 0, _ => outOfRounds
  | rounds + 1, x =>
    if x.interval.lo.floor = x.interval.hi.floor then return x.interval.lo.floor
    else floorFrom rounds x.refine

/-- The largest integer not above the value. -/
def floor : Numeral → Compute Int
  | rational r => return r.floor
  | irrational x => do floorFrom (← read).maxRefinements x

end Numeral
end Stratagem
