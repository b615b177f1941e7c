import Stratagem.Number.Interval
import Stratagem.Polynomial.Division

/-!
# Isolation of real roots

The real roots of a square-free polynomial, each as the point of a rational root that was hit or
as an interval with one root in it and no root at its ends. An interval is halved as long as its
Sturm count shows two roots in it; the distance of two roots is bounded from below by the
coefficients of the primitive multiple, which bounds the number of halvings (`isolationDepth`).
-/
namespace Stratagem.Poly

/-- A number of halvings after which the interval that holds all roots of a square-free polynomial
has shrunk below the distance of any two of them. With `n` the degree, `l` the leading coefficient
of the primitive multiple and `b` the root bound, the discriminant of that multiple is a non-zero
integer, so two roots are at least `1 / (l ^ (n - 1) * (2 * b) ^ (n * (n - 1) / 2 - 1))` apart. -/
def isolationDepth (p : Poly) : Nat :=
  let n := p.degree
  let lead := (p.primitive.leading?.getD 1).num.natAbs
  let spread := (2 * p.rootBound).ceil.toNat
  n * (n - 1) / 2 * (spread.log2 + 1) + (n - 1) * (lead.log2 + 1) + 2

/-- The distance from a rational root at which the polynomial has no root and within which it has
no other: halved from a first value, at most a number of times. -/
def rootGap (p : Poly) (sequence : List Poly) (root : Rat) : Nat → Rat → Rat
  | 0, gap => gap
  | rounds + 1, gap =>
    let left := root - gap
    let right := root + gap
    if countRoots sequence left right = 1 ∧ p.eval left ≠ 0 ∧ p.eval right ≠ 0 then gap
    else rootGap p sequence root rounds (gap / 2)

/-- The roots in `(lo, hi]` in increasing order, with at most a number of halvings on each way
down. -/
def isolateIn (p : Poly) (sequence : List Poly) : Nat → Rat → Rat → List Interval
  | 0, _, _ => []
  | depth + 1, lo, hi =>
    match countRoots sequence lo hi with
    | 0 => []
    | 1 => if p.eval hi = 0 then [.point hi] else [.between lo hi]
    | _ =>
      let mid := (lo + hi) / 2
      if p.eval mid = 0 then
        let gap := rootGap p sequence mid p.isolationDepth ((hi - lo) / 4)
        isolateIn p sequence depth lo (mid - gap) ++
          .point mid :: isolateIn p sequence depth (mid + gap) hi
      else
        isolateIn p sequence depth lo mid ++ isolateIn p sequence depth mid hi

/-- The distinct real roots of a square-free polynomial, in increasing order. -/
def isolateRoots (p : Poly) : List Interval :=
  if p.isConstant then []
  else isolateIn p p.sturm p.isolationDepth (-p.rootBound) p.rootBound

/-- Halve an interval that isolates one root; a root in the middle becomes a point. -/
def bisect (p : Poly) (range : Interval) : Interval :=
  if range.isPoint then range
  else
    let mid := range.midpoint
    match p.signAt mid with
    | .eq => .point mid
    | sign => if p.signAt range.lo = sign then range.withLo mid else range.withHi mid

/-- Halve at most a number of times, until the interval is a point or narrower than a width. -/
def bisectBelow (p : Poly) (width : Rat) : Nat → Interval → Interval
  | 0, range => range
  | rounds + 1, range =>
    if !range.isPoint && decide (width ≤ range.width) then
      bisectBelow p width rounds (p.bisect range)
    else range

/-- The width below which the fraction of least denominator in an isolating interval of an integer
polynomial with this leading coefficient is the root, if the root is rational. -/
def rationalWidth (lead : Rat) : Rat :=
  if lead * lead = 0 then 1 else (lead * lead)⁻¹

end Stratagem.Poly
