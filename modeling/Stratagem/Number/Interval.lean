import Stratagem.Number.Rational

/-!
# Closed rational intervals

An interval has two rational ends. The arithmetic here computes exact images: the ends of a sum,
a product, a reciprocal or a power are attained by members of the operands.
-/
namespace Stratagem

/-- The closed interval from `lo` to `hi`. -/
structure Interval where
  /-- Least member. -/
  lo : Rat
  /-- Greatest member. -/
  hi : Rat
  deriving DecidableEq, Repr

namespace Interval

/-- The interval between two rationals given in either order. -/
def between (first second : Rat) : Interval :=
  if first ≤ second then ⟨first, second⟩ else ⟨second, first⟩

/-- The interval of a single rational. -/
def point (v : Rat) : Interval := ⟨v, v⟩

/-- The distance between the ends. -/
def width (a : Interval) : Rat := a.hi - a.lo

/-- The middle of the interval. -/
def midpoint (a : Interval) : Rat := (a.lo + a.hi) / 2

/-- Whether the interval is a single point. -/
def isPoint (a : Interval) : Bool := a.lo == a.hi

/-- Whether a rational lies in the interval. -/
def contains (a : Interval) (v : Rat) : Bool := a.lo ≤ v && v ≤ a.hi

/-- Whether zero lies in the interval. -/
def containsZero (a : Interval) : Bool := a.lo ≤ 0 && 0 ≤ a.hi

/-- Whether two intervals meet. -/
def overlaps (a b : Interval) : Bool := a.lo ≤ b.hi && b.lo ≤ a.hi

/-- The least interval that contains both. -/
def hull (a b : Interval) : Interval :=
  ⟨Rational.least a.lo b.lo, Rational.greatest a.hi b.hi⟩

/-- The same upper end with a new lower end. -/
def withLo (a : Interval) (lo : Rat) : Interval := ⟨lo, a.hi⟩

/-- The same lower end with a new upper end. -/
def withHi (a : Interval) (hi : Rat) : Interval := ⟨a.lo, hi⟩

/-- All sums of members. -/
def add (a b : Interval) : Interval := ⟨a.lo + b.lo, a.hi + b.hi⟩

/-- All negated members. -/
def neg (a : Interval) : Interval := ⟨-a.hi, -a.lo⟩

/-- All products of members: the ends are the least and the greatest product of ends. -/
def mul (a b : Interval) : Interval :=
  let corner := a.lo * b.lo
  let others := [a.lo * b.hi, a.hi * b.lo, a.hi * b.hi]
  ⟨others.foldl Rational.least corner, others.foldl Rational.greatest corner⟩

/-- All reciprocals of members; an interval with zero in it has none. -/
def recip? (a : Interval) : Option Interval :=
  if a.containsZero then none else some ⟨a.hi⁻¹, a.lo⁻¹⟩

/-- All `k`-th powers of members. -/
def power (a : Interval) (k : Nat) : Interval :=
  if k = 0 then point 1
  else
    let lo := Rational.power a.lo k
    let hi := Rational.power a.hi k
    if k % 2 = 1 ∨ 0 ≤ a.lo then between lo hi
    else if a.hi ≤ 0 then between hi lo
    else ⟨0, Rational.greatest lo hi⟩

/-- The text of an interval: its ends in brackets. -/
def text (a : Interval) : String :=
  "[" ++ Rational.text a.lo ++ ", " ++ Rational.text a.hi ++ "]"

end Interval
end Stratagem
