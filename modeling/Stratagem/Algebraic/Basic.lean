import Stratagem.Algebraic.Isolation
import Stratagem.Number.Binary64

/-!
# Real algebraic numbers

An irrational algebraic number is a root of a square-free integer polynomial: the polynomial, the
position of the root among its real roots, and an interval whose only root it is and whose ends are
no roots. Halving the interval moves it closer to the number without changing what it denotes, so
two numbers are compared by polynomial and position alone. A numeral is a rational or such a number.
-/
namespace Stratagem

/-- A root of a polynomial, with an interval that isolates it. -/
structure Algebraic where
  /-- Defining polynomial. -/
  poly : Poly
  /-- Position among the real roots of the polynomial, from zero. -/
  rootIndex : Nat
  /-- Isolating interval. -/
  interval : Interval
  deriving DecidableEq, Repr

namespace Algebraic

instance : Hashable Algebraic := ⟨fun a => mixHash (hash a.poly) (hash a.rootIndex)⟩

/-- Whether two numbers are the same root of the same polynomial; the intervals do not matter. -/
def sameRoot (a b : Algebraic) : Bool := a.rootIndex == b.rootIndex && a.poly == b.poly

/-- The same number with the interval that isolation finds for its root, so that a root of a
polynomial has one form. No number stands past the last root. -/
def canonical (a : Algebraic) : Algebraic :=
  { a with interval := a.poly.isolateRoots[a.rootIndex]?.getD (.point 0) }

/-- The degree of the defining polynomial. -/
def degree (a : Algebraic) : Nat := a.poly.degree

/-- Keep the half of the isolating interval that holds the root: the half over which the
polynomial changes sign. -/
def refine (a : Algebraic) : Algebraic :=
  let mid := a.interval.midpoint
  if a.poly.signAt a.interval.lo = a.poly.signAt mid then
    { a with interval := a.interval.withLo mid }
  else
    { a with interval := a.interval.withHi mid }

/-- Halve at most a number of times, as long as a condition holds. -/
def refineWhile (unfinished : Algebraic → Bool) : Nat → Algebraic → Algebraic
  | 0, a => a
  | rounds + 1, a =>
    if unfinished a then refineWhile unfinished rounds a.refine else a

/-- Halve until the interval is narrower than a width. -/
def refineBelow (a : Algebraic) (width : Rat) : Algebraic :=
  a.refineWhile (fun b => width ≤ b.interval.width) (Rational.halvings a.interval.width width)

/-- Halve until the interval lies on one side of zero. An interval narrower than the magnitude of
every root of the polynomial does. -/
def separateZero (a : Algebraic) : Algebraic :=
  a.refineWhile (·.interval.containsZero)
    (Rational.halvings a.interval.width a.poly.reverse.rootBound⁻¹)

/-- The sign of the number; never zero. -/
def sign (a : Algebraic) : Ordering :=
  if 0 < a.separateZero.interval.lo then .gt else .lt

/-- The double nearest to the middle of the isolating interval. -/
def toFloat (a : Algebraic) : Float := Binary64.ofRat a.interval.midpoint

/-- The text of a number: its polynomial and its position counted from one. -/
def text (a : Algebraic) : String :=
  "(root-obj (" ++ a.poly.text ++ ") " ++ toString (a.rootIndex + 1) ++ ")"

end Algebraic

/-- An exact real numeral. -/
inductive Numeral where
  /-- A rational. -/
  | rational (value : Rat)
  /-- An irrational algebraic number. -/
  | irrational (value : Algebraic)
  deriving DecidableEq, Repr

namespace Numeral

/-- The value of a rational numeral. -/
def asRational? : Numeral → Option Rat
  | rational r => some r
  | irrational _ => none

/-- Whether two numerals are the same rational, or the same root of the same polynomial. -/
def sameNumber : Numeral → Numeral → Bool
  | rational r, rational s => r = s
  | irrational a, irrational b => a.sameRoot b
  | _, _ => false

/-- Whether the numeral is rational. -/
def isRational (a : Numeral) : Bool := a.asRational?.isSome

/-- Whether the numeral is zero. -/
def isZero : Numeral → Bool
  | rational r => r = 0
  | irrational _ => false

/-- Whether the numeral is an integer. -/
def isIntegral : Numeral → Bool
  | rational r => Rational.isIntegral r
  | irrational _ => false

/-- An interval around the value; the point itself for a rational. -/
def interval : Numeral → Interval
  | rational r => .point r
  | irrational a => a.interval

/-- Halve the interval around an irrational value. -/
def refine : Numeral → Numeral
  | rational r => rational r
  | irrational a => irrational a.refine

/-- The sign of the value. -/
def sign : Numeral → Ordering
  | rational r => Rational.sign r
  | irrational a => a.sign

/-- The text of the numeral. -/
def text : Numeral → String
  | rational r => Rational.text r
  | irrational a => a.text

end Numeral
end Stratagem
