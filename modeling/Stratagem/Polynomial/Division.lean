import Stratagem.Polynomial.Basic

/-!
# Division, remainder sequences and interpolation

Long division over the rationals and what is computed from it: greatest common divisors,
square-free parts, Sturm sequences, counts of real roots and resultants. Every remainder is
shorter than its divisor (`size_rem_lt`), which is why the remainder sequences end.
-/
namespace Stratagem

namespace Coefficients

/-- Subtract a multiple of the divisor's lower coefficients from the front of a list. -/
def subtractScaled (c : Rat) : List Rat → List Rat → List Rat
  | d :: divisor, a :: rest => (a - c * d) :: subtractScaled c divisor rest
  | [], rest => rest
  | _ :: _, [] => []

theorem length_subtractScaled (c : Rat) (divisor rest : List Rat) :
    (subtractScaled c divisor rest).length = rest.length := by
  induction divisor generalizing rest with
  | nil => simp [subtractScaled]
  | cons d divisor ih =>
    cases rest with
    | nil => simp [subtractScaled]
    | cons a rest => simp [subtractScaled, ih]

/-- A number of steps of long division by the divisor with the given leading and lower
coefficients, on coefficients with the highest power first: the quotient's coefficients and what
is left of the dividend. -/
def divideSteps (lead : Rat) (lower : List Rat) : Nat → List Rat → List Rat × List Rat
  | 0, rest => ([], rest)
  | _ + 1, [] => ([], [])
  | n + 1, a :: rest =>
    let c := a / lead
    let (quotient, remainder) := divideSteps lead lower n (subtractScaled c lower rest)
    (c :: quotient, remainder)

theorem length_divideSteps (lead : Rat) (lower : List Rat) (n : Nat) (rest : List Rat) :
    (divideSteps lead lower n rest).2.length = rest.length - n := by
  induction n generalizing rest with
  | zero => simp [divideSteps]
  | succ n ih =>
    cases rest with
    | nil => simp [divideSteps]
    | cons a rest => simp [divideSteps, ih, length_subtractScaled]

end Coefficients

namespace Poly

/-- Quotient and remainder; there are none by the zero polynomial. -/
def divRem? (p d : Poly) : Option (Poly × Poly) :=
  match d.coeffs.reverse with
  | [] => none
  | lead :: lower =>
    let (quotient, remainder) :=
      Coefficients.divideSteps lead lower (p.size - lower.length) p.coeffs.reverse
    some (ofCoeffs quotient.reverse, ofCoeffs remainder.reverse)

/-- The remainder; the dividend itself by the zero polynomial. -/
def rem (p d : Poly) : Poly :=
  match p.divRem? d with
  | some (_, remainder) => remainder
  | none => p

/-- The quotient, for a divisor that leaves no remainder; the dividend itself by the zero
polynomial. -/
def exactDiv (p d : Poly) : Poly :=
  match p.divRem? d with
  | some (quotient, _) => quotient
  | none => p

/-- A remainder is shorter than its divisor. -/
theorem size_rem_lt (p : Poly) {d : Poly} (nonzero : d.isZero = false) :
    (p.rem d).size < d.size := by
  unfold rem divRem?
  have count : d.size = d.coeffs.reverse.length := by simp [size]
  cases shape : d.coeffs.reverse with
  | nil =>
    simp only [List.reverse_eq_nil_iff] at shape
    simp [isZero, shape] at nonzero
  | cons lead lower =>
    have whole : d.size = lower.length + 1 := by simp [count, shape]
    have bound := Coefficients.length_trim_le
      (Coefficients.divideSteps lead lower (p.size - lower.length) p.coeffs.reverse).2.reverse
    simp only [List.length_reverse, Coefficients.length_divideSteps] at bound
    simp only [size, ofCoeffs] at *
    omega

/-- Negation keeps the number of coefficients from growing. -/
theorem size_neg_le (p : Poly) : p.neg.size ≤ p.size := by
  have := Coefficients.length_trim_le (p.coeffs.map (-·))
  simpa [size, neg, ofCoeffs] using this

/-- The last non-zero member of the remainder sequence. -/
def lastRemainder (p q : Poly) : Poly :=
  if zero : q.isZero then p
  else
    have := size_rem_lt p (Bool.eq_false_iff.mpr zero)
    lastRemainder q (p.rem q)
termination_by q.size

/-- The monic greatest common divisor. -/
def gcd (p q : Poly) : Poly := (lastRemainder p q).monic

/-- The polynomial with the same roots, all of them simple. -/
def squareFree (p : Poly) : Poly :=
  if p.degree < 2 then p
  else
    let common := p.gcd p.derivative
    if common.isConstant then p else p.exactDiv common

/-- The sequence of remainders with the sign changed at each step. -/
def signedRemainders (p q : Poly) : List Poly :=
  if zero : q.isZero then [p]
  else
    have : (p.rem q).neg.size < q.size :=
      Nat.lt_of_le_of_lt (size_neg_le _) (size_rem_lt p (Bool.eq_false_iff.mpr zero))
    p :: signedRemainders q (p.rem q).neg
termination_by q.size

/-- The Sturm sequence: the signed remainders of a polynomial and its derivative. -/
def sturm (p : Poly) : List Poly := signedRemainders p p.derivative

/-- The number of neighbours of opposite sign in a list without zeros. -/
def signChanges : List Rat → Nat
  | a :: b :: rest => (if decide (0 < a) = decide (0 < b) then 0 else 1) + signChanges (b :: rest)
  | _ => 0

/-- The number of sign changes of a sequence of polynomials at a point, zeros passed over. -/
def variations (sequence : List Poly) (x : Rat) : Nat :=
  signChanges ((sequence.map (·.eval x)).filter (· ≠ 0))

/-- The number of distinct real roots in `(lo, hi]`, from a Sturm sequence. -/
def countRoots (sequence : List Poly) (lo hi : Rat) : Nat :=
  variations sequence lo - variations sequence hi

/-- The number of real roots below a point that is not a root. -/
def rootsBelow (p : Poly) (x : Rat) : Nat := countRoots p.sturm (-p.rootBound) x

/-- The resultant of two non-zero polynomials times a factor gathered so far. -/
def resultantFrom (factor : Rat) (p q : Poly) : Rat :=
  match q.leading? with
  | none => 0
  | some lead =>
    if q.degree = 0 then factor * Rational.power lead p.degree
    else if zero : q.isZero then 0
    else
      have := size_rem_lt p (Bool.eq_false_iff.mpr zero)
      let r := p.rem q
      if r.isZero then 0
      else
        let sign : Rat := if p.degree * q.degree % 2 = 1 then -factor else factor
        resultantFrom (sign * Rational.power lead (p.degree - r.degree)) q r
termination_by q.size

/-- The resultant of two polynomials, by the Euclidean remainder sequence. -/
def resultant (p q : Poly) : Rat :=
  if p.isZero || q.isZero then 0 else resultantFrom 1 p q

/-- One round of divided differences: `earlier` are the abscissae in order and `later` the same
from the position of the first difference on. -/
def differences : List Rat → List Rat → List Rat → List Rat
  | lo :: earlier, hi :: later, a :: b :: values =>
    (b - a) / (hi - lo) :: differences earlier later (b :: values)
  | _, _, _ => []

/-- The coefficients of the Newton form, by repeated divided differences of the values over
abscissae that are `1, 2, …` positions apart. -/
def newtonCoefficients (xs : List Rat) : List Rat → List Rat → List Rat
  | _, [] => []
  | [], a :: _ => [a]
  | _ :: later, a :: values =>
    a :: newtonCoefficients xs later (differences xs later (a :: values))
termination_by later => later.length

/-- The polynomial through the points with these abscissae, pairwise distinct, and ordinates. -/
def interpolate (xs ys : List Rat) : Poly :=
  (xs.zip (newtonCoefficients xs xs ys)).foldr
    (fun (x, c) acc => (acc.mul (ofCoeffs [-x, 1])).add (constant c)) zero

end Poly
end Stratagem
