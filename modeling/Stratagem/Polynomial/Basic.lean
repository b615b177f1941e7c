import Stratagem.Number.Rational

/-!
# Univariate polynomials over the rationals

A polynomial is its list of coefficients, lowest degree first, with no zero at the end; this
invariant is part of the type, so two polynomials are equal exactly when their lists are. The
operations work on coefficient lists and restore the invariant with `trim`.
-/
namespace Stratagem

namespace Coefficients

/-- Drop the zeros at the end of a coefficient list. -/
def trim : List Rat → List Rat
  | [] => []
  | c :: rest =>
    match trim rest with
    | [] => if c = 0 then [] else [c]
    | kept => c :: kept

/-- A trimmed list does not end in zero. -/
theorem getLast?_trim (coeffs : List Rat) : (trim coeffs).getLast? ≠ some 0 := by
  induction coeffs with
  | nil => simp [trim]
  | cons c rest ih =>
    unfold trim
    cases kept : trim rest with
    | nil =>
      by_cases zero : c = 0 <;> simp [zero]
    | cons d more =>
      rw [kept] at ih
      simpa [List.getLast?_cons_cons] using ih

/-- Trimming never lengthens a list. -/
theorem length_trim_le (coeffs : List Rat) : (trim coeffs).length ≤ coeffs.length := by
  induction coeffs with
  | nil => simp [trim]
  | cons c rest ih =>
    unfold trim
    cases kept : trim rest with
    | nil => by_cases zero : c = 0 <;> simp [zero]
    | cons d more => rw [kept] at ih; simpa using ih

/-- Coefficientwise sum. -/
def add : List Rat → List Rat → List Rat
  | [], right => right
  | left, [] => left
  | a :: left, b :: right => (a + b) :: add left right

/-- Product by distributing the left operand's terms over the right operand. -/
def mul : List Rat → List Rat → List Rat
  | [], _ => []
  | a :: left, right => add (right.map (a * ·)) (0 :: mul left right)

/-- The coefficient at an index; zero past the end. -/
def coeff (coeffs : List Rat) (i : Nat) : Rat := coeffs.getD i 0

/-- The value at a point, by Horner's scheme. -/
def eval (coeffs : List Rat) (x : Rat) : Rat :=
  coeffs.foldr (fun c acc => acc * x + c) 0

end Coefficients

/-- A polynomial: coefficients from the lowest degree up, the last of them not zero. -/
structure Poly where
  /-- Coefficients, lowest degree first. -/
  coeffs : List Rat
  /-- The leading coefficient is not zero. -/
  normal : coeffs.getLast? ≠ some 0
  deriving DecidableEq, Repr

namespace Poly

instance : Hashable Poly := ⟨fun p => hash p.coeffs⟩

/-- The polynomial with these coefficients, lowest degree first. -/
def ofCoeffs (coeffs : List Rat) : Poly :=
  ⟨Coefficients.trim coeffs, Coefficients.getLast?_trim coeffs⟩

/-- The zero polynomial. -/
def zero : Poly := ofCoeffs []

/-- A constant. -/
def constant (c : Rat) : Poly := ofCoeffs [c]

/-- The constant one. -/
def one : Poly := constant 1

/-- The monomial `c * x ^ degree`. -/
def monomial (c : Rat) (degree : Nat) : Poly := ofCoeffs (List.replicate degree 0 ++ [c])

/-- The polynomial `x`. -/
def x : Poly := monomial 1 1

/-- The polynomial with these integer coefficients, lowest degree first. -/
def ofInts (coeffs : List Int) : Poly := ofCoeffs (coeffs.map Rational.ofInt)

instance : Inhabited Poly := ⟨zero⟩

/-- The number of coefficients; one more than the degree, and none for zero. -/
def size (p : Poly) : Nat := p.coeffs.length

/-- Whether this is the zero polynomial. -/
def isZero (p : Poly) : Bool := p.coeffs.isEmpty

/-- Whether this is a constant, zero included. -/
def isConstant (p : Poly) : Bool := p.size ≤ 1

/-- The degree; zero for the zero polynomial. -/
def degree (p : Poly) : Nat := p.size - 1

/-- The coefficient of the highest power; zero has none. -/
def leading? (p : Poly) : Option Rat := p.coeffs.getLast?

/-- The coefficient of `x ^ i`. -/
def coeff (p : Poly) (i : Nat) : Rat := Coefficients.coeff p.coeffs i

/-- The value at a point. -/
def eval (p : Poly) (x : Rat) : Rat := Coefficients.eval p.coeffs x

/-- The sign of the value at a point. -/
def signAt (p : Poly) (x : Rat) : Ordering := Rational.sign (p.eval x)

/-- Sum. -/
def add (p q : Poly) : Poly := ofCoeffs (Coefficients.add p.coeffs q.coeffs)

/-- Negation. -/
def neg (p : Poly) : Poly := ofCoeffs (p.coeffs.map (-·))

/-- Difference. -/
def sub (p q : Poly) : Poly := p.add q.neg

/-- Product. -/
def mul (p q : Poly) : Poly := ofCoeffs (Coefficients.mul p.coeffs q.coeffs)

/-- Every coefficient times a constant. -/
def scale (p : Poly) (c : Rat) : Poly := ofCoeffs (p.coeffs.map (· * c))

/-- The multiple of leading coefficient one; zero stays zero. -/
def monic (p : Poly) : Poly :=
  match p.leading? with
  | some lead => p.scale lead⁻¹
  | none => zero

/-- The formal derivative. -/
def derivative (p : Poly) : Poly :=
  ofCoeffs ((p.coeffs.mapIdx fun i c => c * Rational.ofInt i).drop 1)

/-- The substitution `p (a * x + b)`. -/
def composeLinear (p : Poly) (a b : Rat) : Poly :=
  let line := ofCoeffs [b, a]
  p.coeffs.foldr (fun c acc => (acc.mul line).add (constant c)) zero

/-- The substitution `p (-x)`. -/
def reflect (p : Poly) : Poly :=
  ofCoeffs (p.coeffs.mapIdx fun i c => if i % 2 = 1 then -c else c)

/-- The coefficients in reverse order: `x ^ n * p (1 / x)` for the degree `n`. -/
def reverse (p : Poly) : Poly := ofCoeffs p.coeffs.reverse

/-- Spread a coefficient list so that the power `i` becomes `i * (gap + 1)`. -/
def spread (gap : Nat) : List Rat → List Rat
  | [] => []
  | c :: rest => c :: (List.replicate gap 0 ++ spread gap rest)

/-- The substitution `p (x ^ k)`. -/
def substitutePower (p : Poly) : Nat → Poly
  | 0 => constant (p.coeffs.foldl (· + ·) 0)
  | gap + 1 => ofCoeffs (spread gap p.coeffs)

/-- The polynomial without its factors `x`. -/
def stripZeroRoots (p : Poly) : Poly := ofCoeffs (p.coeffs.dropWhile (· = 0))

/-- A bound strictly above the magnitude of every root: one more than the largest magnitude of a
coefficient over the leading one. -/
def rootBound (p : Poly) : Rat :=
  match p.leading? with
  | none => 1
  | some lead =>
    p.coeffs.dropLast.foldl (fun most c => Rational.greatest most (c / lead).abs) 0 + 1

/-- The coefficients scaled to integers of greatest common divisor one, the leading one
positive. -/
def primitiveInts (p : Poly) : List Int :=
  let common := p.coeffs.foldl (fun l c => l.lcm c.den) 1
  let ints : List Int := p.coeffs.map fun c => c.num * Int.ofNat (common / c.den)
  let content := Integer.gcdList ints
  let reduced := if content = 0 then ints else ints.map (· / Int.ofNat content)
  match reduced.getLast? with
  | some lead => if lead < 0 then reduced.map (-·) else reduced
  | none => reduced

/-- The multiple with integer coefficients of greatest common divisor one and a positive leading
coefficient. -/
def primitive (p : Poly) : Poly := ofInts p.primitiveInts

/-- One term of the text of a polynomial. -/
def termText (power : Nat) (c : Rat) : String :=
  match power with
  | 0 => Rational.text c
  | 1 => Rational.text c ++ "*x"
  | _ => Rational.text c ++ "*x^" ++ toString power

/-- The text of a polynomial: its terms with a coefficient, highest power first, joined by plus
signs; zero is `0`. -/
def text (p : Poly) : String :=
  if p.isZero then "0"
  else
    let terms := p.coeffs.mapIdx fun i c => (i, c)
    " + ".intercalate ((terms.filter (·.2 ≠ 0)).reverse.map fun term => termText term.1 term.2)

end Poly
end Stratagem
