/-!
# Integer division and exact roots

Division of integers is Euclidean: the remainder of `a` by `b` lies in `[0, |b|)` and
`a = b * quotient + remainder`. A zero divisor has no quotient, so every operation that divides
is optional. Roots are exact: `root?` answers only when its argument is a perfect power.
-/
namespace Stratagem.Integer

/-- The Euclidean quotient; a zero divisor has none. -/
def div? (a b : Int) : Option Int :=
  if b = 0 then none else some (a / b)

/-- The Euclidean remainder, never negative; a zero divisor has none. -/
def mod? (a b : Int) : Option Int :=
  if b = 0 then none else some (a % b)

/-- The remainder that carries the sign of the divisor. -/
def rem? (a b : Int) : Option Int :=
  (mod? a b).map fun m => if b < 0 then -m else m

/-- The greatest common divisor of a list of integers; zero for the empty list. -/
def gcdList (values : List Int) : Nat :=
  values.foldl (fun g v => g.gcd v.natAbs) 0

/-- Extend the root found so far by the binary digits from position `bits - 1` down to 0, keeping
each digit with which the power still stays within `n`. -/
def rootDigits (n k : Nat) : Nat → Nat → Nat
  | 0, found => found
  | bits + 1, found =>
    let next := found + Nat.pow 2 bits
    rootDigits n k bits (if Nat.pow next k ≤ n then next else found)

/-- The largest `r` with `r ^ k ≤ n`, for positive `k`. -/
def floorRoot (n k : Nat) : Nat :=
  if n = 0 then 0 else rootDigits n k (n.log2 / k + 1) 0

/-- The exact `k`-th root of an integer: negative radicands have one only for odd `k`. -/
def root? (n : Int) (k : Nat) : Option Int :=
  let r := floorRoot n.natAbs k
  if k = 0 then none
  else if n < 0 then
    if k % 2 = 0 then none else if Nat.pow r k = n.natAbs then some (-(r : Int)) else none
  else if Nat.pow r k = n.natAbs then some (r : Int) else none

end Stratagem.Integer
