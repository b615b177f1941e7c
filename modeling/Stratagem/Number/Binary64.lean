import Stratagem.Number.Rational

/-!
# Doubles nearest to rationals

The double nearest to a rational, a tie going to the one with an even last bit. The word of a
double is found in exact integer arithmetic: a magnitude `n / d` is rounded to a multiple of the
unit `2 ^ exponent` that leaves 53 binary digits, or of `2 ^ (-1074)` when it is smaller than
that allows.
-/
namespace Stratagem.Binary64

/-- The integer nearest to `n / d`, a tie going to the even one. -/
def roundDiv (n d : Nat) : Nat :=
  let quotient := n / d
  let rest := n % d
  if d < 2 * rest then quotient + 1
  else if 2 * rest < d then quotient
  else quotient + quotient % 2

/-- The multiple of `2 ^ exponent` nearest to `n / d`, counted in that unit. -/
def units (n d : Nat) (exponent : Int) : Nat :=
  if exponent < 0 then roundDiv (n * Nat.pow 2 exponent.natAbs) d
  else roundDiv n (d * Nat.pow 2 exponent.natAbs)

/-- The exponent of the unit in the last place of the double nearest to `n / d`. -/
def unitExponent (n d : Nat) : Int :=
  let magnitude := Int.ofNat n.log2 - Int.ofNat d.log2
  let below :=
    if magnitude < 0 then n * Nat.pow 2 magnitude.natAbs < d
    else n < d * Nat.pow 2 magnitude.natAbs
  let exponent := (if below then magnitude - 1 else magnitude) - 52
  if exponent < -1074 then -1074 else exponent

/-- The word of the infinity. -/
def infinityWord : Nat := 2047 * Nat.pow 2 52

/-- The word of the double nearest to the positive fraction `n / d`. -/
def magnitudeWord (n d : Nat) : Nat :=
  let exponent := unitExponent n d
  let word := (exponent + 1074).toNat * Nat.pow 2 52 + units n d exponent
  if infinityWord ≤ word then infinityWord else word

/-- The word of the double nearest to a rational. -/
def wordOfRat (r : Rat) : Nat :=
  if r = 0 then 0
  else (if r < 0 then Nat.pow 2 63 else 0) + magnitudeWord r.num.natAbs r.den

/-- The double nearest to a rational. -/
def ofRat (r : Rat) : Float := Float.ofBits (UInt64.ofNat (wordOfRat r))

end Stratagem.Binary64
