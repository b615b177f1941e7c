import Stratagem.Number.Integer

/-!
# Exact rational arithmetic

Signs, integral parts, powers and exact roots of rationals, the fraction of least denominator in
an interval, and the decimal text of a rational. Everything here is exact.
-/
namespace Stratagem.Rational

/-- The order of two rationals. -/
def order (left right : Rat) : Ordering :=
  if left < right then .lt else if left = right then .eq else .gt

/-- The sign of a rational, as its order against zero. -/
def sign (r : Rat) : Ordering := order r 0

/-- The lesser of two rationals, the first when they are equal. -/
def least (left right : Rat) : Rat := if left ≤ right then left else right

/-- The greater of two rationals. -/
def greatest (left right : Rat) : Rat := if left ≤ right then right else left

/-- Whether a rational is an integer. -/
def isIntegral (r : Rat) : Bool := r.den == 1

/-- An integer as a rational. -/
def ofInt (n : Int) : Rat := (n : Rat)

/-- The fraction `n / d`; `d` may be negative. -/
def ofFraction (n d : Int) : Rat := Rat.divInt n d

/-- Decimal text: `n` for an integer, `n/d` in lowest terms otherwise, with the sign in front. -/
def text (r : Rat) : String :=
  if r.den = 1 then toString r.num else toString r.num ++ "/" ++ toString r.den

/-- The `k`-th power. -/
def power (r : Rat) (k : Nat) : Rat := r ^ k

/-- An integer power; zero has no negative powers, and exponents of more than 32 bits are
refused. -/
def power? (r : Rat) (e : Int) : Option Rat :=
  if 4294967296 ≤ e.natAbs then none
  else
    let p := r ^ e.natAbs
    if e < 0 then if p = 0 then none else some p⁻¹ else some p

/-- The exact `k`-th root of a rational, if it is rational. -/
def root? (r : Rat) (k : Nat) : Option Rat := do
  let n ← Integer.root? r.num k
  let d ← Integer.root? r.den k
  some (ofFraction n d)

/-- The fraction of least denominator between the positive fractions `a / b` and `c / d`, as a
numerator and a denominator. If an integer lies between them it is the least such one; otherwise
both have one integral part, and the answer is that part plus the reciprocal of the simplest
fraction between the reciprocals of the fractional parts, taken in the other order. -/
def simplestFraction (a b c d : Nat) : Nat × Nat :=
  let whole := a / b
  if h : b = 0 ∨ a % b = 0 ∨ (a / b + 1) * d ≤ c then
    (if a % b = 0 then whole else whole + 1, 1)
  else
    have : a % b < b := Nat.mod_lt _ (by omega)
    have : c - a / b * d < d := by
      have bound : c < a / b * d + d := by
        have := Nat.succ_mul (a / b) d
        simp only [not_or, Nat.not_le, Nat.succ_eq_add_one] at h this
        omega
      rcases Nat.eq_zero_or_pos d with rfl | positive
      · simp at bound
      · omega
    let inner := simplestFraction d (c - a / b * d) b (a % b)
    (whole * inner.1 + inner.2, inner.1)
termination_by b + d

/-- The rational of least denominator in `[lo, hi]`, and of these the one of least magnitude. -/
def simplestBetween (lo hi : Rat) : Rat :=
  if lo ≤ 0 ∧ 0 ≤ hi then 0
  else if hi < 0 then
    let found := simplestFraction (-hi).num.toNat hi.den (-lo).num.toNat lo.den
    mkRat (-found.1) found.2
  else
    let found := simplestFraction lo.num.toNat lo.den hi.num.toNat hi.den
    mkRat found.1 found.2

/-- A number of halvings that brings a width strictly below a positive target. -/
def halvings (width target : Rat) : Nat :=
  (width / target).ceil.toNat.log2 + 1

end Stratagem.Rational
