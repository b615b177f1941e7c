import Stratagem.Rewriting.Sum

/-!
# Powers

Rules for powers with a rational literal as exponent. Powers of literals are computed exactly, as
rational or irrational numbers, as long as numerator and denominator of the exponent stay within
the largest degree. Numerators are signed words of 64 bits: the least of them is its own
magnitude, so it stays within every degree, and it counts for no factor at all in a power that is
not rational at once, since factors are counted in words of 32 bits.
-/
namespace Stratagem.Arithmetic

open Terms Rule

/-- The least signed word of 64 bits. -/
def leastWord : Int := -9223372036854775808

/-- Whether a numerator stays within a degree. -/
def isWithin (degree : Nat) (p : Int) : Bool := p = leastWord || p.natAbs ≤ degree

/-- The number of factors of a power, counted in a word of 32 bits. -/
def factorCount (p : Int) : Nat := p.natAbs % 4294967296

/-- The power of a numeral with exponent `p / q`: the `p`-th power of its real `q`-th root. -/
def numeralPower (value : Numeral) (p : Int) (q : Nat) : Rule (Option Numeral) := do
  match ← evaluate? (value.root q) with
  | none => return none
  | some root =>
    match ← evaluate? (root.power (factorCount p)) with
    | none => return none
    | some powered => if p < 0 then evaluate? powered.inv else return some powered

/-- The power of a rational when it is rational again. -/
def rationalPower? (r : Rat) (p : Int) (q : Nat) : Option Rat := do
  let root ← if q = 1 then some r else Rational.root? r q
  Rational.power? root p

/-- The power of a literal. -/
def foldPower (value : Numeral) (y : Rat) (isInt : Bool) : Rule Outcome := do
  let config ← read
  let degree := config.maxDegree.toNat
  let (p, q) := (y.num, y.den)
  if !isWithin degree p || degree < q then return .failed
  else if p < 0 && isInt then return .failed
  else if q % 2 = 0 && value.sign == .lt then return .failed
  else
    match value.asRational?.bind (rationalPower? · p q) with
    | some power => return .done (← mkNumeral power isInt)
    | none =>
      if value.isRational && !config.algebraicNumberEvaluator then return .failed
      else
        match ← numeralPower value p q with
        | some power => return .done (← mkNumber power isInt)
        | none => return .failed

/-- The power of a term that is not a literal, with an integer exponent other than zero and
one. -/
def reduceIntPower (t base : TermId) (k : Int) : Rule Outcome := do
  let inner ← peek fun s =>
    match s.view base with
    | (.power, [b, e]) => (intPower? s e).map fun j => (b, j)
    | _ => none
  match inner with
  | some (b, j) => return .revisit 1 (← mkApp .power [b, ← mkInt (j * k)])
  | none =>
    if k < 0 then
      if !(← peek (·.isReal t)) then return .failed
      else
        let one ← mkReal 1
        let p ← mkApp .power [base, ← mkInt (-k)]
        return .revisit 2 (← mkApp .div [one, p])
    else
      let config ← read
      let isSum ← peek fun s => s.op base == .add
      if (config.expandPower || (config.som && isSum)) && !config.mulToPower
          && k.toNat ≤ config.maxDegree.toNat then
        return .revisit 1 (← mkMul (List.replicate k.toNat base))
      else return .failed
where
  /-- The value of an integral literal exponent. -/
  intPower? (s : Store) (e : TermId) : Option Int :=
    (s.numeral? e).bind fun r => if Rational.isIntegral r then some r.num else none

/-- A power with a fractional exponent, as a power of a root. -/
def reduceFractionPower (base : TermId) (y : Rat) : Rule Outcome := do
  if y.num = 1 then return .failed
  else
    let root ← mkApp .power [base, ← mkReal (mkRat 1 y.den)]
    return .revisit 1 (← mkApp .power [root, ← mkInt y.num])

/-- Power. Nothing is assumed about zero to the power of zero. -/
def reducePower (t base e : TermId) : Rule Outcome := do
  let isInt ← peek (·.isInt t)
  if ← peek (·.isOne base) then return .done (← mkNumeral 1 isInt)
  else
    match ← peek (·.numeral? e) with
    | none => return .failed
    | some y =>
      let zeroBase ← peek (·.isZero base)
      if y = 1 then return .done base
      else if y = 0 then
        if zeroBase then return .failed else return .done (← mkNumeral 1 isInt)
      else if zeroBase && 0 < y then return .done (← mkNumeral 0 isInt)
      else
        match ← numeralValue? base with
        | some value => foldPower value y isInt
        | none =>
          if Rational.isIntegral y then reduceIntPower t base y.num
          else reduceFractionPower base y

end Stratagem.Arithmetic
