import Stratagem.Rewriting.Monomial
import Stratagem.Rewriting.Rule

/-!
# Circular and hyperbolic functions

Rules for sine, cosine, tangent, their hyperbolic counterparts and the inverses of all six. Sine,
cosine and tangent have known values at the multiples of `pi / 12`; these are sums of rational
multiples of square roots. Elsewhere the functions cancel their inverses, negative arguments are
moved out, and multiples of the period are dropped from sums.
-/
namespace Stratagem.Arithmetic

open Terms Rule

/-- The sum of `c * sqrt n` over its members; the radicand one stands for a rational. -/
abbrev SurdSum := List (Rat × Nat)

/-- Every coefficient with the opposite sign if `negative`. -/
def SurdSum.signed (negative : Bool) (v : SurdSum) : SurdSum :=
  if negative then v.map fun (c, n) => (-c, n) else v

/-- The sine of `k * pi / 12` for `k` from zero to six. -/
def sinTwelfths : Nat → Option SurdSum
  | 0 => some []
  | 1 => some [(mkRat 1 4, 6), (mkRat (-1) 4, 2)]
  | 2 => some [(mkRat 1 2, 1)]
  | 3 => some [(mkRat 1 2, 2)]
  | 4 => some [(mkRat 1 2, 3)]
  | 5 => some [(mkRat 1 4, 6), (mkRat 1 4, 2)]
  | 6 => some [(1, 1)]
  | _ => none

/-- The tangent of `k * pi / 12` for `k` from zero to five. -/
def tanTwelfths : Nat → Option SurdSum
  | 0 => some []
  | 1 => some [(2, 1), (-1, 3)]
  | 2 => some [(mkRat 1 3, 3)]
  | 3 => some [(1, 1)]
  | 4 => some [(1, 3)]
  | 5 => some [(2, 1), (1, 3)]
  | _ => none

/-- The number of twelfths in a fraction, if it is a whole one. -/
def twelfths? (k : Rat) : Option Nat :=
  if Rational.isIntegral (k * 12) then some (k * 12).num.toNat else none

/-- The sine of `k * pi`, if known: `k` is brought into `[0, 1/2]` by the period and the
symmetries. -/
def sinAtPi? (k : Rat) : Option SurdSum := do
  let k := k - 2 * Rational.ofInt (k / 2).floor
  let negative := decide (1 ≤ k)
  let k := if negative then k - 1 else k
  let k := if mkRat 1 2 < k then 1 - k else k
  return (← sinTwelfths (← twelfths? k)).signed negative

/-- The tangent of `k * pi`, if known. -/
def tanAtPi? (k : Rat) : Option SurdSum := do
  let k := k - Rational.ofInt k.floor
  let negative := decide (mkRat 1 2 < k)
  let k := if negative then 1 - k else k
  return (← tanTwelfths (← twelfths? k)).signed negative

/-- The inverse sine as a multiple of pi, if known. -/
def asinOverPi? (v : Rat) : Option Rat :=
  let magnitude : Option Rat :=
    if v.abs = 0 then some 0
    else if v.abs = mkRat 1 2 then some (mkRat 1 6)
    else if v.abs = 1 then some (mkRat 1 2)
    else none
  magnitude.map fun r => if v < 0 then -r else r

/-- The inverse tangent as a multiple of pi, if known. -/
def atanOverPi? (v : Rat) : Option Rat :=
  if v = 0 then some 0
  else if v.abs = 1 then some (if v < 0 then mkRat (-1) 4 else mkRat 1 4)
  else none

/-- The function whose values this one takes back. -/
def inverse? : Op → Option Op
  | .sin => some .asin
  | .cos => some .acos
  | .tan => some .atan
  | .sinh => some .asinh
  | .cosh => some .acosh
  | .tanh => some .atanh
  | _ => none

/-- Whether the function is odd, if it is odd or even. -/
def isOdd? : Op → Option Bool
  | .sin | .tan | .sinh | .tanh | .asin | .atan | .asinh | .atanh => some true
  | .cos | .cosh => some false
  | _ => none

/-- The factor `k` of a term `k * pi`. -/
def piMultiple? (s : Store) (t : TermId) : Option Rat :=
  if s.isZero t then some 0
  else
    match s.view t with
    | (.pi, _) => some 1
    | (.mul, [c, x]) => if s.op x = .pi then s.numeral? c else none
    | _ => none

/-- The factor `k` of a term `k * pi * n` with a cast integer `n`. -/
def piIntMultiple? (s : Store) (t : TermId) : Option Rat :=
  let m := s.monomial t
  match m.product with
  | [x, y] =>
    if (s.op x = .pi ∧ s.op y = .toReal) ∨ (s.op y = .pi ∧ s.op x = .toReal) then some m.coeff
    else none
  | _ => none

/-- The term of a sum of square roots. -/
def mkSurdSum? (v : SurdSum) : Rule (Option Outcome) := do
  match v with
  | [] => return some (.done (← mkReal 0))
  | [(c, 1)] => return some (.done (← mkReal c))
  | _ =>
    if !(← read).algebraicNumberEvaluator then return none
    else
      let half ← mkReal (mkRat 1 2)
      let parts ← v.mapM fun ((c, n) : Rat × Nat) => show Rule TermId from do
        let coeff ← mkReal c
        if n = 1 then return coeff
        else
          let radicand ← mkReal (Rational.ofInt (Int.ofNat n))
          let root ← mkApp .power [radicand, half]
          mkMul [coeff, root]
      return some (.revisitAll (← mkAdd parts))

/-- A multiple of pi. -/
def mkPiTimes (k : Rat) : Rule TermId := do
  if k = 0 then mkReal k
  else
    let pi ← mkPi
    if k = 1 then return pi
    else mkMul [← mkReal k, pi]

/-- A negated term. -/
def mkNegated (t : TermId) : Rule TermId := do
  mkMul [← mkReal (-1), t]

/-- The value of a function at a multiple of pi. -/
def atPi? (f : Op) (k : Rat) : Option SurdSum :=
  match f with
  | .sin => sinAtPi? k
  | .cos => sinAtPi? (k + mkRat 1 2)
  | .tan => tanAtPi? k
  | _ => none

/-- The value of a function at a rational. -/
def atNumeral? (f : Op) (v : Rat) : Rule (Option Outcome) := do
  let multiple (k : Option Rat) : Rule (Option Outcome) :=
    k.mapM fun k => do return .done (← mkPiTimes k)
  let constant (holds : Bool) (c : Rat) : Rule (Option Outcome) := do
    if holds then return some (.done (← mkReal c)) else return none
  match f with
  | .sinh | .tanh | .asinh | .atanh => constant (v = 0) 0
  | .cosh => constant (v = 0) 1
  | .acosh => constant (v = 1) 0
  | .asin => multiple (asinOverPi? v)
  | .acos => multiple ((asinOverPi? v).map (mkRat 1 2 - ·))
  | .atan => multiple (atanOverPi? v)
  | _ => return none

/-- A function of a term with a negative coefficient. -/
def reduceParity? (f : Op) (a : TermId) : Rule (Option Outcome) := do
  match isOdd? f with
  | none => return none
  | some odd =>
    let m ← peek (·.monomial a)
    if m.coeff < 0 && !m.product.isEmpty && !(← peek (·.isNumeral a)) then
      let positive ← if -m.coeff = 1 then mkMul m.product
        else mkMul ((← mkReal (-m.coeff)) :: m.product)
      let fx ← mkApp f [positive]
      if odd then return some (.revisit 2 (← mkNegated fx)) else return some (.revisit 1 fx)
    else return none

/-- A function of a sum without one of its members, which is a multiple `c * pi`. -/
def dropMultiple? (f : Op) (c : Rat) (rest : List TermId) : Rule (Option Outcome) := do
  let r ← mkAdd rest
  if Rational.isIntegral c then
    let fr ← mkApp f [r]
    if f = .tan ∨ c.num % 2 = 0 then return some (.revisit 2 fr)
    else return some (.revisit 3 (← mkNegated fr))
  else if f ≠ .tan ∧ Rational.isIntegral (c * 2) then
    let odd := c.floor % 2 = 1
    let (g, negate) := if f = .sin then (Op.cos, decide odd) else (Op.sin, !decide odd)
    let gr ← mkApp g [r]
    if negate then return some (.revisit 3 (← mkNegated gr)) else return some (.revisit 2 gr)
  else return none

/-- Drop the first summand that is a multiple of the period, or a multiple of half of it. The
summands before the current one are given in reverse. -/
def shiftFrom (f : Op) : List TermId → List TermId → Rule (Option Outcome)
  | _, [] => return none
  | before, x :: after => do
    let rest := before.reverse ++ after
    match ← peek (piIntMultiple? · x) with
    | some c =>
      let period : Rat := if f = .tan then 1 else 2
      if Rational.isIntegral (c / period) then
        let r ← mkAdd rest
        return some (.revisit 2 (← mkApp f [r]))
      else shiftFrom f (x :: before) after
    | none =>
      match ← peek (piMultiple? · x) with
      | none => shiftFrom f (x :: before) after
      | some c =>
        match ← dropMultiple? f c rest with
        | some outcome => return some outcome
        | none => shiftFrom f (x :: before) after

/-- A circular function of a sum. -/
def shiftPeriod? (f : Op) (a : TermId) : Rule (Option Outcome) := do
  match f, ← peek (·.view a) with
  | .sin, (.add, summands) | .cos, (.add, summands) | .tan, (.add, summands) =>
    shiftFrom f [] summands
  | _, _ => return none

/-- The value at a multiple of pi, if known. -/
def reduceAtPi? (f : Op) (a : TermId) : Rule (Option Outcome) := do
  match (← peek (piMultiple? · a)).bind (atPi? f) with
  | some v => mkSurdSum? v
  | none => return none

/-- The value at a rational literal, if known. -/
def reduceAtNumeral? (f : Op) (a : TermId) : Rule (Option Outcome) := do
  match ← peek (·.numeral? a) with
  | some v => atNumeral? f v
  | none => return none

/-- A function of a value of its inverse. -/
def reduceInverse? (f : Op) (a : TermId) : Rule (Option Outcome) :=
  peek fun s =>
    match inverse? f, s.view a with
    | some g, (op, [x]) => if op = g then some (.done x) else none
    | _, _ => none

/-- A tangent as a quotient, if that is asked for. -/
def expandTangent? (f : Op) (a : TermId) : Rule (Option Outcome) := do
  if f = .tan ∧ (← read).expandTan then
    let s ← mkApp .sin [a]
    let c ← mkApp .cos [a]
    return some (.revisit 2 (← mkApp .div [s, c]))
  else return none

/-- The first outcome of several attempts. -/
def firstOutcome : List (Rule (Option Outcome)) → Rule Outcome
  | [] => return .failed
  | attempt :: rest => do
    match ← attempt with
    | some outcome => return outcome
    | none => firstOutcome rest

/-- A circular or hyperbolic function or an inverse of one. -/
def reduceFunction (f : Op) (a : TermId) : Rule Outcome :=
  firstOutcome [reduceAtPi? f a, reduceAtNumeral? f a, reduceInverse? f a, reduceParity? f a,
    shiftPeriod? f a, expandTangent? f a]

end Stratagem.Arithmetic
