import Stratagem.Rewriting.Sum

/-!
# Comparisons of numbers

Rules for `<=`, `>=` and `=` between numbers. Common monomials cancel and the constant moves to
the right; a single monomial against a constant becomes a bound on its power product. Bounds on
integers are rounded, and integer comparisons are divided by the common divisor of their
coefficients if that is asked for.
-/
namespace Stratagem

/-- The relation of a comparison. -/
inductive Relation where
  | le
  | ge
  | eq
  deriving DecidableEq, Repr

namespace Relation

/-- The relation with the sides exchanged. -/
def flip : Relation → Relation
  | le => ge
  | ge => le
  | eq => eq

/-- Whether the relation holds of two numbers in this order. -/
def holds : Relation → Ordering → Bool
  | le, order => order != .gt
  | ge, order => order != .lt
  | eq, order => order == .eq

/-- The operator of the relation. -/
def op : Relation → Op
  | le => .le
  | ge => .ge
  | eq => .eq

end Relation

namespace Arithmetic

open Terms Rule

/-- A comparison. -/
def mkComparison (relation : Relation) (a b : TermId) : Rule TermId := mkApp relation.op [a, b]

/-- A factor compared with zero: an odd power is its base, an even power is a square, and for
equations every power is its base. Nothing if the factor stays as it is. -/
def reduceZeroFactor? (relation : Relation) (f : TermId) : Rule (Option TermId) := do
  match ← peek (·.view f) with
  | (.power, [base, e]) =>
    match ← peek (·.numeral? e) with
    | some k =>
      if Rational.isIntegral k && 1 < k then
        if relation = .eq then return some base
        else if 2 < k.num then
          if k.num % 2 = 1 then return some base
          else
            let two ← mkInt 2
            return some (← mkApp .power [base, two])
        else return none
      else return none
    | none => return none
  | _ => return none

/-- The factors of a product, or a power as its only factor. -/
def zeroFactors? (s : Store) (p : TermId) : Option (List TermId) :=
  match s.view p with
  | (.mul, args) => some args
  | (.power, _) => some [p]
  | _ => none

/-- A comparison of a product with zero, with its powers reduced. -/
def reduceZeroPower? (relation : Relation) (a b : TermId) : Rule (Option Outcome) := do
  let zeroLeft ← peek (·.isZero a)
  if !zeroLeft && !(← peek (·.isZero b)) then return none
  else
    let p := if zeroLeft then b else a
    match ← peek (zeroFactors? · p) with
    | none => return none
    | some factors =>
      let isInt ← peek (·.isInt p)
      let reduced ← factors.mapM (reduceZeroFactor? relation)
      if reduced.all Option.isNone then return none
      else
        let product ← mkMul (factors.zipWith (fun f r => r.getD f) reduced)
        let nought ← mkNumeral 0 isInt
        return some (.revisitAll (← if zeroLeft then mkComparison relation nought product
          else mkComparison relation product nought))

/-- The integer factors that casts and integral literals stand for, and whether there is a cast;
nothing if there is another factor. -/
def stripFactors : List TermId → List TermId → Bool → Rule (Option (List TermId × Bool))
  | [], ints, found => return some (ints.reverse, found)
  | f :: rest, ints, found => do
    match ← peek (·.numeral? f) with
    | some r =>
      if Rational.isIntegral r then stripFactors rest ((← mkInt r.num) :: ints) found
      else return none
    | none =>
      match ← peek (·.view f) with
      | (.toReal, [u]) => stripFactors rest (u :: ints) true
      | _ => return none

/-- The factors of a product; any other term is its own factor. -/
def productFactors (s : Store) (t : TermId) : List TermId :=
  match s.view t with
  | (.mul, args) => args
  | _ => [t]

/-- The integer summands that real summands stand for, and whether there is a cast among them. -/
def stripSummands : List TermId → List TermId → Bool → Rule (Option (List TermId × Bool))
  | [], ints, found => return some (ints.reverse, found)
  | t :: rest, ints, found => do
    match ← stripFactors (← peek (productFactors · t)) [] found with
    | some (product, found) => stripSummands rest ((← mkMul product) :: ints) found
    | none => return none

/-- The integer term that a real term of casts and integral literals stands for, and whether there
is a cast in it. -/
def stripToReal? (t : TermId) : Rule (Option (TermId × Bool)) := do
  if !(← peek (·.isReal t)) then return none
  else
    match ← stripSummands (← peek (·.summands t)) [] false with
    | some (ints, found) => return some (← mkAdd ints, found)
    | none => return none

/-- The integer terms that both sides of a comparison stand for, if there is a cast in one of them
and casts are to be dropped. -/
def stripSides? (a b : TermId) : Rule (Option (TermId × TermId)) := do
  if !(← read).elimToReal then return none
  else
    let left ← stripToReal? a
    let right ← stripToReal? b
    match left, right with
    | some (x, castLeft), some (y, castRight) =>
      return if castLeft || castRight then some (x, y) else none
    | _, _ => return none

/-- A comparison brought to the form "left monomials, relation, constant plus right monomials". -/
structure Balance where
  /-- Monomials on the left. -/
  left : Monomials
  /-- Monomials on the right. -/
  right : Monomials
  /-- Constant on the right. -/
  bound : Rat
  /-- Relation of the sides. -/
  relation : Relation

/-- Subtract the monomials of the right side from those of the left that have the same power
product. -/
def cancel (left right : Monomials) : Monomials × Monomials :=
  let (left, right) := left.toList.foldl (fun (kept, right) (m : Monomial) =>
    let (taken, right) := right.take m.product
    (Monomials.add kept (m.coeff - taken.getD 0) m.product, right)) (({} : Monomials), right)
  (left.retainNonzero, right.retainNonzero)

/-- Cancel common monomials and move the constant to the right; the left side is empty only if
both are. -/
def balance (s : Store) (lhsOnly : Bool) (relation : Relation) (a b : TermId) : Balance :=
  let l := s.linearForm a
  let r := s.linearForm b
  let bound := r.constant - l.constant
  let (left, right) := cancel l.monomials r.monomials
  let (left, right) : Monomials × Monomials :=
    if lhsOnly then
      ((right.toList.foldl (fun all m => all.add (-m.coeff) m.product) left).retainNonzero, {})
    else (left, right)
  if left.isEmpty && !right.isEmpty then ⟨right, left, -bound, relation.flip⟩
  else ⟨left, right, bound, relation⟩

/-- The comparison of two terms as the result for `t`, split in two if it is an equation and that
is asked for. -/
def finishComparison (t : TermId) (relation : Relation) (a b : TermId) : Rule Outcome := do
  let r ← mkComparison relation a b
  if relation = .eq ∧ (← read).eq2ineq then
    let le ← mkApp .le [a, b]
    let ge ← mkApp .ge [a, b]
    return .revisit 2 (← mkAnd [le, ge])
  else return if r = t then .failed else .done r

/-- A multiple of one power product against a constant, as a bound on the power product. -/
def reduceBound (t : TermId) (relation : Relation) (m : Monomial) (bound : Rat) (isInt : Bool) :
    Rule Outcome := do
  let relation := if m.coeff < 0 then relation.flip else relation
  let x ← mkMul m.product
  if isInt && relation == .eq && !Rational.isIntegral bound then decided false
  else
    let bound := if isInt then
        match relation with
        | .le => Rational.ofInt bound.floor
        | .ge => Rational.ofInt bound.ceil
        | .eq => bound
      else bound
    finishComparison t relation x (← mkNumeral bound isInt)

/-- The common divisor of the coefficients of both sides, if they are integers and it is more than
one. -/
def commonDivisor? (b : Balance) : Option Nat :=
  let monomials := b.left.toList ++ b.right.toList
  if Rational.isIntegral b.bound && monomials.all fun m => Rational.isIntegral m.coeff then
    let g := Integer.gcdList (monomials.map (·.coeff.num))
    if 1 < g then some g else none
  else none

/-- Divide by a common divisor, rounding the constant; nothing if it is an equation whose constant
is not divisible. -/
def Balance.divide? (b : Balance) (g : Nat) : Option Balance :=
  let divisor := Rational.ofInt (Int.ofNat g)
  let quotient := b.bound / divisor
  if b.relation = .eq ∧ b.bound.num % Int.ofNat g ≠ 0 then none
  else
    let bound := match b.relation with
      | .le => Rational.ofInt quotient.floor
      | .ge => Rational.ofInt quotient.ceil
      | .eq => quotient
    some { b with left := b.left.divide divisor, right := b.right.divide divisor, bound }

/-- The comparison of a balance as the result for `t`. -/
def mkBalance (t : TermId) (b : Balance) (isInt : Bool) : Rule Outcome := do
  let left ← mkSum none b.left.toList isInt
  let constant ←
    if b.bound ≠ 0 ∨ b.right.isEmpty then some <$> mkNumeral b.bound isInt else pure none
  let right ← match constant, b.right.isEmpty with
    | some c, true => pure c
    | constant, _ => mkSum constant b.right.toList isInt
  finishComparison t b.relation left right

/-- A comparison of sums. -/
def reduceBalance (t : TermId) (b : Balance) (isInt : Bool) : Rule Outcome := do
  match b.left.toList, b.right.isEmpty with
  | [], _ => decided (b.relation.holds (Rational.order 0 b.bound))
  | [m], true => reduceBound t b.relation m (b.bound / m.coeff) isInt
  | _, _ =>
    let divisor := if (← read).gcdRounding && isInt then commonDivisor? b else none
    match divisor with
    | none => mkBalance t b isInt
    | some g =>
      match b.divide? g with
      | none => decided false
      | some divided =>
        modify fun t => { t with gcdRoundings := t.gcdRoundings + 1 }
        mkBalance t divided isInt

/-- A comparison of numbers. -/
def reduceComparison (t : TermId) (relation : Relation) (a b : TermId) : Rule Outcome := do
  match ← numeralValue? a, ← numeralValue? b with
  | some v, some w =>
    match ← evaluate? (v.compare w) with
    | some order => decided (relation.holds order)
    | none => return .failed
  | _, _ =>
    match ← reduceZeroPower? relation a b with
    | some outcome => return outcome
    | none =>
      match ← stripSides? a b with
      | some (x, y) => return .revisitAll (← mkComparison relation x y)
      | none =>
        let isInt ← peek fun s => s.isInt a && s.isInt b
        let lhsOnly := (← read).arithLhs
        reduceBalance t (← peek (balance · lhsOnly relation a b)) isInt

end Arithmetic
end Stratagem
