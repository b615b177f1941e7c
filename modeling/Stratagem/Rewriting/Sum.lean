import Stratagem.Rewriting.Monomial
import Stratagem.Rewriting.Rule

/-!
# Sums and products

Rules for sums, products, differences and negation. A sum becomes a literal and one monomial for
each power product; a product becomes a literal and the other factors in order. A sum or product
already of this form is left alone.
-/
namespace Stratagem.Arithmetic

open Terms Rule

/-- A multiple of a power product. An irrational leading factor takes up the coefficient. -/
def mkMonomial (c : Rat) (product : PowerProduct) (isInt : Bool) : Rule TermId := do
  match product with
  | [] => mkNumeral c isInt
  | first :: rest =>
    if c = 1 then mkMul product
    else
      let irrational ← peek (·.algebraic? first)
      match (← read).algebraicNumberEvaluator, irrational with
      | true, some a =>
        match ← compute (Numeral.mul (.rational c) (.irrational a)) with
        | .ok folded => mkMul ((← mkNumber folded false) :: rest)
        | .error _ => mkMul ((← mkNumeral c isInt) :: product)
      | _, _ => mkMul ((← mkNumeral c isInt) :: product)

/-- The terms of several monomials. -/
def mkMonomials (monomials : List Monomial) (isInt : Bool) : Rule (List TermId) :=
  monomials.mapM fun m => mkMonomial m.coeff m.product isInt

/-- The sum of an optional literal and monomials; zero if there are none. -/
def mkSum (constant : Option TermId) (monomials : List Monomial) (isInt : Bool) : Rule TermId := do
  match constant.toList ++ (← mkMonomials monomials isInt) with
  | [] => mkNumeral 0 isInt
  | terms => mkAdd terms

/-- Gather summands into a literal and monomials; nothing if the literals cannot be added. -/
def gatherSum : List TermId → Option Numeral → Monomials →
    Rule (Option (Option Numeral × Monomials))
  | [], constant, monomials => return some (constant, monomials)
  | t :: rest, constant, monomials => do
    match ← numeralValue? t, constant with
    | some value, none => gatherSum rest (some value) monomials
    | some value, some total =>
      match ← evaluate? (total.add value) with
      | some total => gatherSum rest (some total) monomials
      | none => return none
    | none, _ =>
      let m ← peek (·.monomial t)
      gatherSum rest constant (monomials.add m.coeff m.product)

/-- Sum: flattened, literals added up, monomials merged. -/
def reduceAdd (t : TermId) (args : List TermId) : Rule Outcome := do
  let isInt ← peek (·.isInt t)
  let summands ← peek fun s => args.flatMap s.summands
  match ← gatherSum summands none {} with
  | none => return .failed
  | some (constant, monomials) =>
    let monomials := monomials.retainNonzero
    let monomials := if (← read).sortSums then monomials.sort else monomials
    let constant ← (constant.filter fun c => !c.isZero).mapM (mkNumber · isInt)
    let terms := constant.toList ++ (← mkMonomials monomials.toList isInt)
    if terms = args then return .failed
    else if terms.isEmpty then return .done (← mkNumeral 0 isInt)
    else return .done (← mkAdd terms)

/-- Gather factors into a literal and the other factors, given in reverse; an outcome instead if
a factor is zero or the literals cannot be multiplied. -/
def gatherProduct (isInt : Bool) : List TermId → Numeral → List TermId →
    Rule (Except Outcome (Numeral × List TermId))
  | [], coeff, others => return .ok (coeff, others.reverse)
  | t :: rest, coeff, others => do
    match ← numeralValue? t with
    | none => gatherProduct isInt rest coeff (t :: others)
    | some value =>
      if value.isZero then return .error (.done (← mkNumeral 0 isInt))
      else
        match ← evaluate? (coeff.mul value) with
        | some product => gatherProduct isInt rest product others
        | none => return .error .failed

/-- Base and exponent of a factor: a power with a positive integer literal as exponent is taken
apart. -/
def basePower (s : Store) (t : TermId) : TermId × Nat :=
  match s.view t with
  | (.power, [base, e]) =>
    match s.numeral? e with
    | some r => if Rational.isIntegral r && 0 < r then (base, r.num.toNat) else (t, 1)
    | none => (t, 1)
  | _ => (t, 1)

/-- Add to the exponent of a base, or append a new base. -/
def addExponent (base : TermId) (k : Nat) : List (TermId × Nat) → List (TermId × Nat)
  | [] => [(base, k)]
  | (other, j) :: rest =>
    if other = base then (other, j + k) :: rest else (other, j) :: addExponent base k rest

/-- Ascending order of terms. -/
def ascending (terms : List TermId) : List TermId := terms.mergeSort fun a b => a ≤ b

/-- Collect factors with one base into powers. -/
def groupPowers (factors : List TermId) : Rule (List TermId) := do
  let powers ← peek fun s => factors.foldl (fun powers t =>
    let (base, k) := basePower s t
    addExponent base k powers) []
  let terms ← powers.mapM fun (base, k) => do
    if k = 1 then return base
    else
      let e ← mkInt (Int.ofNat k)
      (mkApp .power [base, e] : Rule TermId)
  return ascending terms

/-- The sum of all products of a literal and one summand of each factor. -/
def distribute (coeff : Numeral) (factors : List TermId) (isInt : Bool) : Rule TermId := do
  let lead ← mkNumber coeff isInt
  let choices ← peek fun s => factors.map s.summands
  let products := choices.foldl (fun products summands =>
    products.flatMap fun p => summands.map fun t => p ++ [t]) [[lead]]
  mkAdd (← products.mapM fun p => (mkMul p : Rule TermId))

/-- A literal times a sum, multiplied out. -/
def scaleSum (coeff : Numeral) (summands : List TermId) (isInt : Bool) : Rule Outcome := do
  let lead ← mkNumber coeff isInt
  let products ← summands.mapM fun t => (mkMul [lead, t] : Rule TermId)
  return .revisit 2 (← mkAdd products)

/-- A literal times factors in order. -/
def mkProduct (coeff : Numeral) (factors args : List TermId) (isInt : Bool) : Rule Outcome := do
  let lead ← if coeff.asRational? = some 1 then pure [] else
    (fun c => [c]) <$> mkNumber coeff isInt
  let terms := lead ++ factors
  if terms = args then return .failed
  else if terms.isEmpty then return .done (← mkNumeral 1 isInt)
  else return .done (← mkMul terms)

/-- Product: flattened, literals multiplied, factors ordered; sums are multiplied out by a single
literal, and by each other if that is asked for. -/
def reduceMul (t : TermId) (args : List TermId) : Rule Outcome := do
  let isInt ← peek (·.isInt t)
  match ← gatherProduct isInt (← peek (·.factors args)) (.rational 1) [] with
  | .error outcome => return outcome
  | .ok (coeff, factors) =>
    let factors := ascending factors
    let factors ← if (← read).mulToPower then groupPowers factors else pure factors
    let hasSum ← peek fun s => factors.any fun f => s.op f == .add
    if (← read).som && hasSum then return .revisit 2 (← distribute coeff factors isInt)
    else
      match factors, coeff.asRational? == some 1 with
      | [f], false =>
        match ← peek (·.view f) with
        | (.add, summands) => scaleSum coeff summands isInt
        | _ => mkProduct coeff factors args isInt
      | _, _ => mkProduct coeff factors args isInt

/-- Negation, as a product with minus one. -/
def reduceNeg (t a : TermId) : Rule Outcome := do
  let isInt ← peek (·.isInt t)
  match ← numeralValue? a with
  | some value => return .done (← mkNumber value.neg isInt)
  | none => return .revisit 1 (← mkMul [← mkNumeral (-1) isInt, a])

/-- Difference, as a sum with a product with minus one. -/
def reduceSub (t a b : TermId) : Rule Outcome := do
  let isInt ← peek (·.isInt t)
  let negated ← mkMul [← mkNumeral (-1) isInt, b]
  return .revisit 2 (← mkAdd [a, negated])

end Stratagem.Arithmetic
