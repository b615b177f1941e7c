import Stratagem.Rewriting.Rule

/-!
# Division and casts

Rules for division of reals, for Euclidean division and remainders of integers, and for the casts
between the two sorts of numbers. Nothing is assumed about division by zero.
-/
namespace Stratagem.Arithmetic

open Terms Rule

/-- The value of an integral literal of either sort. -/
def intValue? (s : Store) (t : TermId) : Option Int :=
  (s.numeral? t).bind fun r => if Rational.isIntegral r then some r.num else none

/-- A product of a rational literal and one other factor. -/
def scaledFactor? (s : Store) (t : TermId) : Option (Rat × TermId) :=
  match s.view t with
  | (.mul, [c, f]) => (s.numeral? c).map fun r => (r, f)
  | _ => none

/-- The quotient of two products with literals, as the quotient of the literals times the quotient
of the other factors. -/
def divideProducts (a b : TermId) : Rule Outcome := do
  match ← peek (scaledFactor? · a), ← peek (scaledFactor? · b) with
  | some (v, f), some (w, g) =>
    if w = 0 then return .failed
    else
      let c ← mkReal (v / w)
      let q ← mkApp .div [f, g]
      return .revisit 2 (← mkMul [c, q])
  | _, _ => return .failed

/-- Division of reals: by a literal other than zero it is a product with the reciprocal. -/
def reduceDiv (a b : TermId) : Rule Outcome := do
  match ← numeralValue? b with
  | none => divideProducts a b
  | some w =>
    if w.isZero then return .failed
    else
      match ← numeralValue? a with
      | some v =>
        match ← evaluate? (v.div w) with
        | some q => return .done (← mkNumber q false)
        | none => return .failed
      | none =>
        match ← evaluate? w.inv with
        | some r => return .revisit 1 (← mkMul [← mkNumber r false, a])
        | none => return .failed

/-- Euclidean division: of literals, and by one. -/
def reduceIntDiv (a b : TermId) : Rule Outcome := do
  match ← peek (intValue? · b) with
  | none => return .failed
  | some k =>
    match (← peek (intValue? · a)).bind (Integer.div? · k) with
    | some q => return .done (← mkInt q)
    | none => return if k = 1 then .done a else .failed

/-- An argument under `mod`: literals and literal coefficients are reduced, and an inner `mod` by
the same divisor is dropped. -/
def reduceModArg (x b : TermId) (k : Int) : Rule TermId := do
  match ← peek (intValue? · x) with
  | some n => mkInt ((Integer.mod? n k).getD n)
  | none =>
    match ← peek (·.view x) with
    | (.mod, [u, d]) => return if d = b then u else x
    | (.mul, lead :: rest) =>
      match ← peek (intValue? · lead) with
      | none => return x
      | some c =>
        let m := (Integer.mod? c k).getD c
        if m = c then return x else mkMul ((← mkInt m) :: rest)
    | _ => return x

/-- Reduce the arguments of a sum or product under `mod`. -/
def pushMod (a b : TermId) (k : Int) : Rule Outcome := do
  let (op, args) ← peek (·.view a)
  if op = .add ∨ op = .mul then
    let reduced ← args.mapM (reduceModArg · b k)
    if reduced = args then return .failed
    else
      let inner ← if op = .add then mkAdd reduced else mkMul reduced
      return .revisit 3 (← mkApp .mod [inner, b])
  else return .failed

/-- Euclidean remainder: of literals, by one or minus one, of a remainder by the same divisor, and
of sums and products. -/
def reduceMod (a b : TermId) : Rule Outcome := do
  match ← peek (intValue? · b) with
  | none => return .failed
  | some k =>
    if k = 0 then return .failed
    else
      match (← peek (intValue? · a)).bind (Integer.mod? · k) with
      | some m => return .done (← mkInt m)
      | none =>
        if k.natAbs = 1 then return .done (← mkInt 0)
        else
          match ← peek (·.view a) with
          | (.mod, [_, d]) =>
            if d = b then return .done a else return .failed
          | _ => if 0 < k then pushMod a b k else return .failed

/-- The remainder with the sign of the divisor: by a literal it is a remainder with a sign, and by
another term a case split on its sign if that is asked for. -/
def reduceRem (a b : TermId) : Rule Outcome := do
  match ← peek (intValue? · b) with
  | some k =>
    if k = 0 then return .failed
    else
      match (← peek (intValue? · a)).bind (Integer.rem? · k) with
      | some r => return .done (← mkInt r)
      | none =>
        if k.natAbs = 1 then return .done (← mkInt 0)
        else
          let m ← mkApp .mod [a, b]
          if k < 0 then return .revisit 2 (← mkMul [← mkInt (-1), m])
          else return .revisit 1 m
  | none =>
    if (← read).elimRem then
      let condition ← mkApp .ge [b, ← mkInt 0]
      let m ← mkApp .mod [a, b]
      let negated ← mkApp .neg [m]
      return .revisitAll (← mkIte condition m negated)
    else return .failed

/-- Integral part: of a literal, and of a cast integer. -/
def reduceToInt (a : TermId) : Rule Outcome := do
  match ← numeralValue? a with
  | some value =>
    match ← evaluate? value.floor with
    | some n => return .done (← mkInt n)
    | none => return .failed
  | none =>
    match ← peek (·.view a) with
    | (.toReal, [u]) => return .done u
    | _ => return .failed

/-- Cast of an integer: of a literal, of a term that is real already, and of sums and products if
casts are to be moved into them. -/
def reduceToReal (a : TermId) : Rule Outcome := do
  match ← peek (·.numeral? a) with
  | some r => return .done (← mkReal r)
  | none =>
    if !(← peek (·.isInt a)) then return .done a
    else
      let (op, args) ← peek (·.view a)
      if (← read).pushToReal && (op == .add || op == .mul) then
        let cast ← args.mapM fun x => (mkApp .toReal [x] : Rule TermId)
        return .revisit 2 (← if op = .add then mkAdd cast else mkMul cast)
      else return .failed

/-- Integrality: of a literal and of an integer; otherwise equality with the cast integral part. -/
def reduceIsInt (a : TermId) : Rule Outcome := do
  match ← numeralValue? a with
  | some value => return .done (ofBool value.isIntegral)
  | none =>
    if ← peek fun s => s.isInt a || s.op a == .toReal then return .done Store.trueId
    else
      let cast ← mkApp .toReal [← mkApp .toInt [a]]
      return .revisit 3 (← mkEq cast a)

end Stratagem.Arithmetic
