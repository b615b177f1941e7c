import Stratagem.Rewriting.Rule

/-!
# Bit-vectors

Rules for the bit-vector operators: operations on literals are carried out modulo two to the
width, and operations with a neutral or absorbing literal, or with two equal arguments, are
simplified.
-/
namespace Stratagem.BitVector

open Terms Rule

/-- The two's complement reading of a value of a width. -/
def toSigned (value width : Nat) : Int :=
  if 0 < width ∧ value.testBit (width - 1) then
    Int.ofNat value - Int.ofNat (Nat.pow 2 width)
  else Int.ofNat value

/-- The value with all bits of a width set. -/
def allOnes (width : Nat) : Nat := Nat.pow 2 width - 1

/-- A computed literal. -/
def fold (value : Int) (width : Nat) : Rule Outcome := do
  modify fun t => { t with folded := t.folded + 1 }
  return .done (← mkBitVec value width)

/-- A computed comparison. -/
def foldBool (answer : Bool) : Rule Outcome := do
  modify fun t => { t with folded := t.folded + 1 }
  return .done (ofBool answer)

/-- A binary operator on two literals of a width. -/
def foldBinary (op : Op) (a b width : Nat) : Rule Outcome :=
  match op with
  | .bvAnd => fold (Int.ofNat (a &&& b)) width
  | .bvOr => fold (Int.ofNat (a ||| b)) width
  | .bvXor => fold (Int.ofNat (a ^^^ b)) width
  | .bvAdd => fold (Int.ofNat a + Int.ofNat b) width
  | .bvSub => fold (Int.ofNat a - Int.ofNat b) width
  | .bvMul => fold (Int.ofNat a * Int.ofNat b) width
  | .bvUlt => foldBool (a < b)
  | .bvUle => foldBool (a ≤ b)
  | .bvSlt => foldBool (toSigned a width < toSigned b width)
  | .bvSle => foldBool (toSigned a width ≤ toSigned b width)
  | _ => return .failed

/-- A binary operator with a neutral or absorbing literal, or with equal arguments: the values of
those arguments that are literals are given. -/
def simplifyBinary (op : Op) (a b : TermId) (va vb : Option Nat) : Rule Outcome := do
  let width ← peek (·.bitWidth a)
  let same := a = b
  match op with
  | .bvAdd =>
    return if vb = some 0 then .done a else if va = some 0 then .done b else .failed
  | .bvOr =>
    return if vb = some 0 then .done a else if va = some 0 then .done b
      else if same then .done a else .failed
  | .bvXor =>
    if vb = some 0 then return .done a
    else if va = some 0 then return .done b
    else if same then return .done (← mkBitVec 0 width)
    else return .failed
  | .bvSub =>
    if vb = some 0 then return .done a
    else if same then return .done (← mkBitVec 0 width)
    else return .failed
  | .bvMul =>
    return if vb = some 1 then .done a else if va = some 1 then .done b
      else if va = some 0 then .done a else if vb = some 0 then .done b else .failed
  | .bvAnd =>
    return if va = some 0 then .done a else if vb = some 0 then .done b
      else if same then .done a else .failed
  | .bvUle =>
    return if same then .done Store.trueId else if va = some 0 then .done Store.trueId else .failed
  | .bvSle => return if same then .done Store.trueId else .failed
  | .bvUlt | .bvSlt => return if same then .done Store.falseId else .failed
  | _ => return .failed

/-- A binary operator. -/
def reduceBinary (op : Op) (a b : TermId) : Rule Outcome := do
  match ← peek (·.bitVec? a), ← peek (·.bitVec? b) with
  | some (x, width), some (y, _) => foldBinary op x y width
  | va, vb => simplifyBinary op a b (va.map (·.1)) (vb.map (·.1))

/-- A part of a bit-vector: of a literal, and the whole of it. -/
def reduceExtract (high low : Nat) (a : TermId) : Rule Outcome := do
  match ← peek (·.bitVec? a) with
  | some (value, _) =>
    let width := TermSort.wordWidth (high - low + 1)
    fold (Int.ofNat ((value >>> low) &&& allOnes width)) width
  | none =>
    let width ← peek (·.bitWidth a)
    return if low = 0 ∧ TermSort.wordWidth (high + 1) = width then .done a else .failed

/-- An operator that undoes itself. -/
def reduceInvolution (op : Op) (a : TermId) (value : Nat → Nat → Int) : Rule Outcome := do
  match ← peek (·.bitVec? a) with
  | some (v, width) => fold (value v width) width
  | none =>
    match ← peek (·.view a) with
    | (inner, [b]) => return if inner = op then .done b else .failed
    | _ => return .failed

/-- The rules for bit-vectors. -/
def reduce (t : TermId) : Rule Outcome := do
  match ← peek (·.view t) with
  | (.bvNot, [a]) => reduceInvolution .bvNot a fun v width => Int.ofNat (allOnes width ^^^ v)
  | (.bvNeg, [a]) => reduceInvolution .bvNeg a fun v _ => -Int.ofNat v
  | (.bvConcat, [a, b]) =>
    match ← peek (·.bitVec? a), ← peek (·.bitVec? b) with
    | some (x, high), some (y, low) =>
      fold (Int.ofNat ((x <<< low) ||| y)) (TermSort.wordWidth (high + low))
    | _, _ => return .failed
  | (.bvExtract high low, [a]) => reduceExtract high low a
  | (op, [a, b]) => reduceBinary op a b
  | _ => return .failed

end Stratagem.BitVector
