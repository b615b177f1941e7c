import Stratagem.Algebraic.Basic
import Stratagem.Term.Sort

/-!
# Operators

The head of a term: a literal, a constant, one of the interpreted operators, the application of a
function without an interpretation, or a quantifier with its bound variables. Together with the
arguments it determines a term.
-/
namespace Stratagem

/-- A bound variable. -/
structure Binder where
  /-- Name of the variable. -/
  name : String
  /-- Sort of the variable. -/
  sort : TermSort
  deriving DecidableEq, Hashable, Repr

/-- The head of a term. -/
inductive Op where
  /-- A truth value. -/
  | bool (value : Bool)
  /-- A constant without an interpretation, or a variable under a quantifier. -/
  | var (name : String)
  /-- An integer literal. -/
  | int (value : Int)
  /-- A rational literal of the real sort. -/
  | real (value : Rat)
  /-- An irrational literal. -/
  | algebraic (value : Algebraic)
  /-- The number pi. -/
  | pi
  /-- A bit-vector literal, below two to its width. -/
  | bitVec (value width : Nat)
  | not
  | and
  | or
  | implies
  | xor
  | ite
  | eq
  /-- Pairwise different. -/
  | distinct
  | neg
  | add
  | sub
  | mul
  /-- Division of reals. -/
  | div
  /-- Euclidean division of integers. -/
  | intDiv
  /-- Euclidean remainder, never negative. -/
  | mod
  /-- Remainder with the sign of the divisor. -/
  | rem
  | power
  | le
  | lt
  | ge
  | gt
  | toReal
  /-- The integral part of a real. -/
  | toInt
  | isInt
  | sin
  | cos
  | tan
  | asin
  | acos
  | atan
  | sinh
  | cosh
  | tanh
  | asinh
  | acosh
  | atanh
  | bvNot
  | bvNeg
  | bvAnd
  | bvOr
  | bvXor
  | bvAdd
  | bvSub
  | bvMul
  /-- Concatenation, the high part first. -/
  | bvConcat
  /-- The bits from `high` down to `low`, both included. -/
  | bvExtract (high low : Nat)
  | bvUlt
  | bvUle
  | bvSlt
  | bvSle
  | select
  | store
  /-- Application of a function without an interpretation. -/
  | apply (function : String)
  /-- For all values of the bound variables. -/
  | universal (vars : List Binder)
  /-- For some values of the bound variables. -/
  | existential (vars : List Binder)
  deriving DecidableEq, Hashable, Repr, Inhabited

namespace Op

/-- The operators that have a symbol of their own and no parameters. -/
def plain : List Op :=
  [not, and, or, implies, xor, ite, eq, distinct, neg, add, sub, mul, div, intDiv, mod, rem, power,
    le, lt, ge, gt, toReal, toInt, isInt, sin, cos, tan, asin, acos, atan, sinh, cosh, tanh, asinh,
    acosh, atanh, bvNot, bvNeg, bvAnd, bvOr, bvXor, bvAdd, bvSub, bvMul, bvConcat, bvUlt, bvUle,
    bvSlt, bvSle, select, store]

/-- The text of an integer literal: a negative number is written as a negation. -/
def intText (n : Int) : String :=
  if n < 0 then "(- " ++ toString n.natAbs ++ ")" else toString n

/-- The text of a rational literal of the real sort: integers end in `.0`, other fractions are
written as a division. -/
def realText (r : Rat) : String :=
  let magnitude :=
    if r.den = 1 then toString r.num.natAbs ++ ".0"
    else "(/ " ++ toString r.num.natAbs ++ " " ++ toString r.den ++ ")"
  if r < 0 then "(- " ++ magnitude ++ ")" else magnitude

/-- The text of a bound variable. -/
def binderText (b : Binder) : String := "(" ++ b.name ++ " " ++ b.sort.text ++ ")"

/-- How an operator is written: the whole text of a literal, and the head of an application for
the others. -/
def symbol : Op → String
  | bool true => "true"
  | bool false => "false"
  | var name => name
  | int n => intText n
  | real r => realText r
  | algebraic a => a.text
  | pi => "pi"
  | bitVec value width => "(_ bv" ++ toString value ++ " " ++ toString width ++ ")"
  | not => "not"
  | and => "and"
  | or => "or"
  | implies => "=>"
  | xor => "xor"
  | ite => "ite"
  | eq => "="
  | distinct => "distinct"
  | neg | sub => "-"
  | add => "+"
  | mul => "*"
  | div => "/"
  | intDiv => "div"
  | mod => "mod"
  | rem => "rem"
  | power => "^"
  | le => "<="
  | lt => "<"
  | ge => ">="
  | gt => ">"
  | toReal => "to_real"
  | toInt => "to_int"
  | isInt => "is_int"
  | sin => "sin"
  | cos => "cos"
  | tan => "tan"
  | asin => "asin"
  | acos => "acos"
  | atan => "atan"
  | sinh => "sinh"
  | cosh => "cosh"
  | tanh => "tanh"
  | asinh => "asinh"
  | acosh => "acosh"
  | atanh => "atanh"
  | bvNot => "bvnot"
  | bvNeg => "bvneg"
  | bvAnd => "bvand"
  | bvOr => "bvor"
  | bvXor => "bvxor"
  | bvAdd => "bvadd"
  | bvSub => "bvsub"
  | bvMul => "bvmul"
  | bvConcat => "concat"
  | bvExtract high low => "(_ extract " ++ toString high ++ " " ++ toString low ++ ")"
  | bvUlt => "bvult"
  | bvUle => "bvule"
  | bvSlt => "bvslt"
  | bvSle => "bvsle"
  | select => "select"
  | store => "store"
  | apply function => function
  | universal vars => "forall (" ++ " ".intercalate (vars.map binderText) ++ ")"
  | existential vars => "exists (" ++ " ".intercalate (vars.map binderText) ++ ")"

/-- Whether this is a literal, a constant or pi: written without parentheses around it. -/
def isAtom : Op → Bool
  | bool _ | var _ | int _ | real _ | algebraic _ | pi | bitVec .. => true
  | _ => false

/-- Whether this is a literal whose value is fixed: a truth value, a number or a bit-vector. -/
def isValue : Op → Bool
  | bool _ | int _ | real _ | algebraic _ | bitVec .. => true
  | _ => false

/-- The bound variables of a quantifier. -/
def binders? : Op → Option (List Binder)
  | universal vars | existential vars => some vars
  | _ => none

/-- Whether this is a quantifier. -/
def isQuantifier (op : Op) : Bool := op.binders?.isSome

/-- Whether terms with this head are built with an explicit sort. -/
def hasOwnSort : Op → Bool
  | apply _ | universal _ | existential _ => true
  | _ => false

end Op
end Stratagem
