/-!
# Sorts

The sorts of terms: booleans, integers, reals, bit-vectors of a width, arrays and named sorts
without an interpretation.
-/
namespace Stratagem

/-- The sort of a term. -/
inductive TermSort where
  | bool
  | int
  | real
  | bitVec (width : Nat)
  | array (domain range : TermSort)
  | named (name : String)
  deriving DecidableEq, Hashable, Repr, Inhabited

namespace TermSort

/-- Whether this is a sort of numbers. -/
def isArith : TermSort → Bool
  | int | real => true
  | _ => false

/-- The width of a bit-vector sort. -/
def width? : TermSort → Option Nat
  | bitVec w => some w
  | _ => none

/-- A number of bits as a width: widths are words of 32 bits. -/
def wordWidth (bits : Nat) : Nat := bits % 4294967296

/-- The text of a sort. -/
def text : TermSort → String
  | bool => "Bool"
  | int => "Int"
  | real => "Real"
  | bitVec w => "(_ BitVec " ++ toString w ++ ")"
  | array domain range => "(Array " ++ domain.text ++ " " ++ range.text ++ ")"
  | named name => name

end TermSort
end Stratagem
