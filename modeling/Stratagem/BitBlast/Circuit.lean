import Stratagem.Term.Store

/-!
# Circuits over bits

Boolean gates as terms, and the circuits of bit-vector operations. A gate with an operand that
decides it is folded, so gates over constant bits build no terms. A vector of bits has the least
significant bit first.
-/
namespace Stratagem

/-- The bits of a bit-vector, the least significant first. -/
abbrev Bits := List TermId

namespace Gate

/-- Negation. -/
def not (a : TermId) : Terms TermId := do
  if a = Store.trueId then return Store.falseId
  else if a = Store.falseId then return Store.trueId
  else
    match (← read).view a with
    | (.not, [b]) => return b
    | _ => Terms.mkNot a

/-- Conjunction. -/
def and (a b : TermId) : Terms TermId :=
  if a = Store.falseId ∨ b = Store.falseId then return Store.falseId
  else if a = Store.trueId ∨ a = b then return b
  else if b = Store.trueId then return a
  else Terms.mkAnd [a, b]

/-- Disjunction. -/
def or (a b : TermId) : Terms TermId :=
  if a = Store.trueId ∨ b = Store.trueId then return Store.trueId
  else if a = Store.falseId ∨ a = b then return b
  else if b = Store.falseId then return a
  else Terms.mkOr [a, b]

/-- Difference. -/
def xor (a b : TermId) : Terms TermId :=
  if a = b then return Store.falseId
  else if a = Store.falseId then return b
  else if b = Store.falseId then return a
  else if a = Store.trueId then not b
  else if b = Store.trueId then not a
  else Terms.mkApp .xor [a, b]

/-- Equality. -/
def iff (a b : TermId) : Terms TermId := do not (← xor a b)

/-- Choice by a condition. -/
def mux (condition a b : TermId) : Terms TermId :=
  if condition = Store.trueId ∨ a = b then return a
  else if condition = Store.falseId then return b
  else Terms.mkIte condition a b

/-- Conjunction of any number of bits. -/
def all (bits : Bits) : Terms TermId :=
  if bits.contains Store.falseId then return Store.falseId
  else Terms.mkAnd (bits.filter (· != Store.trueId))

end Gate

namespace Circuit

/-- The bits of a number. -/
def ofNat (value width : Nat) : Bits :=
  (List.range width).map fun i => Terms.ofBool (value.testBit i)

/-- A gate at every position of two vectors. -/
def zipWith (gate : TermId → TermId → Terms TermId) (a b : Bits) : Terms Bits :=
  (a.zip b).mapM fun (x, y) => gate x y

/-- Sum and carry of the positions from the least significant on. -/
def ripple : List (TermId × TermId) → TermId → Terms Bits
  | [], _ => return []
  | (x, y) :: rest, carry => do
    let half ← Gate.xor x y
    let sum ← Gate.xor half carry
    let both ← Gate.and x y
    let passed ← Gate.and half carry
    let carry ← Gate.or both passed
    return sum :: (← ripple rest carry)

/-- Addition with a carry into the least significant position. -/
def add (a b : Bits) (carry : TermId) : Terms Bits := ripple (a.zip b) carry

/-- Subtraction: addition of the complement with a carry. -/
def sub (a b : Bits) : Terms Bits := do add a (← b.mapM Gate.not) Store.trueId

/-- Negation: subtraction from zero. -/
def neg (a : Bits) : Terms Bits := sub (a.map fun _ => Store.falseId) a

/-- Twice a vector, in its width. -/
def double (a : Bits) : Bits := (Store.falseId :: a).dropLast

/-- Add the multiples of a vector by the bits of another to a sum. -/
def multiples (a : Bits) : Bits → Bits → Terms Bits
  | [], sum => return sum
  | b :: rest, sum => do
    if b = Store.falseId then multiples (double a) rest sum
    else
      let summand ← a.mapM (Gate.and b)
      multiples (double a) rest (← add sum summand Store.falseId)

/-- Multiplication in the width of the first vector. -/
def mul (a b : Bits) : Terms Bits := multiples a b (a.map fun _ => Store.falseId)

/-- Whether the positions above decide for less, from the decision of those below. -/
def lessFrom : List (TermId × TermId) → TermId → Terms TermId
  | [], less => return less
  | (x, y) :: rest, less => do
    let here ← Gate.and (← Gate.not x) y
    let below ← Gate.and (← Gate.iff x y) less
    lessFrom rest (← Gate.or here below)

/-- Unsigned comparison. -/
def ult (a b : Bits) : Terms TermId := lessFrom (a.zip b) Store.falseId

/-- The vector with its most significant bit negated. -/
def flipSign : Bits → Terms Bits
  | [] => return []
  | [sign] => return [← Gate.not sign]
  | bit :: rest => return bit :: (← flipSign rest)

/-- Signed comparison: unsigned comparison with the signs negated. -/
def slt (a b : Bits) : Terms TermId := do
  let a ← flipSign a
  let b ← flipSign b
  ult a b

/-- Equality. -/
def eq (a b : Bits) : Terms TermId := do Gate.all (← zipWith Gate.iff a b)

/-- The differences of a vector from others. -/
def differences (a : Bits) (others : List Bits) : Terms Bits :=
  others.mapM fun b => do Gate.not (← eq a b)

/-- The pairwise differences of vectors. -/
def pairwise : List Bits → Terms Bits
  | [] => return []
  | a :: rest => do
    let first ← differences a rest
    return first ++ (← pairwise rest)

/-- Pairwise difference. -/
def distinct (vectors : List Bits) : Terms TermId := do Gate.all (← pairwise vectors)

/-- The bit-vector of a bit. -/
def bitVecOfBit (on off bit : TermId) : Terms TermId := Gate.mux bit on off

/-- The bit-vector of the bits above a low part. -/
def concatOver (on off low : TermId) : Bits → Terms TermId
  | [] => return low
  | bit :: rest => do
    let high ← bitVecOfBit on off bit
    concatOver on off (← Terms.mkApp .bvConcat [high, low]) rest

/-- The equation of a bit-vector term with the concatenation of its bits; none if it has no bits.
-/
def link? (t : TermId) (bits : Bits) : Terms (Option TermId) := do
  let on ← Terms.mkBitVec 1 1
  let off ← Terms.mkBitVec 0 1
  match bits with
  | [] => return none
  | bit :: rest =>
    let low ← bitVecOfBit on off bit
    let value ← concatOver on off low rest
    return some (← Terms.mkEq t value)

end Circuit
end Stratagem
