import Stratagem.Number.Binary64

/-!
# Decimal text of doubles

A double is written with the fewest decimal digits that read back as the same double, of these
the ones nearest to it, the greater magnitude of two equally near, and always positionally,
without an exponent. A decimal numeral is read as the double nearest to the number it denotes.
-/
namespace Stratagem.Decimal

/-- The magnitude of a finite double from its word, as a fraction. -/
def magnitude (word : Nat) : Nat × Nat :=
  let field := word / Nat.pow 2 52 % 2048
  let fraction := word % Nat.pow 2 52
  let significand := if field = 0 then fraction else fraction + Nat.pow 2 52
  let exponent := Int.ofNat (Nat.max field 1) - 1075
  if exponent < 0 then (significand, Nat.pow 2 exponent.natAbs)
  else (significand * Nat.pow 2 exponent.natAbs, 1)

/-- The fraction `n / d * 10 ^ shift`. -/
def shifted (n d : Nat) (shift : Int) : Nat × Nat :=
  if shift < 0 then (n, d * Nat.pow 10 shift.natAbs) else (n * Nat.pow 10 shift.natAbs, d)

/-- The power of ten at or below the positive fraction `n / d`. -/
def leadingPower (n d : Nat) : Int :=
  let guess := Int.ofNat (toString n).length - Int.ofNat (toString d).length
  let (a, b) := shifted n d (-guess)
  if a < b then guess - 1 else guess

/-- Whether `digits * 10 ^ power` is nearest to the double whose magnitude has this word. -/
def readsBack (word digits : Nat) (power : Int) : Bool :=
  let (a, b) := shifted digits 1 power
  digits != 0 && Binary64.magnitudeWord a b == word

/-- The first number of digits, from a given one on, with which a decimal next to `n / d` reads
back as the double whose magnitude has this word: the nearer of two such decimals, and the greater
of two equally near. With no digits the decimal is the power of ten above `n / d`. Without further
tries it is `n / d` itself, whose denominator is a power of two. -/
def shortestFrom (word n d : Nat) (top : Int) : Nat → Nat → Nat × Int
  | 0, _ => (n * Nat.pow 5 d.log2, -Int.ofNat d.log2)
  | tries + 1, count =>
    let power := top - Int.ofNat count + 1
    let (a, b) := shifted n d (-power)
    let below := a / b
    match readsBack word below power, readsBack word (below + 1) power with
    | true, true => (if 2 * (a % b) < b then below else below + 1, power)
    | true, false => (below, power)
    | false, true => (below + 1, power)
    | false, false => shortestFrom word n d top tries (count + 1)

/-- Positional text of `digits * 10 ^ power`. -/
def positional (digits : Nat) (power : Int) : String :=
  let text := toString digits
  if 0 ≤ power then text ++ String.ofList (List.replicate power.toNat '0')
  else
    let places := power.natAbs
    let padded := List.replicate (places + 1 - text.length) '0' ++ text.toList
    let whole := padded.take (padded.length - places)
    String.ofList whole ++ "." ++ String.ofList (padded.drop (padded.length - places))

/-- The text of a double. -/
def text (x : Float) : String :=
  let bits := x.toBits.toNat
  let word := bits % Nat.pow 2 63
  if x.isNaN then "NaN"
  else
    let sign := if bits = word then "" else "-"
    if word = 0 then sign ++ "0"
    else if word = Binary64.infinityWord then sign ++ "inf"
    else
      let (n, d) := magnitude word
      let (digits, power) := shortestFrom word n d (leadingPower n d) 18 0
      sign ++ positional digits power

/-- The value of a list of decimal digits. -/
def digitsValue (digits : List Char) : Nat :=
  digits.foldl (fun n c => 10 * n + (c.toNat - '0'.toNat)) 0

/-- The exponent part of a numeral: nothing, or `e`, a sign and digits. -/
def exponent? : List Char → Option Int
  | [] => some 0
  | e :: rest =>
    if e = 'e' ∨ e = 'E' then
      let (negative, digits) := match rest with
        | '-' :: digits => (true, digits)
        | '+' :: digits => (false, digits)
        | digits => (false, digits)
      if digits.isEmpty || !digits.all Char.isDigit then none
      else
        let value := Int.ofNat (digitsValue digits)
        some (if negative then -value else value)
    else none

/-- A power of ten above every finite double, whose inverse is nearest to zero. -/
def extremePower : Int := 400

/-- A number with the same nearest double as `digits * 10 ^ power`: the number itself, or an
extreme one if it is beyond every finite double or nearest to zero. -/
def scaled (digits : Nat) (power : Int) : Rat :=
  let top := power + Int.ofNat (toString digits).length
  let (n, d) :=
    if digits = 0 then (0, 1)
    else if extremePower < top then shifted 1 1 extremePower
    else if top < -extremePower then shifted 1 1 (-extremePower)
    else shifted digits 1 power
  mkRat n d

/-- A number with the nearest double of an unsigned numeral: digits with at most one point among
them, and an exponent. -/
def unsigned? (numeral : List Char) : Option Rat :=
  let whole := numeral.takeWhile Char.isDigit
  let rest := numeral.dropWhile Char.isDigit
  let (places, rest) := match rest with
    | '.' :: rest => (rest.takeWhile Char.isDigit, rest.dropWhile Char.isDigit)
    | rest => ([], rest)
  if whole.isEmpty && places.isEmpty then none
  else do
    let power ← exponent? rest
    some (scaled (digitsValue (whole ++ places)) (power - Int.ofNat places.length))

/-- The double nearest to the number that a decimal numeral denotes; `inf`, `infinity` and `nan`
are read in any case. -/
def parse? (numeral : String) : Option Float :=
  let (negative, rest) := match numeral.toList with
    | '-' :: rest => (true, rest)
    | '+' :: rest => (false, rest)
    | rest => (false, rest)
  let word : Option Nat :=
    match String.ofList (rest.map Char.toLower) with
    | "inf" | "infinity" => some Binary64.infinityWord
    | "nan" => some (Binary64.infinityWord + Nat.pow 2 51)
    | _ => (unsigned? rest).map Binary64.wordOfRat
  word.map fun w => Float.ofBits (UInt64.ofNat (if negative then w + Nat.pow 2 63 else w))

end Stratagem.Decimal
