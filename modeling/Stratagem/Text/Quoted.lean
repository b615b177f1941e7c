import Stratagem.Text.Unseen

/-!
# Quoted text

Text between double quotes. Quotes, backslashes and the common control characters are escaped by a
letter, and the other characters that are not seen on their own by their number.
-/
namespace Stratagem.Quoted

/-- A character written by its number in hexadecimal digits. -/
def byNumber (c : Char) : String :=
  "\\u\x7b" ++ String.ofList (Nat.toDigits 16 c.toNat) ++ "\x7d"

/-- A character as it is written between quotes. -/
def escape (c : Char) : String :=
  match c with
  | '"' => "\\\""
  | '\\' => "\\\\"
  | '\n' => "\\n"
  | '\r' => "\\r"
  | '\t' => "\\t"
  | '\x00' => "\\0"
  | c => if Unseen.holds c then byNumber c else c.toString

/-- Text between quotes. -/
def encode (text : String) : String := "\"" ++ String.join (text.toList.map escape) ++ "\""

end Stratagem.Quoted
