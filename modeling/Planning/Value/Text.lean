import Planning.Value.Basic
import Planning.Text.Integer

/-!
# Values as text

A value is written compactly: words for null and truth values, decimal integers, quoted texts, lists in
square brackets with commas between the elements, and a real number as a record of its sixteen hexadecimal
digits.
-/

namespace Planning.Value

/-- A hexadecimal digit. -/
def hexDigit (n : Nat) : Char := Nat.digitChar (n % 16)

/-- A number in a fixed count of hexadecimal digits. -/
def hexDigits (count n : Nat) : List Char :=
  (List.range count).reverse.map fun i => hexDigit (n / Nat.pow 16 i)

/-- The characters that stand for a character inside double quotes. -/
def escaped (c : Char) : List Char :=
  match c with
  | '"' => ['\\', '"']
  | '\\' => ['\\', '\\']
  | '\n' => ['\\', 'n']
  | '\r' => ['\\', 'r']
  | '\t' => ['\\', 't']
  | '\x08' => ['\\', 'b']
  | '\x0c' => ['\\', 'f']
  | c => if c.toNat < 32 then ['\\', 'u'] ++ hexDigits 4 c.toNat else [c]

/-- A text in double quotes. -/
def quoted (s : String) : String :=
  "\"" ++ String.ofList (s.toList.flatMap escaped) ++ "\""

mutual

/-- The compact text of a value. -/
def render : Value → String
  | null => "null"
  | bool true => "true"
  | bool false => "false"
  | int n => String.ofList (Text.integer n)
  | real bits => "\x7b\"f64\":\"" ++ String.ofList (hexDigits 16 bits.toNat) ++ "\"\x7d"
  | text s => quoted s
  | list vs => "[" ++ String.intercalate "," (renderAll vs) ++ "]"

/-- The compact texts of values. -/
def renderAll : List Value → List String
  | [] => []
  | v :: vs => render v :: renderAll vs

end

end Planning.Value
