import Planning.Text.Unmarked

/-!
# Quoted text

Quoted text stands between double quotes. A backslash marks quotes, backslashes and line ends; a character
that leaves no mark of its own on the page is written by its number.
-/

namespace Planning.Text

/-- A character between quotes. -/
def quotedChar (c : Char) : String :=
  match c with
  | '"' => "\\\""
  | '\\' => "\\\\"
  | '\n' => "\\n"
  | '\r' => "\\r"
  | '\t' => "\\t"
  | '\x00' => "\\0"
  | c =>
    if isUnmarked c then "\\u\x7b" ++ String.ofList (Nat.toDigits 16 c.toNat) ++ "\x7d" else c.toString

/-- A text between quotes. -/
def quoted (s : String) : String := "\"" ++ String.join (s.toList.map quotedChar) ++ "\""

end Planning.Text

/-!
## Texts of structured values

A structured value is shown by its name with its fields in braces, a list by its items in brackets, a pair
in parentheses, and a value that may be missing by a name that says whether it is there.
-/

namespace Planning.Text

/-- Items one after another. -/
def joined (items : List String) : String := String.intercalate ", " items

/-- A name with fields; a name without fields stands alone. -/
def record (name : String) (fields : List (String × String)) : String :=
  if fields.isEmpty then name
  else name ++ " \x7b " ++ joined (fields.map fun (label, text) => label ++ ": " ++ text) ++ " \x7d"

/-- A name with fields of which some are not shown. -/
def openRecord (name : String) (fields : List (String × String)) : String :=
  name ++ " \x7b " ++ joined (fields.map fun (label, text) => label ++ ": " ++ text) ++ ", .. \x7d"

/-- A list. -/
def list (items : List String) : String := "[" ++ joined items ++ "]"

/-- A tuple of several members. -/
def tuple (items : List String) : String := "(" ++ joined items ++ ")"

/-- A name that holds one value. -/
def wrapped (name text : String) : String := name ++ "(" ++ text ++ ")"

/-- A value that may be missing. -/
def optional {α : Type} (text : α → String) : Option α → String
  | some a => wrapped "Some" (text a)
  | none => "None"

/-- A truth value. -/
def flag (b : Bool) : String := if b then "true" else "false"

/-- The numbers from a start up to, and not including, a finish. -/
def span (start finish : Nat) : String := s!"{start}..{finish}"

end Planning.Text
