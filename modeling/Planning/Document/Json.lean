import Planning.Document.Basic
import Planning.Fault
import Planning.Value.Text

/-!
# Documents in JSON

The reader takes one JSON text with blanks anywhere between its parts. The writer leaves no blanks, takes the
writing of real numbers as a parameter, and writes a table without names as a list of pairs. Every part of a
document is shorter than the text it is read from, so the length of the text is fuel enough for the reader.
-/

/-!
## Numbers in JSON

A number has a significand, which fits 64 bits, and an exponent of ten. Its digits are taken from left to
right; from the first one that does not fit, a digit in front of the point counts as one more power of ten,
and a digit behind the point does not count. A number with a point or an exponent is real, and so is one that
does not fit an integer and the negative zero. A real number is its significand in double precision, scaled
by powers of ten up to the greatest one in double precision.
-/

namespace Planning.Document

/-- A significand with an exponent of ten. -/
structure Scaled where
  /-- The significand. -/
  significand : Nat := 0
  /-- The exponent of ten. -/
  exponent : Int := 0
deriving DecidableEq, Repr

/-- A significand with one more digit, if it still fits 64 bits. -/
def withDigit? (significand : Nat) (c : Char) : Option Nat :=
  let n := significand * 10 + (c.toNat - '0'.toNat)
  if n ≤ maxCount then some n else none

/-- The greatest exponent of a power of ten in double precision. -/
def maxPower : Nat := 308

/-- A power of ten in double precision. -/
def powerOfTen (n : Nat) : Float := Float.ofScientific 1 false n

/-- A real number times a power of ten, in as many steps as the powers in double precision need. What lies
beyond all numbers in double precision is infinite. -/
def scale (x : Float) (exponent : Int) : Float :=
  if exponent.natAbs ≤ maxPower then
    if 0 ≤ exponent then x * powerOfTen exponent.natAbs else x / powerOfTen exponent.natAbs
  else if x == 0 then x
  else if 0 ≤ exponent then 1 / 0
  else scale (x / powerOfTen maxPower) (exponent + maxPower)
termination_by exponent.natAbs
decreasing_by
  unfold maxPower at *
  omega

namespace Scaled

/-- A number with more digits in front of the point. -/
def addWhole : Scaled → List Char → Scaled
  | x, [] => x
  | x, c :: cs =>
    match withDigit? x.significand c with
    | some n => addWhole { x with significand := n } cs
    | none => { x with exponent := x.exponent + (cs.length + 1) }

/-- A number with more digits behind the point. -/
def addFraction : Scaled → List Char → Scaled
  | x, [] => x
  | x, c :: cs =>
    match withDigit? x.significand c with
    | some n => addFraction ⟨n, x.exponent - 1⟩ cs
    | none => x

/-- The number in double precision. -/
def toFloat (x : Scaled) : Float := scale (Float.ofNat x.significand) x.exponent

end Scaled

/-- An exponent after its letter. -/
def exponentOf : List Char → Int
  | '-' :: ds => -(digitsValue ds : Int)
  | '+' :: ds => digitsValue ds
  | ds => digitsValue ds

/-- The number with a given exponent behind its letter, if there is one. -/
def Scaled.withExponent (x : Scaled) : List Char → Scaled
  | [] => x
  | _ :: ds => { x with exponent := x.exponent + exponentOf ds }

/-- A real number with a sign. -/
def signedReal (negative : Bool) (x : Float) : Document := .real (if negative then -x else x)

/-- The integer of a significand, if it fits; negative ones fit 64 bits with their sign. -/
def integerOf (negative : Bool) (x : Scaled) : Document :=
  if x.exponent ≠ 0 then signedReal negative x.toFloat
  else if !negative then .integer x.significand
  else if x.significand ≠ 0 ∧ InBounds (-(x.significand : Int)) then .integer (-(x.significand : Int))
  else signedReal true x.toFloat

/-- A number without its sign. -/
def numberOf (negative : Bool) (cs : List Char) : Document :=
  let whole := Scaled.addWhole {} (cs.takeWhile Char.isDigit)
  match cs.dropWhile Char.isDigit with
  | [] => integerOf negative whole
  | '.' :: rest =>
    let x := whole.addFraction (rest.takeWhile Char.isDigit)
    signedReal negative (x.withExponent (rest.dropWhile Char.isDigit)).toFloat
  | rest => signedReal negative (whole.withExponent rest).toFloat

/-- The character may stand in a number. -/
def isNumberPart (c : Char) : Bool := c.isDigit || c == '-' || c == '+' || c == '.' || c == 'e' || c == 'E'

/-- A number. -/
def readNumber : Reader Document := fun cs =>
  match cs.takeWhile isNumberPart with
  | [] => none
  | '-' :: ds => some (numberOf true ds, cs.dropWhile isNumberPart)
  | ds => some (numberOf false ds, cs.dropWhile isNumberPart)

end Planning.Document

namespace Planning.Document

/-- A text without leading blanks. -/
def skipBlanks (cs : List Char) : List Char :=
  cs.dropWhile fun c => c == ' ' || c == '\n' || c == '\t' || c == '\r'

/-- The character that a letter after a backslash denotes. -/
def shortEscape? (c : Char) : Option Char :=
  match c with
  | 'n' => some '\n'
  | 't' => some '\t'
  | 'r' => some '\r'
  | 'b' => some '\x08'
  | 'f' => some '\x0c'
  | '"' => some '"'
  | '\\' => some '\\'
  | '/' => some '/'
  | _ => none

/-- The character of a number that may be the first half of a pair. -/
def readCodePoint : Reader Char := fun cs => do
  let (high, rest) ← readHex 4 cs
  if 0xD800 ≤ high ∧ high < 0xDC00 then
    match rest with
    | '\\' :: 'u' :: rest =>
      let (low, rest) ← readHex 4 rest
      return (Char.ofNat (0x10000 + (high - 0xD800) * 1024 + (low - 0xDC00)), rest)
    | _ => none
  else return (Char.ofNat high, rest)

/-- The characters of a text up to the quote that ends it, after those read so far. -/
def readQuoted : Nat → List Char → Reader String
  | 0, _, _ => none
  | _, _, [] => none
  | _, acc, '"' :: cs => some (String.ofList acc.reverse, cs)
  | fuel + 1, acc, '\\' :: 'u' :: cs => do
    let (c, rest) ← readCodePoint cs
    readQuoted fuel (c :: acc) rest
  | fuel + 1, acc, '\\' :: c :: cs => do readQuoted fuel ((← shortEscape? c) :: acc) cs
  | fuel + 1, acc, c :: cs => readQuoted fuel (c :: acc) cs

mutual

/-- A document. -/
def readJson : Nat → Reader Document
  | 0, _ => none
  | fuel + 1, cs =>
    match skipBlanks cs with
    | 'n' :: 'u' :: 'l' :: 'l' :: rest => some (null, rest)
    | 't' :: 'r' :: 'u' :: 'e' :: rest => some (bool true, rest)
    | 'f' :: 'a' :: 'l' :: 's' :: 'e' :: rest => some (bool false, rest)
    | '"' :: rest => (readQuoted rest.length.succ [] rest).map fun (s, rest) => (text s, rest)
    | '[' :: rest =>
      match skipBlanks rest with
      | ']' :: rest => some (list [], rest)
      | rest => readItems fuel [] rest
    | '\x7b' :: rest =>
      match skipBlanks rest with
      | '\x7d' :: rest => some (table [], rest)
      | rest => readEntries fuel [] rest
    | cs => readNumber cs

/-- The items of a list up to its end, after those read so far. -/
def readItems : Nat → List Document → Reader Document
  | 0, _, _ => none
  | fuel + 1, acc, cs => do
    let (d, rest) ← readJson fuel cs
    match skipBlanks rest with
    | ',' :: rest => readItems fuel (d :: acc) rest
    | ']' :: rest => return (list (d :: acc).reverse, rest)
    | _ => none

/-- The entries of a table up to its end, after those read so far. -/
def readEntries : Nat → List (String × Document) → Reader Document
  | 0, _, _ => none
  | fuel + 1, acc, cs => do
    match skipBlanks cs with
    | '"' :: rest =>
      let (name, rest) ← readQuoted rest.length.succ [] rest
      match skipBlanks rest with
      | ':' :: rest =>
        let (d, rest) ← readJson fuel rest
        match skipBlanks rest with
        | ',' :: rest => readEntries fuel ((name, d) :: acc) rest
        | '\x7d' :: rest => return (table ((name, d) :: acc).reverse, rest)
        | _ => none
      | _ => none
    | _ => none

end

/-- The document that a JSON text denotes. -/
def ofJson? (s : String) : Option Document := do
  let cs := s.toList
  let (d, rest) ← readJson (2 * cs.length + 2) cs
  if (skipBlanks rest).isEmpty then some d else none

mutual

/-- The JSON text of a document, given the writing of real numbers. -/
def toJson (writeReal : Float → String) : Document → String
  | null => "null"
  | bool b => if b then "true" else "false"
  | integer n => toString n
  | signed n => toString n
  | real x => writeReal x
  | text s => Value.quoted s
  | list items => "[" ++ String.intercalate "," (toJsonItems writeReal items) ++ "]"
  | table entries => "\x7b" ++ String.intercalate "," (toJsonEntries writeReal entries) ++ "\x7d"
  | keyed entries => "[" ++ String.intercalate "," (toJsonPairs writeReal entries) ++ "]"

/-- The JSON texts of items. -/
def toJsonItems (writeReal : Float → String) : List Document → List String
  | [] => []
  | d :: ds => toJson writeReal d :: toJsonItems writeReal ds

/-- The JSON texts of entries. -/
def toJsonEntries (writeReal : Float → String) : List (String × Document) → List String
  | [] => []
  | (name, d) :: es => (Value.quoted name ++ ":" ++ toJson writeReal d) :: toJsonEntries writeReal es

/-- The JSON texts of pairs of a key and a value. -/
def toJsonPairs (writeReal : Float → String) : List (Document × Document) → List String
  | [] => []
  | (key, d) :: es =>
    ("[" ++ toJson writeReal key ++ "," ++ toJson writeReal d ++ "]") :: toJsonPairs writeReal es

end

end Planning.Document
