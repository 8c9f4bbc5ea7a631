import Planning.Document.Yaml.Token

/-!
# Words of YAML

A plain scalar denotes null, a truth value, an integer or a real number if it looks like one, and a text
otherwise. Integers have at most 64 bits; one that has more, but at most 128, is refused, and a longer one is
real. A tag of a known kind says what a scalar has to denote, however it is written.
-/

namespace Planning.Yaml

/-- The words for null. -/
def nullWords : List String := ["null", "Null", "NULL", "~"]

/-- The truth value of a word. -/
def flag? (s : String) : Option Bool :=
  if ["true", "True", "TRUE"].contains s then some true
  else if ["false", "False", "FALSE"].contains s then some false
  else none

/-- A text behind a plus sign, or the whole text. -/
def unsigned (cs : List Char) : List Char :=
  match cs with
  | '+' :: rest => rest
  | _ => cs

/-- The digits of a number in a base. -/
def digitsIn? (base : Nat) (cs : List Char) : Option Nat := do
  if cs.isEmpty then none
  let digits ← cs.mapM Document.hexValue?
  if digits.all fun d => decide (d < base) then return digits.foldl (fun n d => n * base + d) 0 else none

/-- Digits behind a zero make a text and not a number. -/
def isPadded (cs : List Char) : Bool :=
  match cs with
  | '0' :: d :: rest => (d :: rest).all Char.isDigit
  | _ => false

/-- A number without its sign: in another base behind a mark, and in decimal otherwise. -/
def magnitude? (cs : List Char) : Option Nat :=
  match cs with
  | '0' :: 'x' :: rest => digitsIn? 16 rest
  | '0' :: 'o' :: rest => digitsIn? 8 rest
  | '0' :: 'b' :: rest => digitsIn? 2 rest
  | _ => if isPadded cs then none else digitsIn? 10 cs

/-- The number of a word without a minus sign. -/
def count? (s : String) : Option Nat := magnitude? (unsigned s.toList)

/-- The integer of a word. -/
inductive IntegerWord where
  /-- The word is no integer. -/
  | no
  /-- The integer has more than 64 bits. -/
  | long
  /-- The integer, as a document. -/
  | yes (d : Document)

/-- The integer of a word, if it is one of at most 128 bits. -/
def integerWord (s : String) : IntegerWord :=
  match s.toList with
  | '-' :: rest =>
    match magnitude? rest with
    | some n =>
      if n ≤ Nat.pow 2 63 then .yes (.signed (-(n : Int))) else if n ≤ Nat.pow 2 127 then .long else .no
    | none => .no
  | _ =>
    match count? s with
    | some n => if n ≤ maxCount then .yes (.integer n) else if n < Nat.pow 2 128 then .long else .no
    | none => .no

/-- The character is the letter of an exponent. -/
def isExponentLetter (c : Char) : Bool := c == 'e' || c == 'E'

/-- The exponent of a word that has its letter. -/
def exponent? : List Char → Option Int
  | '-' :: ds => (digitsIn? 10 ds).map fun n => -(n : Int)
  | '+' :: ds => (digitsIn? 10 ds).map fun n => (n : Int)
  | ds => (digitsIn? 10 ds).map fun n => (n : Int)

/-- The real number of digits with an optional point and an optional exponent. -/
def decimal? (cs : List Char) : Option Float := do
  let isOther (c : Char) : Bool := !isExponentLetter c
  let mantissa := cs.takeWhile isOther
  let exponent ←
    match cs.dropWhile isOther with
    | [] => some 0
    | _ :: ds => exponent? ds
  let whole := mantissa.takeWhile fun c => c != '.'
  let fraction := (mantissa.dropWhile fun c => c != '.').drop 1
  if (whole ++ fraction).isEmpty || !(whole ++ fraction).all Char.isDigit then none
  let x := Document.scientific (Document.digitsValue (whole ++ fraction)) (exponent - fraction.length)
  if x.isInf then none else some x

/-- The real number of a word. -/
def real? (s : String) : Option Float :=
  if [".nan", ".NaN", ".NAN"].contains s then some (0 / 0)
  else if ["-.inf", "-.Inf", "-.INF"].contains s then some (-1 / 0)
  else if [".inf", ".Inf", ".INF"].contains (String.ofList (unsigned s.toList)) then some (1 / 0)
  else
    match s.toList with
    | '-' :: rest => (decimal? rest).map fun x => -x
    | cs => decimal? (unsigned cs)

/-- A sign and a number that is padded with zeros. -/
def isPaddedWord (s : String) : Bool :=
  match s.toList with
  | '-' :: rest => isPadded rest
  | cs => isPadded (unsigned cs)

/-- What a plain scalar denotes. -/
def plainDocument? (s : String) : Option Document :=
  if s.isEmpty || nullWords.contains s then some .null
  else
    match flag? s, integerWord s with
    | some b, _ => some (.bool b)
    | _, .yes d => some d
    | _, .long => none
    | _, .no => if isPaddedWord s then some (.text s) else some (((real? s).map .real).getD (.text s))

/-- What a scalar denotes. A plain one is taken for what it looks like, unless its tag is of another kind. -/
def scalarDocument? (tag : Option Tag) (style : Style) (s : String) : Option Document :=
  match tag with
  | none => if style = .plain then plainDocument? s else some (.text s)
  | some t =>
    if t = .flag then (flag? s).map .bool
    else if t = .integer then
      match integerWord s with
      | .yes d => some d
      | _ => none
    else if t = .real then (real? s).map .real
    else if t = .null then (if nullWords.contains s then some .null else none)
    else if t.isLocal && style = .plain then plainDocument? s
    else some (.text s)

end Planning.Yaml
