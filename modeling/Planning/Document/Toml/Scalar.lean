import Planning.Document.Basic

/-!
# Texts, numbers and moments in TOML

A value that is not made of others is a text, a truth value, a number or a moment, each with its own way of
writing.
-/

/-!
## Texts in TOML

A text stands between double quotes, where a backslash marks characters, or between single quotes, where all
characters stand for themselves. Between three quotes of a kind it may go over several lines; a line end
right at its start does not belong to it, and one or two quotes may stand right at its end.
-/

namespace Planning.Toml

open Document (Reader)

/-- The character may stand in a text or a comment. -/
def isPlain (c : Char) : Bool := c == '\t' || (decide (' ' ≤ c) && c != '\x7f')

/-- The character is a blank within a line. -/
def isSpace (c : Char) : Bool := c == ' ' || c == '\t'

/-- A text without the blanks within a line in front of it. -/
def skipSpaces (cs : List Char) : List Char := cs.dropWhile isSpace

/-- A line end. -/
def newline? : List Char → Option (List Char)
  | '\n' :: cs => some cs
  | '\r' :: '\n' :: cs => some cs
  | _ => none

/-- The character that stands behind a backslash. -/
def readEscape : Reader Char
  | 'b' :: cs => some ('\x08', cs)
  | 't' :: cs => some ('\t', cs)
  | 'n' :: cs => some ('\n', cs)
  | 'f' :: cs => some ('\x0c', cs)
  | 'r' :: cs => some ('\r', cs)
  | '"' :: cs => some ('"', cs)
  | '\\' :: cs => some ('\\', cs)
  | 'u' :: cs => do
    let (n, cs) ← Document.readHex 4 cs
    return (← Document.charOf? n, cs)
  | 'U' :: cs => do
    let (n, cs) ← Document.readHex 8 cs
    return (← Document.charOf? n, cs)
  | _ => none

/-- A text up to the double quote that ends it, after the characters read so far. -/
def readBasic : Nat → List Char → Reader String
  | 0, _, _ => none
  | _, _, [] => none
  | _, acc, '"' :: cs => some (String.ofList acc.reverse, cs)
  | fuel + 1, acc, '\\' :: cs => do
    let (c, cs) ← readEscape cs
    readBasic fuel (c :: acc) cs
  | fuel + 1, acc, c :: cs => if isPlain c then readBasic fuel (c :: acc) cs else none

/-- A text up to the single quote that ends it. -/
def readLiteral : Reader String := fun cs =>
  match cs.dropWhile fun c => c != '\'' && isPlain c with
  | '\'' :: rest => some (String.ofList (cs.takeWhile fun c => c != '\'' && isPlain c), rest)
  | _ => none

/-- The quotes at the front of a text: those that belong to it and what follows, if they end it. -/
def closing? (quote : Char) (cs : List Char) : Option (List Char × List Char) :=
  let n := (cs.takeWhile fun c => c == quote).length
  if n < 3 then none else some (List.replicate (min (n - 3) 2) quote, cs.drop (min n 5))

/-- What follows a backslash at the end of a line: all blanks and line ends are left out. -/
def skipLineEnd? (cs : List Char) : Option (List Char) := do
  let rest ← newline? (skipSpaces cs)
  return rest.dropWhile fun c => isSpace c || c == '\n' || c == '\r'

/-- A text over several lines up to the quotes that end it, after the characters read so far. -/
def readLines (quote : Char) (marked : Bool) : Nat → List Char → Reader String
  | 0, _, _ => none
  | _, _, [] => none
  | fuel + 1, acc, c :: cs =>
    match closing? quote (c :: cs), newline? (c :: cs) with
    | some (last, rest), _ => some (String.ofList (acc.reverse ++ last), rest)
    | none, some rest => readLines quote marked fuel ('\n' :: acc) rest
    | none, none =>
      if marked && c == '\\' then
        match skipLineEnd? cs with
        | some rest => readLines quote marked fuel acc rest
        | none => do
          let (c, rest) ← readEscape cs
          readLines quote marked fuel (c :: acc) rest
      else if isPlain c then readLines quote marked fuel (c :: acc) cs
      else none

/-- A text that may go over several lines, behind its three quotes. -/
def readMultiline (quote : Char) (marked : Bool) : Reader String := fun cs =>
  let rest := (newline? cs).getD cs
  readLines quote marked (rest.length + 1) [] rest

/-- A text within a line. -/
def readLineText : Reader String
  | '"' :: cs => readBasic (cs.length + 1) [] cs
  | '\'' :: cs => readLiteral cs
  | _ => none

/-- A text. -/
def readText : Reader String
  | '"' :: '"' :: '"' :: cs => readMultiline '"' true cs
  | '\'' :: '\'' :: '\'' :: cs => readMultiline '\'' false cs
  | cs => readLineText cs

end Planning.Toml

/-!
## Numbers in TOML

The digits of a number may be parted by single underscores. An integer is written in decimal without
needless zeros, or behind a mark in another base and then without a sign. A real number has a point with
digits on both sides, an exponent, or both; infinity and the undefined number have words.
-/

namespace Planning.Toml

/-- Digits without the single underscores between them. -/
def digits? (isDigit : Char → Bool) : List Char → Option (List Char)
  | [] => none
  | [c] => if isDigit c then some [c] else none
  | c :: '_' :: cs => if isDigit c then (digits? isDigit cs).map (c :: ·) else none
  | c :: cs => if isDigit c then (digits? isDigit cs).map (c :: ·) else none

/-- The digits of a whole number in decimal. -/
def whole? (cs : List Char) : Option (List Char) :=
  match cs with
  | ['0'] => some cs
  | '0' :: _ => none
  | _ => digits? Char.isDigit cs

/-- A sign and what follows. -/
def signed : List Char → Bool × List Char
  | '-' :: cs => (true, cs)
  | '+' :: cs => (false, cs)
  | cs => (false, cs)

/-- An integer that is in bounds. -/
def bounded? (n : Int) : Option Document := if InBounds n then some (.signed n) else none

/-- An integer in another base than ten. -/
def radix? (base : Nat) (cs : List Char) : Option Document := do
  let isDigit (c : Char) : Bool := (Document.hexValue? c).any fun n => decide (n < base)
  let digits ← digits? isDigit cs
  let n : Nat := digits.foldl (fun n c => n * base + (Document.hexValue? c).getD 0) 0
  bounded? n

/-- An integer. -/
def integer? (cs : List Char) : Option Document :=
  match cs with
  | '0' :: 'x' :: cs => radix? 16 cs
  | '0' :: 'o' :: cs => radix? 8 cs
  | '0' :: 'b' :: cs => radix? 2 cs
  | _ => do
    let (negative, cs) := signed cs
    let n : Int := Document.digitsValue (← whole? cs)
    bounded? (if negative then -n else n)

/-- The exponent that follows its letter, zero if there is none. -/
def exponent? : List Char → Option Int
  | [] => some 0
  | _ :: cs => do
    let (negative, cs) := signed cs
    let n : Int := Document.digitsValue (← digits? Char.isDigit cs)
    return if negative then -n else n

/-- The character is the letter of an exponent. -/
def isExponentLetter (c : Char) : Bool := c == 'e' || c == 'E'

/-- A real number with a point or an exponent, without its sign. -/
def magnitude? (cs : List Char) : Option Float := do
  let mantissa := cs.takeWhile fun c => !isExponentLetter c
  let exponent ← exponent? (cs.dropWhile fun c => !isExponentLetter c)
  let isWhole (c : Char) : Bool := c != '.'
  let whole ← whole? (mantissa.takeWhile isWhole)
  let fraction ←
    match mantissa.dropWhile isWhole with
    | [] => if mantissa.length = cs.length then none else some []
    | _ :: cs => digits? Char.isDigit cs
  return Document.scientific (Document.digitsValue (whole ++ fraction)) (exponent - fraction.length)

/-- A real number. One that is too large is refused, unless it is negative. -/
def real? (cs : List Char) : Option Document := do
  let (negative, cs) := signed cs
  let x ←
    match cs with
    | ['i', 'n', 'f'] => some (1 / 0)
    | ['n', 'a', 'n'] => some (0 / 0)
    | _ => do
      let x ← magnitude? cs
      if x.isInf && !negative then none else some x
  return .real (if negative then -x else x)

/-- A number. -/
def number? (cs : List Char) : Option Document := (integer? cs).orElse fun _ => real? cs

end Planning.Toml

/-!
## Moments in TOML

A moment is a date, a time of day, or both with or without a difference from universal time. Dates are those
of the calendar; a minute may have a leap second.
-/

namespace Planning.Toml

open Document (Reader)

/-- A number of so many decimal digits that lies between two others. -/
def readField (size low high : Nat) : Reader Nat := fun cs =>
  let digits := cs.take size
  let n := Document.digitsValue digits
  if digits.length = size ∧ digits.all Char.isDigit ∧ low ≤ n ∧ n ≤ high then some (n, cs.drop size)
  else none

/-- A given character. -/
def readMark (c : Char) : Reader Unit
  | d :: cs => if c = d then some ((), cs) else none
  | [] => none

/-- The year has a leap day. -/
def isLeapYear (y : Nat) : Bool := y % 4 == 0 && (y % 100 != 0 || y % 400 == 0)

/-- The number of days of a month. -/
def daysOf (year month : Nat) : Nat :=
  if month = 2 then (if isLeapYear year then 29 else 28)
  else if month = 4 ∨ month = 6 ∨ month = 9 ∨ month = 11 then 30
  else 31

/-- A date. -/
def readDate : Reader Unit := fun cs => do
  let (year, cs) ← readField 4 0 9999 cs
  let (_, cs) ← readMark '-' cs
  let (month, cs) ← readField 2 1 12 cs
  let (_, cs) ← readMark '-' cs
  let (_, cs) ← readField 2 1 (daysOf year month) cs
  return ((), cs)

/-- The fraction of a second, if there is one. -/
def skipFraction (cs : List Char) : List Char :=
  match cs with
  | '.' :: d :: ds => if d.isDigit then ds.dropWhile Char.isDigit else cs
  | _ => cs

/-- A time of day. -/
def readTime : Reader Unit := fun cs => do
  let (_, cs) ← readField 2 0 23 cs
  let (_, cs) ← readMark ':' cs
  let (_, cs) ← readField 2 0 59 cs
  let (_, cs) ← readMark ':' cs
  let (_, cs) ← readField 2 0 60 cs
  return ((), skipFraction cs)

/-- Hours and minutes of a difference. -/
def readDifference : Reader Unit := fun cs => do
  let (_, cs) ← readField 2 0 23 cs
  let (_, cs) ← readMark ':' cs
  let (_, cs) ← readField 2 0 59 cs
  return ((), cs)

/-- What follows the difference from universal time, if there is one. -/
def skipDifference (cs : List Char) : List Char :=
  match cs with
  | 'Z' :: rest => rest
  | 'z' :: rest => rest
  | '+' :: rest => ((readDifference rest).map Prod.snd).getD cs
  | '-' :: rest => ((readDifference rest).map Prod.snd).getD cs
  | _ => cs

/-- What follows the time of a date, if there is one. -/
def skipTimeOfDate (cs : List Char) : List Char :=
  match cs with
  | c :: rest =>
    if c == 'T' || c == 't' || c == ' ' then ((readTime rest).map fun r => skipDifference r.2).getD cs else cs
  | [] => cs

/-- A moment as it is written. -/
def readMoment : Reader Document := fun cs => do
  let rest ←
    match readDate cs with
    | some (_, rest) => some (skipTimeOfDate rest)
    | none => (readTime cs).map Prod.snd
  return (.table [("moment", .text (String.ofList (cs.take (cs.length - rest.length))))], rest)

end Planning.Toml
