import Planning.Document.Basic

/-!
# A place in a text of YAML

Where something stands matters in YAML: its line and its column, and how far it is from other things. A
cursor is such a place with the text from there on. A line ends with a line feed, a carriage return or both,
with a next line character, or with one of the separators of lines and paragraphs, which stand for
themselves while all the others stand for a line feed.
-/

namespace Planning.Yaml

/-- A place in a text. -/
structure Cursor where
  /-- The text from there on. -/
  rest : List Char
  /-- The number of characters in front of it. -/
  index : Nat := 0
  /-- The number of line ends in front of it. -/
  line : Nat := 0
  /-- The number of characters of the line in front of it. -/
  column : Nat := 0

/-- A computation that goes on in a text, or finds that it is not well formed. -/
abbrev Scan := StateT Cursor Option

/-- The text is not well formed. -/
def refuse {σ α : Type} : StateT σ Option α := fun _ => none

/-- A blank within a line. -/
def isSpace (c : Char) : Bool := c == ' ' || c == '\t'

/-- The character ends a line. -/
def isBreak (c : Char) : Bool :=
  c == '\n' || c == '\r' || c == '\u0085' || c == '\u2028' || c == '\u2029'

/-- A text starts with a line end or not at all. -/
def startsBreak : List Char → Bool
  | [] => true
  | c :: _ => isBreak c

/-- A text starts with a blank, a line end or not at all. -/
def startsBlank : List Char → Bool
  | [] => true
  | c :: _ => isSpace c || isBreak c

/-- The character may stand in a name: a letter, a digit, an underscore or a hyphen. -/
def isNamePart (c : Char) : Bool := c.isAlphanum || c == '_' || c == '-'

/-- A text starts with one of some characters. -/
def startsWithAny (marks : String) : List Char → Bool
  | [] => false
  | c :: _ => marks.toList.contains c

/-- The line end in front of a text: what it stands for, and how many characters it has. -/
def lineEnd? : List Char → Option (Char × Nat)
  | '\r' :: '\n' :: _ => some ('\n', 2)
  | c :: _ =>
    if c == '\u2028' || c == '\u2029' then some (c, 1) else if isBreak c then some ('\n', 1) else none
  | [] => none

namespace Cursor

variable (c : Cursor)

/-- The place behind a number of characters of the line. -/
def skip (n : Nat) : Cursor :=
  { c with rest := c.rest.drop n, index := c.index + n, column := c.column + n }

/-- The place behind a line end of a number of characters. -/
def skipBreak (n : Nat) : Cursor :=
  { rest := c.rest.drop n, index := c.index + n, line := c.line + 1 }

/-- The place behind characters of the line that all have a property. -/
def skipWhile (p : Char → Bool) : Cursor := c.skip (c.rest.takeWhile p).length

/-- The line starts here with three characters of a kind that stand alone. -/
def hasMark (mark : Char) : Bool :=
  c.column == 0 &&
    match c.rest with
    | a :: b :: d :: rest => a == mark && b == mark && d == mark && startsBlank rest
    | _ => false

/-- The mark of a start or an end of a document stands here. -/
def hasDocumentMark : Bool := c.hasMark '-' || c.hasMark '.'

end Cursor

/-- The next characters are left out. -/
def skip (n : Nat) : Scan Unit := modify fun c => c.skip n

/-- The characters of the line from here on that have a property. -/
def takeWhile (p : Char → Bool) : Scan (List Char) := do
  let found := (← get).rest.takeWhile p
  skip found.length
  return found

/-- The line end that stands here, if there is one. -/
def takeBreak? : Scan (Option Char) := do
  let c ← get
  match lineEnd? c.rest with
  | some (e, n) =>
    set (c.skipBreak n)
    return some e
  | none => return none

/-- Blanks of the line are left out. -/
def skipSpaces : Scan Unit := modify fun c => c.skipWhile isSpace

/-- A comment is left out. -/
def skipComment : Scan Unit := modify fun c =>
  if c.rest.head? == some '#' then c.skipWhile fun d => !isBreak d else c

/-- Nothing but blanks and a comment is left of the line. -/
def finishLine : Scan Unit := do
  skipSpaces
  skipComment
  if !startsBreak (← get).rest then refuse
  let _ ← takeBreak?

/-- A name. -/
def readName : Scan String := do
  let name ← takeWhile isNamePart
  if name.isEmpty then refuse
  return String.ofList name

end Planning.Yaml
