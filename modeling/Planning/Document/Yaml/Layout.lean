import Planning.Document.Yaml.Scalar
import Planning.Document.Yaml.Token

/-!
# The layout of a text of YAML

What is laid out over lines shows its structure by columns: a list or a table starts with its first item or
key and ends in front of the first thing further to the left. A key without a mark of its own shows only in
the colon behind it, which must follow on the same line and within a thousand characters or so; until then
every place where a key may have started is kept in mind, one for each pair of brackets. `Token.ofText?` gives
the tokens of a text.
-/

namespace Planning.Yaml

/-- A place where a key may have started. -/
structure KeyPlace where
  /-- There must be a key, since the column is that of a table. -/
  isRequired : Bool
  /-- The number of tokens in front of it. -/
  number : Nat
  /-- The place. -/
  place : Cursor

/-- The greatest number of characters from the start of a key without a mark to its colon. -/
def keyLimit : Nat := 1024

/-- The tokens of a text up to a place, with what matters for the next ones. -/
structure Layout where
  /-- The place. -/
  place : Cursor
  /-- The tokens. -/
  tokens : Array Token := #[]
  /-- The columns of the lists and tables over lines that are open, the innermost first. -/
  columns : List Nat := []
  /-- Where a key may have started, for each pair of brackets that is open and outside of all of them, the
  innermost first. -/
  keys : List (Option KeyPlace) := [none]
  /-- A key without a mark, or an item of a list over lines, may start here. -/
  mayStart : Bool := true

/-- A computation that goes on in a text and its tokens, or finds that the text is not well formed. -/
abbrev Lay := StateT Layout Option

namespace Layout

variable (l : Layout)

/-- The place is within brackets. -/
def inBrackets : Bool := decide (1 < l.keys.length)

/-- The column of the innermost list or table over lines, or the one in front of all columns. -/
def column : Int :=
  match l.columns with
  | c :: _ => c
  | [] => -1

/-- The layout with one more token. -/
def push (t : Token) : Layout := { l with tokens := l.tokens.push t }

/-- The layout with one more token that has a number of tokens in front of it. -/
def insert (n : Nat) (t : Token) : Layout :=
  if h : n ≤ l.tokens.size then { l with tokens := l.tokens.insertIdx n t h } else l.push t

/-- The lists and tables over lines that start behind a column end. -/
def closeTo (column : Int) : Layout :=
  if l.inBrackets then l
  else
    let isInner (c : Nat) : Bool := decide (column < c)
    let ended := l.columns.takeWhile isInner
    { l with
      columns := l.columns.dropWhile isInner
      tokens := l.tokens ++ Array.replicate ended.length Token.blockEnd }

/-- A list or a table over lines starts at a column in front of a token, unless it has started there. -/
def openAt (column number : Nat) (t : Token) : Layout :=
  if !l.inBrackets && decide (l.column < column) then
    { l.insert number t with columns := column :: l.columns }
  else l

end Layout

namespace Lay

/-- A computation on the text alone. -/
def scan {α : Type} (s : Scan α) : Lay α := do
  let l ← get
  let (a, c) ← s.run l.place
  set { l with place := c }
  return a

/-- One more token. -/
def push (t : Token) : Lay Unit := modify fun l => l.push t

/-- Keys without a mark, and items of lists over lines, may start from here on or not. -/
def allow (b : Bool) : Lay Unit := modify fun l => { l with mayStart := b }

/-- The innermost place where a key may have started is forgotten. -/
def forgetKey : Lay Unit := do
  let l ← get
  match l.keys with
  | some k :: rest =>
    if k.isRequired then refuse
    set { l with keys := none :: rest }
  | _ => return ()

/-- A key may start here. -/
def markKey : Lay Unit := do
  if !(← get).mayStart then return ()
  forgetKey
  let l ← get
  let k : KeyPlace :=
    { isRequired := !l.inBrackets && l.column == l.place.column
      number := l.tokens.size
      place := l.place }
  set { l with keys := some k :: l.keys.drop 1 }

/-- The places are forgotten from which no colon can be reached any more. -/
def forgetFarKeys : Lay Unit := do
  let l ← get
  let keys ← l.keys.mapM fun key =>
    match key with
    | some k =>
      if k.place.line < l.place.line || k.place.index + keyLimit < l.place.index then
        if k.isRequired then refuse else return none
      else return key
    | none => return none
  set { l with keys := keys }

/-- All lists and tables over lines end, and so does the part of a text in which keys may start. -/
def finishBlocks : Lay Unit := do
  modify fun l => l.closeTo (-1)
  forgetKey
  allow false

/-- Blanks, comments and line ends are left out. A tab is no blank where a key may start. -/
def skipBlanks : Nat → Lay Unit
  | 0 => return ()
  | fuel + 1 => do
    let l ← get
    if l.place.column = 0 && l.place.rest.head? == some '\uFEFF' then scan (skip 1)
    let allowsTabs := l.inBrackets || !l.mayStart
    scan (modify fun c => c.skipWhile fun d => d == ' ' || (allowsTabs && d == '\t'))
    scan skipComment
    if (← scan takeBreak?).isSome then
      if !l.inBrackets then allow true
      skipBlanks fuel

/-- A line that says something about the document behind it. -/
def readDirective : Lay Unit := do
  finishBlocks
  scan (skip 1)
  let name ← scan readName
  if !startsBlank (← get).place.rest then refuse
  scan skipSpaces
  if name == "YAML" then
    let major ← scan readNumber
    if (← get).place.rest.head? != some '.' then refuse
    scan (skip 1)
    push (.version major (← scan readNumber))
  else if name == "TAG" then
    let handle ← scan readHandle
    let rest := (← get).place.rest
    if !(rest.head?.any isSpace && (handle == "!" || isNamedHandle handle)) then refuse
    scan skipSpaces
    let start ← scan (readTagRest true)
    if !startsBlank (← get).place.rest then refuse
    push (.handle handle start)
  else refuse
  scan finishLine
where
  /-- A number of at most nine digits. -/
  readNumber : Scan Nat := do
    let digits ← takeWhile Char.isDigit
    if digits.isEmpty || 9 < digits.length then refuse
    return Document.digitsValue digits

/-- The mark of a start or an end of a document. -/
def readDocumentMark (t : Token) : Lay Unit := do
  finishBlocks
  scan (skip 3)
  push t

/-- A bracket that opens a list or a table. -/
def openBracket (t : Token) : Lay Unit := do
  markKey
  modify fun l => { l with keys := none :: l.keys }
  allow true
  scan (skip 1)
  push t

/-- A bracket that closes a list or a table. -/
def closeBracket (t : Token) : Lay Unit := do
  forgetKey
  modify fun l => if l.inBrackets then { l with keys := l.keys.drop 1 } else l
  allow false
  scan (skip 1)
  push t

/-- A comma within brackets. -/
def readComma : Lay Unit := do
  forgetKey
  allow true
  scan (skip 1)
  push .comma

/-- A list or a table over lines starts here, unless it has started before. -/
def openHere (t : Token) : Lay Unit := do
  let l ← get
  if !l.inBrackets then
    if !l.mayStart then refuse
    set (l.openAt l.place.column l.tokens.size t)

/-- The mark of an item of a list over lines. -/
def readItem : Lay Unit := do
  openHere .listStart
  forgetKey
  allow true
  scan (skip 1)
  push .item

/-- The mark of a key. -/
def readKey : Lay Unit := do
  openHere .tableStart
  forgetKey
  allow !(← get).inBrackets
  scan (skip 1)
  push .key

/-- The colon behind a key. Where a key may have started without a mark, it has. -/
def readValue : Lay Unit := do
  let l ← get
  match l.keys with
  | some k :: rest =>
    let l := (l.insert k.number .key).openAt k.place.column k.number .tableStart
    set { l with keys := none :: rest, mayStart := false }
  | _ =>
    openHere .tableStart
    allow !l.inBrackets
  scan (skip 1)
  push .value

/-- The use of a node, its name or its tag. -/
def readProperty (s : Scan Token) : Lay Unit := do
  markKey
  allow false
  push (← scan s)

/-- A name behind its mark. -/
def readMarkedName : Scan String := do
  skip 1
  let name ← readName
  let rest := (← get).rest
  if !(startsBlank rest || startsWithAny "?:,]\x7d%@`" rest) then refuse
  return name

/-- A scalar below a mark. -/
def readBlock (style : Style) : Lay Unit := do
  forgetKey
  allow true
  push (.scalar style (← scan (readBlockScalar (style == .folded) (← get).column)))

/-- A quoted scalar. -/
def readQuotedScalar (quote : Char) : Lay Unit := do
  markKey
  allow false
  scan (skip 1)
  push (.scalar .quoted (← scan (readQuoted quote ((← get).place.rest.length + 1) [])))

/-- A plain scalar. A key may start behind it if a line end does. -/
def readPlainScalar : Lay Unit := do
  markKey
  allow false
  let l ← get
  let (s, isBroken) ← scan (readPlain l.inBrackets (l.column + 1) (l.place.rest.length + 1) [] {})
  if isBroken then allow true
  push (.scalar .plain s)

/-- A plain scalar may start with a character that another one follows. -/
def startsPlain (inBrackets : Bool) (c : Char) (rest : List Char) : Bool :=
  if c == '-' then !rest.head?.any isSpace
  else if c == '?' || c == ':' then !inBrackets && !startsBlank rest
  else !("-?:,[]\x7b\x7d#&*!|>'\"%@`".toList.contains c || startsBlank [c])

/-- The token that starts with a character. -/
def readToken (c : Char) (rest : List Char) : Lay Unit := do
  let l ← get
  let isAlone := startsBlank rest
  if l.place.column = 0 && c == '%' then readDirective
  else if l.place.hasMark '-' then readDocumentMark .documentStart
  else if l.place.hasMark '.' then readDocumentMark .documentEnd
  else if c == '[' then openBracket .openList
  else if c == '\x7b' then openBracket .openTable
  else if c == ']' then closeBracket .closeList
  else if c == '\x7d' then closeBracket .closeTable
  else if c == ',' then readComma
  else if c == '-' && isAlone then readItem
  else if c == '?' && (l.inBrackets || isAlone) then readKey
  else if c == ':' && (l.inBrackets || isAlone) then readValue
  else if c == '*' then readProperty (Token.use <$> readMarkedName)
  else if c == '&' then readProperty (Token.name <$> readMarkedName)
  else if c == '!' then readProperty (Token.tag <$> readTag l.inBrackets)
  else if c == '|' && !l.inBrackets then readBlock .literal
  else if c == '>' && !l.inBrackets then readBlock .folded
  else if c == '\'' || c == '"' then readQuotedScalar c
  else if startsPlain l.inBrackets c rest then readPlainScalar
  else refuse

/-- All tokens from here on. -/
def readTokens : Nat → Lay Unit
  | 0 => refuse
  | fuel + 1 => do
    skipBlanks fuel
    forgetFarKeys
    modify fun l => l.closeTo l.place.column
    match (← get).place.rest with
    | [] => finishBlocks
    | c :: rest =>
      readToken c rest
      readTokens fuel

end Lay

/-- The character may stand in a text. -/
def isPrintable (c : Char) : Bool :=
  let n := c.toNat
  c == '\t' || c == '\n' || c == '\r' || (decide (0x20 ≤ n) && decide (n ≤ 0x7E)) || n == 0x85 ||
    (decide (0xA0 ≤ n) && n != 0xFFFE && n != 0xFFFF)

/-- The tokens of a text. -/
def Token.ofText? (s : String) : Option (List Token) := do
  let cs := s.toList
  if !cs.all isPrintable then none
  let (_, l) ← (Lay.readTokens (cs.length + 2)).run { place := { rest := cs } }
  return l.tokens.toList

end Planning.Yaml
