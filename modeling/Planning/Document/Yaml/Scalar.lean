import Planning.Document.Yaml.Cursor

/-!
# Scalars of YAML

A scalar is plain, stands between quotes, or takes up the lines below a mark. Within a plain or quoted scalar
one line end stands for a space, and several for one line end less. The lines below a mark are taken as they
are, or joined in the same way, and the line ends after the last of them are cut, clipped to one or kept.
Separators of lines and paragraphs are never joined. Each reader leaves a character behind at every step, so
the length of the text is fuel enough.
-/

namespace Planning.Yaml

/-- What separates two stretches of a scalar. -/
structure Gap where
  /-- The blanks, if there is no line end. -/
  blanks : List Char := []
  /-- The first line end, unless it does not count. -/
  first : List Char := []
  /-- The further line ends. -/
  more : List Char := []
  /-- There is a line end. -/
  isBroken : Bool := false

namespace Gap

variable (g : Gap)

/-- What the gap stands for. -/
def text : List Char :=
  if !g.isBroken then g.blanks
  else if g.first = ['\n'] then (if g.more.isEmpty then [' '] else g.more)
  else g.first ++ g.more

/-- The gap with one more line end. -/
def addBreak (c : Char) : Gap :=
  if g.isBroken then { g with more := g.more ++ [c] } else { first := [c], isBroken := true }

/-- The gap with one more blank, which counts only in front of the first line end. -/
def addBlank (c : Char) : Gap := if g.isBroken then g else { g with blanks := g.blanks ++ [c] }

end Gap

/-- A gap from here on, after what was read of it so far. A tab may not stand in front of the column at which
lines start, if there is one. -/
def readGap (start : Option Int) : Nat → Gap → Scan Gap
  | 0, g => return g
  | fuel + 1, g => do
    let c ← get
    match c.rest with
    | [] => return g
    | d :: _ =>
      if isSpace d then
        if d == '\t' && g.isBroken && start.any fun n => decide ((c.column : Int) < n) then refuse
        skip 1
        readGap start fuel (g.addBlank d)
      else
        match ← takeBreak? with
        | some e => readGap start fuel (g.addBreak e)
        | none => return g

/-- A stretch of a plain scalar without blanks. Within brackets their marks end it, and a colon right in
front of one is refused. -/
def plainStretch (inBrackets : Bool) : List Char → Option (List Char)
  | [] => some []
  | c :: rest =>
    if isSpace c || isBreak c then some []
    else if c == ':' && startsBlank rest then some []
    else if inBrackets && c == ':' && startsWithAny ",?[]\x7b\x7d" rest then none
    else if inBrackets && ",[]\x7b\x7d".toList.contains c then some []
    else (plainStretch inBrackets rest).map (c :: ·)

/-- A plain scalar whose further lines start at a column or behind it, after what was read of it so far in
reverse order. The second part says whether a line end was left out behind it. -/
def readPlain (inBrackets : Bool) (start : Int) : Nat → List Char → Gap → Scan (String × Bool)
  | 0, _, _ => refuse
  | fuel + 1, acc, g => do
    let c ← get
    if c.hasDocumentMark || c.rest.head? == some '#' then
      return (String.ofList acc.reverse, g.isBroken)
    let stretch ← (plainStretch inBrackets c.rest : Option (List Char))
    skip stretch.length
    let acc := if stretch.isEmpty then acc else stretch.reverse ++ (g.text.reverse ++ acc)
    let g := if stretch.isEmpty then g else {}
    let rest := (← get).rest
    if rest.isEmpty || !startsBlank rest then return (String.ofList acc.reverse, g.isBroken)
    let g ← readGap (some start) rest.length g
    if !inBrackets && decide (((← get).column : Int) < start) then
      return (String.ofList acc.reverse, g.isBroken)
    readPlain inBrackets start fuel acc g

/-- The character that a letter behind a backslash stands for. -/
def escape? (c : Char) : Option Char :=
  match c with
  | '0' => some '\x00'
  | 'a' => some '\x07'
  | 'b' => some '\x08'
  | 't' => some '\t'
  | '\t' => some '\t'
  | 'n' => some '\n'
  | 'v' => some '\x0b'
  | 'f' => some '\x0c'
  | 'r' => some '\r'
  | 'e' => some '\x1b'
  | ' ' => some ' '
  | '"' => some '"'
  | '/' => some '/'
  | '\\' => some '\\'
  | 'N' => some '\u0085'
  | '_' => some '\u00a0'
  | 'L' => some '\u2028'
  | 'P' => some '\u2029'
  | _ => none

/-- The number of digits that follow a letter for a character by its number. -/
def escapeSize? (c : Char) : Option Nat :=
  match c with
  | 'x' => some 2
  | 'u' => some 4
  | 'U' => some 8
  | _ => none

/-- The character behind a backslash. -/
def readEscape : Scan Char := do
  match (← get).rest with
  | [] => refuse
  | c :: rest =>
    match escapeSize? c with
    | some size =>
      let (n, _) ← (Document.readHex size rest : Option (Nat × List Char))
      skip (size + 1)
      (Document.charOf? n : Option Char)
    | none =>
      skip 1
      (escape? c : Option Char)

/-- A stretch of a quoted scalar without blanks, in reverse order and in front of what was read so far. The
second part says whether it ends with a backslash and a line end. -/
def readStretch (quote : Char) : Nat → List Char → Scan (List Char × Bool)
  | 0, _ => refuse
  | fuel + 1, acc => do
    match (← get).rest with
    | [] => return (acc, false)
    | c :: rest =>
      if isSpace c || isBreak c then return (acc, false)
      else if c == quote then
        if quote == '\'' && rest.head? == some quote then
          skip 2
          readStretch quote fuel (quote :: acc)
        else return (acc, false)
      else if c == '\\' && quote == '"' then
        skip 1
        if (← takeBreak?).isSome then return (acc, true)
        readStretch quote fuel ((← readEscape) :: acc)
      else
        skip 1
        readStretch quote fuel (c :: acc)

/-- A scalar up to the quote that ends it, after what was read of it so far in reverse order. -/
def readQuoted (quote : Char) : Nat → List Char → Scan String
  | 0, _ => refuse
  | fuel + 1, acc => do
    let c ← get
    if c.hasDocumentMark || c.rest.isEmpty then refuse
    let (acc, isBroken) ← readStretch quote (c.rest.length + 1) acc
    let rest := (← get).rest
    if rest.head? == some quote then
      skip 1
      return String.ofList acc.reverse
    let g ← readGap none rest.length { isBroken := isBroken }
    readQuoted quote fuel (g.text.reverse ++ acc)

/-- What becomes of the line ends after the last line. -/
inductive Chomping where
  /-- All are cut. -/
  | cut
  /-- One is left. -/
  | clip
  /-- All are kept. -/
  | keep
deriving DecidableEq, Repr

/-- The chomping of a sign. -/
def chomping? (c : Char) : Option Chomping :=
  if c == '+' then some .keep else if c == '-' then some .cut else none

/-- The indentation of a digit. -/
def size? (c : Char) : Option Nat :=
  if c.isDigit && c != '0' then some (c.toNat - '0'.toNat) else none

/-- The chomping and the indentation that stand behind a mark, in either order. -/
def header? : List Char → Option (Chomping × Option Nat)
  | [] => some (.clip, none)
  | [c] =>
    match chomping? c with
    | some chomping => some (chomping, none)
    | none => (size? c).map fun n => (.clip, some n)
  | [c, d] =>
    match chomping? c with
    | some chomping => (size? d).map fun n => (chomping, some n)
    | none => do return (← chomping? d, some (← size? c))
  | _ => none

/-- The line ends of blank lines in front of a line, and the blanks of that line up to an indentation. Without
one the widest of these lines counts. -/
def skipIndent (indent : Option Nat) : Nat → List Char → Nat → Scan (List Char × Nat)
  | 0, breaks, widest => return (breaks, widest)
  | fuel + 1, breaks, widest => do
    let c ← get
    let isShort := indent.all fun n => decide (c.column < n)
    match c.rest with
    | ' ' :: _ =>
      if isShort then
        skip 1
        skipIndent indent fuel breaks (max widest (c.column + 1))
      else return (breaks, widest)
    | '\t' :: _ => if isShort then refuse else return (breaks, widest)
    | _ =>
      match ← takeBreak? with
      | some e => skipIndent indent fuel (breaks ++ [e]) widest
      | none => return (breaks, widest)

/-- The lines below a mark at an indentation, after what was read so far in reverse order. `last` is the line
end that was read and is still to come, `breaks` are those of blank lines behind it, and `wasBlank` says that
the line in front of them started with a blank. -/
def readLines (isFolded : Bool) (chomping : Chomping) (indent : Nat) :
    Nat → List Char → List Char → Bool → List Char → Scan String
  | 0, _, _, _, _ => refuse
  | fuel + 1, acc, last, wasBlank, breaks => do
    let c ← get
    if c.column != indent || c.rest.isEmpty then
      let one := if chomping = .cut then [] else last
      let more := if chomping = .keep then breaks else []
      return String.ofList (acc.reverse ++ one ++ more)
    let isBlank := c.rest.head?.any isSpace
    let isJoined := isFolded && last == ['\n'] && !wasBlank && !isBlank
    let first := if isJoined then (if breaks.isEmpty then [' '] else []) else last
    let line ← takeWhile fun d => !isBreak d
    let acc := line.reverse ++ (breaks.reverse ++ (first.reverse ++ acc))
    let last := (← takeBreak?).toList
    let (breaks, _) ← skipIndent (some indent) (c.rest.length + 1) [] 0
    readLines isFolded chomping indent fuel acc last isBlank breaks

/-- A scalar below a mark, in a list or a table at a column. -/
def readBlockScalar (isFolded : Bool) (outer : Int) : Scan String := do
  skip 1
  let head ← takeWhile fun c => c.isDigit || c == '+' || c == '-'
  let (chomping, size) ← (header? head : Option (Chomping × Option Nat))
  finishLine
  let fuel := (← get).rest.length + 1
  let given := size.map fun n => (max outer 0).toNat + n
  let (breaks, widest) ← skipIndent given fuel [] 0
  let indent := given.getD (max widest (max (outer + 1) 1).toNat)
  readLines isFolded chomping indent fuel [] [] false breaks

end Planning.Yaml
