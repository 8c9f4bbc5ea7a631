import Planning.Document.Toml.Scalar
import Planning.Document.Toml.Table

/-!
# Values, keys and documents in TOML

What stands behind a key in a line, and the document that the lines make.
-/

/-!
## Values and keys in TOML

A value is a text, a word, a number, a moment, a list or a table within a line. Lists may go over several
lines with comments, and may end with a comma; tables within a line may not. Lists and tables may stand in
each other up to a depth. Every part is shorter than the text it is read from, so a multiple of the length is
fuel enough.
-/

namespace Planning.Toml

open Document (Reader)

/-- The depth up to which lists and tables may stand in each other, and the number of parts of a key. -/
def depthLimit : Nat := 79

/-- The character may stand in a key without quotes. -/
def isKeyPart (c : Char) : Bool := c.isAlphanum || c == '_' || c == '-'

/-- One part of a key. -/
def readKeyPart : Reader String := fun cs =>
  match cs with
  | '"' :: _ => readLineText cs
  | '\'' :: _ => readLineText cs
  | _ =>
    match cs.takeWhile isKeyPart with
    | [] => none
    | name => some (String.ofList name, cs.dropWhile isKeyPart)

/-- A key: the parts before the last one, and the last one. -/
def readKey : Nat → Reader (List String × String)
  | 0, _ => none
  | fuel + 1, cs => do
    let (name, cs) ← readKeyPart (skipSpaces cs)
    match skipSpaces cs with
    | '.' :: cs =>
      let ((path, last), cs) ← readKey fuel cs
      return ((name :: path, last), cs)
    | cs => return (([], name), cs)

/-- What follows a comment in front of a text, if there is one. -/
def skipComment (cs : List Char) : List Char :=
  match cs with
  | '#' :: rest => rest.dropWhile isPlain
  | _ => cs

/-- A text without blanks, line ends and comments in front of it. -/
def skipLines : Nat → List Char → List Char
  | 0, cs => cs
  | fuel + 1, cs =>
    match newline? (skipComment (skipSpaces cs)) with
    | some rest => skipLines fuel rest
    | none => skipSpaces cs

/-- The character may stand in a word or a number. -/
def isWordPart (c : Char) : Bool := c.isAlphanum || c == '_' || c == '+' || c == '-' || c == '.'

/-- A word or a number. -/
def readWord : Reader Document := fun cs => do
  let rest := cs.dropWhile isWordPart
  match cs.takeWhile isWordPart with
  | ['t', 'r', 'u', 'e'] => return (.bool true, rest)
  | ['f', 'a', 'l', 's', 'e'] => return (.bool false, rest)
  | word => return (← number? word, rest)

/-- A value that is neither a list nor a table. -/
def readScalar : Reader Document := fun cs =>
  match cs with
  | '"' :: _ => (readText cs).map fun (s, rest) => (.text s, rest)
  | '\'' :: _ => (readText cs).map fun (s, rest) => (.text s, rest)
  | _ => (readMoment cs).orElse fun _ => readWord cs

mutual

/-- A value of at most a depth. -/
def readValue (depth : Nat) : Nat → Reader Document
  | 0, _ => none
  | fuel + 1, cs =>
    match cs with
    | '[' :: rest => if depth = 0 then none else readItems (depth - 1) fuel [] rest
    | '\x7b' :: rest =>
      if depth = 0 then none
      else
        match skipSpaces rest with
        | '\x7d' :: rest => some (.table [], rest)
        | rest => readEntries (depth - 1) fuel .empty rest
    | _ => readScalar cs

/-- The items of a list up to its end, after those read so far. -/
def readItems (depth : Nat) : Nat → List Document → Reader Document
  | 0, _, _ => none
  | fuel + 1, acc, cs =>
    match skipLines cs.length cs with
    | ']' :: rest => some (.list acc.reverse, rest)
    | cs => do
      let (d, cs) ← readValue depth fuel cs
      match skipLines cs.length cs with
      | ',' :: rest => readItems depth fuel (d :: acc) rest
      | ']' :: rest => return (.list (d :: acc).reverse, rest)
      | _ => none

/-- The entries of a table within a line up to its end, after those read so far. -/
def readEntries (depth : Nat) : Nat → Node → Reader Document
  | 0, _, _ => none
  | fuel + 1, acc, cs => do
    let (key, cs) ← readKey (depthLimit + 1) cs
    match cs with
    | '=' :: cs =>
      let (d, cs) ← readValue depth fuel (skipSpaces cs)
      let acc ← acc.put key d
      match skipSpaces cs with
      | ',' :: rest => readEntries depth fuel acc rest
      | '\x7d' :: rest => return (acc.toDocument, rest)
      | _ => none
    | _ => none

end

end Planning.Toml

/-!
## Documents in TOML

A document is a sequence of lines: a key with a value, or a header that says which table the following lines
belong to. Blank lines and comments count for nothing.
-/

namespace Planning.Toml

open Document (Reader)

/-- What a line says. -/
inductive Line where
  /-- A value has a key. -/
  | entry (key : List String × String) (d : Document)
  /-- A table starts. -/
  | header (key : List String × String)
  /-- One more table of a list starts. -/
  | item (key : List String × String)

/-- A key with at most so many parts. -/
def readLimitedKey : Reader (List String × String) := readKey (depthLimit + 1)

/-- What a line says, without what may stand behind it. -/
def readLine : Reader Line := fun cs =>
  match cs with
  | '[' :: '[' :: cs => do
    let (key, cs) ← readLimitedKey cs
    match cs with
    | ']' :: ']' :: rest => return (.item key, rest)
    | _ => none
  | '[' :: cs => do
    let (key, cs) ← readLimitedKey cs
    match cs with
    | ']' :: rest => return (.header key, rest)
    | _ => none
  | cs => do
    let (key, cs) ← readLimitedKey cs
    match cs with
    | '=' :: rest =>
      let (d, rest) ← readValue depthLimit (2 * rest.length + 2) (skipSpaces rest)
      return (.entry key d, rest)
    | _ => none

/-- What follows a line. -/
def lineEnd? (cs : List Char) : Option (List Char) :=
  match skipComment (skipSpaces cs) with
  | [] => some []
  | rest => newline? rest

/-- All lines that say something. -/
def readLines? : Nat → List Char → Option (List Line)
  | 0, cs => if cs.isEmpty then some [] else none
  | fuel + 1, cs =>
    match skipSpaces cs with
    | [] => some []
    | c :: cs =>
      if c == '#' || c == '\n' || c == '\r' then do readLines? fuel (← lineEnd? (c :: cs))
      else do
        let (line, rest) ← readLine (c :: cs)
        return line :: (← readLines? fuel (← lineEnd? rest))

/-- The whole with what the lines say, of which the first belong to the table at a path. -/
def assemble (path : List String) (n : Node) : List Line → Option Node
  | [] => some n
  | .entry key d :: rest => do assemble path (← n.within path fun n => n.put key d) rest
  | .header key :: rest => do assemble (key.1 ++ [key.2]) (← n.state key) rest
  | .item key :: rest => do assemble (key.1 ++ [key.2]) (← n.stateItem key) rest

end Planning.Toml

namespace Planning.Document

/-- The document that a TOML text denotes. -/
def ofToml? (s : String) : Option Document := do
  let cs :=
    match s.toList with
    | '\uFEFF' :: cs => cs
    | cs => cs
  let lines ← Toml.readLines? (cs.length + 1) cs
  return (← Toml.assemble [] .empty lines).toDocument

end Planning.Document
