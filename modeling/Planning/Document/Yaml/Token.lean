import Planning.Document.Yaml.Cursor

/-!
# Tags, tokens and nodes of YAML

The parts of a text of YAML, what they say of the kind of a node, and the nodes that they make.
-/

/-!
## Tags of YAML

A tag says of what kind a node is. It is written in full between angle brackets, or as a handle and the rest
of the tag; what a handle stands for is said in front of the document. A tag is a sequence of bytes, of which
some may be written by their number. The tags of truth values, integers, real numbers and null are known to
every document, and a tag that starts with an exclamation mark names a kind that is not.
-/

namespace Planning.Yaml

/-- A tag. -/
structure Tag where
  /-- The bytes. -/
  bytes : List UInt8
deriving DecidableEq, Repr

/-- The bytes of a text. -/
def bytesOf (s : String) : List UInt8 := s.toUTF8.toList

namespace Tag

/-- The tag of a text. -/
def ofText (s : String) : Tag := ⟨bytesOf s⟩

/-- The tag of truth values. -/
def flag : Tag := ofText "tag:yaml.org,2002:bool"

/-- The tag of integers. -/
def integer : Tag := ofText "tag:yaml.org,2002:int"

/-- The tag of real numbers. -/
def real : Tag := ofText "tag:yaml.org,2002:float"

/-- The tag of null. -/
def null : Tag := ofText "tag:yaml.org,2002:null"

/-- The tag that names no kind. -/
def nonspecific : Tag := ofText "!"

/-- The tag starts with an exclamation mark. -/
def isLocal (t : Tag) : Bool := t.bytes.head? == some 0x21

/-- The kind that a tag with an exclamation mark names, which is the mark itself if nothing follows it. -/
def kind? (t : Tag) : Option String :=
  match t.bytes with
  | b :: rest =>
    if b != 0x21 then none
    else if rest.isEmpty then some "!"
    else String.fromUTF8? ⟨rest.toArray⟩
  | [] => none

end Tag

/-- A tag as it is written: a handle, which is empty for a tag in full, and the bytes behind it. -/
structure WrittenTag where
  /-- The handle. -/
  handle : String
  /-- The bytes behind it. -/
  rest : List UInt8
deriving DecidableEq, Repr

/-- The character may stand in a tag. -/
def isTagPart (inFull : Bool) (c : Char) : Bool :=
  isNamePart c || ";/?:@&=+$.%!~*'()".toList.contains c || (inFull && ",[]".toList.contains c)

/-- The number of bytes of a character that starts with a byte. -/
def sizeOfLead? (b : Nat) : Option Nat :=
  if b < 0x80 then some 1
  else if 0xC0 ≤ b ∧ b < 0xE0 then some 2
  else if 0xE0 ≤ b ∧ b < 0xF0 then some 3
  else if 0xF0 ≤ b ∧ b < 0xF8 then some 4
  else none

/-- A byte that is written by its number. -/
def readByte : Scan Nat := do
  match (← get).rest with
  | '%' :: rest =>
    let (b, _) ← (Document.readHex 2 rest : Option (Nat × List Char))
    skip 3
    return b
  | _ => refuse

/-- More bytes of a character, each of which may follow its first one. -/
def readFollowing : Nat → Scan (List Nat)
  | 0 => return []
  | n + 1 => do
    let b ← readByte
    if b < 0x80 || 0xC0 ≤ b then refuse
    return b :: (← readFollowing n)

/-- A character whose bytes are written by their numbers. -/
def readBytes : Scan (List Nat) := do
  let b ← readByte
  match sizeOfLead? b with
  | some size => return b :: (← readFollowing (size - 1))
  | none => refuse

/-- The bytes of a tag from here on, and the number of characters that they stand for. -/
def readTagBytes (inFull : Bool) : Nat → Scan (List UInt8 × Nat)
  | 0 => return ([], 0)
  | fuel + 1 => do
    match (← get).rest with
    | c :: _ =>
      if !isTagPart inFull c then return ([], 0)
      let bytes ←
        if c == '%' then (·.map Nat.toUInt8) <$> readBytes
        else do
          skip 1
          pure (bytesOf c.toString)
      let (more, n) ← readTagBytes inFull fuel
      return (bytes ++ more, n + 1)
    | [] => return ([], 0)

/-- The bytes in front of the first zero. -/
def untilZero (bytes : List UInt8) : List UInt8 := bytes.takeWhile fun b => b != 0

/-- The bytes of a tag, of which there must be some. -/
def readTagRest (inFull : Bool) : Scan (List UInt8) := do
  let (bytes, n) ← readTagBytes inFull ((← get).rest.length + 1)
  if n = 0 then refuse
  return untilZero bytes

/-- A handle, or the part of a tag that looks like the start of one. -/
def readHandle : Scan String := do
  if (← get).rest.head? != some '!' then refuse
  skip 1
  let name ← takeWhile isNamePart
  if (← get).rest.head? == some '!' then
    skip 1
    return String.ofList ('!' :: name ++ ['!'])
  return String.ofList ('!' :: name)

/-- The text is a handle with a name, or with an empty name between two marks. -/
def isNamedHandle (s : String) : Bool := 1 < s.length && s.toList.getLast? == some '!'

/-- A tag without what may stand behind it. -/
def readTagItself : Scan WrittenTag := do
  match (← get).rest with
  | '!' :: '<' :: _ =>
    skip 2
    let rest ← readTagRest true
    if (← get).rest.head? != some '>' then refuse
    skip 1
    return ⟨"", rest⟩
  | _ =>
    let handle ← readHandle
    if isNamedHandle handle then return ⟨handle, ← readTagRest false⟩
    let (bytes, _) ← readTagBytes false ((← get).rest.length + 1)
    let rest := untilZero (bytesOf (String.ofList (handle.toList.drop 1)) ++ bytes)
    return if rest.isEmpty then ⟨"", Tag.nonspecific.bytes⟩ else ⟨"!", rest⟩

/-- A tag, with a blank behind it, or a comma within brackets. -/
def readTag (inBrackets : Bool) : Scan WrittenTag := do
  let tag ← readTagItself
  let rest := (← get).rest
  if !(startsBlank rest || (inBrackets && rest.head? == some ',')) then refuse
  return tag

/-- What handles stand for, each at most once. -/
abbrev Handles := List (String × List UInt8)

/-- The handles that every document knows unless it says otherwise. -/
def commonHandles : Handles := [("!", bytesOf "!"), ("!!", bytesOf "tag:yaml.org,2002:")]

/-- The tag that is written, if its handle is known. -/
def WrittenTag.resolve? (t : WrittenTag) (handles : Handles) : Option Tag :=
  if t.handle.isEmpty then some ⟨t.rest⟩
  else ((handles ++ commonHandles).lookup t.handle).map fun start => ⟨start ++ t.rest⟩

end Planning.Yaml

/-!
## Tokens of YAML

A text of YAML is a sequence of tokens. Some are written, and some come from the columns in which others
stand: the start and the end of a list or a table that is laid out over lines, and the start of a key, which
shows only in the colon behind it.
-/

namespace Planning.Yaml

/-- How a scalar is written. -/
inductive Style where
  /-- Without marks. -/
  | plain
  /-- Between quotes. -/
  | quoted
  /-- In the lines below a mark, as they are. -/
  | literal
  /-- In the lines below a mark, joined. -/
  | folded
deriving DecidableEq, Repr

/-- A part of a text. -/
inductive Token where
  /-- The version of the language. -/
  | version (major minor : Nat)
  /-- What a handle of tags stands for. -/
  | handle (name : String) (start : List UInt8)
  /-- A document starts. -/
  | documentStart
  /-- A document ends. -/
  | documentEnd
  /-- A list over lines starts. -/
  | listStart
  /-- A table over lines starts. -/
  | tableStart
  /-- A list or a table over lines ends. -/
  | blockEnd
  /-- A list in brackets starts. -/
  | openList
  /-- A list in brackets ends. -/
  | closeList
  /-- A table in brackets starts. -/
  | openTable
  /-- A table in brackets ends. -/
  | closeTable
  /-- An item of a list over lines starts. -/
  | item
  /-- An item or an entry in brackets ends. -/
  | comma
  /-- A key starts. -/
  | key
  /-- The value of a key starts. -/
  | value
  /-- A node is used again. -/
  | use (name : String)
  /-- A node has a name. -/
  | name (s : String)
  /-- A node has a tag. -/
  | tag (t : WrittenTag)
  /-- A scalar. -/
  | scalar (style : Style) (s : String)
deriving DecidableEq, Repr

end Planning.Yaml

/-!
## Nodes of YAML

A document is one node: a scalar, a list or a table, or another use of a node that has a name. A name stands
for a number, and a number for the last node that came by it: a name that is given for the first time comes
by the number of names before it, and one that is given again by the number of all names.
-/

namespace Planning.Yaml

/-- A part of a document as it is written. -/
inductive Node where
  /-- A scalar. -/
  | scalar (mark : Option Nat) (tag : Option Tag) (style : Style) (s : String)
  /-- A list. -/
  | list (mark : Option Nat) (tag : Option Tag) (items : List Node)
  /-- A table. -/
  | table (mark : Option Nat) (tag : Option Tag) (entries : List (Node × Node))
  /-- Another use of the node with a number. -/
  | use (mark : Nat)
deriving Inhabited

namespace Node

/-- A place where nothing is written. -/
def empty : Node := .scalar none none .plain ""

mutual

/-- The number of scalars and uses, and of starts and ends of lists and tables. -/
def size : Node → Nat
  | .list _ _ items => sizeOfItems items + 2
  | .table _ _ entries => sizeOfEntries entries + 2
  | _ => 1

/-- The size of all items. -/
def sizeOfItems : List Node → Nat
  | [] => 0
  | n :: rest => size n + sizeOfItems rest

/-- The size of all keys and values. -/
def sizeOfEntries : List (Node × Node) → Nat
  | [] => 0
  | (k, n) :: rest => size k + size n + sizeOfEntries rest

end

mutual

/-- The nodes in a node that have numbers, in front of others the later ones. -/
def marked : Node → List (Nat × Node) → List (Nat × Node)
  | n@(.scalar (some i) _ _ _), acc => (i, n) :: acc
  | n@(.list (some i) _ items), acc => markedItems items ((i, n) :: acc)
  | n@(.table (some i) _ entries), acc => markedEntries entries ((i, n) :: acc)
  | .list none _ items, acc => markedItems items acc
  | .table none _ entries, acc => markedEntries entries acc
  | _, acc => acc

/-- The nodes in items that have numbers. -/
def markedItems : List Node → List (Nat × Node) → List (Nat × Node)
  | [], acc => acc
  | n :: rest, acc => markedItems rest (marked n acc)

/-- The nodes in keys and values that have numbers. -/
def markedEntries : List (Node × Node) → List (Nat × Node) → List (Nat × Node)
  | [], acc => acc
  | (k, n) :: rest, acc => markedEntries rest (marked n (marked k acc))

end

end Node

end Planning.Yaml
