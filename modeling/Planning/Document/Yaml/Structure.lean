import Planning.Document.Yaml.Layout
import Planning.Document.Yaml.Token

/-!
# The structure of a text of YAML

The tokens of a text are those of one document, with what is said about it in front. A node may have a name
and a tag, in either order; without anything behind them it is an empty scalar. A list under a key may start
at the column of the key, and then ends with its last item. Every step leaves a token behind or goes one
level down, so a multiple of the number of tokens is fuel enough.
-/

namespace Planning.Yaml

/-- The tokens that are left, with what was said in front of them. -/
structure Rest where
  /-- The tokens. -/
  tokens : List Token
  /-- The numbers of the names, each name once. -/
  names : List (String × Nat) := []
  /-- What the handles of tags stand for. -/
  handles : Handles := []

/-- A computation that goes on in the tokens, or finds that they have no structure. -/
abbrev Build := StateT Rest Option

namespace Build

/-- The next token. -/
def next? : Build (Option Token) := return (← get).tokens.head?

/-- The next token is left out. -/
def advance : Build Unit := modify fun r => { r with tokens := r.tokens.drop 1 }

/-- The next token is a given one. -/
def isNext (t : Token) : Build Bool := return (← next?) == some t

/-- The next token is one of some. -/
def isNextOf (ts : List Token) : Build Bool := return (← next?).any ts.contains

/-- The next token is left out if it is a given one. -/
def accept (t : Token) : Build Bool := do
  let found ← isNext t
  if found then advance
  return found

/-- The number that a name comes by. -/
def mark (name : String) : Build Nat := do
  let r ← get
  let n := r.names.length
  set { r with names := (name, n) :: r.names.filter fun e => e.1 != name }
  return n

/-- The name in front of a node, if there is one. -/
def readName? : Build (Option String) := do
  match ← next? with
  | some (.name s) =>
    advance
    return some s
  | _ => return none

/-- The tag in front of a node, if there is one. -/
def readTag? : Build (Option WrittenTag) := do
  match ← next? with
  | some (.tag t) =>
    advance
    return some t
  | _ => return none

/-- The number of a node and its tag. -/
def readProperties : Build (Option Nat × Option Tag) := do
  let first ← readName?
  let written ← readTag?
  let name ← if first.isSome || written.isNone then pure first else readName?
  let tag ←
    match written with
    | some t => some <$> ((t.resolve? (← get).handles : Option Tag) : Build Tag)
    | none => pure none
  let number ←
    match name with
    | some s => some <$> mark s
    | none => pure none
  return (number, tag)

/-- A node that was used before. -/
def readUse? : Build (Option Node) := do
  match ← next? with
  | some (.use s) =>
    advance
    let n ← ((← get).names.lookup s : Option Nat)
    return some (.use n)
  | _ => return none

mutual

/-- A node. One that is not in brackets may be laid out over lines, and one under a key may be a list at the
column of the key. -/
def readNode : Nat → Bool → Bool → Build Node
  | 0, _, _ => refuse
  | fuel + 1, overLines, underKey => do
    if let some n ← readUse? then return n
    let (number, tag) ← readProperties
    match ← next? with
    | some .item =>
      if underKey then return .list number tag (← readItemsBelow fuel [])
      else readEmpty number tag
    | some (.scalar style s) =>
      advance
      return .scalar number tag style s
    | some .openList =>
      advance
      return .list number tag (← readInnerItems fuel true [])
    | some .openTable =>
      advance
      return .table number tag (← readInnerEntries fuel true [])
    | some .listStart =>
      if !overLines then readEmpty number tag
      else
        advance
        return .list number tag (← readItems fuel [])
    | some .tableStart =>
      if !overLines then readEmpty number tag
      else
        advance
        return .table number tag (← readEntries fuel [])
    | _ => readEmpty number tag
termination_by structural fuel => fuel

/-- The node that has nothing but a name or a tag. -/
def readEmpty (number : Option Nat) (tag : Option Tag) : Build Node := do
  if number.isNone && tag.isNone then refuse
  return .scalar number tag .plain ""

/-- A node, or an empty one in front of some tokens. -/
def readNodeUnless : Nat → List Token → Bool → Bool → Build Node
  | 0, _, _, _ => refuse
  | fuel + 1, ends, overLines, underKey => do
    if ← isNextOf ends then return .empty else readNode fuel overLines underKey
termination_by structural fuel => fuel

/-- The items of a list over lines up to its end, after those read so far. -/
def readItems : Nat → List Node → Build (List Node)
  | 0, _ => refuse
  | fuel + 1, acc => do
    if ← accept .item then
      let n ← readNodeUnless fuel [.item, .blockEnd] true false
      readItems fuel (n :: acc)
    else if ← accept .blockEnd then return acc.reverse
    else refuse
termination_by structural fuel => fuel

/-- The items of a list at the column of a key, after those read so far. -/
def readItemsBelow : Nat → List Node → Build (List Node)
  | 0, _ => refuse
  | fuel + 1, acc => do
    if ← accept .item then
      let n ← readNodeUnless fuel [.item, .key, .value, .blockEnd] true false
      readItemsBelow fuel (n :: acc)
    else return acc.reverse
termination_by structural fuel => fuel

/-- The entries of a table over lines up to its end, after those read so far. -/
def readEntries : Nat → List (Node × Node) → Build (List (Node × Node))
  | 0, _ => refuse
  | fuel + 1, acc => do
    if ← accept .key then
      let key ← readNodeUnless fuel [.key, .value, .blockEnd] true true
      let value ←
        if ← accept .value then readNodeUnless fuel [.key, .value, .blockEnd] true true
        else pure .empty
      readEntries fuel ((key, value) :: acc)
    else if ← accept .blockEnd then return acc.reverse
    else refuse
termination_by structural fuel => fuel

/-- The items of a list in brackets up to its end, after those read so far. An item with a key is a table of
one entry. -/
def readInnerItems : Nat → Bool → List Node → Build (List Node)
  | 0, _, _ => refuse
  | fuel + 1, isFirst, acc => do
    if ← accept .closeList then return acc.reverse
    if !isFirst then
      if !(← accept .comma) then refuse
    if ← accept .key then
      let entry ← readPair fuel
      readInnerItems fuel false (.table none none [entry] :: acc)
    else if ← accept .closeList then return acc.reverse
    else
      let n ← readNode fuel false false
      readInnerItems fuel false (n :: acc)
termination_by structural fuel => fuel

/-- The only entry of a table that stands without brackets in a list. In front of some tokens its key is
empty, and the first of them counts for nothing. -/
def readPair : Nat → Build (Node × Node)
  | 0 => refuse
  | fuel + 1 => do
    let key ←
      if ← isNextOf [.value, .comma, .closeList] then do
        advance
        pure .empty
      else readNode fuel false false
    let value ←
      if ← accept .value then readNodeUnless fuel [.comma, .closeList] false false else pure .empty
    return (key, value)
termination_by structural fuel => fuel

/-- The entries of a table in brackets up to its end, after those read so far. A node without the mark of a
key has an empty value. -/
def readInnerEntries : Nat → Bool → List (Node × Node) → Build (List (Node × Node))
  | 0, _, _ => refuse
  | fuel + 1, isFirst, acc => do
    if ← accept .closeTable then return acc.reverse
    if !isFirst then
      if !(← accept .comma) then refuse
    if ← accept .key then
      let key ← readNodeUnless fuel [.value, .comma, .closeTable] false false
      let value ←
        if ← accept .value then readNodeUnless fuel [.comma, .closeTable] false false else pure .empty
      readInnerEntries fuel false ((key, value) :: acc)
    else if ← accept .closeTable then return acc.reverse
    else
      let key ← readNode fuel false false
      readInnerEntries fuel false ((key, .empty) :: acc)
termination_by structural fuel => fuel

end

/-- What is said in front of a document: its version, at most once, and what handles stand for. -/
def readDirectives : Nat → Bool → Build Bool
  | 0, _ => refuse
  | fuel + 1, hasVersion => do
    match ← next? with
    | some (.version major minor) =>
      if hasVersion || major ≠ 1 || !(minor = 1 || minor = 2) then refuse
      advance
      let _ ← readDirectives fuel true
      return true
    | some (.handle name start) =>
      let r ← get
      if (r.handles.lookup name).isSome then refuse
      set { r with tokens := r.tokens.drop 1, handles := (name, start) :: r.handles }
      let _ ← readDirectives fuel hasVersion
      return true
    | _ => return false

/-- The only document of a text; nothing is the empty one. -/
def readDocument (fuel : Nat) : Build Node := do
  let hasDirectives ← readDirectives fuel false
  let isMarked ← accept .documentStart
  if hasDirectives && !isMarked then refuse
  if (← next?).isNone then return .empty
  if isMarked && (← isNextOf [.documentStart, .documentEnd]) then return .empty
  readNode fuel true false

end Build

/-- The node that a text denotes, if the text holds no other one. -/
def Node.ofText? (s : String) : Option Node := do
  let tokens ← Token.ofText? s
  let (n, r) ← (Build.readDocument (4 * tokens.length + 8)).run { tokens := tokens }
  if (r.tokens.dropWhile fun t => t == .documentEnd).isEmpty then return n else none

end Planning.Yaml
