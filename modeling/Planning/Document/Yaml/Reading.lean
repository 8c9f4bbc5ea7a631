import Planning.Document.Fields
import Planning.Document.Yaml.Structure
import Planning.Document.Yaml.Word

/-!
# Readings of a document of YAML

What a node denotes depends on what is asked for: most places take a plain scalar for what it looks like, and
some ask for a text, a word, a number or a record. A reading follows every use of a name, but only so many
times as the size of the document allows, and goes down only so many levels. What no reading asks for counts
for nothing.
-/

namespace Planning.Yaml

/-- The nodes that have numbers, with how often their uses may still be followed. -/
structure Marked where
  /-- The nodes, the later ones in front of others with their number. -/
  nodes : List (Nat × Node)
  /-- How often uses may be followed. -/
  budget : Nat

/-- A computation that follows uses of nodes. -/
abbrev Follow := StateT Marked Option

/-- A way to read a node, with the number of levels that it may go down. -/
abbrev Reading := Nat → Node → Follow Document

/-- The node that is meant by one that may be a use. -/
def follow (n : Node) : Follow Node := do
  match n with
  | .use i =>
    let m ← get
    if m.budget = 0 then refuse
    set { m with budget := m.budget - 1 }
    (m.nodes.lookup i : Option Node)
  | n => return n

/-- The kind of its own that a tag names. -/
def kindOf? (tag : Option Tag) : Option String := tag.bind Tag.kind?

/-- The table of some entries, whose keys are names if all of them are texts. -/
def tableOf (entries : List (Document × Document)) : Document :=
  match entries.mapM fun (key, d) => key.text?.map fun s => (s, d) with
  | some named => .table named
  | none => .keyed entries

namespace Reading

/-- The text of a scalar, whatever it looks like. -/
def text : Reading := fun _ n => do
  match ← follow n with
  | .scalar _ _ _ s => return .text s
  | _ => refuse

/-- A node that is not a use, taken for what it looks like, given a reading of what is in it if there may be
any more levels. -/
def plainly (inside : Option (Node → Follow Document)) (n : Node) : Follow Document := do
  match n, inside with
  | .scalar _ tag style s, _ =>
    if (kindOf? tag).isSome then refuse
    (scalarDocument? tag style s : Option Document)
  | .list _ tag items, some read =>
    if (kindOf? tag).isSome then refuse
    return .list (← items.mapM read)
  | .table _ tag entries, some read =>
    if (kindOf? tag).isSome then refuse
    return tableOf (← entries.mapM fun (key, d) => return (← read key, ← read d))
  | _, _ => refuse

/-- A node, taken for what it looks like. -/
def content : Reading
  | 0, n => do plainly none (← follow n)
  | depth + 1, n => do plainly (some (content depth)) (← follow n)

/-- A scalar that a reading of words denotes, if it is plain, or if it stands as it is in the lines below a
mark and has the tag of its kind. -/
def word (t : Tag) (read : String → Option Document) : Reading := fun _ n => do
  match ← follow n with
  | .scalar _ tag style s =>
    if style = .plain || (style = .literal && tag == some t) then (read s : Option Document) else refuse
  | _ => refuse

/-- A natural number that fits 64 bits. -/
def count : Reading := word .integer fun s => do
  let n ← count? s
  if n ≤ maxCount then return .integer n else none

/-- A truth value. -/
def flag : Reading := word .flag fun s => (flag? s).map .bool

/-- A choice by its word, or by a tag of its own in front of nothing. -/
def choice : Reading := fun _ n => do
  match ← follow n with
  | .scalar _ tag style s =>
    match kindOf? tag with
    | some kind => if style = .plain && (s.isEmpty || nullWords.contains s) then return .text kind else refuse
    | none => return .text s
  | _ => refuse

/-- A scalar stands for a missing part: a plain one that is empty or a word for null, and one that has the tag
of null, where no other word may stand. -/
def isMissing? (tag : Option Tag) (style : Style) (s : String) : Option Bool :=
  if style ≠ .plain then some false
  else
    match tag with
    | none => some (s.isEmpty || nullWords.contains s)
    | some t => if t ≠ .null then some false else if nullWords.contains s then some true else none

/-- A part that may be missing. -/
def optional (read : Reading) : Reading := fun depth n => do
  let n ← follow n
  match n with
  | .scalar _ tag style s =>
    if ← (isMissing? tag style s : Option Bool) then return .null else read depth n
  | n => read depth n

/-- The node is a plain scalar in which nothing is written. -/
def isBlank : Node → Bool
  | .scalar _ _ .plain s => s.isEmpty
  | _ => false

/-- A list of parts; nothing is the empty one. -/
def list (read : Reading) : Reading := fun depth n => do
  match ← follow n, depth with
  | .list _ _ items, depth + 1 => return .list (← items.mapM (read depth))
  | n, _ => if isBlank n then return .list [] else refuse

/-- A record of fields by name, each with its reading; nothing is a record without fields. -/
def record (fields : List (String × Reading)) : Reading := fun depth n => do
  match ← follow n, depth with
  | .table _ _ entries, depth + 1 =>
    let known ← entries.filterMapM fun (key, n) => do
      match ← follow key with
      | .scalar _ _ _ name =>
        match fields.lookup name with
        | some read => return some (name, ← read depth n)
        | none => return none
      | _ => refuse
    return .table known
  | n, _ => if isBlank n then return .table [] else refuse

/-- A record of one of several kinds, whose tag is a text; all else in it is taken for what it looks like. -/
def tagged (tag : String) : Reading := fun depth n => do
  match ← follow n, depth with
  | .list _ t items, depth + 1 =>
    if (kindOf? t).isSome then refuse
    match items with
    | first :: rest => return .list ((← text depth first) :: (← rest.mapM (content depth)))
    | [] => refuse
  | .table _ t entries, depth + 1 =>
    if (kindOf? t).isSome then refuse
    let entries ← entries.mapM fun (key, n) => do
      let key ← content depth key
      return (key, ← if key.isText tag then text depth n else content depth n)
    return tableOf entries
  | _, _ => refuse

end Reading

/-- The number of levels that a reading may go down. -/
def depthLimit : Nat := 128

/-- What a text denotes by a reading. -/
def Reading.ofText? (read : Reading) (s : String) : Option Document := do
  let n ← Node.ofText? s
  let (d, _) ← (read depthLimit n).run { nodes := n.marked [], budget := 100 * n.size }
  return d

end Planning.Yaml
