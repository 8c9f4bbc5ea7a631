import Planning.Document.Basic

/-!
# Records in documents

A record is written as a table, in which its fields stand by name, or as a list, in which they stand by
position. Names that the record does not have are ignored in a table. A record of one of several kinds has a
tag, which stands in the table under its own name and in the list before the fields. Where a part stands
decides what else is taken for a record, a tag or a word: each notation has its own rules, and what is within
a record of several kinds is read by rules that all notations share.
-/

namespace Planning

/-- A field of a record as it is written. -/
structure FieldName where
  /-- The name. -/
  name : String
  /-- The field may be left out at the end of a list. -/
  trailing : Bool := false

/-- Where a part of a document stands. -/
inductive Place where
  /-- In JSON. -/
  | json
  /-- In TOML. -/
  | toml
  /-- In a record of several kinds, in any notation. -/
  | inner
deriving DecidableEq, Repr

namespace Document

/-- The entries by name of a table with any keys: an index stands for the name that it has among the given
ones, or for none, and no other key but a name is known. -/
def named? (names : List String) (entries : List (Document × Document)) :
    Option (List (String × Document)) :=
  entries.filterMapM fun (key, d) =>
    match key with
    | text s => some (some (s, d))
    | integer n => if n < 0 then none else some (names[n.toNat]?.map fun name => (name, d))
    | _ => none

/-- The fields that are among entries by name, each at most once. -/
def fieldsOf? (names : List FieldName) (entries : List (String × Document)) :
    Option (String → Option Document) :=
  if names.all fun f => decide ((entries.filter fun e => e.1 == f.name).length ≤ 1) then
    some fun name => entries.lookup name
  else none

/-- The fields of a record, if a document is one: each field at most once, and a list neither too long nor
without a field that it needs. In TOML a list may be longer. -/
def fields? (p : Place) (names : List FieldName) : Document → Option (String → Option Document)
  | table entries => fieldsOf? names entries
  | keyed entries => do fieldsOf? names (← named? (names.map FieldName.name) entries)
  | list items =>
    if (items.length ≤ names.length || p = .toml) && (names.drop items.length).all FieldName.trailing then
      some fun name => ((names.map FieldName.name).zip items).lookup name
    else none
  | _ => none

/-- A kind of record by its word, or within another record by its index. -/
def kind? (p : Place) (kinds : List String) : Document → Option String
  | text word => some word
  | integer n => if p = .inner ∧ 0 ≤ n then kinds[n.toNat]? else none
  | _ => none

/-- The document is a text. -/
def isText (s : String) : Document → Bool
  | text t => t == s
  | _ => false

/-- The kind of a record, which stands under a tag, and the rest of it. -/
def tagged? (p : Place) (tag : String) (kinds : List String) : Document → Option (String × Document)
  | table entries =>
    match entries.filter fun e => e.1 == tag with
    | [(_, d)] => do return (← d.kind? p kinds, table (entries.filter fun e => e.1 != tag))
    | _ => none
  | keyed entries =>
    match entries.filter fun e => e.1.isText tag with
    | [(_, d)] => do return (← d.kind? p kinds, keyed (entries.filter fun e => !e.1.isText tag))
    | _ => none
  | list (d :: items) => do return (← d.kind? p kinds, list items)
  | _ => none

/-- The document holds nothing, so that it may stand behind a word. -/
def isNothing (p : Place) : Document → Bool
  | null => p != .toml
  | table [] => p != .json
  | list [] => p == .toml
  | _ => false

/-- A word, which stands alone or as the only name of a table that holds nothing. -/
def word? (p : Place) (words : List String) : Document → Option String
  | text s => some s
  | table [(s, d)] => if d.isNothing p then some s else none
  | keyed [(key, d)] => if d.isNothing p then key.kind? .inner words else none
  | _ => none

/-- A natural number that fits 64 bits. -/
def count? : Document → Option Nat
  | integer n => if 0 ≤ n ∧ n.toNat ≤ maxCount then some n.toNat else none
  | signed n => if 0 ≤ n ∧ n.toNat ≤ maxCount then some n.toNat else none
  | _ => none

/-- A text. -/
def text? : Document → Option String
  | text s => some s
  | _ => none

/-- A truth value. -/
def bool? : Document → Option Bool
  | bool b => some b
  | _ => none

/-- A real number, which may be written as an integer. -/
def real? : Document → Option Float
  | real x => some x
  | integer n => some (integer n).asReal
  | signed n => some (integer n).asReal
  | _ => none

/-- A field that may be missing or null. -/
def optionalField? {α : Type} (read : Document → Option α) : Option Document → Option (Option α)
  | none => some none
  | some null => some none
  | some d => (read d).map some

/-- A field that stands for a given value when it is missing. -/
def fieldOr? {α : Type} (a : α) (read : Document → Option α) : Option Document → Option α
  | none => some a
  | some d => read d

end Document

end Planning
