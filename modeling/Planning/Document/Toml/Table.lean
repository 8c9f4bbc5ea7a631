import Planning.Document.Basic

/-!
# Tables in TOML

A table grows entry by entry. A header states a table or one more table of a list, and the tables on its way
are implied; the tables on the way of a dotted key are dotted. A table is stated once: an implied one may
still be stated, and only a dotted one may get entries by further dotted keys. No name is given twice.
-/

namespace Planning.Toml

/-- How a table came about. -/
inductive Origin where
  /-- By its own header, or as the whole. -/
  | stated
  /-- By the header of a table in it. -/
  | implied
  /-- By a dotted key. -/
  | dotted
deriving DecidableEq, Repr

/-- A part of a table that grows. -/
inductive Node where
  /-- A value, to which nothing is added. -/
  | value (d : Document)
  /-- A table. -/
  | table (origin : Origin) (entries : List (String × Node))
  /-- A list of tables, the latest first. -/
  | tables (items : List Node)

namespace Node

/-- The empty whole. -/
def empty : Node := .table .stated []

/-- Entries with another node under a name that they have. -/
def replaced (name : String) (n : Node) (entries : List (String × Node)) : List (String × Node) :=
  entries.map fun e => if e.1 == name then (name, n) else e

/-- An edit of the table at the end of a path. Tables that are missing on the way come about as the edit
says, and the latest table of a list stands for it. A dotted way does not go through stated tables. -/
def edit (dotted : Bool) (f : Origin → List (String × Node) → Option Node) :
    List String → Node → Option Node
  | [], .table o entries => f o entries
  | name :: path, .table o entries =>
    match entries.lookup name with
    | none => do
      let n ← edit dotted f path (.table (if dotted then .dotted else .implied) [])
      return .table o (entries ++ [(name, n)])
    | some (.table inner es) => do
      if dotted && inner = .stated then none
      return .table o (replaced name (← edit dotted f path (.table inner es)) entries)
    | some (.tables (n :: rest)) => do
      return .table o (replaced name (.tables ((← edit dotted f path n) :: rest)) entries)
    | some _ => none
  | _, _ => none

/-- A new entry of a table. -/
def insert (name : String) (n : Node) (o : Origin) (entries : List (String × Node)) : Option Node :=
  if (entries.lookup name).isSome then none else some (.table o (entries ++ [(name, n)]))

/-- A value comes under a dotted key. -/
def put (key : List String × String) (d : Document) (n : Node) : Option Node :=
  let (path, name) := key
  let add (o : Origin) (entries : List (String × Node)) : Option Node :=
    if !path.isEmpty && o ≠ .dotted then none else insert name (.value d) o entries
  n.edit true add path

/-- A table is stated. -/
def state (key : List String × String) (n : Node) : Option Node :=
  let (path, name) := key
  n.edit false (fun o entries =>
    match entries.lookup name with
    | none => insert name empty o entries
    | some (.table .implied es) => some (.table o (replaced name (.table .stated es) entries))
    | some _ => none) path

/-- One more table of a list is stated. -/
def stateItem (key : List String × String) (n : Node) : Option Node :=
  let (path, name) := key
  n.edit false (fun o entries =>
    match entries.lookup name with
    | none => insert name (.tables [empty]) o entries
    | some (.tables items) => some (.table o (replaced name (.tables (empty :: items)) entries))
    | some _ => none) path

/-- An edit of the table that was stated last, at a path. -/
def within (path : List String) (f : Node → Option Node) (n : Node) : Option Node :=
  n.edit false (fun o entries => f (.table o entries)) path

mutual

/-- The document of a node. -/
def toDocument : Node → Document
  | .value d => d
  | .table _ entries => .table (toEntries entries)
  | .tables items => .list (toItems items).reverse

/-- The documents of the entries of a table. -/
def toEntries : List (String × Node) → List (String × Document)
  | [] => []
  | (name, n) :: rest => (name, toDocument n) :: toEntries rest

/-- The documents of some nodes. -/
def toItems : List Node → List Document
  | [] => []
  | n :: rest => toDocument n :: toItems rest

end

end Node

end Planning.Toml
