import Planning.Document.Basic
import Planning.Move.List
import Planning.Move.Value
import Planning.Problem
import Planning.ProblemChange

/-!
# Domains

A domain is a planning problem with the variable that is planned and with the documents in which its
solutions, moves and changes are exchanged.
-/

namespace Planning

/-- The members of a class as they are edited through documents. -/
structure ClassEditor (S : Type) (k : ScoreKind) where
  /-- A member comes at a position. -/
  insert : Document → Nat → S → Checked S
  /-- The member at a position goes. -/
  remove : Nat → S → Checked S
  /-- Another member stands at a position. -/
  replace : Document → Nat → S → Checked S
  /-- The problem change by which a member comes. -/
  added : Document → ProblemChange S k
  /-- The problem change by which a member goes. -/
  removed : Nat → ProblemChange S k

/-- The editor of a collection whose members are read from documents and shown by texts. -/
def ClassEditor.ofCollection {S E : Type} {k : ScoreKind} [PlanningSolution S k] (source : SourceClass)
    (c : Collection S E) (read : Document → E) (text : E → String) : ClassEditor S k where
  insert d i := c.edit fun l => insertAt l i (read d)
  remove i := c.edit fun l => removeAt l i
  replace d i := c.edit fun l => replaceAt l i (read d)
  added d :=
    match source with
    | .entity n => .addEntity c n (read d) (text (read d))
    | .fact n => .addFact c n (read d) (text (read d))
  removed i :=
    match source with
    | .entity n => .removeEntity c n i
    | .fact n => .removeFact c n i

/-- A problem with its variable and its documents. -/
structure Domain (S V : Type) (k : ScoreKind) where
  /-- The problem. -/
  problem : PlanningProblem S k
  /-- The variable that is planned. -/
  plan : PlanningVariable S V
  /-- The solution of a document. -/
  read : Document → Checked S
  /-- The document of a solution. -/
  write : S → Document
  /-- The value of a document. -/
  value : Document → V
  /-- The solution with another value of a variable of an entity. -/
  assign : EntityRef → String → Document → S → Checked S
  /-- The editor of a class. -/
  editor : SourceClass → ClassEditor S k

/-- The planned variable with the options that a table sets. -/
def BasicVariable.withOptions {S V : Type} (x : BasicVariable S V) (d : Document)
    (pinned : S → Nat → Bool) (difficulty : S → Nat → Checked Int) (strength : S → V → Checked Int) :
    BasicVariable S V :=
  let chosen {α : Type} (name : String) (a : α) : Option α := if (d.get name).asBool then some a else none
  { x with
    allowsUnassigned := (d.get "unassigned").asBool
    pinned := chosen "pinned" pinned
    difficulty := chosen "difficulty" difficulty
    strength := chosen "strength" strength }

/-- The document of a stored score. -/
def scoreDocument {k : ScoreKind} : Option (Score k) → Document := .ofOption fun s => .text s.text

namespace Domain

variable {S V : Type} {k : ScoreKind} (x : Domain S V k)

/-- The basic move of a list of a word and its parts. -/
def basicMove (d : Document) : BasicMove V :=
  match (d.item 0).asText with
  | "swap" => .swap (d.item 1).asNat (d.item 2).asNat
  | _ => .change (d.item 1).asNat ((d.item 2).optional x.value)

/-- The list move of a list of a word and its parts. -/
def listMove (d : Document) : ListMove V :=
  let n (i : Nat) : Nat := (d.item i).asNat
  match (d.item 0).asText with
  | "list_change" => .change (n 1) (n 2) (n 3) (n 4)
  | "list_swap" => .swap (n 1) (n 2) (n 3) (n 4)
  | "list_reverse" => .reverse (n 1) (n 2) (n 3)
  | "sublist_change" => .sublistChange (n 1) (n 2) (n 3) (n 4) (n 5)
  | _ => .assign (x.value (d.item 1)) (n 2) (n 3)

variable [PlanningValue V]

/-- The move of a document. -/
def move [DecidableEq V] (d : Document) : Move S :=
  match x.plan with
  | .basic v => (x.basicMove d).toMove v
  | .list v => (x.listMove d).toMove v

omit [PlanningValue V] in
/-- One edit of a script: a fact is replaced, a variable is set, or the script is refused. -/
def scriptEdit (d : Document) : Director S k → ChangeResult S k :=
  let n (i : Nat) : Nat := (d.item i).asNat
  match (d.item 0).asText with
  | "fact" => fun dir => do
    return (← dir.changeFact (n 1) (n 2) ((x.editor (.fact (n 1))).replace (d.item 3) (n 2)), none)
  | "var" => fun dir => do
    let name := (d.item 3).asText
    return (← dir.changeVariable (n 1, n 2) name (x.assign (n 1, n 2) name (d.item 4)), none)
  | _ => fun dir => .ok (dir, some (.invalidState (d.item 1).asText))

/-- The problem change of a document. -/
def change (d : Document) : ProblemChange S k :=
  let n (i : Nat) : Nat := (d.item i).asNat
  match (d.item 0).asText with
  | "add_entity" => (x.editor (.entity (n 1))).added (d.item 2)
  | "remove_entity" => (x.editor (.entity (n 1))).removed (n 2)
  | "add_fact" => (x.editor (.fact (n 1))).added (d.item 2)
  | "remove_fact" => (x.editor (.fact (n 1))).removed (n 2)
  | "closure" => .script (d.item 1).asText ((d.item 2).items.map x.scriptEdit)
  | _ =>
    match x.plan with
    | .basic v => .setValue v (n 1) ((d.item 2).optional x.value)
    | .list _ => .script "" []

end Domain

end Planning
