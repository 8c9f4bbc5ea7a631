import Planning.Constraint.Stream
import Planning.Dynamic.Problem
import Planning.Score.Text
import Planning.Value.Document
import Planning.Value.Formula

/-!
# Dynamic constraints as documents

Formulas, joiners, collectors, graphs and constraints over dynamic solutions are written as documents: a
formula as a list that begins with its operation, the others as tables. The depth of a document bounds the
depth of what it describes.
-/

namespace Planning

/-- The relation of two numbers, if a word names one. -/
def Formula.testOf? (word : String) (a b : Formula) : Option Formula :=
  match word with
  | "eq" => some (.test .eq a b)
  | "ne" => some (.test .ne a b)
  | "lt" => some (.test .lt a b)
  | "le" => some (.test .le a b)
  | "and" => some (.and a b)
  | "or" => some (.or a b)
  | _ => none

/-- The calculation with two numbers, if a word names one. -/
def Formula.calcOf? (word : String) (a b : Formula) : Option Formula :=
  match word with
  | "add" => some (.calc .add a b)
  | "sub" => some (.calc .sub a b)
  | "mul" => some (.calc .mul a b)
  | "mod" => some (.calc .mod a b)
  | _ => none

/-- The formula of a document, down to a depth. -/
def Formula.ofDocumentTo : Nat → Document → Formula
  | 0, _ => .it
  | depth + 1, d =>
    let arg (i : Nat) : Formula := ofDocumentTo depth (d.item i)
    match (d.item 0).asText with
    | "" => .it
    | "it" => .it
    | "at" => .path ((d.items.drop 1).map Document.asInt)
    | "lit" => .const (Value.ofDocument (d.item 1))
    | "not" => .not (arg 1)
    | "list" => .list ((d.items.drop 1).map (ofDocumentTo depth))
    | "range" => .range (arg 1)
    | word => ((testOf? word (arg 1) (arg 2)).orElse fun _ => calcOf? word (arg 1) (arg 2)).getD .it

/-- The formula of a document. -/
def Formula.ofDocument (d : Document) : Formula := ofDocumentTo d.depth d

/-- The value of a formula as an integer. -/
def Formula.evalInt (f : Formula) (v : Value) : Checked Int := do return (← f.eval v).toInt

/-- The value of a formula as a list. -/
def Formula.evalItems (f : Formula) (v : Value) : Checked (List Value) := do return (← f.eval v).items

/-- The formula holds for a pair. -/
def Formula.holdsFor (f : Formula) (a b : Value) : Checked Bool := f.holds (.pair a b)

/-- The formula in an entry of a table. -/
def Document.formula (d : Document) (name : String) : Formula := .ofDocument (d.get name)

/-- The relation of a word. -/
def JoinRelation.ofWord (word : String) : JoinRelation :=
  match word with
  | "equal" => .equal
  | "lt" => .lessThan
  | "le" => .lessThanOrEqual
  | "gt" => .greaterThan
  | "ge" => .greaterThanOrEqual
  | "overlap" => .overlapping
  | _ => .unindexed

/-- The joiner of a table, down to a depth. -/
def Joiner.ofDocumentTo : Nat → Document → Joiner
  | 0, _ => .cross
  | depth + 1, d =>
    let f (name : String) : Value → Checked Value := (d.formula name).eval
    match (d.get "j").asText with
    | "equal" => .equal (f "key")
    | "equal_bi" => .keys .equal (f "l") (f "r")
    | "overlap" => .overlapping (f "s") (f "e") (f "s") (f "e")
    | "overlap_bi" => .overlapping (f "sl") (f "el") (f "sr") (f "er")
    | "filter" => .filtering (d.formula "p").holdsFor
    | "and" => .and (ofDocumentTo depth (d.get "a")) (ofDocumentTo depth (d.get "b"))
    | "cross" => .cross
    | word => .keys (.ofWord word) (f "l") (f "r")

/-- The joiner of a table. -/
def Joiner.ofDocument (d : Document) : Joiner := ofDocumentTo d.depth d

/-- The collector of a table, down to a depth. -/
def Collector.ofDocumentTo : Nat → Document → Collector
  | 0, _ => .count
  | depth + 1, d =>
    let f := (d.formula "f").eval
    let g := (d.formula "f").evalInt
    let inner (name : String) : Collector := ofDocumentTo depth (d.get name)
    match (d.get "c").asText with
    | "count_distinct" => .countDistinct f
    | "min" => .extremum false f
    | "max" => .extremum true f
    | "to_list" => .toList f
    | "to_set" => .toSet f
    | "sum" => .sum g
    | "average" => .average g
    | "load_balance" => .loadBalance (d.formula "key").eval g
    | "compose" => .compose (inner "a") (inner "b")
    | "if" => .conditionally (d.formula "p").holds (inner "in")
    | "then" => .andThen (inner "in") f
    | _ => .count

/-- The collector of a table. -/
def Collector.ofDocument (d : Document) : Collector := ofDocumentTo d.depth d

/-- The class of a list of a word and a position. -/
def SourceClass.ofDocument (d : Document) : SourceClass :=
  if (d.item 0).asText == "fact" then .fact (d.item 1).asNat else .entity (d.item 1).asNat

/-- The event of a list of a word, a class and a position, which begin at an index. -/
def SourceEvent.ofDocument (d : Document) : SourceEvent :=
  let change : Change :=
    match (d.item 1).asText with
    | "insert" => .insert
    | "update" => .update
    | _ => .retract
  ⟨change, .ofDocument (d.item 2), (d.item 3).asNat⟩

namespace DynamicSolution

/-- The solution of a table. -/
def ofDocument (d : Document) : DynamicSolution :=
  let classes (name : String) : List (List Value) :=
    (d.get name).items.map fun c => Value.ofDocuments c.items
  { entities := classes "entities", facts := classes "facts" }

/-- The source node of a class. -/
def sourceNode (d : Document) : Node DynamicSolution :=
  let c := SourceClass.ofDocument d
  .source c (members c)

/-- What a group makes of its key and its result. -/
def groupOutput (word : String) : Value → Value → Value :=
  match word with
  | "key" => fun k _ => k
  | "result" => fun _ r => r
  | _ => .pair

/-- How a node completes tuples, which carry their keys as a whole or in their first member. -/
def complementRule (d : Document) : ComplementRule :=
  let whole := (d.get "whole").asBool
  { tupleKey := if whole then id else fun t => t.at? 0
    elementKey := (d.formula "key").eval
    fill := (d.formula "fill").eval
    build := if whole then fun k _ => k else .pair }

/-- The graph of a table, down to a depth. -/
def nodeTo : Nat → Document → Node DynamicSolution
  | 0, d => sourceNode (d.get "class")
  | depth + 1, d =>
    let node (name : String) : Node DynamicSolution := nodeTo depth (d.get name)
    let f := d.formula "f"
    match (d.get "n").asText with
    | "filter" => .ofFilter (node "up") (d.formula "p").holds
    | "map" => .map (node "up") f.eval
    | "flatten" => .ofFlatten (node "up") f.evalItems
    | "flatten_last" => .ofFlatten (node "up") (Stream.expandLast f.evalItems)
    | "join" => .ofJoin (node "left") (node "right")
        { joiner := .ofDocument (d.get "on")
          combine := if (d.get "append").asBool then Stream.append else .pair
          uniquePairs := (d.get "unique").asBool }
    | "exists" => .ofExists (node "left") (node "right")
        { joiner := .ofDocument (d.get "on"), shouldExist := (d.get "should").asBool }
    | "group" => .ofGroup (node "up")
        { key := (d.formula "key").eval
          collector := .ofDocument (d.get "col")
          output := groupOutput (d.get "out").asText }
    | "complement" => .ofComplement (node "up") (node "source") (complementRule d)
    | _ => sourceNode (d.get "class")

/-- The graph of a table. -/
def nodeOf (d : Document) : Node DynamicSolution := nodeTo d.depth d

/-- The weight of a text; a text that is no score weighs nothing. -/
def weightOf (d : Document) : Score .hardSoft := (Score.parse .hardSoft d.asText).toOption.getD .zero

/-- The impact of a word. -/
def impactOf (d : Document) : Impact := if d.asText == "reward" then .reward else .penalty

/-- The name of a constraint. -/
def refOf (d : Document) : ConstraintRef := ⟨(d.get "package").asText, (d.get "name").asText⟩

/-- The constraint of a graph whose tuples are weighed as a table says. -/
def terminalOf (node d : Document) : Constraint DynamicSolution .hardSoft where
  ref := refOf d
  impact := impactOf (d.get "impact")
  weight := weightOf (d.get "weight")
  weigher := (d.formula "weigher").evalInt
  justify := Value.render
  node := nodeOf node

/-- The right side of a stage that joins: a class, or the members of a class for which a predicate holds. -/
def otherNode (d : Document) : Node DynamicSolution :=
  match d.get "where" with
  | .null => sourceNode (d.get "class")
  | p => .ofFilter (sourceNode (d.get "class")) (Formula.ofDocument p).holds

/-- A stream with one more stage. -/
def stage (x : Stream DynamicSolution) (d : Document) : Stream DynamicSolution :=
  let c := SourceClass.ofDocument (d.get "class")
  let joiner := Joiner.ofDocument (d.get "on")
  let collector := Collector.ofDocument (d.get "col")
  let f := d.formula "f"
  let key := (d.formula "key").eval
  match (d.get "s").asText with
  | "each" => .forEach c (members c)
  | "pair" => .forEachUniquePair c (members c) joiner
  | "filter" => x.filter (d.formula "p").holds
  | "map" => x.map f.eval
  | "flatten" => x.flatten f.evalItems
  | "flatten_last" => x.flattenLast f.evalItems
  | "join" => x.join (otherNode d) joiner
  | "if_exists" => x.ifExists (otherNode d) joiner
  | "if_not_exists" => x.ifNotExists (otherNode d) joiner
  | "group_by" => x.groupBy key collector
  | "group_by_key" => x.groupByKey key
  | "collect" => x.collect collector
  | "complement" => x.complement c (members c) key (d.formula "fill").eval
  | _ => x

/-- The constraint of a table. -/
def constraintOf (d : Document) : Constraint DynamicSolution .hardSoft :=
  let start : Stream DynamicSolution := .forEach (.entity 0) fun _ => []
  let weigher := match d.get "weigher" with
    | .null => Stream.once
    | w => (Formula.ofDocument w).evalInt
  ((d.get "pipe").items.foldl stage start).constraint (refOf d) (impactOf (d.get "impact"))
    (weightOf (d.get "weight")) weigher

end DynamicSolution

end Planning
