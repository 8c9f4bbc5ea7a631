import Planning.Descriptor.Basic
import Planning.SolverError

/-!
# Validated descriptions

A description is valid when it names what it must, when every genuine variable has a declared value range
and when the shadow variables can be ordered so that each comes after the variables it is derived from.
Validation finds that order by a depth-first search along the sources of the shadow variables; a variable
met again on the path that leads to it closes a cycle.
-/

namespace Planning

/-- A shadow variable with the variables it is derived from. -/
structure ShadowDependency where
  /-- The place of the shadow variable. -/
  shadow : VariableKey
  /-- The places of the variables that it is derived from. -/
  sources : List VariableKey
deriving DecidableEq, Repr

/-- A valid description. -/
structure ValidatedDescriptor extends SolutionDescriptor where
  /-- The shadow variables, each after the shadow variables it is derived from. -/
  shadowOrder : List VariableKey
  /-- What each shadow variable is derived from, in the order of declaration. -/
  dependencies : List ShadowDependency
deriving DecidableEq, Repr

namespace ValidatedDescriptor

/-- The shadow variables that are derived from a variable, once for each source that names it. -/
def dependents (d : ValidatedDescriptor) (key : VariableKey) : List VariableKey :=
  d.dependencies.flatMap fun dep => (dep.sources.filter (· = key)).map fun _ => dep.shadow

end ValidatedDescriptor

namespace SolutionDescriptor

variable (d : SolutionDescriptor)

/-- The value ranges that facts, entities or the solution itself provide. -/
def declaredRanges : List String :=
  d.facts.filterMap FactDescriptor.provides ++ d.entities.filterMap EntityDescriptor.provides ++
    d.valueRanges

/-- The value ranges whose values are elements of lists. -/
def listElementRanges : List String :=
  (d.entities.flatMap EntityDescriptor.allVariables).filterMap fun v =>
    if v.kind.isList then v.valueRange else none

/-- The entities of a class are elements of lists. -/
def isListElement (e : EntityDescriptor) : Bool :=
  e.provides.any fun range => d.listElementRanges.contains range

/-- A genuine variable has a declared value range; a list variable may have none. -/
def checkRange (e : EntityDescriptor) (v : VariableDescriptor) : Except ValidationError Unit :=
  if v.kind.isGenuine then
    match v.valueRange with
    | some range =>
      if d.declaredRanges.contains range then .ok ()
      else .error (.unreferencedValueRange e.typeName v.name range)
    | none => if v.kind.isList then .ok () else .error (.missingValueRange e.typeName v.name)
  else .ok ()

/-- Every variable has a name of its own and a declared value range. -/
def checkVariables (e : EntityDescriptor) :
    List String → List VariableDescriptor → Except ValidationError Unit
  | _, [] => .ok ()
  | seen, v :: vs => do
    if seen.contains v.name then throw (.duplicateVariable e.typeName v.name)
    d.checkRange e v
    checkVariables e (v.name :: seen) vs

/-- An entity class has something to plan, unless its entities are elements of lists. -/
def checkEntity (e : EntityDescriptor) : Except ValidationError Unit := do
  if e.genuine.isEmpty && !d.isListElement e then throw (.noPlanningVariables e.typeName)
  d.checkVariables e [] e.allVariables

/-- The place of a source of a shadow variable. -/
def resolveSource (key : VariableKey) (source : VariableSource) :
    Except ValidationError VariableKey :=
  match d.variableKey? source.entity source.name with
  | some k => .ok k
  | none =>
    let entity := (d.entities[key.entity]?.map EntityDescriptor.typeName).getD ""
    let name := ((d.variableAt? key).map VariableDescriptor.name).getD ""
    .error (.unknownShadowSource entity name source.entity source.name)

/-- What each shadow variable is derived from. -/
def resolveDependencies : Except ValidationError (List ShadowDependency) :=
  d.shadowKeys.mapM fun key => do
    let declared := ((d.variableAt? key).map VariableDescriptor.sources).getD []
    return ⟨key, ← declared.mapM (d.resolveSource key)⟩

end SolutionDescriptor

namespace ShadowDependency

/-- The variables that a shadow variable is derived from; other variables have none. -/
def sourcesOf (deps : List ShadowDependency) (key : VariableKey) : List VariableKey :=
  ((deps.find? fun dep => dep.shadow = key).map ShadowDependency.sources).getD []

/-- The variable is a shadow variable. -/
def isShadow (deps : List ShadowDependency) (key : VariableKey) : Bool :=
  deps.any fun dep => dep.shadow = key

/-- The shadow variables done so far, extended by a variable and everything it is derived from; a cycle
if the variable stands on the path that leads to it. The depth bounds the length of the path. -/
def visit (deps : List ShadowDependency) : Nat → List VariableKey → List VariableKey → VariableKey →
    Except (List VariableKey) (List VariableKey)
  | depth, path, done, key =>
    if !isShadow deps key || done.contains key then .ok done
    else if path.contains key then .error (path.dropWhile (· ≠ key) ++ [key])
    else
      match depth with
      | 0 => .ok done
      | depth + 1 => do
        let done ← (sourcesOf deps key).foldlM (visit deps depth (path ++ [key])) done
        return done ++ [key]

/-- The shadow variables in an order in which each comes after those it is derived from, or a cycle. -/
def order (deps : List ShadowDependency) : Except (List VariableKey) (List VariableKey) :=
  (deps.map ShadowDependency.shadow).foldlM (visit deps (deps.length + 1) []) []

end ShadowDependency

namespace SolutionDescriptor

variable (d : SolutionDescriptor)

/-- The description with its shadow variables put in order, unless they are derived from each other in a
circle. -/
def orderShadows : Except ValidationError ValidatedDescriptor := do
  let dependencies ← d.resolveDependencies
  match ShadowDependency.order dependencies with
  | .ok shadowOrder => return ⟨d, shadowOrder, dependencies⟩
  | .error cycle => throw (.shadowCycle (cycle.map d.label))

/-- The description with its shadow variables put in order, unless something is wrong with it. -/
def validate : Except ValidationError ValidatedDescriptor := do
  if d.typeName.isEmpty then throw .noSolution
  if d.entities.isEmpty then throw (.noEntities d.typeName)
  if d.scoreField.isNone then throw (.missingScoreField d.typeName)
  d.entities.forM d.checkEntity
  d.orderShadows

end SolutionDescriptor

end Planning
