import Planning.Constraint.Set
import Planning.Director.Shadow
import Planning.Log
import Planning.Sequence
import Planning.Solution
import Planning.SolverError

/-!
# Directors

A director holds a working solution and scores it. Whoever changes the solution announces the change: the
director then brings the shadow variables up to date and, when it scores incrementally, passes events to
its constraints. A director that scores in full only forgets the score it knew.

A recording remembers how to undo the edits made while it is open and which entities they changed; undoing
runs the remembered edits backwards between the announcements for those entities.
-/

namespace Planning

/-- Constraints that are kept up with the working solution. -/
structure LiveScoring (S : Type) (k : ScoreKind) where
  /-- The constraints with their matches. -/
  constraints : ConstraintSet S k
  /-- The score of the matches. -/
  cached : Score k := .zero
  /-- The constraints have taken in the working solution. -/
  loaded : Bool := false
  /-- How often the score was asked for. -/
  calculations : Nat := 0

/-- How a director scores its working solution. -/
inductive Scoring (S : Type) (k : ScoreKind) where
  /-- By constraints that follow each change. -/
  | incremental (live : LiveScoring S k)
  /-- By a function of the whole solution, whose result is known until something changes. -/
  | full (calculate : S → Checked (Score k)) (known : Option (Score k))

/-- What was done while a recording is open. -/
structure Recording (S : Type) where
  /-- The edits that undo what was done, the latest first. -/
  undos : List (S → Checked S) := []
  /-- The entities whose variables changed, in the order of their first change. -/
  modified : List EntityRef := []

namespace Recording

variable {S : Type}

/-- An entity whose variable changed. -/
def track (r : Recording S) (x : EntityRef) : Recording S :=
  if r.modified.contains x then r else { r with modified := r.modified ++ [x] }

/-- There is nothing to undo. -/
def isEmpty (r : Recording S) : Bool := r.undos.isEmpty

end Recording

/-- A working solution with what scores it. -/
structure Director (S : Type) (k : ScoreKind) where
  /-- The description of the problem. -/
  descriptor : ValidatedDescriptor
  /-- The working solution. -/
  solution : S
  /-- What keeps the shadow variables up to date. -/
  shadows : ShadowCascade S
  /-- How the solution is scored. -/
  scoring : Scoring S k
  /-- The open recordings, the innermost first. -/
  recordings : List (Recording S) := []
  /-- What was reported, the latest first. -/
  journal : List LogEvent := []

namespace Director

variable {S : Type} {k : ScoreKind}

/-- The director of a solution whose shadow variables are made anew. -/
def create (d : ValidatedDescriptor) (shadows : ShadowCascade S) (scoring : Scoring S k) (s : S) :
    Checked (Director S k) := do
  return { descriptor := d, solution := ← shadows.updateAll s, shadows := shadows, scoring := scoring }

/-- The director scores by following changes. -/
def isIncremental (dir : Director S k) : Bool :=
  match dir.scoring with
  | .incremental _ => true
  | .full _ _ => false

/-- An event is reported. -/
def report (dir : Director S k) (e : LogEvent) : Director S k := { dir with journal := e :: dir.journal }

/-- The score that was known no longer holds. -/
def forget (dir : Director S k) : Director S k :=
  match dir.scoring with
  | .incremental _ => dir
  | .full calculate _ => { dir with scoring := .full calculate none }

/-- The matches go; the next score is made anew. -/
def resetScoring (dir : Director S k) : Director S k :=
  match dir.scoring with
  | .incremental live =>
    let live := { live with constraints := live.constraints.reset, cached := .zero, loaded := false }
    { dir with scoring := .incremental live }
  | .full calculate _ => { dir with scoring := .full calculate none }

/-- The solution is edited without an announcement. -/
def edit (dir : Director S k) (f : S → Checked S) : Checked (Director S k) := do
  return { dir.forget with solution := ← f dir.solution }

/-- The constraints follow an event, if they have taken in the solution. -/
def emit (dir : Director S k) (e : SourceEvent) : Checked (Director S k) := do
  match dir.scoring with
  | .incremental live =>
    if live.loaded then
      let (constraints, change) ← live.constraints.onEvent dir.solution e .zero
      let live := { live with constraints := constraints, cached := ← live.cached.add change }
      return { dir with scoring := .incremental live }
    else return dir
  | .full _ _ => return dir

/-- The events of one kind for the members of a class from a position up to a count. -/
def emitRange (dir : Director S k) (change : Change) (source : SourceClass) (start count : Nat) :
    Checked (Director S k) :=
  (List.range' start (count - start)).foldlM (fun dir i => dir.emit ⟨change, source, i⟩) dir

/-- The shadow variables follow a change of an entity, and the constraints follow them. Entities of the
class of the changed one at positions from a start up to a finish are left to the caller. -/
def cascade (dir : Director S k) (x : EntityRef) (index : Option Nat) (start finish : Nat) :
    Checked (Director S k) := do
  let (s, changed) ← dir.shadows.cascade dir.solution x index
  let others := changed.filter fun y =>
    !(y.1 == x.1 && decide (start ≤ y.2) && decide (y.2 < finish))
  others.foldlM (fun dir y => dir.emit ⟨.update, .entity y.1, y.2⟩) { dir with solution := s }

/-- Every open recording notes an entity. -/
def track (dir : Director S k) (x : EntityRef) : Director S k :=
  { dir with recordings := dir.recordings.map fun r => r.track x }

/-- The position of a variable of an entity class; no name means any variable. -/
def variableIndex? (dir : Director S k) (entityClass : Nat) (name : String) : Option Nat :=
  if name.isEmpty then none
  else dir.descriptor.entities[entityClass]?.bind fun e => e.variableIndex? name

/-- A variable of an entity is about to change. -/
def beforeVariableChanged (dir : Director S k) : Director S k := dir.forget

/-- A variable of an entity has changed. -/
def afterVariableChanged (dir : Director S k) (x : EntityRef) (name : String) :
    Checked (Director S k) := do
  let dir ← dir.cascade x (dir.variableIndex? x.1 name) x.2 (x.2 + 1)
  let dir ← dir.emit ⟨.update, .entity x.1, x.2⟩
  return dir.forget.track x

/-- A fact has changed. -/
def afterFactChanged (dir : Director S k) (factClass i : Nat) : Checked (Director S k) := do
  return (← dir.emit ⟨.update, .fact factClass, i⟩).forget

variable [PlanningSolution S k]

/-- An entity is about to come or to go at a position: those from there on go. -/
def beforeEntityMoved (dir : Director S k) (x : EntityRef) : Checked (Director S k) := do
  let n := PlanningSolution.entityCount dir.solution x.1
  return (← dir.emitRange .retract (.entity x.1) x.2 n).forget

/-- An entity has come at a position: it and those behind it come. -/
def afterEntityAdded (dir : Director S k) (x : EntityRef) : Checked (Director S k) := do
  let n := PlanningSolution.entityCount dir.solution x.1
  let dir ← dir.cascade x none x.2 n
  return (← dir.emitRange .insert (.entity x.1) x.2 n).forget

/-- An entity has gone from a position: the shadow variables follow the change of every position from
there on, and the entities behind it come again. -/
def afterEntityRemoved (dir : Director S k) (x : EntityRef) : Checked (Director S k) := do
  let n := PlanningSolution.entityCount dir.solution x.1
  let dir ← (List.range' x.2 (max n (x.2 + 1) - x.2)).foldlM
    (fun dir i => dir.cascade (x.1, i) none x.2 n) dir
  return (← dir.emitRange .insert (.entity x.1) x.2 n).forget

/-- A fact is about to come or to go at a position: those from there on go. -/
def beforeFactMoved (dir : Director S k) (factClass i : Nat) : Checked (Director S k) := do
  let n := PlanningSolution.factCount dir.solution factClass
  return (← dir.emitRange .retract (.fact factClass) i n).forget

/-- A fact has come or gone at a position: those from there on come. -/
def afterFactMoved (dir : Director S k) (factClass i : Nat) : Checked (Director S k) := do
  let n := PlanningSolution.factCount dir.solution factClass
  return (← dir.emitRange .insert (.fact factClass) i n).forget

/-- The constraints take in the solution if they have not yet. -/
def load (dir : Director S k) (live : LiveScoring S k) : Checked (Director S k × LiveScoring S k) := do
  if live.loaded then return (dir, live)
  let (constraints, score) ← live.constraints.load dir.solution .zero
  let e : LogEvent := ⟨.debug, [("message", .shown "Initialized constraint graph"),
    ("score", .shown score.text), ("constraint_count", .number constraints.length)]⟩
  return (dir.report e, { live with constraints := constraints, cached := score, loaded := true })

/-- The score of the working solution, which is stored in it. -/
def calculate (dir : Director S k) : Checked (Director S k × Score k) := do
  match dir.scoring with
  | .incremental live =>
    let (dir, live) ← dir.load live
    let live := { live with calculations := live.calculations + 1 }
    let s := PlanningSolution.withScore dir.solution live.cached
    return ({ dir with solution := s, scoring := .incremental live }, live.cached)
  | .full calculate known =>
    match known with
    | some score => return (dir, score)
    | none =>
      let score ← calculate dir.solution
      let s := PlanningSolution.withScore dir.solution score
      return ({ dir with solution := s, scoring := .full calculate (some score) }, score)

/-- The constraints whose scores differ from those calculated from scratch. -/
def diverging (live fresh : ConstraintSet S k) : List String :=
  (live.zip fresh).filterMap fun (a, b) =>
    if a.total = b.total then none else some s!"{a.ref.name}: {a.total.text} != {b.total.text}"

/-- The score of the working solution, unless it differs from the score calculated from scratch. A
director that scores in full has nothing to compare with. -/
def assertScore (dir : Director S k) :
    Checked (Director S k × Except ScoreCorruption (Score k)) := do
  let (dir, score) ← dir.calculate
  match dir.scoring with
  | .full _ _ => return (dir, .ok score)
  | .incremental live =>
    let (fresh, scratch) ← live.constraints.reset.load dir.solution .zero
    if scratch = score then return (dir, .ok score)
    let texts := diverging live.constraints fresh
    let e : LogEvent := ⟨.warn, [("message", .shown "Score corruption detected"),
      ("incremental", .shown score.text), ("from_scratch", .shown scratch.text),
      ("diverging", .number texts.length)]⟩
    return (dir.report e, .error
      { incremental := score.text
        fromScratch := scratch.text
        context := s!"score calculation #{live.calculations}"
        diverging := texts })

/-- The score of the working solution with what makes it up. -/
def explain (dir : Director S k) : Checked (Director S k × ScoreExplanation k) := do
  let (dir, score) ← dir.calculate
  match dir.scoring with
  | .incremental live => return (dir, ⟨score, live.constraints.analyze⟩)
  | .full _ _ => return (dir, ⟨score, []⟩)

omit [PlanningSolution S k] in
/-- Another working solution; what was recorded no longer applies. -/
def setSolution (dir : Director S k) (s : S) : Checked (Director S k) := do
  let dir := dir.resetScoring
  return { dir with
    solution := ← dir.shadows.updateAll s, recordings := dir.recordings.map fun _ => {} }

omit [PlanningSolution S k] in
/-- Every shadow variable made anew. -/
def triggerListeners (dir : Director S k) : Checked (Director S k) := do
  if dir.shadows.isEmpty then return dir.forget
  return { dir.resetScoring with solution := ← dir.shadows.updateAll dir.solution }

omit [PlanningSolution S k] in
/-- The matches and what was recorded go. -/
def reset (dir : Director S k) : Director S k :=
  { dir.resetScoring with recordings := dir.recordings.map fun _ => {} }

/-- The number of entities of all classes. -/
def totalEntityCount (dir : Director S k) : Nat :=
  sumOf ((List.range dir.descriptor.entities.length).map (PlanningSolution.entityCount dir.solution))

omit [PlanningSolution S k]

/-- A recording is opened. -/
def record (dir : Director S k) : Director S k := { dir with recordings := {} :: dir.recordings }

/-- The innermost recording, empty if there is none. -/
def recording (dir : Director S k) : Recording S := dir.recordings.head?.getD {}

/-- The innermost recording is closed without undoing what was done. -/
def stopRecording (dir : Director S k) : Director S k :=
  { dir with recordings := dir.recordings.drop 1 }

/-- The innermost recording forgets what was done. -/
def clearRecording (dir : Director S k) : Director S k :=
  { dir with recordings := {} :: dir.recordings.drop 1 }

/-- The innermost recording remembers how to undo an edit. -/
def remember (dir : Director S k) (undo : S → Checked S) : Director S k :=
  match dir.recordings with
  | [] => dir
  | r :: rs => { dir with recordings := { r with undos := undo :: r.undos } :: rs }

/-- What was done in the innermost recording is undone, the latest first. -/
def undoRecording (dir : Director S k) : Checked (Director S k) := do
  match dir.recordings with
  | [] => return dir
  | r :: rs =>
    let dir ← r.undos.foldlM (fun dir undo => dir.edit undo)
      { dir.beforeVariableChanged with recordings := rs }
    let dir ← r.modified.foldlM (fun dir x => dir.afterVariableChanged x "") dir
    return { dir with recordings := {} :: dir.recordings }

/-- The text that shows a director that scores incrementally. -/
def text (dir : Director S k) (live : LiveScoring S k) : String :=
  Text.record "IncrementalScoreDirector"
    [("initialized", Text.flag live.loaded), ("cached_score", live.cached.debugText),
      ("constraint_count", toString live.constraints.length), ("shadows", ShadowCascade.text dir.shadows)]

end Director

end Planning
