import Planning.Problem
import Planning.ProblemChange
import Planning.Variable

/-!
# The timetable problem

Each lesson has a teacher, a number of students and a timeslot and is given a room. No two lessons share a
room at one time, no room holds more students than it has places, and teachers would rather stay in one
room.
-/

namespace Planning

/-- A room. -/
structure Room where
  /-- The number by which the room is known. -/
  id : Nat
  /-- The name. -/
  name : String
  /-- The number of places. -/
  capacity : Int
deriving DecidableEq

namespace Room

/-- The members of a room as a value. -/
def toValue (r : Room) : Value := .list [.int r.id, .text r.name, .int r.capacity]

/-- The text that shows a room. -/
def text (r : Room) : String :=
  Text.record "Room"
    [("id", toString r.id), ("name", Text.quoted r.name), ("capacity", toString r.capacity)]

end Room

/-- A lesson. -/
structure Lesson where
  /-- The number by which the lesson is known. -/
  id : Nat
  /-- The teacher. -/
  teacher : String
  /-- The number of students. -/
  students : Int
  /-- The time. -/
  timeslot : Nat
  /-- The index of the room, once it is given. -/
  room : Option Nat
deriving DecidableEq

namespace Lesson

/-- The members of a lesson as a value. -/
def toValue (l : Lesson) : Value :=
  .list [.int l.id, .text l.teacher, .int l.students, .int l.timeslot,
    Value.ofOption (l.room.map .ofNat)]

/-- The text that shows a lesson. -/
def text (l : Lesson) : String :=
  Text.record "Lesson"
    [("id", toString l.id), ("teacher", Text.quoted l.teacher), ("student_count", toString l.students),
      ("timeslot", toString l.timeslot), ("room", Text.optional toString l.room)]

end Lesson

/-- Lessons that are given rooms. -/
structure Timetable where
  /-- The rooms. -/
  rooms : List Room
  /-- The lessons. -/
  lessons : List Lesson
  /-- The score that was stored last. -/
  score : Option (Score .hardSoft) := none
deriving DecidableEq

namespace Timetable

instance : PlanningSolution Timetable .hardSoft where
  score t := t.score
  withScore t s := { t with score := some s }
  isInitialized t := t.lessons.all fun l => l.room.isSome
  entityCount t _ := t.lessons.length
  factCount t _ := t.rooms.length

/-- Four lessons for two rooms. -/
def small : Timetable where
  rooms := [⟨0, "A", 30⟩, ⟨1, "B", 20⟩]
  lessons := [⟨0, "Curie", 25, 0, none⟩, ⟨1, "Curie", 18, 1, none⟩, ⟨2, "Turing", 20, 0, none⟩,
    ⟨3, "Turing", 22, 1, none⟩]

/-- The lessons as a collection. -/
def lessonCollection : Collection Timetable Lesson := ⟨lessons, fun t ls => { t with lessons := ls }⟩

/-- The rooms as a collection. -/
def roomCollection : Collection Timetable Room := ⟨rooms, fun t rs => { t with rooms := rs }⟩

/-- The room of a lesson. -/
def room? (t : Timetable) (i : Nat) : Option Nat := t.lessons[i]?.bind Lesson.room

/-- The timetable with another room of a lesson. -/
def setRoom (t : Timetable) (i : Nat) (r : Option Nat) : Timetable :=
  { t with lessons := t.lessons.modify i fun l => { l with room := r } }

/-- The variable that gives each lesson a room. -/
def roomVariable : BasicVariable Timetable Nat where
  entityClass := 0
  name := "room"
  count t := t.lessons.length
  get? := room?
  set := setRoom
  range := .indices fun t => t.rooms.length

/-- A lesson whose number is a hundred or more is pinned. -/
def isPinned (t : Timetable) (i : Nat) : Bool := t.lessons[i]?.any fun l => decide (100 ≤ l.id)

/-- How hard it is to give a lesson a room. -/
def difficulty (t : Timetable) (i : Nat) : Checked Int := .ok ((t.lessons[i]?.map Lesson.students).getD 0)

/-- How likely a room is to fit. -/
def strength (t : Timetable) (r : Nat) : Checked Int := .ok ((t.rooms[r]?.map Room.capacity).getD 0)

/-- The lessons as values. -/
def lessonMembers (t : Timetable) : List Value := t.lessons.map Lesson.toValue

/-- The rooms as values. -/
def roomMembers (t : Timetable) : List Value := t.rooms.map Room.toValue

/-- The text of an index that may be missing. -/
def indexText : Value → String
  | .int n => Text.wrapped "Some" (toString n)
  | _ => "None"

/-- The text of a text. -/
def nameText : Value → String
  | .text s => Text.quoted s
  | v => v.render

/-- The text that shows a lesson given by a value. -/
def lessonText (v : Value) : String :=
  Text.record "Lesson"
    [("id", (v.at? 0).render), ("teacher", nameText (v.at? 1)), ("student_count", (v.at? 2).render),
      ("timeslot", (v.at? 3).render), ("room", indexText (v.at? 4))]

/-- The text that shows a room given by a value. -/
def roomText (v : Value) : String :=
  Text.record "Room"
    [("id", (v.at? 0).render), ("name", nameText (v.at? 1)), ("capacity", (v.at? 2).render)]

/-- The lesson is given a room. -/
def isPlaced (lesson : Value) : Bool := lesson.at? 4 != .null

/-- Two lessons have one room at one time. -/
def roomConflict : Constraint Timetable .hardSoft :=
  let pairs := Stream.forEachUniquePair (.entity 0) lessonMembers
    (.equal fun v => .ok (.pair (v.at? 3) (v.at? 4)))
  let placed := pairs.filter fun t => .ok (isPlaced (t.at? 0))
  { placed.constraint ⟨"timetable", "Room conflict"⟩ .penalty (.unit 0) Stream.once with
    justify := fun t => Text.tuple (t.items.map lessonText) }

/-- A room has fewer places than a lesson has students. -/
def roomCapacity : Constraint Timetable .hardSoft :=
  let housed := (Stream.forEach (.entity 0) lessonMembers).join (.source (.fact 0) roomMembers)
    (.keys .equal (fun v => .ok (v.at? 4)) (fun v => .ok (v.at? 0)))
  let missing (t : Value) : Int := ((t.at? 0).at? 2).toInt - ((t.at? 1).at? 2).toInt
  let crowded := housed.filter fun t => .ok (decide (0 < missing t))
  { crowded.constraint ⟨"timetable", "Room capacity"⟩ .penalty (.unit 0)
      (fun t => bounded (missing t)) with
    justify := fun t => Text.tuple [lessonText (t.at? 0), roomText (t.at? 1)] }

/-- A teacher has lessons in two rooms. -/
def teacherStability : Constraint Timetable .hardSoft :=
  let pairs := Stream.forEachUniquePair (.entity 0) lessonMembers (.equal fun v => .ok (v.at? 1))
  let moving := pairs.filter fun t =>
    .ok (isPlaced (t.at? 0) && isPlaced (t.at? 1) && (t.at? 0).at? 4 != (t.at? 1).at? 4)
  { moving.constraint ⟨"timetable", "Teacher room stability"⟩ .penalty (.unit 1) Stream.once with
    justify := fun t => Text.tuple (t.items.map lessonText) }

/-- The constraints. -/
def constraints : ConstraintSet Timetable .hardSoft := [roomConflict, roomCapacity, teacherStability]

/-- The places that a room lacks for a lesson. -/
def lacking (rooms : List Room) (a : Lesson) : Checked Int := do
  match a.room.bind fun r => rooms[r]? with
  | none => return 0
  | some room => return max (← bounded (a.students - room.capacity)) 0

/-- What two lessons cost: a conflict of rooms, and a teacher on the move. -/
def pairCosts (a b : Lesson) : Int × Int :=
  match a.room, b.room with
  | some r, some r' =>
    (if r = r' ∧ a.timeslot = b.timeslot then 1 else 0, if a.teacher = b.teacher ∧ r ≠ r' then 1 else 0)
  | _, _ => (0, 0)

/-- The hard and the soft costs of lessons. -/
def costs (rooms : List Room) : List Lesson → Int × Int → Checked (Int × Int)
  | [], total => .ok total
  | a :: rest, (hard, soft) => do
    let hard ← bounded (hard - (← lacking rooms a))
    let pairs := rest.map (pairCosts a)
    let hard ← bounded (hard - (pairs.map Prod.fst).sum)
    costs rooms rest (hard, ← bounded (soft - (pairs.map Prod.snd).sum))

/-- The score of a timetable. -/
def calculate (t : Timetable) : Checked (Score .hardSoft) := do
  let (hard, soft) ← costs t.rooms t.lessons (0, 0)
  Score.ofList .hardSoft [hard, soft]

/-- The description of the problem. -/
def description : SolutionDescriptor where
  typeName := "Timetable"
  facts := [{ typeName := "Room", solutionField := "rooms", provides := some "rooms" }]
  entities := [{
    typeName := "Lesson"
    solutionField := "lessons"
    allVariables := [{ name := "room", kind := .genuine, valueRange := some "rooms" }] }]
  scoreField := some "score"

/-- The problem. -/
def problem : PlanningProblem Timetable .hardSoft where
  description := description
  constraints := constraints
  calculate := calculate

end Timetable

end Planning
