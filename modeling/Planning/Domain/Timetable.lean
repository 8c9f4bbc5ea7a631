import Planning.Domain.Basic
import Planning.Problems.Timetable

/-!
# Documents of the timetable problem

A timetable is written as its rooms and its lessons; rooms may be assigned to the first lessons.
-/

namespace Planning

/-- The room of a list of its number, its name and its places. -/
def Room.ofDocument (d : Document) : Room := ⟨(d.item 0).asNat, (d.item 1).asText, (d.item 2).asInt⟩

/-- The list of the number, the name and the places of a room. -/
def Room.toDocument (r : Room) : Document := .list [.nat r.id, .text r.name, .integer r.capacity]

/-- The lesson of a list of its members. -/
def Lesson.ofDocument (d : Document) : Lesson :=
  ⟨(d.item 0).asNat, (d.item 1).asText, (d.item 2).asInt, (d.item 3).asNat,
    (d.item 4).optional Document.asNat⟩

/-- The list of the members of a lesson. -/
def Lesson.toDocument (l : Lesson) : Document :=
  .list [.nat l.id, .text l.teacher, .integer l.students, .nat l.timeslot, .ofOption .nat l.room]

namespace Timetable

/-- The timetable of a document. -/
def ofDocument (d : Document) : Timetable :=
  let base : Timetable :=
    if (d.get "small").asBool then small
    else
      { rooms := (d.get "rooms").items.map Room.ofDocument
        lessons := (d.get "lessons").items.map Lesson.ofDocument }
  (d.get "assign").items.zipIdx.foldl (fun t (r, i) => t.setRoom i (r.optional Document.asNat)) base

/-- The document of a timetable. -/
def toDocument (t : Timetable) : Document :=
  .table [("rooms", .list (t.rooms.map Room.toDocument)),
    ("lessons", .list (t.lessons.map Lesson.toDocument)),
    ("init", .bool (PlanningSolution.isInitialized t)), ("score", scoreDocument t.score)]

/-- The domain with options of the variable. -/
def domain (options : Document) : Domain Timetable Nat .hardSoft where
  problem := problem
  plan := .basic (roomVariable.withOptions options isPinned difficulty strength)
  read d := .ok (ofDocument d)
  write := toDocument
  value := Document.asNat
  assign x _ v t := .ok (t.setRoom x.2 (v.optional Document.asNat))
  editor source :=
    match source with
    | .entity _ => .ofCollection source lessonCollection Lesson.ofDocument Lesson.text
    | .fact _ => .ofCollection source roomCollection Room.ofDocument Room.text

end Timetable

end Planning
