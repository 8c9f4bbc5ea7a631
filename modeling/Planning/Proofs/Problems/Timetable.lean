import Planning.Phase.Exhaustive
import Planning.Problems.Timetable
import Planning.Proofs.Run.Track
import Planning.Proofs.Selector.Listed

/-!
# Rooms of a timetable

The rooms of its lessons are the one genuine variable of a timetable. Everything else, the rooms that there are among
it, is a fact: giving a lesson a room changes the room of that lesson and nothing more.
-/

namespace Planning.Timetable

open Checked

variable {t : Timetable}

instance : LawfulSolution Timetable .hardSoft := ⟨fun _ _ => rfl, fun _ _ => rfl⟩

/-- The rooms of lessons as a genuine variable; there is no other one. -/
def givenRooms : Genuine Timetable (fun _ : Unit => Nat) (fun _ : Empty => Nat) where
  basic _ := roomVariable
  list l := l.elim

/-- The facts of a timetable: the rooms and the lessons without theirs. -/
def bare (t : Timetable) : List Room × List Lesson := (t.rooms, t.lessons.map fun l => { l with room := none })

/-- A lesson has the room that it was given, if there is such a lesson, and the others keep theirs. -/
theorem room?_setRoom {e : Nat} (he : e < t.lessons.length) (v : Option Nat) (i : Nat) :
    (t.setRoom e v).room? i = Function.update t.room? e v i := by
  rw [Function.update_apply]
  simp only [room?, setRoom, List.getElem?_modify]
  split
  · rename_i hei
    subst hei
    rw [if_pos rfl, List.getElem?_eq_getElem he]
    rfl
  · rename_i hei
    rw [if_neg (Ne.symm hei)]
    cases t.lessons[i]? <;> rfl

/-- Giving a lesson a room is no fact. -/
theorem bare_setRoom (t : Timetable) (e : Nat) (v : Option Nat) : bare (t.setRoom e v) = bare t := by
  have hlessons : (t.lessons.modify e fun l => { l with room := v }).map (fun l => { l with room := none }) =
      t.lessons.map fun l => { l with room := none } := by
    refine List.ext_getElem? fun i => ?_
    simp only [List.getElem?_map, List.getElem?_modify]
    split <;> cases t.lessons[i]? <;> rfl
  exact Prod.ext rfl hlessons

/-- Giving a lesson a room changes the room of that lesson. -/
theorem lawful_givenRooms : givenRooms.Lawful where
  set_basic b s e v he := by
    refine Content.ext ?_ (funext fun l => l.elim) ?_ (funext fun l => l.elim)
    · funext b' i
      exact (room?_setRoom he v i).trans (by simp [Content.setValue, Genuine.content, givenRooms, roomVariable])
    · funext b'
      exact List.length_modify ..
  set_list l := l.elim

/-- The rooms of lessons are apart from stored scores, and the facts say which rooms there are. -/
theorem regular_givenRooms : givenRooms.Regular bare [] where
  lawful := lawful_givenRooms
  apart :=
    { listener := fun _ h => absurd h List.not_mem_nil
      score := fun _ _ => Content.ext rfl (funext fun l => l.elim) rfl (funext fun l => l.elim) }
  governed :=
    { set_basic := fun _ s e v => bare_setRoom s e v
      set_list := fun l => l.elim
      listener := fun _ h => absurd h List.not_mem_nil
      score := fun _ _ => rfl
      pinned := fun _ => ⟨fun _ => rfl, fun l => l.elim⟩
      contains := fun h => by
        refine ⟨fun _ => ?_, fun l => l.elim⟩
        funext e v
        have hrooms : (bare _).1 = (bare _).1 := congrArg Prod.fst h.facts
        exact congrArg (fun rs : List Room => decide (v < rs.length)) hrooms }

/-- A room that is listed is there. -/
theorem coherent_givenRooms : givenRooms.Coherent := by
  intro b s e vs v hvs hv
  cases hvs
  obtain ⟨i, hi, hget⟩ := List.mem_filterMap.1 hv
  have hlt : i < s.rooms.length := List.mem_range.1 hi
  have hget : (if i < s.rooms.length then some i else none) = some v := hget
  rw [if_pos hlt] at hget
  cases hget
  exact decide_eq_true hlt

/-- Timetables that are alike have the same lessons. -/
theorem lessons_eq_of_alike {u : Timetable} (h : givenRooms.Alike bare t u) : t.lessons = u.lessons := by
  have hbare : t.lessons.map (fun l => { l with room := none }) = u.lessons.map fun l => { l with room := none } :=
    congrArg Prod.snd h.facts
  have hroom : t.room? = u.room? := congrArg (fun c => c.values ()) h.content
  refine List.ext_getElem? fun i => ?_
  have hbare := congrArg (fun ls : List Lesson => ls[i]?) hbare
  have hroom : t.lessons[i]?.bind Lesson.room = u.lessons[i]?.bind Lesson.room := congrFun hroom i
  simp only [List.getElem?_map] at hbare
  cases ht : t.lessons[i]? with
  | none =>
    rw [ht, Option.map_none] at hbare
    exact (Option.map_eq_none_iff.1 hbare.symm).symm
  | some l =>
    rw [ht, Option.map_some] at hbare
    obtain ⟨l', hu, hl⟩ := Option.map_eq_some_iff.1 hbare.symm
    rw [ht, hu] at hroom
    cases l
    cases l'
    simp_all

/-- Timetables that are alike only differ in the stored score. -/
theorem eq_of_alike {u : Timetable} (h : givenRooms.Alike bare t u) : { t with score := u.score } = u := by
  have hrooms : t.rooms = u.rooms := congrArg Prod.fst h.facts
  rw [hrooms, lessons_eq_of_alike h]

/-- Timetables that are alike have the same score. -/
theorem calculate_eq_of_alike {u : Timetable} (h : givenRooms.Alike bare t u) : calculate t = calculate u := by
  have hrooms : t.rooms = u.rooms := congrArg Prod.fst h.facts
  rw [calculate, calculate, lessons_eq_of_alike h, hrooms]

/-- The description of the problem as it is when it was found to be valid. -/
def descriptor : ValidatedDescriptor where
  toSolutionDescriptor := description
  shadowOrder := []
  dependencies := []

/-- The director of a timetable that is scored in full. -/
def directorOf (t : Timetable) : Director Timetable .hardSoft where
  descriptor := descriptor
  solution := t
  shadows := []
  scoring := .full calculate none

/-- A search through the rooms of all lessons. -/
def roomSearch : ExhaustiveSearch Timetable Nat .hardSoft where
  planned := roomVariable

/-- Two lessons, of which one has a room. -/
def halfGiven : Timetable where
  rooms := [⟨0, "A", 30⟩, ⟨1, "B", 20⟩]
  lessons := [⟨0, "Curie", 25, 0, some 0⟩, ⟨1, "Turing", 18, 1, none⟩]

/-- A move of the rooms of lessons. -/
abbrev roomMove (m : BasicMove Nat) : Move Timetable := m.toMove roomVariable

/-- The changes of rooms where one of two lessons has a room. -/
theorem changes_halfGiven (gen : Generator) : ((MoveSelector.change roomVariable .asListed).moves halfGiven).run gen =
    .ok ([.change 0 (some 1), .change 1 (some 0), .change 1 (some 1)].map roomMove, gen) := rfl

/-- The swaps of rooms where one of two lessons has a room. -/
theorem swaps_halfGiven (gen : Generator) : ((MoveSelector.swap roomVariable .asListed).moves halfGiven).run gen =
    .ok ([.swap 0 1].map roomMove, gen) := rfl

/-- A lesson cannot swap its room for none. -/
theorem misfit_halfGiven : givenRooms.Misfit halfGiven (roomMove (.swap 0 1)) :=
  ⟨(), 0, 1, rfl, List.mem_singleton_self _, fun h => Bool.false_ne_true h.1⟩

/-- A change of a room is no swap. -/
theorem not_misfit_change (t : Timetable) (e : Nat) (v : Option Nat) :
    ¬ givenRooms.Misfit t (roomMove (.change e v)) := by
  rintro ⟨b, i, j, hmove, -⟩
  have hentities : [e] = [i, j] := congrArg Move.entities hmove
  cases hentities

end Planning.Timetable
