import Planning.Proofs.Director.Evolution
import Planning.Proofs.Phase.Confined
import Planning.Proofs.Solver.Course

/-!
# Values in range while a problem is solved

All that the course of a solver does to its director is what may happen to a director: moves that are made and evaluated,
values in range that are given to entities, scores that are asked for, and changes of the problem. So values that were
in range when the problem was given to the solver are in range at every moment, up to a change that exposes them. Such
changes are made as they are: a room that goes may leave lessons with a room that is not there.
-/

namespace Planning

open Checked RunState

variable {S T : Type} {k : ScoreKind} [PlanningSolution S k] {D : Director S k → Prop} {C : ProblemChange S k → Prop}
variable {B L : Type} {V : B → Type} {W : L → Type} [DecidableEq B] [DecidableEq L]
variable [∀ b, PlanningValue (V b)] [∀ b, DecidableEq (V b)] [∀ l, PlanningValue (W l)] [∀ l, DecidableEq (W l)]
variable {g : Genuine S V W} {facts : S → T} {shadows : ShadowCascade S} {r : RunState S k}

omit [PlanningSolution S k] in
/-- Changes of the problem that wait on a desk, or that its watch will ask for, are of a kind. -/
structure Desk.Expects (desk : Desk S k) (C : ProblemChange S k → Prop) : Prop where
  /-- The changes that wait. -/
  pending : ∀ c ∈ desk.pending, C c
  /-- The changes that the watch asks for. -/
  asked : ∀ w ∈ desk.watch, ∀ i c, (i, .change c) ∈ w.requests → C c

namespace Running

section Journal

variable (hjournal : ∀ {dir : Director S k} journal, D dir → D { dir with journal := journal })
include hjournal

omit [PlanningSolution S k] in
/-- What is only noted keeps the kind of the director, whatever changes may come. -/
theorem stays_of_noted {α : Type} {x : Running S k α} (h : ∀ r, Ends x r (fun _ r' => r.Noted r') fun _ _ => False) :
    Leads (fun _ => True) (Stays D) x := by
  intro r _
  refine (h r).mono (fun _ r' hr' => ⟨trivial, fun hD => ?_⟩) fun _ _ => False.elim
  rw [hr'.director]
  exact hjournal _ hD

/-- Where a phase is over the director stays as it is, also if the phase failed. -/
theorem stays_leavePhase (place : Nat) (p : Phase S k) : Leads (fun _ => True) (Stays D) (leavePhase place p) :=
  .bind (.modify fun _ _ => ⟨trivial, id⟩) fun _ => .bind .get fun _ =>
    .bind (stays_of_noted hjournal fun _ => .report fun _ => id) fun _ =>
      stays_of_noted hjournal fun _ => .tell fun _ => id

/-- Where a run is over the director stays as it is. -/
theorem stays_leave (failure : Option SolverError) :
    Leads (fun _ => True) (Stays D) (Solver.leave failure : Running S k Unit) :=
  .bind .get fun _ => .bind (stays_of_noted hjournal fun _ => .report fun _ => id) fun _ =>
    stays_of_noted hjournal fun _ => .tell fun _ => id

end Journal

/-- A phase that keeps the kind of the director does so in a run, also if it fails. -/
theorem ends_runPhase_stays (hD : Director.Lasting D) {p : Phase S k} (hp : Confined D C p.run) (place : Nat)
    (h : r.Expects D C) :
    Ends (runPhase place p) r (fun failure r' => (failure = none → r'.Expects D C) ∧ r.Stays D r') fun _ r' =>
      r.Stays D r' := by
  have henter : Confined D C (enterPhase place p) :=
    .bind (Confined.count fun _ => ⟨rfl, rfl, rfl⟩) fun _ => .bind (Confined.tell hD.journal _) fun _ =>
      Confined.report hD.journal _ _ _
  have hleave : Confined D C (leavePhase place p) :=
    .bind (Confined.count fun _ => ⟨rfl, rfl, rfl⟩) fun _ => .bind .get fun _ =>
      .bind (Confined.report hD.journal _ _ _) fun _ => Confined.tell hD.journal _
  rw [runPhase_eq]
  simp only [ends_bind, ends_pure]
  refine (henter r h).mono (fun _ r₁ hr₁ => ?_) fun _ _ => id
  refine .failureOf ((hp r₁ hr₁.1).mono (fun _ r₂ hr₂ => ?_) fun e r₂ hr₂ => ⟨fun e' _ => ?_, fun f _ => ?_⟩)
  · have hstays₂ := trans_of _ hr₁.2 hr₂.2
    exact (hleave r₂ hr₂.1).mono (fun _ _ hr₃ => ⟨fun _ => hr₃.1, trans_of _ hstays₂ hr₃.2⟩) fun _ _ => trans_of _ hstays₂
  · have hstays₂ := trans_of _ hr₁.2 hr₂
    exact (stays_leavePhase hD.journal place p r₂ trivial).mono
      (fun _ _ hr₃ => ⟨fun hnone => absurd hnone (Option.some_ne_none e'), trans_of _ hstays₂ hr₃.2⟩)
      fun _ _ => trans_of _ hstays₂
  · exact trans_of _ hr₁.2 hr₂

omit [DecidableEq B] [DecidableEq L] in
/-- Phases that plan genuine variables keep the kind of the director one after another. -/
theorem ends_runPhases_stays (hD : g.Confines C D) {phases : List (Phase S k)} (hp : ∀ p ∈ phases, Confined D C p.run) (place : Nat)
    (h : r.Expects D C) :
    Ends (runPhases place phases) r (fun _ r' => r.Stays D r') fun _ r' => r.Stays D r' := by
  induction phases generalizing r place with
  | nil => exact refl_of (Stays D) r
  | cons p phases ih =>
    obtain ⟨hp, hphases⟩ := List.forall_mem_cons.1 hp
    simp only [runPhases, ends_bind, ends_discard, ends_get, ends_ite, ends_pure]
    refine (Confined.takeChanges hD r h).mono (fun _ r₁ hr₁ => ⟨fun _ => hr₁.2, fun _ => ?_⟩) fun _ _ => id
    refine (ends_runPhase_stays hD.toLasting hp place hr₁.1).mono (fun failure r₂ hr₂ => ?_) fun _ _ => trans_of _ hr₁.2
    have hstays₂ := trans_of _ hr₁.2 hr₂.2
    cases failure with
    | some e => exact hstays₂
    | none => exact (ih hphases (place + 1) (hr₂.1 rfl)).mono (fun _ _ => trans_of _ hstays₂) fun _ _ => trans_of _ hstays₂

end Running

/-- A phase that plans genuine variables keeps the kind of the director. -/
theorem Genuine.Phases.confined (hD : g.Confines C D) (hreg : g.Regular facts shadows) (hdraws : g.Draws facts)
    (hcoherent : g.Coherent) (hshadows : ∀ {dir}, D dir → dir.shadows = shadows) {p : Phase S k} (hp : g.Phases p) :
    Running.Confined D C p.run := by
  cases hp with
  | construction x hx => exact Construction.confined_run hD hx
  | insertion x hx => exact Insertion.confined_run hD hx
  | localSearch x hx => exact LocalSearch.confined_run hD hx
  | exhaustive x hx => exact ExhaustiveSearch.confined_run hD hreg hx hdraws hcoherent hshadows

/-- A director becomes another with the same listeners. -/
def Genuine.Becomes (g : Genuine S V W) (shadows : ShadowCascade S) (dir dir' : Director S k) : Prop :=
  g.Evolves (fun _ _ _ => True) dir dir' ∧ dir'.shadows = shadows

/-- What a run does with a director makes it what the director may become. -/
theorem Genuine.confines_becomes (hreg : g.Regular facts shadows) (hdraws : g.Draws facts) (dir : Director S k) :
    g.Confines g.Typed (g.Becomes shadows dir) := by
  have hstep : ∀ {dir₁ dir₂ : Director S k}, g.Becomes shadows dir dir₁ → g.Evolve (fun _ _ _ => True) dir₁ dir₂ →
      g.Becomes shadows dir dir₂ := by
    rintro dir₁ dir₂ ⟨hpath, hsame⟩ hstep
    exact ⟨hpath.tail hstep, hstep.shadows_eq hreg hdraws hsame⟩
  exact {
    journal := fun journal h => hstep h (.report journal)
    calculate := fun h hd => hstep h (.calculate hd)
    assertScore := fun h hd => hstep h (.assertScore hd)
    doMove := fun hm h hd => hstep h (.doMove hm hd)
    evaluate := fun hm h hd => hstep h (.evaluate hm hd)
    assign := fun h he hv hd => hstep h (.assign he hv hd)
    change := fun hc h hd => hstep h (.change hc hd trivial) }

/-- Values that are in range stay in range, whatever happens to a director, if changes of the problem that expose values
spare them. Whatever phases a solver goes through and however its run ends, what it does to its director is what may
happen to one, up to a change that exposes values and takes some out of range. Ranges are drawn from facts and
entities. -/
theorem Solver.course_inRange (x : Solver S k) (hreg : g.Regular facts shadows) (hdraws : g.Draws facts)
    (hcoherent : g.Coherent) (hphases : ∀ p ∈ x.phases, g.Phases p) {desk : Desk S k} (hdesk : desk.Expects g.Typed)
    {dir : Director S k} (hshadows : dir.shadows = shadows) (hin : g.InRange dir.solution) :
    (∀ dir', g.Evolves g.Sparing dir dir' → g.InRange dir'.solution) ∧
      Running.Ends x.course (x.begin desk dir)
        (fun _ r => g.Evolves g.Sparing dir r.director ∨ g.Exposed dir r.director)
        fun _ r => g.Evolves g.Sparing dir r.director ∨ g.Exposed dir r.director := by
  refine ⟨fun dir' h => h.inRange hreg hdraws hshadows hin, ?_⟩
  have hD := g.confines_becomes hreg hdraws dir
  have hbegin : (x.begin desk dir).Expects (g.Becomes shadows dir) g.Typed := by
    refine ⟨⟨.refl, hshadows⟩, hdesk.pending, ?_⟩
    rintro c ⟨w, hw, i, hc⟩
    exact hdesk.asked w hw i c hc
  have henter : Running.Confined (g.Becomes shadows dir) g.Typed x.enter :=
    .bind (Running.Confined.count fun _ => ⟨rfl, rfl, rfl⟩) fun _ =>
      .bind (Running.Confined.report hD.journal _ _ _) fun _ => .bind .get fun _ => Running.Confined.tell hD.journal _
  have hruns : ∀ p ∈ x.phases, Running.Confined (g.Becomes shadows dir) g.Typed p.run :=
    fun p hp => (hphases p hp).confined hD hreg hdraws hcoherent And.right
  have hcourse : Running.Ends x.course (x.begin desk dir) (fun _ r => (x.begin desk dir).Stays (g.Becomes shadows dir) r)
      fun _ r => (x.begin desk dir).Stays (g.Becomes shadows dir) r := by
    rw [course_eq]
    simp only [Running.ends_bind, Running.ends_pure]
    refine (henter _ hbegin).mono (fun _ r₁ hr₁ => ?_) fun _ _ => id
    refine (Running.ends_runPhases_stays hD hruns 0 hr₁.1).mono (fun failure r₂ hstays₂ => ?_)
      fun _ _ => trans_of _ hr₁.2
    have hstays₂ := trans_of _ hr₁.2 hstays₂
    exact (Running.stays_leave hD.journal failure r₂ trivial).mono (fun _ _ hr₃ => trans_of _ hstays₂ hr₃.2)
      fun _ _ => trans_of _ hstays₂
  have hpath : ∀ {r : RunState S k}, (x.begin desk dir).Stays (g.Becomes shadows dir) r →
      g.Evolves g.Sparing dir r.director ∨ g.Exposed dir r.director :=
    fun hstays => (hstays hbegin.director).1.sparing_or_exposed hreg hdraws hshadows hin
  exact hcourse.mono (fun _ _ => hpath) fun _ _ => hpath

namespace Timetable

/-- What lessons have as a room as a genuine variable whose range has a number of indices. -/
def indexed (count : Timetable → Nat) : Genuine Timetable (fun _ : Unit => Nat) (fun _ : Empty => Nat) where
  basic _ := { roomVariable with range := .indices count }
  list l := l.elim

/-- Values are in range if each lesson that has one has one of the indices. -/
theorem inRange_indexed {count : Timetable → Nat} {t : Timetable} : (indexed count).InRange t ↔
    (t.lessons.all fun l => l.room.all fun i => decide (i < count t)) = true := by
  rw [List.all_eq_true]
  constructor
  · intro h l hl
    obtain ⟨e, he, rfl⟩ := List.mem_iff_getElem.1 hl
    cases hroom : t.lessons[e].room with
    | none => rfl
    | some i =>
      refine h () e i he ?_
      change t.lessons[e]?.bind Lesson.room = some i
      rw [List.getElem?_eq_getElem he]
      exact hroom
  · intro h b e i he hroom
    have he : e < t.lessons.length := he
    have hroom : t.lessons[e]?.bind Lesson.room = some i := hroom
    rw [List.getElem?_eq_getElem he] at hroom
    have hall := h _ (List.getElem_mem he)
    rw [show t.lessons[e].room = some i from hroom] at hall
    exact hall

/-- The rooms of lessons are indices of the rooms that there are. -/
theorem givenRooms_eq : givenRooms = indexed fun t => t.rooms.length := rfl

/-- The rooms that there are say which rooms are in range. -/
theorem draws_givenRooms : givenRooms.Draws bare := by
  intro b s t h
  funext e i
  exact congrArg (fun rs : List Room => decide (i < rs.length)) (congrArg Prod.fst h)

/-- The lessons are the entities of the problem. -/
theorem holds_lessons {range : ValueRange Timetable Nat} :
    lessonCollection.Holds { roomVariable with range := range } where
  count _ := rfl
  get? _ _ _ _ h := congrArg (fun l : Option Lesson => l.bind Lesson.room) h

/-- The rooms of lessons are not drawn from lessons. -/
theorem suits_lessons : lessonCollection.Suits givenRooms where
  members _ _ := rfl
  place _ := .inl holds_lessons
  grows _ _ _ _ _ h := h

/-- A lesson that goes takes no room out of range. -/
theorem frees_lessons : lessonCollection.Frees givenRooms := fun _ => .inl ⟨holds_lessons, fun _ _ _ _ _ => rfl⟩

/-- A room is no matter to the lessons. -/
theorem avoids_rooms (b : Unit) : roomCollection.Avoids (givenRooms.basic b) := ⟨fun _ _ => rfl, fun _ _ => rfl⟩

/-- The rooms of lessons are drawn from the rooms. -/
theorem suits_rooms : roomCollection.Suits givenRooms where
  members _ _ := rfl
  place b := .inr (avoids_rooms b)
  grows _ s a _ v h := by
    have h : decide (v < s.rooms.length) = true := h
    change decide (v < (s.rooms ++ [a]).length) = true
    rw [List.length_append, List.length_singleton]
    have hlt := of_decide_eq_true h
    exact decide_eq_true (by omega)

/-- A desk on which a room and a lesson in it wait to come, the first lesson to go, and another one to be moved. -/
def busy : Desk Timetable .hardSoft where
  pending := [.addFact roomCollection 0 ⟨2, "C", 40⟩ "C", .addEntity lessonCollection 0 ⟨2, "Noether", 35, 0, some 2⟩ "2",
    .removeEntity lessonCollection 0 0, .setValue roomVariable 0 (some 2)]

/-- What waits on the desk are changes by which values are set and members come and go. -/
theorem expects_busy : busy.Expects (givenRooms.Typed (k := .hardSoft)) where
  pending := by
    refine List.forall_mem_cons.2 ⟨.addFact suits_rooms avoids_rooms _ _ _, List.forall_mem_cons.2
      ⟨.addEntity suits_lessons _ _ _, List.forall_mem_cons.2 ⟨.removeEntity suits_lessons _ _, ?_⟩⟩⟩
    exact List.forall_mem_singleton.2 (.setValue (g := givenRooms) () 0 (some 2))
  asked _ h := by cases h

/-- One lesson in the second of two rooms. -/
def upstairs : Timetable where
  rooms := [⟨0, "A", 30⟩, ⟨1, "B", 20⟩]
  lessons := [⟨0, "Curie", 25, 0, some 1⟩]

/-- Two lessons of which the first refers to the second. -/
def paired : Timetable where
  rooms := []
  lessons := [⟨0, "Curie", 25, 0, some 1⟩, ⟨1, "Turing", 18, 1, none⟩]

/-- The lessons that lessons refer to, which are drawn from the lessons. -/
abbrev references : Genuine Timetable (fun _ : Unit => Nat) (fun _ : Empty => Nat) := indexed fun t => t.lessons.length

/-- The second lesson goes. -/
theorem removeEntity_paired : (ProblemChange.removeEntity lessonCollection 0 1).apply (directorOf paired) =
    .ok (directorOf { paired with lessons := [⟨0, "Curie", 25, 0, some 1⟩] }, none) := by
  with_unfolding_all rfl

/-- A lesson in one of two rooms has a room that is there. -/
theorem inRange_halfGiven : givenRooms.InRange halfGiven := by
  rw [givenRooms_eq, inRange_indexed]
  decide

end Timetable

open Timetable in
/-- A solver with phases of both kinds, on whose desk changes of the problem wait; a lesson that goes exposes nothing. -/
theorem Solver.course_inRange_busy : givenRooms.InRange halfGiven ∧ lessonCollection.Frees givenRooms ∧
    (∀ dir', givenRooms.Evolves givenRooms.Sparing (directorOf halfGiven) dir' → givenRooms.InRange dir'.solution) ∧
      Running.Ends planner.course (planner.begin busy (directorOf halfGiven))
        (fun _ r => givenRooms.Evolves givenRooms.Sparing (directorOf halfGiven) r.director ∨
          givenRooms.Exposed (directorOf halfGiven) r.director)
        fun _ r => givenRooms.Evolves givenRooms.Sparing (directorOf halfGiven) r.director ∨
          givenRooms.Exposed (directorOf halfGiven) r.director :=
  ⟨inRange_halfGiven, frees_lessons, Solver.course_inRange planner regular_givenRooms draws_givenRooms coherent_givenRooms
    phases_planner expects_busy rfl inRange_halfGiven⟩

open Timetable in
/-- A fact that goes takes a value out of range, and so does an entity if ranges are drawn from entities. -/
theorem Genuine.exists_outOfRange :
    (∃ dir : Director Timetable .hardSoft, givenRooms.InRange upstairs ∧
      (ProblemChange.removeFact roomCollection 0 1).apply (directorOf upstairs) = .ok (dir, none) ∧
        ¬ givenRooms.InRange dir.solution) ∧
      ∃ dir : Director Timetable .hardSoft, references.InRange paired ∧
        (ProblemChange.removeEntity lessonCollection 0 1).apply (directorOf paired) = .ok (dir, none) ∧
          ¬ references.InRange dir.solution := by
  simp only [givenRooms_eq]
  refine ⟨⟨directorOf { upstairs with rooms := [⟨0, "A", 30⟩] }, ?_, rfl, ?_⟩, _, ?_, removeEntity_paired, ?_⟩
  all_goals
    rw [inRange_indexed]
    decide

end Planning
