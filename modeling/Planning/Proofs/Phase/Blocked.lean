import Planning.Proofs.Phase.LocalSearch
import Planning.Proofs.Problems.Timetable

/-!
# Doable moves that are made

Whatever selector lists a move that says it is doable, the move can be made and changes what genuine variables hold,
unless it swaps values of which one is not in range for the other entity. Such a swap is refused when it is evaluated,
and that is the one way in which a local search ends because a move cannot be made.
-/

namespace Planning

open Checked

variable {S : Type} {k : ScoreKind} [PlanningSolution S k]
variable {B L F : Type} {V : B → Type} {W : L → Type} [DecidableEq B] [DecidableEq L]
variable [∀ b, PlanningValue (V b)] [∀ b, DecidableEq (V b)] [∀ l, PlanningValue (W l)] [∀ l, DecidableEq (W l)]
variable {g : Genuine S V W} {facts : S → F} {shadows : ShadowCascade S} {s : S} {m : Move S}

namespace Genuine

/-- A move is made on every director of a solution and gives genuine variables that hold something else. Directors
that score in full, with listeners that always succeed, make it without a fault. -/
structure Made (g : Genuine S V W) (shadows : ShadowCascade S) (s : S) (m : Move S) : Prop where
  /-- The move is made, and the solution is another. -/
  changed : ∀ (dir dir' : Director S k) result, dir.solution = s → dir.shadows = shadows →
    dir.doMove m = .ok (dir', result) → result = .ok () ∧ g.content dir'.solution ≠ g.content s
  /-- A director that scores in full makes the move. -/
  exists_made : (∀ e ∈ shadows, ∀ s x, ∃ s' changed, e.listener.update s x = .ok (s', changed)) →
    ∀ (dir : Director S k) calculate known, dir.solution = s → dir.shadows = shadows →
      dir.scoring = .full calculate known → ∃ dir', dir.doMove m = .ok (dir', .ok ())

/-- A listed move that says it is doable is made unless it is a misfit, if no list holds an element twice. -/
theorem Listed.made (hreg : g.Regular facts shadows) (hnodup : ∀ l e, ((g.list l).list s e).Nodup)
    (hm : g.Listed s m) (hdoable : m.isDoable s = true) (hfit : ¬ g.Misfit s m) : g.Made (k := k) shadows s m := by
  obtain ⟨e, hplan⟩ := hm.exists_plan hdoable hfit
  obtain ⟨s', happly, hne⟩ := hm.moves.exists_apply hreg.lawful hnodup hdoable hplan
  refine ⟨fun dir dir' result hs hshadows hmove => ?_, fun htotal dir calculate known hs hshadows hfull => ?_⟩
  · rcases Director.cases_doMove hmove with ⟨err, hrefusal, -, -⟩ | ⟨e', hplan', rfl, hperform⟩
    · rw [hs, hplan] at hrefusal
      cases hrefusal
    · rw [hs, hplan] at hplan'
      cases hplan'
      obtain ⟨s'', happly', hlike, -⟩ := Director.perform_alike hreg hshadows hperform
      rw [hs, happly] at happly'
      cases happly'
      exact ⟨rfl, fun hsame => hne (hlike.content.symm.trans hsame)⟩
  · have htotal : ∀ e ∈ shadows, ∀ s x, True → ∃ s' changed, e.listener.update s x = .ok (s', changed) ∧ True :=
      fun e he s x _ => (htotal e he s x).imp fun s' hs' => hs'.imp fun _ h => ⟨h, trivial⟩
    obtain ⟨s'', hcascade⟩ := ShadowCascade.exists_cascadeAll htotal (fun c => dir.variableIndex? c e.name)
      (s := s') trivial e.entities
    obtain ⟨dir', hperform⟩ := Director.exists_perform hfull (hs.symm ▸ happly) (hshadows.symm ▸ hcascade)
    refine ⟨dir', ?_⟩
    rw [Director.doMove, hs, hplan]
    exact bind_eq_ok_iff.2 ⟨dir', hperform, rfl⟩

end Genuine

/-- In every solution whose lists hold no element twice, a move that says it is doable, of any selector, is made and
changes what genuine variables hold, unless it swaps values of which one is not in range for the other entity; such a
swap is refused by every director. A local search that ends because a move cannot be made ends at such a swap. -/
theorem LocalSearch.doable_made (hreg : g.Regular facts shadows) (hcoherent : g.Coherent) :
    (∀ selector, g.Selects selector → ∀ s, (∀ l e, ((g.list l).list s e).Nodup) → ∀ gen gen' moves,
      (selector.moves s).run gen = .ok (moves, gen') → ∀ m ∈ moves, m.isDoable s = true →
        (¬ g.Misfit s m → g.Made (k := k) shadows s m) ∧
        (g.Misfit s m → ∃ err, ∀ dir : Director S k, dir.solution = s → dir.doMove m = .ok (dir, .error err))) ∧
    ∀ x : LocalSearch S k, g.Selects x.selector → ∀ r, r.Tended g facts shadows → ∀ err r',
      x.run r = .error (.failed (.moveApplication err)) r' →
        ∃ m, g.Misfit r'.director.solution m ∧ m.isDoable r'.director.solution = true ∧
          m.plan r'.director.solution = .error err := by
  refine ⟨fun selector hselector s hnodup gen gen' moves hmoves m hm hdoable => ⟨fun hfit => ?_, fun hmisfit => ?_⟩,
    fun x hx r hr err r' hrun => ?_⟩
  · exact (hselector.listed hcoherent hmoves hm).made hreg hnodup hdoable hfit
  · obtain ⟨err, hplan⟩ := hmisfit.exists_plan hdoable
    refine ⟨err, fun dir hs => ?_⟩
    rw [Director.doMove, hs, hplan]
    rfl
  · exact (ends_run hreg hcoherent hx hr).of_error hrun err rfl

namespace Timetable

/-- A local search that swaps rooms. -/
def swapping : LocalSearch Timetable .hardSoft where
  selector := .swap roomVariable .asListed

/-- A run with a timetable of which one lesson has a room. -/
def halfway : RunState Timetable .hardSoft where
  director := directorOf halfGiven
  generator := .ofSeed 0

/-- Nothing waits for the run, and nothing is asked of it. -/
theorem tended_halfway : halfway.Tended givenRooms bare [] where
  shadows := rfl
  pending _ h := absurd h List.not_mem_nil
  asked := by
    rintro c ⟨w, hw, -⟩
    cases hw

/-- The move that stops what is done, if that is what stops it. -/
def stoppedBy {α σ : Type} : EStateM.Result Stop σ α → Option MoveError
  | .error (.failed (.moveApplication err)) _ => some err
  | _ => none

/-- What is stopped by a move ends with its error. -/
theorem exists_of_stoppedBy {α σ : Type} {x : EStateM.Result Stop σ α} {err : MoveError} (h : stoppedBy x = some err) :
    ∃ r, x = .error (.failed (.moveApplication err)) r := by
  unfold stoppedBy at h
  split at h
  · cases h
    exact ⟨_, rfl⟩
  · cases h

/-- The search through swaps stops at the first one. -/
theorem stoppedBy_swapping : stoppedBy (swapping.run halfway) = some (.valueOutOfRange "room" 0 "None") := by
  decide +kernel

end Timetable

open Timetable in
/-- Of two lessons one has a room: giving the other one a room is made, swapping the room for none is refused, and a
local search that swaps rooms ends there. -/
theorem LocalSearch.doable_made_halfGiven :
    (roomMove (.change 1 (some 1))).isDoable halfGiven = true ∧
      givenRooms.Made (k := .hardSoft) [] halfGiven (roomMove (.change 1 (some 1))) ∧
      (roomMove (.swap 0 1)).isDoable halfGiven = true ∧
      (∃ err, ∀ dir : Director Timetable .hardSoft, dir.solution = halfGiven →
        dir.doMove (roomMove (.swap 0 1)) = .ok (dir, .error err)) ∧
      ∃ err r', swapping.run halfway = .error (.failed (.moveApplication err)) r' ∧
        ∃ m, givenRooms.Misfit r'.director.solution m ∧ m.isDoable r'.director.solution = true ∧
          m.plan r'.director.solution = .error err := by
  have hnodup : ∀ (l : Empty) e, ((givenRooms.list l).list halfGiven e).Nodup := fun l => l.elim
  obtain ⟨hmoves, hruns⟩ := LocalSearch.doable_made (k := .hardSoft) regular_givenRooms coherent_givenRooms
  obtain ⟨r', hrun⟩ := exists_of_stoppedBy stoppedBy_swapping
  refine ⟨rfl, ?_, rfl, ?_, _, r', hrun, hruns swapping (.swap () .asListed) halfway tended_halfway _ r' hrun⟩
  · refine (hmoves _ (.change () .asListed) halfGiven hnodup (.ofSeed 0) _ _ (changes_halfGiven _) _ ?_ rfl).1
      (not_misfit_change _ _ _)
    exact List.mem_map_of_mem (by decide)
  · refine (hmoves _ (.swap () .asListed) halfGiven hnodup (.ofSeed 0) _ _ (swaps_halfGiven _) _ ?_ rfl).2
      misfit_halfGiven
    exact List.mem_map_of_mem (by decide)

open Timetable in
/-- A selector of swaps lists one that says it is doable and cannot be made, and a local search over that timetable
ends because a move cannot be made. -/
theorem LocalSearch.exists_doable_refused :
    ∃ (x : LocalSearch Timetable .hardSoft) (r : RunState Timetable .hardSoft),
      givenRooms.Selects x.selector ∧ r.Tended givenRooms bare [] ∧
        (∃ moves gen m err, (x.selector.moves r.director.solution).run r.generator = .ok (moves, gen) ∧ m ∈ moves ∧
          m.isDoable r.director.solution = true ∧ r.director.doMove m = .ok (r.director, .error err)) ∧
        ∃ err r', x.run r = .error (.failed (.moveApplication err)) r' := by
  obtain ⟨r', hrun⟩ := exists_of_stoppedBy stoppedBy_swapping
  exact ⟨swapping, halfway, .swap () .asListed, tended_halfway,
    ⟨_, _, roomMove (.swap 0 1), .valueOutOfRange "room" 0 "None", swaps_halfGiven _,
      List.mem_map_of_mem (by decide), rfl, rfl⟩, _, r', hrun⟩

end Planning
