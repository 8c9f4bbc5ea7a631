import Mathlib
import Planning.Proofs.Constraint.Set
import Planning.Proofs.Director.Trial
import Planning.Proofs.Problems.Routing.Trial

/-!
# Moves of plans undone

The constraints of the problem read vehicles and visits, and a move of routes announces the vehicles whose routes
it changes. A director of plans that scores incrementally therefore follows its plan while moves are made and
undone: afterwards the plan is what it was before, and so is its score.
-/

namespace Planning.RoutePlan

open Checked

variable {p q : RoutePlan} {D : Set Nat} {pinned : Option (RoutePlan → Nat → Bool)}
variable {dir dir' dir'' : Director RoutePlan .hardSoft}

/-- The constraints read the vehicles and the visits and nothing else. -/
theorem reads_constraints {cl : SourceClass} {ms : RoutePlan → List Value} (h : constraints.Reads cl ms) :
    cl = .entity 0 ∧ ms = vehicleMembers ∨ cl = .entity 1 ∧ ms = visitMembers := by
  obtain ⟨c, hc, hr⟩ := h
  simp only [constraints, List.mem_cons, List.not_mem_nil, or_false] at hc
  rcases hc with rfl | rfl | rfl
  · rcases hr with ⟨rfl, rfl⟩ | ⟨rfl, rfl⟩
    · exact .inr ⟨rfl, rfl⟩
    · exact .inl ⟨rfl, rfl⟩
  · obtain ⟨rfl, rfl⟩ := hr
    exact .inr ⟨rfl, rfl⟩
  · obtain ⟨rfl, rfl⟩ := hr
    exact .inr ⟨rfl, rfl⟩

/-- The constraints digest whatever happens. -/
theorem sound_constraints : constraints.Sound := by
  have hvisits : ∀ p, ((Stream.forEach (.entity 1) visitMembers).filter p).node.Sound :=
    fun p => Stream.sound_filter (Stream.sound_forEach _ _) p
  intro c hc
  suffices h : c.node.Sound from ⟨h.calm, h.orderFree⟩
  simp only [constraints, List.mem_cons, List.not_mem_nil, or_false] at hc
  rcases hc with rfl | rfl | rfl
  · have hloads := Stream.sound_groupBy (hvisits fun v => .ok (v.at? 4 != .null)) (fun v => .ok (v.at? 4))
      (Collector.orderFree_sum fun v => .ok (v.at? 1).toInt)
    exact Stream.sound_filter (Stream.sound_join hloads (Node.sound_source _ _) _) _
  · exact hvisits _
  · exact hvisits _

/-- Plans that have the same vehicles and visits but for some of them differ in the members at their places. -/
theorem reported_of_members (hvehicles : q.vehicles.length = p.vehicles.length)
    (hvisits : q.visits.length = p.visits.length) {xs : List EntityRef}
    (hvehicle : ∀ w, (0, w) ∉ xs → q.vehicles[w]? = p.vehicles[w]?)
    (hvisit : ∀ v, (1, v) ∉ xs → q.visits[v]? = p.visits[v]?) : Reported constraints p q xs := by
  refine ⟨fun cl => ?_, fun cl ms hr i hne => ?_⟩
  · cases cl with
    | fact d => rfl
    | entity d =>
      rcases d with - | - | d
      · exact hvehicles
      · exact hvisits
      · rfl
  · rcases reads_constraints hr with ⟨rfl, rfl⟩ | ⟨rfl, rfl⟩
    · refine ⟨(0, i), ?_, rfl⟩
      by_contra hi
      simp only [vehicleMembers, List.getElem?_map, hvehicle i hi] at hne
      exact hne rfl
    · refine ⟨(1, i), ?_, rfl⟩
      by_contra hi
      simp only [visitMembers, List.getElem?_map, hvisit i hi] at hne
      exact hne rfl

/-- What is written to visits is reported. -/
theorem Written.reported_constraints {α : Type} {read : Visit → α} {erase : Visit → Visit} {l : List (Nat × α)}
    {changed : List EntityRef} (h : Written read erase p q l changed) (herase : ∀ x, (erase x).bare = x.bare) :
    Reported constraints p q changed := by
  have hbare : q.bare = p.bare := h.bare_eq herase
  have hvehicles := vehicles_of_bare hbare
  refine reported_of_members (by rw [hvehicles]) (length_of_bare hbare) (fun w _ => by rw [hvehicles]) ?_
  intro v hv
  by_contra hne
  exact hv (h.reported v hne)

/-- What changes with the routes of some vehicles is found at the places of these. -/
theorem Rerouted.reported_constraints {xs : List EntityRef} (h : Rerouted {w | (0, w) ∈ xs} p q) :
    Reported constraints p q xs := by
  have hlen : q.vehicles.length = p.vehicles.length := by simpa using congrArg List.length h.vehicles
  refine reported_of_members hlen (by rw [h.visits]) (fun w hw => ?_) fun v _ => by rw [h.visits]
  refine vehicle_ext ?_ (h.routes w hw)
  rw [← List.getElem?_map, h.vehicles, List.getElem?_map]

/-- A director of plans can rely on the constraints and the cascade. -/
theorem contract : Contract constraints cascade where
  sound := sound_constraints
  sized cl ms hr s := by
    rcases reads_constraints hr with ⟨rfl, rfl⟩ | ⟨rfl, rfl⟩
    · exact List.length_map _
    · exact List.length_map _
  scored cl ms hr s score := by
    rcases reads_constraints hr with ⟨rfl, rfl⟩ | ⟨rfl, rfl⟩
    · rfl
    · rfl
  reported e he s x s' changed h := by
    rcases exists_written he h with ⟨l, hl⟩ | ⟨l, hl⟩
    · exact hl.reported_constraints fun _ => rfl
    · exact hl.reported_constraints fun _ => rfl

/-- Moves of routes announce the vehicles whose routes they change. -/
theorem announced_routes : Announced constraints (routes pinned).Moves := by
  intro m hm s e hplan s' happly
  obtain ⟨hrerouted, -⟩ := rerouted_of_plan hm hplan happly
  exact hrerouted.reported_constraints

/-- The times of arrival along every route are known. -/
def Reachable (p : RoutePlan) : Prop := ∀ w, ∃ times, p.arrivals (p.route w) = .ok times

theorem Reachable.of_bare (h : p.Reachable) (hbare : q.bare = p.bare) : q.Reachable := by
  intro w
  rw [route_of_bare hbare, arrivals_of_bare hbare]
  exact h w

/-- A listener succeeds when the times of arrival along every route are known, and leaves them known. -/
theorem Reachable.exists_update (h : p.Reachable) {e : ShadowEntry RoutePlan} (he : e ∈ cascade) (x : EntityRef) :
    ∃ q changed, e.listener.update p x = .ok (q, changed) ∧ q.Reachable := by
  suffices hok : ∃ y, e.listener.update p x = .ok y by
    obtain ⟨⟨q, changed⟩, hok⟩ := hok
    exact ⟨q, changed, hok, h.of_bare (bare_update he hok)⟩
  have hrefresh : ∀ w, ∃ y, p.refreshRoute w = .ok y := by
    intro w
    obtain ⟨times, htimes⟩ := h w
    exact ⟨_, bind_eq_ok_iff.2 ⟨times, htimes, rfl⟩⟩
  obtain ⟨c, i⟩ := x
  simp only [cascade, List.mem_cons, List.not_mem_nil, or_false] at he
  rcases he with rfl | rfl
  · simp only [vehicleEntry, vehicleListener]
    split
    · exact ⟨_, rfl⟩
    · exact ⟨_, rfl⟩
    · exact ⟨_, rfl⟩
  · simp only [arrivalEntry, arrivalListener]
    split
    · exact hrefresh i
    · split
      · exact ⟨_, rfl⟩
      · split
        · exact hrefresh _
        · exact ⟨_, rfl⟩
    · exact ⟨_, rfl⟩

/-- Undoing what was tried from a fresh plan succeeds when the director scores in full. -/
theorem Fresh.exists_undoRecording (h : Fresh dir)
    (htrials : Relation.ReflTransGen (Director.Trial (routes pinned).Moves) dir.record dir')
    (hfull : dir'.isIncremental = false) : ∃ dir'', dir'.undoRecording = .ok dir'' := by
  have htried := h.tried_of_trials htrials
  obtain ⟨r, rs, hr, -⟩ := htried.recorded
  obtain ⟨s, hs, hcontent⟩ := (Director.content_undoRecording lawful_routes
    (h.shadows.symm ▸ (apart_routes : (routes pinned).Apart cascade)) htrials).1
  rw [Director.recording, hr] at hs
  obtain ⟨hbare, -, -⟩ := htried.unmade hr hs hcontent
  have hreachable : s.Reachable := Reachable.of_bare (h.awaits.exists_arrivals h.planned) hbare
  obtain ⟨s', hs'⟩ := ShadowCascade.exists_cascadeAll (c := cascade)
    (fun e he s x hs => Reachable.exists_update hs he x) (fun _ => none) hreachable r.modified
  rw [← htried.fresh.shadows] at hs'
  cases hscoring : dir'.scoring with
  | incremental live =>
    rw [Director.isIncremental, hscoring] at hfull
    cases hfull
  | full calculate known => exact Director.exists_undoRecording hscoring hr hs hs'

/-- A director of plans that scores incrementally follows its plan after what was tried is undone. -/
theorem Fresh.follows_undo (h : Fresh dir) (hfollows : dir.Follows constraints .none)
    (htrials : Relation.ReflTransGen (Director.Trial (routes pinned).Moves) dir.record dir')
    (hundo : dir'.undoRecording = .ok dir'') : dir''.Follows constraints .none := by
  have htried := h.tried_of_trials htrials
  obtain ⟨r, rs, hr, -⟩ := htried.recorded
  obtain ⟨s, hs, hcontent⟩ := (Director.content_undoRecording lawful_routes
    (h.shadows.symm ▸ (apart_routes : (routes pinned).Apart cascade)) htrials).1
  rw [Director.recording, hr] at hs
  obtain ⟨-, hrerouted, -⟩ := htried.unmade hr hs hcontent
  have hrecord : dir.record.Follows constraints .none := hfollows.congr rfl rfl
  have hshadows : dir.record.shadows = cascade := h.shadows
  obtain ⟨hfollows', hshadows'⟩ := hrecord.trials contract hshadows announced_routes htrials
  refine (hfollows'.undoRecording contract hshadows' hr (fun s' hs' => ?_) hundo).1
  cases hs.symm.trans hs'
  exact hrerouted.reported_constraints

/-- A director of plans is fresh, and follows its plan if it scores incrementally, however many moves were made. -/
theorem fresh_of_trials {scoring : Scoring RoutePlan .hardSoft} {dir₀ : Director RoutePlan .hardSoft}
    (hp : p.Planned) (h₀ : problem.director scoring p = .ok (.ok dir₀))
    (htrials : Relation.ReflTransGen (Director.Trial (routes pinned).Moves) dir₀ dir) :
    Fresh dir ∧ (scoring = .incremental { constraints := constraints } → dir.Follows constraints .none) := by
  have hfresh₀ := fresh_director hp h₀
  constructor
  · induction htrials with
    | refl => exact hfresh₀
    | tail _ hstep ih => exact ih.trial hstep
  · rintro rfl
    have hreset : constraints.reset = constraints := rfl
    have hfollows₀ : dir₀.Follows constraints .none := by
      obtain ⟨s, -, rfl⟩ := director_eq_ok_iff.1 h₀
      exact ⟨_, rfl, rfl, fun _ => hreset.symm, nofun⟩
    exact (hfollows₀.trials contract hfresh₀.shadows announced_routes htrials).1

section Undo

variable {S B L : Type} {V : B → Type} {W : L → Type} [DecidableEq B] [DecidableEq L]
variable [∀ b, PlanningValue (V b)] [∀ b, DecidableEq (V b)] [∀ l, PlanningValue (W l)] [∀ l, DecidableEq (W l)]
variable {k : ScoreKind} [PlanningSolution S k] {g : Genuine S V W}

/-- Undoing a recording gives back what all genuine variables held when it was opened, whatever moves were made
since, and empties the recording; the edits that it remembers never fail. For plans it also gives back the shadow
variables, and a director that scores incrementally gives the score that it gave before; a director that scores in
full never fails to undo. -/
theorem undoRecording_restores (hg : g.Lawful) {dir dir' : Director S k} (hapart : g.Apart dir.shadows)
    (htrials : Relation.ReflTransGen (Director.Trial g.Moves) dir.record dir') :
    ((∃ s, dir'.recording.undos.foldlM (fun s f => f s) dir'.solution = .ok s ∧
        g.content s = g.content dir.solution) ∧
      ∀ dir'', dir'.undoRecording = .ok dir'' →
        g.content dir''.solution = g.content dir.solution ∧ dir''.recording = {}) ∧
    ∀ (p : RoutePlan) (pinned : Option (RoutePlan → Nat → Bool)) (scoring : Scoring RoutePlan .hardSoft)
      (dir₀ dir dir' : Director RoutePlan .hardSoft), p.Planned → problem.director scoring p = .ok (.ok dir₀) →
      Relation.ReflTransGen (Director.Trial (routes pinned).Moves) dir₀ dir →
      Relation.ReflTransGen (Director.Trial (routes pinned).Moves) dir.record dir' →
      (dir'.isIncremental = false → ∃ dir'', dir'.undoRecording = .ok dir'') ∧
      ∀ dir'', dir'.undoRecording = .ok dir'' →
        dir.shadows.updateAll dir.solution = .ok dir.solution ∧
        dir''.solution = { dir.solution with score := dir''.solution.score } ∧
        (scoring = .incremental { constraints := constraints } →
          ∀ before after score score', dir.calculate = .ok (before, score) →
            dir''.calculate = .ok (after, score') → score' = score) := by
  refine ⟨Director.content_undoRecording hg hapart htrials, ?_⟩
  intro p pinned scoring dir₀ dir dir' hp h₀ hbefore htried
  obtain ⟨hfresh, hfollows⟩ := fresh_of_trials hp h₀ hbefore
  refine ⟨fun hfull => hfresh.exists_undoRecording htried hfull, fun dir'' hundo => ?_⟩
  obtain ⟨-, hsame⟩ := hfresh.undo htried hundo
  refine ⟨?_, hsame, fun hincremental before after score score' hscore hscore' => ?_⟩
  · rw [hfresh.shadows]
    exact hfresh.planned.updateAll_eq_iff.2 hfresh.awaits
  · have hfollows' := hfresh.follows_undo (hfollows hincremental) htried hundo
    refine hfollows'.calculate_unique contract (hfollows hincremental) (fun cl ms hr => ?_) hscore' hscore
    rw [hsame]
    rcases reads_constraints hr with ⟨-, rfl⟩ | ⟨-, rfl⟩
    · rfl
    · rfl

end Undo

/-- Five list moves are made one after another, in different routes and between them. -/
def reshuffle (dir : Director RoutePlan .hardSoft) : Checked (Director RoutePlan .hardSoft) := do
  let (dir, _) ← dir.doMove ((ListMove.change 0 0 1 1).toMove ((routes none).list ()))
  let (dir, _) ← dir.doMove ((ListMove.assign 2 0 0).toMove ((routes none).list ()))
  let (dir, _) ← dir.doMove ((ListMove.swap 0 0 1 0).toMove ((routes none).list ()))
  let (dir, _) ← dir.doMove ((ListMove.reverse 1 0 2).toMove ((routes none).list ()))
  let (dir, _) ← dir.doMove ((ListMove.sublistChange 1 0 2 0 1).toMove ((routes none).list ()))
  return dir

theorem trials_of_reshuffle (h : reshuffle dir = .ok dir') :
    Relation.ReflTransGen (Director.Trial (routes none).Moves) dir dir' := by
  simp only [reshuffle, bind_eq_ok_iff, pure_eq_ok_iff] at h
  obtain ⟨⟨dir₁, _⟩, h₁, ⟨dir₂, _⟩, h₂, ⟨dir₃, _⟩, h₃, ⟨dir₄, _⟩, h₄, ⟨dir₅, _⟩, h₅, rfl⟩ := h
  have hmove : ∀ m : ListMove Nat, (routes none).Moves (m.toMove ((routes none).list ())) :=
    fun m => Genuine.Moves.list (g := routes none) () m
  exact .tail (.tail (.tail (.tail (.single (.move (hmove _) h₁)) (.move (hmove _) h₂)) (.move (hmove _) h₃))
    (.move (hmove _) h₄)) (.move (hmove _) h₅)

/-- A plan is scored, five moves are made and undone, and it is scored again. -/
def rescored (dir : Director RoutePlan .hardSoft) :
    Checked (Score .hardSoft × Director RoutePlan .hardSoft × Director RoutePlan .hardSoft × Score .hardSoft) := do
  let (_, before) ← dir.calculate
  let dir' ← reshuffle dir.record
  let dir'' ← dir'.undoRecording
  let (_, after) ← dir''.calculate
  return (before, dir', dir'', after)

/-- Five list moves of three visits, made and undone by a director that scores incrementally. -/
theorem undoRecording_restores_threeVisits :
    ∃ dir dir' dir'' before after score score', threeVisits.Planned ∧
      problem.incremental threeVisits = .ok (.ok dir) ∧ (routes none).Lawful ∧
      (routes none).Apart (k := .hardSoft) dir.shadows ∧
      Relation.ReflTransGen (Director.Trial (routes none).Moves) dir.record dir' ∧
      dir'.undoRecording = .ok dir'' ∧ dir.calculate = .ok (before, score) ∧ dir''.calculate = .ok (after, score') ∧
      (routes none).content dir''.solution = (routes none).content dir.solution ∧ dir''.recording = {} ∧
      dir.shadows.updateAll dir.solution = .ok dir.solution ∧
      dir''.solution = { dir.solution with score := dir''.solution.score } ∧ score' = score := by
  obtain ⟨s, hs⟩ := exists_eq_ok_of_isOk (x := cascade.updateAll threeVisits) (by cbv)
  have hrun : ((cascade.updateAll threeVisits).bind fun s =>
      rescored (directorOf (.incremental { constraints := constraints }) s)).isOk = true := by cbv
  rw [hs] at hrun
  obtain ⟨⟨_, dir', dir'', _⟩, hrun⟩ := exists_eq_ok_of_isOk hrun
  have h₀ : problem.incremental threeVisits =
      .ok (.ok (directorOf (.incremental { constraints := constraints }) s)) := director_eq_ok_iff.2 ⟨s, hs, rfl⟩
  dsimp only [Except.bind] at hrun
  generalize directorOf (.incremental { constraints := constraints }) s = dir at h₀ hrun
  simp only [rescored, bind_eq_ok_iff, pure_eq_ok_iff] at hrun
  obtain ⟨⟨before, first⟩, hbefore, dir₁, htrials, dir₂, hundo, ⟨after, last⟩, hafter, heq⟩ := hrun
  cases heq
  have hapart : (routes none).Apart (k := .hardSoft) dir.shadows := by
    rw [(fresh_director planned_threeVisits h₀).shadows]
    exact apart_routes
  have htrials := trials_of_reshuffle htrials
  obtain ⟨hgenuine, hplan⟩ := undoRecording_restores lawful_routes hapart htrials
  obtain ⟨hcontent, hempty⟩ := hgenuine.2 dir'' hundo
  obtain ⟨hupdated, hsame, hscore⟩ :=
    (hplan threeVisits none _ dir dir dir' planned_threeVisits h₀ .refl htrials).2 dir'' hundo
  exact ⟨dir, dir', dir'', before, after, first, last, planned_threeVisits, h₀, lawful_routes, hapart, htrials,
    hundo, hbefore, hafter, hcontent, hempty, hupdated, hsame, hscore rfl before after first last hbefore hafter⟩

end Planning.RoutePlan
