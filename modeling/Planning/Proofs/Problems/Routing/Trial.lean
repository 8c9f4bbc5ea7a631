import Planning.Problem
import Planning.Proofs.Move.Alike
import Planning.Proofs.Problems.Routing.Edits

/-!
# Directors of plans

A director of plans keeps its working solution fresh while list moves are made and scores are asked for, however
it scores. What was done while a recording was open changed only the routes of the vehicles that it tracked, so
that announcing these after the undoing makes the plan what it was, the stored score aside.
-/

namespace Planning.RoutePlan

open Checked

variable {p q : RoutePlan} {D : Set Nat} {pinned : Option (RoutePlan → Nat → Bool)}
variable {dir dir' : Director RoutePlan .hardSoft}

/-- The description of the problem as it is when it was found to be valid. -/
def descriptor : ValidatedDescriptor where
  toSolutionDescriptor := description
  shadowOrder := [⟨1, 1⟩, ⟨1, 0⟩]
  dependencies := [⟨⟨1, 0⟩, [⟨0, 0⟩, ⟨1, 1⟩]⟩, ⟨⟨1, 1⟩, [⟨0, 0⟩]⟩]

/-- The listener of vehicles runs before the listener of arrivals, which depends on it. -/
theorem ofListeners_descriptor : ShadowCascade.ofListeners descriptor problem.listeners = .ok cascade := by
  have hentries : problem.listeners.mapM (ShadowCascade.entryOf descriptor) =
      .ok [arrivalEntry, vehicleEntry] := rfl
  have hvehicle : ShadowCascade.rank descriptor vehicleEntry = 0 := rfl
  have harrival : ShadowCascade.rank descriptor arrivalEntry = 1 := rfl
  rw [ShadowCascade.ofListeners, hentries]
  refine congrArg Except.ok ?_
  simp [List.mergeSort, List.MergeSort.Internal.splitInTwo, hvehicle, harrival, cascade]

/-- The director of a plan whose shadow variables were made anew. -/
def directorOf (scoring : Scoring RoutePlan .hardSoft) (s : RoutePlan) : Director RoutePlan .hardSoft where
  descriptor := descriptor
  solution := s
  shadows := cascade
  scoring := scoring

/-- A director of the problem is made with its description and its cascade. -/
theorem director_eq_ok_iff {scoring : Scoring RoutePlan .hardSoft} :
    problem.director scoring p = .ok (.ok dir) ↔
      ∃ s, cascade.updateAll p = .ok s ∧ directorOf scoring s = dir := by
  have hvalid : problem.description.validate = .ok descriptor := rfl
  simp only [PlanningProblem.director, hvalid, ofListeners_descriptor, Director.create, bind_eq_ok_iff,
    pure_eq_ok_iff, Except.ok.injEq]
  constructor
  · rintro ⟨_, ⟨s, hs, rfl⟩, rfl⟩
    exact ⟨s, hs, rfl⟩
  · rintro ⟨s, hs, rfl⟩
    exact ⟨_, ⟨s, hs, rfl⟩, rfl⟩

/-- A director of plans whose working solution is planned and fresh. -/
structure Fresh (dir : Director RoutePlan .hardSoft) : Prop where
  /-- The description is that of the problem. -/
  descriptor : dir.descriptor = descriptor
  /-- The cascade is that of the problem. -/
  shadows : dir.shadows = cascade
  /-- The working solution is planned. -/
  planned : dir.solution.Planned
  /-- The working solution awaits nothing. -/
  awaits : dir.solution.Awaits ∅

/-- The routes are found by the name of their variable, and any variable of vehicles by no name. -/
theorem Fresh.variableIndex? (h : Fresh dir) : dir.variableIndex? 0 "visits" = some 0 := by
  rw [Director.variableIndex?, h.descriptor]
  rfl

/-- A new director is fresh. -/
theorem fresh_director {scoring : Scoring RoutePlan .hardSoft} (hp : p.Planned)
    (h : problem.director scoring p = .ok (.ok dir)) : Fresh dir := by
  obtain ⟨s, hs, rfl⟩ := director_eq_ok_iff.1 h
  obtain ⟨hawaits, hbare, -⟩ := hp.awaits_updateAll hs
  exact ⟨rfl, rfl, hp.of_bare hbare, hawaits⟩

/-- What no move and no cascade changes. -/
def fixed (p : RoutePlan) : RoutePlan := { p.bare with vehicles := p.vehicles.map stripped }

theorem fixed_of_bare (h : q.bare = p.bare) : q.fixed = p.fixed := by
  rw [fixed, fixed, h, vehicles_of_bare h]

theorem Rerouted.fixed_eq (h : Rerouted D p q) : q.fixed = p.fixed := by
  simp only [fixed, bare, h.visits, h.travelTimes, h.vehicles]

/-- A vehicle is pinned whatever its route is. -/
theorem isPinned_fixed (p : RoutePlan) (i : Nat) : p.fixed.isPinned i = p.isPinned i := by
  change ((p.vehicles.map stripped)[i]?.any fun v => decide (1000 ≤ v.capacity)) = _
  rw [List.getElem?_map, isPinned]
  cases p.vehicles[i]? <;> rfl

/-- What no move and no cascade changes governs the moves of routes. -/
theorem regular_routes {shadows : ShadowCascade RoutePlan} (h : ∀ e ∈ shadows, e ∈ cascade) :
    (routes (some isPinned)).Regular (k := .hardSoft) fixed shadows where
  lawful := lawful_routes
  apart := ⟨fun e he => apart_routes.listener e (h e he), apart_routes.score⟩
  governed :=
    { set_basic := fun b => b.elim
      set_list := fun _ _ _ _ _ hs => (Rerouted.setRoute hs (Set.mem_univ _)).fixed_eq
      listener := fun e he _ _ _ _ hs => fixed_of_bare (bare_update (h e he) hs)
      score := fun _ _ => rfl
      pinned := fun {p q} hlike => by
        refine ⟨fun b => b.elim, fun _ => funext fun i => ?_⟩
        change p.isPinned i = q.isPinned i
        rw [← isPinned_fixed, hlike.facts, isPinned_fixed]
      contains := fun {p q} hlike => by
        refine ⟨fun b => b.elim, fun _ => ?_⟩
        have hvisits : p.visits.length = q.visits.length := by
          have hfixed := congrArg (fun p : RoutePlan => p.visits.length) hlike.facts
          simpa only [fixed, bare, List.length_map] using hfixed
        funext e v
        exact congrArg (fun n => decide (v < n)) hvisits }

/-- A move of routes that is planned writes the routes of its entities and can be taken back. -/
theorem rerouted_of_plan {m : Move RoutePlan} (hm : (routes pinned).Moves m) {e : Edit RoutePlan}
    (hplan : m.plan p = .ok e) (happly : e.apply p = .ok q) :
    Rerouted {w | (0, w) ∈ e.entities} p q ∧ (∀ x ∈ e.entities, x.1 = 0) ∧ e.name = "visits" ∧
      ∀ s s', e.undo s = .ok s' → Rerouted Set.univ s s' := by
  cases hm with
  | basic b m => exact b.elim
  | list l m =>
    obtain ⟨_, hcheck, hpure⟩ := bind_eq_ok_iff.1 hplan
    cases hpure
    have hentities : ∀ w, (0, w) ∈ m.entities.map (fun i => (((routes pinned).list l).entityClass, i)) ↔
        w ∈ m.entities := by
      intro w
      rw [List.mem_map]
      constructor
      · rintro ⟨i, hi, heq⟩
        cases heq
        exact hi
      · exact fun hw => ⟨w, hw, rfl⟩
    refine ⟨?_, fun x hx => ?_, rfl, fun s s' hundo => ?_⟩
    · refine (Rerouted.apply happly).mono fun w hw => ?_
      exact (hentities w).2 hw
    · obtain ⟨i, -, rfl⟩ := List.mem_map.1 hx
      rfl
    · exact (Rerouted.undo hundo).mono (Set.subset_univ _)

/-- A move of routes that is planned keeps a plan planned. -/
theorem Planned.of_plan (hp : p.Planned) {m : Move RoutePlan} (hm : (routes pinned).Moves m)
    {e : Edit RoutePlan} (hplan : m.plan p = .ok e) (happly : e.apply p = .ok q) : q.Planned := by
  cases hm with
  | basic b m => exact b.elim
  | list l m =>
    obtain ⟨_, hcheck, hpure⟩ := bind_eq_ok_iff.1 hplan
    cases hpure
    exact hp.apply hcheck happly

/-- What is known of a director while moves are tried from a plan. -/
structure Tried (p : RoutePlan) (dir : Director RoutePlan .hardSoft) : Prop where
  /-- The director is fresh. -/
  fresh : Fresh dir
  /-- What no move changes is as it was. -/
  fixed : dir.solution.fixed = p.fixed
  /-- A recording tracks the vehicles whose routes changed, and remembers edits of routes. -/
  recorded : ∃ r rs, dir.recordings = r :: rs ∧ (∀ x ∈ r.modified, x.1 = 0) ∧
    (∀ w, (0, w) ∉ r.modified → dir.solution.route w = p.route w) ∧
    ∀ undo ∈ r.undos, ∀ s s', undo s = .ok s' → Rerouted Set.univ s s'

/-- A performed edit of routes leaves a plan fresh. -/
theorem Fresh.perform (h : Fresh dir) {m : Move RoutePlan} (hm : (routes pinned).Moves m) {e : Edit RoutePlan}
    (hplan : m.plan dir.solution = .ok e) (hperform : dir.perform e = .ok dir') :
    Fresh dir' ∧ dir'.solution.fixed = dir.solution.fixed ∧
      ∀ w, (0, w) ∉ e.entities → dir'.solution.route w = dir.solution.route w := by
  obtain ⟨s, happly, hcascade, heq⟩ := Director.perform_eq hperform
  have hs := h.planned.of_plan hm hplan happly
  obtain ⟨hrerouted, hclass, hname, -⟩ := rerouted_of_plan hm hplan happly
  have hawaits := hrerouted.awaits h.planned hs h.awaits
  rw [h.shadows] at hcascade
  obtain ⟨hawaits', hbare, -⟩ := hawaits.cascadeAll hs
    (.inr (by rw [hname]; exact h.variableIndex?)) hclass hcascade
  rw [Set.sdiff_self] at hawaits'
  have hkept : dir'.descriptor = dir.descriptor ∧ dir'.shadows = dir.shadows := by
    rw [heq]
    unfold Director.remember
    split <;> exact ⟨rfl, rfl⟩
  refine ⟨⟨hkept.1.trans h.descriptor, hkept.2.trans h.shadows, hs.of_bare hbare, hawaits'⟩, ?_, fun w hw => ?_⟩
  · rw [fixed_of_bare hbare, hrerouted.fixed_eq]
  · rw [route_of_bare hbare, hrerouted.routes w hw]

/-- Storing a score leaves a plan fresh. -/
theorem Fresh.score (h : Fresh dir) (hs : dir'.solution = dir.solution ∨
      ∃ score, dir'.solution = PlanningSolution.withScore dir.solution score)
    (heq : dir' = { dir with
      solution := dir'.solution, scoring := dir'.scoring, journal := dir'.journal }) :
    Fresh dir' ∧ dir'.solution.bare = dir.solution.bare := by
  have hdescriptor : dir'.descriptor = dir.descriptor := by rw [heq]
  have hshadows : dir'.shadows = dir.shadows := by rw [heq]
  rcases hs with hs | ⟨score, hs⟩
  · rw [hs]
    exact ⟨⟨hdescriptor.trans h.descriptor, hshadows.trans h.shadows, hs ▸ h.planned, hs ▸ h.awaits⟩, rfl⟩
  · have hbare : dir'.solution.bare = dir.solution.bare := by rw [hs]; rfl
    have hawaits := h.awaits.of_bare hbare fun v => by rw [hs]; exact ⟨rfl, rfl⟩
    exact ⟨⟨hdescriptor.trans h.descriptor, hshadows.trans h.shadows, h.planned.of_bare hbare, hawaits⟩, hbare⟩

/-- A step of a caller that tries moves keeps a director fresh. -/
theorem Fresh.trial (h : Fresh dir) (hstep : Director.Trial (routes pinned).Moves dir dir') : Fresh dir' := by
  rcases hstep.cases with ⟨m, e, hm, hplan, hperform⟩ | ⟨hs, heq⟩
  · exact (h.perform hm hplan hperform).1
  · exact (h.score hs heq).1

/-- A recording that was opened has nothing to undo. -/
theorem Fresh.tried (h : Fresh dir) : Tried dir.solution dir.record :=
  ⟨⟨h.descriptor, h.shadows, h.planned, h.awaits⟩, rfl, {}, dir.recordings, rfl, nofun, fun _ _ => rfl, nofun⟩

/-- A step of a caller that tries moves is recorded. -/
theorem Tried.trial (h : Tried p dir) (hstep : Director.Trial (routes pinned).Moves dir dir') : Tried p dir' := by
  obtain ⟨r, rs, hr, hclass, hroutes, hundos⟩ := h.recorded
  rcases hstep.cases with ⟨m, e, hm, hplan, hperform⟩ | ⟨hs, heq⟩
  · obtain ⟨hfresh, hfixed, hroutes'⟩ := h.fresh.perform hm hplan hperform
    obtain ⟨s, happly, -, heq⟩ := Director.perform_eq hperform
    obtain ⟨-, hentities, -, hundo⟩ := rerouted_of_plan hm hplan happly
    have hrecordings : dir'.recordings = { r.trackAll e.entities with undos := e.undo :: r.undos } ::
        rs.map fun r => r.trackAll e.entities := by
      rw [heq, Director.trackAll, hr, ← r.undos_trackAll e.entities]
      rfl
    refine ⟨hfresh, hfixed.trans h.fixed, _, _, hrecordings, fun x hx => ?_, fun w hw => ?_, ?_⟩
    · exact (Recording.mem_modified_trackAll.1 hx).elim (hclass x) (hentities x)
    · have hw : ¬ ((0, w) ∈ r.modified ∨ (0, w) ∈ e.entities) := fun hmem =>
        hw (Recording.mem_modified_trackAll.2 hmem)
      exact (hroutes' w fun hmem => hw (.inr hmem)).trans (hroutes w fun hmem => hw (.inl hmem))
    · exact List.forall_mem_cons.2 ⟨hundo, hundos⟩
  · obtain ⟨hfresh, hbare⟩ := h.fresh.score hs heq
    refine ⟨hfresh, (fixed_of_bare hbare).trans h.fixed, r, rs, by rw [heq, hr], hclass, fun w hw => ?_, hundos⟩
    rw [route_of_bare hbare, hroutes w hw]

/-- Steps of a caller that tries moves are recorded. -/
theorem Fresh.tried_of_trials (h : Fresh dir)
    (htrials : Relation.ReflTransGen (Director.Trial (routes pinned).Moves) dir.record dir') :
    Tried dir.solution dir' := by
  induction htrials with
  | refl => exact h.tried
  | tail _ hstep ih => exact ih.trial hstep

/-- Edits of routes one after another change routes only. -/
theorem rerouted_foldlM {undos : List (RoutePlan → Checked RoutePlan)}
    (hundos : ∀ undo ∈ undos, ∀ s s', undo s = .ok s' → Rerouted Set.univ s s')
    (h : undos.foldlM (fun s f => f s) p = .ok q) : Rerouted Set.univ p q := by
  induction undos generalizing p with
  | nil =>
    cases h
    exact ⟨rfl, rfl, rfl, rfl, fun _ _ => rfl⟩
  | cons undo undos ih =>
    rw [List.foldlM_cons] at h
    obtain ⟨s, hs, h⟩ := bind_eq_ok_iff.1 h
    obtain ⟨hundo, hundos⟩ := List.forall_mem_cons.1 hundos
    exact (hundo _ _ hs).trans (ih hundos h)

/-- The edits that undo what was tried from a plan give back its routes, and those that they change are tracked. -/
theorem Tried.unmade (h : Tried p dir) {r : Recording RoutePlan} {rs : List (Recording RoutePlan)}
    (hr : dir.recordings = r :: rs) {s : RoutePlan} (hs : r.undos.foldlM (fun s f => f s) dir.solution = .ok s)
    (hcontent : (routes pinned).content s = (routes pinned).content p) :
    s.bare = p.bare ∧ Rerouted {w | (0, w) ∈ r.modified} dir.solution s ∧ ∀ x ∈ r.modified, x.1 = 0 := by
  obtain ⟨r', rs', hr', hclass, hroutes, hundos⟩ := h.recorded
  cases hr.symm.trans hr'
  have hrestored : ∀ w, s.route w = p.route w := fun w => congrArg (fun c => c.lists () w) hcontent
  have hany := rerouted_foldlM hundos hs
  have hfixed : s.fixed = p.fixed := hany.fixed_eq.trans h.fixed
  refine ⟨?_, { hany with routes := fun w hw => (hrestored w).trans (hroutes w hw).symm }, hclass⟩
  have hvehicles : s.vehicles = p.vehicles := vehicles_ext (congrArg RoutePlan.vehicles hfixed) hrestored
  have hvisits := congrArg RoutePlan.visits hfixed
  have htimes := congrArg RoutePlan.travelTimes hfixed
  simp only [RoutePlan.fixed, bare] at hvisits htimes
  simp only [bare, hvehicles, hvisits, htimes]

/-- Undoing what was tried from a plan gives a fresh plan with the same routes. -/
theorem Tried.undo (hp : p.Planned) (h : Tried p dir)
    (hrestored : ∃ s, dir.recording.undos.foldlM (fun s f => f s) dir.solution = .ok s ∧
      (routes pinned).content s = (routes pinned).content p)
    (hundo : dir.undoRecording = .ok dir') : Fresh dir' ∧ dir'.solution.bare = p.bare := by
  obtain ⟨r, rs, hr, -⟩ := h.recorded
  obtain ⟨s, hs, hcascade, heq⟩ := Director.undoRecording_eq hr hundo
  obtain ⟨s', hs', hcontent⟩ := hrestored
  rw [Director.recording, hr] at hs'
  cases hs.symm.trans hs'
  obtain ⟨hbare, hrerouted, hclass⟩ := h.unmade hr hs hcontent
  have hplanned := hp.of_bare hbare
  have hawaits := hrerouted.awaits h.fresh.planned hplanned h.fresh.awaits
  rw [h.fresh.shadows] at hcascade
  obtain ⟨hawaits', hbare', -⟩ := hawaits.cascadeAll hplanned (.inl rfl) hclass hcascade
  rw [Set.sdiff_self] at hawaits'
  have hdescriptor : dir'.descriptor = dir.descriptor := by rw [heq]
  have hshadows : dir'.shadows = dir.shadows := by rw [heq]
  exact ⟨⟨hdescriptor.trans h.fresh.descriptor, hshadows.trans h.fresh.shadows, hplanned.of_bare hbare', hawaits'⟩,
    hbare'.trans hbare⟩

/-- What was tried from a fresh plan is undone to the plan, the stored score aside. -/
theorem Fresh.undo {dir'' : Director RoutePlan .hardSoft} (h : Fresh dir)
    (htrials : Relation.ReflTransGen (Director.Trial (routes pinned).Moves) dir.record dir')
    (hundo : dir'.undoRecording = .ok dir'') :
    Fresh dir'' ∧ dir''.solution = { dir.solution with score := dir''.solution.score } := by
  have htried := h.tried_of_trials htrials
  have hrestored := (Director.content_undoRecording lawful_routes
    (h.shadows.symm ▸ (apart_routes : (routes pinned).Apart cascade)) htrials).1
  obtain ⟨hfresh, hbare⟩ := htried.undo h.planned hrestored hundo
  have hsame : ({ dir.solution with score := dir''.solution.score } : RoutePlan).bare = dir.solution.bare := rfl
  exact ⟨hfresh, (h.awaits.of_bare hsame fun _ => ⟨rfl, rfl⟩).eq_of_bare (h.planned.of_bare hsame) hfresh.awaits
    (hbare.trans hsame.symm) rfl⟩

/-- A plan on a line with the depot: two vehicles with a visit each, and a visit on no route. -/
def threeVisits : RoutePlan where
  vehicles := [⟨0, 5, [0]⟩, ⟨1, 5, [1]⟩]
  visits := [
    { id := 0, demand := 1, service := 1, due := 10 },
    { id := 1, demand := 1, service := 1, due := 10 },
    { id := 2, demand := 1, service := 1, due := 10 }]
  travelTimes := [[0, 1, 2, 3], [1, 0, 1, 2], [2, 1, 0, 1], [3, 2, 1, 0]]

theorem planned_threeVisits : threeVisits.Planned where
  numbered i x h := by
    obtain ⟨hlt, rfl⟩ := List.getElem?_eq_some_iff.1 h
    have hi : i = 0 ∨ i = 1 ∨ i = 2 := by
      change i < 3 at hlt
      omega
    rcases hi with rfl | rfl | rfl
    · rfl
    · rfl
    · rfl
  once := by decide
  known := by decide

end Planning.RoutePlan
