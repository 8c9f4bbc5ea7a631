import Mathlib
import Planning.ProblemChange
import Planning.Proofs.Director.Revision
import Planning.Proofs.Problems.Routing.Trial
import Planning.Proofs.Problems.Routing.Undo

/-!
# Runs and revisions of plans

List moves are made and undone, vehicles come and go, and scores are asked for. A director of plans stays fresh
on the way as long as a vehicle comes only at a position behind which no vehicle has visits: those behind it get
other numbers, of which nobody tells their visits.
-/

namespace Planning.RoutePlan

open Checked

/-- A vehicle comes at a position. -/
def addVehicle (dir : Director RoutePlan .hardSoft) (i : Nat) (x : Vehicle) :
    Checked (Director RoutePlan .hardSoft) :=
  dir.addEntity (0, i) (vehicleCollection.edit fun l => insertAt l i x)

/-- A vehicle goes from a position. -/
def removeVehicle (dir : Director RoutePlan .hardSoft) (i : Nat) : Checked (Director RoutePlan .hardSoft) :=
  dir.removeEntity (0, i) (vehicleCollection.edit fun l => removeAt l i)

/-- No vehicle behind a position has visits. -/
def EmptyBehind (p : RoutePlan) (i : Nat) : Prop := ∀ w, i < w → p.route w = []

/-- A step of a caller: a list move, list moves undone, a vehicle that comes or goes, or the score. -/
inductive Step (pinned : Option (RoutePlan → Nat → Bool)) :
    Director RoutePlan .hardSoft → Director RoutePlan .hardSoft → Prop where
  /-- A list move is made, unless it cannot be, or the score is asked for. -/
  | trial {dir dir'} : Director.Trial (routes pinned).Moves dir dir' → Step pinned dir dir'
  /-- List moves are made and undone. -/
  | undone {dir dir' dir''} : Relation.ReflTransGen (Director.Trial (routes pinned).Moves) dir.record dir' →
    dir'.undoRecording = .ok dir'' → Step pinned dir dir''.stopRecording
  /-- A vehicle comes, with visits that are on no route yet, where no vehicle behind it has visits. -/
  | added {dir dir' i x} : addVehicle dir i x = .ok dir' → dir.solution.Fits x →
    dir.solution.EmptyBehind i → Step pinned dir dir'
  /-- A vehicle goes, wherever it is. -/
  | removed {dir dir' i} : removeVehicle dir i = .ok dir' → Step pinned dir dir'

variable {p : RoutePlan} {pinned : Option (RoutePlan → Nat → Bool)} {dir dir' : Director RoutePlan .hardSoft}
variable {i : Nat} {x : Vehicle}

/-- What a vehicle that comes does: it is put in, and a cascade looks at it and at nothing else. -/
theorem Fresh.inserted (h : Fresh dir) (hok : addVehicle dir i x = .ok dir') (hx : dir.solution.Fits x) :
    ∃ s changed, Inserted dir.solution s i x ∧ s.Planned ∧ s.visits = dir.solution.visits ∧
      cascade.cascade s (0, i) none = .ok (dir'.solution, changed) ∧ dir'.solution.bare = s.bare ∧
      (∀ v, ¬ (s.vehicleOf v = some i ∨ v ∈ s.route i) → dir'.solution.vehicleOf v = s.vehicleOf v) ∧
      dir'.descriptor = RoutePlan.descriptor ∧ dir'.shadows = cascade := by
  obtain ⟨s, changed, hs, hcascade, heq⟩ := Director.addEntity_eq hok
  obtain ⟨vs, hvs, rfl⟩ := by simpa only [Collection.edit, bind_eq_ok_iff, pure_eq_ok_iff] using hs
  rw [h.shadows] at hcascade
  have hinserted : Inserted dir.solution { dir.solution with vehicles := vs } i x := ⟨vs, hvs, rfl⟩
  have hplanned := hinserted.planned h.planned hx
  have hall : Awaits { dir.solution with vehicles := vs } Set.univ := .of_edit h.planned hplanned h.awaits rfl rfl
    (fun u hu => absurd (Set.mem_univ u) hu) fun u hu => absurd (Set.mem_univ u) hu
  obtain ⟨-, hbare, -, hother⟩ := hall.cascade hplanned (.inl rfl) hcascade
  refine ⟨_, changed, hinserted, hplanned, rfl, hcascade, hbare, hother, ?_, ?_⟩
  · rw [heq]
    exact h.descriptor
  · rw [heq]
    exact h.shadows

/-- A vehicle that comes leaves a director fresh when no vehicle behind it has visits. -/
theorem Fresh.added (h : Fresh dir) (hok : addVehicle dir i x = .ok dir') (hx : dir.solution.Fits x)
    (hempty : dir.solution.EmptyBehind i) : Fresh dir' := by
  obtain ⟨s, changed, hinserted, hs, -, hcascade, hbare, -, hdescriptor, hshadows⟩ := h.inserted hok hx
  obtain ⟨hawaits, -⟩ := (hinserted.awaits h.planned hs h.awaits hempty).cascade hs (.inl rfl) hcascade
  rw [Set.sdiff_self] at hawaits
  exact ⟨hdescriptor, hshadows, hs.of_bare hbare, hawaits⟩

/-- A vehicle that comes where one behind it has visits leaves their shadow variables stale. -/
theorem Fresh.emptyBehind_of_added (h : Fresh dir) (hok : addVehicle dir i x = .ok dir')
    (hx : dir.solution.Fits x) (hawaits : dir'.solution.Awaits ∅) : dir.solution.EmptyBehind i := by
  obtain ⟨s, changed, hinserted, hs, hvisits, -, hbare, hother, -, -⟩ := h.inserted hok hx
  by_contra hbehind
  simp only [EmptyBehind, not_forall] at hbehind
  obtain ⟨w, hw, hne⟩ := hbehind
  obtain ⟨v, hv⟩ := List.exists_mem_of_ne_nil _ hne
  have hlt := h.planned.lt_of_mem_route hv
  have htells : s.vehicleOf v = some w := by
    rw [vehicleOf, hvisits]
    exact (h.awaits.vehicleOf_eq hlt).trans (h.planned.owner?_eq_some_iff.2 hv)
  have hroute : v ∈ s.route (w + 1) := by rwa [hinserted.route_succ (Nat.le_of_lt hw)]
  -- The cascade does not reach the visit: it neither says the new vehicle nor is on its route.
  have hfar : ¬ (s.vehicleOf v = some i ∨ v ∈ s.route i) := by
    rintro (htells' | hself)
    · have hwi := Option.some.inj (htells.symm.trans htells')
      omega
    · have hwi := hs.eq_of_mem_route hself hroute
      omega
  have hlt' : v < dir'.solution.visits.length := by
    rw [length_of_bare hbare, hvisits]
    exact hlt
  have howner := hawaits.vehicleOf_eq hlt'
  rw [hother v hfar, htells, owner?_of_bare hbare, hs.owner?_eq_some_iff.2 hroute] at howner
  have hww := Option.some.inj howner
  omega

/-- A vehicle that goes leaves a director fresh. -/
theorem Fresh.removed (h : Fresh dir) (hok : removeVehicle dir i = .ok dir') : Fresh dir' := by
  obtain ⟨s, hs, hcascade, heq⟩ := Director.removeEntity_eq hok
  obtain ⟨vs, hvs, rfl⟩ := by simpa only [Collection.edit, bind_eq_ok_iff, pure_eq_ok_iff] using hs
  have hremoved : Removed dir.solution { dir.solution with vehicles := vs } i := ⟨vs, hvs, rfl⟩
  have hs := hremoved.planned h.planned
  rw [h.shadows] at hcascade
  obtain ⟨hawaits, hbare, -⟩ := (hremoved.awaits h.planned h.awaits).cascadeAll hs (.inl rfl) (fun y hy => by
    obtain ⟨j, -, rfl⟩ := List.mem_map.1 hy
    rfl) hcascade
  have hall : {w | (0, w) ∈ (List.range' i (max vs.length (i + 1) - i)).map fun j => ((0, j) : EntityRef)} =
      {w | i ≤ w ∧ w < max vs.length (i + 1)} := by
    ext w
    simp only [Set.mem_ofPred_eq, List.mem_map, List.mem_range'_1, Prod.mk.injEq, true_and, exists_eq_right]
    omega
  refine ⟨by rw [heq]; exact h.descriptor, by rw [heq]; exact h.shadows, hs.of_bare hbare, ?_⟩
  convert hawaits
  exact (Set.sdiff_eq_empty.2 hall.ge).symm

/-- A step of a caller keeps a director fresh. -/
theorem Fresh.step (h : Fresh dir) (hstep : Step pinned dir dir') : Fresh dir' := by
  cases hstep with
  | trial htrial => exact h.trial htrial
  | undone htrials hundo =>
    obtain ⟨h', -⟩ := h.undo htrials hundo
    exact ⟨h'.descriptor, h'.shadows, h'.planned, h'.awaits⟩
  | added hok hx hempty => exact h.added hok hx hempty
  | removed hok => exact h.removed hok

/-- After any run the shadow variables of a plan are what making them anew gives, and they stay so when another
vehicle comes exactly if no vehicle behind it has visits. -/
theorem updateAll_of_run {scoring : Scoring RoutePlan .hardSoft} {dir₀ : Director RoutePlan .hardSoft}
    (hp : p.Planned) (h₀ : problem.director scoring p = .ok (.ok dir₀))
    (hrun : Relation.ReflTransGen (Step pinned) dir₀ dir) :
    dir.shadows.updateAll dir.solution = .ok dir.solution ∧
      ∀ i x dir', addVehicle dir i x = .ok dir' → dir.solution.Fits x →
        (dir'.shadows.updateAll dir'.solution = .ok dir'.solution ↔ dir.solution.EmptyBehind i) := by
  have h : Fresh dir := by
    induction hrun with
    | refl => exact fresh_director hp h₀
    | tail _ hstep ih => exact ih.step hstep
  have hupdate : ∀ {d : Director RoutePlan .hardSoft}, Fresh d → d.shadows.updateAll d.solution = .ok d.solution :=
    fun hd => by
      rw [hd.shadows]
      exact hd.planned.updateAll_eq_iff.2 hd.awaits
  refine ⟨hupdate h, fun i x dir' hok hx => ⟨fun hsame => ?_, fun hempty => hupdate (h.added hok hx hempty)⟩⟩
  obtain ⟨s, -, -, hs, -, -, hbare, -, -, hshadows⟩ := h.inserted hok hx
  rw [hshadows] at hsame
  exact h.emptyBehind_of_added hok hx ((hs.of_bare hbare).updateAll_eq_iff.1 hsame)

/-- The director of a fresh plan that scores it in full. -/
def fullDirector : RoutePlan → Director RoutePlan .hardSoft := directorOf (.full calculate none)

/-- A visit goes to the other vehicle, and another one goes there and back. -/
def roundTrip (dir : Director RoutePlan .hardSoft) : Checked (Director RoutePlan .hardSoft) := do
  let (dir, _) ← dir.doMove ((ListMove.change 0 0 1 0).toMove ((routes none).list ()))
  let (dir, _) ← dir.record.doMove ((ListMove.change 1 1 0 0).toMove ((routes none).list ()))
  return (← dir.undoRecording).stopRecording

theorem run_of_roundTrip {dir dir' : Director RoutePlan .hardSoft} (h : roundTrip dir = .ok dir') :
    Relation.ReflTransGen (Step none) dir dir' := by
  simp only [roundTrip, bind_eq_ok_iff, pure_eq_ok_iff] at h
  obtain ⟨⟨dir₁, _⟩, h₁, ⟨dir₂, _⟩, h₂, dir₃, h₃, rfl⟩ := h
  exact .tail (.single (.trial (.move (.list () _) h₁))) (.undone (.single (.move (.list () _) h₂)) h₃)

/-- A round trip is made, a vehicle comes behind the others with a visit, and the first vehicle goes. -/
def roundTripAndExchange (dir : Director RoutePlan .hardSoft) : Checked (Director RoutePlan .hardSoft) := do
  let dir ← roundTrip dir
  let dir ← addVehicle dir 2 ⟨2, 5, [2]⟩
  removeVehicle dir 0

theorem updateAll_of_run_threeVisits :
    ∃ s dir, threeVisits.Planned ∧ problem.full threeVisits = .ok (.ok (fullDirector s)) ∧
      Relation.ReflTransGen (Step none) (fullDirector s) dir ∧
      dir.shadows.updateAll dir.solution = .ok dir.solution ∧
      ∀ i x dir', addVehicle dir i x = .ok dir' → dir.solution.Fits x →
        (dir'.shadows.updateAll dir'.solution = .ok dir'.solution ↔ dir.solution.EmptyBehind i) := by
  obtain ⟨s, hs⟩ := exists_eq_ok_of_isOk (x := cascade.updateAll threeVisits) (by cbv)
  have hmoved : (cascade.updateAll threeVisits).bind (fun s => (roundTrip (fullDirector s)).map fun dir =>
      (dir.solution.visits.length, dir.solution.vehicles)) = .ok (3, [⟨0, 5, []⟩, ⟨1, 5, [0, 1]⟩]) := by cbv
  have hrun : ((cascade.updateAll threeVisits).bind fun s => roundTripAndExchange (fullDirector s)).isOk = true := by
    cbv
  rw [hs] at hmoved hrun
  obtain ⟨dir, hdir⟩ := exists_eq_ok_of_isOk hrun
  obtain ⟨dir₁, h₁, hdir⟩ := bind_eq_ok_iff.1 (show roundTripAndExchange (fullDirector s) = .ok dir from hdir)
  obtain ⟨dir₂, h₂, h₃⟩ := bind_eq_ok_iff.1 hdir
  obtain ⟨dir₁', h₁', hmoved⟩ := map_eq_ok_iff.1 hmoved
  cases h₁.symm.trans h₁'
  obtain ⟨hvisits, hvehicles⟩ := Prod.mk.inj hmoved
  have hfits : dir₁.solution.Fits ⟨2, 5, [2]⟩ := by
    refine ⟨List.nodup_singleton 2, ?_, ?_⟩
    · rw [hvisits]
      decide
    · intro v hv w hw
      have hmem := mem_routes.2 ⟨w, hw⟩
      rw [hvehicles, List.mem_singleton.1 hv] at hmem
      exact absurd hmem (by decide)
  have hempty : dir₁.solution.EmptyBehind 2 := by
    intro w hw
    have hnone : dir₁.solution.vehicles[w]? = none := by
      rw [hvehicles]
      exact List.getElem?_eq_none (Nat.le_of_lt hw)
    rw [route, hnone]
    rfl
  have hfull : problem.full threeVisits = .ok (.ok (fullDirector s)) :=
    director_eq_ok_iff.2 ⟨s, hs, rfl⟩
  have hall := (run_of_roundTrip h₁).tail (.added h₂ hfits hempty) |>.tail (.removed h₃)
  exact ⟨s, dir, planned_threeVisits, hfull, hall, updateAll_of_run planned_threeVisits hfull hall⟩

/-- A vehicle without visits that comes in front of two with visits leaves their visits with the old numbers. -/
theorem updateAll_ne_of_added :
    ∃ s dir, problem.full threeVisits = .ok (.ok (fullDirector s)) ∧
      addVehicle (fullDirector s) 0 ⟨2, 5, []⟩ = .ok dir ∧
      dir.shadows.updateAll dir.solution ≠ .ok dir.solution := by
  obtain ⟨s, hs⟩ := exists_eq_ok_of_isOk (x := cascade.updateAll threeVisits) (by cbv)
  have hadded : (cascade.updateAll threeVisits).bind (fun s => (addVehicle (fullDirector s) 0 ⟨2, 5, []⟩).map
      fun dir => decide (dir.shadows.updateAll dir.solution = .ok dir.solution)) = .ok false := by cbv
  rw [hs] at hadded
  obtain ⟨dir, hdir, hstale⟩ := map_eq_ok_iff.1 hadded
  exact ⟨s, dir, director_eq_ok_iff.2 ⟨s, hs, rfl⟩, hdir, of_decide_eq_false hstale⟩

end Planning.RoutePlan

/-!
## Revisions of plans

Vehicles come and go, and visits come and go at the end, where no number changes. A director of plans stays fresh on
the way, and one that scores incrementally follows its plan.
-/

namespace Planning.RoutePlan

open Checked

variable {p q : RoutePlan} {pinned : Option (RoutePlan → Nat → Bool)} {i : Nat} {x : Visit}
variable {dir dir' : Director RoutePlan .hardSoft}

/-- Vehicles come where no vehicle behind them has visits, and go from anywhere. Visits come behind the others, and
the last visit goes when it is on no route. -/
inductive Amends : RoutePlan → Amendment RoutePlan → Prop where
  /-- A vehicle comes. -/
  | vehicleAdded (p : RoutePlan) (i : Nat) (x : Vehicle) (hx : p.Fits x) (hempty : p.EmptyBehind i) :
    Amends p (.comes (0, i) (vehicleCollection.edit fun l => insertAt l i x))
  /-- A vehicle goes. -/
  | vehicleRemoved (p : RoutePlan) (i : Nat) : Amends p (.goes (0, i) (vehicleCollection.edit fun l => removeAt l i))
  /-- A visit comes that says no vehicle. -/
  | visitAdded (p : RoutePlan) (x : Visit) (hid : x.id = p.visits.length) (hvehicle : x.vehicle = none) :
    Amends p (.comes (1, p.visits.length) (visitCollection.edit fun l => insertAt l p.visits.length x))
  /-- A visit goes. -/
  | visitRemoved (p : RoutePlan) (i : Nat) (hi : i + 1 = p.visits.length) (hfree : ∀ w, i ∉ p.route w) :
    Amends p (.goes (1, i) (visitCollection.edit fun l => removeAt l i))

/-- The constraints read the vehicles one by one. -/
theorem lists_vehicles : vehicleCollection.Lists constraints (.entity 0) where
  members _ _ := rfl
  own ms hr := by
    obtain ⟨-, rfl⟩ := (reads_constraints hr).resolve_right fun h => nomatch h.1
    exact ⟨Vehicle.toValue, fun _ => rfl⟩
  other cl' ms hr hcl := by
    obtain ⟨-, rfl⟩ := (reads_constraints hr).resolve_left fun h => hcl h.1
    exact fun _ _ => rfl

/-- The constraints read the visits one by one. -/
theorem lists_visits : visitCollection.Lists constraints (.entity 1) where
  members _ _ := rfl
  own ms hr := by
    obtain ⟨-, rfl⟩ := (reads_constraints hr).resolve_left fun h => nomatch h.1
    exact ⟨Visit.toValue, fun _ => rfl⟩
  other cl' ms hr hcl := by
    obtain ⟨-, rfl⟩ := (reads_constraints hr).resolve_right fun h => hcl h.1
    exact fun _ _ => rfl

/-- Amendments of plans announce what they change. -/
theorem sound_of_amends {a : Amendment RoutePlan} (h : Amends p a) : a.Sound constraints p := by
  cases h with
  | vehicleAdded i x hx hempty => exact fun s' hs' => lists_vehicles.keeps_insertAt hs'
  | vehicleRemoved i => exact fun s' hs' => lists_vehicles.keeps_removeAt hs'
  | visitAdded x hid hvehicle => exact fun s' hs' => lists_visits.keeps_insertAt hs'
  | visitRemoved i hi hfree => exact fun s' hs' => lists_visits.keeps_removeAt hs'

/-- Undoing moves of routes changes the vehicles that the moves announce. -/
theorem retraced_routes : Retraced constraints (routes pinned).Moves := by
  rintro m hm s e hplan t t' hundo
  cases hm with
  | basic b m => exact b.elim
  | list l m =>
    obtain ⟨_, -, hpure⟩ := bind_eq_ok_iff.1 hplan
    cases hpure
    refine ((Rerouted.undo hundo).mono fun w hw => ?_).reported_constraints
    exact List.mem_map.2 ⟨w, hw, rfl⟩

/-- A plan awaits nothing where it has the routes of one that awaits nothing and new visits, on no route, say
nothing. -/
theorem Awaits.of_visits (hp : p.Planned) (hq : q.Planned) (h : p.Awaits ∅) (hvehicles : q.vehicles = p.vehicles)
    (htimes : q.travelTimes = p.travelTimes) (hvisits : ∀ v < q.visits.length,
      q.visits[v]? = p.visits[v]? ∨ (∀ w, v ∉ p.route w) ∧ q.vehicleOf v = none ∧ q.arrivalOf v = none) :
    q.Awaits ∅ := by
  have hroute : ∀ w, q.route w = p.route w := fun w => by rw [route, route, hvehicles]
  have howner : ∀ v, q.owner? v = p.owner? v := fun v => by rw [owner?, owner?, hvehicles]
  have hkept : ∀ w, ∀ v ∈ p.route w, q.visits[v]? = p.visits[v]? := fun w v hv =>
    (hvisits v (hq.lt_of_mem_route (hroute w ▸ hv))).resolve_right fun hnew => hnew.1 w hv
  have harrivals : ∀ w, q.arrivals (q.route w) = p.arrivals (p.route w) := fun w => by
    rw [hroute]
    exact arrivals_congr htimes fun v hv => by rw [hkept w v hv]
  -- What a visit that stayed says is still timely.
  have htimely : ∀ v < q.visits.length, q.visits[v]? = p.visits[v]? → q.Timely v := by
    intro v hlt hsame
    have hlt' : v < p.visits.length := by
      rw [List.getElem?_eq_getElem hlt] at hsame
      exact (List.getElem?_eq_some_iff.1 hsame.symm).1
    have ht := h.timely hp hlt'
    rw [Timely, arrivalOf, hsame]
    rw [Timely, arrivalOf] at ht
    cases ha : p.visits[v]?.bind Visit.arrival with
    | none =>
      rw [ha] at ht
      exact fun w => hroute w ▸ ht w
    | some a =>
      rw [ha] at ht
      obtain ⟨w, times, hok, hmem⟩ := ht
      exact ⟨w, times, (harrivals w).trans hok, by rwa [hroute]⟩
  refine ⟨fun v hlt => .inl ?_, fun w _ v hv => ?_, fun v hlt _ _ => ?_⟩
  · rw [howner]
    rcases hvisits v hlt with hsame | ⟨hfree, hnone, -⟩
    · rw [List.getElem?_eq_getElem hlt] at hsame
      rw [vehicleOf, List.getElem?_eq_getElem hlt, hsame]
      exact h.vehicleOf_eq (List.getElem?_eq_some_iff.1 hsame.symm).1
    · rw [hnone, hp.owner?_eq_none_iff.2 hfree]
  · exact htimely v (hq.lt_of_mem_route hv) (hkept w v (hroute w ▸ hv))
  · rcases hvisits v hlt with hsame | ⟨hfree, -, hnone⟩
    · exact htimely v hlt hsame
    · rw [Timely, hnone]
      exact fun w => hroute w ▸ hfree w

/-- After a visit came or went the listener of arrivals looks at it, and no other listener at anything. -/
theorem exists_update_of_cascade_visit {v : Nat} {changed : List EntityRef}
    (h : cascade.cascade p (1, v) none = .ok (q, changed)) :
    ∃ changed', arrivalListener.update p (1, v) = .ok (q, changed') := by
  have hvehicle : ShadowCascade.touched vehicleEntry [⟨1, none, [(1, v)]⟩] = [] :=
    List.eq_nil_iff_forall_not_mem.2 fun x hx => by
      obtain ⟨y, hy, hconcerns, -⟩ := ShadowCascade.mem_touched.1 hx
      rw [List.mem_singleton.1 hy] at hconcerns
      have hconcerns : false = true := hconcerns
      cases hconcerns
  have harrival : ShadowCascade.touched arrivalEntry [⟨1, none, [(1, v)]⟩] = [(1, v)] :=
    EntityRef.sorted_singleton (1, v)
  obtain ⟨⟨s, ds⟩, hrun, h⟩ := bind_eq_ok_iff.1 h
  cases h
  obtain ⟨⟨p₁, changed₁⟩, hnone, hrun⟩ := bind_eq_ok_iff.1 hrun
  rw [hvehicle] at hnone
  cases hnone
  obtain ⟨changed', heach⟩ := ShadowCascade.exists_updateEach_of_run_singleton hrun
  rw [harrival] at heach
  obtain ⟨⟨p₁, changed₁⟩, hupdate, hlast⟩ := bind_eq_ok_iff.1 heach
  obtain rfl : p₁ = q := (Prod.mk.inj (Except.ok.inj hlast)).1
  exact ⟨changed₁, hupdate⟩

/-- A visit that says no vehicle says no time of arrival after the listener of arrivals looked at it. -/
theorem update_visit_of_vehicle_none {v : Nat} {changed : List EntityRef} (hx : p.visits[v]? = some x)
    (hvehicle : x.vehicle = none) (h : arrivalListener.update p (1, v) = .ok (q, changed)) :
    q = { p with visits := p.visits.set v { x with arrival := none } } := by
  simp only [arrivalListener, hx, hvehicle, setArrival] at h
  split at h
  · rename_i hnone
    cases h
    have hsame : ({ x with arrival := none } : Visit) = x := by rw [← hnone]
    obtain ⟨hlt, rfl⟩ := List.getElem?_eq_some_iff.1 hx
    rw [hsame, List.set_getElem_self]
  · cases h
    rw [hvehicle]

/-- A plan is planned and awaits nothing with one more visit that says nothing. -/
theorem Awaits.append (hp : p.Planned) (h : p.Awaits ∅) (hid : x.id = p.visits.length) (hvehicle : x.vehicle = none)
    (harrival : x.arrival = none) :
    Planned { p with visits := p.visits ++ [x] } ∧ Awaits { p with visits := p.visits ++ [x] } ∅ := by
  have hq : Planned { p with visits := p.visits ++ [x] } := by
    refine ⟨fun v y hy => ?_, hp.once, fun v hv => ?_⟩
    · rcases Nat.lt_trichotomy v p.visits.length with hlt | rfl | hgt
      · exact hp.numbered v y (by rwa [List.getElem?_append_left hlt] at hy)
      · rw [List.getElem?_concat_length] at hy
        cases hy
        exact hid
      · rw [List.getElem?_eq_none (by simpa using hgt)] at hy
        cases hy
    · simpa using Nat.lt_succ_of_lt (hp.known v hv)
  refine ⟨hq, h.of_visits hp hq rfl rfl fun v hv => ?_⟩
  rcases Nat.lt_or_ge v p.visits.length with hlt | hge
  · exact .inl (List.getElem?_append_left hlt)
  · obtain rfl : v = p.visits.length := Nat.le_antisymm (by simpa [Nat.lt_succ_iff] using hv) hge
    refine .inr ⟨fun w hw => absurd (hp.lt_of_mem_route hw) (Nat.lt_irrefl _), ?_, ?_⟩
    · rw [vehicleOf, List.getElem?_concat_length]
      exact hvehicle
    · rw [arrivalOf, List.getElem?_concat_length]
      exact harrival

/-- A plan is planned and awaits nothing without its last visit if that is on no route. -/
theorem Awaits.eraseIdx (hp : p.Planned) (h : p.Awaits ∅) (hi : i + 1 = p.visits.length) (hfree : ∀ w, i ∉ p.route w) :
    Planned { p with visits := p.visits.eraseIdx i } ∧ Awaits { p with visits := p.visits.eraseIdx i } ∅ := by
  have hlen : (p.visits.eraseIdx i).length = i := by
    rw [List.length_eraseIdx_of_lt (by omega)]
    omega
  have hold : ∀ v < i, (p.visits.eraseIdx i)[v]? = p.visits[v]? := fun v hv => List.getElem?_eraseIdx_of_lt hv
  have hq : Planned { p with visits := p.visits.eraseIdx i } := by
    refine ⟨fun v y hy => ?_, hp.once, fun v hv => ?_⟩
    · have hv : v < i := hlen ▸ (List.getElem?_eq_some_iff.1 hy).1
      exact hp.numbered v y ((hold v hv).symm.trans hy)
    · have hlt := hp.known v hv
      have hne : v ≠ i := by
        rintro rfl
        obtain ⟨w, hw⟩ := mem_routes.1 hv
        exact hfree w hw
      change v < (p.visits.eraseIdx i).length
      omega
  exact ⟨hq, h.of_visits hp hq rfl rfl fun v hv => .inl (hold v (hlen ▸ hv))⟩

/-- A visit that comes behind the others and says no vehicle leaves a director fresh. -/
theorem Fresh.visitAdded (h : Fresh dir) (hid : x.id = dir.solution.visits.length) (hvehicle : x.vehicle = none)
    (hok : dir.addEntity (1, dir.solution.visits.length)
      (visitCollection.edit fun l => insertAt l dir.solution.visits.length x) = .ok dir') : Fresh dir' := by
  obtain ⟨s, changed, hs, hcascade, heq⟩ := Director.addEntity_eq hok
  have hs := (visitCollection.edit_append dir.solution x).trans hs
  cases hs
  rw [h.shadows] at hcascade
  obtain ⟨changed', hupdate⟩ := exists_update_of_cascade_visit hcascade
  have hq := update_visit_of_vehicle_none List.getElem?_concat_length hvehicle hupdate
  have hsolution : dir'.solution = { dir.solution with
      visits := dir.solution.visits ++ [{ x with arrival := none }] } := by
    rw [hq]
    simp [visitCollection]
  obtain ⟨hplanned, hawaits⟩ := h.awaits.append (x := { x with arrival := none }) h.planned hid hvehicle rfl
  exact ⟨by rw [heq]; exact h.descriptor, by rw [heq]; exact h.shadows, hsolution ▸ hplanned, hsolution ▸ hawaits⟩

/-- The last visit leaves a director fresh when it goes and is on no route. -/
theorem Fresh.visitRemoved (h : Fresh dir) (hi : i + 1 = dir.solution.visits.length)
    (hfree : ∀ w, i ∉ dir.solution.route w)
    (hok : dir.removeEntity (1, i) (visitCollection.edit fun l => removeAt l i) = .ok dir') : Fresh dir' := by
  obtain ⟨s, hs, hcascade, heq⟩ := Director.removeEntity_eq hok
  obtain ⟨l, hl, rfl⟩ := Collection.edit_eq_ok_iff.1 hs
  obtain ⟨-, rfl⟩ := removeAt_eq_ok_iff.1 hl
  have hlen : (dir.solution.visits.eraseIdx i).length = i := by
    rw [List.length_eraseIdx_of_lt (by omega)]
    omega
  -- The cascade is for the place of the visit alone, where there is none any more.
  have hcount : max (PlanningSolution.entityCount (visitCollection.withMembers dir.solution
      ((visitCollection.members dir.solution).eraseIdx i)) 1) (i + 1) - i = 1 := by
    change max (dir.solution.visits.eraseIdx i).length (i + 1) - i = 1
    omega
  rw [h.shadows, hcount] at hcascade
  obtain ⟨q, changed, hvisit, hlast⟩ := ShadowCascade.cascadeAll_cons_eq_ok_iff.1 hcascade
  cases hlast
  obtain ⟨changed', hupdate⟩ := exists_update_of_cascade_visit hvisit
  have hnone : (dir.solution.visits.eraseIdx i)[i]? = none := List.getElem?_eq_none hlen.le
  have hsolution : dir'.solution = { dir.solution with visits := dir.solution.visits.eraseIdx i } := by
    simp only [arrivalListener, visitCollection, hnone] at hupdate
    exact (Prod.mk.inj (Except.ok.inj hupdate)).1.symm
  obtain ⟨hplanned, hawaits⟩ := h.awaits.eraseIdx h.planned hi hfree
  exact ⟨by rw [heq]; exact h.descriptor, by rw [heq]; exact h.shadows, hsolution ▸ hplanned, hsolution ▸ hawaits⟩

/-- An amendment leaves a director fresh. -/
theorem Fresh.amend (h : Fresh dir) {a : Amendment RoutePlan} (ha : Amends dir.solution a)
    (hok : dir.amend a = .ok dir') : Fresh dir' := by
  cases ha with
  | vehicleAdded i x hx hempty => exact h.added hok hx hempty
  | vehicleRemoved i => exact h.removed hok
  | visitAdded x hid hvehicle => exact h.visitAdded hid hvehicle hok
  | visitRemoved i hi hfree => exact h.visitRemoved hi hfree hok

/-- Revisions leave a director fresh. -/
theorem Fresh.revisions (h : Fresh dir)
    (hsteps : Relation.ReflTransGen (Director.Revision (routes pinned).Moves Amends) dir dir') : Fresh dir' := by
  induction hsteps with
  | refl => exact h
  | tail _ hstep ih =>
    cases hstep with
    | trial htrial => exact ih.trial htrial
    | undone htrials hundo =>
      obtain ⟨h', -⟩ := ih.undo htrials hundo
      exact ⟨h'.descriptor, h'.shadows, h'.planned, h'.awaits⟩
    | amended ha hok => exact ih.amend ha hok
    | changed hmakes ha hok =>
      rcases Director.amend_of_apply hmakes hok with ⟨-, rfl⟩ | ⟨hdone, hamend⟩
      · exact ih
      · exact ih.amend (ha hdone) hamend

end Planning.RoutePlan
