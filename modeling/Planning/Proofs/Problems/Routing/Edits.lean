import Planning.Proofs.Move.Undo
import Planning.Proofs.Problems.Routing.Freshness

/-!
# Edits of the routes of a plan

The routes of a plan are its one genuine variable. A list move keeps the routes free of repetitions and changes
the routes of its entities only; a vehicle that comes or goes moves those behind it. What an edit leaves to be
announced follows from which routes changed.
-/

namespace Planning.RoutePlan

open Checked

variable {p q r : RoutePlan} {v w d : Nat} {D E : Set Nat} {pinned : Option (RoutePlan → Nat → Bool)}

/-- The routes as a genuine variable; whatever vehicles are pinned, there is no other one. -/
def routes (pinned : Option (RoutePlan → Nat → Bool)) :
    Genuine RoutePlan (fun _ : Empty => Nat) (fun _ : Unit => Nat) where
  basic b := b.elim
  list _ := { routeVariable with pinned := pinned }

/-- A route that was written is read, and the others are as they were. -/
theorem route_setRoute {l : List Nat} (h : p.setRoute d l = .ok q) (w : Nat) :
    q.route w = Function.update p.route d l w := by
  obtain ⟨hd, rfl⟩ := ite_eq_ok_iff.1 h
  rw [Function.update_apply]
  simp only [route, List.getElem?_modify]
  split
  · rename_i hdw
    subst hdw
    rw [if_pos rfl, List.getElem?_eq_getElem hd]
    rfl
  · rename_i hdw
    rw [if_neg (Ne.symm hdw)]
    cases p.vehicles[w]? <;> rfl

/-- Writing a route changes nothing else. -/
theorem lawful_routes : (routes pinned).Lawful where
  set_basic b := b.elim
  set_list l s e new he := by
    have hset : s.setRoute e new = .ok _ := if_pos he
    refine ⟨_, hset, ?_⟩
    have hroute := route_setRoute hset
    refine Content.ext (funext fun b => b.elim) ?_ (funext fun b => b.elim) ?_
    · funext l' w
      exact (hroute w).trans (by simp [Content.setList, Genuine.content, routes, routeVariable])
    · funext l'
      exact List.length_modify ..

/-- A listener writes one variable of visits. -/
theorem exists_written {e : ShadowEntry RoutePlan} (he : e ∈ cascade) {x : EntityRef} {changed : List EntityRef}
    (h : e.listener.update p x = .ok (q, changed)) :
    (∃ l, Written Visit.vehicle withoutVehicle p q l changed) ∨
      ∃ l, Written Visit.arrival withoutArrival p q l changed := by
  obtain ⟨c, i⟩ := x
  simp only [cascade, List.mem_cons, List.not_mem_nil, or_false] at he
  rcases he with rfl | rfl
  · left
    simp only [vehicleEntry, vehicleListener] at h
    split at h
    · obtain ⟨l, hwritten⟩ := exists_written_vehiclesAfterRoute p i
      rw [Except.ok.inj h] at hwritten
      exact ⟨l, hwritten⟩
    · have hwritten := written_setVehicle p i (p.owner? i)
      rw [Except.ok.inj h] at hwritten
      exact ⟨_, hwritten⟩
    · cases h
      exact ⟨[], .refl p⟩
  · right
    simp only [arrivalEntry, arrivalListener] at h
    split at h
    · exact exists_written_refreshRoute h
    · split at h
      · cases h
        exact ⟨[], .refl p⟩
      · split at h
        · exact exists_written_refreshRoute h
        · have hwritten := written_setArrival p i none
          rw [Except.ok.inj h] at hwritten
          exact ⟨_, hwritten⟩
    · cases h
      exact ⟨[], .refl p⟩

/-- Listeners do not change what does not follow from the routes. -/
theorem bare_update {e : ShadowEntry RoutePlan} (he : e ∈ cascade) {x : EntityRef} {changed : List EntityRef}
    (h : e.listener.update p x = .ok (q, changed)) : q.bare = p.bare := by
  rcases exists_written he h with ⟨l, hl⟩ | ⟨l, hl⟩
  · exact hl.bare_eq fun _ => rfl
  · exact hl.bare_eq fun _ => rfl

/-- Plans with the same vehicles have the same routes. -/
theorem content_of_vehicles (h : q.vehicles = p.vehicles) :
    (routes pinned).content q = (routes pinned).content p := by
  refine Content.ext (funext fun b => b.elim) ?_ (funext fun b => b.elim) ?_
  · funext l w
    change q.route w = p.route w
    rw [route, route, h]
  · funext l
    change q.vehicles.length = p.vehicles.length
    rw [h]

/-- Listeners and stored scores do not change routes. -/
theorem apart_routes : (routes pinned).Apart (k := .hardSoft) cascade where
  listener _ he _ _ _ _ h := content_of_vehicles (vehicles_of_bare (bare_update he h))
  score _ _ := content_of_vehicles rfl

/-- The elements of all routes are what is on the routes. -/
theorem elements_routes (p : RoutePlan) :
    ((routes pinned).list ()).elements p = (p.vehicles.flatMap Vehicle.visits : Multiset Nat) := by
  have hall : ∀ vs : List Vehicle, ∑ e ∈ Finset.range vs.length,
      (((vs[e]?.map Vehicle.visits).getD [] : List Nat) : Multiset Nat) = vs.flatMap Vehicle.visits := by
    intro vs
    induction vs with
    | nil => rfl
    | cons x vs ih =>
      rw [List.length_cons, Finset.sum_range_succ', List.flatMap_cons, ← Multiset.coe_add, add_comm, ← ih]
      rfl
  exact hall p.vehicles

/-- A move assigns what is not on the routes yet. -/
theorem added_of_check {m : ListMove Nat} {u : Unit} (h : m.check ((routes pinned).list ()) p = .ok u) :
    m.added.Nodup ∧ ∀ v ∈ m.added, v < p.visits.length ∧ v ∉ p.vehicles.flatMap Vehicle.visits := by
  cases m with
  | assign v e i =>
    obtain ⟨_, -, h⟩ := bind_eq_ok_iff.1 h
    obtain ⟨_, helement, h⟩ := bind_eq_ok_iff.1 h
    obtain ⟨_, -, h⟩ := bind_eq_ok_iff.1 h
    refine ⟨List.nodup_singleton v, List.forall_mem_singleton.2 ⟨?_, fun hv => ?_⟩⟩
    · unfold ListVariable.checkElement at helement
      split at helement
      · rename_i hrange
        exact of_decide_eq_true hrange
      · cases helement
    · split at h
      · cases h
      · rename_i hassigned
        obtain ⟨w, hw⟩ := mem_routes.1 hv
        obtain ⟨x, hx, -⟩ := mem_route.1 hw
        obtain ⟨hlt, -⟩ := List.getElem?_eq_some_iff.1 hx
        exact hassigned (List.any_eq_true.2 ⟨w, List.mem_range.2 hlt, List.contains_iff_mem.2 hw⟩)
  | change _ _ _ _ => exact ⟨List.nodup_nil, nofun⟩
  | swap _ _ _ _ => exact ⟨List.nodup_nil, nofun⟩
  | reverse _ _ _ => exact ⟨List.nodup_nil, nofun⟩
  | sublistChange _ _ _ _ _ => exact ⟨List.nodup_nil, nofun⟩

/-- A vehicle without its route. -/
def stripped (x : Vehicle) : Vehicle := { x with visits := [] }

/-- Only routes of some vehicles changed. -/
structure Rerouted (D : Set Nat) (p q : RoutePlan) : Prop where
  /-- The visits are the same. -/
  visits : q.visits = p.visits
  /-- The times of travel are the same. -/
  travelTimes : q.travelTimes = p.travelTimes
  /-- The stored score is the same. -/
  score : q.score = p.score
  /-- The vehicles are the same but for their routes. -/
  vehicles : q.vehicles.map stripped = p.vehicles.map stripped
  /-- The other routes are the same. -/
  routes : ∀ w ∉ D, q.route w = p.route w

namespace Rerouted

theorem trans (h : Rerouted D p q) (h' : Rerouted D q r) : Rerouted D p r where
  visits := h'.visits.trans h.visits
  travelTimes := h'.travelTimes.trans h.travelTimes
  score := h'.score.trans h.score
  vehicles := h'.vehicles.trans h.vehicles
  routes w hw := (h'.routes w hw).trans (h.routes w hw)

theorem mono (h : Rerouted D p q) (hD : D ⊆ E) : Rerouted E p q :=
  { h with routes := fun w hw => h.routes w fun hwD => hw (hD hwD) }

/-- Writing a route changes the routes of its vehicle. -/
theorem setRoute {l : List Nat} (h : p.setRoute d l = .ok q) (hd : d ∈ D) : Rerouted D p q where
  visits := by
    obtain ⟨-, rfl⟩ := ite_eq_ok_iff.1 h
    rfl
  travelTimes := by
    obtain ⟨-, rfl⟩ := ite_eq_ok_iff.1 h
    rfl
  score := by
    obtain ⟨-, rfl⟩ := ite_eq_ok_iff.1 h
    rfl
  vehicles := by
    obtain ⟨-, rfl⟩ := ite_eq_ok_iff.1 h
    refine List.ext_getElem? fun w => ?_
    simp only [List.getElem?_map, List.getElem?_modify]
    split <;> cases p.vehicles[w]? <;> rfl
  routes w hw := by
    rw [route_setRoute h, Function.update_of_ne]
    rintro rfl
    exact hw hd

/-- A move changes the routes of its entities. -/
theorem apply {m : ListMove Nat} (h : m.apply ((RoutePlan.routes pinned).list ()) p = .ok q) :
    Rerouted {w | w ∈ m.entities} p q :=
  ListMove.apply_rel (fun _ _ _ h h' => h.trans h') (fun _ hd _ _ _ h => setRoute h hd) h

/-- Undoing a move changes the routes of its entities. -/
theorem undo {m : ListMove Nat} {old : RoutePlan}
    (h : m.undo ((RoutePlan.routes pinned).list ()) old p = .ok q) : Rerouted {w | w ∈ m.entities} p q :=
  ListMove.undo_rel (fun _ _ _ h h' => h.trans h') (fun _ hd _ _ _ h => setRoute h hd) h

/-- A plan awaits the vehicles whose routes changed. -/
theorem awaits (h : Rerouted D p q) (hp : p.Planned) (hq : q.Planned) (hawaits : p.Awaits ∅) : q.Awaits D :=
  .of_edit hp hq hawaits h.visits h.travelTimes (fun w hw _ => ⟨w, h.routes w hw, .inl rfl⟩)
    fun u hu _ hv => ⟨u, (h.routes u hu).symm ▸ hv⟩

end Rerouted

/-- A vehicle that differs in nothing but its route and has the same route is the same. -/
theorem vehicle_ext {x y : Option Vehicle} (hstripped : x.map stripped = y.map stripped)
    (hvisits : (x.map Vehicle.visits).getD [] = (y.map Vehicle.visits).getD []) : x = y := by
  cases x with
  | none => exact (Option.map_eq_none_iff.1 hstripped.symm).symm
  | some x =>
    obtain ⟨y, rfl, heq⟩ := Option.map_eq_some_iff.1 hstripped.symm
    obtain ⟨_, _, _⟩ := x
    obtain ⟨_, _, _⟩ := y
    simp_all [stripped]

/-- Vehicles that differ in nothing but their routes and have the same routes are the same. -/
theorem vehicles_ext (hvehicles : q.vehicles.map stripped = p.vehicles.map stripped)
    (hroutes : ∀ w, q.route w = p.route w) : q.vehicles = p.vehicles := by
  refine List.ext_getElem? fun w => vehicle_ext ?_ (hroutes w)
  rw [← List.getElem?_map, hvehicles, List.getElem?_map]

/-- A move keeps a plan planned. -/
theorem Planned.apply (hp : p.Planned) {m : ListMove Nat} {u : Unit}
    (hcheck : m.check ((routes pinned).list ()) p = .ok u)
    (h : m.apply ((routes pinned).list ()) p = .ok q) : q.Planned := by
  have hrerouted := Rerouted.apply h
  have helements := ListMove.elements_apply lawful_routes hcheck h
  rw [elements_routes, elements_routes, Multiset.coe_add, Multiset.coe_eq_coe] at helements
  obtain ⟨hnodup, hadded⟩ := added_of_check hcheck
  refine ⟨hrerouted.visits ▸ hp.numbered, ?_, fun v hv => ?_⟩
  · rw [helements.nodup_iff, List.nodup_append]
    refine ⟨hp.once, hnodup, fun v hv w hw => ?_⟩
    rintro rfl
    exact (hadded v hw).2 hv
  · rw [hrerouted.visits]
    rcases List.mem_append.1 (helements.mem_iff.1 hv) with hv | hv
    · exact hp.known v hv
    · exact (hadded v hv).1

/-- A vehicle with visits that are on no route, each once. -/
structure Fits (p : RoutePlan) (x : Vehicle) : Prop where
  /-- No visit is there twice. -/
  once : x.visits.Nodup
  /-- What is there is a visit. -/
  known : ∀ v ∈ x.visits, v < p.visits.length
  /-- It is on no route yet. -/
  free : ∀ v ∈ x.visits, ∀ w, v ∉ p.route w

/-- A vehicle came at a position. -/
def Inserted (p q : RoutePlan) (i : Nat) (x : Vehicle) : Prop :=
  ∃ vs, insertAt p.vehicles i x = .ok vs ∧ q = { p with vehicles := vs }

/-- A vehicle went from a position. -/
def Removed (p q : RoutePlan) (i : Nat) : Prop :=
  ∃ vs, removeAt p.vehicles i = .ok vs ∧ q = { p with vehicles := vs }

namespace Inserted

variable {i : Nat} {x : Vehicle} (h : Inserted p q i x)

include h

/-- The routes of vehicles behind the one that came move down. -/
theorem route_of_ne (hw : w ≠ i) : q.route w = if w < i then p.route w else p.route (w - 1) := by
  obtain ⟨vs, hvs, rfl⟩ := h
  simp only [route, getElem?_of_insertAt_of_ne hvs hw]
  split <;> rfl

/-- The route of a vehicle behind the one that came. -/
theorem route_succ (hw : i ≤ w) : q.route (w + 1) = p.route w := by
  rw [h.route_of_ne (by omega), if_neg (by omega), Nat.add_sub_cancel]

/-- A plan stays planned when a vehicle comes that fits. -/
theorem planned (hp : p.Planned) (hx : p.Fits x) : q.Planned := by
  obtain ⟨vs, hvs, rfl⟩ := h
  have hperm := (perm_of_insertAt hvs).flatMap_right Vehicle.visits
  rw [List.flatMap_cons] at hperm
  refine ⟨hp.numbered, ?_, fun v hv => ?_⟩
  · rw [hperm.nodup_iff, List.nodup_append]
    refine ⟨hx.once, hp.once, fun v hv w hw => ?_⟩
    rintro rfl
    obtain ⟨w, hw⟩ := mem_routes.1 hw
    exact hx.free v hv w hw
  · rcases List.mem_append.1 (hperm.mem_iff.1 hv) with hv | hv
    · exact hx.known v hv
    · exact hp.known v hv

/-- A plan awaits the vehicle that came when those behind it have no visits. -/
theorem awaits (hp : p.Planned) (hq : q.Planned) (hawaits : p.Awaits ∅)
    (hempty : ∀ w, i < w → p.route w = []) : q.Awaits {i} := by
  have hvisits : q.visits = p.visits ∧ q.travelTimes = p.travelTimes := by
    obtain ⟨vs, -, rfl⟩ := h
    exact ⟨rfl, rfl⟩
  refine .of_edit hp hq hawaits hvisits.1 hvisits.2 (fun w hw hne => ?_) fun u hu v hv => ?_
  · rcases Nat.lt_or_gt_of_ne hw with hlt | hgt
    · exact ⟨w, by rw [h.route_of_ne hw, if_pos hlt], .inl rfl⟩
    · obtain ⟨u, rfl⟩ : ∃ u, w = u + 1 := ⟨w - 1, by omega⟩
      rw [h.route_succ (by omega)] at hne ⊢
      refine ⟨u, rfl, .inr ?_⟩
      by_contra hui
      exact hne (hempty u (Nat.lt_of_le_of_ne (by omega) (Ne.symm hui)))
  · rcases Nat.lt_or_gt_of_ne hu with hlt | hgt
    · refine ⟨u, ?_⟩
      rwa [h.route_of_ne hu, if_pos hlt]
    · rw [hempty u hgt] at hv
      exact absurd hv List.not_mem_nil

end Inserted

namespace Removed

variable {i : Nat} (h : Removed p q i)

include h

/-- The routes of vehicles behind the one that went move up. -/
theorem route_eq (w : Nat) : q.route w = if w < i then p.route w else p.route (w + 1) := by
  obtain ⟨vs, hvs, rfl⟩ := h
  simp only [route, getElem?_of_removeAt hvs]
  split <;> rfl

/-- A plan stays planned when a vehicle goes. -/
theorem planned (hp : p.Planned) : q.Planned := by
  obtain ⟨vs, hvs, rfl⟩ := h
  obtain ⟨hi, -⟩ := removeAt_eq_ok_iff.1 hvs
  have hperm := (perm_of_removeAt hvs (List.getElem?_eq_getElem hi)).flatMap_right Vehicle.visits
  rw [List.flatMap_cons] at hperm
  refine ⟨hp.numbered, ?_, fun v hv => hp.known v ?_⟩
  · exact (List.nodup_append.1 (hperm.nodup_iff.1 hp.once)).2.1
  · exact hperm.mem_iff.2 (List.mem_append_right _ hv)

/-- A plan awaits the position from which a vehicle went and the vehicles behind it. -/
theorem awaits (hp : p.Planned) (hawaits : p.Awaits ∅) :
    q.Awaits {w | i ≤ w ∧ w < max q.vehicles.length (i + 1)} := by
  have hvisits : q.visits = p.visits ∧ q.travelTimes = p.travelTimes := by
    obtain ⟨vs, -, rfl⟩ := h
    exact ⟨rfl, rfl⟩
  refine .of_edit hp (h.planned hp) hawaits hvisits.1 hvisits.2 (fun w hw hne => ?_) fun u hu v hv => ?_
  · obtain ⟨v, hv⟩ := List.exists_mem_of_ne_nil _ hne
    obtain ⟨x, hx, -⟩ := mem_route.1 hv
    obtain ⟨hlt, -⟩ := List.getElem?_eq_some_iff.1 hx
    have hwi : w < i := by
      by_contra hwi
      exact hw ⟨by omega, by omega⟩
    exact ⟨w, by rw [h.route_eq, if_pos hwi], .inl rfl⟩
  · by_cases hui : u < i
    · refine ⟨u, ?_⟩
      rwa [h.route_eq, if_pos hui]
    · have hbehind : i < u := by
        by_contra hle
        exact hu ⟨by omega, by omega⟩
      refine ⟨u - 1, ?_⟩
      rwa [h.route_eq, if_neg (by omega), Nat.sub_add_cancel (by omega)]

end Removed

end Planning.RoutePlan
