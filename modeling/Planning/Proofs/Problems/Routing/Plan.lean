import Mathlib.Data.List.Nodup
import Planning.Problems.Routing
import Planning.Proofs.Checked

/-!
# What follows from the routes of a plan

In a plan whose routes hold its visits, each at most once, a visit has one owner, the vehicle on whose route it
is, and one time of arrival, which the route says. Both are read off the routes: what the visits themselves say
of their vehicles and arrivals does not matter to them.
-/

namespace Planning

/-- A visit without what follows from the routes. -/
def Visit.bare (x : Visit) : Visit := { x with vehicle := none, arrival := none }

namespace RoutePlan

open Checked

variable {p q : RoutePlan} {v w : Nat} {a b : Int}

/-- A plan without what follows from its routes and without the stored score. -/
def bare (p : RoutePlan) : RoutePlan := { p with visits := p.visits.map Visit.bare, score := none }

/-- What a visit says of its vehicle. -/
def vehicleOf (p : RoutePlan) (v : Nat) : Option Nat := p.visits[v]?.bind Visit.vehicle

/-- What a visit says of its time of arrival. -/
def arrivalOf (p : RoutePlan) (v : Nat) : Option Int := p.visits[v]?.bind Visit.arrival

/-- The routes hold visits, each at most once, and the number of a visit is its index. -/
structure Planned (p : RoutePlan) : Prop where
  /-- The number of a visit is its index. -/
  numbered : ∀ (i : Nat) (x : Visit), p.visits[i]? = some x → x.id = i
  /-- No visit is on the routes twice. -/
  once : (p.vehicles.flatMap Vehicle.visits).Nodup
  /-- What is on the routes is a visit. -/
  known : ∀ v ∈ p.vehicles.flatMap Vehicle.visits, v < p.visits.length

/-- The routes say when a visit is reached. -/
def Reached (p : RoutePlan) (v : Nat) (a : Int) : Prop :=
  ∃ w times, p.arrivals (p.route w) = .ok times ∧ (v, a) ∈ (p.route w).zip times

/-- The routes say when a visit is reached, or that it is not. -/
def Due (p : RoutePlan) (v : Nat) : Option Int → Prop
  | some a => p.Reached v a
  | none => ∀ w, v ∉ p.route w

/-- A visit says the time of arrival that follows from the routes. -/
def Timely (p : RoutePlan) (v : Nat) : Prop := p.Due v (p.arrivalOf v)

/-- What is on the route of a vehicle. -/
theorem mem_route : v ∈ p.route w ↔ ∃ x, p.vehicles[w]? = some x ∧ v ∈ x.visits := by
  unfold route
  cases p.vehicles[w]? with
  | none => simp
  | some x => simp

/-- What is on the routes is on the route of a vehicle. -/
theorem mem_routes : v ∈ p.vehicles.flatMap Vehicle.visits ↔ ∃ w, v ∈ p.route w := by
  rw [List.mem_flatMap]
  constructor
  · rintro ⟨x, hx, hv⟩
    obtain ⟨w, hw⟩ := List.mem_iff_getElem?.1 hx
    exact ⟨w, mem_route.2 ⟨x, hw, hv⟩⟩
  · rintro ⟨w, hw⟩
    obtain ⟨x, hx, hv⟩ := mem_route.1 hw
    exact ⟨x, List.mem_of_getElem? hx, hv⟩

/-- The times of arrival along a route depend on the times of travel and on how long its visits take. -/
theorem arrivals_congr (htimes : q.travelTimes = p.travelTimes) {route : List Nat}
    (hservice : ∀ v ∈ route, q.visits[v]?.map Visit.service = p.visits[v]?.map Visit.service) :
    q.arrivals route = p.arrivals route := by
  have hfrom : ∀ l : List Nat, (∀ v ∈ l, q.visits[v]?.map Visit.service = p.visits[v]?.map Visit.service) →
      ∀ time place, q.arrivalsFrom time place l = p.arrivalsFrom time place l := by
    intro l
    induction l with
    | nil => exact fun _ _ _ => rfl
    | cons v l ih =>
      intro hl time place
      obtain ⟨hv, hl⟩ := List.forall_mem_cons.1 hl
      simp only [arrivalsFrom, travel, htimes, hv, ih hl]
  exact hfrom route hservice 0 0

section Bare

variable (h : q.bare = p.bare)

include h

theorem vehicles_of_bare : q.vehicles = p.vehicles := by
  have hvehicles := congrArg vehicles h
  exact hvehicles

theorem travelTimes_of_bare : q.travelTimes = p.travelTimes := by
  have htimes := congrArg travelTimes h
  exact htimes

theorem bareVisits_of_bare : q.visits.map Visit.bare = p.visits.map Visit.bare := by
  have hvisits := congrArg visits h
  exact hvisits

theorem length_of_bare : q.visits.length = p.visits.length := by
  simpa using congrArg List.length (bareVisits_of_bare h)

theorem route_of_bare (w : Nat) : q.route w = p.route w := by
  rw [route, route, vehicles_of_bare h]

theorem owner?_of_bare (v : Nat) : q.owner? v = p.owner? v := by
  rw [owner?, owner?, vehicles_of_bare h]

/-- What does not follow from the routes is the same. -/
theorem map_visits_of_bare {α : Type} {f : Visit → α} (hf : ∀ x : Visit, f x.bare = f x) (v : Nat) :
    q.visits[v]?.map f = p.visits[v]?.map f := by
  have hbare := congrArg (fun l => l[v]?.map f) (bareVisits_of_bare h)
  simp only [List.getElem?_map, Option.map_map] at hbare
  have hcomp : f ∘ Visit.bare = f := funext hf
  rwa [hcomp] at hbare

/-- The times of arrival along a route do not depend on what follows from the routes. -/
theorem arrivals_of_bare (route : List Nat) : q.arrivals route = p.arrivals route :=
  arrivals_congr (travelTimes_of_bare h) fun v _ => map_visits_of_bare h (fun _ => rfl) v

theorem reached_of_bare : q.Reached v a ↔ p.Reached v a := by
  simp only [Reached, route_of_bare h, arrivals_of_bare h]

theorem due_of_bare {t : Option Int} : q.Due v t ↔ p.Due v t := by
  cases t with
  | none => simp only [Due, route_of_bare h]
  | some a => exact reached_of_bare h

/-- A visit that says what it said is timely if it was. -/
theorem Timely.of_bare (hv : p.Timely v) (harrival : q.arrivalOf v = p.arrivalOf v) : q.Timely v := by
  rw [Timely, harrival]
  exact (due_of_bare h).2 hv

theorem Planned.of_bare (hp : p.Planned) : q.Planned where
  numbered i x hx := by
    have hid := map_visits_of_bare h (f := Visit.id) (fun _ => rfl) i
    rw [hx] at hid
    obtain ⟨y, hy, heq⟩ := Option.map_eq_some_iff.1 hid.symm
    exact heq.symm.trans (hp.numbered i y hy)
  once := by
    rw [vehicles_of_bare h]
    exact hp.once
  known := by
    rw [vehicles_of_bare h, length_of_bare h]
    exact hp.known

end Bare

/-- Plans with the same routes whose visits say the same are the same. -/
theorem eq_of_bare (h : q.bare = p.bare) (hscore : q.score = p.score)
    (hvehicle : ∀ v < p.visits.length, q.vehicleOf v = p.vehicleOf v)
    (harrival : ∀ v < p.visits.length, q.arrivalOf v = p.arrivalOf v) : q = p := by
  have hvisits : q.visits = p.visits := by
    refine List.ext_getElem (length_of_bare h) fun v hq hp => ?_
    have hvehicle := hvehicle v hp
    have harrival := harrival v hp
    have hbare := map_visits_of_bare h (f := Visit.bare) (fun _ => rfl) v
    simp only [vehicleOf, arrivalOf, List.getElem?_eq_getElem hq, List.getElem?_eq_getElem hp,
      Option.bind_some, Option.map_some, Option.some.injEq] at hvehicle harrival hbare
    generalize q.visits[v] = x at *
    generalize p.visits[v] = y at *
    obtain ⟨_, _, _, _, _, _⟩ := x
    obtain ⟨_, _, _, _, _, _⟩ := y
    simp_all [Visit.bare]
  obtain ⟨_, _, _, _⟩ := q
  obtain ⟨_, _, _, _⟩ := p
  simp_all [bare]

namespace Planned

variable (h : p.Planned)

include h

/-- A visit is on one route only. -/
theorem eq_of_mem_route {w' : Nat} (hw : v ∈ p.route w) (hw' : v ∈ p.route w') : w = w' := by
  obtain ⟨x, hx, hv⟩ := mem_route.1 hw
  obtain ⟨y, hy, hv'⟩ := mem_route.1 hw'
  obtain ⟨hlt, rfl⟩ := List.getElem?_eq_some_iff.1 hx
  obtain ⟨hlt', rfl⟩ := List.getElem?_eq_some_iff.1 hy
  obtain ⟨-, hapart⟩ := List.nodup_flatMap.1 h.once
  have hapart := List.pairwise_iff_getElem.1 hapart
  by_contra hne
  rcases Nat.lt_or_gt_of_ne hne with hlt'' | hlt''
  · exact hapart _ _ hlt hlt' hlt'' hv hv'
  · exact hapart _ _ hlt' hlt hlt'' hv' hv

/-- A route holds no visit twice. -/
theorem nodup_route (w : Nat) : (p.route w).Nodup := by
  obtain ⟨hroutes, -⟩ := List.nodup_flatMap.1 h.once
  unfold route
  cases hx : p.vehicles[w]? with
  | none => exact List.nodup_nil
  | some x => exact hroutes x (List.mem_of_getElem? hx)

/-- What is on a route is a visit. -/
theorem lt_of_mem_route (hw : v ∈ p.route w) : v < p.visits.length := h.known v (mem_routes.2 ⟨w, hw⟩)

/-- The owner of a visit is the vehicle on whose route it is. -/
theorem owner?_eq_some_iff : p.owner? v = some w ↔ v ∈ p.route w := by
  unfold owner?
  rw [List.findIdx?_eq_some_iff_getElem]
  constructor
  · rintro ⟨hlt, hv, -⟩
    exact mem_route.2 ⟨_, List.getElem?_eq_getElem hlt, List.contains_iff_mem.1 hv⟩
  · intro hv
    obtain ⟨x, hx, hmem⟩ := mem_route.1 hv
    obtain ⟨hlt, rfl⟩ := List.getElem?_eq_some_iff.1 hx
    refine ⟨hlt, List.contains_iff_mem.2 hmem, fun j hj hmem' => ?_⟩
    have hjv : v ∈ p.route j :=
      mem_route.2 ⟨_, List.getElem?_eq_getElem (Nat.lt_trans hj hlt), List.contains_iff_mem.1 hmem'⟩
    exact Nat.ne_of_lt hj (h.eq_of_mem_route hjv hv)

/-- A visit without an owner is on no route. -/
theorem owner?_eq_none_iff : p.owner? v = none ↔ ∀ w, v ∉ p.route w := by
  rw [Option.eq_none_iff_forall_ne_some]
  exact forall_congr' fun w => not_congr h.owner?_eq_some_iff

/-- A visit is reached at one time. -/
theorem reached_unique (ha : p.Reached v a) (hb : p.Reached v b) : a = b := by
  obtain ⟨w, times, htimes, hmem⟩ := ha
  obtain ⟨w', times', htimes', hmem'⟩ := hb
  obtain rfl := h.eq_of_mem_route (List.of_mem_zip hmem).1 (List.of_mem_zip hmem').1
  rw [htimes] at htimes'
  cases htimes'
  obtain ⟨i, hi, hia⟩ := List.mem_iff_getElem.1 hmem
  obtain ⟨j, hj, hjb⟩ := List.mem_iff_getElem.1 hmem'
  rw [List.getElem_zip, Prod.mk.injEq] at hia hjb
  have hij : i = j := (h.nodup_route w).getElem_inj_iff.1 (hia.1.trans hjb.1.symm)
  subst hij
  exact hia.2.symm.trans hjb.2

/-- The routes say one thing of a visit. -/
theorem due_unique {t t' : Option Int} (ht : p.Due v t) (ht' : p.Due v t') : t = t' := by
  cases t with
  | none =>
    cases t' with
    | none => rfl
    | some b =>
      obtain ⟨w, times, -, hmem⟩ := ht'
      exact absurd (List.of_mem_zip hmem).1 (ht w)
  | some a =>
    cases t' with
    | none =>
      obtain ⟨w, times, -, hmem⟩ := ht
      exact absurd (List.of_mem_zip hmem).1 (ht' w)
    | some b => rw [h.reached_unique ht ht']

end Planned

/-- There is a time of arrival for each visit of a route. -/
theorem length_arrivalsFrom {time : Int} {place : Nat} {route : List Nat} {times : List Int}
    (h : p.arrivalsFrom time place route = .ok times) : times.length = route.length := by
  induction route generalizing time place times with
  | nil =>
    cases h
    rfl
  | cons v route ih =>
    obtain ⟨arrival, -, h⟩ := bind_eq_ok_iff.1 h
    obtain ⟨departure, -, h⟩ := bind_eq_ok_iff.1 h
    obtain ⟨rest, hrest, h⟩ := bind_eq_ok_iff.1 h
    cases h
    rw [List.length_cons, List.length_cons, ih hrest]

/-- A visit on a route whose times are known is reached. -/
theorem exists_reached {times : List Int} (h : p.arrivals (p.route w) = .ok times) (hv : v ∈ p.route w) :
    ∃ a, (v, a) ∈ (p.route w).zip times := by
  obtain ⟨i, hi, rfl⟩ := List.mem_iff_getElem.1 hv
  have hi' : i < times.length := by rwa [length_arrivalsFrom h]
  have hzip : i < ((p.route w).zip times).length := by
    rw [List.length_zip]
    omega
  refine ⟨times[i], ?_⟩
  rw [← List.getElem_zip (h := hzip)]
  exact List.getElem_mem hzip

end RoutePlan

end Planning
