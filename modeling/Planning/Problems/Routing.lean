import Planning.Problem
import Planning.ProblemChange
import Planning.Variable

/-!
# The routing problem

Each vehicle has a route of visits that starts at a depot. The vehicle of a visit and the time of arrival
follow from the routes. No vehicle carries more than it holds, no visit is reached after it is due, and
visits should be reached early.
-/

namespace Planning

/-- A vehicle with its route. -/
structure Vehicle where
  /-- The number by which the vehicle is known. -/
  id : Nat
  /-- How much it holds. -/
  capacity : Int
  /-- The indices of the visits of its route. -/
  visits : List Nat
deriving DecidableEq

namespace Vehicle

/-- The members of a vehicle as a value. -/
def toValue (v : Vehicle) : Value :=
  .list [.int v.id, .int v.capacity, .list (v.visits.map .ofNat)]

/-- The text that shows a vehicle. -/
def text (v : Vehicle) : String :=
  Text.record "Vehicle"
    [("id", toString v.id), ("capacity", toString v.capacity),
      ("visits", Text.list (v.visits.map toString))]

end Vehicle

/-- A visit. -/
structure Visit where
  /-- The number by which the visit is known. -/
  id : Nat
  /-- How much is delivered. -/
  demand : Int
  /-- How long it takes. -/
  service : Int
  /-- The latest time of arrival. -/
  due : Int
  /-- The index of the vehicle. -/
  vehicle : Option Nat := none
  /-- The time of arrival. -/
  arrival : Option Int := none
deriving DecidableEq

namespace Visit

/-- The members of a visit as a value. -/
def toValue (v : Visit) : Value :=
  .list [.int v.id, .int v.demand, .int v.service, .int v.due, Value.ofOption (v.vehicle.map .ofNat),
    Value.ofOption (v.arrival.map .int)]

/-- The text that shows a visit. -/
def text (v : Visit) : String :=
  Text.record "Visit"
    [("id", toString v.id), ("demand", toString v.demand), ("service_duration", toString v.service),
      ("due_time", toString v.due), ("vehicle", Text.optional toString v.vehicle),
      ("arrival_time", Text.optional toString v.arrival)]

end Visit

/-- Vehicles, visits and the times of travel between the depot and the visits. -/
structure RoutePlan where
  /-- The vehicles. -/
  vehicles : List Vehicle
  /-- The visits. -/
  visits : List Visit
  /-- The time from a place to another; the depot is the first place, and the visits follow. -/
  travelTimes : List (List Int)
  /-- The score that was stored last. -/
  score : Option (Score .hardSoft) := none
deriving DecidableEq

namespace RoutePlan

instance : PlanningSolution RoutePlan .hardSoft where
  score p := p.score
  withScore p s := { p with score := some s }
  isInitialized p := sumOf (p.vehicles.map fun v => v.visits.length) == p.visits.length
  entityCount p d :=
    match d with
    | 0 => p.vehicles.length
    | 1 => p.visits.length
    | _ => 0
  factCount _ _ := 0

/-- The distances between places on a line. -/
def distances (places : List Int) : Checked (List (List Int)) :=
  places.mapM fun a => places.mapM fun b => do bounded (← bounded (a - b)).natAbs

/-- Visits at positions of a line with the depot at zero, and vehicles without routes. -/
def onLine (positions dues capacities : List Int) : Checked RoutePlan := do
  return {
    vehicles := capacities.mapIdx fun i c => ⟨i, c, []⟩
    visits := dues.mapIdx fun i due => { id := i, demand := 1, service := 1, due := due }
    travelTimes := ← distances (0 :: positions) }

/-- The plan with the routes of its first vehicles. -/
def withRoutes (p : RoutePlan) (routes : List (List Nat)) : RoutePlan :=
  { p with vehicles := p.vehicles.mapIdx fun i v => { v with visits := routes[i]?.getD v.visits } }

/-- The vehicles as a collection. -/
def vehicleCollection : Collection RoutePlan Vehicle :=
  ⟨vehicles, fun p vs => { p with vehicles := vs }⟩

/-- The visits as a collection. -/
def visitCollection : Collection RoutePlan Visit := ⟨visits, fun p vs => { p with visits := vs }⟩

/-- The time from a place to another; between unknown places there is none. -/
def travel (p : RoutePlan) (a b : Nat) : Int := (p.travelTimes[a]?.bind fun row => row[b]?).getD 0

/-- The times of arrival along a route that goes on from a place at a time. -/
def arrivalsFrom (p : RoutePlan) : Int → Nat → List Nat → Checked (List Int)
  | _, _, [] => .ok []
  | time, place, visit :: rest => do
    let time ← bounded (time + p.travel place (visit + 1))
    let departure ← bounded (time + (p.visits[visit]?.map Visit.service).getD 0)
    return time :: (← p.arrivalsFrom departure (visit + 1) rest)

/-- The times of arrival along a route. -/
def arrivals (p : RoutePlan) (route : List Nat) : Checked (List Int) := p.arrivalsFrom 0 0 route

/-- The route of a vehicle. -/
def route (p : RoutePlan) (i : Nat) : List Nat := (p.vehicles[i]?.map Vehicle.visits).getD []

/-- The plan with another route of a vehicle. -/
def setRoute (p : RoutePlan) (i : Nat) (route : List Nat) : Checked RoutePlan :=
  if i < p.vehicles.length then
    .ok { p with vehicles := p.vehicles.modify i fun v => { v with visits := route } }
  else .error .outOfRange

/-- The variable that gives each vehicle a route. -/
def routeVariable : ListVariable RoutePlan Nat where
  entityClass := 0
  name := "visits"
  count p := p.vehicles.length
  list := route
  set := setRoute
  range := .indices fun p => p.visits.length

/-- A vehicle that holds a thousand or more is pinned. -/
def isPinned (p : RoutePlan) (i : Nat) : Bool := p.vehicles[i]?.any fun v => decide (1000 ≤ v.capacity)

/-- The first vehicle whose route has a visit. -/
def owner? (p : RoutePlan) (visit : Nat) : Option Nat :=
  p.vehicles.findIdx? fun v => v.visits.contains visit

/-- The plan with the vehicle of a visit, and the visit if its vehicle is another one. -/
def setVehicle (p : RoutePlan) (visit : Nat) (vehicle : Option Nat) : RoutePlan × List EntityRef :=
  match p.visits[visit]? with
  | none => (p, [])
  | some v =>
    if v.vehicle = vehicle then (p, [])
    else ({ p with visits := p.visits.set visit { v with vehicle := vehicle } }, [(1, visit)])

/-- The plan with the time of arrival at a visit, and the visit if the time is another one. -/
def setArrival (p : RoutePlan) (visit : Nat) (arrival : Option Int) : RoutePlan × List EntityRef :=
  match p.visits[visit]? with
  | none => (p, [])
  | some v =>
    if v.arrival = arrival then (p, [])
    else ({ p with visits := p.visits.set visit { v with arrival := arrival } }, [(1, visit)])

/-- Visits are changed one after another. -/
def setAll {α : Type} (f : RoutePlan → Nat → α → RoutePlan × List EntityRef) (p : RoutePlan)
    (l : List (Nat × α)) : RoutePlan × List EntityRef :=
  l.foldl (fun (p, changed) (visit, a) => let (p, more) := f p visit a; (p, changed ++ more)) (p, [])

/-- The vehicles of visits follow a change of the route of a vehicle: visits that were on it get the first
vehicle that has them, and those on it get this one. -/
def vehiclesAfterRoute (p : RoutePlan) (vehicle : Nat) : RoutePlan × List EntityRef :=
  let route := p.route vehicle
  let stale := p.visits.filter fun v => v.vehicle == some vehicle && !route.contains v.id
  let owners := stale.map fun v => (v.id, p.owner? v.id)
  setAll setVehicle p (owners ++ route.map fun visit => (visit, some vehicle))

/-- What keeps the vehicles of visits up to date. -/
def vehicleListener : ShadowListener RoutePlan where
  target := ⟨"Visit", "vehicle"⟩
  update p x :=
    match x.1 with
    | 0 => .ok (p.vehiclesAfterRoute x.2)
    | 1 => .ok (p.setVehicle x.2 (p.owner? x.2))
    | _ => .ok (p, [])
  updateAll p :=
    let cleared := { p with visits := p.visits.map fun v => { v with vehicle := none } }
    let owners := (p.vehicles.mapIdx fun i v => v.visits.map fun visit => (visit, some i)).flatten
    .ok (setAll setVehicle cleared owners).1

/-- The times of arrival along the route of a vehicle are made anew. -/
def refreshRoute (p : RoutePlan) (vehicle : Nat) : Checked (RoutePlan × List EntityRef) := do
  let route := p.route vehicle
  let times ← p.arrivals route
  return setAll setArrival p (route.zip (times.map some))

/-- What keeps the times of arrival up to date. -/
def arrivalListener : ShadowListener RoutePlan where
  target := ⟨"Visit", "arrival_time"⟩
  update p x :=
    match x.1 with
    | 0 => p.refreshRoute x.2
    | 1 =>
      match p.visits[x.2]? with
      | none => .ok (p, [])
      | some v =>
        match v.vehicle with
        | some vehicle => p.refreshRoute vehicle
        | none => .ok (p.setArrival x.2 none)
    | _ => .ok (p, [])
  updateAll p :=
    let cleared := { p with visits := p.visits.map fun v => { v with arrival := none } }
    (List.range p.vehicles.length).foldlM (fun p i => do return (← p.refreshRoute i).1) cleared

/-- The vehicles as values. -/
def vehicleMembers (p : RoutePlan) : List Value := p.vehicles.map Vehicle.toValue

/-- The visits as values. -/
def visitMembers (p : RoutePlan) : List Value := p.visits.map Visit.toValue

/-- The text of a value that may be missing. -/
def optionText (v : Value) : String :=
  match v with
  | .null => "None"
  | v => Text.wrapped "Some" v.render

/-- The text that shows a vehicle given by a value. -/
def vehicleText (v : Value) : String :=
  Text.record "Vehicle"
    [("id", (v.at? 0).render), ("capacity", (v.at? 1).render),
      ("visits", Text.list ((v.at? 2).items.map Value.render))]

/-- The text that shows a visit given by a value. -/
def visitText (v : Value) : String :=
  Text.record "Visit"
    [("id", (v.at? 0).render), ("demand", (v.at? 1).render), ("service_duration", (v.at? 2).render),
      ("due_time", (v.at? 3).render), ("vehicle", optionText (v.at? 4)),
      ("arrival_time", optionText (v.at? 5))]

/-- A vehicle carries more than it holds. -/
def vehicleCapacity : Constraint RoutePlan .hardSoft :=
  let carried := (Stream.forEach (.entity 1) visitMembers).filter fun v => .ok (v.at? 4 != .null)
  let loads := carried.groupBy (fun v => .ok (v.at? 4)) (.sum fun v => .ok (v.at? 1).toInt)
  let joined := loads.join (.source (.entity 0) vehicleMembers)
    (.keys .equal (fun t => .ok (t.at? 0)) (fun v => .ok (v.at? 0)))
  let excess (t : Value) : Int := (t.at? 1).toInt - ((t.at? 2).at? 1).toInt
  let overloaded := joined.filter fun t => .ok (decide (0 < excess t))
  { overloaded.constraint ⟨"routing", "Vehicle capacity"⟩ .penalty (.unit 0)
      (fun t => bounded (excess t)) with
    justify := fun t =>
      Text.tuple [optionText (t.at? 0), (t.at? 1).render, vehicleText (t.at? 2)] }

/-- A visit is reached after it is due. -/
def lateArrival : Constraint RoutePlan .hardSoft :=
  let delay (v : Value) : Int := (v.at? 5).toInt - (v.at? 3).toInt
  let late := (Stream.forEach (.entity 1) visitMembers).filter fun v =>
    .ok (v.at? 5 != .null && decide (0 < delay v))
  { late.constraint ⟨"routing", "Late arrival"⟩ .penalty (.unit 0) (fun v => bounded (delay v)) with
    justify := visitText }

/-- The times of arrival add up. -/
def arrivalTimes : Constraint RoutePlan .hardSoft :=
  let reached := (Stream.forEach (.entity 1) visitMembers).filter fun v => .ok (v.at? 5 != .null)
  { reached.constraint ⟨"routing", "Arrival times"⟩ .penalty (.unit 1)
      (fun v => .ok (v.at? 5).toInt) with
    justify := visitText }

/-- The constraints. -/
def constraints : ConstraintSet RoutePlan .hardSoft := [vehicleCapacity, lateArrival, arrivalTimes]

/-- What is delivered along a route. -/
def demandOf (p : RoutePlan) (route : List Nat) : Checked Int :=
  (route.filterMap fun i => p.visits[i]?).foldlM (fun sum v => bounded (sum + v.demand)) 0

/-- What the arrivals of a route cost. -/
def arrivalCosts (p : RoutePlan) : Int × Int → List (Nat × Int) → Checked (Int × Int)
  | total, [] => .ok total
  | (hard, soft), (visit, arrival) :: rest => do
    let delay ← match p.visits[visit]? with
      | some v => do pure (max (← bounded (arrival - v.due)) 0)
      | none => pure 0
    arrivalCosts p (← bounded (hard - delay), ← bounded (soft - arrival)) rest

/-- What a vehicle costs. -/
def vehicleCosts (p : RoutePlan) (total : Int × Int) (v : Vehicle) : Checked (Int × Int) := do
  let demand ← p.demandOf v.visits
  let excess := max (← bounded (demand - v.capacity)) 0
  let hard ← bounded (total.1 - excess)
  p.arrivalCosts (hard, total.2) (v.visits.zip (← p.arrivals v.visits))

/-- The score of a plan. -/
def calculate (p : RoutePlan) : Checked (Score .hardSoft) := do
  let (hard, soft) ← p.vehicles.foldlM p.vehicleCosts (0, 0)
  Score.ofList .hardSoft [hard, soft]

/-- The description of the problem. -/
def description : SolutionDescriptor where
  typeName := "RoutingSolution"
  entities := [
    { typeName := "Vehicle"
      solutionField := "vehicles"
      allVariables := [{ name := "visits", kind := .list, valueRange := some "visits" }] },
    { typeName := "Visit"
      solutionField := "visits"
      provides := some "visits"
      allVariables := [
        { name := "arrival_time"
          kind := .shadow
          sources := [⟨"Vehicle", "visits"⟩, ⟨"Visit", "vehicle"⟩] },
        { name := "vehicle", kind := .shadow, sources := [⟨"Vehicle", "visits"⟩] }] }]
  scoreField := some "score"

/-- The problem. -/
def problem : PlanningProblem RoutePlan .hardSoft where
  description := description
  listeners := [arrivalListener, vehicleListener]
  constraints := constraints
  calculate := calculate

end RoutePlan

end Planning
