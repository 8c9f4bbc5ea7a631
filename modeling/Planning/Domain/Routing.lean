import Planning.Domain.Basic
import Planning.Problems.Routing

/-!
# Documents of the routing problem

A plan is written as positions on a line, due times, capacities and routes; demands, times of service and
times of travel may be given where they differ from the usual ones.
-/

namespace Planning

/-- The vehicle of a list of its number, what it holds and its route. -/
def Vehicle.ofDocument (d : Document) : Vehicle :=
  ⟨(d.item 0).asNat, (d.item 1).asInt, (d.item 2).items.map Document.asNat⟩

/-- The list of the number, what it holds and the route of a vehicle. -/
def Vehicle.toDocument (v : Vehicle) : Document :=
  .list [.nat v.id, .integer v.capacity, .nats v.visits]

/-- The visit of a list of its number, its demand, its time of service and its due time. -/
def Visit.ofDocument (d : Document) : Visit :=
  { id := (d.item 0).asNat
    demand := (d.item 1).asInt
    service := (d.item 2).asInt
    due := (d.item 3).asInt }

/-- The list of the number, the vehicle and the time of arrival of a visit. -/
def Visit.toDocument (v : Visit) : Document :=
  .list [.nat v.id, .ofOption .nat v.vehicle, .ofOption .integer v.arrival]

namespace RoutePlan

/-- The visits with numbers written over the first of them. -/
def overwrite (visits : List Visit) (numbers : List Int) (f : Visit → Int → Visit) : List Visit :=
  visits.mapIdx fun i v => (numbers[i]?.map (f v)).getD v

/-- The plan of a document. -/
def ofDocument (d : Document) : Checked RoutePlan := do
  let numbers (name : String) : List Int := (d.get name).items.map Document.asInt
  let plan ← onLine (numbers "positions") (numbers "due") (numbers "capacities")
  let plan := plan.withRoutes ((d.get "routes").items.map fun r => r.items.map Document.asNat)
  let visits := overwrite plan.visits (numbers "demands") fun v n => { v with demand := n }
  let visits := overwrite visits (numbers "services") fun v n => { v with service := n }
  let travelTimes :=
    match d.get "travel" with
    | .list rows => rows.map fun r => r.items.map Document.asInt
    | _ => plan.travelTimes
  return { plan with visits := visits, travelTimes := travelTimes }

/-- The document of a plan. -/
def toDocument (p : RoutePlan) : Document :=
  .table [("vehicles", .list (p.vehicles.map Vehicle.toDocument)),
    ("visits", .list (p.visits.map Visit.toDocument)),
    ("init", .bool (PlanningSolution.isInitialized p)), ("score", scoreDocument p.score)]

/-- The plan with another value of a variable: the route of a vehicle, or the vehicle or the time of
arrival of a visit. -/
def assign (x : EntityRef) (name : String) (v : Document) (p : RoutePlan) : Checked RoutePlan :=
  if x.1 = 0 then p.setRoute x.2 (v.items.map Document.asNat)
  else
    let edit (f : Visit → Visit) : Checked RoutePlan := .ok { p with visits := p.visits.modify x.2 f }
    if name = "vehicle" then edit fun visit => { visit with vehicle := v.optional Document.asNat }
    else edit fun visit => { visit with arrival := v.optional Document.asInt }

/-- The domain with options of the variable. -/
def domain (options : Document) : Domain RoutePlan Nat .hardSoft where
  problem := problem
  plan := .list { routeVariable with pinned := if (options.get "pinned").asBool then some isPinned else none }
  read := ofDocument
  write := toDocument
  value := Document.asNat
  assign := assign
  editor source :=
    match source with
    | .entity 0 => .ofCollection source vehicleCollection Vehicle.ofDocument Vehicle.text
    | _ => .ofCollection source visitCollection Visit.ofDocument Visit.text

end RoutePlan

end Planning
