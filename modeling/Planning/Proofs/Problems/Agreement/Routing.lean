import Mathlib
import Planning.Proofs.Problems.Routing.Revision

/-!
# Scores of plans

The constraints on visits read what visits say of their vehicles and arrivals, and the full calculation reads the
routes. They agree where a plan awaits nothing and the number of each vehicle is its index, in whatever way the plan
came about.
-/

namespace Planning

/-- How late a visit is reached. -/
def Visit.delay (x : Visit) : Int := (x.arrival.map fun a => max (a - x.due) 0).getD 0

namespace RoutePlan

open Checked

variable {p : RoutePlan} {v w : Nat} {a n : Int} {total total' : Int × Int}

/-- The visits of a route. -/
def visitsOf (p : RoutePlan) (route : List Nat) : List Visit := route.filterMap fun v => p.visits[v]?

/-- What is carried along a route. -/
def load (p : RoutePlan) (route : List Nat) : Int := ((p.visitsOf route).map Visit.demand).sum

/-- How much more a vehicle carries than it holds. -/
def excess (p : RoutePlan) (x : Vehicle) : Int := max (p.load x.visits - x.capacity) 0

/-- What is delivered along a route is added up. -/
theorem foldlM_of_demandOf {route : List Nat} (h : p.demandOf route = .ok n) :
    ((p.visitsOf route).map Visit.demand).foldlM (fun total d => bounded (total + d)) 0 = .ok n := by
  rw [List.foldlM_map]
  exact h

theorem demandOf_eq {route : List Nat} (h : p.demandOf route = .ok n) : n = p.load route :=
  (Collector.reaches_sum (f := fun _ => .ok 0) (foldlM_of_demandOf h)).2

/-- In a plan that awaits nothing a visit says when the routes say that it is reached. -/
theorem Awaits.arrivalOf_eq (hp : p.Planned) (h : p.Awaits ∅) {times : List Int}
    (hok : p.arrivals (p.route w) = .ok times) (hmem : (v, a) ∈ (p.route w).zip times) : p.arrivalOf v = some a := by
  have hdue : p.Due v (some a) := ⟨w, times, hok, hmem⟩
  exact hp.due_unique (h.timely hp (hp.lt_of_mem_route (List.of_mem_zip hmem).1)) hdue

/-- In a plan that awaits nothing a visit that says a time of arrival is on a route. -/
theorem Awaits.exists_mem_route (hp : p.Planned) (h : p.Awaits ∅) (ha : p.arrivalOf v = some a) :
    ∃ w, v ∈ p.route w := by
  have hlt : v < p.visits.length := by
    by_contra hge
    rw [arrivalOf, List.getElem?_eq_none (Nat.le_of_not_lt hge)] at ha
    cases ha
  have ht := h.timely hp hlt
  rw [Timely, ha] at ht
  obtain ⟨w, times, -, hmem⟩ := ht
  exact ⟨w, (List.of_mem_zip hmem).1⟩

/-- The costs of arrivals that visits say are those of the visits. -/
theorem arrivalCosts_eq {l : List (Nat × Int)} (hl : ∀ y ∈ l, p.arrivalOf y.1 = some y.2)
    (h : p.arrivalCosts total l = .ok total') :
    total' = (total.1 - ((p.visitsOf (l.map Prod.fst)).map Visit.delay).sum,
        total.2 - ((p.visitsOf (l.map Prod.fst)).map fun x => x.arrival.getD 0).sum) ∧
      ∀ x ∈ p.visitsOf (l.map Prod.fst), ∀ a, x.arrival = some a → InBounds (a - x.due) := by
  induction l generalizing total with
  | nil =>
    cases h
    exact ⟨by simp [visitsOf], nofun⟩
  | cons y l ih =>
    obtain ⟨v, a⟩ := y
    obtain ⟨hard, soft⟩ := total
    obtain ⟨hy, hl⟩ := List.forall_mem_cons.1 hl
    obtain ⟨x, hx, ha⟩ := Option.bind_eq_some_iff.1 hy
    simp only [arrivalCosts, hx, bind_eq_ok_iff, pure_eq_ok_iff, bounded_eq_ok_iff] at h
    obtain ⟨_, ⟨hin, rfl⟩, _, rfl, _, ⟨-, rfl⟩, _, ⟨-, rfl⟩, h⟩ := h
    obtain ⟨rfl, hrest⟩ := ih hl h
    have hvisits : p.visitsOf (((v, a) :: l).map Prod.fst) = x :: p.visitsOf (l.map Prod.fst) :=
      List.filterMap_cons_some hx
    have hdelay : x.delay = max (a - x.due) 0 := by rw [Visit.delay, ha]; rfl
    rw [hvisits]
    refine ⟨?_, List.forall_mem_cons.2 ⟨fun b hb => ?_, hrest⟩⟩
    · rw [List.map_cons, List.sum_cons, List.map_cons, List.sum_cons, hdelay, ha, Option.getD_some, Prod.mk.injEq]
      omega
    · rw [ha] at hb
      cases hb
      exact hin

/-- What is known of a vehicle whose costs were calculated. -/
structure Costed (p : RoutePlan) (x : Vehicle) : Prop where
  /-- What is delivered along its route adds up. -/
  demand : ∃ n, p.demandOf x.visits = .ok n
  /-- What it carries can be compared with what it holds. -/
  excess : InBounds (p.load x.visits - x.capacity)
  /-- The times of arrival along its route can be compared with when the visits are due. -/
  delay : ∀ y ∈ p.visitsOf x.visits, ∀ a, y.arrival = some a → InBounds (a - y.due)

/-- The costs of a vehicle are its excess and what the arrivals of its route cost. -/
theorem vehicleCosts_eq (hp : p.Planned) (hawaits : p.Awaits ∅) {x : Vehicle} (hx : p.vehicles[w]? = some x)
    (h : p.vehicleCosts total x = .ok total') :
    total' = (total.1 - p.excess x - ((p.visitsOf x.visits).map Visit.delay).sum,
        total.2 - ((p.visitsOf x.visits).map fun y => y.arrival.getD 0).sum) ∧ p.Costed x := by
  have hroute : p.route w = x.visits := by rw [route, hx]; rfl
  simp only [vehicleCosts, bind_eq_ok_iff, bounded_eq_ok_iff] at h
  obtain ⟨n, hn, _, ⟨hin, rfl⟩, _, ⟨-, rfl⟩, times, htimes, h⟩ := h
  obtain rfl := demandOf_eq hn
  have hfst : (x.visits.zip times).map Prod.fst = x.visits :=
    List.map_fst_zip (length_arrivalsFrom htimes).ge
  obtain ⟨rfl, hdelay⟩ := arrivalCosts_eq (fun y hy => hawaits.arrivalOf_eq hp (w := w) (by rwa [hroute])
    (by rwa [hroute])) h
  rw [hfst] at hdelay ⊢
  exact ⟨rfl, ⟨_, hn⟩, hin, hdelay⟩

/-- The costs of vehicles add up. -/
theorem foldlM_vehicleCosts_eq (hp : p.Planned) (hawaits : p.Awaits ∅) {vs : List Vehicle}
    (hvs : ∀ x ∈ vs, ∃ w : Nat, p.vehicles[w]? = some x) (h : vs.foldlM p.vehicleCosts total = .ok total') :
    total' = (total.1 - (vs.map p.excess).sum - ((p.visitsOf (vs.flatMap Vehicle.visits)).map Visit.delay).sum,
        total.2 - ((p.visitsOf (vs.flatMap Vehicle.visits)).map fun y => y.arrival.getD 0).sum) ∧
      ∀ x ∈ vs, p.Costed x := by
  induction vs generalizing total with
  | nil =>
    cases h
    exact ⟨by simp [visitsOf], nofun⟩
  | cons x vs ih =>
    obtain ⟨⟨w, hw⟩, hvs⟩ := List.forall_mem_cons.1 hvs
    rw [List.foldlM_cons] at h
    obtain ⟨mid, hmid, h⟩ := bind_eq_ok_iff.1 h
    obtain ⟨rfl, hx⟩ := vehicleCosts_eq hp hawaits hw hmid
    obtain ⟨rfl, hrest⟩ := ih hvs h
    have hvisits : p.visitsOf ((x :: vs).flatMap Vehicle.visits) =
        p.visitsOf x.visits ++ p.visitsOf (vs.flatMap Vehicle.visits) := by
      rw [visitsOf, List.flatMap_cons, List.filterMap_append]
      rfl
    refine ⟨?_, List.forall_mem_cons.2 ⟨hx, hrest⟩⟩
    rw [hvisits]
    simp only [List.map_append, List.sum_append, List.map_cons, List.sum_cons, Prod.mk.injEq]
    omega

/-- The visits that some indices name, each once, are those at the places of the indices. -/
theorem perm_visitsOf {l : List Nat} {P : Visit → Bool} (hl : l.Nodup)
    (hP : ∀ v x, p.visits[v]? = some x → (v ∈ l ↔ P x = true)) (hknown : ∀ v ∈ l, v < p.visits.length) :
    (p.visits.filter P).Perm (p.visitsOf l) := by
  have hplaces : l.Perm ((List.range p.visits.length).filter fun v => (p.visits[v]?.map P).getD false) := by
    refine (List.perm_ext_iff_of_nodup hl (List.nodup_range.filter _)).2 fun v => ?_
    rw [List.mem_filter, List.mem_range]
    constructor
    · intro hv
      have hx := List.getElem?_eq_getElem (hknown v hv)
      exact ⟨hknown v hv, by rw [hx]; exact (hP v _ hx).1 hv⟩
    · rintro ⟨hlt, hv⟩
      have hx := List.getElem?_eq_getElem hlt
      rw [hx] at hv
      exact (hP v _ hx).2 hv
  refine List.Perm.trans (List.Perm.of_eq ?_) (hplaces.filterMap _).symm
  conv_lhs => rw [← filterMap_getElem_range p.visits, List.filter_filterMap]
  rw [List.filterMap_filter]
  refine List.filterMap_congr fun v _ => ?_
  cases p.visits[v]? with
  | none => rfl
  | some x => cases hx : P x <;> simp [hx]

/-- In a plan that awaits nothing the visits that say a vehicle are those of its route. -/
theorem Awaits.perm_vehicle (hp : p.Planned) (h : p.Awaits ∅) (w : Nat) :
    (p.visits.filter fun x => x.vehicle = some w).Perm (p.visitsOf (p.route w)) := by
  refine perm_visitsOf (hp.nodup_route w) (fun v x hx => ?_) fun v hv => hp.lt_of_mem_route hv
  have htells := h.vehicleOf_eq (List.getElem?_eq_some_iff.1 hx).1
  rw [vehicleOf, hx, Option.bind_some] at htells
  rw [← hp.owner?_eq_some_iff, ← htells, decide_eq_true_iff]

/-- In a plan that awaits nothing the visits that say a time of arrival are those of all routes. -/
theorem Awaits.perm_arrival (hp : p.Planned) (h : p.Awaits ∅) :
    (p.visits.filter fun x => x.arrival.isSome).Perm (p.visitsOf (p.vehicles.flatMap Vehicle.visits)) := by
  refine perm_visitsOf hp.once (fun v x hx => ?_) hp.known
  have htells : p.arrivalOf v = x.arrival := by rw [arrivalOf, hx, Option.bind_some]
  rw [mem_routes]
  constructor
  · rintro ⟨w, hw⟩
    obtain ⟨times, htimes⟩ := h.exists_arrivals hp w
    obtain ⟨a, ha⟩ := exists_reached htimes hw
    rw [← htells, h.arrivalOf_eq hp htimes ha]
    rfl
  · intro hsome
    obtain ⟨a, ha⟩ := Option.isSome_iff_exists.1 hsome
    exact h.exists_mem_route hp (htells.trans ha)

/-- What visits count for that count only if they say a time of arrival is counted along the routes. -/
theorem Awaits.sum_visits (hp : p.Planned) (h : p.Awaits ∅) {f : Visit → Int} (hf : ∀ x, x.arrival = none → f x = 0) :
    (p.visits.map f).sum = ((p.visitsOf (p.vehicles.flatMap Vehicle.visits)).map f).sum := by
  rw [← ((h.perm_arrival hp).map f).sum_eq]
  exact (sum_map_filter fun x _ hx => hf x (by simpa using hx)).symm

/-- The value of a visit tells its time of arrival. -/
theorem toValue_at_five (x : Visit) : x.toValue.at? 5 = Value.ofOption (x.arrival.map .int) := rfl

/-- The value of a visit tells its vehicle. -/
theorem toValue_at_four (x : Visit) : x.toValue.at? 4 = Value.ofOption (x.vehicle.map .ofNat) := rfl

/-- Late arrivals count how late visits are reached. -/
theorem count_lateArrival (hp : p.Planned) (h : p.Awaits ∅) (hcosted : ∀ x ∈ p.vehicles, p.Costed x) :
    lateArrival.count p = ((p.visitsOf (p.vehicles.flatMap Vehicle.visits)).map Visit.delay).sum := by
  refine (Stream.sum_forEach (.entity 1) visitMembers _ _ p).trans ?_
  have hbounds : ∀ x ∈ p.visits, ∀ a, x.arrival = some a → InBounds (a - x.due) := by
    intro x hx a ha
    have hmem : x ∈ p.visits.filter fun x => x.arrival.isSome := List.mem_filter.2 ⟨hx, by rw [ha]; rfl⟩
    obtain ⟨v, hv, hxv⟩ := List.mem_filterMap.1 ((h.perm_arrival hp).mem_iff.1 hmem)
    obtain ⟨y, hy, hvy⟩ := List.mem_flatMap.1 hv
    exact (hcosted y hy).delay x (List.mem_filterMap.2 ⟨v, hvy, hxv⟩) a ha
  rw [← h.sum_visits hp (f := Visit.delay) (fun x hx => by rw [Visit.delay, hx]; rfl), visitMembers, List.map_map]
  refine congrArg List.sum (List.map_congr_left fun x hx => ?_)
  have hdue : x.toValue.at? 3 = .int x.due := rfl
  have hweigher : lateArrival.weigher x.toValue = bounded ((x.toValue.at? 5).toInt - (x.toValue.at? 3).toInt) := rfl
  simp only [Function.comp_apply, hweigher, toValue_at_five, hdue, Visit.delay]
  cases ha : x.arrival with
  | none => simp [Value.ofOption]
  | some a =>
    have hbounded : bounded (a - x.due) = .ok (a - x.due) := bounded_eq_ok_iff.2 ⟨hbounds x hx a ha, rfl⟩
    simp [Value.ofOption, Value.toInt, hbounded, Except.toOption]
    omega

/-- Arrival times count the times at which visits are reached. -/
theorem count_arrivalTimes (hp : p.Planned) (h : p.Awaits ∅) :
    arrivalTimes.count p = ((p.visitsOf (p.vehicles.flatMap Vehicle.visits)).map fun x => x.arrival.getD 0).sum := by
  refine (Stream.sum_forEach (.entity 1) visitMembers _ _ p).trans ?_
  rw [← h.sum_visits hp (f := fun x => x.arrival.getD 0) (fun x hx => by rw [hx]; rfl), visitMembers, List.map_map]
  refine congrArg List.sum (List.map_congr_left fun x _ => ?_)
  have hweigher : arrivalTimes.weigher x.toValue = .ok (x.toValue.at? 5).toInt := rfl
  simp only [Function.comp_apply, hweigher, toValue_at_five]
  cases x.arrival with
  | none => simp [Value.ofOption]
  | some a => simp [Value.ofOption, Value.toInt, Except.toOption]

/-- The loads of vehicles: for each vehicle with visits what is carried along its route. -/
def loads : Stream RoutePlan :=
  ((Stream.forEach (.entity 1) visitMembers).filter fun v => .ok (v.at? 4 != .null)).groupBy (fun v => .ok (v.at? 4))
    (.sum fun v => .ok (v.at? 1).toInt)

/-- What the loads take from a visit: its vehicle, if it says one, and its demand. -/
theorem entry_visit (x : Visit) : ((Filter.keep (fun v => .ok (v.at? 4 != .null)) x.toValue).bind fun t =>
    some (t.at? 4, (t.at? 1).toInt)) = x.vehicle.map fun w => (Value.ofNat w, x.demand) := by
  rcases Option.eq_none_or_eq_some x.vehicle with hx | ⟨w, hx⟩
  · have hkeep : Filter.keep (fun v => .ok (v.at? 4 != .null)) x.toValue = none :=
      if_neg (by simp [toValue_at_four, hx, Value.ofOption])
    rw [hkeep, hx]
    rfl
  · have hkeep : Filter.keep (fun v => .ok (v.at? 4 != .null)) x.toValue = some x.toValue :=
      if_pos (by simp [toValue_at_four, hx, Value.ofOption, Value.ofNat])
    rw [hkeep, hx, Option.bind_some, toValue_at_four, hx]
    rfl

/-- The vehicles and demands of the visits that say a vehicle. -/
def entries (p : RoutePlan) : List (Value × Int) :=
  p.visits.filterMap fun x => x.vehicle.map fun w => (Value.ofNat w, x.demand)

theorem ofNat_injective : Function.Injective Value.ofNat := fun _ _ h => Int.ofNat_inj.1 (Value.int.inj h)

/-- The vehicles that visits say are those with visits. -/
theorem Awaits.dedup_entries (hp : p.Planned) (h : p.Awaits ∅) :
    ((p.entries : Multiset (Value × Int)).map Prod.fst).dedup =
      (((List.range p.vehicles.length).filter fun w => p.route w ≠ []).map .ofNat : List Value) := by
  have hmem : ∀ k, k ∈ p.entries.map Prod.fst ↔ ∃ w < p.vehicles.length, p.route w ≠ [] ∧ .ofNat w = k := by
    intro k
    simp only [entries, List.map_filterMap, List.mem_filterMap, Option.map_map, Option.map_eq_some_iff]
    constructor
    · rintro ⟨x, hx, w, hw, rfl⟩
      obtain ⟨v, hv⟩ := List.mem_iff_getElem?.1 hx
      have htells := h.vehicleOf_eq (List.getElem?_eq_some_iff.1 hv).1
      rw [vehicleOf, hv, Option.bind_some, hw] at htells
      have hroute := hp.owner?_eq_some_iff.1 htells.symm
      obtain ⟨y, hy, -⟩ := mem_route.1 hroute
      exact ⟨w, (List.getElem?_eq_some_iff.1 hy).1, List.ne_nil_of_mem hroute, rfl⟩
    · rintro ⟨w, -, hne, rfl⟩
      obtain ⟨v, hv⟩ := List.exists_mem_of_ne_nil _ hne
      have hlt := hp.lt_of_mem_route hv
      have htells := (h.vehicleOf_eq hlt).trans (hp.owner?_eq_some_iff.2 hv)
      rw [vehicleOf, List.getElem?_eq_getElem hlt] at htells
      exact ⟨_, List.getElem_mem hlt, w, htells, rfl⟩
  rw [Multiset.map_coe, Multiset.coe_dedup, Multiset.coe_eq_coe]
  refine (List.perm_ext_iff_of_nodup (List.nodup_dedup _) ((List.nodup_range.filter _).map ofNat_injective)).2
    fun k => ?_
  rw [List.mem_dedup, hmem, List.mem_map]
  simp only [List.mem_filter, List.mem_range, decide_eq_true_iff, and_assoc]

/-- The demands of the visits that say a vehicle are those of its route. -/
theorem Awaits.demands_entries (hp : p.Planned) (h : p.Awaits ∅) (w : Nat) :
    (((p.entries : Multiset (Value × Int)).filter fun e => e.1 = .ofNat w).map Prod.snd) =
      ((p.visitsOf (p.route w)).map Visit.demand : Multiset Int) := by
  rw [Multiset.filter_coe, Multiset.map_coe, Multiset.coe_eq_coe]
  refine List.Perm.trans (List.Perm.of_eq ?_) ((h.perm_vehicle hp w).map Visit.demand)
  unfold entries
  induction p.visits with
  | nil => rfl
  | cons x l ih =>
    cases hx : x.vehicle with
    | none =>
      rw [List.filterMap_cons_none (by rw [hx]; rfl), ih, List.filter_cons_of_neg (by simp [hx])]
    | some u =>
      rw [List.filterMap_cons_some (b := (.ofNat u, x.demand)) (by rw [hx]; rfl)]
      by_cases hu : u = w
      · subst hu
        rw [List.filter_cons_of_pos (by simp), List.map_cons, ih, List.filter_cons_of_pos (by simp [hx]), List.map_cons]
      · rw [List.filter_cons_of_neg (by simp [ofNat_injective.eq_iff, hu]), ih,
          List.filter_cons_of_neg (by simp [hx, hu])]

/-- Each vehicle with visits has one load, what is carried along its route. -/
theorem bag_loads (hp : p.Planned) (h : p.Awaits ∅) (hcosted : ∀ x ∈ p.vehicles, p.Costed x) :
    (loads.node.meaning p).bag = (((List.range p.vehicles.length).filter fun w => p.route w ≠ []).map fun w =>
      Value.pair (.ofNat w) (.int (p.load (p.route w))) : List Value) := by
  let rule : GroupRule := ⟨fun v => .ok (v.at? 4), .sum fun v => .ok (v.at? 1).toInt, .pair⟩
  have hentries : ((visitMembers p : Multiset Value).filterMap
      (Filter.keep fun v => .ok (v.at? 4 != .null))).filterMap rule.entry = (p.entries : Multiset (Value × Int)) := by
    rw [Multiset.filterMap_filterMap, visitMembers, Multiset.filterMap_coe, List.filterMap_map]
    exact congrArg _ (List.filterMap_congr fun x _ => entry_visit x)
  have hbag : (loads.node.meaning p).bag =
      ((p.entries : Multiset (Value × Int)).map Prod.fst).dedup.filterMap fun k =>
        (rule.collector.result (((p.entries : Multiset (Value × Int)).filter fun e => e.1 = k).map Prod.snd)).map
          (rule.output k) := by
    rw [← hentries]
    rfl
  rw [hbag, h.dedup_entries hp, Multiset.filterMap_coe, List.filterMap_map, ← List.filterMap_eq_map]
  refine congrArg _ (List.filterMap_congr fun w hw => ?_)
  have hlt := List.mem_range.1 (List.mem_filter.1 hw).1
  have hroute : p.route w = p.vehicles[w].visits := by rw [route, List.getElem?_eq_getElem hlt]; rfl
  obtain ⟨n, hn⟩ := (hcosted _ (List.getElem_mem hlt)).demand
  rw [← hroute] at hn
  obtain rfl := demandOf_eq hn
  obtain ⟨hreaches, -⟩ := Collector.reaches_sum (f := fun v => .ok (v.at? 1).toInt) (foldlM_of_demandOf hn)
  have hresult := (Collector.orderFree_sum _).result_eq hreaches rfl
  rw [← h.demands_entries hp w] at hresult
  exact congrArg (Option.map (Value.pair (.ofNat w))) hresult

/-- The number of each vehicle is its index. -/
def Numbered (p : RoutePlan) : Prop := ∀ (i : Nat) (x : Vehicle), p.vehicles[i]? = some x → x.id = i

/-- A vehicle without visits holds nothing or something. -/
def Spacious (p : RoutePlan) : Prop := ∀ x ∈ p.vehicles, x.visits = [] → 0 ≤ x.capacity

/-- What a load counts for with a vehicle. -/
def overload (a b : Value) : Int :=
  let t := Stream.append a b
  if (Joiner.keys .equal (fun t => .ok (t.at? 0)) fun v => .ok (v.at? 0)).matching a b = .ok true ∧
      (.ok (decide (0 < (t.at? 1).toInt - ((t.at? 2).at? 1).toInt)) : Checked Bool) = .ok true then
    (bounded ((t.at? 1).toInt - ((t.at? 2).at? 1).toInt)).toOption.getD 0 else 0

/-- A load counts for what is too much with the vehicle of its number, and for nothing with others. -/
theorem overload_eq {x : Vehicle} (hin : x.id = w → InBounds (n - x.capacity)) :
    overload (.pair (.ofNat w) (.int n)) x.toValue = if x.id = w then max (n - x.capacity) 0 else 0 := by
  have hid : x.toValue.at? 0 = .int x.id := rfl
  have hfirst : (Value.pair (.ofNat w) (.int n)).at? 0 = .int w := rfl
  have hload : (Stream.append (.pair (.ofNat w) (.int n)) x.toValue).at? 1 = .int n := rfl
  have hcapacity : ((Stream.append (.pair (.ofNat w) (.int n)) x.toValue).at? 2).at? 1 = .int x.capacity := rfl
  simp only [overload, Joiner.matching_keys_iff, hid, hfirst, hload, hcapacity, Value.toInt, Except.ok.injEq,
    decide_eq_true_eq, Value.int.injEq, Int.natCast_inj]
  by_cases hw : x.id = w
  · have hbounded : bounded (n - x.capacity) = .ok (n - x.capacity) := bounded_eq_ok_iff.2 ⟨hin hw, rfl⟩
    rw [hbounded, if_pos hw]
    simp only [hw, true_and, Except.toOption, Option.getD_some]
    split_ifs <;> omega
  · rw [if_neg hw, if_neg fun h => hw h.1.symm]

/-- Where the number of each vehicle is its index capacities count what vehicles carry too much. -/
theorem count_vehicleCapacity (hp : p.Planned) (h : p.Awaits ∅) (hcosted : ∀ x ∈ p.vehicles, p.Costed x)
    (hnumbered : p.Numbered) (hspacious : p.Spacious) : vehicleCapacity.count p = (p.vehicles.map p.excess).sum := by
  refine (Stream.sum_join (.entity 0) vehicleMembers _ _ p loads _ (bag_loads hp h hcosted)).trans ?_
  have hexcess : ∀ w, ((vehicleMembers p).map (overload (.pair (.ofNat w) (.int (p.load (p.route w)))))).sum =
      (p.vehicles[w]?.map p.excess).getD 0 := by
    intro w
    have hvehicle : ∀ (j : Nat) (x : Vehicle), p.vehicles[j]? = some x →
        overload (.pair (.ofNat w) (.int (p.load (p.route w)))) x.toValue = if j = w then p.excess x else 0 := by
      intro j x hx
      have hid := hnumbered j x hx
      have hroute : j = w → p.route w = x.visits := by
        rintro rfl
        rw [route, hx]
        rfl
      rw [overload_eq fun hw => hroute (hid.symm.trans hw) ▸ (hcosted x (List.mem_of_getElem? hx)).excess, hid]
      by_cases hj : j = w
      · rw [if_pos hj, if_pos hj, hroute hj]
        rfl
      · rw [if_neg hj, if_neg hj]
    rw [vehicleMembers, List.map_map]
    refine (sum_map_eq_of_place (i := w) fun j x hx hj => (hvehicle j x hx).trans (if_neg hj)).trans ?_
    cases hx : p.vehicles[w]? with
    | none => rfl
    | some x => exact (hvehicle w x hx).trans (if_pos rfl)
  change ((((List.range p.vehicles.length).filter fun w => p.route w ≠ []).map fun w =>
    Value.pair (.ofNat w) (.int (p.load (p.route w)))).map fun a => ((vehicleMembers p).map (overload a)).sum).sum = _
  rw [List.map_map, ← sum_map_range p.excess]
  simp only [Function.comp_def, hexcess]
  refine sum_map_filter fun w hw hroute => ?_
  have hlt := List.mem_range.1 hw
  have hempty : p.vehicles[w].visits = [] := by
    simpa only [route, List.getElem?_eq_getElem hlt, Option.map_some, Option.getD_some, decide_eq_false_iff_not,
      not_not] using hroute
  have hcapacity := hspacious _ (List.getElem_mem hlt) hempty
  rw [List.getElem?_eq_getElem hlt, Option.map_some, Option.getD_some, excess, hempty]
  exact max_eq_right (by simpa [load, visitsOf] using hcapacity)

/-- Where the number of each vehicle is its index the score of a plan that awaits nothing is what the constraints are
worth. -/
theorem vector_calculate (hp : p.Planned) (h : p.Awaits ∅) (hnumbered : p.Numbered) (hspacious : p.Spacious)
    {score : Score .hardSoft} (hok : calculate p = .ok score) : score.vector = constraints.worth p := by
  obtain ⟨⟨hard, soft⟩, hcosts, hscore⟩ := bind_eq_ok_iff.1 hok
  obtain ⟨heq, hcosted⟩ := foldlM_vehicleCosts_eq hp h (fun x hx => List.mem_iff_getElem?.1 hx) hcosts
  obtain ⟨rfl, rfl⟩ := Prod.mk.inj heq
  simp only [ConstraintSet.worth, constraints, List.map_cons, List.map_nil, List.sum_cons, List.sum_nil]
  rw [Score.vector_of_ofList hscore, Constraint.worth_of_penalty rfl (by decide) rfl,
    Constraint.worth_of_penalty rfl (by decide) rfl, Constraint.worth_of_penalty rfl (by decide) rfl,
    count_vehicleCapacity hp h hcosted hnumbered hspacious, count_lateArrival hp h hcosted, count_arrivalTimes hp h]
  funext i
  rcases i with - | - | i
  · simp only [Pi.add_apply, Pi.single_eq_same, Pi.single_eq_of_ne (zero_ne_one' Nat), Pi.zero_apply,
      List.getD_cons_zero]
    omega
  · simp only [zero_add, Pi.add_apply, Pi.single_eq_same, Pi.single_eq_of_ne (zero_ne_one' Nat).symm, Pi.zero_apply,
      List.getD_cons_succ, List.getD_cons_zero]
    omega
  · simp

end RoutePlan

end Planning
