import Mathlib.Data.Set.Insert
import Mathlib.Order.BooleanAlgebra.Set
import Planning.Problem
import Planning.Proofs.Problems.Routing.Listeners

/-!
# Fresh plans

A plan is fresh but for some vehicles when its visits say their owners and their times of arrival, except that a
visit may say one of these vehicles, or belong to one, and not know it yet. A cascade for one of the vehicles
leaves the others. A plan that is fresh for all vehicles is what making its shadow variables anew gives.
-/

namespace Planning.RoutePlan

open Checked

variable {p p' q : RoutePlan} {v d : Nat} {D : Set Nat}

/-- The listener of vehicles with the places of its variables. -/
def vehicleEntry : ShadowEntry RoutePlan := ⟨⟨1, 1⟩, [⟨0, 0⟩], vehicleListener⟩

/-- The listener of arrivals with the places of its variables. -/
def arrivalEntry : ShadowEntry RoutePlan := ⟨⟨1, 0⟩, [⟨0, 0⟩, ⟨1, 1⟩], arrivalListener⟩

/-- The listeners of the problem in the order of their variables. -/
def cascade : ShadowCascade RoutePlan := [vehicleEntry, arrivalEntry]

/-- A plan is fresh but for vehicles whose routes changed without an announcement. -/
structure Awaits (p : RoutePlan) (D : Set Nat) : Prop where
  /-- A visit says its owner, unless it says or has a vehicle that is awaited. -/
  vehicle : ∀ v < p.visits.length, p.vehicleOf v = p.owner? v ∨
    ∃ d ∈ D, p.vehicleOf v = some d ∨ v ∈ p.route d
  /-- The visits of vehicles that are not awaited are timely. -/
  arrival : ∀ w ∉ D, ∀ v ∈ p.route w, p.Timely v
  /-- A visit that has and says no vehicle is timely. -/
  waiting : ∀ v < p.visits.length, p.owner? v = none → p.vehicleOf v = none → p.Timely v

/-- A plan whose visits say the same awaits the same. -/
theorem Awaits.of_bare (h : p.Awaits D) (hbare : q.bare = p.bare)
    (hshown : ∀ v, q.vehicleOf v = p.vehicleOf v ∧ q.arrivalOf v = p.arrivalOf v) : q.Awaits D where
  vehicle v hlt := by
    simp only [(hshown v).1, owner?_of_bare hbare, route_of_bare hbare]
    exact h.vehicle v (length_of_bare hbare ▸ hlt)
  arrival w hw v hv := (h.arrival w hw v (route_of_bare hbare w ▸ hv)).of_bare hbare (hshown v).2
  waiting v hlt howner hnone := by
    rw [owner?_of_bare hbare] at howner
    rw [(hshown v).1] at hnone
    exact (h.waiting v (length_of_bare hbare ▸ hlt) howner hnone).of_bare hbare (hshown v).2

/-- What the listeners of the problem do after the route of a vehicle changed. -/
theorem cascade_eq_ok {index : Option Nat} (hindex : index = none ∨ index = some 0) {changed : List EntityRef}
    (h : cascade.cascade p (0, d) index = .ok (p', changed)) :
    ∃ p₁ changed₁ xs changed₂, vehicleListener.update p (0, d) = .ok (p₁, changed₁) ∧
      ShadowCascade.updateEach arrivalListener p₁ [] xs = .ok (p', changed₂) ∧
      ∀ x, x ∈ xs ↔ x = (0, d) ∨ x ∈ changed₁ := by
  have htouched : ShadowCascade.touched vehicleEntry [⟨0, index, [(0, d)]⟩] = [(0, d)] := by
    rcases hindex with rfl | rfl
    · exact EntityRef.sorted_singleton (0, d)
    · exact EntityRef.sorted_singleton (0, d)
  have hconcerns : arrivalEntry.sources.any (Disturbance.concerns ⟨0, index, [(0, d)]⟩) = true := by
    rcases hindex with rfl | rfl
    · rfl
    · rfl
  obtain ⟨⟨s, ds⟩, hrun, h⟩ := bind_eq_ok_iff.1 h
  cases h
  obtain ⟨⟨p₁, changed₁⟩, hvehicle, hrun⟩ := bind_eq_ok_iff.1 hrun
  rw [htouched] at hvehicle
  obtain ⟨⟨p₁', changed₁'⟩, hvehicle, hlast⟩ := bind_eq_ok_iff.1 hvehicle
  cases hlast
  dsimp only at hrun
  rw [List.nil_append] at hrun
  split at hrun
  · rename_i hempty
    obtain ⟨changed₂, harrival⟩ := ShadowCascade.exists_updateEach_of_run_singleton hrun
    refine ⟨p₁, changed₁', _, changed₂, hvehicle, harrival, fun x => ?_⟩
    rw [List.isEmpty_iff.1 hempty, ShadowCascade.mem_touched]
    simp only [List.mem_singleton, exists_eq_left, hconcerns, true_and, List.not_mem_nil, or_false]
  · obtain ⟨changed₂, harrival⟩ := ShadowCascade.exists_updateEach_of_run_singleton hrun
    refine ⟨p₁, changed₁', _, changed₂, hvehicle, harrival, fun x => ?_⟩
    have hvisits : arrivalEntry.sources.any (Disturbance.concerns
        ⟨vehicleEntry.target.entity, some vehicleEntry.target.index, EntityRef.sorted changed₁'⟩) = true := rfl
    rw [ShadowCascade.mem_touched]
    simp only [List.mem_append, List.mem_singleton, or_and_right, exists_or, exists_eq_left, hconcerns, hvisits,
      true_and, EntityRef.mem_sorted]

/-- After a cascade for a vehicle a plan no longer awaits it. -/
theorem Awaits.cascade (hp : p.Planned) (h : p.Awaits D) {index : Option Nat}
    (hindex : index = none ∨ index = some 0) {changed : List EntityRef}
    (hok : RoutePlan.cascade.cascade p (0, d) index = .ok (p', changed)) :
    p'.Awaits (D \ {d}) ∧ p'.bare = p.bare ∧ p'.score = p.score ∧
      ∀ v, ¬ (p.vehicleOf v = some d ∨ v ∈ p.route d) → p'.vehicleOf v = p.vehicleOf v := by
  obtain ⟨p₁, changed₁, xs, changed₂, hvehicle, harrival, hxs⟩ := cascade_eq_ok hindex hok
  have hreowned := hp.reowned hvehicle
  have hp₁ := hp.of_bare hreowned.bare
  have hlen₁ := length_of_bare hreowned.bare
  obtain ⟨hrefreshed, hsettled⟩ := hp₁.refreshed_updateEach (fun x hx hclass hlt => by
    rcases (hxs x).1 hx with rfl | hx
    · exact absurd hclass nofun
    · rw [owner?_of_bare hreowned.bare]
      exact (hreowned.listed x hx).2 (hlen₁ ▸ hlt)) harrival
  have hbare : p'.bare = p.bare := hrefreshed.bare.trans hreowned.bare
  have hlen := length_of_bare hbare
  have hkept : ∀ v, p.Timely v → p'.Timely v := fun v hv =>
    hrefreshed.timely v (hv.of_bare hreowned.bare (hreowned.arrivalOf v))
  refine ⟨⟨fun v hlt => ?_, fun w hw v hv => ?_, fun v hlt howner hnone => ?_⟩, hbare,
    hrefreshed.score.trans hreowned.score, fun v hd => (hrefreshed.vehicleOf v).trans (hreowned.other v hd)⟩
  · rw [hlen] at hlt
    simp only [hrefreshed.vehicleOf, owner?_of_bare hbare, route_of_bare hbare]
    by_cases hd : p.vehicleOf v = some d ∨ v ∈ p.route d
    · exact .inl (hreowned.owned v hlt hd)
    · rw [hreowned.other v hd]
      refine (h.vehicle v hlt).imp_right fun ⟨d', hd', hv⟩ => ⟨d', ⟨hd', ?_⟩, hv⟩
      rintro rfl
      exact hd hv
  · rw [route_of_bare hbare] at hv
    by_cases hwd : w = d
    · subst hwd
      refine hsettled (0, w) ((hxs _).2 (.inl rfl)) v (hlen₁.symm ▸ hp.lt_of_mem_route hv) (.inr ⟨rfl, ?_⟩)
      rwa [route_of_bare hreowned.bare]
    · exact hkept v (h.arrival w (fun hD => hw ⟨hD, hwd⟩) v hv)
  · rw [hlen] at hlt
    rw [owner?_of_bare hbare] at howner
    by_cases hsaid : p.vehicleOf v = none
    · exact hkept v (h.waiting v hlt howner hsaid)
    · have hne : p₁.vehicleOf v ≠ p.vehicleOf v := by
        rw [← hrefreshed.vehicleOf v, hnone]
        exact Ne.symm hsaid
      exact hsettled (1, v) ((hxs _).2 (.inr (hreowned.reported v hne))) v (hlen₁.symm ▸ hlt) (.inl rfl)

/-- After cascades for vehicles a plan no longer awaits them. -/
theorem Awaits.cascadeAll {xs : List EntityRef} (hp : p.Planned) (h : p.Awaits D)
    {index : Nat → Option Nat} (hindex : index 0 = none ∨ index 0 = some 0) (hxs : ∀ x ∈ xs, x.1 = 0)
    (hok : RoutePlan.cascade.cascadeAll index p xs = .ok p') :
    p'.Awaits (D \ {d | (0, d) ∈ xs}) ∧ p'.bare = p.bare ∧ p'.score = p.score := by
  induction xs generalizing p D with
  | nil =>
    cases hok
    refine ⟨?_, rfl, rfl⟩
    convert h
    simp only [List.not_mem_nil, Set.ofPred_false, Set.sdiff_empty]
  | cons x xs ih =>
    obtain ⟨p₁, changed, h₁, hrest⟩ := ShadowCascade.cascadeAll_cons_eq_ok_iff.1 hok
    obtain ⟨hx, hclass⟩ := List.forall_mem_cons.1 hxs
    obtain ⟨c, d⟩ := x
    obtain rfl : c = 0 := hx
    obtain ⟨h₁, hbare₁, hscore₁, -⟩ := h.cascade hp hindex h₁
    obtain ⟨h', hbare, hscore⟩ := ih (hp.of_bare hbare₁) h₁ hclass hrest
    refine ⟨?_, hbare.trans hbare₁, hscore.trans hscore₁⟩
    convert h' using 1
    ext d'
    simp only [Set.mem_sdiff, Set.mem_ofPred_eq, List.mem_cons, Prod.mk.injEq, true_and, not_or,
      Set.mem_singleton_iff, and_assoc]

/-- A plan awaits a few vehicles after their routes changed and nothing else did. -/
theorem Awaits.of_edit (hp : p.Planned) (hq : q.Planned) (h : p.Awaits ∅)
    (hvisits : q.visits = p.visits) (htimes : q.travelTimes = p.travelTimes)
    (hroutes : ∀ w ∉ D, q.route w ≠ [] → ∃ u, q.route w = p.route u ∧ (u = w ∨ u ∈ D))
    (hkept : ∀ u ∉ D, ∀ v ∈ p.route u, ∃ w, v ∈ q.route w) : q.Awaits D := by
  have hsaid : ∀ v, q.vehicleOf v = p.vehicleOf v ∧ q.arrivalOf v = p.arrivalOf v := fun v => by
    simp only [vehicleOf, arrivalOf, hvisits, and_self]
  have howner : ∀ v < q.visits.length, q.vehicleOf v = p.owner? v := by
    intro v hlt
    rw [(hsaid v).1]
    rcases h.vehicle v (hvisits ▸ hlt) with hsame | ⟨d, hd, -⟩
    · exact hsame
    · exact absurd hd (Set.notMem_empty d)
  refine ⟨fun v hlt => ?_, fun w hw v hv => ?_, fun v hlt hnone htells => ?_⟩
  · rw [howner v hlt]
    cases hw : q.owner? v with
    | some w =>
      have hv := hq.owner?_eq_some_iff.1 hw
      by_cases hD : w ∈ D
      · exact .inr ⟨w, hD, .inr hv⟩
      · obtain ⟨u, hu, huw⟩ := hroutes w hD (List.ne_nil_of_mem hv)
        have hpu : p.owner? v = some u := hp.owner?_eq_some_iff.2 (hu ▸ hv)
        rcases huw with rfl | huD
        · exact .inl hpu
        · exact .inr ⟨u, huD, .inl hpu⟩
    | none =>
      cases hu : p.owner? v with
      | none => exact .inl rfl
      | some u =>
        refine .inr ⟨u, ?_, .inl rfl⟩
        by_contra hD
        obtain ⟨w, hv⟩ := hkept u hD v (hp.owner?_eq_some_iff.1 hu)
        exact hq.owner?_eq_none_iff.1 hw w hv
  · obtain ⟨u, hu, -⟩ := hroutes w hw (List.ne_nil_of_mem hv)
    have htimely := h.arrival u (Set.notMem_empty u) v (hu ▸ hv)
    rw [Timely, (hsaid v).2]
    rw [Timely] at htimely
    cases ha : p.arrivalOf v with
    | none =>
      rw [ha] at htimely
      exact absurd (hu ▸ hv) (htimely u)
    | some a =>
      rw [ha] at htimely
      obtain ⟨u', times, hok, hmem⟩ := htimely
      obtain rfl := hp.eq_of_mem_route (hu ▸ hv) (List.of_mem_zip hmem).1
      refine ⟨w, times, ?_, hu ▸ hmem⟩
      rw [arrivals_congr htimes fun v _ => by rw [hvisits], hu, hok]
  · have hpnone : p.owner? v = none := (howner v hlt).symm.trans htells
    have htimely := h.waiting v (hvisits ▸ hlt) hpnone ((hsaid v).1.symm.trans htells)
    have ha : p.arrivalOf v = none := hp.due_unique htimely (hp.owner?_eq_none_iff.1 hpnone)
    rw [Timely, (hsaid v).2, ha]
    exact hq.owner?_eq_none_iff.1 hnone

/-- In a plan that awaits nothing a visit says its owner. -/
theorem Awaits.vehicleOf_eq (h : p.Awaits ∅) (hlt : v < p.visits.length) : p.vehicleOf v = p.owner? v :=
  (h.vehicle v hlt).resolve_right fun ⟨_, hd, _⟩ => hd

/-- In a plan that awaits nothing every visit is timely. -/
theorem Awaits.timely (hp : p.Planned) (h : p.Awaits ∅) (hlt : v < p.visits.length) : p.Timely v := by
  cases hw : p.owner? v with
  | none => exact h.waiting v hlt hw ((h.vehicleOf_eq hlt).trans hw)
  | some w => exact h.arrival w (Set.notMem_empty w) v (hp.owner?_eq_some_iff.1 hw)

/-- A plan that awaits nothing is given by its routes. -/
theorem Awaits.eq_of_bare (hp : p.Planned) (h : p.Awaits ∅) (h' : q.Awaits ∅) (hbare : q.bare = p.bare)
    (hscore : q.score = p.score) : q = p := by
  have hlen := length_of_bare hbare
  refine RoutePlan.eq_of_bare hbare hscore (fun v hlt => ?_) fun v hlt => ?_
  · rw [h'.vehicleOf_eq (hlen.symm ▸ hlt), h.vehicleOf_eq hlt, owner?_of_bare hbare]
  · have hdue := h'.timely (hp.of_bare hbare) (hlen.symm ▸ hlt)
    exact hp.due_unique ((due_of_bare hbare).1 hdue) (h.timely hp hlt)

/-- In a plan that awaits nothing the times of arrival along every route are known. -/
theorem Awaits.exists_arrivals (hp : p.Planned) (h : p.Awaits ∅) (w : Nat) :
    ∃ times, p.arrivals (p.route w) = .ok times := by
  cases hroute : p.route w with
  | nil => exact ⟨[], rfl⟩
  | cons v route =>
    have hv : v ∈ p.route w := hroute ▸ List.mem_cons_self
    have htimely := h.arrival w (Set.notMem_empty w) v hv
    rw [Timely] at htimely
    cases ha : p.arrivalOf v with
    | none =>
      rw [ha] at htimely
      exact absurd hv (htimely w)
    | some a =>
      rw [ha] at htimely
      obtain ⟨w', times, hok, hmem⟩ := htimely
      obtain rfl := hp.eq_of_mem_route hv (List.of_mem_zip hmem).1
      exact ⟨times, hroute ▸ hok⟩

/-- When vehicles are made anew every visit says its owner. -/
theorem Planned.updateAll_vehicleListener (hp : p.Planned) :
    ∃ p₁, vehicleListener.updateAll p = .ok p₁ ∧ p₁.bare = p.bare ∧ p₁.score = p.score ∧
      ∀ v < p.visits.length, p₁.vehicleOf v = p.owner? v := by
  refine ⟨_, rfl, ?_⟩
  set cleared : RoutePlan := { p with visits := p.visits.map fun v => { v with vehicle := none } } with hcleared
  set owners := (p.vehicles.mapIdx fun i v => v.visits.map fun visit => (visit, some i)).flatten with howners
  have hmem : ∀ v a, (v, a) ∈ owners ↔ ∃ w, a = some w ∧ v ∈ p.route w := by
    intro v a
    rw [howners, List.mem_flatten]
    constructor
    · rintro ⟨l, hl, hva⟩
      obtain ⟨i, hi, rfl⟩ := List.mem_mapIdx.1 hl
      obtain ⟨u, hu, heq⟩ := List.mem_map.1 hva
      cases heq
      exact ⟨i, rfl, mem_route.2 ⟨_, List.getElem?_eq_getElem hi, hu⟩⟩
    · rintro ⟨w, rfl, hv⟩
      obtain ⟨x, hx, hv⟩ := mem_route.1 hv
      obtain ⟨hlt, rfl⟩ := List.getElem?_eq_some_iff.1 hx
      exact ⟨_, List.mem_mapIdx.2 ⟨w, hlt, rfl⟩, List.mem_map.2 ⟨v, hv, rfl⟩⟩
  have hwritten := Written.setAll written_setVehicle cleared owners
  have hbare : (setAll setVehicle cleared owners).1.bare = p.bare := by
    rw [hwritten.bare_eq fun _ => rfl]
    simp [hcleared, bare, Visit.bare]
  refine ⟨hbare, hwritten.score_eq, fun v hlt => ?_⟩
  have hx := List.getElem?_eq_getElem ((length_of_bare hbare).symm ▸ hlt)
  rw [vehicleOf, hx]
  rcases hwritten.written v _ hx with hw | ⟨hnone, hsame⟩
  · obtain ⟨w, htells, hv⟩ := (hmem _ _).1 hw
    exact htells.trans (hp.owner?_eq_some_iff.2 hv).symm
  · have howner : p.owner? v = none :=
      hp.owner?_eq_none_iff.2 fun w hv => hnone (some w) ((hmem _ _).2 ⟨w, rfl, hv⟩)
    rw [howner]
    simp only [hcleared, List.getElem?_map, Option.map_eq_some_iff] at hsame
    obtain ⟨y, -, hy⟩ := hsame
    rw [← hy]
    rfl

/-- Routes are refreshed one after another. -/
theorem refreshed_foldlM {is : List Nat}
    (h : is.foldlM (fun p i => do return (← refreshRoute p i).1) p = .ok p') :
    Refreshed p p' ∧ ∀ i ∈ is, ∀ v < p.visits.length, v ∈ p.route i → p'.Timely v := by
  induction is generalizing p with
  | nil =>
    cases h
    exact ⟨.refl _, nofun⟩
  | cons i is ih =>
    simp only [List.foldlM_cons, bind_eq_ok_iff, pure_eq_ok_iff] at h
    obtain ⟨_, ⟨⟨p₁, changed⟩, h₁, rfl⟩, h⟩ := h
    obtain ⟨hrefreshed₁, hsettled₁⟩ := refreshed_refreshRoute h₁
    obtain ⟨hrefreshed, hsettled⟩ := ih h
    refine ⟨hrefreshed₁.trans hrefreshed, fun j hj v hlt hv => ?_⟩
    rcases List.mem_cons.1 hj with rfl | hj
    · exact hrefreshed.timely v (hsettled₁ v hlt hv)
    · refine hsettled j hj v ((length_of_bare hrefreshed₁.bare).symm ▸ hlt) ?_
      rwa [route_of_bare hrefreshed₁.bare]

/-- Routes whose times of arrival are known can be refreshed one after another. -/
theorem exists_foldlM_refreshRoute (h : ∀ w, ∃ times, p.arrivals (p.route w) = .ok times) (is : List Nat) :
    ∃ p', is.foldlM (fun p i => do return (← refreshRoute p i).1) p = .ok p' := by
  induction is generalizing p with
  | nil => exact ⟨p, rfl⟩
  | cons i is ih =>
    obtain ⟨times, htimes⟩ := h i
    have h₁ : p.refreshRoute i = .ok (setAll setArrival p ((p.route i).zip (times.map some))) :=
      bind_eq_ok_iff.2 ⟨times, htimes, rfl⟩
    obtain ⟨hrefreshed₁, -⟩ := refreshed_refreshRoute h₁
    obtain ⟨p', hp'⟩ := ih fun w => by
      rw [route_of_bare hrefreshed₁.bare, arrivals_of_bare hrefreshed₁.bare]
      exact h w
    refine ⟨p', ?_⟩
    rw [List.foldlM_cons]
    exact bind_eq_ok_iff.2 ⟨_, bind_eq_ok_iff.2 ⟨_, h₁, rfl⟩, hp'⟩

/-- When arrivals are made anew every visit is timely. -/
theorem refreshed_updateAll (h : arrivalListener.updateAll p = .ok p') :
    p'.bare = p.bare ∧ p'.score = p.score ∧ (∀ v, p'.vehicleOf v = p.vehicleOf v) ∧
      ∀ v < p.visits.length, p'.Timely v := by
  set cleared : RoutePlan := { p with visits := p.visits.map fun v => { v with arrival := none } } with hcleared
  obtain ⟨hrefreshed, hsettled⟩ := refreshed_foldlM (p := cleared) h
  have hbare : cleared.bare = p.bare := by simp [hcleared, bare, Visit.bare]
  have hvehicle : ∀ v, cleared.vehicleOf v = p.vehicleOf v := fun v => by
    simp only [hcleared, vehicleOf, List.getElem?_map, Option.bind_map, Function.comp_def]
  have hnone : ∀ v, cleared.arrivalOf v = none := fun v => by
    simp only [hcleared, arrivalOf, List.getElem?_map, Option.bind_map]
    cases p.visits[v]? <;> rfl
  refine ⟨hrefreshed.bare.trans hbare, hrefreshed.score, fun v => (hrefreshed.vehicleOf v).trans (hvehicle v),
    fun v hlt => ?_⟩
  by_cases hv : ∃ w, v ∈ p.route w
  · obtain ⟨w, hv⟩ := hv
    obtain ⟨x, hx, -⟩ := mem_route.1 hv
    obtain ⟨hw, -⟩ := List.getElem?_eq_some_iff.1 hx
    refine hsettled w (List.mem_range.2 hw) v ?_ ?_
    · rwa [length_of_bare hbare]
    · rwa [route_of_bare hbare]
  · refine hrefreshed.timely v ?_
    rw [Timely, hnone]
    intro w hw
    exact hv ⟨w, route_of_bare hbare w ▸ hw⟩

/-- Shadow variables made anew await nothing. -/
theorem Planned.awaits_updateAll (hp : p.Planned) (h : RoutePlan.cascade.updateAll p = .ok p') :
    p'.Awaits ∅ ∧ p'.bare = p.bare ∧ p'.score = p.score := by
  obtain ⟨p₁, h₁, hbare₁, hscore₁, howner⟩ := hp.updateAll_vehicleListener
  simp only [ShadowCascade.updateAll, RoutePlan.cascade, List.foldlM_cons, List.foldlM_nil, bind_eq_ok_iff,
    pure_eq_ok_iff] at h
  obtain ⟨p₁', h₁', p₂, h₂, rfl⟩ := h
  rw [show vehicleEntry.listener.updateAll p = .ok p₁ from h₁] at h₁'
  cases h₁'
  obtain ⟨hbare₂, hscore₂, htells, htimely⟩ := refreshed_updateAll h₂
  have hbare := hbare₂.trans hbare₁
  have hlen₁ := length_of_bare hbare₁
  have hlen := length_of_bare hbare
  refine ⟨⟨fun v hlt => .inl ?_, fun w _ v hv => ?_, fun v hlt _ _ => ?_⟩, hbare, hscore₂.trans hscore₁⟩
  · rw [htells, howner v (hlen ▸ hlt), owner?_of_bare hbare]
  · rw [route_of_bare hbare] at hv
    exact htimely v (hlen₁.symm ▸ hp.lt_of_mem_route hv)
  · exact htimely v (hlen₁.symm ▸ hlen ▸ hlt)

/-- A plan awaits nothing exactly when making its shadow variables anew changes nothing. -/
theorem Planned.updateAll_eq_iff (hp : p.Planned) : RoutePlan.cascade.updateAll p = .ok p ↔ p.Awaits ∅ := by
  constructor
  · exact fun h => (hp.awaits_updateAll h).1
  · intro h
    obtain ⟨p₁, h₁, hbare₁, -, -⟩ := hp.updateAll_vehicleListener
    let cleared : RoutePlan := { p₁ with visits := p₁.visits.map fun v => { v with arrival := none } }
    have hbare : cleared.bare = p.bare := by
      rw [← hbare₁]
      simp [cleared, bare, Visit.bare]
    obtain ⟨p₂, h₂⟩ := exists_foldlM_refreshRoute (p := cleared) (fun w => by
      rw [route_of_bare hbare, arrivals_of_bare hbare]
      exact h.exists_arrivals hp w) (List.range p₁.vehicles.length)
    have hok : RoutePlan.cascade.updateAll p = .ok p₂ := by
      simp only [ShadowCascade.updateAll, RoutePlan.cascade, List.foldlM_cons, List.foldlM_nil, bind_eq_ok_iff,
        pure_eq_ok_iff]
      exact ⟨p₁, h₁, p₂, h₂, rfl⟩
    obtain ⟨h', hbare', hscore'⟩ := hp.awaits_updateAll hok
    rw [hok, h.eq_of_bare hp h' hbare' hscore']

end Planning.RoutePlan
