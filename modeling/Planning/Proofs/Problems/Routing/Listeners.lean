import Mathlib.Data.List.Induction
import Planning.Proofs.Director.Shadow
import Planning.Proofs.Problems.Routing.Plan

/-!
# What the listeners of a plan write

Both listeners of a plan write one shadow variable of visits, visit after visit. The listener of vehicles writes
owners only. The listener of arrivals writes only times that follow from the routes, so that a visit that is
timely stays so.
-/

namespace Planning.RoutePlan

open Checked

variable {p p' p'' q : RoutePlan} {v d : Nat} {changed more : List EntityRef}

/-- A variable of visits was written, in order, and the visits that changed are among those reported. -/
structure Written {α : Type} (read : Visit → α) (erase : Visit → Visit) (p p' : RoutePlan)
    (l : List (Nat × α)) (changed : List EntityRef) : Prop where
  /-- Nothing but the variable changed. -/
  kept : { p' with visits := p'.visits.map erase } = { p with visits := p.visits.map erase }
  /-- A visit has a value that was written for it, or it stayed because there was none. -/
  written : ∀ v x, p'.visits[v]? = some x →
    (v, read x) ∈ l ∨ (∀ a, (v, a) ∉ l) ∧ p.visits[v]? = some x
  /-- A visit that changed is reported. -/
  reported : ∀ v, p'.visits[v]? ≠ p.visits[v]? → (1, v) ∈ changed
  /-- What is reported are visits for which values were written. -/
  listed : ∀ x ∈ changed, x.1 = 1 ∧ ∃ a, (x.2, a) ∈ l

namespace Written

variable {α : Type} {read : Visit → α} {erase : Visit → Visit} {l m : List (Nat × α)}

/-- Nothing was written. -/
theorem refl (p : RoutePlan) : Written read erase p p [] [] :=
  ⟨rfl, fun _ _ h => .inr ⟨fun _ => List.not_mem_nil, h⟩, fun _ h => absurd rfl h, nofun⟩

/-- Values were written, and then others. -/
theorem trans (h : Written read erase p p' l changed) (h' : Written read erase p' p'' m more) :
    Written read erase p p'' (l ++ m) (changed ++ more) where
  kept := h'.kept.trans h.kept
  written v x hx := by
    rcases h'.written v x hx with hm | ⟨hm, hx⟩
    · exact .inl (List.mem_append_right _ hm)
    · rcases h.written v x hx with hl | ⟨hl, hx⟩
      · exact .inl (List.mem_append_left _ hl)
      · exact .inr ⟨fun a ha => (List.mem_append.1 ha).elim (hl a) (hm a), hx⟩
  reported v hne := by
    by_cases hsame : p''.visits[v]? = p'.visits[v]?
    · exact List.mem_append_left _ (h.reported v (hsame ▸ hne))
    · exact List.mem_append_right _ (h'.reported v hsame)
  listed x hx := by
    rcases List.mem_append.1 hx with hx | hx
    · obtain ⟨hclass, a, ha⟩ := h.listed x hx
      exact ⟨hclass, a, List.mem_append_left _ ha⟩
    · obtain ⟨hclass, a, ha⟩ := h'.listed x hx
      exact ⟨hclass, a, List.mem_append_right _ ha⟩

/-- A visit is replaced by one that differs in the variable. -/
theorem set {x y : Visit} (hx : p.visits[v]? = some x) (herase : erase y = erase x) :
    Written read erase p { p with visits := p.visits.set v y } [(v, read y)] [(1, v)] where
  kept := by
    obtain ⟨hlt, rfl⟩ := List.getElem?_eq_some_iff.1 hx
    have hmap : (p.visits.set v y).map erase = p.visits.map erase := by
      rw [List.map_set, herase, ← List.getElem_map erase (h := by rwa [List.length_map]), List.set_getElem_self]
    rw [hmap]
  written u z hz := by
    by_cases huv : u = v
    · subst huv
      obtain ⟨hlt, -⟩ := List.getElem?_eq_some_iff.1 hx
      rw [List.getElem?_set_self hlt] at hz
      cases hz
      exact .inl (List.mem_singleton_self _)
    · rw [List.getElem?_set_ne (Ne.symm huv)] at hz
      exact .inr ⟨fun a ha => huv (Prod.mk.inj (List.mem_singleton.1 ha)).1, hz⟩
  reported u hne := by
    by_cases huv : u = v
    · rw [huv]
      exact List.mem_singleton_self _
    · exact absurd (List.getElem?_set_ne (Ne.symm huv)) hne
  listed z hz := by
    obtain rfl := List.mem_singleton.1 hz
    exact ⟨rfl, _, List.mem_singleton_self _⟩

/-- A visit that does not exist or has the value anyway stays. -/
theorem keep {a : α} (h : ∀ x, p.visits[v]? = some x → read x = a) :
    Written read erase p p [(v, a)] [] where
  kept := rfl
  written u x hx := by
    by_cases huv : u = v
    · subst huv
      exact .inl (by rw [h x hx]; exact List.mem_singleton_self _)
    · exact .inr ⟨fun a ha => huv (Prod.mk.inj (List.mem_singleton.1 ha)).1, hx⟩
  reported u hne := absurd rfl hne
  listed := nofun

/-- Values are written visit after visit. -/
theorem setAll {f : RoutePlan → Nat → α → RoutePlan × List EntityRef}
    (hf : ∀ p v a, Written read erase p (f p v a).1 [(v, a)] (f p v a).2) (p : RoutePlan)
    (l : List (Nat × α)) : Written read erase p (setAll f p l).1 l (setAll f p l).2 := by
  induction l using List.reverseRecOn with
  | nil => exact refl p
  | append_singleton l y ih =>
    have hlast : RoutePlan.setAll f p (l ++ [y]) =
        ((f (RoutePlan.setAll f p l).1 y.1 y.2).1,
          (RoutePlan.setAll f p l).2 ++ (f (RoutePlan.setAll f p l).1 y.1 y.2).2) := by
      rw [RoutePlan.setAll, List.foldl_append]
      rfl
    rw [hlast]
    exact ih.trans (hf _ y.1 y.2)

variable (h : Written read erase p p' l changed)

include h

theorem score_eq : p'.score = p.score := by
  have hscore := congrArg score h.kept
  exact hscore

/-- What does not depend on the variable is the same. -/
theorem map_eq {β : Type} {f : Visit → β} (hf : ∀ x, f (erase x) = f x) (v : Nat) :
    p'.visits[v]?.map f = p.visits[v]?.map f := by
  have hkept := congrArg (fun p => p.visits[v]?.map f) h.kept
  simp only [List.getElem?_map, Option.map_map] at hkept
  have hcomp : f ∘ erase = f := funext hf
  rwa [hcomp] at hkept

/-- What does not depend on the variable is the same, also where it may be missing. -/
theorem bind_eq {β : Type} {f : Visit → Option β} (hf : ∀ x, f (erase x) = f x) (v : Nat) :
    p'.visits[v]?.bind f = p.visits[v]?.bind f := by
  have hmap := congrArg (fun o => o.bind id) (h.map_eq hf v)
  simpa only [Option.bind_map, Function.id_comp] using hmap

/-- A visit exists when it existed. -/
theorem getElem?_eq_none (v : Nat) : p'.visits[v]? = none ↔ p.visits[v]? = none := by
  have hmap := h.map_eq (f := fun _ => ()) (fun _ => rfl) v
  rw [← Option.map_eq_none_iff, hmap, Option.map_eq_none_iff]

/-- What does not follow from the routes is the same. -/
theorem bare_eq (hbare : ∀ x : Visit, (erase x).bare = x.bare) : p'.bare = p.bare := by
  have hkept := congrArg bare h.kept
  have hcomp : Visit.bare ∘ erase = Visit.bare := funext hbare
  simpa only [bare, List.map_map, hcomp] using hkept

end Written

/-- A visit without its vehicle. -/
def withoutVehicle (x : Visit) : Visit := { x with vehicle := none }

/-- A visit without its time of arrival. -/
def withoutArrival (x : Visit) : Visit := { x with arrival := none }

theorem written_setVehicle (p : RoutePlan) (v : Nat) (a : Option Nat) :
    Written Visit.vehicle withoutVehicle p (p.setVehicle v a).1 [(v, a)] (p.setVehicle v a).2 := by
  unfold setVehicle
  split
  · rename_i hx
    exact .keep fun x hx' => absurd (hx.symm.trans hx') nofun
  · rename_i x hx
    split
    · rename_i ha
      exact .keep fun y hy => by rw [hx] at hy; cases hy; exact ha
    · exact .set hx rfl

theorem written_setArrival (p : RoutePlan) (v : Nat) (a : Option Int) :
    Written Visit.arrival withoutArrival p (p.setArrival v a).1 [(v, a)] (p.setArrival v a).2 := by
  unfold setArrival
  split
  · rename_i hx
    exact .keep fun x hx' => absurd (hx.symm.trans hx') nofun
  · rename_i x hx
    split
    · rename_i ha
      exact .keep fun y hy => by rw [hx] at hy; cases hy; exact ha
    · exact .set hx rfl

theorem exists_written_vehiclesAfterRoute (p : RoutePlan) (d : Nat) :
    ∃ l, Written Visit.vehicle withoutVehicle p (p.vehiclesAfterRoute d).1 l (p.vehiclesAfterRoute d).2 :=
  ⟨_, .setAll written_setVehicle p _⟩

theorem exists_written_refreshRoute (h : p.refreshRoute d = .ok (p', changed)) :
    ∃ l, Written Visit.arrival withoutArrival p p' l changed := by
  obtain ⟨times, -, h⟩ := bind_eq_ok_iff.1 h
  have hwritten := Written.setAll written_setArrival p ((p.route d).zip (times.map some))
  rw [pure_eq_ok_iff.1 h] at hwritten
  exact ⟨_, hwritten⟩

/-- The listener of vehicles writes owners, for the visits that say the vehicle and those on its route. -/
theorem Planned.written_vehiclesAfterRoute (hp : p.Planned) (d : Nat) :
    ∃ l, Written Visit.vehicle withoutVehicle p (p.vehiclesAfterRoute d).1 l (p.vehiclesAfterRoute d).2 ∧
      (∀ y ∈ l, y.2 = p.owner? y.1) ∧
      ∀ v, (∃ a, (v, a) ∈ l) ↔ p.vehicleOf v = some d ∨ v ∈ p.route d := by
  refine ⟨_, .setAll written_setVehicle p _, fun y hy => ?_, fun v => ?_⟩
  · rcases List.mem_append.1 hy with hy | hy
    · obtain ⟨x, -, rfl⟩ := List.mem_map.1 hy
      rfl
    · obtain ⟨v, hv, rfl⟩ := List.mem_map.1 hy
      exact (hp.owner?_eq_some_iff.2 hv).symm
  · constructor
    · rintro ⟨a, ha⟩
      rcases List.mem_append.1 ha with ha | ha
      · obtain ⟨x, hx, heq⟩ := List.mem_map.1 ha
        obtain ⟨hx, hstale⟩ := List.mem_filter.1 hx
        obtain ⟨i, hi⟩ := List.mem_iff_getElem?.1 hx
        obtain rfl : i = v := (hp.numbered i x hi).symm.trans (Prod.mk.inj heq).1
        left
        rw [vehicleOf, hi]
        exact beq_iff_eq.1 (Bool.and_eq_true_iff.1 hstale).1
      · obtain ⟨u, hu, heq⟩ := List.mem_map.1 ha
        cases heq
        exact .inr hu
    · intro hv
      by_cases hroute : v ∈ p.route d
      · exact ⟨some d, List.mem_append_right _ (List.mem_map.2 ⟨v, hroute, rfl⟩)⟩
      · obtain ⟨x, hx, hd⟩ := Option.bind_eq_some_iff.1 (hv.resolve_right hroute)
        have hid := hp.numbered v x hx
        refine ⟨p.owner? v, List.mem_append_left _ (List.mem_map.2 ⟨x, ?_, by rw [hid]⟩)⟩
        refine List.mem_filter.2 ⟨List.mem_of_getElem? hx, ?_⟩
        simp [hd, hid, hroute]

/-- What a visit says of its vehicle after the listener of vehicles looked at a route. -/
structure Reowned (p p' : RoutePlan) (d : Nat) (changed : List EntityRef) : Prop where
  /-- What does not follow from the routes is the same. -/
  bare : p'.bare = p.bare
  /-- The stored score is the same. -/
  score : p'.score = p.score
  /-- What visits say of their times of arrival is the same. -/
  arrivalOf : ∀ v, p'.arrivalOf v = p.arrivalOf v
  /-- A visit that said the vehicle or is on its route says its owner. -/
  owned : ∀ v < p.visits.length, p.vehicleOf v = some d ∨ v ∈ p.route d → p'.vehicleOf v = p.owner? v
  /-- The other visits say what they said. -/
  other : ∀ v, ¬ (p.vehicleOf v = some d ∨ v ∈ p.route d) → p'.vehicleOf v = p.vehicleOf v
  /-- A visit that says another vehicle is reported. -/
  reported : ∀ v, p'.vehicleOf v ≠ p.vehicleOf v → (1, v) ∈ changed
  /-- What is reported are visits that say their owners. -/
  listed : ∀ x ∈ changed, x.1 = 1 ∧ (x.2 < p.visits.length → p'.vehicleOf x.2 = p.owner? x.2)

/-- The listener of vehicles looks at a route. -/
theorem Planned.reowned (hp : p.Planned) (h : vehicleListener.update p (0, d) = .ok (p', changed)) :
    Reowned p p' d changed := by
  obtain ⟨l, hl, howner, hkeys⟩ := hp.written_vehiclesAfterRoute d
  have heq : p.vehiclesAfterRoute d = (p', changed) := Except.ok.inj h
  rw [heq] at hl
  dsimp only at hl
  have hlen : p'.visits.length = p.visits.length := length_of_bare (hl.bare_eq fun _ => rfl)
  have howned : ∀ v < p.visits.length, p.vehicleOf v = some d ∨ v ∈ p.route d →
      p'.vehicleOf v = p.owner? v := by
    intro v hv hd
    obtain ⟨a, ha⟩ := (hkeys v).2 hd
    have hx := List.getElem?_eq_getElem (hlen.symm ▸ hv)
    rcases hl.written v _ hx with hmem | ⟨hmem, -⟩
    · rw [vehicleOf, hx]
      exact howner _ hmem
    · exact absurd ha (hmem a)
  have hother : ∀ v, ¬ (p.vehicleOf v = some d ∨ v ∈ p.route d) → p'.visits[v]? = p.visits[v]? := by
    intro v hd
    cases hx : p'.visits[v]? with
    | none => exact ((hl.getElem?_eq_none v).1 hx).symm
    | some x =>
      rcases hl.written v x hx with hmem | ⟨-, hsame⟩
      · exact absurd ((hkeys v).1 ⟨_, hmem⟩) hd
      · exact hsame.symm
  exact {
    bare := hl.bare_eq fun _ => rfl
    score := hl.score_eq
    arrivalOf := hl.bind_eq fun _ => rfl
    owned := howned
    other := fun v hd => by rw [vehicleOf, vehicleOf, hother v hd]
    reported := fun v hne => hl.reported v fun hsame => hne (by rw [vehicleOf, vehicleOf, hsame])
    listed := fun x hx => by
      obtain ⟨hclass, a, ha⟩ := hl.listed x hx
      exact ⟨hclass, fun hlt => howned x.2 hlt ((hkeys x.2).1 ⟨a, ha⟩)⟩ }

/-- What visits say of their arrivals after the listener of arrivals looked at something. -/
structure Refreshed (p p' : RoutePlan) : Prop where
  /-- What does not follow from the routes is the same. -/
  bare : p'.bare = p.bare
  /-- The stored score is the same. -/
  score : p'.score = p.score
  /-- What visits say of their vehicles is the same. -/
  vehicleOf : ∀ v, p'.vehicleOf v = p.vehicleOf v
  /-- A visit that is timely stays so. -/
  timely : ∀ v, p.Timely v → p'.Timely v

theorem Refreshed.refl (p : RoutePlan) : Refreshed p p := ⟨rfl, rfl, fun _ => rfl, fun _ h => h⟩

theorem Refreshed.trans (h : Refreshed p p') (h' : Refreshed p' p'') : Refreshed p p'' where
  bare := h'.bare.trans h.bare
  score := h'.score.trans h.score
  vehicleOf v := (h'.vehicleOf v).trans (h.vehicleOf v)
  timely v hv := h'.timely v (h.timely v hv)

/-- Times that follow from the routes keep visits timely and make those timely for which they are written. -/
theorem Written.refreshed {l : List (Nat × Option Int)} (h : Written Visit.arrival withoutArrival p p' l changed)
    (hl : ∀ y ∈ l, p.Due y.1 y.2) :
    Refreshed p p' ∧ ∀ v < p.visits.length, (∃ a, (v, a) ∈ l) → p'.Timely v := by
  have hbare : p'.bare = p.bare := h.bare_eq fun _ => rfl
  have hwritten : ∀ v x, p'.visits[v]? = some x → (v, x.arrival) ∈ l → p'.Timely v := by
    intro v x hx hmem
    have hdue := (due_of_bare hbare).2 (hl _ hmem)
    rw [Timely, arrivalOf, hx]
    exact hdue
  refine ⟨⟨hbare, h.score_eq, h.bind_eq fun _ => rfl, fun v hv => ?_⟩, ?_⟩
  · cases hx : p'.visits[v]? with
    | none =>
      have hx' := (h.getElem?_eq_none v).1 hx
      exact hv.of_bare hbare (by rw [arrivalOf, arrivalOf, hx, hx'])
    | some x =>
      rcases h.written v x hx with hmem | ⟨-, hsame⟩
      · exact hwritten v x hx hmem
      · exact hv.of_bare hbare (by rw [arrivalOf, arrivalOf, hx, hsame])
  · rintro v hlt ⟨a, ha⟩
    have hx := List.getElem?_eq_getElem ((length_of_bare hbare).symm ▸ hlt)
    rcases h.written v _ hx with hmem | ⟨hmem, -⟩
    · exact hwritten v _ hx hmem
    · exact absurd ha (hmem a)

/-- Refreshing a route makes its visits timely. -/
theorem refreshed_refreshRoute (h : p.refreshRoute d = .ok (p', changed)) :
    Refreshed p p' ∧ ∀ v < p.visits.length, v ∈ p.route d → p'.Timely v := by
  obtain ⟨times, htimes, h⟩ := bind_eq_ok_iff.1 h
  have heq := pure_eq_ok_iff.1 h
  have hwritten := Written.setAll written_setArrival p ((p.route d).zip (times.map some))
  rw [heq] at hwritten
  rw [List.zip_map_right] at hwritten
  obtain ⟨hrefreshed, hsettled⟩ := hwritten.refreshed fun y hy => by
    obtain ⟨z, hz, rfl⟩ := List.mem_map.1 hy
    exact ⟨d, times, htimes, hz⟩
  refine ⟨hrefreshed, fun v hlt hv => hsettled v hlt ?_⟩
  obtain ⟨a, ha⟩ := exists_reached htimes hv
  exact ⟨some a, List.mem_map.2 ⟨_, ha, rfl⟩⟩

/-- The listener of arrivals looks at a visit for the sake of it, or at a vehicle for that of its route. -/
def Concerns (p : RoutePlan) (x : EntityRef) (v : Nat) : Prop :=
  x = (1, v) ∨ x.1 = 0 ∧ v ∈ p.route x.2

/-- The listener of arrivals makes timely what it looks at, provided that a visit says its owner. -/
theorem Planned.refreshed_update (hp : p.Planned) {x : EntityRef}
    (hx : x.1 = 1 → x.2 < p.visits.length → p.vehicleOf x.2 = p.owner? x.2)
    (h : arrivalListener.update p x = .ok (p', changed)) :
    Refreshed p p' ∧ ∀ v < p.visits.length, p.Concerns x v → p'.Timely v := by
  obtain ⟨c, i⟩ := x
  match c, hx with
  | 0, _ =>
    obtain ⟨hrefreshed, hroute⟩ := refreshed_refreshRoute h
    refine ⟨hrefreshed, fun v hlt hv => hroute v hlt ?_⟩
    rcases hv with heq | ⟨-, hv⟩
    · exact absurd (Prod.mk.inj heq).1 nofun
    · exact hv
  | 1, hx =>
    have hself : ∀ v, p.Concerns (1, i) v → i = v := fun v hv =>
      hv.elim (fun heq => (Prod.mk.inj heq).2) fun hv => absurd hv.1 nofun
    simp only [arrivalListener] at h
    split at h
    · rename_i hnone
      cases h
      refine ⟨.refl p, fun v hlt hv => ?_⟩
      obtain rfl := hself v hv
      exact absurd hlt (Nat.not_lt.2 (List.getElem?_eq_none_iff.1 hnone))
    · rename_i y hy
      obtain ⟨hi, -⟩ := List.getElem?_eq_some_iff.1 hy
      have hvehicle : y.vehicle = p.owner? i := by
        rw [← hx rfl hi, vehicleOf, hy]
        rfl
      split at h
      · rename_i w hw
        obtain ⟨hrefreshed, hroute⟩ := refreshed_refreshRoute h
        refine ⟨hrefreshed, fun v hlt hv => hroute v hlt ?_⟩
        rw [← hself v hv]
        exact hp.owner?_eq_some_iff.1 (hvehicle.symm.trans hw)
      · rename_i hw
        have heq : p.setArrival i none = (p', changed) := Except.ok.inj h
        have hwritten := written_setArrival p i none
        rw [heq] at hwritten
        obtain ⟨hrefreshed, hsettled⟩ := hwritten.refreshed fun z hz => by
          obtain rfl := List.mem_singleton.1 hz
          exact hp.owner?_eq_none_iff.1 (hvehicle.symm.trans hw)
        refine ⟨hrefreshed, fun v hlt hv => hsettled v hlt ⟨none, ?_⟩⟩
        rw [hself v hv]
        exact List.mem_singleton_self _
  | n + 2, _ =>
    cases h
    exact ⟨.refl p, fun v _ hv => absurd hv (by simp [Concerns])⟩

/-- The listener of arrivals makes timely all that it looks at. -/
theorem Planned.refreshed_updateEach (hp : p.Planned) {xs : List EntityRef}
    (hxs : ∀ x ∈ xs, x.1 = 1 → x.2 < p.visits.length → p.vehicleOf x.2 = p.owner? x.2)
    (h : ShadowCascade.updateEach arrivalListener p changed xs = .ok (p', more)) :
    Refreshed p p' ∧ ∀ x ∈ xs, ∀ v < p.visits.length, p.Concerns x v → p'.Timely v := by
  induction xs generalizing p changed with
  | nil =>
    cases h
    exact ⟨.refl _, nofun⟩
  | cons x xs ih =>
    obtain ⟨⟨p₁, changed₁⟩, h₁, h⟩ := bind_eq_ok_iff.1 h
    obtain ⟨hx, hxs⟩ := List.forall_mem_cons.1 hxs
    obtain ⟨hrefreshed₁, hsettled₁⟩ := hp.refreshed_update hx h₁
    have hlen := length_of_bare hrefreshed₁.bare
    obtain ⟨hrefreshed, hsettled⟩ := ih (hp.of_bare hrefreshed₁.bare) (fun y hy hclass hlt => by
      rw [hrefreshed₁.vehicleOf, owner?_of_bare hrefreshed₁.bare]
      exact hxs y hy hclass (hlen ▸ hlt)) h
    refine ⟨hrefreshed₁.trans hrefreshed, fun y hy v hlt hv => ?_⟩
    rcases List.mem_cons.1 hy with rfl | hy
    · exact hrefreshed.timely v (hsettled₁ v hlt hv)
    · refine hsettled y hy v (hlen.symm ▸ hlt) ?_
      rwa [Concerns, route_of_bare hrefreshed₁.bare]

end Planning.RoutePlan
