import Mathlib.Algebra.GroupWithZero.Nat
import Mathlib.Data.Option.Basic
import Mathlib.Data.Set.Insert
import Planning.Proofs.Descriptor
import Planning.Proofs.Director.Shadow

/-!
# What cascades keep up

A shadow variable follows from the variables that it is derived from, at some entities. A cascade runs the
listeners in the order of the shadow variables, so each of them finds whatever it depends on as it will stay.
What differs from the solution before the change is accounted for by the disturbances, and a listener that
none of them wakes finds everything that it depends on as it was. So the cascade leaves every shadow variable
as it follows from the others, unless the change itself wrote over it.
-/

namespace Planning

open Checked

namespace EntityRef

variable {x y z : EntityRef}

theorem le_iff : le x y = true ↔ x.1 < y.1 ∨ x.1 = y.1 ∧ x.2 ≤ y.2 := by
  simp [le]

theorem le_trans (hxy : le x y = true) (hyz : le y z = true) : le x z = true := by
  rw [le_iff] at *
  omega

theorem le_antisymm (hxy : le x y = true) (hyx : le y x = true) : x = y := by
  rw [le_iff] at *
  ext <;> omega

/-- What is in order has no repetitions once the repetitions that stand together are left out. -/
theorem nodup_eraseRepsBy_loop {l acc : List EntityRef}
    (hl : (x :: l).Pairwise fun a b => le a b = true)
    (hacc : (x :: acc).Pairwise fun a b => le b a = true ∧ b ≠ a) :
    (List.eraseRepsBy.loop (· == ·) x l acc).Nodup := by
  induction l generalizing x acc with
  | nil =>
    rw [List.eraseRepsBy.loop, List.nodup_reverse]
    exact hacc.imp fun h => h.2.symm
  | cons y l ih =>
    obtain ⟨hx, hl⟩ := List.pairwise_cons.1 hl
    unfold List.eraseRepsBy.loop
    split
    · rename_i hxy
      obtain rfl : x = y := by simpa using hxy
      exact ih hl hacc
    · rename_i hxy
      have hne : x ≠ y := by simpa using hxy
      apply ih hl
      refine List.pairwise_cons.2 ⟨?_, hacc⟩
      intro z hz
      have hxy := hx y List.mem_cons_self
      rcases List.mem_cons.1 hz with rfl | hz
      · exact ⟨hxy, hne⟩
      · have hzx := ((List.pairwise_cons.1 hacc).1 z hz).1
        refine ⟨le_trans hzx hxy, ?_⟩
        rintro rfl
        exact hne (le_antisymm hxy hzx)

/-- The entities in order are listed once. -/
theorem nodup_sorted (l : List EntityRef) : (sorted l).Nodup := by
  have hsorted : (l.mergeSort le).Pairwise fun a b => le a b = true := by
    apply List.pairwise_mergeSort
    · exact fun a b c hab hbc => le_trans hab hbc
    · intro a b
      rw [Bool.or_eq_true, le_iff, le_iff]
      omega
  rw [sorted, List.eraseReps]
  cases h : l.mergeSort le with
  | nil => exact List.nodup_nil
  | cons x l =>
    rw [h] at hsorted
    exact nodup_eraseRepsBy_loop hsorted (List.pairwise_singleton _ _)

end EntityRef

/-- How the shadow variables of the entities of a problem follow from other variables. -/
structure Derivation (S V : Type) where
  /-- The number of entities of a class. -/
  count : S → Nat → Nat
  /-- The value of a variable of an entity of its class. -/
  value : S → VariableKey → Nat → V
  /-- The entities that a shadow variable of an entity is derived from. -/
  reads : VariableKey → Nat → Set EntityRef
  /-- What a shadow variable of an entity is when all variables have given values. -/
  derive : VariableKey → Nat → (VariableKey → Nat → V) → V

namespace Derivation

variable {S V : Type} {D : Derivation S V} {d : SolutionDescriptor} {k : VariableKey}

/-- A shadow variable of an entity is a function of its declared sources at the entities that it reads. -/
def Local (D : Derivation S V) (d : SolutionDescriptor) : Prop :=
  ∀ k, d.IsShadow k → ∀ j f g,
    (∀ source ∈ d.sourceKeys k, ∀ i, (source.entity, i) ∈ D.reads k j → f source i = g source i) →
      D.derive k j f = D.derive k j g

/-- A shadow variable of an entity is what follows from the other variables. -/
def Correct (D : Derivation S V) (s : S) (k : VariableKey) (j : Nat) : Prop :=
  D.value s k j = D.derive k j (D.value s)

/-- Solutions differ in a variable of an entity, or in any of its variables if none is named. -/
structure Altered (D : Derivation S V) (x : EntityRef) (index : Option Nat) (s s' : S) : Prop where
  /-- There are as many entities as before. -/
  count : D.count s' = D.count s
  /-- Other variables and the variables of other entities are as before. -/
  value : ∀ key j, D.value s' key j ≠ D.value s key j → (key.entity, j) = x ∧ ∀ i ∈ index, key.index = i

/-- A shadow variable is recomputed wherever it reads one of some entities, and the entities where it changed
are reported. -/
structure Refreshed (D : Derivation S V) (k : VariableKey) (xs : Set EntityRef) (s s' : S)
    (changed : List EntityRef) : Prop where
  /-- There are as many entities as before. -/
  count : D.count s' = D.count s
  /-- What reads one of the entities is recomputed. -/
  derived : ∀ j < D.count s k.entity, (∃ x ∈ xs, x ∈ D.reads k j) → D.value s' k j = D.derive k j (D.value s)
  /-- Everything else is as before. -/
  kept : ∀ key j, (key = k → j < D.count s k.entity → ∀ x ∈ xs, x ∉ D.reads k j) →
    D.value s' key j = D.value s key j
  /-- The entities whose shadow variable changed are reported, and no others. -/
  reported : ∀ y, y ∈ changed ↔
    y.1 = k.entity ∧ y.2 < D.count s k.entity ∧ D.value s' k y.2 ≠ D.value s k y.2

/-- A listener recomputes a shadow variable wherever it reads the entity that is looked at. -/
def Refreshes (D : Derivation S V) (k : VariableKey) (update : S → EntityRef → Checked (S × List EntityRef)) :
    Prop :=
  ∀ s x, ∃ s' changed, update s x = .ok (s', changed) ∧ D.Refreshed k {x} s s' changed

namespace Refreshed

variable {xs ys : Set EntityRef} {s s₁ s₂ : S} {l l' : List EntityRef}

/-- Nothing is looked at. -/
theorem refl (s : S) : D.Refreshed k ∅ s s [] where
  count := rfl
  derived := fun _ _ ⟨x, hx, _⟩ => absurd hx (Set.notMem_empty x)
  kept := fun _ _ _ => rfl
  reported := by simp

/-- Other variables are as before. -/
theorem kept_of_ne (h : D.Refreshed k xs s s₁ l) {key : VariableKey} (hne : key ≠ k) :
    D.value s₁ key = D.value s key := by
  ext j
  exact h.kept key j fun heq => absurd heq hne

/-- A value that changed is one of the shadow variable, and its entity is reported. -/
theorem mem_of_ne (h : D.Refreshed k xs s s₁ l) {key : VariableKey} {j : Nat}
    (hne : D.value s₁ key j ≠ D.value s key j) : key = k ∧ (k.entity, j) ∈ l := by
  have hkey : key = k := by
    by_contra hno
    exact hne (congrFun (h.kept_of_ne hno) j)
  subst hkey
  refine ⟨rfl, (h.reported _).2 ⟨rfl, ?_, hne⟩⟩
  by_contra hlt
  exact hne (h.kept key j fun _ hj => absurd hj hlt)

/-- What is recomputed where other entities are looked at is recomputed to the same when it follows from
the same. -/
theorem trans (h₁ : D.Refreshed k xs s s₁ l) (h₂ : D.Refreshed k ys s₁ s₂ l')
    (hsame : ∀ j, D.derive k j (D.value s₁) = D.derive k j (D.value s)) :
    D.Refreshed k (xs ∪ ys) s s₂ (l ++ l') := by
  have hcount := h₁.count
  -- What the first look recomputed the second recomputes to the same or leaves alone.
  have hagain : ∀ j < D.count s k.entity, (∃ x ∈ xs, x ∈ D.reads k j) → D.value s₂ k j = D.value s₁ k j := by
    intro j hj hread
    by_cases hread' : ∃ x ∈ ys, x ∈ D.reads k j
    · rw [h₂.derived j (hcount ▸ hj) hread', hsame, h₁.derived j hj hread]
    · exact h₂.kept k j fun _ _ x hx hxj => hread' ⟨x, hx, hxj⟩
  refine ⟨h₂.count.trans hcount, ?_, ?_, ?_⟩
  · rintro j hj ⟨x, hx | hx, hxj⟩
    · rw [hagain j hj ⟨x, hx, hxj⟩]
      exact h₁.derived j hj ⟨x, hx, hxj⟩
    · rw [h₂.derived j (hcount ▸ hj) ⟨x, hx, hxj⟩, hsame]
  · intro key j hnone
    rw [h₂.kept key j fun hk hj x hx => hnone hk (hcount ▸ hj) x (.inr hx),
      h₁.kept key j fun hk hj x hx => hnone hk hj x (.inl hx)]
  · intro y
    rw [List.mem_append, h₁.reported, h₂.reported, hcount]
    constructor
    · rintro (⟨hy, hlt, hne⟩ | ⟨hy, hlt, hne⟩)
      · have hread : ∃ x ∈ xs, x ∈ D.reads k y.2 := by
          by_contra hno
          exact hne (h₁.kept k y.2 fun _ _ x hx hxj => hno ⟨x, hx, hxj⟩)
        rw [hagain y.2 hlt hread]
        exact ⟨hy, hlt, hne⟩
      · refine ⟨hy, hlt, fun heq => ?_⟩
        by_cases hread : ∃ x ∈ xs, x ∈ D.reads k y.2
        · exact hne (hagain y.2 hlt hread)
        · rw [← h₁.kept k y.2 fun _ _ x hx hxj => hread ⟨x, hx, hxj⟩] at heq
          exact hne heq
    · rintro ⟨hy, hlt, hne⟩
      by_cases heq : D.value s₁ k y.2 = D.value s k y.2
      · rw [← heq] at hne
        exact .inr ⟨hy, hlt, hne⟩
      · exact .inl ⟨hy, hlt, heq⟩

end Refreshed

/-- What follows from the declared sources follows from solutions in which these are the same. -/
theorem Local.derive_eq (hlocal : D.Local d) {k' : VariableKey} (hk' : d.IsShadow k') {s s' : S}
    (hkept : ∀ key, key ≠ k → D.value s' key = D.value s key) (hnot : k ∉ d.sourceKeys k') (j : Nat) :
    D.derive k' j (D.value s') = D.derive k' j (D.value s) := by
  apply hlocal k' hk'
  intro source hsource i _
  rw [hkept source fun heq => hnot (heq ▸ hsource)]

/-- A listener that looks at entities one by one recomputes the shadow variable wherever it reads one of
them. -/
theorem Refreshes.updateEach {l : ShadowListener S} (hl : D.Refreshes k l.update) (hlocal : D.Local d)
    (hk : d.IsShadow k) (hnot : k ∉ d.sourceKeys k) (s : S) (changed xs : List EntityRef) :
    ∃ s' more, ShadowCascade.updateEach l s changed xs = .ok (s', changed ++ more) ∧
      D.Refreshed k {x | x ∈ xs} s s' more := by
  induction xs generalizing s changed with
  | nil =>
    refine ⟨s, [], by rw [List.append_nil]; rfl, ?_⟩
    simpa using Refreshed.refl s
  | cons x xs ih =>
    obtain ⟨s₁, first, hok₁, h₁⟩ := hl s x
    obtain ⟨s₂, more, hok₂, h₂⟩ := ih s₁ (changed ++ first)
    refine ⟨s₂, first ++ more, ?_, ?_⟩
    · rw [← List.append_assoc]
      exact bind_eq_ok_iff.2 ⟨_, hok₁, hok₂⟩
    · have hboth := h₁.trans h₂ (hlocal.derive_eq hk (fun _ hne => h₁.kept_of_ne hne) hnot)
      convert hboth using 1
      ext y
      simp

/-- A disturbance concerns a variable that a shadow variable of an entity is derived from. -/
def Wakes (D : Derivation S V) (d : SolutionDescriptor) (y : Disturbance) (k : VariableKey) (j : Nat) : Prop :=
  ∃ source ∈ d.sourceKeys k, y.concerns source = true ∧ ∃ x ∈ y.entities, x ∈ D.reads k j

/-- An entry of a cascade keeps up a shadow variable from its declared sources. -/
structure Fits (D : Derivation S V) (d : SolutionDescriptor) (e : ShadowEntry S) : Prop where
  /-- It is a shadow variable. -/
  shadow : d.IsShadow e.target
  /-- The sources are the declared ones. -/
  sources : e.sources = d.sourceKeys e.target
  /-- The listener recomputes the shadow variable. -/
  refreshes : D.Refreshes e.target e.listener.update

/-- A change is followed up for some shadow variables: they are what follows from the other variables, the
others are as the change left them, and the disturbances account for all that is not as it was before. -/
structure Progress (D : Derivation S V) (d : SolutionDescriptor) (first : Disturbance) (s₀ s₁ : S)
    (done : List VariableKey) (s : S) (ds : List Disturbance) : Prop where
  /-- There are as many entities as before. -/
  count : D.count s = D.count s₀
  /-- A disturbance tells of each variable that is not as it was before the change. -/
  accounts : ∀ key j, D.value s key j ≠ D.value s₀ key j →
    ∃ y ∈ ds, y.concerns key = true ∧ (key.entity, j) ∈ y.entities
  /-- A shadow variable follows from the others unless the change only wrote over it. -/
  correct : ∀ k ∈ done, ∀ j < D.count s₀ k.entity,
    D.value s₁ k j = D.value s₀ k j ∨ D.Wakes d first k j → D.Correct s k j
  /-- Other variables are as the change left them. -/
  rest : ∀ key ∉ done, D.value s key = D.value s₁ key
  /-- The first disturbance is the change, and the others tell of the shadow variables that differ. -/
  reported : ∃ more, ds = first :: more ∧ ∀ y, y ∈ more.flatMap Disturbance.entities ↔
    ∃ k ∈ done, y.1 = k.entity ∧ y.2 < D.count s₀ k.entity ∧ D.value s k y.2 ≠ D.value s₁ k y.2

/-- What a cascade knows after a listener: the disturbances so far and the one that the listener reports. -/
def disturbedBy (e : ShadowEntry S) (changed : List EntityRef) (ds : List Disturbance) : List Disturbance :=
  if changed.isEmpty then ds
  else ds ++ [⟨e.target.entity, some e.target.index, EntityRef.sorted changed⟩]

namespace Progress

variable {first : Disturbance} {s₀ s₁ s s' : S} {done : List VariableKey} {ds : List Disturbance}
  {e : ShadowEntry S} {changed : List EntityRef}

/-- The new disturbance, if there is one, tells of what the listener reports. -/
theorem exists_disturbedBy (e : ShadowEntry S) (changed : List EntityRef) (ds : List Disturbance) :
    ∃ extra, disturbedBy e changed ds = ds ++ extra ∧
      (∀ x, x ∈ extra.flatMap Disturbance.entities ↔ x ∈ changed) ∧
      ∀ y ∈ extra, y.concerns e.target = true := by
  unfold disturbedBy
  split
  · rename_i hempty
    rw [List.isEmpty_iff.1 hempty]
    exact ⟨[], by simp, by simp, by simp⟩
  · refine ⟨[_], rfl, fun x => ?_, fun y hy => ?_⟩
    · rw [List.flatMap_singleton]
      exact EntityRef.mem_sorted
    · rw [List.mem_singleton.1 hy]
      simp [Disturbance.concerns]

/-- What a shadow variable reads differs from what it was before the change only where the listener looks. -/
theorem derive_eq (h : D.Progress d first s₀ s₁ done s ds) (he : D.Fits d e) (hlocal : D.Local d) {j : Nat}
    (hunread : ¬ ∃ x ∈ ShadowCascade.touched e ds, x ∈ D.reads e.target j) :
    D.derive e.target j (D.value s) = D.derive e.target j (D.value s₀) := by
  apply hlocal e.target he.shadow
  intro source hsource i hread
  by_contra hne
  obtain ⟨y, hy, hconcerns, hmem⟩ := h.accounts source i hne
  have hwoken : e.sources.any y.concerns = true := List.any_eq_true.2 ⟨source, he.sources ▸ hsource, hconcerns⟩
  exact hunread ⟨_, ShadowCascade.mem_touched.2 ⟨y, hy, hwoken, hmem⟩, hread⟩

/-- A listener that is woken by the change looks at what woke it. -/
theorem exists_touched (h : D.Progress d first s₀ s₁ done s ds) (he : D.Fits d e) {j : Nat}
    (hwakes : D.Wakes d first e.target j) : ∃ x ∈ ShadowCascade.touched e ds, x ∈ D.reads e.target j := by
  obtain ⟨source, hsource, hconcerns, x, hx, hread⟩ := hwakes
  obtain ⟨more, rfl, -⟩ := h.reported
  have hwoken : e.sources.any first.concerns = true :=
    List.any_eq_true.2 ⟨source, he.sources ▸ hsource, hconcerns⟩
  exact ⟨x, ShadowCascade.mem_touched.2 ⟨first, List.mem_cons_self, hwoken, hx⟩, hread⟩

/-- A listener runs: its shadow variable is followed up too. -/
theorem step (h : D.Progress d first s₀ s₁ done s ds) (he : D.Fits d e) (hlocal : D.Local d)
    (hcorrect : ∀ k, d.IsShadow k → ∀ j < D.count s₀ k.entity, D.Correct s₀ k j)
    (hdone : ∀ k ∈ done, d.IsShadow k) (hfresh : e.target ∉ done)
    (hnot : ∀ k ∈ done ++ [e.target], e.target ∉ d.sourceKeys k)
    (hrun : D.Refreshed e.target {x | x ∈ ShadowCascade.touched e ds} s s' changed) :
    D.Progress d first s₀ s₁ (done ++ [e.target]) s' (disturbedBy e changed ds) := by
  have hkept : ∀ key, key ≠ e.target → D.value s' key = D.value s key := fun _ hne => hrun.kept_of_ne hne
  have hsame : ∀ k ∈ done ++ [e.target], ∀ j, D.derive k j (D.value s') = D.derive k j (D.value s) := by
    intro k hk j
    apply hlocal.derive_eq _ hkept (hnot k hk)
    rcases List.mem_append.1 hk with hk | hk
    · exact hdone k hk
    · cases List.mem_singleton.1 hk
      exact he.shadow
  obtain ⟨extra, hextra, hreports, hconcerns⟩ := exists_disturbedBy e changed ds
  rw [hextra]
  refine ⟨hrun.count.trans h.count, ?accounts, ?correct, ?rest, ?reported⟩
  case accounts =>
    intro key j hne
    by_cases heq : D.value s' key j = D.value s key j
    · rw [heq] at hne
      obtain ⟨y, hy, hrest⟩ := h.accounts key j hne
      exact ⟨y, List.mem_append_left _ hy, hrest⟩
    · obtain ⟨rfl, hmem⟩ := hrun.mem_of_ne heq
      obtain ⟨y, hy, hmem⟩ := List.mem_flatMap.1 ((hreports _).2 hmem)
      exact ⟨y, List.mem_append_right _ hy, hconcerns y hy, hmem⟩
  case correct =>
    intro k hk j hj hspared
    rw [Correct, hsame k hk]
    rcases List.mem_append.1 hk with hk | hk
    · rw [hkept k fun heq => hfresh (heq ▸ hk)]
      exact h.correct k hk j hj hspared
    · cases List.mem_singleton.1 hk
      by_cases hread : ∃ x ∈ ShadowCascade.touched e ds, x ∈ D.reads e.target j
      · exact hrun.derived j (h.count ▸ hj) hread
      · have hbefore : D.value s₁ e.target j = D.value s₀ e.target j :=
          hspared.resolve_right fun hwakes => hread (h.exists_touched he hwakes)
        calc D.value s' e.target j = D.value s e.target j :=
              hrun.kept e.target j fun _ _ x hx hxj => hread ⟨x, hx, hxj⟩
          _ = D.value s₁ e.target j := congrFun (h.rest e.target hfresh) j
          _ = D.value s₀ e.target j := hbefore
          _ = D.derive e.target j (D.value s₀) := hcorrect e.target he.shadow j hj
          _ = D.derive e.target j (D.value s) := (h.derive_eq he hlocal hread).symm
  case rest =>
    intro key hkey
    rw [List.mem_append, List.mem_singleton, not_or] at hkey
    rw [hkept key hkey.2, h.rest key hkey.1]
  case reported =>
    obtain ⟨more, rfl, hmore⟩ := h.reported
    refine ⟨more ++ extra, rfl, fun y => ?_⟩
    rw [List.flatMap_append, List.mem_append, hmore, hreports, hrun.reported, h.count, h.rest e.target hfresh]
    constructor
    · rintro (⟨k, hk, hrest⟩ | hrest)
      · rw [← hkept k fun heq => hfresh (heq ▸ hk)] at hrest
        exact ⟨k, List.mem_append_left _ hk, hrest⟩
      · exact ⟨e.target, List.mem_append_right _ List.mem_cons_self, hrest⟩
    · rintro ⟨k, hk, hrest⟩
      rcases List.mem_append.1 hk with hk | hk
      · rw [hkept k fun heq => hfresh (heq ▸ hk)] at hrest
        exact .inl ⟨k, hk, hrest⟩
      · cases List.mem_singleton.1 hk
        exact .inr hrest

/-- The listeners that are left run one after another. -/
theorem run {v : ValidatedDescriptor} (hsorts : d.Sorts v) (hlocal : D.Local d)
    (hcorrect : ∀ k, d.IsShadow k → ∀ j < D.count s₀ k.entity, D.Correct s₀ k j)
    {es : List (ShadowEntry S)} (hes : ∀ e ∈ es, D.Fits d e)
    (horder : v.shadowOrder = done ++ es.map ShadowEntry.target) (h : D.Progress d first s₀ s₁ done s ds) :
    ∃ s' ds', ShadowCascade.run es s ds = .ok (s', ds') ∧
      D.Progress d first s₀ s₁ v.shadowOrder s' ds' := by
  induction es generalizing done s ds with
  | nil =>
    rw [List.map_nil, List.append_nil] at horder
    exact ⟨s, ds, rfl, horder ▸ h⟩
  | cons e es ih =>
    obtain ⟨he, hes⟩ := List.forall_mem_cons.1 hes
    rw [List.map_cons] at horder
    obtain ⟨hfresh, hnot⟩ := hsorts.not_mem horder
    have hdone : ∀ k ∈ done, d.IsShadow k := by
      intro k hk
      rw [← hsorts.mem_iff, horder]
      exact List.mem_append_left _ hk
    have hself := hnot e.target (List.mem_append_right _ List.mem_cons_self)
    obtain ⟨s₂, changed, hok, hrun⟩ :=
      he.refreshes.updateEach hlocal he.shadow hself s [] (ShadowCascade.touched e ds)
    have hstep := h.step he hlocal hcorrect hdone hfresh hnot hrun
    rw [List.append_cons] at horder
    obtain ⟨s', ds', hrest, hend⟩ := ih hes horder hstep
    refine ⟨s', ds', bind_eq_ok_iff.2 ⟨_, hok, ?_⟩, hend⟩
    rw [← hrest, disturbedBy]
    exact (apply_ite (ShadowCascade.run es s₂) _ _ _).symm

/-- A change is where following up starts. -/
theorem start {x : EntityRef} {index : Option Nat} (h : D.Altered x index s₀ s₁) :
    D.Progress d ⟨x.1, index, [x]⟩ s₀ s₁ [] s₁ [⟨x.1, index, [x]⟩] where
  count := h.count
  accounts := by
    intro key j hne
    obtain ⟨rfl, hindex⟩ := h.value key j hne
    refine ⟨_, List.mem_cons_self, ?_, List.mem_cons_self⟩
    cases index with
    | none => simp [Disturbance.concerns]
    | some i => simp [Disturbance.concerns, hindex i rfl]
  correct := by simp
  rest := fun _ _ => rfl
  reported := ⟨[], rfl, by simp⟩

end Progress

/-- There is one listener for each declared shadow variable, and it recomputes it. -/
structure Keeps (D : Derivation S V) (d : SolutionDescriptor) (listeners : List (ShadowListener S)) : Prop where
  /-- The shadow variables of the listeners are the declared ones, each once. -/
  targets : (listeners.map fun l => d.variableKey? l.target.entity l.target.name).Perm (d.shadowKeys.map some)
  /-- Each listener recomputes its shadow variable. -/
  refreshes : ∀ l ∈ listeners, ∀ k, d.variableKey? l.target.entity l.target.name = some k →
    D.Refreshes k l.update

end Derivation

namespace ShadowCascade

variable {S V : Type} {D : Derivation S V} {v : ValidatedDescriptor} {k : VariableKey}

/-- A listener of a shadow variable has its place and its sources. -/
theorem entryOf_eq {l : ShadowListener S} (hkey : v.variableKey? l.target.entity l.target.name = some k)
    (hk : v.IsShadow k) : entryOf v l = .ok ⟨k, v.sourceKeys k, l⟩ := by
  obtain ⟨x, hx, hkind⟩ := hk
  rw [entryOf, hkey]
  simp only [hx, hkind, SolutionDescriptor.sourceKeys]
  rfl

/-- The place of a shadow variable in the order of the shadow variables; other variables come last. -/
def place (v : ValidatedDescriptor) (k : VariableKey) : Nat :=
  (v.shadowOrder.findIdx? (· = k)).getD v.shadowOrder.length

/-- The place of a shadow variable is its position in the order. -/
theorem place_getElem (hnodup : v.shadowOrder.Nodup) {i : Nat} (hi : i < v.shadowOrder.length) :
    place v v.shadowOrder[i] = i := by
  have hfind : v.shadowOrder.findIdx? (· = v.shadowOrder[i]) = some i := by
    refine List.findIdx?_eq_some_iff_getElem.2 ⟨hi, by simp, fun j hj heq => ?_⟩
    have hij : j = i := (hnodup.getElem_inj_iff).1 (of_decide_eq_true heq)
    omega
  rw [place, hfind, Option.getD_some]

/-- The shadow variables stand in the order of their places. -/
theorem pairwise_place (hnodup : v.shadowOrder.Nodup) :
    v.shadowOrder.Pairwise fun a b => place v a ≤ place v b := by
  rw [List.pairwise_iff_getElem]
  intro i j hi hj hij
  rw [place_getElem hnodup hi, place_getElem hnodup hj]
  omega

/-- Shadow variables at the same place are the same. -/
theorem place_inj (hnodup : v.shadowOrder.Nodup) {a b : VariableKey} (ha : a ∈ v.shadowOrder)
    (hb : b ∈ v.shadowOrder) (h : place v a = place v b) : a = b := by
  obtain ⟨i, hi, rfl⟩ := List.getElem_of_mem ha
  obtain ⟨j, hj, rfl⟩ := List.getElem_of_mem hb
  rw [place_getElem hnodup hi, place_getElem hnodup hj] at h
  subst h
  rfl

/-- Entries of all shadow variables, each once, are in order when they are sorted by their places. -/
theorem map_target_mergeSort (hsorts : v.Sorts v) {entries : List (ShadowEntry S)}
    (hperm : (entries.map ShadowEntry.target).Perm v.shadowKeys) :
    (entries.mergeSort fun a b => decide (rank v a ≤ rank v b)).map ShadowEntry.target = v.shadowOrder := by
  have hkeys : v.shadowKeys.Perm v.shadowOrder := by
    apply (List.perm_ext_iff_of_nodup (SolutionDescriptor.nodup_shadowKeys _) hsorts.nodup).2
    intro a
    rw [SolutionDescriptor.mem_shadowKeys, hsorts.mem_iff]
  have hsorted : ((entries.mergeSort fun a b => decide (rank v a ≤ rank v b)).map ShadowEntry.target).Perm
      v.shadowOrder := ((List.mergeSort_perm _ _).map _).trans (hperm.trans hkeys)
  have hpairwise : (entries.mergeSort fun a b => decide (rank v a ≤ rank v b)).Pairwise
      fun a b => decide (rank v a ≤ rank v b) = true := by
    apply List.pairwise_mergeSort
    · intro a b c hab hbc
      rw [decide_eq_true_eq] at *
      omega
    · intro a b
      rw [Bool.or_eq_true, decide_eq_true_eq, decide_eq_true_eq]
      omega
  have hplaced : (entries.mergeSort fun a b => decide (rank v a ≤ rank v b)).map ShadowEntry.target |>.Pairwise
      fun a b => place v a ≤ place v b := List.pairwise_map.2 (hpairwise.imp of_decide_eq_true)
  refine hsorted.eq_of_pairwise (fun a b ha hb hab hba => ?_) hplaced (pairwise_place hsorts.nodup)
  exact place_inj hsorts.nodup (hsorted.subset ha) hb (Nat.le_antisymm hab hba)

/-- Listeners of shadow variables have their places and their sources. -/
theorem exists_entries {listeners : List (ShadowListener S)} {p : ShadowEntry S → Prop}
    (h : ∀ l ∈ listeners, ∃ k, v.variableKey? l.target.entity l.target.name = some k ∧ v.IsShadow k ∧
      p ⟨k, v.sourceKeys k, l⟩) :
    ∃ entries, listeners.mapM (entryOf v) = .ok entries ∧
      (entries.map ShadowEntry.target).map some =
        listeners.map (fun l => v.variableKey? l.target.entity l.target.name) ∧ ∀ e ∈ entries, p e := by
  induction listeners with
  | nil => exact ⟨[], rfl, rfl, by simp⟩
  | cons l ls ih =>
    obtain ⟨⟨k, hkey, hk, hp⟩, hls⟩ := List.forall_mem_cons.1 h
    obtain ⟨entries, hok, hmap, hall⟩ := ih hls
    refine ⟨⟨k, v.sourceKeys k, l⟩ :: entries, ?_, ?_, List.forall_mem_cons.2 ⟨hp, hall⟩⟩
    · rw [List.mapM_cons, entryOf_eq hkey hk, hok]
      rfl
    · rw [List.map_cons, List.map_cons, List.map_cons, hmap, hkey]

/-- The listeners of all shadow variables make up a cascade in the order of the shadow variables. -/
theorem exists_ofListeners {listeners : List (ShadowListener S)}
    (hkeeps : D.Keeps v.toSolutionDescriptor listeners) (hsorts : v.Sorts v) :
    ∃ c : ShadowCascade S, ofListeners v listeners = .ok c ∧ c.map ShadowEntry.target = v.shadowOrder ∧
      ∀ e ∈ c, D.Fits v.toSolutionDescriptor e := by
  have hone : ∀ l ∈ listeners, ∃ k, v.variableKey? l.target.entity l.target.name = some k ∧ v.IsShadow k ∧
      D.Fits v.toSolutionDescriptor ⟨k, v.sourceKeys k, l⟩ := by
    intro l hl
    obtain ⟨k, hk, hkey⟩ := List.mem_map.1 (hkeeps.targets.subset (List.mem_map.2 ⟨l, hl, rfl⟩))
    have hshadow := SolutionDescriptor.mem_shadowKeys.1 hk
    exact ⟨k, hkey.symm, hshadow, hshadow, rfl, hkeeps.refreshes l hl k hkey.symm⟩
  obtain ⟨entries, hentries, hkeys, hfits⟩ := exists_entries hone
  refine ⟨_, bind_eq_ok_iff.2 ⟨entries, hentries, rfl⟩, map_target_mergeSort hsorts ?_, ?_⟩
  · apply (List.map_perm_map_iff (Option.some_injective _)).1
    rw [hkeys]
    exact hkeeps.targets
  · intro e he
    exact hfits e (List.mem_mergeSort.1 he)

/-- After a change of one variable of an entity, or of any of its variables if none is named, a cascade of
listeners that keep up all shadow variables leaves each of them as it follows from the others, unless the
change wrote over it and concerns nothing that it is derived from. The entities that it reports are those
where a shadow variable changed, each once. -/
theorem cascade_completes {d : SolutionDescriptor} (hv : d.validate = .ok v) (hlocal : D.Local d)
    {listeners : List (ShadowListener S)} (hkeeps : D.Keeps d listeners) {s₀ s₁ : S}
    (hcorrect : ∀ k, d.IsShadow k → ∀ j < D.count s₀ k.entity, D.Correct s₀ k j) {x : EntityRef}
    {index : Option Nat} (haltered : D.Altered x index s₀ s₁) :
    ∃ c s₂ changed, ofListeners v listeners = .ok c ∧ c.cascade s₁ x index = .ok (s₂, changed) ∧
      D.count s₂ = D.count s₀ ∧
      (∀ key, ¬ d.IsShadow key → ∀ j, D.value s₂ key j = D.value s₁ key j) ∧
      (∀ k, d.IsShadow k → ∀ j < D.count s₀ k.entity,
        D.value s₁ k j = D.value s₀ k j ∨ D.Wakes d ⟨x.1, index, [x]⟩ k j → D.Correct s₂ k j) ∧
      changed.Nodup ∧
      ∀ y, y ∈ changed ↔ ∃ k, d.IsShadow k ∧ y.1 = k.entity ∧ y.2 < D.count s₀ k.entity ∧
        D.value s₂ k y.2 ≠ D.value s₁ k y.2 := by
  have hsorts := SolutionDescriptor.sorts_of_validate hv
  obtain rfl := hsorts.same
  obtain ⟨c, hc, horder, hfits⟩ := exists_ofListeners hkeeps hsorts
  obtain ⟨s₂, ds, hrun, hend⟩ := Derivation.Progress.start haltered |>.run hsorts hlocal hcorrect hfits horder.symm
  obtain ⟨more, rfl, hmore⟩ := hend.reported
  refine ⟨c, s₂, _, hc, bind_eq_ok_iff.2 ⟨_, hrun, rfl⟩, hend.count, ?_, ?_, EntityRef.nodup_sorted _, ?_⟩
  · intro key hkey j
    rw [hend.rest key fun hmem => hkey ((hsorts.mem_iff key).1 hmem)]
  · intro k hk j hj hspared
    exact hend.correct k ((hsorts.mem_iff k).2 hk) j hj hspared
  · intro y
    rw [EntityRef.mem_sorted, List.drop_one, List.tail_cons, hmore]
    simp only [hsorts.mem_iff]

/-- A change that concerns nothing that anything is derived from wakes no listener. -/
theorem cascade_of_unconcerned {c : ShadowCascade S} {x : EntityRef} {index : Option Nat} (s : S)
    (h : ∀ e ∈ c, ∀ source ∈ e.sources, Disturbance.concerns ⟨x.1, index, [x]⟩ source = false) :
    c.cascade s x index = .ok (s, []) := by
  have hrun : run c s [⟨x.1, index, [x]⟩] = .ok (s, [⟨x.1, index, [x]⟩]) := by
    induction c with
    | nil => rfl
    | cons e c ih =>
      obtain ⟨he, hc⟩ := List.forall_mem_cons.1 h
      have htouched : touched e [⟨x.1, index, [x]⟩] = [] := by
        rw [List.eq_nil_iff_forall_not_mem]
        intro y hy
        obtain ⟨z, hz, hany, -⟩ := mem_touched.1 hy
        cases List.mem_singleton.1 hz
        obtain ⟨source, hsource, hconcerns⟩ := List.any_eq_true.1 hany
        exact Bool.false_ne_true ((he source hsource).symm.trans hconcerns)
      rw [run, htouched]
      exact ih hc
  rw [cascade, hrun]
  simp only [bind, Except.bind, pure, Except.pure, List.drop_one, List.tail_cons, List.flatMap_nil,
    EntityRef.sorted, List.mergeSort_nil]
  rfl

section Schedule

open SolutionDescriptor

/-- The values of the variables of stops. -/
abbrev StopTable := VariableKey → Nat → Nat

/-- Three stops: a stop is reached when all stops before it are served, it is left when it is served too, and
it is late by what its departure is after the second hour. -/
def scheduled : Derivation StopTable Nat where
  count := fun _ i => if i = 0 then 3 else 0
  value := fun s => s
  reads := fun _ j => {x | x.1 = 0 ∧ x.2 ≤ j}
  derive := fun k j f =>
    if k.index = 3 then ((List.range j).map (f ⟨0, 2⟩)).sum
    else if k.index = 1 then f ⟨0, 3⟩ j + f ⟨0, 2⟩ j
    else f ⟨0, 1⟩ j - 2

/-- The stops served in given times. -/
def served (service : Nat → Nat) : StopTable := fun k j =>
  if k.index = 3 then ((List.range j).map service).sum
  else if k.index = 2 then service j
  else if k.index = 1 then ((List.range j).map service).sum + service j
  else ((List.range j).map service).sum + service j - 2

/-- A value of the first stop is written over. -/
def writeFirst (s : StopTable) (k : VariableKey) (n : Nat) : StopTable := fun key j =>
  if key = k ∧ j = 0 then n else s key j

/-- The listener of a variable of stops looks at the stop and those after it. -/
def stopListener (name : String) (k : VariableKey) : ShadowListener StopTable where
  target := ⟨"Stop", name⟩
  update := fun s x =>
    let s' : StopTable := fun key j =>
      if key = k ∧ j < 3 ∧ x.1 = 0 ∧ x.2 ≤ j then scheduled.derive k j s else s key j
    .ok (s', ((List.range 3).filter fun j => s' k j ≠ s k j).map fun j => (0, j))
  updateAll := fun s => .ok fun key j => if key = k ∧ j < 3 then scheduled.derive k j s else s key j

/-- The listeners of the shadow variables of stops. -/
def stopListeners : List (ShadowListener StopTable) :=
  [stopListener "departure" ⟨0, 1⟩, stopListener "late" ⟨0, 0⟩, stopListener "arrival" ⟨0, 3⟩]

/-- The listener of a variable of stops recomputes it wherever it reads the stop that is looked at. -/
theorem refreshes_stopListener (name : String) {k : VariableKey} (hk : k.entity = 0) :
    scheduled.Refreshes k (stopListener name k).update := by
  have hcount : ∀ s : StopTable, scheduled.count s k.entity = 3 := fun s => if_pos hk
  intro s x
  refine ⟨_, _, rfl, rfl, ?_, ?_, ?_⟩
  · rintro j hj ⟨_, rfl, hread⟩
    rw [hcount] at hj
    exact if_pos ⟨rfl, hj, hread⟩
  · intro key j hnone
    rw [hcount] at hnone
    exact if_neg fun ⟨hkey, hj, hread⟩ => hnone hkey hj x rfl hread
  · rintro ⟨i, j⟩
    rw [hcount, hk, List.mem_map]
    constructor
    · rintro ⟨j, hj, heq⟩
      cases heq
      rw [List.mem_filter, List.mem_range, decide_eq_true_eq] at hj
      exact ⟨rfl, hj⟩
    · rintro ⟨rfl, hj⟩
      refine ⟨j, ?_, rfl⟩
      rwa [List.mem_filter, List.mem_range, decide_eq_true_eq]

/-- The shadow variables of stops are the lateness, the departure and the arrival. -/
theorem eq_of_isShadow_schedule {k : VariableKey} (hk : schedule.IsShadow k) :
    k = ⟨0, 0⟩ ∨ k = ⟨0, 1⟩ ∨ k = ⟨0, 3⟩ := by
  have hkeys : schedule.shadowKeys = [⟨0, 0⟩, ⟨0, 1⟩, ⟨0, 3⟩] := rfl
  rw [← SolutionDescriptor.mem_shadowKeys, hkeys] at hk
  simpa using hk

/-- The shadow variables of stops follow from their declared sources. -/
theorem local_scheduled : scheduled.Local schedule := by
  intro k hk j f g hsame
  rcases eq_of_isShadow_schedule hk with rfl | rfl | rfl
  · change f ⟨0, 1⟩ j - 2 = g ⟨0, 1⟩ j - 2
    rw [hsame ⟨0, 1⟩ (by decide +kernel) j ⟨rfl, le_rfl⟩]
  · change f ⟨0, 3⟩ j + f ⟨0, 2⟩ j = g ⟨0, 3⟩ j + g ⟨0, 2⟩ j
    rw [hsame ⟨0, 3⟩ (by decide +kernel) j ⟨rfl, le_rfl⟩, hsame ⟨0, 2⟩ (by decide +kernel) j ⟨rfl, le_rfl⟩]
  · change ((List.range j).map (f ⟨0, 2⟩)).sum = ((List.range j).map (g ⟨0, 2⟩)).sum
    congr 1
    apply List.map_congr_left
    intro i hi
    exact hsame ⟨0, 2⟩ (by decide +kernel) i ⟨rfl, (List.mem_range.1 hi).le⟩

/-- There is a listener for each shadow variable of stops. -/
theorem keeps_stopListeners : scheduled.Keeps schedule stopListeners where
  targets := by decide +kernel
  refreshes := by
    intro l hl k hk
    simp only [stopListeners, List.mem_cons, List.not_mem_nil, or_false] at hl
    rcases hl with rfl | rfl | rfl
    · obtain rfl : (⟨0, 1⟩ : VariableKey) = k := Option.some.inj hk
      exact refreshes_stopListener "departure" rfl
    · obtain rfl : (⟨0, 0⟩ : VariableKey) = k := Option.some.inj hk
      exact refreshes_stopListener "late" rfl
    · obtain rfl : (⟨0, 3⟩ : VariableKey) = k := Option.some.inj hk
      exact refreshes_stopListener "arrival" rfl

/-- The times of stops that are served in given times are right. -/
theorem correct_served (service : Nat → Nat) :
    ∀ k, schedule.IsShadow k → ∀ j, scheduled.Correct (served service) k j := by
  intro k hk j
  rcases eq_of_isShadow_schedule hk with rfl | rfl | rfl
  · rfl
  · rfl
  · rfl

/-- Only the variable of the first stop that is written over differs. -/
theorem altered_writeFirst (s : StopTable) {k : VariableKey} (hk : k.entity = 0) (n : Nat) :
    scheduled.Altered (0, 0) (some k.index) s (writeFirst s k n) where
  count := rfl
  value := by
    intro key j hne
    have hwritten : key = k ∧ j = 0 := by
      by_contra hno
      exact hne (if_neg hno)
    obtain ⟨rfl, rfl⟩ := hwritten
    rw [hk]
    exact ⟨rfl, fun i hi => Option.some.inj hi⟩

/-- When the service at the first stop takes longer, the arrivals, the departures and the lateness at all stops
follow. -/
theorem cascade_completes_schedule :
    schedule.validate = .ok orderedSchedule ∧ scheduled.Local schedule ∧
      scheduled.Keeps schedule stopListeners ∧
      scheduled.Altered (0, 0) (some 2) (served fun _ => 1) (writeFirst (served fun _ => 1) ⟨0, 2⟩ 4) ∧
      ∃ c s changed, ofListeners orderedSchedule stopListeners = .ok c ∧
        c.cascade (writeFirst (served fun _ => 1) ⟨0, 2⟩ 4) (0, 0) (some 2) = .ok (s, changed) ∧
        (∀ k, schedule.IsShadow k → ∀ j < 3, scheduled.Correct s k j) ∧ changed.Nodup := by
  have hvalid : schedule.validate = .ok orderedSchedule := rfl
  have haltered := altered_writeFirst (served fun _ => 1) (k := ⟨0, 2⟩) rfl 4
  obtain ⟨c, s, changed, hc, hcascade, -, -, hcorrect, hnodup, -⟩ :=
    cascade_completes hvalid local_scheduled keeps_stopListeners
      (fun k hk j _ => correct_served _ k hk j) haltered
  refine ⟨hvalid, local_scheduled, keeps_stopListeners, haltered, c, s, changed, hc, hcascade, ?_, hnodup⟩
  intro k hk j hj
  rcases eq_of_isShadow_schedule hk with rfl | rfl | rfl
  · exact hcorrect _ hk j hj (.inl rfl)
  · exact hcorrect _ hk j hj (.inl rfl)
  · exact hcorrect _ hk j hj (.inl rfl)

/-- A lateness that is written over stays as it is written, as no variable that it is derived from changed. -/
theorem cascade_leaves_written_over :
    schedule.validate = .ok orderedSchedule ∧ scheduled.Local schedule ∧
      scheduled.Keeps schedule stopListeners ∧
      (∀ k, schedule.IsShadow k → ∀ j, scheduled.Correct (served fun _ => 1) k j) ∧
      scheduled.Altered (0, 0) (some 0) (served fun _ => 1) (writeFirst (served fun _ => 1) ⟨0, 0⟩ 7) ∧
      schedule.IsShadow ⟨0, 0⟩ ∧
      ∃ c s changed, ofListeners orderedSchedule stopListeners = .ok c ∧
        c.cascade (writeFirst (served fun _ => 1) ⟨0, 0⟩ 7) (0, 0) (some 0) = .ok (s, changed) ∧
        ¬ scheduled.Correct s ⟨0, 0⟩ 0 := by
  have hvalid : schedule.validate = .ok orderedSchedule := rfl
  have hlate : schedule.IsShadow ⟨0, 0⟩ := ⟨_, rfl, rfl⟩
  have hconcerns : ∀ k ∈ schedule.shadowKeys, ∀ source ∈ schedule.sourceKeys k,
      Disturbance.concerns ⟨0, some 0, [(0, 0)]⟩ source = false := by
    decide +kernel
  obtain ⟨c, hc, -, hfits⟩ :=
    exists_ofListeners (v := orderedSchedule) keeps_stopListeners (SolutionDescriptor.sorts_of_validate hvalid)
  have haltered := altered_writeFirst (served fun _ => 1) (k := ⟨0, 0⟩) rfl 7
  have hstale : ¬ scheduled.Correct (writeFirst (served fun _ => 1) ⟨0, 0⟩ 7) ⟨0, 0⟩ 0 := by
    rw [Derivation.Correct]
    decide
  refine ⟨hvalid, local_scheduled, keeps_stopListeners, correct_served _, haltered, hlate, c, _, [], hc,
    cascade_of_unconcerned _ ?_, hstale⟩
  intro e he source hsource
  rw [(hfits e he).sources] at hsource
  exact hconcerns e.target (SolutionDescriptor.mem_shadowKeys.2 (hfits e he).shadow) source hsource

end Schedule

end ShadowCascade

end Planning
