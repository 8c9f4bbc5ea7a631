import Planning.Director.Shadow
import Planning.Proofs.Checked

/-!
# What cascades change

A cascade is a chain of listeners that look at one entity each. Whatever relates the solutions before and
after a listener by the entities that it reports, and can be chained, relates those before and after a cascade
by the entities that the cascade reports.
-/

namespace Planning

open Checked

/-- The members without repetitions are gathered in front of those that were gathered before. -/
theorem mem_eraseRepsBy_loop {α : Type} [BEq α] [LawfulBEq α] {a : α} (b : α) (l acc : List α) :
    a ∈ List.eraseRepsBy.loop (· == ·) b l acc ↔ a = b ∨ a ∈ l ∨ a ∈ acc := by
  induction l generalizing b acc with
  | nil => simp [List.eraseRepsBy.loop, or_comm]
  | cons c l ih =>
    unfold List.eraseRepsBy.loop
    split
    · rename_i hbc
      obtain rfl : b = c := by simpa using hbc
      rw [ih]
      grind
    · rw [ih]
      grind

/-- The members without repetitions are the members. -/
theorem mem_eraseReps {α : Type} [BEq α] [LawfulBEq α] {a : α} {l : List α} : a ∈ l.eraseReps ↔ a ∈ l := by
  rw [List.eraseReps]
  cases l with
  | nil => rfl
  | cons b l =>
    rw [List.eraseRepsBy, mem_eraseRepsBy_loop]
    simp

/-- The entities in order are the entities. -/
theorem EntityRef.mem_sorted {x : EntityRef} {l : List EntityRef} : x ∈ sorted l ↔ x ∈ l := by
  rw [sorted, mem_eraseReps]
  exact List.mem_mergeSort

/-- One entity is in order. -/
theorem EntityRef.sorted_singleton (x : EntityRef) : sorted [x] = [x] := by
  rw [sorted, List.mergeSort_singleton]
  rfl

namespace ShadowCascade

/-- What a listener has to look at are the entities of the disturbances that concern one of its sources. -/
theorem mem_touched {S : Type} {e : ShadowEntry S} {ds : List Disturbance} {x : EntityRef} :
    x ∈ touched e ds ↔ ∃ y ∈ ds, e.sources.any y.concerns = true ∧ x ∈ y.entities := by
  rw [touched, EntityRef.mem_sorted, List.mem_flatMap]
  simp only [List.mem_filter, and_assoc]

/-- The last listener of a cascade looks at what it has to. -/
theorem exists_updateEach_of_run_singleton {S : Type} {e : ShadowEntry S} {s s' : S} {ds ds' : List Disturbance}
    (hok : run [e] s ds = .ok (s', ds')) :
    ∃ changed, updateEach e.listener s [] (touched e ds) = .ok (s', changed) := by
  obtain ⟨⟨s₁, changed⟩, h, hok⟩ := bind_eq_ok_iff.1 hok
  dsimp only at hok
  split at hok
  · cases hok
    exact ⟨changed, h⟩
  · cases hok
    exact ⟨changed, h⟩

/-- A relation between the solutions before and after some work by the entities that it reports can be
chained. -/
structure Chains {S : Type} (P : S → S → List EntityRef → Prop) : Prop where
  /-- No work reports nothing. -/
  refl : ∀ s, P s s []
  /-- Works that follow each other report what both report. -/
  trans : ∀ {s₁ s₂ s₃ xs ys}, P s₁ s₂ xs → P s₂ s₃ ys → P s₁ s₃ (xs ++ ys)
  /-- More may be reported. -/
  mono : ∀ {s₁ s₂ xs ys}, P s₁ s₂ xs → xs ⊆ ys → P s₁ s₂ ys

variable {S : Type} {P : S → S → List EntityRef → Prop}

/-- A listener that looks at entities one by one is related by what it reports. -/
theorem updateEach_induction (hP : Chains P) {l : ShadowListener S}
    (hl : ∀ s x s' changed, l.update s x = .ok (s', changed) → P s s' changed)
    {s₀ s s' : S} {xs changed changed' : List EntityRef} (h : P s₀ s changed)
    (hok : updateEach l s changed xs = .ok (s', changed')) : P s₀ s' changed' := by
  induction xs generalizing s changed with
  | nil =>
    cases hok
    exact h
  | cons x xs ih =>
    obtain ⟨⟨s₁, more⟩, h1, h2⟩ := bind_eq_ok_iff.1 hok
    exact ih (hP.trans h (hl _ _ _ _ h1)) h2

/-- The listeners of a cascade are related by what they report together. -/
theorem run_induction (hP : Chains P) {c : ShadowCascade S}
    (hc : ∀ e ∈ c, ∀ s x s' changed, e.listener.update s x = .ok (s', changed) → P s s' changed)
    {s s' : S} {ds ds' : List Disturbance} (hok : run c s ds = .ok (s', ds')) :
    ∃ more, ds' = ds ++ more ∧ P s s' (more.flatMap Disturbance.entities) := by
  induction c generalizing s ds with
  | nil =>
    cases hok
    exact ⟨[], by simp, hP.refl _⟩
  | cons e c ih =>
    obtain ⟨he, hc⟩ := List.forall_mem_cons.1 hc
    obtain ⟨⟨s₁, changed⟩, h1, hok⟩ := bind_eq_ok_iff.1 hok
    have hone : P s s₁ changed := updateEach_induction hP he (hP.refl s) h1
    dsimp only at hok
    split at hok
    · rename_i hempty
      obtain rfl := List.isEmpty_iff.1 hempty
      obtain ⟨more, hmore, hrest⟩ := ih hc hok
      exact ⟨more, hmore, hP.trans hone hrest⟩
    · obtain ⟨more, hmore, hrest⟩ := ih hc hok
      refine ⟨_ :: more, by rw [hmore, List.append_assoc, List.singleton_append], ?_⟩
      refine hP.trans (hP.mono hone fun y hy => ?_) hrest
      exact EntityRef.mem_sorted.2 hy

/-- A cascade is related by what it reports. -/
theorem cascade_induction (hP : Chains P) {c : ShadowCascade S}
    (hc : ∀ e ∈ c, ∀ s x s' changed, e.listener.update s x = .ok (s', changed) → P s s' changed)
    {s s' : S} {x : EntityRef} {index : Option Nat} {changed : List EntityRef}
    (hok : c.cascade s x index = .ok (s', changed)) : P s s' changed := by
  simp only [cascade, bind_eq_ok_iff, pure_eq_ok_iff] at hok
  obtain ⟨⟨s₁, ds⟩, hrun, hpure⟩ := hok
  cases hpure
  obtain ⟨more, rfl, h⟩ := run_induction hP hc hrun
  exact hP.mono h fun y hy => EntityRef.mem_sorted.2 hy

/-- Cascades for entities one after another; the index of the variable depends on the class. -/
def cascadeAll (c : ShadowCascade S) (index : Nat → Option Nat) (s : S) (xs : List EntityRef) : Checked S :=
  xs.foldlM (fun s x => do return (← c.cascade s x (index x.1)).1) s

/-- A first cascade and those after it. -/
theorem cascadeAll_cons_eq_ok_iff {c : ShadowCascade S} {index : Nat → Option Nat} {s s' : S} {x : EntityRef}
    {xs : List EntityRef} : c.cascadeAll index s (x :: xs) = .ok s' ↔
      ∃ s₁ changed, c.cascade s x (index x.1) = .ok (s₁, changed) ∧ c.cascadeAll index s₁ xs = .ok s' := by
  simp only [cascadeAll, List.foldlM_cons, bind_eq_ok_iff, pure_eq_ok_iff]
  constructor
  · rintro ⟨_, ⟨⟨s₁, changed⟩, h, rfl⟩, hrest⟩
    exact ⟨s₁, changed, h, hrest⟩
  · rintro ⟨s₁, changed, h, hrest⟩
    exact ⟨s₁, ⟨⟨s₁, changed⟩, h, rfl⟩, hrest⟩

/-- What no listener changes no cascades change. -/
theorem kept_cascadeAll {α : Type} {f : S → α} {c : ShadowCascade S}
    (hc : ∀ e ∈ c, ∀ s x s' changed, e.listener.update s x = .ok (s', changed) → f s' = f s)
    {index : Nat → Option Nat} {s s' : S} {xs : List EntityRef} (hok : c.cascadeAll index s xs = .ok s') :
    f s' = f s := by
  have hchains : Chains fun s s' (_ : List EntityRef) => f s' = f s :=
    ⟨fun _ => rfl, fun h h' => h'.trans h, fun h _ => h⟩
  induction xs generalizing s with
  | nil =>
    cases hok
    rfl
  | cons x xs ih =>
    obtain ⟨s₁, changed, h, hrest⟩ := cascadeAll_cons_eq_ok_iff.1 hok
    exact (ih hrest).trans (cascade_induction hchains hc h)

section Total

variable {I : S → Prop}

/-- A listener that always succeeds, looking at entities one by one, succeeds. -/
theorem exists_updateEach {l : ShadowListener S}
    (hl : ∀ s x, I s → ∃ s' changed, l.update s x = .ok (s', changed) ∧ I s') {s : S} (hs : I s)
    (changed xs : List EntityRef) : ∃ s' changed', updateEach l s changed xs = .ok (s', changed') ∧ I s' := by
  induction xs generalizing s changed with
  | nil => exact ⟨s, changed, rfl, hs⟩
  | cons x xs ih =>
    obtain ⟨s₁, more, h₁, hs₁⟩ := hl s x hs
    obtain ⟨s', changed', h', hs'⟩ := ih hs₁ (changed ++ more)
    exact ⟨s', changed', bind_eq_ok_iff.2 ⟨_, h₁, h'⟩, hs'⟩

/-- A cascade of listeners that always succeed succeeds. -/
theorem exists_cascade {c : ShadowCascade S}
    (hc : ∀ e ∈ c, ∀ s x, I s → ∃ s' changed, e.listener.update s x = .ok (s', changed) ∧ I s') {s : S}
    (hs : I s) (x : EntityRef) (index : Option Nat) :
    ∃ s' changed, c.cascade s x index = .ok (s', changed) ∧ I s' := by
  have hrun : ∀ ds, ∃ s' ds', run c s ds = .ok (s', ds') ∧ I s' := by
    induction c generalizing s with
    | nil => exact fun ds => ⟨s, ds, rfl, hs⟩
    | cons e c ih =>
      intro ds
      obtain ⟨he, hc⟩ := List.forall_mem_cons.1 hc
      obtain ⟨s₁, changed, h₁, hs₁⟩ := exists_updateEach he hs [] (touched e ds)
      by_cases hempty : changed.isEmpty = true
      · obtain ⟨s', ds', h', hs'⟩ := ih hc hs₁ ds
        exact ⟨s', ds', bind_eq_ok_iff.2 ⟨_, h₁, (if_pos hempty).trans h'⟩, hs'⟩
      · obtain ⟨s', ds', h', hs'⟩ := ih hc hs₁ _
        exact ⟨s', ds', bind_eq_ok_iff.2 ⟨_, h₁, (if_neg hempty).trans h'⟩, hs'⟩
  obtain ⟨s', ds', h', hs'⟩ := hrun [⟨x.1, index, [x]⟩]
  exact ⟨s', _, bind_eq_ok_iff.2 ⟨_, h', rfl⟩, hs'⟩

/-- Cascades of listeners that always succeed succeed. -/
theorem exists_cascadeAll {c : ShadowCascade S}
    (hc : ∀ e ∈ c, ∀ s x, I s → ∃ s' changed, e.listener.update s x = .ok (s', changed) ∧ I s')
    (index : Nat → Option Nat) {s : S} (hs : I s) (xs : List EntityRef) :
    ∃ s', c.cascadeAll index s xs = .ok s' := by
  induction xs generalizing s with
  | nil => exact ⟨s, rfl⟩
  | cons x xs ih =>
    obtain ⟨s₁, changed, h₁, hs₁⟩ := exists_cascade hc hs x (index x.1)
    obtain ⟨s', h'⟩ := ih hs₁
    exact ⟨s', cascadeAll_cons_eq_ok_iff.2 ⟨s₁, changed, h₁, h'⟩⟩

end Total

end ShadowCascade

end Planning
