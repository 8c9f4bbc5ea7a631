import Mathlib.Data.List.Chain
import Mathlib.Data.List.Nodup
import Mathlib.Data.List.Perm.Subperm
import Mathlib.Logic.Relation
import Planning.Descriptor.Validation
import Planning.Proofs.Checked

/-!
# The order of shadow variables

A depth-first search along the sources of the shadow variables goes down a path on which each variable is
derived from the next. Whatever it has put in order stays in order: each variable stands after the shadow
variables it is derived from. So the search ends with all shadow variables in order, or it meets a variable
again on the path that leads to it, and then no order exists.
-/

namespace Planning

open Checked

namespace ShadowDependency

variable {deps : List ShadowDependency}

/-- A shadow variable is derived from another. -/
def Step (deps : List ShadowDependency) (a b : VariableKey) : Prop :=
  isShadow deps a = true ∧ isShadow deps b = true ∧ b ∈ sourcesOf deps a

/-- Shadow variables of which each comes once, after the shadow variables it is derived from. -/
structure Ordered (deps : List ShadowDependency) (l : List VariableKey) : Prop where
  /-- No variable comes twice. -/
  nodup : l.Nodup
  /-- All of them are shadow variables. -/
  shadows : ∀ a ∈ l, isShadow deps a = true
  /-- What a variable is derived from comes before it. -/
  after : ∀ l₁ a l₂, l = l₁ ++ a :: l₂ → ∀ b, Step deps a b → b ∈ l₁

namespace Ordered

variable {l : List VariableKey} {a : VariableKey}

theorem nil : Ordered deps [] where
  nodup := List.nodup_nil
  shadows := by simp
  after := by simp

/-- A shadow variable is put in order once everything it is derived from is. -/
theorem snoc (h : Ordered deps l) (ha : isShadow deps a = true) (hfresh : a ∉ l)
    (hbefore : ∀ b ∈ sourcesOf deps a, isShadow deps b = true → b ∈ l) : Ordered deps (l ++ [a]) where
  nodup := by
    rw [← List.concat_eq_append]
    exact List.Nodup.concat hfresh h.nodup
  shadows := by
    intro b hb
    rcases List.mem_append.1 hb with hb | hb
    · exact h.shadows b hb
    · rwa [List.mem_singleton.1 hb]
  after := by
    intro l₁ c l₂ heq b hcb
    rcases List.eq_nil_or_concat l₂ with rfl | ⟨l₂, d, rfl⟩
    · -- The variable is the last one.
      obtain ⟨rfl, hca⟩ := List.append_inj' heq rfl
      cases hca
      exact hbefore b hcb.2.2 hcb.2.1
    · rw [List.concat_eq_append, ← List.cons_append, ← List.append_assoc] at heq
      obtain ⟨rfl, -⟩ := List.append_inj' heq rfl
      exact h.after l₁ c l₂ rfl b hcb

/-- What a variable is derived from by any number of steps comes before it. -/
theorem mem_of_transGen (h : Ordered deps l) {b : VariableKey} (hab : Relation.TransGen (Step deps) a b)
    {l₁ l₂ : List VariableKey} (hl : l = l₁ ++ a :: l₂) : b ∈ l₁ := by
  induction hab with
  | single hab => exact h.after l₁ a l₂ hl _ hab
  | tail _ hbc ih =>
    obtain ⟨m₁, m₂, rfl⟩ := List.append_of_mem ih
    rw [List.append_assoc, List.cons_append] at hl
    exact List.mem_append_left _ (h.after m₁ _ _ hl _ hbc)

/-- No variable is derived from itself when all shadow variables are in order. -/
theorem acyclic (h : Ordered deps l) (hall : ∀ a, isShadow deps a = true → a ∈ l) :
    ¬ Relation.TransGen (Step deps) a a := by
  intro haa
  obtain ⟨b, hab, -⟩ := Relation.TransGen.head'_iff.1 haa
  obtain ⟨l₁, l₂, rfl⟩ := List.append_of_mem (hall a hab.1)
  have hmem : a ∈ l₁ := h.mem_of_transGen haa rfl
  exact (List.nodup_append.1 h.nodup).2.2 a hmem a List.mem_cons_self rfl

end Ordered

/-- Variables of which each is derived from the next, the last one being the first again. -/
def Circle (deps : List ShadowDependency) (cycle : List VariableKey) : Prop :=
  ∃ a l, cycle = a :: (l ++ [a]) ∧ List.IsChain (Step deps) cycle

/-- The first variable of a path is derived from the last. -/
theorem transGen_of_isChain {a b : VariableKey} {l : List VariableKey}
    (h : List.IsChain (Step deps) (a :: (l ++ [b]))) : Relation.TransGen (Step deps) a b := by
  induction l generalizing a with
  | nil => exact .single (List.isChain_pair.1 h)
  | cons c l ih =>
    obtain ⟨hac, hrest⟩ := List.isChain_cons_cons.1 h
    exact .head hac (ih hrest)

/-- The first variable of a circle is derived from itself. -/
theorem Circle.transGen {cycle : List VariableKey} (h : Circle deps cycle) :
    ∃ a, Relation.TransGen (Step deps) a a := by
  obtain ⟨a, l, rfl, hchain⟩ := h
  exact ⟨a, transGen_of_isChain hchain⟩

/-- A variable met again on the path that leads to it closes a circle. -/
theorem circle_of_mem {path : List VariableKey} {key : VariableKey}
    (hchain : List.IsChain (Step deps) (path ++ [key])) (hmem : key ∈ path) :
    Circle deps (path.dropWhile (· ≠ key) ++ [key]) := by
  obtain ⟨l₁, l₂, rfl, hfirst⟩ := List.eq_append_cons_of_mem hmem
  have hdrop : (l₁ ++ key :: l₂).dropWhile (· ≠ key) = key :: l₂ := by
    rw [List.dropWhile_append_of_pos]
    · simp
    · intro a ha
      simpa using fun heq : a = key => hfirst (heq ▸ ha)
  rw [hdrop]
  refine ⟨key, l₂, rfl, hchain.suffix ⟨l₁, ?_⟩⟩
  simp

/-- The search comes back with more variables in order, among them those it was sent for and none of those
on the path, or with a circle. -/
def Outcome (deps : List ShadowDependency) (path done keys : List VariableKey) :
    Except (List VariableKey) (List VariableKey) → Prop
  | .ok done' => Ordered deps done' ∧ done ⊆ done' ∧ (∀ k ∈ keys, isShadow deps k = true → k ∈ done') ∧
      ∀ a ∈ path, a ∉ done'
  | .error cycle => Circle deps cycle

/-- Variables are searched one after another. -/
theorem outcome_foldlM {path keys : List VariableKey}
    {search : List VariableKey → VariableKey → Except (List VariableKey) (List VariableKey)}
    (hsearch : ∀ done, ∀ k ∈ keys, Ordered deps done → (∀ a ∈ path, a ∉ done) →
      Outcome deps path done [k] (search done k))
    {done : List VariableKey} (hdone : Ordered deps done) (havoid : ∀ a ∈ path, a ∉ done) :
    Outcome deps path done keys (keys.foldlM search done) := by
  induction keys generalizing done with
  | nil => exact ⟨hdone, List.Subset.refl _, by simp, havoid⟩
  | cons k keys ih =>
    have hk := hsearch done k List.mem_cons_self hdone havoid
    rw [List.foldlM_cons]
    cases heq : search done k with
    | error cycle =>
      rw [heq] at hk
      exact hk
    | ok done₁ =>
      rw [heq] at hk
      obtain ⟨hdone₁, hsub₁, hhas₁, havoid₁⟩ := hk
      have hrest := ih (fun done c hc => hsearch done c (List.mem_cons_of_mem k hc)) hdone₁ havoid₁
      change Outcome deps path done (k :: keys) (keys.foldlM search done₁)
      cases heq₂ : keys.foldlM search done₁ with
      | error cycle =>
        rw [heq₂] at hrest
        exact hrest
      | ok done₂ =>
        rw [heq₂] at hrest
        obtain ⟨hdone₂, hsub₂, hhas₂, havoid₂⟩ := hrest
        refine ⟨hdone₂, List.Subset.trans hsub₁ hsub₂, ?_, havoid₂⟩
        intro c hc hshadow
        rcases List.mem_cons.1 hc with rfl | hc
        · exact hsub₂ (hhas₁ c List.mem_cons_self hshadow)
        · exact hhas₂ c hc hshadow

/-- A path of shadow variables without repetition is not longer than the list of all of them. -/
theorem length_le_of_nodup {path : List VariableKey} (hpath : path.Nodup)
    (hshadows : ∀ a ∈ path, isShadow deps a = true) : path.length ≤ deps.length := by
  have hsub : path ⊆ deps.map ShadowDependency.shadow := by
    intro a ha
    obtain ⟨dep, hdep, heq⟩ := List.any_eq_true.1 (hshadows a ha)
    exact List.mem_map.2 ⟨dep, hdep, by simpa using heq⟩
  calc path.length ≤ (deps.map ShadowDependency.shadow).length := (hpath.subperm hsub).length_le
    _ = deps.length := List.length_map _

/-- The search sent for one variable. The path that leads to the variable has no repetition, so the depth
that is left always suffices. -/
theorem outcome_visit {depth : Nat} {path done : List VariableKey} {key : VariableKey}
    (hdepth : depth + path.length = deps.length + 1) (hpath : path.Nodup)
    (hshadows : ∀ a ∈ path, isShadow deps a = true)
    (hchain : isShadow deps key = true → List.IsChain (Step deps) (path ++ [key]))
    (hdone : Ordered deps done) (havoid : ∀ a ∈ path, a ∉ done) :
    Outcome deps path done [key] (visit deps depth path done key) := by
  induction depth generalizing path done key with
  | zero =>
    have hlength := length_le_of_nodup hpath hshadows
    omega
  | succ depth ih =>
    rw [visit]
    split
    · rename_i hskip
      refine ⟨hdone, List.Subset.refl _, ?_, havoid⟩
      intro k hk hshadow
      cases List.mem_singleton.1 hk
      simpa [hshadow] using hskip
    · rename_i hskip
      have hkey : isShadow deps key = true := by
        by_contra hno
        simp [hno] at hskip
      have hfresh : key ∉ done := by
        intro hmem
        simp [hmem] at hskip
      split
      · rename_i hagain
        exact circle_of_mem (hchain hkey) (by simpa using hagain)
      · rename_i hnew
        have hnew : key ∉ path := by simpa using hnew
        have hsources : Outcome deps (path ++ [key]) done (sourcesOf deps key)
            ((sourcesOf deps key).foldlM (visit deps depth (path ++ [key])) done) := by
          apply outcome_foldlM _ hdone
          · intro a ha
            rcases List.mem_append.1 ha with ha | ha
            · exact havoid a ha
            · rwa [List.mem_singleton.1 ha]
          · intro done' source hsource hdone' havoid'
            apply ih _ _ _ _ hdone' havoid'
            · rw [List.length_append, List.length_singleton]
              omega
            · rw [← List.concat_eq_append]
              exact List.Nodup.concat hnew hpath
            · intro a ha
              rcases List.mem_append.1 ha with ha | ha
              · exact hshadows a ha
              · rwa [List.mem_singleton.1 ha]
            · intro hshadow
              rw [List.append_assoc]
              exact List.isChain_append_cons_cons.2
                ⟨hchain hkey, ⟨hkey, hshadow, hsource⟩, List.isChain_singleton source⟩
        cases heq : (sourcesOf deps key).foldlM (visit deps depth (path ++ [key])) done with
        | error cycle =>
          rw [heq] at hsources
          exact hsources
        | ok done' =>
          rw [heq] at hsources
          obtain ⟨hdone', hsub, hhas, havoid'⟩ := hsources
          have hlast : key ∉ done' := havoid' key (List.mem_append_right _ List.mem_cons_self)
          refine ⟨hdone'.snoc hkey hlast hhas, List.subset_append_of_subset_left _ hsub, ?_, ?_⟩
          · intro k hk _
            exact List.mem_append_right _ hk
          · intro a ha hmem
            rcases List.mem_append.1 hmem with hmem | hmem
            · exact havoid' a (List.mem_append_left _ ha) hmem
            · exact hnew (List.mem_singleton.1 hmem ▸ ha)

/-- The search for all shadow variables puts all of them in order, or it meets a circle. -/
theorem outcome_order (deps : List ShadowDependency) :
    Outcome deps [] [] (deps.map ShadowDependency.shadow) (order deps) := by
  apply outcome_foldlM _ Ordered.nil (by simp)
  intro done key _ hdone havoid
  exact outcome_visit (by simp) List.nodup_nil (by simp) (fun _ => List.isChain_singleton key) hdone havoid

end ShadowDependency

namespace SolutionDescriptor

variable {d : SolutionDescriptor} {a b : VariableKey}

/-- The place is that of a shadow variable. -/
def IsShadow (d : SolutionDescriptor) (a : VariableKey) : Prop :=
  ∃ v, d.variableAt? a = some v ∧ v.kind = .shadow

/-- The places of the sources that a variable declares, one for each source that names a variable. -/
def sourceKeys (d : SolutionDescriptor) (a : VariableKey) : List VariableKey :=
  (((d.variableAt? a).map VariableDescriptor.sources).getD []).filterMap fun s =>
    d.variableKey? s.entity s.name

/-- Each source that a shadow variable declares names a variable. -/
def Resolves (d : SolutionDescriptor) : Prop :=
  ∀ a v, d.variableAt? a = some v → v.kind = .shadow → ∀ s ∈ v.sources,
    ∃ b, d.variableKey? s.entity s.name = some b

/-- A shadow variable is derived from another. -/
def Depends (d : SolutionDescriptor) (a b : VariableKey) : Prop :=
  d.IsShadow a ∧ d.IsShadow b ∧ b ∈ d.sourceKeys a

/-- No shadow variable is derived from itself, directly or through others. -/
def Acyclic (d : SolutionDescriptor) : Prop := ∀ a, ¬ Relation.TransGen d.Depends a a

/-- A valid description lists the shadow variables of a description in order and knows what is derived from
each variable. -/
structure Sorts (d : SolutionDescriptor) (v : ValidatedDescriptor) : Prop where
  /-- It is the same description. -/
  same : v.toSolutionDescriptor = d
  /-- No shadow variable is listed twice. -/
  nodup : v.shadowOrder.Nodup
  /-- All shadow variables are listed, and no others. -/
  mem_iff : ∀ a, a ∈ v.shadowOrder ↔ d.IsShadow a
  /-- A shadow variable comes after all shadow variables that it is derived from. -/
  after : ∀ l a r, v.shadowOrder = l ++ a :: r → ∀ b, d.Depends a b → b ∈ l
  /-- Only shadow variables are derived from others. -/
  shadow_of_mem : ∀ a b, a ∈ v.dependents b → d.IsShadow a
  /-- A shadow variable is derived from a variable once for each source that it declares. -/
  count_dependents : ∀ a b, d.IsShadow a → (v.dependents b).count a = (d.sourceKeys a).count b

/-- A shadow variable comes once, and nothing up to it is derived from it. -/
theorem Sorts.not_mem {v : ValidatedDescriptor} (h : d.Sorts v) {l r : List VariableKey}
    (hsplit : v.shadowOrder = l ++ a :: r) : a ∉ l ∧ ∀ c ∈ l ++ [a], a ∉ d.sourceKeys c := by
  have hnodup := h.nodup
  rw [hsplit] at hnodup
  have hfresh : a ∉ l := fun ha => (List.nodup_append.1 hnodup).2.2 a ha a List.mem_cons_self rfl
  have hshadow : ∀ c ∈ l ++ [a], d.IsShadow c := by
    intro c hc
    rw [← h.mem_iff, hsplit, List.append_cons]
    exact List.mem_append_left r hc
  have ha := hshadow a (List.mem_append_right l List.mem_cons_self)
  refine ⟨hfresh, fun c hc hsource => hfresh ?_⟩
  have hdepends : d.Depends c a := ⟨hshadow c hc, ha, hsource⟩
  rcases List.mem_append.1 hc with hc | hc
  · obtain ⟨l₁, l₂, rfl⟩ := List.append_of_mem hc
    rw [List.append_assoc, List.cons_append] at hsplit
    exact List.mem_append_left _ (h.after l₁ c _ hsplit a hdepends)
  · cases List.mem_singleton.1 hc
    exact h.after l a r hsplit a hdepends

theorem mem_keysOf {i : Nat} : a ∈ d.keysOf i ↔ a.entity = i ∧ ∃ v, d.variableAt? a = some v := by
  unfold keysOf variableAt?
  constructor
  · intro h
    split at h
    · rename_i e he
      obtain ⟨v, hv, rfl⟩ := List.mem_map.1 h
      simp [he, List.mem_range.1 hv]
    · cases h
  · rintro ⟨rfl, v, hv⟩
    obtain ⟨e, he, hv⟩ := Option.bind_eq_some_iff.1 hv
    rw [he]
    exact List.mem_map.2 ⟨a.index, List.mem_range.2 (List.getElem?_eq_some_iff.1 hv).1, rfl⟩

theorem mem_shadowKeys : a ∈ d.shadowKeys ↔ d.IsShadow a := by
  rw [shadowKeys, List.mem_filter, Option.any_eq_true, IsShadow]
  have hshadow : ∀ v : VariableDescriptor, v.kind.isShadow = true ↔ v.kind = .shadow := by
    intro v
    cases v.kind <;> simp [VariableKind.isShadow]
  constructor
  · rintro ⟨-, v, hv, hkind⟩
    exact ⟨v, hv, (hshadow v).1 hkind⟩
  · rintro ⟨v, hv, hkind⟩
    obtain ⟨e, he, -⟩ := Option.bind_eq_some_iff.1 hv
    refine ⟨List.mem_flatMap.2 ⟨a.entity, ?_, mem_keysOf.2 ⟨rfl, v, hv⟩⟩, v, hv, (hshadow v).2 hkind⟩
    exact List.mem_range.2 (List.getElem?_eq_some_iff.1 he).1

theorem nodup_shadowKeys (d : SolutionDescriptor) : d.shadowKeys.Nodup := by
  apply List.Nodup.filter
  rw [List.nodup_flatMap]
  constructor
  · intro i _
    unfold keysOf
    split
    · exact List.nodup_range.map fun m n h => congrArg VariableKey.index h
    · exact List.nodup_nil
  · apply List.nodup_range.imp
    intro i j hij a hi hj
    exact hij ((mem_keysOf.1 hi).1.symm.trans (mem_keysOf.1 hj).1)

/-- A source is found when it names a variable. -/
theorem resolveSource_eq_ok_iff {s : VariableSource} :
    d.resolveSource a s = .ok b ↔ d.variableKey? s.entity s.name = some b := by
  unfold resolveSource
  split
  · rename_i k hk
    rw [hk, Except.ok.injEq, Option.some.injEq]
  · rename_i hk
    simp [hk]

/-- The declared sources are found when each of them names a variable. -/
theorem mapM_resolveSource_eq_ok_iff {declared : List VariableSource} {keys : List VariableKey} :
    declared.mapM (d.resolveSource a) = .ok keys ↔
      (∀ s ∈ declared, ∃ b, d.variableKey? s.entity s.name = some b) ∧
        keys = declared.filterMap fun s => d.variableKey? s.entity s.name := by
  induction declared generalizing keys with
  | nil =>
    rw [List.mapM_nil, pure_eq_ok_iff]
    simp [eq_comm]
  | cons s declared ih =>
    simp only [List.mapM_cons, bind_eq_ok_iff, pure_eq_ok_iff, resolveSource_eq_ok_iff, ih, List.forall_mem_cons]
    constructor
    · rintro ⟨b, hb, keys, ⟨hall, rfl⟩, rfl⟩
      rw [List.filterMap_cons, hb]
      exact ⟨⟨⟨b, rfl⟩, hall⟩, rfl⟩
    · rintro ⟨⟨⟨b, hb⟩, hall⟩, rfl⟩
      rw [List.filterMap_cons, hb]
      exact ⟨b, rfl, _, ⟨hall, rfl⟩, rfl⟩

/-- Where each shadow variable stands with what it is derived from. -/
def declared (d : SolutionDescriptor) : List ShadowDependency :=
  d.shadowKeys.map fun a => ⟨a, d.sourceKeys a⟩

/-- The sources of all shadow variables are found when each of them names a variable. -/
theorem resolveDependencies_eq_ok_iff {deps : List ShadowDependency} :
    d.resolveDependencies = .ok deps ↔ d.Resolves ∧ deps = d.declared := by
  rw [declared, resolveDependencies, mapM_eq_ok_iff_map (g := fun a => ⟨a, d.sourceKeys a⟩)
    (p := fun a => ∀ s ∈ ((d.variableAt? a).map VariableDescriptor.sources).getD [],
      ∃ b, d.variableKey? s.entity s.name = some b)]
  · apply and_congr_left'
    constructor
    · intro h a v hv hkind
      have ha := h a (mem_shadowKeys.2 ⟨v, hv, hkind⟩)
      rw [hv] at ha
      exact ha
    · intro h a ha
      obtain ⟨v, hv, hkind⟩ := mem_shadowKeys.1 ha
      rw [hv]
      exact h a v hv hkind
  · intro a dep
    simp only [bind_eq_ok_iff, pure_eq_ok_iff, mapM_resolveSource_eq_ok_iff]
    constructor
    · rintro ⟨_, ⟨hall, rfl⟩, rfl⟩
      exact ⟨hall, rfl⟩
    · rintro ⟨hall, rfl⟩
      exact ⟨_, ⟨hall, rfl⟩, rfl⟩

theorem isShadow_declared : ShadowDependency.isShadow d.declared a = true ↔ d.IsShadow a := by
  rw [← mem_shadowKeys]
  simp [ShadowDependency.isShadow, declared]

theorem sourcesOf_declared (ha : d.IsShadow a) :
    ShadowDependency.sourcesOf d.declared a = d.sourceKeys a := by
  have hfind : d.shadowKeys.find? (fun b => decide (b = a)) = some a := by
    obtain ⟨l, r, heq, hnot⟩ := List.eq_append_cons_of_mem (mem_shadowKeys.2 ha)
    refine List.find?_eq_some_iff_append.2 ⟨by simp, l, r, heq, ?_⟩
    intro b hb
    simpa using fun hba : b = a => hnot (hba ▸ hb)
  have hshadow : (fun dep : ShadowDependency => decide (dep.shadow = a)) ∘
      (fun a => ⟨a, d.sourceKeys a⟩) = fun b => decide (b = a) := rfl
  rw [ShadowDependency.sourcesOf, declared, List.find?_map, hshadow, hfind]
  rfl

/-- A declared step leads from a shadow variable to one that it is derived from. -/
theorem step_declared : ShadowDependency.Step d.declared = d.Depends := by
  ext a b
  rw [ShadowDependency.Step, Depends, isShadow_declared, isShadow_declared]
  apply and_congr_right
  intro ha
  rw [sourcesOf_declared ha]

/-- Among variables that are listed once, one is derived from a variable once for each of its sources. -/
theorem count_dependents {v : ValidatedDescriptor} (hv : v.dependencies = d.declared) :
    (v.dependents b).count a = if a ∈ d.shadowKeys then (d.sourceKeys a).count b else 0 := by
  rw [ValidatedDescriptor.dependents, hv, declared]
  have hnodup := nodup_shadowKeys d
  generalize d.shadowKeys = keys at hnodup ⊢
  induction keys with
  | nil => rfl
  | cons k keys ih =>
    obtain ⟨hk, hkeys⟩ := List.nodup_cons.1 hnodup
    rw [List.map_cons, List.flatMap_cons, List.count_append, ih hkeys, List.map_const', List.count_replicate,
      ← List.countP_eq_length_filter]
    by_cases hka : k = a
    · subst hka
      simp [hk, List.count_eq_countP, List.countP_eq_length_filter, beq_eq_decide]
    · simp [hka, Ne.symm hka]

/-- What an order of the declared dependencies says of the description. -/
theorem sorts_of_ordered {order : List VariableKey} (h : ShadowDependency.Ordered d.declared order)
    (hall : ∀ a, ShadowDependency.isShadow d.declared a = true → a ∈ order) : d.Sorts ⟨d, order, d.declared⟩ where
  same := rfl
  nodup := h.nodup
  mem_iff := by
    intro a
    constructor
    · intro ha
      exact isShadow_declared.1 (h.shadows a ha)
    · intro ha
      exact hall a (isShadow_declared.2 ha)
  after := by
    intro l a r hsplit b hab
    rw [← step_declared] at hab
    exact h.after l a r hsplit b hab
  shadow_of_mem := by
    intro a b ha
    by_contra hno
    have hzero := SolutionDescriptor.count_dependents (a := a) (b := b) (v := ⟨d, order, d.declared⟩) rfl
    rw [if_neg fun hmem => hno (mem_shadowKeys.1 hmem)] at hzero
    exact List.count_eq_zero.1 hzero ha
  count_dependents := by
    intro a b ha
    rw [SolutionDescriptor.count_dependents rfl, if_pos (mem_shadowKeys.2 ha)]

/-- The declared dependencies are put in order, which leaves no circle, or a circle of them is found. -/
theorem orderShadows_cases (h : d.Resolves) :
    (∃ v, d.orderShadows = .ok v ∧ d.Sorts v ∧ d.Acyclic) ∨
      ∃ cycle, d.orderShadows = .error (.shadowCycle (cycle.map d.label)) ∧
        ShadowDependency.Circle d.declared cycle := by
  have houtcome := ShadowDependency.outcome_order d.declared
  rw [orderShadows, resolveDependencies_eq_ok_iff.2 ⟨h, rfl⟩]
  cases heq : ShadowDependency.order d.declared with
  | error cycle =>
    rw [heq] at houtcome
    right
    refine ⟨cycle, ?_, houtcome⟩
    simp only [bind, Except.bind, heq]
    rfl
  | ok order =>
    rw [heq] at houtcome
    obtain ⟨hordered, -, hhas, -⟩ := houtcome
    have hall : ∀ a, ShadowDependency.isShadow d.declared a = true → a ∈ order := by
      intro a ha
      have hkey : a ∈ d.shadowKeys := mem_shadowKeys.2 (isShadow_declared.1 ha)
      exact hhas a (List.mem_map.2 ⟨_, List.mem_map.2 ⟨a, hkey, rfl⟩, rfl⟩) ha
    left
    refine ⟨⟨d, order, d.declared⟩, ?_, sorts_of_ordered hordered hall, ?_⟩
    · simp only [bind, Except.bind, heq]
      rfl
    · intro a
      rw [← step_declared]
      exact hordered.acyclic hall

/-- A valid description lists its shadow variables in order. -/
theorem sorts_of_validate {v : ValidatedDescriptor} (h : d.validate = .ok v) : d.Sorts v := by
  have horder : d.orderShadows = .ok v := by
    obtain ⟨-, h⟩ := of_unless_ok h
    obtain ⟨-, h⟩ := of_unless_ok h
    obtain ⟨-, h⟩ := of_unless_ok h
    obtain ⟨-, -, horder⟩ := bind_eq_ok_iff.1 h
    exact horder
  obtain ⟨deps, hdeps, -⟩ := bind_eq_ok_iff.1 horder
  rcases orderShadows_cases (resolveDependencies_eq_ok_iff.1 hdeps).1 with ⟨v', hv', hsorts, -⟩ | ⟨_, herror, -⟩
  · rw [horder, Except.ok.injEq] at hv'
    rwa [hv']
  · rw [horder] at herror
    cases herror

/-- The shadow variables of a description can be put in order exactly when none of them is derived from
itself. Then each of them is listed once, after all shadow variables that it is derived from, and what is
derived from a variable is what the description declares. Otherwise the labels that are reported run along a
circle, from each shadow variable to one that it is derived from and back to the first. -/
theorem orderShadows_sorts (h : d.Resolves) :
    ((∃ v, d.orderShadows = .ok v) ↔ d.Acyclic) ∧ (∀ v, d.orderShadows = .ok v → d.Sorts v) ∧
      ∀ e, d.orderShadows = .error e →
        ∃ a l, e = .shadowCycle ((a :: (l ++ [a])).map d.label) ∧
          List.IsChain d.Depends (a :: (l ++ [a])) := by
  rcases orderShadows_cases h with ⟨v, hv, hsorts, hacyclic⟩ | ⟨cycle, herror, hcircle⟩
  · rw [hv]
    refine ⟨⟨fun _ => hacyclic, fun _ => ⟨v, rfl⟩⟩, ?_, nofun⟩
    intro v' heq
    cases heq
    exact hsorts
  · obtain ⟨a, haa⟩ := hcircle.transGen
    obtain ⟨c, l, rfl, hchain⟩ := hcircle
    rw [step_declared] at haa hchain
    rw [herror]
    refine ⟨⟨nofun, fun hacyclic => absurd haa (hacyclic a)⟩, nofun, ?_⟩
    intro e heq
    cases heq
    exact ⟨c, l, rfl, hchain⟩

/-- A schedule of stops with given variables. -/
def stopsWith (vars : List VariableDescriptor) : SolutionDescriptor where
  typeName := "Schedule"
  scoreField := some "score"
  valueRanges := ["hours"]
  entities := [{ typeName := "Stop", solutionField := "stops", allVariables := vars }]

/-- Stops that are served one after another: the departure from a stop is derived from the arrival there and
the service, the arrival from the service before, and the lateness from the departure. -/
def schedule : SolutionDescriptor :=
  stopsWith [
    { name := "late", kind := .shadow, sources := [⟨"Stop", "departure"⟩] },
    { name := "departure", kind := .shadow, sources := [⟨"Stop", "arrival"⟩, ⟨"Stop", "service"⟩] },
    { name := "service", kind := .genuine, valueRange := some "hours" },
    { name := "arrival", kind := .shadow, sources := [⟨"Stop", "service"⟩, ⟨"Stop", "service"⟩] }]

/-- The lateness at a stop comes last although it is declared first. -/
def orderedSchedule : ValidatedDescriptor where
  toSolutionDescriptor := schedule
  shadowOrder := [⟨0, 3⟩, ⟨0, 1⟩, ⟨0, 0⟩]
  dependencies := schedule.declared

theorem orderShadows_sorts_schedule :
    schedule.Resolves ∧ schedule.Acyclic ∧ schedule.orderShadows = .ok orderedSchedule ∧
      schedule.Sorts orderedSchedule := by
  have hresolves : schedule.Resolves :=
    (resolveDependencies_eq_ok_iff.1 (rfl : schedule.resolveDependencies = .ok schedule.declared)).1
  obtain ⟨hiff, hsorts, -⟩ := orderShadows_sorts hresolves
  have hok : schedule.orderShadows = .ok orderedSchedule := rfl
  exact ⟨hresolves, hiff.1 ⟨_, hok⟩, hok, hsorts _ hok⟩

/-- Of two shadow variables that are derived from each other the first one is met again. -/
example :
    (stopsWith [
      { name := "arrival", kind := .shadow, sources := [⟨"Stop", "departure"⟩] },
      { name := "departure", kind := .shadow, sources := [⟨"Stop", "arrival"⟩] }]).orderShadows =
      .error (.shadowCycle ["Stop.arrival", "Stop.departure", "Stop.arrival"]) := rfl

end SolutionDescriptor

end Planning
