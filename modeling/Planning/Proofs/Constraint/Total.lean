import Mathlib.Tactic.Abel
import Planning.Constraint.Basic
import Planning.Proofs.Graph.Meaning
import Planning.Proofs.Score.Order

/-!
# Totals of constraints

A constraint is in step with a view when its graph is, its matches are the live tuples of the graph with
their impacts, and its total is the sum of the impacts. A constraint that took in a run of events, each true
of the solution before and after it, then has the matches and the total of one that is loaded afresh.
-/

namespace Planning.Constraint

open Checked Delta

variable {S : Type} {k : ScoreKind} {c c' : Constraint S k} {sum sum' : Score k} {T : Tuples}

/-- The matches are the live tuples with their impacts, which add up to the total and what it still has to
change by. -/
structure Weighs (c : Constraint S k) (T : Tuples) (sum : Score k) : Prop where
  /-- No match stands twice. -/
  unique : c.live.Unique
  /-- The matches are of the live tuples. -/
  tuple : ∀ i, (c.live.get? i).map Match.tuple = T i
  /-- A match has the impact of its tuple. -/
  impact : ∀ i m, c.live.get? i = some m → c.impactOf m.tuple = .ok m.impact
  /-- The impacts add up. -/
  total : (c.live.map fun e => e.2.impact.vector).sum = c.total.vector + sum.vector

/-- A constraint without matches weighs nothing. -/
theorem Weighs.empty (hlive : c.live = []) (htotal : c.total = .zero) : c.Weighs Tuples.none .zero where
  unique := by rw [hlive]; exact List.nodup_nil
  tuple i := by rw [hlive]; rfl
  impact i m hm := by
    rw [hlive] at hm
    cases hm
  total := by simp [hlive, htotal]

/-- Two constraints differ in their states alone. -/
def SameRule (c c' : Constraint S k) : Prop :=
  c' = { c with node := c'.node, live := c'.live, total := c'.total }

/-- What a match takes with it when it is withdrawn. -/
theorem vector_of_withdraw {i : TupleId} (h : c.withdraw i sum = .ok sum') :
    sum'.vector = sum.vector - ((c.live.get? i).map fun m => m.impact.vector).getD 0 := by
  unfold withdraw at h
  cases hget : c.live.get? i with
  | none =>
    rw [hget] at h
    cases h
    simp
  | some m =>
    rw [hget] at h
    rw [Score.vector_of_sub h]
    rfl

/-- A match comes in place of the one of its identity, if there is one. -/
theorem Weighs.put (h : c.Weighs T sum) {i : TupleId} {t : Value} {a mid : Score k}
    (ha : c.impactOf t = .ok a) (hmid : c.withdraw i sum = .ok mid) (hsum : mid.add a = .ok sum') :
    Weighs { c with live := c.live.set i ⟨t, a⟩ } (Function.update T i (some t)) sum' where
  unique := h.unique.set i _
  tuple j := by
    by_cases hj : j = i
    · simp [hj]
    · simp [hj, h.tuple]
  impact j m hm := by
    rw [Table.get?_set] at hm
    split at hm
    · cases hm
      exact ha
    · exact h.impact j m hm
  total := by
    have hold := h.unique.sum_eq (fun m : Match k => m.impact.vector) i
    rw [h.total] at hold
    have hnew := Table.sum_set c.live (fun m : Match k => m.impact.vector) i ⟨t, a⟩
    rw [hnew, Score.vector_of_add hsum, vector_of_withdraw hmid, ← add_assoc, ← add_sub_assoc, hold]
    abel

/-- The match of an identity goes. -/
theorem Weighs.drop (h : c.Weighs T sum) {i : TupleId} (hsum : c.withdraw i sum = .ok sum') :
    Weighs { c with live := c.live.erase i } (Function.update T i none) sum' where
  unique := h.unique.erase i
  tuple j := by
    by_cases hj : j = i
    · simp [hj]
    · simp [hj, h.tuple]
  impact j m hm := by
    rw [Table.get?_erase] at hm
    split at hm
    · cases hm
    · exact h.impact j m hm
  total := by
    have hold := h.unique.sum_eq (fun m : Match k => m.impact.vector) i
    rw [h.total] at hold
    rw [vector_of_withdraw hsum, ← add_sub_assoc, hold]
    abel

/-- One delta brings the matches and the sum up to it. -/
theorem Weighs.absorb (h : c.Weighs T sum) {d : Delta}
    (hok : Constraint.absorb (c, sum) d = .ok (c', sum')) : c'.Weighs (d.apply T) sum' := by
  cases d with
  | insert i t =>
    simp only [Constraint.absorb, bind_eq_ok_iff, pure_eq_ok_iff] at hok
    obtain ⟨a, ha, mid, hmid, sum₁, hsum, hpure⟩ := hok
    cases hpure
    exact h.put ha hmid hsum
  | update i t =>
    simp only [Constraint.absorb, bind_eq_ok_iff, pure_eq_ok_iff] at hok
    obtain ⟨a, ha, mid, hmid, sum₁, hsum, hpure⟩ := hok
    cases hpure
    exact h.put ha hmid hsum
  | retract i =>
    simp only [Constraint.absorb, bind_eq_ok_iff, pure_eq_ok_iff] at hok
    obtain ⟨sum₁, hsum, hpure⟩ := hok
    cases hpure
    exact h.drop hsum

/-- One delta changes the matches alone. -/
theorem absorb_eq {d : Delta} (hok : Constraint.absorb (c, sum) d = .ok (c', sum')) :
    c' = { c with live := c'.live } := by
  cases d with
  | insert i t =>
    simp only [Constraint.absorb, bind_eq_ok_iff, pure_eq_ok_iff] at hok
    obtain ⟨a, -, mid, -, sum₁, -, hpure⟩ := hok
    cases hpure
    rfl
  | update i t =>
    simp only [Constraint.absorb, bind_eq_ok_iff, pure_eq_ok_iff] at hok
    obtain ⟨a, -, mid, -, sum₁, -, hpure⟩ := hok
    cases hpure
    rfl
  | retract i =>
    simp only [Constraint.absorb, bind_eq_ok_iff, pure_eq_ok_iff] at hok
    obtain ⟨sum₁, -, hpure⟩ := hok
    cases hpure
    rfl

/-- Deltas change the matches alone. -/
theorem absorb_all_eq {ds : List Delta} (hok : ds.foldlM Constraint.absorb (c, sum) = .ok (c', sum')) :
    c' = { c with live := c'.live } := by
  induction ds generalizing c sum with
  | nil =>
    cases hok
    rfl
  | cons d ds ih =>
    rw [List.foldlM_cons] at hok
    obtain ⟨⟨c₁, sum₁⟩, h₁, h₂⟩ := bind_eq_ok_iff.1 hok
    rw [ih h₂, absorb_eq h₁]

/-- Deltas bring the matches and the sum up to them, whether they fit or not. -/
theorem Weighs.absorb_all (h : c.Weighs T sum) {ds : List Delta}
    (hok : ds.foldlM Constraint.absorb (c, sum) = .ok (c', sum')) :
    c'.Weighs (ds.foldl Delta.apply T) sum' := by
  induction ds generalizing c sum T with
  | nil =>
    cases hok
    exact h
  | cons d ds ih =>
    rw [List.foldlM_cons] at hok
    obtain ⟨⟨c₁, sum₁⟩, h₁, h₂⟩ := bind_eq_ok_iff.1 hok
    exact ih (h.absorb h₁) h₂

/-- The total changes by what deltas say. -/
theorem vector_of_apply {ds : List Delta} (hok : c.apply ds = .ok (c', sum)) :
    c'.total.vector = c.total.vector + sum.vector := by
  simp only [Constraint.apply, bind_eq_ok_iff, pure_eq_ok_iff] at hok
  obtain ⟨⟨c₁, sum₁⟩, h₁, total, htotal, hpure⟩ := hok
  cases hpure
  have hkept : c₁.total = c.total := by rw [absorb_all_eq h₁]
  rw [← hkept]
  exact Score.vector_of_add htotal

/-- The total changes by what an event is answered with. -/
theorem vector_of_onEvent {s : S} {e : SourceEvent} (hok : c.onEvent s e = .ok (c', sum)) :
    c'.total.vector = c.total.vector + sum.vector := by
  obtain ⟨⟨node, ds⟩, -, hok⟩ := bind_eq_ok_iff.1 hok
  exact vector_of_apply (c := { c with node := node }) hok

/-- Taking in deltas brings the matches and the total up to them, whether they fit or not. -/
theorem Weighs.apply (h : c.Weighs T .zero) {ds : List Delta} (hok : c.apply ds = .ok (c', sum)) :
    c'.Weighs (ds.foldl Delta.apply T) .zero ∧ c' = { c with live := c'.live, total := c'.total } := by
  have hvector := vector_of_apply hok
  simp only [Constraint.apply, bind_eq_ok_iff, pure_eq_ok_iff] at hok
  obtain ⟨⟨c₁, sum₁⟩, h₁, total, htotal, hpure⟩ := hok
  cases hpure
  have h' := h.absorb_all h₁
  have hsame := absorb_all_eq h₁
  have hkept : c₁.total = c.total := by rw [hsame]
  refine ⟨⟨h'.unique, h'.tuple, h'.impact, ?_⟩, by rw [hsame]⟩
  rw [h'.total, Score.vector_zero, add_zero, hkept]
  exact hvector.symm

/-- The graph is in step with a view and the matches and the total with the live tuples. -/
def InStep (c : Constraint S k) (V : View S) : Prop :=
  ∃ T, c.node.InStep V T ∧ c.Weighs T .zero

/-- Loading a solution puts a constraint without matches in step with it. -/
theorem load_inStep {s : S} (hok : c.reset.load s = .ok c') :
    c'.InStep (View.of s) ∧ c'.reset = c.reset := by
  simp only [Constraint.load, bind_eq_ok_iff, pure_eq_ok_iff] at hok
  obtain ⟨⟨node, ds⟩, hnode, ⟨c₁, sum⟩, happly, rfl⟩ := hok
  obtain ⟨T, hT, hin, -⟩ := Node.load_inStep (n := c.node) hnode
  have hempty : Weighs { c.reset with node := node } Tuples.none .zero := .empty rfl rfl
  obtain ⟨h', hsame⟩ := hempty.apply happly
  rw [hT.eq_foldl] at h'
  refine ⟨⟨T, by rw [hsame]; exact hin, h'⟩, ?_⟩
  have hreset : node.reset = c.node.reset :=
    (Node.reset_of_load hnode).trans (Node.reset_reset _)
  rw [hsame]
  simp only [Constraint.reset, hreset]

/-- Taking in an event keeps a constraint in step. -/
theorem InStep.onEvent {V : View S} (h : c.InStep V) {s : S} {e : SourceEvent} {change : Score k}
    (ha : c.node.Admits V s e) (hd : c.node.Digests s e) (hok : c.onEvent s e = .ok (c', change)) :
    c'.InStep (V.after s e) ∧ c'.reset = c.reset := by
  obtain ⟨T, hin, hw⟩ := h
  simp only [Constraint.onEvent, bind_eq_ok_iff] at hok
  obtain ⟨⟨node, ds⟩, hnode, happly⟩ := hok
  obtain ⟨T', hT', hin'⟩ := hin.propagate ha hd hnode
  have hw' : Weighs { c with node := node } T .zero := ⟨hw.unique, hw.tuple, hw.impact, hw.total⟩
  obtain ⟨h', hsame⟩ := hw'.apply happly
  rw [hT'.eq_foldl] at h'
  refine ⟨⟨T', by rw [hsame]; exact hin', h'⟩, ?_⟩
  have hreset : node.reset = c.node.reset := Node.reset_of_propagate hnode
  rw [hsame]
  simp only [Constraint.reset, hreset]

/-- The match of a tuple, if it has an impact. -/
def matchOf (c : Constraint S k) (t : Value) : Option (Match k) :=
  (c.impactOf t).toOption.map fun a => ⟨t, a⟩

/-- The live tuples are those of the matches. -/
theorem Weighs.bag (h : c.Weighs T sum) : T.Bag (c.live.map fun e => e.2.tuple : List Value) := by
  refine ⟨c.live.map Prod.fst, h.unique, fun i => ?_, ?_⟩
  · rw [← h.tuple i, List.mem_map]
    constructor
    · rintro ⟨⟨_, m⟩, he, rfl⟩
      rw [h.unique.get?_eq_some_iff.2 he]
      simp
    · intro hi
      have hsome : c.live.get? i ≠ none := fun hnone => hi (by rw [hnone]; rfl)
      obtain ⟨m, hm⟩ := Option.ne_none_iff_exists'.1 hsome
      exact ⟨(i, m), h.unique.get?_eq_some_iff.1 hm, rfl⟩
  · rw [List.filterMap_map, ← List.filterMap_eq_map]
    refine congrArg _ (List.filterMap_congr fun e he => ?_)
    rw [Function.comp_apply, ← h.tuple, h.unique.get?_eq_some_iff.2 he]
    rfl

/-- The matches of a constraint in step with a solution are those of what its graph means there. -/
theorem InStep.matches_eq {V : View S} (h : c.InStep V) (hf : c.node.OrderFree) {s : S}
    (hV : ∀ cl members, c.node.Reads cl members → V cl members = View.of s cl members) :
    ((c.live.map Prod.snd : List (Match k)) : Multiset (Match k)) =
      (c.node.meaning s).bag.filterMap c.matchOf := by
  obtain ⟨T, hin, hw⟩ := h
  rw [(hin.bag hf hV).1.unique hw.bag, Multiset.filterMap_coe, List.filterMap_map,
    ← List.filterMap_eq_map]
  refine congrArg _ (List.filterMap_congr fun e he => ?_)
  have himpact := hw.impact e.1 e.2 (hw.unique.get?_eq_some_iff.2 he)
  rw [Function.comp_apply, Function.comp_apply, matchOf, himpact]
  rfl

/-- The total is the sum of the impacts of the matches. -/
theorem InStep.total_eq {V : View S} (h : c.InStep V) :
    c.total.vector = ((c.live.map Prod.snd).map fun m => m.impact.vector).sum := by
  obtain ⟨T, -, hw⟩ := h
  rw [List.map_map]
  have htotal := hw.total
  rw [Score.vector_zero, add_zero] at htotal
  exact htotal.symm

/-- Constraints with one rule that are in step with one solution have the same matches and total. -/
theorem InStep.same {V V' : View S} (h : c.InStep V) (h' : c'.InStep V') (hreset : c'.reset = c.reset)
    (hf : c.node.OrderFree) {s : S}
    (hV : ∀ cl members, c.node.Reads cl members → V cl members = View.of s cl members)
    (hV' : ∀ cl members, c.node.Reads cl members → V' cl members = View.of s cl members) :
    (c'.live.map Prod.snd).Perm (c.live.map Prod.snd) ∧ c'.total = c.total := by
  have hnode : c'.node.reset = c.node.reset := congrArg Constraint.node hreset
  have hmatch : c'.matchOf = c.matchOf := by
    change c'.reset.matchOf = c.reset.matchOf
    rw [hreset]
  have hf' : c'.node.OrderFree := by
    rw [← Node.orderFree_reset, hnode, Node.orderFree_reset]
    exact hf
  have hmeaning : c'.node.meaning s = c.node.meaning s := by
    rw [← Node.meaning_reset, hnode, Node.meaning_reset]
  have hreads : ∀ cl members, c'.node.Reads cl members → V' cl members = View.of s cl members := by
    intro cl members hr
    rw [← Node.reads_reset, hnode, Node.reads_reset] at hr
    exact hV' cl members hr
  have hperm : (c'.live.map Prod.snd).Perm (c.live.map Prod.snd) := by
    rw [← Multiset.coe_eq_coe, h'.matches_eq hf' hreads, h.matches_eq hf hV, hmatch, hmeaning]
  refine ⟨hperm, Score.vector_inj.1 ?_⟩
  rw [h'.total_eq, h.total_eq]
  exact (hperm.map _).sum_eq

end Planning.Constraint
