import Planning.Graph.Node
import Planning.Proofs.Graph.Complement
import Planning.Proofs.Graph.Exists
import Planning.Proofs.Graph.Filter
import Planning.Proofs.Graph.Flatten
import Planning.Proofs.Graph.GroupBy
import Planning.Proofs.Graph.Join

/-!
# Constraint graphs in step with a solution

A view says which members of each class are live, as each source reads them. A graph is in step with a view
when every node is in step with the live tuples of the nodes above it. Loading a solution and propagating an
event keep the graph in step, provided that joins and existence tests read orderly batches.
-/

namespace Planning

open Checked Delta

variable {S : Type}

/-- The live members of each class, as each source reads them. -/
abbrev View (S : Type) := SourceClass → (S → List Value) → Tuples

/-- Everything in a solution is live. -/
def View.of (s : S) : View S := fun _ members i => (members s)[i]?

/-- What is live after an event. -/
def View.after (V : View S) (s : S) (e : SourceEvent) : View S := fun c members =>
  if c = e.source then
    Function.update (V c members) e.index
      (if e.change = .retract then none else (members s)[e.index]?)
  else V c members

namespace Node

/-- The node reads a class in a certain way. -/
def Reads : Node S → SourceClass → (S → List Value) → Prop
  | source c members, k, f => c = k ∧ members = f
  | filter up _ _, k, f => up.Reads k f
  | map up _, k, f => up.Reads k f
  | flatten up _ _, k, f => up.Reads k f
  | join left right _ _, k, f => left.Reads k f ∨ right.Reads k f
  | .exists left right _ _, k, f => left.Reads k f ∨ right.Reads k f
  | group up _ _, k, f => up.Reads k f
  | complement up elements _ _, k, f => up.Reads k f ∨ elements.Reads k f

/-- An event is true of a view and a solution: what comes was not live and is in the solution, what changes
was live if it is in the solution, and what goes was live. -/
def Admits (n : Node S) (V : View S) (s : S) (e : SourceEvent) : Prop :=
  ∀ members, n.Reads e.source members →
    match e.change with
    | .insert => V e.source members e.index = none ∧ (members s)[e.index]? ≠ none
    | .update => V e.source members e.index = none ↔ (members s)[e.index]? = none
    | .retract => V e.source members e.index ≠ none

/-- The batches that joins and existence tests read on an event are orderly. -/
def Digests : Node S → S → SourceEvent → Prop
  | source _ _, _, _ => True
  | filter up _ _, s, e => up.Digests s e
  | map up _, s, e => up.Digests s e
  | flatten up _ _, s, e => up.Digests s e
  | join left right _ _, s, e =>
    (left.Digests s e ∧ ∀ n ds, left.propagate s e = .ok (n, ds) → Orderly ds) ∧
      right.Digests s e ∧ ∀ n ds, right.propagate s e = .ok (n, ds) → Orderly ds
  | .exists left right _ _, s, e =>
    (left.Digests s e ∧ ∀ n ds, left.propagate s e = .ok (n, ds) → Orderly ds) ∧
      right.Digests s e ∧ ∀ n ds, right.propagate s e = .ok (n, ds) → Orderly ds
  | group up _ _, s, e => up.Digests s e
  | complement up elements _ _, s, e => up.Digests s e ∧ elements.Digests s e

/-- Every node is in step with the live tuples of the nodes above it. -/
def InStep : Node S → View S → Tuples → Prop
  | source c members, V, T => T = V c members
  | filter up p passing, V, T => ∃ U, up.InStep V U ∧ Filter.InStep p passing U T
  | map up f, V, T => ∃ U, up.InStep V U ∧ Mapped f U T
  | flatten up expand state, V, T => ∃ U, up.InStep V U ∧ state.InStep expand U T
  | join left right rule state, V, T =>
    ∃ L R, left.InStep V L ∧ right.InStep V R ∧ state.InStep rule L R T
  | .exists left right rule state, V, T =>
    ∃ L R, left.InStep V L ∧ right.InStep V R ∧ state.InStep rule L R T
  | group up rule state, V, T => ∃ U, up.InStep V U ∧ state.InStep rule U T
  | complement up elements rule state, V, T =>
    ∃ U E, up.InStep V U ∧ elements.InStep V E ∧ state.InStep rule U E T

/-- The tuples that come with a list. -/
theorem leads_arrivals (members : List Value) :
    Leads Tuples.none (arrivals members) fun i => members[i]? := by
  induction members using List.reverseRecOn with
  | nil => rfl
  | append_singleton members v ih =>
    rw [arrivals, List.mapIdx_append]
    refine ih.append ?_
    refine ⟨by simp [Fits], ?_⟩
    funext i
    by_cases hi : i = members.length
    · simp [hi, apply, Delta.id, tuple?]
    · have hlast : (members ++ [v])[i]? = members[i]? := by
        rcases Nat.lt_or_gt_of_ne hi with hlt | hgt
        · exact List.getElem?_append_left hlt
        · rw [List.getElem?_eq_none (by simp; omega), List.getElem?_eq_none (by omega)]
      rw [hlast]
      simp [apply, Delta.id, hi]

/-- The answer of a source brings its tuples up to an event. -/
theorem leads_sourceAnswer {c : SourceClass} {members : S → List Value} {V : View S} {s : S}
    {e : SourceEvent} (h : (source c members).Admits V s e) :
    Leads (V c members) (sourceAnswer c (members s) e) (V.after s e c members) := by
  unfold sourceAnswer View.after
  by_cases hc : e.source = c
  · subst hc
    have h := h members ⟨rfl, rfl⟩
    rw [if_neg (by simp), if_pos rfl]
    cases hch : e.change with
    | insert =>
      rw [hch] at h
      obtain ⟨v, hv⟩ := Option.ne_none_iff_exists'.1 h.2
      simp only [hv]
      exact Leads.single (d := insert e.index v) h.1
    | update =>
      rw [hch] at h
      cases hv : (members s)[e.index]? with
      | some v =>
        have hlive : V e.source members e.index ≠ none := fun hnone => by simp [h.1 hnone] at hv
        exact Leads.single (d := update e.index v) hlive
      | none =>
        funext i
        by_cases hi : i = e.index
        · rw [hi, h.2 hv]
          simp
        · simp [hi]
    | retract =>
      rw [hch] at h
      exact Leads.single (d := retract e.index) h
  · rw [if_pos hc, if_neg (Ne.symm hc)]
    exact rfl

variable {n n' : Node S} {V : View S} {s : S} {e : SourceEvent} {T : Tuples} {out : List Delta}

/-- A graph in step with a view is so with any view that shows it the same. -/
theorem InStep.congr {V' : View S} (h : n.InStep V T)
    (hV : ∀ c members, n.Reads c members → V c members = V' c members) : n.InStep V' T := by
  induction n generalizing T with
  | source c members => exact Eq.trans h (hV c members ⟨rfl, rfl⟩)
  | filter up p passing ih =>
    obtain ⟨U, hup, h⟩ := h
    exact ⟨U, ih hup hV, h⟩
  | map up f ih =>
    obtain ⟨U, hup, h⟩ := h
    exact ⟨U, ih hup hV, h⟩
  | flatten up expand state ih =>
    obtain ⟨U, hup, h⟩ := h
    exact ⟨U, ih hup hV, h⟩
  | join left right rule state ihl ihr =>
    obtain ⟨L, R, hl, hr, h⟩ := h
    exact ⟨L, R, ihl hl fun c m hm => hV c m (.inl hm), ihr hr fun c m hm => hV c m (.inr hm), h⟩
  | «exists» left right rule state ihl ihr =>
    obtain ⟨L, R, hl, hr, h⟩ := h
    exact ⟨L, R, ihl hl fun c m hm => hV c m (.inl hm), ihr hr fun c m hm => hV c m (.inr hm), h⟩
  | group up rule state ih =>
    obtain ⟨U, hup, h⟩ := h
    exact ⟨U, ih hup hV, h⟩
  | complement up elements rule state ihu ihe =>
    obtain ⟨U, E, hup, hel, h⟩ := h
    exact ⟨U, E, ihu hup fun c m hm => hV c m (.inl hm), ihe hel fun c m hm => hV c m (.inr hm), h⟩

/-- A node listens to the classes that it reads. -/
theorem Reads.listensTo {c : SourceClass} {members : S → List Value} (h : n.Reads c members) :
    n.listensTo c = true := by
  induction n <;> simp_all [Reads, Node.listensTo]
  all_goals exact h.imp (fun h => by simp_all) fun h => by simp_all

/-- An event is true for the nodes above. -/
theorem Admits.of_reads {up : Node S} (h : n.Admits V s e)
    (hreads : ∀ members, up.Reads e.source members → n.Reads e.source members) : up.Admits V s e :=
  fun members hm => h members (hreads members hm)

/-- Propagating an event keeps a graph in step. -/
theorem InStep.propagate (h : n.InStep V T) (ha : n.Admits V s e) (hd : n.Digests s e)
    (hok : n.propagate s e = .ok (n', out)) :
    ∃ T', Leads T out T' ∧ n'.InStep (V.after s e) T' := by
  induction n generalizing T n' out with
  | source c members =>
    cases hok
    cases h
    exact ⟨_, leads_sourceAnswer ha, rfl⟩
  | filter up p passing ih =>
    obtain ⟨U, hup, h⟩ := h
    simp only [Node.propagate, bind_eq_ok_iff, pure_eq_ok_iff] at hok
    obtain ⟨⟨up', ds⟩, h1, ⟨passing', out'⟩, h2, hpure⟩ := hok
    cases hpure
    obtain ⟨U', hU', hup'⟩ := ih hup ha hd h1
    obtain ⟨T', hT', h'⟩ := h.feed hU' h2
    exact ⟨T', hT', U', hup', h'⟩
  | map up f ih =>
    obtain ⟨U, hup, h⟩ := h
    simp only [Node.propagate, bind_eq_ok_iff, pure_eq_ok_iff] at hok
    obtain ⟨⟨up', ds⟩, h1, out', h2, hpure⟩ := hok
    cases hpure
    obtain ⟨U', hU', hup'⟩ := ih hup ha hd h1
    obtain ⟨T', hT', h'⟩ := h.leads hU' h2
    exact ⟨T', hT', U', hup', h'⟩
  | flatten up expand state ih =>
    obtain ⟨U, hup, h⟩ := h
    simp only [Node.propagate, bind_eq_ok_iff, pure_eq_ok_iff] at hok
    obtain ⟨⟨up', ds⟩, h1, ⟨state', out'⟩, h2, hpure⟩ := hok
    cases hpure
    obtain ⟨U', hU', hup'⟩ := ih hup ha hd h1
    obtain ⟨T', hT', h'⟩ := h.feed hU' h2
    exact ⟨T', hT', U', hup', h'⟩
  | join left right rule state ihl ihr =>
    obtain ⟨L, R, hl, hr, h⟩ := h
    simp only [Node.propagate, bind_eq_ok_iff, pure_eq_ok_iff] at hok
    obtain ⟨⟨left', ls⟩, h1, ⟨right', rs⟩, h2, ⟨state', out'⟩, h3, hpure⟩ := hok
    cases hpure
    obtain ⟨L', hL', hl'⟩ := ihl hl (ha.of_reads fun _ => .inl) hd.1.1 h1
    obtain ⟨R', hR', hr'⟩ := ihr hr (ha.of_reads fun _ => .inr) hd.2.1 h2
    obtain ⟨T', hT', h', -⟩ := h.process hL' hR' (hd.1.2 _ _ h1) (hd.2.2 _ _ h2) h3
    exact ⟨T', hT', L', R', hl', hr', h'⟩
  | «exists» left right rule state ihl ihr =>
    obtain ⟨L, R, hl, hr, h⟩ := h
    simp only [Node.propagate, bind_eq_ok_iff, pure_eq_ok_iff] at hok
    obtain ⟨⟨left', ls⟩, h1, ⟨right', rs⟩, h2, ⟨state', out'⟩, h3, hpure⟩ := hok
    cases hpure
    obtain ⟨L', hL', hl'⟩ := ihl hl (ha.of_reads fun _ => .inl) hd.1.1 h1
    obtain ⟨R', hR', hr'⟩ := ihr hr (ha.of_reads fun _ => .inr) hd.2.1 h2
    obtain ⟨T', hT', h', -⟩ := h.process hL' hR' (hd.1.2 _ _ h1) (hd.2.2 _ _ h2) h3
    exact ⟨T', hT', L', R', hl', hr', h'⟩
  | group up rule state ih =>
    obtain ⟨U, hup, h⟩ := h
    simp only [Node.propagate, bind_eq_ok_iff, pure_eq_ok_iff] at hok
    obtain ⟨⟨up', ds⟩, h1, ⟨state', out'⟩, h2, hpure⟩ := hok
    cases hpure
    obtain ⟨U', hU', hup'⟩ := ih hup ha hd h1
    obtain ⟨T', hT', h', -⟩ := h.process hU' h2
    exact ⟨T', hT', U', hup', h'⟩
  | complement up elements rule state ihu ihe =>
    obtain ⟨U, E, hup, hel, h⟩ := h
    simp only [Node.propagate, bind_eq_ok_iff, pure_eq_ok_iff] at hok
    obtain ⟨⟨up', ds⟩, h1, ⟨elements', es⟩, h2, ⟨state', out'⟩, h3, hpure⟩ := hok
    cases hpure
    obtain ⟨U', hU', hup'⟩ := ihu hup (ha.of_reads fun _ => .inl) hd.1 h1
    obtain ⟨E', hE', hel'⟩ := ihe hel (ha.of_reads fun _ => .inr) hd.2 h2
    obtain ⟨T', hT', h', -⟩ := h.process hU' hE' h3
    exact ⟨T', hT', U', E', hup', hel', h'⟩

/-- A batch in which tuples only come is orderly. -/
theorem orderly_of_inserts {T U : Tuples} {ds : List Delta} (h : Leads T ds U)
    (hds : ∀ d ∈ ds, d.IsInsert) : Orderly ds :=
  (h.pairwise_of_inserts hds).imp fun hne he => absurd he hne

/-- Where tuples only come nothing is taken out. -/
theorem removals_of_inserts {ds : List Delta} (hds : ∀ d ∈ ds, d.IsInsert) : removals ds = [] := by
  refine List.filterMap_eq_nil_iff.2 fun d hd => ?_
  have hins := hds d hd
  cases d with
  | insert => rfl
  | update => cases hins
  | retract => cases hins

/-- Loading a solution puts a graph without tuples in step with it, and tuples only come. -/
theorem load_inStep (hok : n.reset.load s = .ok (n', out)) :
    ∃ T, Leads Tuples.none out T ∧ n'.InStep (View.of s) T ∧ ∀ d ∈ out, d.IsInsert := by
  induction n generalizing n' out with
  | source c members =>
    cases hok
    refine ⟨_, leads_arrivals _, rfl, fun d hd => ?_⟩
    obtain ⟨i, hi, rfl⟩ := List.mem_mapIdx.1 hd
    trivial
  | filter up p passing ih =>
    simp only [Node.reset, ofFilter, Node.load, bind_eq_ok_iff, pure_eq_ok_iff] at hok
    obtain ⟨⟨up', ds⟩, h1, ⟨passing', out'⟩, h2, hpure⟩ := hok
    cases hpure
    obtain ⟨U, hU, hup, hds⟩ := ih h1
    obtain ⟨T, hT, h⟩ := (Filter.InStep.empty p).feed hU h2
    exact ⟨T, hT, ⟨U, hup, h⟩, Filter.isInsert hds (orderly_of_inserts hU hds) h2⟩
  | map up f ih =>
    simp only [Node.reset, Node.load, bind_eq_ok_iff, pure_eq_ok_iff] at hok
    obtain ⟨⟨up', ds⟩, h1, out', h2, hpure⟩ := hok
    cases hpure
    obtain ⟨U, hU, hup, hds⟩ := ih h1
    obtain ⟨T, hT, h⟩ := (Mapped.empty f).leads hU h2
    refine ⟨T, hT, ⟨U, hup, h⟩, fun d hd => ?_⟩
    obtain ⟨d', hd', hans⟩ := (Mapped.orderly (orderly_of_inserts hU hds) h2).2 d hd
    exact hans.insert (hds d' hd')
  | flatten up expand state ih =>
    simp only [Node.reset, ofFlatten, Node.load, bind_eq_ok_iff, pure_eq_ok_iff] at hok
    obtain ⟨⟨up', ds⟩, h1, ⟨state', out'⟩, h2, hpure⟩ := hok
    cases hpure
    obtain ⟨U, hU, hup, hds⟩ := ih h1
    obtain ⟨T, hT, h⟩ := (Flatten.InStep.empty expand).feed hU h2
    exact ⟨T, hT, ⟨U, hup, h⟩,
      Flatten.isInsert (Flatten.InStep.empty expand) hds (orderly_of_inserts hU hds) h2⟩
  | join left right rule state ihl ihr =>
    simp only [Node.reset, ofJoin, Node.load, bind_eq_ok_iff, pure_eq_ok_iff] at hok
    obtain ⟨⟨left', ls⟩, h1, ⟨right', rs⟩, h2, ⟨state', out'⟩, h3, hpure⟩ := hok
    cases hpure
    obtain ⟨L, hL, hl, hls⟩ := ihl h1
    obtain ⟨R, hR, hr, hrs⟩ := ihr h2
    obtain ⟨T, hT, h, gone, come, rfl, -, hcome, hnil⟩ := (Join.InStep.empty rule).process hL hR
      (orderly_of_inserts hL hls) (orderly_of_inserts hR hrs) h3
    obtain rfl := hnil (removals_of_inserts hls) (removals_of_inserts hrs)
    exact ⟨T, hT, ⟨L, R, hl, hr, h⟩, hcome⟩
  | «exists» left right rule state ihl ihr =>
    simp only [Node.reset, ofExists, Node.load, bind_eq_ok_iff, pure_eq_ok_iff] at hok
    obtain ⟨⟨left', ls⟩, h1, ⟨right', rs⟩, h2, ⟨state₁, out₁⟩, h3, ⟨state', out₂⟩, h4, hpure⟩ := hok
    cases hpure
    obtain ⟨L, hL, hl, hls⟩ := ihl h1
    obtain ⟨R, hR, hr, hrs⟩ := ihr h2
    -- The right side is loaded first: no left tuple is there to come or go.
    obtain ⟨T₁, hT₁, hs₁, gone₁, less₁, come₁, more₁, rfl, -, -, -, hmore₁, hgone₁, hless₁, hcome₁, -⟩ :=
      (Exists.InStep.empty rule).process (show Leads _ [] _ from rfl) hR List.Pairwise.nil
        (orderly_of_inserts hR hrs) h3
    obtain rfl := hgone₁ rfl
    obtain rfl := hless₁ (removals_of_inserts hrs)
    obtain rfl := hcome₁ rfl
    obtain rfl : more₁ = [] :=
      List.eq_nil_iff_forall_not_mem.2 fun d hd => (hmore₁ d hd).1 rfl
    obtain rfl : T₁ = Tuples.none := hT₁.symm
    obtain ⟨T, hT, h, gone, less, come, more, rfl, -, -, hcome, -, hgone, hless, -, hmore⟩ :=
      hs₁.process hL (show Leads _ [] _ from rfl) (orderly_of_inserts hL hls) List.Pairwise.nil h4
    obtain rfl := hgone (removals_of_inserts hls)
    obtain rfl := hless rfl
    obtain rfl := hmore rfl
    exact ⟨T, by simpa using hT, ⟨L, R, hl, hr, h⟩, by simpa using hcome⟩
  | group up rule state ih =>
    simp only [Node.reset, ofGroup, Node.load, bind_eq_ok_iff, pure_eq_ok_iff] at hok
    obtain ⟨⟨up', ds⟩, h1, ⟨state', out'⟩, h2, hpure⟩ := hok
    cases hpure
    obtain ⟨U, hU, hup, hds⟩ := ih h1
    obtain ⟨T, hT, h, -, hins⟩ := (GroupBy.InStep.empty rule).process hU h2
    exact ⟨T, hT, ⟨U, hup, h⟩, hins fun _ => rfl⟩
  | complement up elements rule state ihu ihe =>
    simp only [Node.reset, ofComplement, Node.load, bind_eq_ok_iff, pure_eq_ok_iff] at hok
    obtain ⟨⟨up', ds⟩, h1, ⟨elements', es⟩, h2, ⟨state', out'⟩, h3, hpure⟩ := hok
    cases hpure
    obtain ⟨U, hU, hup, hds⟩ := ihu h1
    obtain ⟨E, hE, hel, hes⟩ := ihe h2
    obtain ⟨T, hT, h, hins⟩ := (Complement.InStep.empty rule).process hU hE h3
    exact ⟨T, hT, ⟨U, E, hup, hel, h⟩, hins (fun _ => rfl) hds hes⟩

/-- A graph without tuples is left as it is when it is reset. -/
theorem reset_reset (n : Node S) : n.reset.reset = n.reset := by
  induction n <;>
    simp_all [Node.reset, ofFilter, ofFlatten, ofJoin, ofExists, ofGroup, ofComplement]

/-- Loading a solution leaves the graph as it is built. -/
theorem reset_of_load (hok : n.load s = .ok (n', out)) : n'.reset = n.reset := by
  induction n generalizing n' out <;>
    simp only [Node.load, bind_eq_ok_iff, pure_eq_ok_iff, Prod.exists, Prod.mk.injEq,
      Except.ok.injEq] at hok <;>
    grind [Node.reset]

/-- Propagating an event leaves the graph as it is built. -/
theorem reset_of_propagate (hok : n.propagate s e = .ok (n', out)) : n'.reset = n.reset := by
  induction n generalizing n' out <;>
    simp only [Node.propagate, bind_eq_ok_iff, pure_eq_ok_iff, Prod.exists, Prod.mk.injEq,
      Except.ok.injEq] at hok <;>
    grind [Node.reset]

end Node

end Planning
