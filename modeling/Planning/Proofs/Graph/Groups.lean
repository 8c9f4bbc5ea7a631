import Planning.Proofs.Graph.GroupBy

/-!
# Groups over batches

Fed with any batches a grouping gives out deltas that lead from nothing to one tuple for each key that a live
tuple carries, with the result over the inputs of the key. A group that has tuples before and after a batch
answers it with nothing, or with an update when its result changed, unless it had no tuple in between: an
update is a tuple that goes and comes again, so the only tuple of a group that changes takes the group with it,
and the group that comes instead has a new identity.
-/

namespace Planning

open Checked Delta

/-- A live tuple carries a key. -/
def GroupRule.Carried (rule : GroupRule) (T : Tuples) (k : Value) : Prop :=
  ∃ i t, T i = some t ∧ rule.key t = .ok k

namespace GroupBy

variable {rule : GroupRule} {s s' : GroupBy rule.collector} {T T' U : Tuples} {k : Value}

/-! ## What is collected -/

/-- The inputs of the live tuples are recorded and grouped, and the live tuples of the grouping are one for each
key, with the result over its inputs. -/
structure Collects (rule : GroupRule) (s : GroupBy rule.collector) (T U : Tuples) (name : Value → Option TupleId) :
    Prop where
  /-- The key and the input of each live tuple are recorded. -/
  recorded : ∀ i t, T i = some t →
    ∃ k v, rule.key t = .ok k ∧ rule.collector.extract t = .ok v ∧ s.inputs.get? i = some (k, v)
  /-- Nothing else is recorded. -/
  gone : ∀ i, T i = none → s.inputs.get? i = none
  /-- The group of a key has as many tuples as are recorded with the key and is in a state reached by their inputs;
  there is none for no tuples. -/
  grouped : ∀ k, ∃ m, Members s.inputs.get? k m ∧ Kept m (s.groups.get? k)
  /-- A key has a name when a live tuple carries it. -/
  named : ∀ k, name k ≠ none ↔ rule.Carried T k
  /-- The tuple of a key has what any state reached by the inputs of the key finishes into. -/
  live : ∀ k id m, name k = some id → Members s.inputs.get? k m →
    ∃ r, U id = some (rule.output k r) ∧
      ∀ state, rule.collector.Reaches (m.map Prod.snd) state → rule.collector.finish state = .ok r
  /-- Nothing else is live. -/
  owner : ∀ id, U id ≠ none → ∃ k, name k = some id
  /-- Different keys have different names. -/
  apart : ∀ k k' id, name k = some id → name k' = some id → k = k'

/-- The key and the input of a live tuple are recorded. -/
theorem Grouped.recorded (h : s.Grouped rule T) {i : TupleId} {t : Value} (ht : T i = some t) :
    ∃ k v, rule.key t = .ok k ∧ rule.collector.extract t = .ok v ∧ s.inputs.get? i = some (k, v) := by
  obtain ⟨⟨k, v⟩, hkv⟩ := Option.ne_none_iff_exists'.1 (h.entry i t ht)
  refine ⟨k, v, ?_⟩
  rw [h.inputs, ht, Option.bind_some, hkv]
  unfold GroupRule.entry at hkv
  split at hkv
  · rename_i k' v' hk hv
    cases hkv
    exact ⟨hk, hv, rfl⟩
  · cases hkv

/-- What is recorded is the key and the input of a live tuple. -/
theorem Grouped.exists_of_recorded (h : s.Grouped rule T) {i : TupleId} {v : rule.collector.Input}
    (hi : s.inputs.get? i = some (k, v)) : ∃ t, T i = some t ∧ rule.key t = .ok k := by
  rw [h.inputs] at hi
  obtain ⟨t, ht, -⟩ := Option.bind_eq_some_iff.1 hi
  obtain ⟨k', v', hk, -, hget⟩ := h.recorded ht
  rw [h.inputs, hi] at hget
  cases hget
  exact ⟨t, ht, hk⟩

/-- There is a group for a key when a live tuple carries it. -/
theorem Grouped.get?_ne_none_iff (h : s.Grouped rule T) (k : Value) :
    s.groups.get? k ≠ none ↔ rule.Carried T k := by
  obtain ⟨m, hm, hkept⟩ := h.groups k
  have hmember : m ≠ 0 ↔ rule.Carried T k := by
    constructor
    · intro hne
      obtain ⟨⟨i, v⟩, hi⟩ := Multiset.exists_mem_of_ne_zero hne
      exact ⟨i, h.exists_of_recorded ((hm.mem_iff i v).1 hi)⟩
    · rintro ⟨i, t, ht, hk⟩ rfl
      obtain ⟨k', v, hk', -, hget⟩ := h.recorded ht
      obtain rfl := Except.ok.inj (hk.symm.trans hk')
      exact absurd ((hm.mem_iff i v).2 hget) (Multiset.notMem_zero _)
  rw [← hmember]
  cases hget : s.groups.get? k with
  | none =>
    rw [hget] at hkept
    exact ⟨fun hne => absurd rfl hne, fun hne => absurd hkept hne⟩
  | some g =>
    rw [hget] at hkept
    exact ⟨fun _ => hkept.1, fun _ => nofun⟩

/-- A grouping in step with the live tuples has collected them. -/
theorem InStep.collects (h : s.InStep rule T U) (hf : rule.collector.OrderFree) :
    Collects rule s T U (nameOf s.groups.get?) where
  recorded _ _ ht := h.grouped.recorded ht
  gone i hi := by rw [h.grouped.inputs, hi, Option.bind_none]
  grouped := h.grouped.groups
  named k := by
    rw [← h.grouped.get?_ne_none_iff, nameOf, ne_eq, Option.map_eq_none_iff]
  live k id m hname hm := by
    obtain ⟨g, hg, hid⟩ := Option.map_eq_some_iff.1 hname
    obtain ⟨m', hm', hkept⟩ := h.grouped.groups k
    obtain rfl := hm.unique hm'
    rw [hg] at hkept
    obtain ⟨r, hr⟩ := h.finish k g hg
    refine ⟨r, ?_, fun state hstate => (hf _ _ _ hstate hkept.2.2).trans hr⟩
    rw [(h.named.tuple k id hname).1, resultOf, hg, Option.bind_some, hr]
    rfl
  owner := h.named.owner
  apart := h.named.inj

/-- A grouping stays in step over batches. -/
theorem InStep.feed {batches : List (List Delta)} (h : s.InStep rule T U) (hT : Leads T batches.flatten T')
    {out : List Delta} (hok : feed (fun s ds => s.process rule ds) s batches = .ok (s', out)) :
    ∃ U', Leads U out U' ∧ s'.InStep rule T' U' := by
  induction batches generalizing s T U out with
  | nil =>
    cases hok
    cases hT
    exact ⟨U, rfl, h⟩
  | cons ds batches ih =>
    rw [List.flatten_cons] at hT
    obtain ⟨T₁, hds, hrest⟩ := leads_append.1 hT
    obtain ⟨s₁, first, rest, h₁, h₂, rfl⟩ := feed_cons_eq_ok_iff.1 hok
    obtain ⟨U₁, hU₁, hs₁, -, -⟩ := h.process hds h₁
    obtain ⟨U', hU', hs'⟩ := ih hs₁ hrest h₂
    exact ⟨U', hU₁.append hU', hs'⟩

end GroupBy

/-! ## Answers -/

/-- Keys, inputs and results are defined for all tuples and states. -/
structure GroupRule.Total (rule : GroupRule) : Prop where
  /-- Each tuple has a key. -/
  key : ∀ t, ∃ k, rule.key t = .ok k
  /-- Each tuple has an input. -/
  extract : ∀ t, ∃ v, rule.collector.extract t = .ok v
  /-- Each state has a result. -/
  finish : ∀ s, ∃ r, rule.collector.finish s = .ok r

namespace GroupBy

variable {rule : GroupRule}

/-- What a group answers with is defined where results are. -/
theorem exists_outcome (h : rule.Total) (s : GroupBy rule.collector) (k : Value) : ∃ o, s.outcome k = .ok o := by
  unfold outcome
  split
  · rename_i g _
    obtain ⟨r, hr⟩ := h.finish g.state
    exact ⟨_, bind_eq_ok_iff.2 ⟨r, hr, rfl⟩⟩
  · exact ⟨none, rfl⟩

/-- A key can be touched where results are defined. -/
theorem exists_touch (h : rule.Total) (s : GroupBy rule.collector) (touched : Touched) (k : Value) :
    ∃ touched', s.touch touched k = .ok touched' := by
  unfold GroupBy.touch
  split
  · exact ⟨touched, rfl⟩
  · obtain ⟨o, ho⟩ := exists_outcome h s k
    exact ⟨_, bind_eq_ok_iff.2 ⟨o, ho, rfl⟩⟩

/-- A tuple can go unless a number overflows. -/
theorem overflowOnly_removeTuple (h : rule.Total) (s : GroupBy rule.collector) (touched : Touched) (i : TupleId) :
    OverflowOnly (s.removeTuple touched i) := by
  have hleave : ∀ (s : GroupBy rule.collector) k v, OverflowOnly (s.leave k v) := by
    intro s k v
    unfold leave
    split
    · rename_i g _
      exact (Collector.overflowOnly_retract _ g.state v).bind fun _ _ => .ite (.pure _) (.pure _)
    · exact .ok _
  unfold removeTuple
  split
  · exact (OverflowOnly.of_exists (exists_touch h _ touched _)).bind fun _ _ =>
      (hleave _ _ _).bind fun _ _ => .pure _
  · exact .ok _

/-- A tuple can come unless a number overflows. -/
theorem overflowOnly_insertTuple (h : rule.Total) (s : GroupBy rule.collector) (touched : Touched) (i : TupleId)
    (t : Value) : OverflowOnly (s.insertTuple rule touched i t) := by
  have hadd : ∀ k v, OverflowOnly (s.add i k v) := by
    intro k v
    unfold GroupBy.add
    exact (Collector.overflowOnly_accumulate _ _ v).bind fun _ _ => .pure _
  exact (OverflowOnly.of_exists (h.key t)).bind fun k _ =>
    (OverflowOnly.of_exists (exists_touch h s touched k)).bind fun _ _ =>
      (OverflowOnly.of_exists (h.extract t)).bind fun v _ => (hadd k v).bind fun _ _ => .pure _

/-- A batch can be taken in unless a number overflows. -/
theorem overflowOnly_process (h : rule.Total) (s : GroupBy rule.collector) (ds : List Delta) :
    OverflowOnly (s.process rule ds) := by
  have habsorb : ∀ (p : GroupBy rule.collector × Touched) d, OverflowOnly (absorb rule p d) := by
    rintro ⟨s, touched⟩ (⟨i, t⟩ | ⟨i, t⟩ | i)
    · exact overflowOnly_insertTuple h s touched i t
    · exact (overflowOnly_removeTuple h s touched i).bind fun p _ => overflowOnly_insertTuple h p.1 p.2 i t
    · exact overflowOnly_removeTuple h s touched i
  have hdifferences : ∀ (s : GroupBy rule.collector) ts, ∃ out, s.differences rule.output ts = .ok out := by
    intro s ts
    induction ts with
    | nil => exact ⟨[], rfl⟩
    | cons t ts ih =>
      obtain ⟨o, ho⟩ := exists_outcome h s t.1
      obtain ⟨out, hout⟩ := ih
      exact ⟨_, bind_eq_ok_iff.2 ⟨o, ho, bind_eq_ok_iff.2 ⟨out, hout, rfl⟩⟩⟩
  exact (OverflowOnly.foldlM habsorb ds (s, [])).bind fun p _ =>
    (OverflowOnly.of_exists (hdifferences p.1 p.2)).bind fun _ _ => .pure _

/-- Steps that can be taken unless a number overflows can be taken for all items. -/
theorem overflowOnly_feed {σ ι ο : Type} {step : σ → ι → Checked (σ × List ο)}
    (hstep : ∀ s i, OverflowOnly (step s i)) (items : List ι) (s : σ) : OverflowOnly (feed step s items) := by
  induction items generalizing s with
  | nil => exact .ok _
  | cons i items ih => exact (hstep s i).bind fun p _ => (ih p.1).bind fun _ _ => .pure _

/-- Fed with any batches a grouping gives out deltas that lead from nothing to one tuple for each key that a live
tuple carries, with the result over the inputs of the key, and its groups are those of the recorded inputs; where
keys, inputs and results are defined nothing but an overflow stops it. -/
theorem collects_of_batches (rule : GroupRule) (hf : rule.collector.OrderFree) {batches : List (List Delta)}
    {T : Tuples} (hT : Leads Tuples.none batches.flatten T) :
    (∀ s out, feed (fun s ds => s.process rule ds) ({} : GroupBy rule.collector) batches = .ok (s, out) →
      ∃ U name, Leads Tuples.none out U ∧ Collects rule s T U name) ∧
    (rule.Total →
      OverflowOnly (feed (fun s ds => s.process rule ds) ({} : GroupBy rule.collector) batches)) := by
  refine ⟨fun s out hok => ?_, fun htotal => overflowOnly_feed (overflowOnly_process htotal) batches _⟩
  obtain ⟨U, hU, hs⟩ := (InStep.empty rule).feed hT hok
  exact ⟨U, _, hU, hs.collects hf⟩

/-- The sum of what pairs with a key. -/
def totals : GroupRule := ⟨fun t => .ok (t.at? 0), .sum fun t => .ok (t.at? 1).toInt, .pair⟩

/-- Three tuples come in two groups, and then two of them change groups: one group is left by all and comes again. -/
def exchange : List (List Delta) :=
  [[.insert 0 (.pair (.int 1) (.int 5)), .insert 1 (.pair (.int 1) (.int 6)), .insert 2 (.pair (.int 2) (.int 7))],
    [.update 0 (.pair (.int 2) (.int 5)), .update 1 (.pair (.int 2) (.int 6)), .update 2 (.pair (.int 1) (.int 7))]]

theorem collects_of_exchange :
    ∃ T s out U name, Leads Tuples.none exchange.flatten T ∧
      feed (fun s ds => s.process totals ds) ({} : GroupBy totals.collector) exchange = .ok (s, out) ∧
      Leads Tuples.none out U ∧ Collects totals s T U name := by
  have hT : ∃ T, Leads Tuples.none exchange.flatten T := ⟨_, rfl, rfl, rfl, nofun, nofun, nofun, rfl⟩
  have hfeed : ∃ s out, feed (fun s ds => s.process totals ds) ({} : GroupBy totals.collector) exchange =
      .ok (s, out) := ⟨_, _, rfl⟩
  obtain ⟨T, hT⟩ := hT
  obtain ⟨s, out, hok⟩ := hfeed
  have hf : totals.collector.OrderFree := Collector.orderFree_sum _
  obtain ⟨U, name, hU, hname⟩ := (collects_of_batches totals hf hT).1 s out hok
  exact ⟨T, s, out, U, name, hT, hok, hU, hname⟩

end GroupBy

/-! ## Groups that stay -/

/-- A tuple that changes goes and comes again. -/
def Delta.halves : Delta → List Delta
  | insert i t => [insert i t]
  | update i t => [retract i, insert i t]
  | retract i => [retract i]

namespace Delta

/-- The halves of deltas insert or retract. -/
theorem isInsert_or_isRetract_of_mem_halves {ds : List Delta} {d : Delta} (h : d ∈ ds.flatMap halves) :
    d.IsInsert ∨ d.IsRetract := by
  obtain ⟨e, -, he⟩ := List.mem_flatMap.1 h
  cases e with
  | insert i t =>
    obtain rfl := List.mem_singleton.1 he
    exact .inl trivial
  | update i t =>
    rcases List.mem_cons.1 he with rfl | he
    · exact .inr trivial
    · obtain rfl := List.mem_singleton.1 he
      exact .inl trivial
  | retract i =>
    obtain rfl := List.mem_singleton.1 he
    exact .inr trivial

/-- Deltas lead where their halves do. -/
theorem Leads.halves {T T' : Tuples} {ds : List Delta} (h : Leads T ds T') : Leads T (ds.flatMap halves) T' := by
  induction ds generalizing T with
  | nil => exact h
  | cons d ds ih =>
    obtain ⟨hd, hds⟩ := h
    rw [List.flatMap_cons]
    refine Leads.append ?_ (ih hds)
    cases d with
    | insert i t => exact ⟨hd, rfl⟩
    | update i t => exact ⟨hd, apply_id (d := retract i), Function.update_idem ..⟩
    | retract i => exact ⟨hd, rfl⟩

/-- A tuple that no delta is about stays. -/
theorem Leads.eq_of_forall_ne {T U : Tuples} {ds : List Delta} (h : Leads T ds U) {i : TupleId}
    (hne : ∀ d ∈ ds, d.id ≠ i) : U i = T i := by
  induction ds generalizing T with
  | nil => rw [leads_nil.1 h]
  | cons d ds ih =>
    obtain ⟨hd, hds⟩ := List.forall_mem_cons.1 hne
    rw [ih h.2 hds, apply_of_ne hd.symm]

end Delta

namespace GroupBy

variable {rule : GroupRule} {s s' : GroupBy rule.collector} {T T' U : Tuples} {k : Value}
  {touched touched' : Touched} {before : Value → Option (Group rule.collector)} {start : TupleId}

/-- A batch is taken in half by half. -/
theorem foldlM_halves (ds : List Delta) (p : GroupBy rule.collector × Touched) :
    (ds.flatMap halves).foldlM (GroupBy.absorb rule) p = ds.foldlM (GroupBy.absorb rule) p := by
  induction ds generalizing p with
  | nil => rfl
  | cons d ds ih =>
    have hd : d.halves.foldlM (GroupBy.absorb rule) p = GroupBy.absorb rule p d := by
      cases d with
      | insert i t => exact bind_pure _
      | update i t => exact congrArg _ (funext fun _ => bind_pure _)
      | retract i => exact bind_pure _
    rw [List.flatMap_cons, List.foldlM_append, hd, List.foldlM_cons]
    exact congrArg _ (funext ih)

/-- A group that a tuple comes into keeps its identity. -/
theorem id_of_add {i : TupleId} {v : rule.collector.Input} (hok : s.add i k v = .ok s') {g g' : Group rule.collector}
    (hg : s.groups.get? k = some g) (hg' : s'.groups.get? k = some g') : g'.id = g.id := by
  unfold GroupBy.add at hok
  rw [hg] at hok
  obtain ⟨state, -, hok⟩ := bind_eq_ok_iff.1 hok
  cases pure_eq_ok_iff.1 hok
  rw [Table.get?_set, if_pos rfl] at hg'
  cases hg'
  rfl

/-- A group that a tuple leaves keeps its identity. -/
theorem id_of_leave {v : rule.collector.Input} (hok : s.leave k v = .ok s') {g g' : Group rule.collector}
    (hg : s.groups.get? k = some g) (hg' : s'.groups.get? k = some g') : g'.id = g.id := by
  unfold GroupBy.leave at hok
  rw [hg] at hok
  obtain ⟨state, -, hok⟩ := bind_eq_ok_iff.1 hok
  split at hok
  · cases pure_eq_ok_iff.1 hok
    rw [Table.get?_erase, if_pos rfl] at hg'
    cases hg'
  · cases pure_eq_ok_iff.1 hok
    rw [Table.get?_set, if_pos rfl] at hg'
    cases hg'
    rfl

/-- A tuple that comes or goes touches one group, and every group that is there before and after keeps its
identity. -/
theorem Grouped.touches (h : s.Grouped rule T) {d : Delta} (hd : d.Fits T) (hhalf : d.IsInsert ∨ d.IsRetract)
    (hok : GroupBy.absorb rule (s, touched) d = .ok (s', touched')) :
    ∃ k, Touches k s s' ∧
      ∀ g g', s.groups.get? k = some g → s'.groups.get? k = some g' → g'.id = g.id := by
  cases d with
  | insert i t =>
    obtain ⟨k, hk, hok⟩ := bind_eq_ok_iff.1 hok
    obtain ⟨touched₁, -, hok⟩ := bind_eq_ok_iff.1 hok
    obtain ⟨v, hv, hok⟩ := bind_eq_ok_iff.1 hok
    obtain ⟨s₁, hadd, hok⟩ := bind_eq_ok_iff.1 hok
    cases pure_eq_ok_iff.1 hok
    exact ⟨k, (h.add hd (GroupRule.entry_eq hk hv) hadd).2, fun g g' => id_of_add hadd⟩
  | update i t => exact (hhalf.elim id id).elim
  | retract i =>
    obtain ⟨t, ht⟩ := Option.ne_none_iff_exists'.1 hd
    obtain ⟨k, v, -, -, hget⟩ := h.recorded ht
    change s.removeTuple touched i = .ok (s', touched') at hok
    rw [GroupBy.removeTuple, hget] at hok
    obtain ⟨touched₁, -, hok⟩ := bind_eq_ok_iff.1 hok
    obtain ⟨s₁, hleave, hok⟩ := bind_eq_ok_iff.1 hok
    cases pure_eq_ok_iff.1 hok
    exact ⟨k, (h.leave hget hleave).2, fun g g' => id_of_leave hleave⟩

/-- A group that is there before and after a tuple came or went keeps its identity. -/
theorem Grouped.id_eq (h : s.Grouped rule T) {d : Delta} (hd : d.Fits T) (hhalf : d.IsInsert ∨ d.IsRetract)
    (hok : GroupBy.absorb rule (s, touched) d = .ok (s', touched')) {g g' : Group rule.collector}
    (hg : s.groups.get? k = some g) (hg' : s'.groups.get? k = some g') : g'.id = g.id := by
  obtain ⟨k₀, ht, hid⟩ := h.touches hd hhalf hok
  by_cases hk : k = k₀
  · subst hk
    exact hid g g' hg hg'
  · rw [ht.other k hk, hg] at hg'
    cases hg'
    rfl

/-- A group whose key is carried all the time keeps its identity. -/
theorem Grouped.id_of_carried (h : s.Grouped rule T) (hn : Noted before start s touched) {ds : List Delta}
    (hhalves : ∀ d ∈ ds, d.IsInsert ∨ d.IsRetract) (hT : Leads T ds T')
    (hok : ds.foldlM (GroupBy.absorb rule) (s, touched) = .ok (s', touched'))
    (hcarried : ∀ l₁ l₂ V, l₁ ++ l₂ = ds → Leads T l₁ V → rule.Carried V k) {g g' : Group rule.collector}
    (hg : s.groups.get? k = some g) (hg' : s'.groups.get? k = some g') : g'.id = g.id := by
  induction ds generalizing s touched T g with
  | nil =>
    cases hok
    rw [hg] at hg'
    cases hg'
    rfl
  | cons d ds ih =>
    obtain ⟨hd, hds⟩ := hT
    rw [List.foldlM_cons] at hok
    obtain ⟨⟨s₁, touched₁⟩, h₁, h₂⟩ := bind_eq_ok_iff.1 hok
    obtain ⟨hgrouped, hn₁⟩ := h.absorb hn hd h₁
    obtain ⟨hhalf, hhalves⟩ := List.forall_mem_cons.1 hhalves
    have hsome := (hgrouped.get?_ne_none_iff k).2 (hcarried [d] ds _ rfl (.single hd))
    obtain ⟨g₁, hg₁⟩ := Option.ne_none_iff_exists'.1 hsome
    rw [← h.id_eq hd hhalf h₁ hg hg₁]
    refine ih hgrouped hn₁ hhalves hds h₂ (fun l₁ l₂ V hl hV => ?_) hg₁
    exact hcarried (d :: l₁) l₂ V (by rw [List.cons_append, hl]) ⟨hd, hV⟩

/-- A group that came after a time has an identity given out after it. -/
theorem Grouped.le_id (h : s.Grouped rule T) (hn : Noted before start s touched) {ds : List Delta}
    (hhalves : ∀ d ∈ ds, d.IsInsert ∨ d.IsRetract) (hT : Leads T ds T')
    (hok : ds.foldlM (GroupBy.absorb rule) (s, touched) = .ok (s', touched')) {n : TupleId} (hnext : n ≤ s.next)
    (hnew : ∀ g, s.groups.get? k = some g → n ≤ g.id) {g : Group rule.collector}
    (hg : s'.groups.get? k = some g) : n ≤ g.id := by
  induction ds generalizing s touched T with
  | nil =>
    cases hok
    exact hnew g hg
  | cons d ds ih =>
    obtain ⟨hd, hds⟩ := hT
    rw [List.foldlM_cons] at hok
    obtain ⟨⟨s₁, touched₁⟩, h₁, h₂⟩ := bind_eq_ok_iff.1 hok
    obtain ⟨hgrouped, hn₁⟩ := h.absorb hn hd h₁
    obtain ⟨hhalf, hhalves⟩ := List.forall_mem_cons.1 hhalves
    obtain ⟨k₀, ht, -⟩ := h.touches hd hhalf h₁
    refine ih hgrouped hn₁ hhalves hds h₂ (hnext.trans ht.next) fun g₁ hg₁ => ?_
    by_cases hk : k = k₀
    · subst hk
      rcases (ht.id g₁ hg₁).2 with ⟨g₀, hg₀, hid⟩ | hle
      · rw [← hid]
        exact hnew g₀ hg₀
      · exact hnext.trans hle
    · rw [ht.other k hk] at hg₁
      exact hnew g₁ hg₁

/-- Somewhere within a batch no live tuple carries a key; a tuple that changes goes and comes again. -/
def Lapses (rule : GroupRule) (T : Tuples) (ds : List Delta) (k : Value) : Prop :=
  ∃ l₁ l₂ V, l₁ ++ l₂ = ds.flatMap halves ∧ Leads T l₁ V ∧ ¬ rule.Carried V k

/-- A group keeps its identity over a batch unless its key lapses, and then the group has a new one. -/
theorem Grouped.id_of_absorb (h : s.Grouped rule T) {ds : List Delta} (hT : Leads T ds T')
    (hok : ds.foldlM (GroupBy.absorb rule) (s, []) = .ok (s', touched)) {g g' : Group rule.collector}
    (hg : s.groups.get? k = some g) (hg' : s'.groups.get? k = some g') :
    (¬ Lapses rule T ds k → g'.id = g.id) ∧ (Lapses rule T ds k → g.id < g'.id) := by
  rw [← foldlM_halves] at hok
  have hhalves : ∀ d ∈ ds.flatMap halves, d.IsInsert ∨ d.IsRetract := fun d hd =>
    isInsert_or_isRetract_of_mem_halves hd
  refine ⟨fun hstay => ?_, ?_⟩
  · refine h.id_of_carried (Noted.empty s) hhalves hT.halves hok (fun l₁ l₂ V hl hV => ?_) hg hg'
    by_contra hnot
    exact hstay ⟨l₁, l₂, V, hl, hV, hnot⟩
  · rintro ⟨l₁, l₂, V, hl, hV, hnot⟩
    have hT' := hT.halves
    rw [← hl] at hT' hok hhalves
    rw [List.foldlM_append] at hok
    obtain ⟨⟨s₁, touched₁⟩, h₁, h₂⟩ := bind_eq_ok_iff.1 hok
    obtain ⟨hgrouped, hn⟩ := h.absorb_all (Noted.empty s) hV h₁
    obtain ⟨V', hV', hV'T⟩ := leads_append.1 hT'
    obtain rfl := hV.unique hV'
    have hnone : s₁.groups.get? k = none := by
      by_contra hsome
      exact hnot ((hgrouped.get?_ne_none_iff k).1 hsome)
    have hle := hgrouped.le_id hn (fun d hd => hhalves d (List.mem_append_right l₁ hd)) hV'T h₂ (Nat.le_refl s₁.next)
      (by simp [hnone]) hg'
    exact Nat.lt_of_lt_of_le (h.below k g hg) (hn.next.trans hle)

/-- The deltas that are about one group are those of its key. -/
theorem filter_differences {c : Collector} {s : GroupBy c} {output : Value → Value → Value} {ts : Touched} {out : List Delta}
    {k : Value} {about : Delta → Bool} (hts : (ts.map Prod.fst).Nodup) (hok : s.differences output ts = .ok out)
    (hothers : ∀ q o o', (q, o) ∈ ts → q ≠ k → s.outcome q = .ok o' → ∀ d ∈ difference output q o o', about d = false) :
    (k ∉ ts.map Prod.fst → out.filter about = []) ∧
      ∀ o, (k, o) ∈ ts → ∃ o', s.outcome k = .ok o' ∧ out.filter about = (difference output k o o').filter about := by
  induction ts generalizing out with
  | nil =>
    cases hok
    exact ⟨fun _ => rfl, fun o ho => absurd ho List.not_mem_nil⟩
  | cons t ts ih =>
    obtain ⟨q, o⟩ := t
    obtain ⟨o', rest, ho', hrest, rfl⟩ := differences_cons hok
    obtain ⟨hq, hts⟩ := List.nodup_cons.1 hts
    obtain ⟨hnone, hone⟩ := ih hts hrest fun q o o' hqo => hothers q o o' (List.mem_cons_of_mem _ hqo)
    rw [List.filter_append]
    by_cases hk : q = k
    · subst hk
      rw [hnone hq, List.append_nil]
      refine ⟨fun hnot => absurd List.mem_cons_self hnot, fun o₁ ho₁ => ?_⟩
      rcases List.mem_cons.1 ho₁ with heq | hmem
      · cases heq
        exact ⟨o', ho', rfl⟩
      · exact absurd (List.mem_map_of_mem hmem) hq
    · have hnil : (difference output q o o').filter about = [] := by
        rw [List.filter_eq_nil_iff]
        intro d hd
        rw [hothers q o o' List.mem_cons_self hk ho' d hd]
        exact Bool.false_ne_true
      rw [hnil, List.nil_append]
      refine ⟨fun hnot => hnone fun hmem => hnot (List.mem_cons_of_mem q hmem), fun o₁ ho₁ => hone o₁ ?_⟩
      rcases List.mem_cons.1 ho₁ with heq | hmem
      · exact absurd (Prod.mk.inj heq).1.symm hk
      · exact hmem

/-- A batch answers for the group of a touched key with its difference, and not at all for another one. -/
theorem Grouped.filter_process (h : s.Grouped rule T) {ds out : List Delta} (hT : Leads T ds T')
    (hok : s.process rule ds = .ok (s', out)) {g g' : Group rule.collector} (hg : s.groups.get? k = some g)
    (hg' : s'.groups.get? k = some g') :
    (g' = g ∧ out.filter (fun d => d.id = g.id ∨ d.id = g'.id) = []) ∨
      ∃ r r', rule.collector.finish g.state = .ok r ∧ rule.collector.finish g'.state = .ok r' ∧
        out.filter (fun d => d.id = g.id ∨ d.id = g'.id) =
          difference rule.output k (some ⟨g.id, r⟩) (some ⟨g'.id, r'⟩) := by
  obtain ⟨⟨s₁, touched⟩, habsorb, hok⟩ := bind_eq_ok_iff.1 hok
  obtain ⟨ds', hdiff, hok⟩ := bind_eq_ok_iff.1 hok
  cases pure_eq_ok_iff.1 hok
  obtain ⟨hgrouped, hn⟩ := h.absorb_all (Noted.empty s) hT habsorb
  have hapart := hn.apart h.below h.inj hgrouped.inj
  have hothers : ∀ q o o', (q, o) ∈ touched → q ≠ k → s'.outcome q = .ok o' →
      ∀ d ∈ difference rule.output q o o', decide (d.id = g.id ∨ d.id = g'.id) = false := by
    intro q o o' hqo hq ho' d hd
    have hne : ∀ g₁, s.groups.get? q = some g₁ ∨ s'.groups.get? q = some g₁ → g₁.id ≠ g.id ∧ g₁.id ≠ g'.id :=
      fun g₁ hg₁ => ⟨hapart q k g₁ g hq hg₁ (.inl hg), hapart q k g₁ g' hq hg₁ (.inr hg')⟩
    rw [decide_eq_false_iff_not, not_or]
    obtain ⟨g₁, hg₁, hid⟩ := id_of_mem_difference (hn.answer q o hqo) ho' hd
    exact hid ▸ hne g₁ hg₁
  obtain ⟨hnone, hone⟩ := filter_differences hn.nodup hdiff hothers
  by_cases hk : k ∈ touched.map Prod.fst
  · obtain ⟨⟨_, o⟩, hmem, rfl⟩ := List.mem_map.1 hk
    obtain ⟨o', ho', hfilter⟩ := hone o hmem
    have hanswer := hn.answer _ o hmem
    rw [hg] at hanswer
    obtain ⟨r, hr, rfl⟩ := hanswer
    have houtcome := outcome_eq ho'
    rw [hg'] at houtcome
    obtain ⟨r', hr', rfl⟩ := houtcome
    refine .inr ⟨r, r', hr, hr', hfilter.trans (List.filter_eq_self.2 fun d hd => decide_eq_true ?_)⟩
    have hid := (mem_difference rule.output _ _ _).2.2 d hd
    exact hid.imp (fun hid => (Option.some.inj hid).symm) fun hid => (Option.some.inj hid).symm
  · have hsame := hn.rest k hk
    rw [hg, hg'] at hsame
    exact .inl ⟨Option.some.inj hsame, hnone hk⟩

/-- A group that is there before and after a batch and whose key does not lapse keeps its identity, and it is
answered by nothing when its result stays and by one update when it changes. A group whose key lapses is
answered by its retraction and the insertion of the group that came instead, whether the result changes or
not. -/
theorem answers_of_process (h : s.Grouped rule T) {ds out : List Delta} (hT : Leads T ds T')
    (hok : s.process rule ds = .ok (s', out)) {g g' : Group rule.collector} (hg : s.groups.get? k = some g)
    (hg' : s'.groups.get? k = some g') :
    (¬ Lapses rule T ds k → g'.id = g.id ∧
      (rule.collector.finish g'.state = rule.collector.finish g.state ∧ (∀ d ∈ out, d.id ≠ g.id) ∨
        ∃ r r', rule.collector.finish g.state = .ok r ∧ rule.collector.finish g'.state = .ok r' ∧ r ≠ r' ∧
          out.filter (fun d => d.id = g.id) = [update g.id (rule.output k r')])) ∧
    (Lapses rule T ds k → g.id < g'.id ∧ ∃ r', rule.collector.finish g'.state = .ok r' ∧
      out.filter (fun d => d.id = g.id ∨ d.id = g'.id) =
        [retract g.id, insert g'.id (rule.output k r')]) := by
  have hids : (¬ Lapses rule T ds k → g'.id = g.id) ∧ (Lapses rule T ds k → g.id < g'.id) := by
    obtain ⟨⟨s₁, touched⟩, habsorb, hok⟩ := bind_eq_ok_iff.1 hok
    obtain ⟨ds', -, hok⟩ := bind_eq_ok_iff.1 hok
    cases pure_eq_ok_iff.1 hok
    exact h.id_of_absorb hT habsorb hg hg'
  refine ⟨fun hstay => ⟨hids.1 hstay, ?_⟩, fun hlapse => ⟨hids.2 hlapse, ?_⟩⟩
  · have hid := hids.1 hstay
    rcases h.filter_process hT hok hg hg' with ⟨rfl, hfilter⟩ | ⟨r, r', hr, hr', hfilter⟩
    · refine .inl ⟨rfl, fun d hd => ?_⟩
      simpa using List.filter_eq_nil_iff.1 hfilter d hd
    · rw [hid] at hfilter
      simp only [or_self, difference, ne_eq, not_true_eq_false, if_false] at hfilter
      by_cases heq : r = r'
      · subst heq
        rw [if_neg (not_not_intro rfl)] at hfilter
        refine .inl ⟨hr'.trans hr.symm, fun d hd => ?_⟩
        simpa using List.filter_eq_nil_iff.1 hfilter d hd
      · rw [if_pos heq] at hfilter
        exact .inr ⟨r, r', hr, hr', heq, hfilter⟩
  · have hne : g.id ≠ g'.id := Nat.ne_of_lt (hids.2 hlapse)
    rcases h.filter_process hT hok hg hg' with ⟨rfl, -⟩ | ⟨r, r', hr, hr', hfilter⟩
    · exact absurd rfl hne
    · rw [difference, if_pos hne] at hfilter
      exact ⟨r', hr', hfilter⟩

theorem answers_of_process_change :
    ∃ (s s' : GroupBy totals.collector) (T T' : Tuples) (g g' : Group totals.collector) (out : List Delta),
      s.Grouped totals T ∧ Leads T [update 0 (.pair (.int 1) (.int 7))] T' ∧
      s.process totals [update 0 (.pair (.int 1) (.int 7))] = .ok (s', out) ∧
      s.groups.get? (.int 1) = some g ∧ s'.groups.get? (.int 1) = some g' ∧
      ¬ Lapses totals T [update 0 (.pair (.int 1) (.int 7))] (.int 1) ∧ g'.id = g.id ∧
      (totals.collector.finish g'.state = totals.collector.finish g.state ∧ (∀ d ∈ out, d.id ≠ g.id) ∨
        ∃ r r', totals.collector.finish g.state = .ok r ∧ totals.collector.finish g'.state = .ok r' ∧ r ≠ r' ∧
          out.filter (fun d => d.id = g.id) = [update g.id (totals.output (.int 1) r')]) := by
  obtain ⟨s, s', g, g', first, out, hfirst, hok, hg, hg'⟩ : ∃ (s s' : GroupBy totals.collector)
      (g g' : Group totals.collector) (first out : List Delta),
      ({} : GroupBy totals.collector).process totals
        [insert 0 (.pair (.int 1) (.int 5)), insert 1 (.pair (.int 1) (.int 6))] = .ok (s, first) ∧
      s.process totals [update 0 (.pair (.int 1) (.int 7))] = .ok (s', out) ∧
      s.groups.get? (.int 1) = some g ∧ s'.groups.get? (.int 1) = some g' :=
    ⟨_, _, _, _, _, _, rfl, rfl, rfl, rfl⟩
  obtain ⟨T, T', hT, hT', hone⟩ : ∃ T T', Leads Tuples.none
      [insert 0 (.pair (.int 1) (.int 5)), insert 1 (.pair (.int 1) (.int 6))] T ∧
      Leads T [update 0 (.pair (.int 1) (.int 7))] T' ∧ T 1 = some (.pair (.int 1) (.int 6)) :=
    ⟨_, _, ⟨rfl, rfl, rfl⟩, ⟨nofun, rfl⟩, rfl⟩
  obtain ⟨U, -, hs, -, -⟩ := (InStep.empty totals).process hT hfirst
  have hstay : ¬ Lapses totals T [update 0 (.pair (.int 1) (.int 7))] (.int 1) := by
    rintro ⟨l₁, l₂, V, hl, hV, hnot⟩
    have hids : ∀ d ∈ l₁, d.id ≠ 1 := by
      intro d hd
      have hmem := List.mem_append_left l₂ hd
      rw [hl] at hmem
      simp only [List.flatMap_cons, List.flatMap_nil, halves, List.append_nil, List.mem_cons,
        List.not_mem_nil, or_false] at hmem
      rcases hmem with rfl | rfl <;> decide
    exact hnot ⟨1, _, (hV.eq_of_forall_ne hids).trans hone, rfl⟩
  obtain ⟨hid, hanswer⟩ := (answers_of_process hs.grouped hT' hok hg hg').1 hstay
  exact ⟨s, s', T, T', g, g', out, hs.grouped, hT', hok, hg, hg', hstay, hid, hanswer⟩

/-- The number of all tuples. -/
def headcount : GroupRule := ⟨fun _ => .ok .null, .count, fun _ r => r⟩

/-- The only tuple of a group changes: the result stays, but the group is answered by two deltas. -/
theorem exists_renewed :
    ∃ (s s' : GroupBy headcount.collector) (g g' : Group headcount.collector),
      ({} : GroupBy headcount.collector).process headcount [insert 0 (.int 1)] = .ok (s, [insert 0 (.int 1)]) ∧
      s.process headcount [update 0 (.int 1)] = .ok (s', [retract 0, insert 1 (.int 1)]) ∧
      s.groups.get? .null = some g ∧ s'.groups.get? .null = some g' ∧
      headcount.collector.finish g'.state = headcount.collector.finish g.state :=
  ⟨_, _, _, _, rfl, rfl, rfl, rfl, rfl⟩

end GroupBy

end Planning
