import Mathlib.Data.Multiset.Bind
import Mathlib.Data.Multiset.Dedup
import Planning.Proofs.Graph.Node

/-!
# What a constraint graph means

The meaning of a node is the bag of tuples that its rule makes of the bags of the nodes above it; where
identities are kept, it is the row of tuples by their identities as well. The live tuples of a graph that is
in step with a solution are those that the graph means there.
-/

namespace Planning

open Checked Delta

namespace Tuples

variable {T U L R : Tuples} {M N : Multiset Value}

/-- A function that leaves identities as they are works on bags as on tuples. -/
theorem Bag.bind (h : Bag T M) {k : Value → Option Value} (hU : ∀ i, U i = (T i).bind k) :
    Bag U (M.filterMap k) := by
  obtain ⟨ids, hids, hmem, rfl⟩ := h
  refine ⟨ids.filter fun i => (U i).isSome, hids.filter _, fun i => ?_, ?_⟩
  · rw [List.mem_filter, hmem, Option.isSome_iff_ne_none]
    refine and_iff_right_of_imp fun hi hT => hi ?_
    rw [hU, hT]
    rfl
  · rw [Multiset.filterMap_coe, List.filterMap_filterMap, List.filterMap_filter]
    refine congrArg _ (List.filterMap_congr fun i _ => ?_)
    rw [← hU i]
    cases U i <;> rfl

/-- What is in the bag is live. -/
theorem Bag.mem_iff (h : Bag T M) {v : Value} : v ∈ M ↔ ∃ i, T i = some v := by
  obtain ⟨ids, -, hmem, rfl⟩ := h
  rw [Multiset.mem_coe, List.mem_filterMap]
  constructor
  · rintro ⟨i, -, hi⟩
    exact ⟨i, hi⟩
  · rintro ⟨i, hi⟩
    exact ⟨i, (hmem i).2 (by simp [hi]), hi⟩

end Tuples

/-- The tuple of a row under an identity. -/
def Row.at (row : List (Option Value)) : Tuples := fun i => row[i]?.join

/-- What is live in a row is within it. -/
theorem Row.lt_of_at {row : List (Option Value)} {i : TupleId} (h : Row.at row i ≠ none) :
    i < row.length := by
  by_contra hge
  rw [Row.at, List.getElem?_eq_none (Nat.le_of_not_lt hge)] at h
  exact h rfl

/-- A function that leaves identities as they are works on rows. -/
theorem Row.at_map (row : List (Option Value)) (k : Value → Option Value) (i : TupleId) :
    Row.at (row.map (·.bind k)) i = (Row.at row i).bind k := by
  unfold Row.at
  rw [List.getElem?_map]
  cases row[i]? <;> rfl

/-- The tuple joined from two that belong together. -/
def JoinRule.meets (rule : JoinRule) (a b : Value) : Option Value :=
  if rule.joiner.matching a b = .ok true then some (rule.combine a b) else none

/-- The joined tuples of two bags. -/
def JoinRule.bag (rule : JoinRule) (M N : Multiset Value) : Multiset Value :=
  M.bind fun a => N.filterMap (rule.meets a)

/-- The joined tuples of two rows. -/
def JoinRule.rowBag (rule : JoinRule) (l r : List (Option Value)) : Multiset Value :=
  (List.range l.length ×ˢ List.range r.length).filterMap (rule.pair (Row.at l) (Row.at r))

/-- Without the order of identities a pair is joined when its tuples belong together. -/
theorem JoinRule.pair_eq {rule : JoinRule} (hu : rule.uniquePairs = false) (L R : Tuples)
    (l r : TupleId) :
    rule.pair L R (l, r) = (L l).bind fun a => (R r).bind fun b => rule.meets a b := by
  unfold JoinRule.pair JoinRule.meets
  cases L l with
  | none => rfl
  | some a =>
    cases R r with
    | none => rfl
    | some b => simp [hu]

/-- The joined tuples are those that the bags of both sides make. -/
theorem Join.InStep.bag {rule : JoinRule} {s : Join} {L R T : Tuples} (h : s.InStep rule L R T)
    {M N : Multiset Value} (hu : rule.uniquePairs = false) (hL : L.Bag M) (hR : R.Bag N) :
    T.Bag (rule.bag M N) := by
  obtain ⟨ls, hls, hlmem, rfl⟩ := hL
  obtain ⟨rs, hrs, hrmem, rfl⟩ := hR
  have hbag := h.pairs.named.bag (show (ls ×ˢ rs).Nodup from hls.product hrs) fun q hq => by
    obtain ⟨a, b, ha, hb, -⟩ := JoinRule.live_of_pair hq
    exact List.mem_product.2 ⟨(hlmem _).2 (by simp [ha]), (hrmem _).2 (by simp [hb])⟩
  convert hbag using 1
  rw [JoinRule.bag]
  simp only [Multiset.filterMap_coe, Multiset.coe_bind, Multiset.coe_eq_coe]
  refine List.Perm.of_eq ?_
  clear hbag hls hlmem
  induction ls with
  | nil => rfl
  | cons l ls ih =>
    rw [List.product_cons, List.filterMap_append, ← ih, List.filterMap_map]
    cases hl : L l with
    | none =>
      have hnone : rs.filterMap (rule.pair L R ∘ Prod.mk l) = [] := by
        simp [JoinRule.pair_left_none hl]
      rw [hnone, List.filterMap_cons_none hl, List.nil_append]
    | some a =>
      rw [List.filterMap_cons_some hl, List.flatMap_cons, List.filterMap_filterMap]
      refine congrArg (· ++ _) (List.filterMap_congr fun r _ => ?_)
      simp [JoinRule.pair_eq hu, hl]

/-- Where identities are kept the joined tuples are those that the rows of both sides make. -/
theorem Join.InStep.rowBag {rule : JoinRule} {s : Join} {l r : List (Option Value)} {T : Tuples}
    (h : s.InStep rule (Row.at l) (Row.at r) T) : T.Bag (rule.rowBag l r) := by
  have hnodup : (List.range l.length ×ˢ List.range r.length).Nodup :=
    List.nodup_range.product List.nodup_range
  refine h.pairs.named.bag hnodup fun q hq => ?_
  obtain ⟨a, b, ha, hb, -⟩ := JoinRule.live_of_pair hq
  refine List.mem_product.2 ⟨List.mem_range.2 (Row.lt_of_at ?_), List.mem_range.2 (Row.lt_of_at ?_)⟩
  · simp [ha]
  · simp [hb]

open Classical in
/-- The tuple, if it passes given the tuples of the right side. -/
noncomputable def ExistsRule.lets (rule : ExistsRule) (N : Multiset Value) (a : Value) : Option Value :=
  if (∃ b ∈ N, rule.joiner.matching a b = .ok true) ↔ rule.shouldExist = true then some a else none

/-- What passes is what the right side lets pass. -/
theorem Exists.InStep.tuple {rule : ExistsRule} {s : Exists} {L R T : Tuples} {N : Multiset Value}
    (h : s.InStep rule L R T) (hR : R.Bag N) (l : TupleId) : T l = (L l).bind (rule.lets N) := by
  rw [h.passed]
  cases hl : L l with
  | none =>
    have hnone : s.lefts.get? l = none := Option.map_eq_none_iff.1 (h.left.kept_eq_none hl)
    rw [hnone]
    rfl
  | some a =>
    obtain ⟨c, hc, rfl⟩ := h.counted hl
    have hcount := (h.counts l c hc).pos_iff
    have hex : (∃ b ∈ N, rule.joiner.matching c.tuple b = .ok true) ↔ 0 < c.matchCount := by
      rw [hcount]
      constructor
      · rintro ⟨b, hb, hm⟩
        obtain ⟨r, hr⟩ := hR.mem_iff.1 hb
        exact ⟨r, b, hr, hm⟩
      · rintro ⟨r, b, hr, hm⟩
        exact ⟨b, hR.mem_iff.2 ⟨r, hr⟩, hm⟩
    rw [hc, Option.bind_some, Option.bind_some]
    unfold Counted.passing ExistsRule.lets Exists.passes
    rw [hex]
    cases rule.shouldExist with
    | true => simp
    | false => simp

/-- A list is what stands at its places. -/
theorem filterMap_getElem_range {α : Type} (l : List α) :
    (List.range l.length).filterMap (fun j => l[j]?) = l := by
  induction l using List.reverseRecOn with
  | nil => rfl
  | append_singleton l a ih =>
    rw [List.length_append, List.length_singleton, List.range_succ, List.filterMap_append]
    have hold : (List.range l.length).filterMap (fun j => (l ++ [a])[j]?) =
        (List.range l.length).filterMap fun j => l[j]? :=
      List.filterMap_congr fun j hj => List.getElem?_append_left (List.mem_range.1 hj)
    rw [hold, ih]
    simp

/-- The items of all tuples of a bag. -/
def Flatten.bag (expand : Value → Checked (List Value)) (M : Multiset Value) : Multiset Value :=
  M.bind fun t => (((expand t).toOption.getD [] : List Value) : Multiset Value)

/-- The live items are those of the live tuples. -/
theorem Flatten.InStep.bag {expand : Value → Checked (List Value)} {s : Flatten} {T U : Tuples}
    {M : Multiset Value} (h : s.InStep expand T U) (hT : T.Bag M) : U.Bag (Flatten.bag expand M) := by
  obtain ⟨ids, hids, hmem, rfl⟩ := hT
  let places : TupleId → List (TupleId × Nat) := fun i =>
    (List.range (itemsOf expand T i).length).map fun j => (i, j)
  have hplace : ∀ i q, q ∈ places i ↔ q.1 = i ∧ (itemsOf expand T i)[q.2]? ≠ none := by
    rintro i ⟨i', j⟩
    constructor
    · intro hq
      obtain ⟨j', hj', heq⟩ := List.mem_map.1 hq
      cases heq
      exact ⟨rfl, by simpa using hj'⟩
    · rintro ⟨rfl, hj⟩
      exact List.mem_map.2 ⟨j, by simpa using hj, rfl⟩
  have hplaces : (ids.flatMap places).Nodup := by
    refine List.nodup_flatMap.2 ⟨fun i _ => ?_, hids.imp fun hne q hq hq' => ?_⟩
    · exact List.nodup_range.map fun j j' hj => (Prod.mk.inj hj).2
    · exact hne (((hplace _ q).1 hq).1.symm.trans ((hplace _ q).1 hq').1)
  have hbag := Named.bag h hplaces fun q hq => by
    refine List.mem_flatMap.2 ⟨q.1, (hmem _).2 fun hnone => hq ?_, (hplace _ q).2 ⟨rfl, hq⟩⟩
    simp [itemsOf, hnone]
  convert hbag using 1
  have hitems : ∀ i, (places i).filterMap (fun q => (itemsOf expand T q.1)[q.2]?) =
      itemsOf expand T i := by
    intro i
    rw [List.filterMap_map]
    exact filterMap_getElem_range (itemsOf expand T i)
  rw [Flatten.bag, List.filterMap_flatMap]
  simp only [hitems, Multiset.coe_bind, Multiset.coe_eq_coe]
  refine List.Perm.of_eq ?_
  clear hbag hplaces hids hmem
  induction ids with
  | nil => rfl
  | cons i ids ih =>
    rw [List.flatMap_cons, ← ih]
    cases hi : T i with
    | none => simp [List.filterMap_cons_none hi, itemsOf, hi]
    | some t => simp [List.filterMap_cons_some hi, itemsOf, hi]

/-- The tuples of the groups that a bag makes. -/
noncomputable def GroupRule.bag (rule : GroupRule) (M : Multiset Value) : Multiset Value :=
  ((M.filterMap rule.entry).map Prod.fst).dedup.filterMap fun k =>
    (rule.collector.result (((M.filterMap rule.entry).filter fun e => e.1 = k).map Prod.snd)).map
      (rule.output k)

/-- The keys and inputs of the live ones of some tuples, with their identities. -/
def GroupRule.entries (rule : GroupRule) (T : Tuples) (ids : List TupleId) :
    List (TupleId × (Value × rule.collector.Input)) :=
  ids.filterMap fun i => ((T i).bind rule.entry).map fun e => (i, e)

namespace GroupBy

/-- The inputs with a key, with their identities. -/
def membersOf {α : Type} (entries : List (TupleId × (Value × α))) (k : Value) : List (TupleId × α) :=
  entries.filterMap fun e => if e.2.1 = k then some (e.1, e.2.2) else none

variable {α : Type} {entries : List (TupleId × (Value × α))} {k : Value}

/-- A member has an entry with the key. -/
theorem mem_membersOf {i : TupleId} {v : α} : (i, v) ∈ membersOf entries k ↔ (i, (k, v)) ∈ entries := by
  constructor
  · intro hi
    obtain ⟨⟨i', k', v'⟩, he, heq⟩ := List.mem_filterMap.1 hi
    split at heq
    · rename_i hk
      cases heq
      obtain rfl : k' = k := hk
      exact he
    · cases heq
  · intro he
    exact List.mem_filterMap.2 ⟨_, he, if_pos rfl⟩

/-- No member stands twice. -/
theorem nodup_membersOf (h : entries.Nodup) (k : Value) : (membersOf entries k).Nodup := by
  refine List.Nodup.filterMap ?_ h
  rintro ⟨i, k₁, v⟩ ⟨i', k₂, v'⟩ b hb hb'
  simp only [Option.mem_def, Option.ite_none_right_eq_some, Option.some.injEq] at hb hb'
  obtain ⟨rfl, rfl⟩ := hb
  obtain ⟨rfl, heq⟩ := hb'
  cases heq
  rfl

/-- A key has members where it is the key of an entry. -/
theorem mem_keys_iff : k ∈ (entries.map Prod.snd).map Prod.fst ↔ membersOf entries k ≠ [] := by
  constructor
  · intro hk
    obtain ⟨e, he, rfl⟩ := List.mem_map.1 hk
    obtain ⟨⟨i, k, v⟩, hmem, rfl⟩ := List.mem_map.1 he
    exact List.ne_nil_of_mem (mem_membersOf.2 hmem)
  · intro hk
    obtain ⟨⟨i, v⟩, hi⟩ := List.exists_mem_of_ne_nil _ hk
    exact List.mem_map.2 ⟨(k, v), List.mem_map.2 ⟨(i, k, v), mem_membersOf.1 hi, rfl⟩, rfl⟩

/-- The inputs of the members are those with the key. -/
theorem map_membersOf (entries : List (TupleId × (Value × α))) (k : Value) :
    (((entries.map Prod.snd : List (Value × α)) : Multiset (Value × α)).filter fun e => e.1 = k).map Prod.snd =
      ((membersOf entries k).map Prod.snd : List α) := by
  rw [membersOf, Multiset.filter_coe, Multiset.map_coe, List.filter_map, List.map_map, List.map_filterMap,
    ← List.filterMap_eq_map, List.filterMap_filter]
  refine congrArg _ (List.filterMap_congr fun e _ => ?_)
  by_cases he : e.2.1 = k <;> simp [he]

end GroupBy

namespace GroupRule

variable {rule : GroupRule} {T : Tuples} {ids : List TupleId}

/-- Where all live tuples are looked at, the entries are theirs. -/
theorem mem_entries (hmem : ∀ i, i ∈ ids ↔ T i ≠ none) {i : TupleId}
    {e : Value × rule.collector.Input} : (i, e) ∈ rule.entries T ids ↔ (T i).bind rule.entry = some e := by
  constructor
  · intro he
    obtain ⟨i', -, he⟩ := List.mem_filterMap.1 he
    obtain ⟨e', he', heq⟩ := Option.map_eq_some_iff.1 he
    cases heq
    exact he'
  · intro he
    refine List.mem_filterMap.2 ⟨i, (hmem i).2 fun hnone => ?_, by simp [he]⟩
    rw [hnone] at he
    cases he

/-- No entry stands twice. -/
theorem nodup_entries (h : ids.Nodup) : (rule.entries T ids).Nodup := by
  refine List.Nodup.filterMap ?_ h
  rintro i i' b hb hb'
  obtain ⟨e, -, rfl⟩ := Option.map_eq_some_iff.1 hb
  obtain ⟨e', -, heq⟩ := Option.map_eq_some_iff.1 hb'
  exact (Prod.mk.inj heq).1.symm

/-- The entries of tuples are those of their bag. -/
theorem map_entries (rule : GroupRule) (T : Tuples) (ids : List TupleId) :
    ((ids.filterMap T : List Value) : Multiset Value).filterMap rule.entry =
      ((rule.entries T ids).map Prod.snd : List (Value × rule.collector.Input)) := by
  rw [Multiset.filterMap_coe, List.filterMap_filterMap, entries, List.map_filterMap]
  refine congrArg _ (List.filterMap_congr fun i _ => ?_)
  cases (T i).bind rule.entry <;> rfl

end GroupRule

namespace GroupBy

variable {rule : GroupRule} {s : GroupBy rule.collector} {T U : Tuples} {ids : List TupleId} {k : Value}

/-- A group is kept for the members with its key among the entries of the live tuples. -/
theorem Grouped.kept (h : s.Grouped rule T) (hids : ids.Nodup) (hmem : ∀ i, i ∈ ids ↔ T i ≠ none) (k : Value) :
    Kept (membersOf (rule.entries T ids) k : Multiset (TupleId × rule.collector.Input)) (s.groups.get? k) := by
  obtain ⟨m, hm, hkept⟩ := h.groups k
  have hmembers : Members s.inputs.get? k
      (membersOf (rule.entries T ids) k : Multiset (TupleId × rule.collector.Input)) :=
    ⟨Multiset.coe_nodup.2 (nodup_membersOf (GroupRule.nodup_entries hids) k), fun i v => by
      rw [Multiset.mem_coe, mem_membersOf, GroupRule.mem_entries hmem, h.inputs]⟩
  exact hm.unique hmembers ▸ hkept

/-- A key with members has a group, with a state reached by their inputs. -/
theorem InStep.exists_group (hf : rule.collector.OrderFree) (h : s.InStep rule T U) (hids : ids.Nodup)
    (hmem : ∀ i, i ∈ ids ↔ T i ≠ none) (hk : membersOf (rule.entries T ids) k ≠ []) :
    ∃ g r, s.groups.get? k = some g ∧ rule.collector.finish g.state = .ok r ∧
      rule.collector.result (((membersOf (rule.entries T ids) k).map Prod.snd : List rule.collector.Input) :
        Multiset rule.collector.Input) = some r := by
  have hkept := h.grouped.kept hids hmem k
  cases hget : s.groups.get? k with
  | none =>
    rw [hget] at hkept
    exact absurd (Multiset.coe_eq_zero _ |>.1 hkept) hk
  | some g =>
    rw [hget] at hkept
    obtain ⟨r, hr⟩ := h.finish k g hget
    exact ⟨g, r, rfl, hr, hf.result_eq (by simpa using hkept.2.2) hr⟩

end GroupBy

/-- The groups show the results of the inputs of the live tuples. -/
theorem GroupBy.InStep.bag {rule : GroupRule} {s : GroupBy rule.collector} {T U : Tuples}
    {M : Multiset Value} (hf : rule.collector.OrderFree) (h : s.InStep rule T U) (hT : T.Bag M) :
    U.Bag (rule.bag M) := by
  obtain ⟨ids, hids, hmem, rfl⟩ := hT
  let keys := ((rule.entries T ids).map Prod.snd).map Prod.fst
  have hbag := h.named.bag (List.nodup_dedup keys) fun k hk => by
    rw [List.mem_dedup, mem_keys_iff]
    intro hnil
    have hkept := h.grouped.kept hids hmem k
    rw [hnil] at hkept
    cases hget : s.groups.get? k with
    | none => exact hk (by simp [resultOf, hget])
    | some g =>
      rw [hget] at hkept
      exact hkept.1 rfl
  convert hbag using 1
  rw [GroupRule.bag, GroupRule.map_entries]
  simp only [map_membersOf]
  rw [Multiset.map_coe, Multiset.coe_dedup, Multiset.filterMap_coe]
  refine congrArg _ (List.filterMap_congr fun k hk => ?_)
  rw [List.mem_dedup, mem_keys_iff] at hk
  obtain ⟨g, r, hget, hr, hresult⟩ := h.exists_group hf hids hmem hk
  rw [hresult, resultOf, hget, Option.bind_some, hr]
  rfl

/-- The tuples of a stream, and those made for the elements of a source whose keys they do not carry. -/
def ComplementRule.bag (rule : ComplementRule) (M N : Multiset Value) : Multiset Value :=
  M + (N.filterMap rule.element).filterMap fun x =>
    if x.key ∈ M.map rule.tupleKey then none else some (rule.made x)

/-- What is shown are the tuples of the stream and those made for the source. -/
theorem Complement.InStep.bag {rule : ComplementRule} {s : Complement} {T E U : Tuples}
    {M N : Multiset Value} (h : s.InStep rule T E U) (hT : T.Bag M) (hE : E.Bag N) :
    U.Bag (rule.bag M N) := by
  have hcarried : ∀ k, k ∈ M.map rule.tupleKey ↔ rule.Carried T k := by
    intro k
    rw [Multiset.mem_map]
    constructor
    · rintro ⟨t, ht, rfl⟩
      obtain ⟨i, hi⟩ := hT.mem_iff.1 ht
      exact ⟨i, t, hi, rfl⟩
    · rintro ⟨i, t, hi, rfl⟩
      exact ⟨t, hT.mem_iff.2 ⟨i, hi⟩, rfl⟩
  have hshown : ∀ e, rule.shown T E (.inr e) = ((E e).bind rule.element).bind fun x =>
      if x.key ∈ M.map rule.tupleKey then none else some (rule.made x) := by
    intro e
    rw [ComplementRule.shown]
    cases (E e).bind rule.element with
    | none => rfl
    | some x =>
      rw [Option.bind_some, Option.bind_some]
      by_cases hx : rule.Carried T x.key
      · rw [if_pos hx, if_pos ((hcarried _).2 hx)]
      · rw [if_neg hx, if_neg fun h => hx ((hcarried _).1 h)]
  obtain ⟨ids, hids, hmem, hM⟩ := hT
  obtain ⟨es, hes, hmem', hN⟩ := hE
  have hnodup : (ids.map Sum.inl ++ es.map Sum.inr : List (TupleId ⊕ TupleId)).Nodup := by
    refine List.nodup_append.2 ⟨hids.map Sum.inl_injective, hes.map Sum.inr_injective, ?_⟩
    intro a ha b hb
    obtain ⟨i, -, rfl⟩ := List.mem_map.1 ha
    obtain ⟨e, -, rfl⟩ := List.mem_map.1 hb
    exact Sum.inl_ne_inr
  have hbag := h.named.bag hnodup fun q hq => by
    cases q with
    | inl i => exact List.mem_append_left _ (List.mem_map.2 ⟨i, (hmem i).2 hq, rfl⟩)
    | inr e =>
      refine List.mem_append_right _ (List.mem_map.2 ⟨e, (hmem' e).2 fun hnone => hq ?_, rfl⟩)
      simp [ComplementRule.shown, hnone]
  convert hbag using 1
  rw [List.filterMap_append, List.filterMap_map, List.filterMap_map, ← Multiset.coe_add]
  rw [ComplementRule.bag]
  refine congrArg₂ _ hM.symm ?_
  rw [← hN, Multiset.filterMap_coe, Multiset.filterMap_coe, List.filterMap_filterMap,
    List.filterMap_filterMap]
  refine congrArg _ (List.filterMap_congr fun e _ => ?_)
  rw [Function.comp_apply, hshown]
  cases E e <;> simp

/-- What a node means: its row, where it keeps identities, and its bag. -/
structure Meaning where
  /-- The tuples by their identities. -/
  row : List (Option Value)
  /-- The tuples. -/
  bag : Multiset Value

namespace Node

variable {S : Type}

/-- What a node means in a solution. -/
noncomputable def meaning : Node S → S → Meaning
  | source _ members, s => ⟨(members s).map some, members s⟩
  | filter up p _, s =>
    ⟨(up.meaning s).row.map (·.bind (Filter.keep p)), (up.meaning s).bag.filterMap (Filter.keep p)⟩
  | map up f, s =>
    ⟨(up.meaning s).row.map (·.bind fun t => (f t).toOption),
      (up.meaning s).bag.filterMap fun t => (f t).toOption⟩
  | flatten up expand _, s => ⟨[], Flatten.bag expand (up.meaning s).bag⟩
  | join left right rule _, s =>
    ⟨[], if rule.uniquePairs then rule.rowBag (left.meaning s).row (right.meaning s).row
      else rule.bag (left.meaning s).bag (right.meaning s).bag⟩
  | .exists left right rule _, s =>
    ⟨(left.meaning s).row.map (·.bind (rule.lets (right.meaning s).bag)),
      (left.meaning s).bag.filterMap (rule.lets (right.meaning s).bag)⟩
  | group up rule _, s => ⟨[], rule.bag (up.meaning s).bag⟩
  | complement up elements rule _, s => ⟨[], rule.bag (up.meaning s).bag (elements.meaning s).bag⟩

/-- A tuple of the node has the identity of the source tuple that it comes from. -/
def KeepsIds : Node S → Prop
  | source _ _ => True
  | filter up _ _ => up.KeepsIds
  | map up _ => up.KeepsIds
  | .exists left _ _ _ => left.KeepsIds
  | _ => False

/-- The tuples do not depend on the order in which others came and went: unique pairs are only made where
identities are kept, and collectors do not look at the order of their inputs. -/
def OrderFree : Node S → Prop
  | source _ _ => True
  | filter up _ _ => up.OrderFree
  | map up _ => up.OrderFree
  | flatten up _ _ => up.OrderFree
  | join left right rule _ =>
    left.OrderFree ∧ right.OrderFree ∧ (rule.uniquePairs = true → left.KeepsIds ∧ right.KeepsIds)
  | .exists left right _ _ => left.OrderFree ∧ right.OrderFree
  | group up rule _ => up.OrderFree ∧ rule.collector.OrderFree
  | complement up elements _ _ => up.OrderFree ∧ elements.OrderFree

/-- What a node means does not depend on its state. -/
theorem meaning_reset (n : Node S) (s : S) : n.reset.meaning s = n.meaning s := by
  induction n <;>
    simp_all [Node.reset, meaning, ofFilter, ofFlatten, ofJoin, ofExists, ofGroup, ofComplement]

/-- Whether a node keeps identities does not depend on its state. -/
theorem keepsIds_reset (n : Node S) : n.reset.KeepsIds ↔ n.KeepsIds := by
  induction n <;>
    simp_all [Node.reset, KeepsIds, ofFilter, ofFlatten, ofJoin, ofExists, ofGroup, ofComplement]

/-- Whether a node is free of orders does not depend on its state. -/
theorem orderFree_reset (n : Node S) : n.reset.OrderFree ↔ n.OrderFree := by
  induction n <;>
    simp_all [Node.reset, OrderFree, keepsIds_reset, ofFilter, ofFlatten, ofJoin, ofExists, ofGroup,
      ofComplement]

/-- What a node reads does not depend on its state. -/
theorem reads_reset (n : Node S) (c : SourceClass) (members : S → List Value) :
    n.reset.Reads c members ↔ n.Reads c members := by
  induction n <;>
    simp_all [Node.reset, Reads, ofFilter, ofFlatten, ofJoin, ofExists, ofGroup, ofComplement]

/-- The live tuples of a graph in step with a solution are those that it means there. -/
theorem InStep.bag {n : Node S} {V : View S} {T : Tuples} (h : n.InStep V T) (hf : n.OrderFree) {s : S}
    (hV : ∀ c members, n.Reads c members → V c members = View.of s c members) :
    T.Bag (n.meaning s).bag ∧ (n.KeepsIds → T = Row.at (n.meaning s).row) := by
  induction n generalizing T with
  | source c members =>
    obtain rfl : T = V c members := h
    rw [hV c members ⟨rfl, rfl⟩]
    refine ⟨⟨List.range (members s).length, List.nodup_range, fun i => ?_, ?_⟩, fun _ => ?_⟩
    · simp [View.of]
    · exact congrArg _ (filterMap_getElem_range (members s))
    · funext i
      rw [View.of, Row.at, meaning, List.getElem?_map]
      cases (members s)[i]? <;> rfl
  | filter up p passing ih =>
    obtain ⟨U, hup, h⟩ := h
    obtain ⟨hbag, hrow⟩ := ih hup hf hV
    refine ⟨hbag.bind h.tuple, fun hk => ?_⟩
    funext i
    rw [h.tuple, hrow hk]
    exact (Row.at_map _ _ i).symm
  | map up f ih =>
    obtain ⟨U, hup, h⟩ := h
    obtain ⟨hbag, hrow⟩ := ih hup hf hV
    refine ⟨hbag.bind h.tuple, fun hk => ?_⟩
    funext i
    rw [h.tuple, hrow hk]
    exact (Row.at_map _ _ i).symm
  | flatten up expand state ih =>
    obtain ⟨U, hup, h⟩ := h
    exact ⟨h.bag (ih hup hf hV).1, False.elim⟩
  | join left right rule state ihl ihr =>
    obtain ⟨L, R, hl, hr, h⟩ := h
    obtain ⟨hlf, hrf, hkeep⟩ := hf
    obtain ⟨hlbag, hlrow⟩ := ihl hl hlf fun c members hm => hV c members (.inl hm)
    obtain ⟨hrbag, hrrow⟩ := ihr hr hrf fun c members hm => hV c members (.inr hm)
    refine ⟨?_, False.elim⟩
    rw [meaning]
    cases hu : rule.uniquePairs with
    | true =>
      rw [hlrow (hkeep hu).1, hrrow (hkeep hu).2] at h
      exact h.rowBag
    | false => exact h.bag hu hlbag hrbag
  | «exists» left right rule state ihl ihr =>
    obtain ⟨L, R, hl, hr, h⟩ := h
    obtain ⟨hlbag, hlrow⟩ := ihl hl hf.1 fun c members hm => hV c members (.inl hm)
    obtain ⟨hrbag, -⟩ := ihr hr hf.2 fun c members hm => hV c members (.inr hm)
    refine ⟨hlbag.bind (h.tuple hrbag), fun hk => ?_⟩
    funext i
    rw [h.tuple hrbag, hlrow hk]
    exact (Row.at_map _ _ i).symm
  | group up rule state ih =>
    obtain ⟨U, hup, h⟩ := h
    exact ⟨h.bag hf.2 (ih hup hf.1 hV).1, False.elim⟩
  | complement up elements rule state ihu ihe =>
    obtain ⟨U, E, hup, hel, h⟩ := h
    exact ⟨h.bag (ihu hup hf.1 fun c members hm => hV c members (.inl hm)).1
      (ihe hel hf.2 fun c members hm => hV c members (.inr hm)).1, False.elim⟩

end Node

end Planning
