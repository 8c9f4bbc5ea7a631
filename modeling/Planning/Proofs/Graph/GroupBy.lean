import Planning.Graph.GroupBy
import Planning.Proofs.Checked
import Planning.Proofs.Graph.Collector
import Planning.Proofs.Graph.Naming

/-!
# Groups of live tuples

A grouping is in step with the live tuples when it keeps their inputs, one group for each key that they
carry, and in each group a state reached by the inputs with its key. A batch is taken in delta by delta;
what the touched groups answered before it is compared with what they answer after it.
-/

namespace Planning

open Checked Delta

/-- The key and the input of a tuple. -/
def GroupRule.entry (rule : GroupRule) (t : Value) : Option (Value × rule.collector.Input) :=
  match rule.key t, rule.collector.extract t with
  | .ok k, .ok v => some (k, v)
  | _, _ => none

theorem GroupRule.entry_eq {rule : GroupRule} {t k : Value} {v : rule.collector.Input}
    (hk : rule.key t = .ok k) (hv : rule.collector.extract t = .ok v) :
    rule.entry t = some (k, v) := by
  rw [entry, hk, hv]

namespace GroupBy

/-- The tuples with a key, with their inputs. -/
structure Members {α : Type} (inputs : TupleId → Option (Value × α)) (k : Value)
    (m : Multiset (TupleId × α)) : Prop where
  /-- Each tuple is one member. -/
  nodup : m.Nodup
  /-- The members are the tuples with the key. -/
  mem_iff : ∀ i v, (i, v) ∈ m ↔ inputs i = some (k, v)

namespace Members

variable {α : Type} {inputs : TupleId → Option (Value × α)} {k : Value} {m : Multiset (TupleId × α)}
  {i : TupleId}

/-- The members are determined. -/
theorem unique (h : Members inputs k m) {m' : Multiset (TupleId × α)} (h' : Members inputs k m') :
    m = m' :=
  (Multiset.Nodup.ext h.nodup h'.nodup).2 fun ⟨i, v⟩ => (h.mem_iff i v).trans (h'.mem_iff i v).symm

/-- A tuple with the key is one member more. -/
theorem cons (h : Members inputs k m) (hi : inputs i = none) (v : α) :
    Members (Function.update inputs i (some (k, v))) k ((i, v) ::ₘ m) where
  nodup := by
    refine Multiset.nodup_cons.2 ⟨fun hmem => ?_, h.nodup⟩
    rw [h.mem_iff, hi] at hmem
    cases hmem
  mem_iff j w := by
    rw [Multiset.mem_cons, h.mem_iff]
    by_cases hj : j = i
    · subst hj
      simp [hi, eq_comm]
    · simp [hj]

/-- A member that goes is one member less. -/
theorem erase (h : Members inputs k m) {v : α} (hi : inputs i = some (k, v)) :
    ∃ m', m = (i, v) ::ₘ m' ∧ Members (Function.update inputs i none) k m' := by
  obtain ⟨m', rfl⟩ := Multiset.exists_cons_of_mem ((h.mem_iff i v).2 hi)
  obtain ⟨hnot, hnodup⟩ := Multiset.nodup_cons.1 h.nodup
  refine ⟨m', rfl, hnodup, fun j w => ?_⟩
  have hmem := h.mem_iff j w
  by_cases hj : j = i
  · subst hj
    rw [Function.update_self]
    refine iff_of_false (fun hm => hnot ?_) (by simp)
    have hw := hmem.1 (Multiset.mem_cons_of_mem hm)
    rw [hi] at hw
    cases hw
    exact hm
  · rw [Function.update_of_ne hj, ← hmem, Multiset.mem_cons]
    simp [hj]

/-- A tuple with another key is no member. -/
theorem congr (h : Members inputs k m) {o : Option (Value × α)}
    (hold : ∀ v, inputs i ≠ some (k, v)) (hnew : ∀ v, o ≠ some (k, v)) :
    Members (Function.update inputs i o) k m where
  nodup := h.nodup
  mem_iff j w := by
    rw [h.mem_iff]
    by_cases hj : j = i
    · subst hj
      rw [Function.update_self]
      exact iff_of_false (hold w) (hnew w)
    · rw [Function.update_of_ne hj]

end Members

variable {c : Collector}

/-- A group is kept for some members, and none for no members. -/
def Kept (m : Multiset (TupleId × c.Input)) : Option (Group c) → Prop
  | none => m = 0
  | some g => m ≠ 0 ∧ m.card = g.size ∧ c.Reaches (m.map Prod.snd) g.state

/-- The grouping keeps the inputs of the live tuples, and a group for each key. -/
structure Grouped (rule : GroupRule) (s : GroupBy rule.collector) (T : Tuples) : Prop where
  /-- The inputs are kept. -/
  inputs : ∀ i, s.inputs.get? i = (T i).bind rule.entry
  /-- Each live tuple has a key and an input. -/
  entry : ∀ i t, T i = some t → rule.entry t ≠ none
  /-- Each key has its group. -/
  groups : ∀ k, ∃ m, Members s.inputs.get? k m ∧ Kept m (s.groups.get? k)
  /-- The identities were given out. -/
  below : ∀ k g, s.groups.get? k = some g → g.id < s.next
  /-- Each group has an identity of its own. -/
  inj : ∀ k k' g g', s.groups.get? k = some g → s.groups.get? k' = some g' → g.id = g'.id → k = k'

/-- One grouping came from another by a change of the group of a key. -/
structure Touches (k : Value) (s s' : GroupBy c) : Prop where
  /-- The other groups stay. -/
  other : ∀ k', k' ≠ k → s'.groups.get? k' = s.groups.get? k'
  /-- Identities are given out in order. -/
  next : s.next ≤ s'.next
  /-- The group has the identity that it had, or a new one. -/
  id : ∀ g, s'.groups.get? k = some g →
    g.id < s'.next ∧ ((∃ g₀, s.groups.get? k = some g₀ ∧ g₀.id = g.id) ∨ s.next ≤ g.id)

/-- Identities stay below the next one and apart. -/
theorem Touches.ids {rule : GroupRule} {s s' : GroupBy rule.collector} {T : Tuples} {k : Value}
    (ht : Touches k s s') (h : s.Grouped rule T) :
    (∀ k' g, s'.groups.get? k' = some g → g.id < s'.next) ∧
      ∀ k₁ k₂ g g', s'.groups.get? k₁ = some g → s'.groups.get? k₂ = some g' → g.id = g'.id →
        k₁ = k₂ := by
  -- The group of the key and that of another key differ: the one is old and its own, or new.
  have hapart : ∀ k' g g', k' ≠ k → s'.groups.get? k = some g → s'.groups.get? k' = some g' →
      g.id ≠ g'.id := by
    intro k' g g' hk' hg hg' heq
    rw [ht.other k' hk'] at hg'
    rcases (ht.id g hg).2 with ⟨g₀, hg₀, hid⟩ | hle
    · exact hk' (h.inj k' k g' g₀ hg' hg₀ (heq.symm.trans hid.symm))
    · exact absurd (h.below k' g' hg') (Nat.not_lt.2 (heq ▸ hle))
  refine ⟨fun k' g hg => ?_, fun k₁ k₂ g g' hg hg' heq => ?_⟩
  · by_cases hk' : k' = k
    · subst hk'
      exact (ht.id g hg).1
    · rw [ht.other k' hk'] at hg
      exact Nat.lt_of_lt_of_le (h.below k' g hg) ht.next
  · by_cases h₁ : k₁ = k
    · subst h₁
      by_cases h₂ : k₂ = k₁
      · exact h₂.symm
      · exact absurd heq (hapart k₂ g g' h₂ hg hg')
    · by_cases h₂ : k₂ = k
      · subst h₂
        exact absurd heq.symm (hapart k₁ g' g h₁ hg' hg)
      · rw [ht.other _ h₁] at hg
        rw [ht.other _ h₂] at hg'
        exact h.inj k₁ k₂ g g' hg hg' heq

variable {rule : GroupRule} {s s' : GroupBy rule.collector} {T : Tuples} {i : TupleId} {k : Value}
  {v : rule.collector.Input}

/-- The grouping is kept when a tuple comes or goes, if the group of its key is kept. -/
theorem Grouped.of_touches (h : s.Grouped rule T) (ht : Touches k s s') {o : Option Value}
    (hinputs : s'.inputs.get? = Function.update s.inputs.get? i (o.bind rule.entry))
    (hentry : ∀ t, o = some t → rule.entry t ≠ none) (hold : ∀ k' w, s.inputs.get? i = some (k', w) → k' = k)
    (hnew : ∀ k' w, o.bind rule.entry = some (k', w) → k' = k)
    (hgroup : ∃ m, Members s'.inputs.get? k m ∧ Kept m (s'.groups.get? k)) :
    s'.Grouped rule (Function.update T i o) := by
  refine ⟨fun j => ?_, fun j t' ht' => ?_, fun k' => ?_, (ht.ids h).1, (ht.ids h).2⟩
  · rw [hinputs]
    by_cases hj : j = i
    · simp [hj]
    · simp [hj, h.inputs]
  · by_cases hj : j = i
    · rw [hj, Function.update_self] at ht'
      exact hentry t' ht'
    · rw [Function.update_of_ne hj] at ht'
      exact h.entry j t' ht'
  · by_cases hk' : k' = k
    · exact hk' ▸ hgroup
    · obtain ⟨m, hm, hkept⟩ := h.groups k'
      rw [hinputs, ht.other k' hk']
      exact ⟨m, hm.congr (fun w hw => hk' (hold k' w hw)) fun w hw => hk' (hnew k' w hw), hkept⟩

/-- A tuple comes into the group of its key, or into a new one. -/
theorem Grouped.exists_of_add (h : s.Grouped rule T) {m : Multiset (TupleId × rule.collector.Input)}
    (hkept : Kept m (s.groups.get? k)) (hok : s.add i k v = .ok s') :
    ∃ (g : Group rule.collector) (state : rule.collector.State),
      s'.groups = s.groups.set k { g with size := g.size + 1, state := state } ∧
      s'.inputs = s.inputs.set i (k, v) ∧ m.card = g.size ∧
      rule.collector.Reaches (v ::ₘ m.map Prod.snd) state ∧ s.next ≤ s'.next ∧ g.id < s'.next ∧
      ((∃ g₀, s.groups.get? k = some g₀ ∧ g₀.id = g.id) ∨ s.next ≤ g.id) := by
  unfold GroupBy.add at hok
  cases hget : s.groups.get? k with
  | some g =>
    rw [hget] at hok hkept
    obtain ⟨state, hstate, hok⟩ := bind_eq_ok_iff.1 hok
    cases pure_eq_ok_iff.1 hok
    exact ⟨g, state, rfl, rfl, hkept.2.1, hkept.2.2.accumulate hstate, Nat.le_refl _, h.below k g hget,
      .inl ⟨g, rfl, rfl⟩⟩
  | none =>
    rw [hget] at hok hkept
    obtain ⟨state, hstate, hok⟩ := bind_eq_ok_iff.1 hok
    cases pure_eq_ok_iff.1 hok
    obtain rfl : m = 0 := hkept
    exact ⟨⟨s.next, 0, rule.collector.empty⟩, state, rfl, rfl, rfl, Collector.Reaches.empty.accumulate hstate,
      Nat.le_succ _, Nat.lt_succ_self _, .inr (Nat.le_refl _)⟩

/-- A tuple comes into its group. -/
theorem Grouped.add (h : s.Grouped rule T) {t : Value} (hi : T i = none)
    (ht : rule.entry t = some (k, v)) (hok : s.add i k v = .ok s') :
    s'.Grouped rule (Function.update T i (some t)) ∧ Touches k s s' := by
  have hnone : s.inputs.get? i = none := by rw [h.inputs, hi]; rfl
  obtain ⟨m, hm, hkept⟩ := h.groups k
  obtain ⟨g, state, hgs, his, hcard, hreach, hnext, hlt, hid⟩ := h.exists_of_add hkept hok
  have hgroups : ∀ k', s'.groups.get? k' =
      if k' = k then some { g with size := g.size + 1, state := state } else s.groups.get? k' := by
    intro k'
    rw [hgs, Table.get?_set]
  have hinputs : s'.inputs.get? = Function.update s.inputs.get? i (some (k, v)) := by
    rw [his, Table.get?_set_eq]
  have htouch : Touches k s s' := by
    refine ⟨fun k' hk' => by rw [hgroups, if_neg hk'], hnext, fun g' hg' => ?_⟩
    rw [hgroups, if_pos rfl] at hg'
    cases hg'
    exact ⟨hlt, hid⟩
  refine ⟨h.of_touches htouch (by simpa [ht] using hinputs) (by simp [ht]) (by simp [hnone]) ?_ ?_, htouch⟩
  · intro k' w hw
    exact (Prod.mk.inj (Option.some.inj (ht.symm.trans hw))).1.symm
  · rw [hinputs, hgroups, if_pos rfl]
    refine ⟨(i, v) ::ₘ m, hm.cons hnone v, by simp, by simp [hcard], ?_⟩
    rw [Multiset.map_cons]
    exact hreach

/-- An input leaves the group of its key, which goes when it was the last. -/
theorem exists_of_leave {m : Multiset (TupleId × rule.collector.Input)}
    (hkept : Kept ((i, v) ::ₘ m) (s.groups.get? k))
    (hok : GroupBy.leave { s with inputs := s.inputs.erase i } k v = .ok s') :
    s'.inputs = s.inputs.erase i ∧ s'.next = s.next ∧
      ∃ o : Option (Group rule.collector), Kept m o ∧
        (∀ g, o = some g → ∃ g₀, s.groups.get? k = some g₀ ∧ g₀.id = g.id) ∧
        ∀ k', s'.groups.get? k' = if k' = k then o else s.groups.get? k' := by
  unfold GroupBy.leave at hok
  cases hget : s.groups.get? k with
  | none =>
    rw [hget] at hkept
    exact absurd hkept (Multiset.cons_ne_zero)
  | some g =>
    rw [hget] at hok hkept
    obtain ⟨-, hcard, hreach⟩ := hkept
    rw [Multiset.card_cons] at hcard
    rw [Multiset.map_cons] at hreach
    obtain ⟨state, hstate, hok⟩ := bind_eq_ok_iff.1 hok
    split at hok
    · rename_i hsize
      cases pure_eq_ok_iff.1 hok
      have hzero : m = 0 := Multiset.card_eq_zero.1 (by omega)
      exact ⟨rfl, rfl, none, hzero, nofun, fun k' => Table.get?_erase _ _ _⟩
    · rename_i hsize
      cases pure_eq_ok_iff.1 hok
      have hpos : m ≠ 0 := by
        rintro rfl
        simp at hcard
        omega
      refine ⟨rfl, rfl, some { g with size := g.size - 1, state := state },
        ⟨hpos, by simp only; omega, hreach.retract hstate⟩, ?_, fun k' => Table.get?_set _ _ _ _⟩
      rintro g' ⟨⟩
      exact ⟨g, rfl, rfl⟩

/-- A tuple leaves its group. -/
theorem Grouped.leave (h : s.Grouped rule T) (hi : s.inputs.get? i = some (k, v))
    (hok : GroupBy.leave { s with inputs := s.inputs.erase i } k v = .ok s') :
    s'.Grouped rule (Function.update T i none) ∧ Touches k s s' := by
  obtain ⟨m, hm, hkept⟩ := h.groups k
  obtain ⟨m', rfl, hm'⟩ := hm.erase hi
  obtain ⟨his, hnext, o, hkept', hid, hgroups⟩ := exists_of_leave hkept hok
  have hinputs : s'.inputs.get? = Function.update s.inputs.get? i none := by
    rw [his, Table.get?_erase_eq]
  have htouch : Touches k s s' := by
    refine ⟨fun k' hk' => by rw [hgroups, if_neg hk'], Nat.le_of_eq hnext.symm, fun g hg => ?_⟩
    rw [hgroups, if_pos rfl] at hg
    obtain ⟨g₀, hg₀, hid⟩ := hid g hg
    exact ⟨by rw [hnext, ← hid]; exact h.below k g₀ hg₀, .inl ⟨g₀, hg₀, hid⟩⟩
  refine ⟨h.of_touches htouch hinputs nofun (fun k' w hw => ?_) nofun ?_, htouch⟩
  · exact (Prod.mk.inj (Option.some.inj (hw.symm.trans hi))).1
  · rw [hinputs, hgroups, if_pos rfl]
    exact ⟨m', hm', hkept'⟩

/-- What the groups of touched keys answered when a batch began is noted, and the others stay. -/
structure Noted {c : Collector} (before : Value → Option (Group c)) (start : TupleId)
    (s : GroupBy c) (touched : Touched) : Prop where
  /-- Each key is noted once. -/
  nodup : (touched.map Prod.fst).Nodup
  /-- What the group answered is noted. -/
  answer : ∀ k o, (k, o) ∈ touched →
    match before k with
    | some g => ∃ r, c.finish g.state = .ok r ∧ o = some ⟨g.id, r⟩
    | none => o = none
  /-- The groups of other keys stay. -/
  rest : ∀ k, k ∉ touched.map Prod.fst → s.groups.get? k = before k
  /-- Identities are given out in order. -/
  next : start ≤ s.next
  /-- A group has the identity that the group of its key had, or a new one. -/
  id : ∀ k g, s.groups.get? k = some g → (∃ g₀, before k = some g₀ ∧ g₀.id = g.id) ∨ start ≤ g.id

namespace Noted

variable {before : Value → Option (Group c)} {start : TupleId} {s s' : GroupBy c}
  {touched touched' : Touched} {k : Value}

/-- When a batch begins nothing is noted. -/
theorem empty (s : GroupBy c) : Noted s.groups.get? s.next s [] where
  nodup := List.nodup_nil
  answer _ _ h := by cases h
  rest _ _ := rfl
  next := Nat.le_refl _
  id _ g hg := .inl ⟨g, hg, rfl⟩

/-- A key is noted when it is touched. -/
theorem touch (h : Noted before start s touched) (hok : s.touch touched k = .ok touched') :
    Noted before start s touched' ∧ k ∈ touched'.map Prod.fst := by
  unfold GroupBy.touch at hok
  split at hok
  · rename_i hany
    cases hok
    refine ⟨h, ?_⟩
    obtain ⟨t, ht, heq⟩ := List.any_eq_true.1 hany
    exact List.mem_map.2 ⟨t, ht, of_decide_eq_true heq⟩
  · rename_i hany
    obtain ⟨o, ho, hok⟩ := bind_eq_ok_iff.1 hok
    cases pure_eq_ok_iff.1 hok
    have hk : k ∉ touched.map Prod.fst := by
      intro hmem
      obtain ⟨t, ht, rfl⟩ := List.mem_map.1 hmem
      exact hany (List.any_eq_true.2 ⟨t, ht, by simp⟩)
    refine ⟨⟨?_, fun k' o' hmem => ?_, fun k' hk' => ?_, h.next, h.id⟩, by simp⟩
    · rw [List.map_append, List.nodup_append]
      refine ⟨h.nodup, by simp, fun a ha b hb => ?_⟩
      obtain rfl : b = k := by simpa using hb
      rintro rfl
      exact hk ha
    · rcases List.mem_append.1 hmem with hmem | hmem
      · exact h.answer k' o' hmem
      · obtain ⟨rfl, rfl⟩ := Prod.mk.inj (List.mem_singleton.1 hmem)
        rw [← h.rest k' hk]
        unfold GroupBy.outcome at ho
        cases hget : s.groups.get? k' with
        | none =>
          rw [hget] at ho
          exact (Except.ok.inj ho).symm
        | some g =>
          rw [hget] at ho
          obtain ⟨r, hr, ho⟩ := bind_eq_ok_iff.1 ho
          exact ⟨r, hr, (pure_eq_ok_iff.1 ho).symm⟩
    · exact h.rest k' fun hmem => hk' (by simp [List.mem_map.1 hmem])

/-- A touched group may change. -/
theorem change (h : Noted before start s touched) (hk : k ∈ touched.map Prod.fst)
    (ht : Touches k s s') : Noted before start s' touched where
  nodup := h.nodup
  answer := h.answer
  rest k' hk' := by
    rw [ht.other k' (by rintro rfl; exact hk' hk)]
    exact h.rest k' hk'
  next := h.next.trans ht.next
  id k' g hg := by
    by_cases hk' : k' = k
    · subst hk'
      rcases (ht.id g hg).2 with ⟨g₀, hg₀, hid⟩ | hle
      · rw [← hid]
        exact h.id k' g₀ hg₀
      · exact .inr (h.next.trans hle)
    · rw [ht.other k' hk'] at hg
      exact h.id k' g hg

end Noted

variable {touched touched' : Touched} {before : Value → Option (Group rule.collector)} {start : TupleId}

/-- One tuple goes from the groups. -/
theorem Grouped.removeTuple (h : s.Grouped rule T) (hn : Noted before start s touched) (hi : T i ≠ none)
    (hok : s.removeTuple touched i = .ok (s', touched')) :
    s'.Grouped rule (Function.update T i none) ∧ Noted before start s' touched' := by
  obtain ⟨t, ht⟩ := Option.ne_none_iff_exists'.1 hi
  obtain ⟨⟨k, v⟩, hkv⟩ := Option.ne_none_iff_exists'.1 (h.entry i t ht)
  have hget : s.inputs.get? i = some (k, v) := by rw [h.inputs, ht]; exact hkv
  rw [GroupBy.removeTuple, hget] at hok
  obtain ⟨touched₁, htouch, hok⟩ := bind_eq_ok_iff.1 hok
  obtain ⟨s₁, hleave, hok⟩ := bind_eq_ok_iff.1 hok
  cases pure_eq_ok_iff.1 hok
  obtain ⟨hn', hk⟩ := hn.touch htouch
  obtain ⟨h', ht'⟩ := h.leave hget hleave
  exact ⟨h', hn'.change hk ht'⟩

/-- One tuple comes into the groups. -/
theorem Grouped.insertTuple (h : s.Grouped rule T) (hn : Noted before start s touched) {t : Value}
    (hi : T i = none) (hok : GroupBy.insertTuple rule s touched i t = .ok (s', touched')) :
    s'.Grouped rule (Function.update T i (some t)) ∧ Noted before start s' touched' := by
  obtain ⟨k, hk, hok⟩ := bind_eq_ok_iff.1 hok
  obtain ⟨touched₁, htouch, hok⟩ := bind_eq_ok_iff.1 hok
  obtain ⟨v, hv, hok⟩ := bind_eq_ok_iff.1 hok
  obtain ⟨s₁, hadd, hok⟩ := bind_eq_ok_iff.1 hok
  cases pure_eq_ok_iff.1 hok
  obtain ⟨hn', hmem⟩ := hn.touch htouch
  obtain ⟨h', ht'⟩ := h.add hi (GroupRule.entry_eq hk hv) hadd
  exact ⟨h', hn'.change hmem ht'⟩

/-- One delta is taken into the groups. -/
theorem Grouped.absorb (h : s.Grouped rule T) (hn : Noted before start s touched) {d : Delta}
    (hd : d.Fits T) (hok : GroupBy.absorb rule (s, touched) d = .ok (s', touched')) :
    s'.Grouped rule (d.apply T) ∧ Noted before start s' touched' := by
  cases d with
  | insert i t => exact h.insertTuple hn hd hok
  | update i t =>
    obtain ⟨⟨s₁, touched₁⟩, hrem, hok⟩ := bind_eq_ok_iff.1 hok
    obtain ⟨h₁, hn₁⟩ := h.removeTuple hn hd hrem
    obtain ⟨h', hn'⟩ := h₁.insertTuple hn₁ (Function.update_self _ _ _) hok
    rw [Function.update_idem] at h'
    exact ⟨h', hn'⟩
  | retract i => exact h.removeTuple hn hd hok

/-- A batch is taken into the groups. -/
theorem Grouped.absorb_all (h : s.Grouped rule T) (hn : Noted before start s touched) {T' : Tuples}
    {ds : List Delta} (hT : Leads T ds T')
    (hok : ds.foldlM (GroupBy.absorb rule) (s, touched) = .ok (s', touched')) :
    s'.Grouped rule T' ∧ Noted before start s' touched' := by
  induction ds generalizing s touched T with
  | nil =>
    cases hok
    cases hT
    exact ⟨h, hn⟩
  | cons d ds ih =>
    rw [List.foldlM_cons] at hok
    obtain ⟨⟨s₁, touched₁⟩, h1, h2⟩ := bind_eq_ok_iff.1 hok
    obtain ⟨h', hn'⟩ := h.absorb hn hT.1 h1
    exact ih h' hn' hT.2 h2

/-- The identity of the group of a key. -/
def nameOf (groups : Value → Option (Group c)) (k : Value) : Option TupleId := (groups k).map Group.id

/-- What the group of a key shows. -/
def resultOf (output : Value → Value → Value) (groups : Value → Option (Group c)) (k : Value) :
    Option Value :=
  (groups k).bind fun g => (c.finish g.state).toOption.map (output k)

/-- The groups of the live tuples show their results. -/
structure InStep (rule : GroupRule) (s : GroupBy rule.collector) (T U : Tuples) : Prop where
  /-- The live tuples are grouped. -/
  grouped : s.Grouped rule T
  /-- Each group has a result. -/
  finish : ∀ k g, s.groups.get? k = some g → ∃ r, rule.collector.finish g.state = .ok r
  /-- Each group shows its result. -/
  named : Named (nameOf s.groups.get?) s.next (resultOf rule.output s.groups.get?) U

/-- Before any tuple came there is no group. -/
theorem InStep.empty (rule : GroupRule) : InStep rule {} Tuples.none Tuples.none where
  grouped :=
    { inputs := fun _ => rfl
      entry := nofun
      groups := fun _ => ⟨0, ⟨Multiset.nodup_zero, by simp⟩, rfl⟩
      below := nofun
      inj := nofun }
  finish := nofun
  named := Named.empty

/-- What the group of a key answers after a batch replaces what it answered before. -/
theorem leads_difference (output : Value → Value → Value) (o' : Option Outcome)
    {name : Value → Option TupleId} {next : TupleId} {P : Value → Option Value} {U : Tuples} (h : Named name next P U) {k : Value}
    {o : Option Outcome} (hname : name k = o.map Outcome.id)
    (hP : P k = o.map fun a => output k a.result)
    (hfresh : ∀ a, o' = some a → a.id < next ∧ ∀ q, q ≠ k → name q ≠ some a.id) :
    ∃ U', Leads U (difference output k o o') U' ∧
      Named (Function.update name k (o'.map Outcome.id)) next
        (Function.update P k (o'.map fun a => output k a.result)) U' := by
  have hnew : ∀ {name' : Value → Option TupleId} {P' : Value → Option Value} {V : Tuples} (a : Outcome),
      o' = some a → Named name' next P' V → P' k = none → name' k = none →
      (∀ q, q ≠ k → name' q = name q) →
      Leads V [insert a.id (output k a.result)] (apply V (insert a.id (output k a.result))) ∧
      Named (Function.update name' k (some a.id)) next
        (Function.update P' k (some (output k a.result)))
        (apply V (insert a.id (output k a.result))) := by
    intro name' P' V a ha h' hP' hn' hother
    have hne : ∀ q, name' q ≠ some a.id := by
      intro q
      by_cases hq : q = k
      · rw [hq, hn']
        exact nofun
      · rw [hother q hq]
        exact (hfresh a ha).2 q hq
    exact ⟨Leads.single (h'.absent hne), h'.add_at hP' hne (hfresh a ha).1 _⟩
  cases o with
  | none =>
    cases o' with
    | none =>
      refine ⟨U, rfl, h.congr (fun q => ?_) fun q => ?_⟩
      · by_cases hq : q = k <;> simp [hq, hname]
      · by_cases hq : q = k <;> simp [hq, hP]
    | some a => exact ⟨_, hnew a rfl h hP hname fun _ _ => rfl⟩
  | some b =>
    cases o' with
    | none => exact ⟨_, Leads.single (h.fits_retract hname), h.drop hname⟩
    | some a =>
      simp only [difference]
      by_cases hid : b.id = a.id
      · rw [if_neg (by simp [hid])]
        by_cases hr : b.result = a.result
        · rw [if_neg (by simp [hr])]
          refine ⟨U, rfl, h.congr (fun q => ?_) fun q => ?_⟩
          · by_cases hq : q = k <;> simp [hq, hname, hid]
          · by_cases hq : q = k <;> simp [hq, hP, hr]
        · rw [if_pos hr]
          have hname' : name k = some a.id := by rw [hname, ← hid]; rfl
          refine ⟨_, Leads.single (d := update a.id (output k a.result)) (h.fits_retract hname'),
            (h.change hname' (output k a.result)).congr (fun q => ?_) fun _ => rfl⟩
          by_cases hq : q = k <;> simp [hq, hname']
      · rw [if_pos hid]
        obtain ⟨hl, hadd⟩ := hnew a rfl (h.drop hname) (Function.update_self _ _ _)
          (Function.update_self _ _ _) fun q hq => Function.update_of_ne hq _ _
        rw [Function.update_idem, Function.update_idem] at hadd
        exact ⟨_, ⟨h.fits_retract hname, hl⟩, hadd⟩

/-- The groups of different keys, before and after, have different identities. -/
def Apart (before after : Value → Option (Group c)) : Prop :=
  ∀ k k' g g', k ≠ k' → before k = some g ∨ after k = some g →
    before k' = some g' ∨ after k' = some g' → g.id ≠ g'.id

/-- The groups before and after a batch are apart. -/
theorem Noted.apart {before : Value → Option (Group c)} {start : TupleId} {s : GroupBy c}
    {touched : Touched} (h : Noted before start s touched)
    (hbelow : ∀ k g, before k = some g → g.id < start)
    (hinj : ∀ k k' g g', before k = some g → before k' = some g' → g.id = g'.id → k = k')
    (hinj' : ∀ k k' g g', s.groups.get? k = some g → s.groups.get? k' = some g' → g.id = g'.id →
      k = k') : Apart before s.groups.get? := by
  -- An old group of one key and the new group of another one: the new group has the identity of an old
  -- group of its own key, or one given out since.
  have hmixed : ∀ k k' g g', k ≠ k' → before k = some g → s.groups.get? k' = some g' →
      g.id ≠ g'.id := by
    intro k k' g g' hk hg hg' heq
    rcases h.id k' g' hg' with ⟨g₀, hg₀, hid⟩ | hle
    · exact hk (hinj k k' g g₀ hg hg₀ (heq.trans hid.symm))
    · exact absurd (hbelow k g hg) (Nat.not_lt.2 (heq ▸ hle))
  rintro k k' g g' hk (hg | hg) (hg' | hg')
  · exact fun heq => hk (hinj k k' g g' hg hg' heq)
  · exact hmixed k k' g g' hk hg hg'
  · exact (hmixed k' k g' g hk.symm hg' hg).symm
  · exact fun heq => hk (hinj' k k' g g' hg hg' heq)

/-- The deltas of a group are about it, before or after, and are orderly. -/
theorem mem_difference (output : Value → Value → Value) (k : Value) (o o' : Option Outcome) :
    Orderly (difference output k o o') ∧ (o = none → ∀ d ∈ difference output k o o', d.IsInsert) ∧
      ∀ d ∈ difference output k o o', o.map Outcome.id = some d.id ∨ o'.map Outcome.id = some d.id := by
  cases o with
  | none =>
    cases o' with
    | none => simp [difference, Orderly]
    | some a => simp [difference, Orderly, IsInsert, Delta.id]
  | some b =>
    cases o' with
    | none => simp [difference, Orderly, Delta.id]
    | some a =>
      simp only [difference]
      split
      · simp [Orderly, IsInsert, IsRetract, Delta.id]
      · rename_i hid
        split
        · simp [Orderly, Delta.id]
        · simp [Orderly]

/-- What the group of a key answers. -/
theorem outcome_eq {s : GroupBy c} {k : Value} {o : Option Outcome} (h : s.outcome k = .ok o) :
    match s.groups.get? k with
    | some g => ∃ r, c.finish g.state = .ok r ∧ o = some ⟨g.id, r⟩
    | none => o = none := by
  unfold GroupBy.outcome at h
  cases hget : s.groups.get? k with
  | none =>
    rw [hget] at h
    exact (Except.ok.inj h).symm
  | some g =>
    rw [hget] at h
    obtain ⟨r, hr, h⟩ := bind_eq_ok_iff.1 h
    exact ⟨r, hr, (pure_eq_ok_iff.1 h).symm⟩

/-- A noted answer shows the identity and the result of the group. -/
theorem of_answer (output : Value → Value → Value) {groups : Value → Option (Group c)} {k : Value}
    {o : Option Outcome}
    (h : match groups k with
      | some g => ∃ r, c.finish g.state = .ok r ∧ o = some ⟨g.id, r⟩
      | none => o = none) :
    nameOf groups k = o.map Outcome.id ∧ resultOf output groups k = o.map (fun a => output k a.result) ∧
      (∀ id, o.map Outcome.id = some id → ∃ g, groups k = some g ∧ g.id = id) ∧
      ∀ g, groups k = some g → ∃ r, c.finish g.state = .ok r := by
  unfold nameOf resultOf
  cases hg : groups k with
  | none =>
    rw [hg] at h
    obtain rfl : o = none := h
    exact ⟨rfl, rfl, nofun, nofun⟩
  | some g =>
    rw [hg] at h
    obtain ⟨r, hr, rfl⟩ := h
    refine ⟨rfl, by simp [hr, Except.toOption], fun id hid => ⟨g, rfl, by simpa using hid⟩, ?_⟩
    rintro g' ⟨⟩
    exact ⟨r, hr⟩

section Differences

variable {s : GroupBy c} {output : Value → Value → Value} {before : Value → Option (Group c)} {k : Value}
  {o : Option Outcome} {ts : Touched} {out : List Delta}

/-- The deltas of the first touched group come before those of the others. -/
theorem differences_cons (h : s.differences output ((k, o) :: ts) = .ok out) :
    ∃ o' rest, s.outcome k = .ok o' ∧ s.differences output ts = .ok rest ∧
      out = difference output k o o' ++ rest := by
  obtain ⟨o', ho', h⟩ := bind_eq_ok_iff.1 h
  obtain ⟨rest, hrest, h⟩ := bind_eq_ok_iff.1 h
  exact ⟨o', rest, ho', hrest, (pure_eq_ok_iff.1 h).symm⟩

/-- The groups that were touched have results. -/
theorem finish_of_differences (hok : s.differences output ts = .ok out) :
    ∀ k ∈ ts.map Prod.fst, ∀ g, s.groups.get? k = some g → ∃ r, c.finish g.state = .ok r := by
  induction ts generalizing out with
  | nil => simp
  | cons t ts ih =>
    obtain ⟨k, o⟩ := t
    obtain ⟨o', rest, ho', hrest, -⟩ := differences_cons hok
    intro k' hk' g hg
    rcases List.mem_cons.1 hk' with rfl | hk'
    · exact (of_answer output (outcome_eq ho')).2.2.2 g hg
    · exact ih hrest k' hk' g hg

/-- The deltas of a touched group have the identity of the group before or after. -/
theorem id_of_mem_difference {o' : Option Outcome}
    (ho : match before k with
      | some g => ∃ r, c.finish g.state = .ok r ∧ o = some ⟨g.id, r⟩
      | none => o = none)
    (ho' : s.outcome k = .ok o') {d : Delta} (hd : d ∈ difference output k o o') :
    ∃ g, (before k = some g ∨ s.groups.get? k = some g) ∧ g.id = d.id := by
  obtain ⟨-, -, hold, -⟩ := of_answer output ho
  obtain ⟨-, -, hnew, -⟩ := of_answer output (outcome_eq ho')
  rcases (mem_difference output k o o').2.2 d hd with hid | hid
  · obtain ⟨g, hg, hid⟩ := hold _ hid
    exact ⟨g, .inl hg, hid⟩
  · obtain ⟨g, hg, hid⟩ := hnew _ hid
    exact ⟨g, .inr hg, hid⟩

variable (hans : ∀ k o, (k, o) ∈ ts →
  match before k with
  | some g => ∃ r, c.finish g.state = .ok r ∧ o = some ⟨g.id, r⟩
  | none => o = none)
include hans

/-- The deltas are about the touched groups. -/
theorem id_of_mem_differences (hok : s.differences output ts = .ok out) :
    ∀ d ∈ out, ∃ k ∈ ts.map Prod.fst, ∃ g, (before k = some g ∨ s.groups.get? k = some g) ∧ g.id = d.id := by
  induction ts generalizing out with
  | nil =>
    cases hok
    simp
  | cons t ts ih =>
    obtain ⟨k, o⟩ := t
    obtain ⟨o', rest, ho', hrest, rfl⟩ := differences_cons hok
    intro d hd
    rcases List.mem_append.1 hd with hd | hd
    · exact ⟨k, List.mem_cons_self, id_of_mem_difference (hans k o (by simp)) ho' hd⟩
    · obtain ⟨k', hk', hg⟩ := ih (fun k' o' hko => hans k' o' (by simp [hko])) hrest d hd
      exact ⟨k', List.mem_cons_of_mem _ hk', hg⟩

/-- Where there were no groups before, groups only come. -/
theorem isInsert_of_mem_differences (hok : s.differences output ts = .ok out) (hb : ∀ k, before k = none) :
    ∀ d ∈ out, d.IsInsert := by
  induction ts generalizing out with
  | nil =>
    cases hok
    simp
  | cons t ts ih =>
    obtain ⟨k, o⟩ := t
    obtain ⟨o', rest, -, hrest, rfl⟩ := differences_cons hok
    have hnone : o = none := by
      have hko := hans k o (by simp)
      rw [hb k] at hko
      exact hko
    intro d hd
    rcases List.mem_append.1 hd with hd | hd
    · exact (mem_difference output k o o').2.1 hnone d hd
    · exact ih (fun k' o' hko => hans k' o' (by simp [hko])) hrest d hd

variable (hts : (ts.map Prod.fst).Nodup) (hapart : Apart before s.groups.get?)
include hts hapart

/-- Every delta is about a group of its own, or about one that goes and comes. -/
theorem orderly_differences (hok : s.differences output ts = .ok out) : Orderly out := by
  induction ts generalizing out with
  | nil =>
    cases hok
    exact List.Pairwise.nil
  | cons t ts ih =>
    obtain ⟨k, o⟩ := t
    obtain ⟨hk, hts⟩ := List.nodup_cons.1 hts
    obtain ⟨o', rest, ho', hrest, rfl⟩ := differences_cons hok
    have hans' : ∀ k' o', (k', o') ∈ ts → _ := fun k' o' hko => hans k' o' (List.mem_cons_of_mem _ hko)
    refine List.pairwise_append.2 ⟨(mem_difference output k o o').1, ih hans' hts hrest, fun d hd e he heq => ?_⟩
    obtain ⟨g, hg, hid⟩ := id_of_mem_difference (hans k o (by simp)) ho' hd
    obtain ⟨k', hk', g', hg', hid'⟩ := id_of_mem_differences hans' hrest e he
    have hne : k ≠ k' := by
      rintro rfl
      exact hk hk'
    exact absurd (hid.trans (heq.trans hid'.symm)) (hapart k k' g g' hne hg hg')

/-- The deltas of the touched groups bring what is shown up to the groups. -/
theorem leads_differences {U : Tuples} (hbelow : ∀ k g, s.groups.get? k = some g → g.id < s.next)
    (h : Named (fun k => if k ∈ ts.map Prod.fst then nameOf before k else nameOf s.groups.get? k) s.next
      (fun k => if k ∈ ts.map Prod.fst then resultOf output before k
        else resultOf output s.groups.get? k) U)
    (hok : s.differences output ts = .ok out) :
    ∃ U', Leads U out U' ∧ Named (nameOf s.groups.get?) s.next (resultOf output s.groups.get?) U' := by
  induction ts generalizing U out with
  | nil =>
    cases hok
    exact ⟨U, rfl, by simpa using h⟩
  | cons t ts ih =>
    obtain ⟨k, o⟩ := t
    obtain ⟨hk, hts⟩ := List.nodup_cons.1 hts
    dsimp only at hk
    obtain ⟨o', rest, ho', hrest, rfl⟩ := differences_cons hok
    obtain ⟨hname, hP, -, -⟩ := of_answer output (hans k o (by simp))
    obtain ⟨hname', hP', hnew, -⟩ := of_answer output (outcome_eq ho')
    obtain ⟨V, hV, hmid⟩ := leads_difference output o' h (k := k) (o := o)
      (by simp [hname]) (by simp [hP]) fun a ha => by
        obtain ⟨g, hg, hid⟩ := hnew a.id (by rw [ha]; rfl)
        refine ⟨hid ▸ hbelow k g hg, fun q hq => ?_⟩
        have hne : ∀ g', before q = some g' ∨ s.groups.get? q = some g' → g'.id ≠ a.id :=
          fun g' hg' => hid ▸ hapart q k g' g hq hg' (.inr hg)
        intro hqa
        split at hqa
        · obtain ⟨g', hg', hid'⟩ := Option.map_eq_some_iff.1 hqa
          exact hne g' (.inl hg') hid'
        · obtain ⟨g', hg', hid'⟩ := Option.map_eq_some_iff.1 hqa
          exact hne g' (.inr hg') hid'
    have hmore : ∀ q, q ≠ k → (q ∈ ((k, o) :: ts).map Prod.fst ↔ q ∈ ts.map Prod.fst) := by
      intro q hq
      simp [hq]
    have hmid' : Named
        (fun k => if k ∈ ts.map Prod.fst then nameOf before k else nameOf s.groups.get? k) s.next
        (fun k => if k ∈ ts.map Prod.fst then resultOf output before k
          else resultOf output s.groups.get? k) V := hmid.congr
      (fun q => by
        by_cases hq : q = k
        · subst hq
          simp [hk, hname']
        · rw [Function.update_of_ne hq]
          simp only [hmore q hq])
      fun q => by
        by_cases hq : q = k
        · subst hq
          simp [hk, hP']
        · rw [Function.update_of_ne hq]
          simp only [hmore q hq]
    obtain ⟨U', hU', h'⟩ := ih (fun k' o' hko => hans k' o' (by simp [hko])) hts hmid' hrest
    exact ⟨U', hV.append hU', h'⟩

end Differences

/-- A batch brings the groups up to it, and is answered by an orderly one. -/
theorem InStep.process {U T' : Tuples} (h : s.InStep rule T U) {ds out : List Delta}
    (hT : Leads T ds T') (hok : s.process rule ds = .ok (s', out)) :
    ∃ U', Leads U out U' ∧ s'.InStep rule T' U' ∧ Orderly out ∧
      ((∀ k, s.groups.get? k = none) → ∀ d ∈ out, d.IsInsert) := by
  obtain ⟨⟨s₁, touched⟩, habsorb, hok⟩ := bind_eq_ok_iff.1 hok
  obtain ⟨ds', hdiff, hok⟩ := bind_eq_ok_iff.1 hok
  cases pure_eq_ok_iff.1 hok
  obtain ⟨hg, hn⟩ := h.grouped.absorb_all (Noted.empty s) hT habsorb
  have hapart := hn.apart h.grouped.below h.grouped.inj hg.inj
  have hnamed : Named
      (fun k => if k ∈ touched.map Prod.fst then nameOf s.groups.get? k else nameOf s'.groups.get? k)
      s'.next
      (fun k => if k ∈ touched.map Prod.fst then resultOf rule.output s.groups.get? k
        else resultOf rule.output s'.groups.get? k) U := by
    refine (h.named.skip hn.next).congr (fun k => ?_) fun k => ?_
    · split
      · rfl
      · rename_i hk
        rw [nameOf, hn.rest k hk]
        rfl
    · split
      · rfl
      · rename_i hk
        rw [resultOf, hn.rest k hk]
        rfl
  obtain ⟨U', hU', h'⟩ := leads_differences hn.answer hn.nodup hapart hg.below hnamed hdiff
  refine ⟨U', hU', ⟨hg, fun k g hget => ?_, h'⟩, orderly_differences hn.answer hn.nodup hapart hdiff,
    isInsert_of_mem_differences hn.answer hdiff⟩
  by_cases hk : k ∈ touched.map Prod.fst
  · exact finish_of_differences hdiff k hk g hget
  · rw [hn.rest k hk] at hget
    exact h.finish k g hget

end GroupBy

end Planning
