import Mathlib.Data.List.Induction
import Planning.Graph.Filter
import Planning.Proofs.Checked
import Planning.Proofs.Graph.Naming

/-!
# Flattening live tuples

Flattening names each item of each live tuple by the place of the item in its tuple. The items of a tuple
that comes follow one another under the next names, and the items of a tuple that goes go together.
-/

namespace Planning.Flatten

open Checked Delta

/-- The items to which a live tuple expands. -/
def itemsOf (expand : Value → Checked (List Value)) (T : Tuples) (i : TupleId) : List Value :=
  ((T i).bind fun t => (expand t).toOption).getD []

/-- The identities of the items of each tuple. -/
def children (s : Flatten) (i : TupleId) : List TupleId := (s.outputs.get? i).getD []

/-- The name of an item, given by its tuple and its place there. -/
def name (s : Flatten) (q : TupleId × Nat) : Option TupleId := (s.children q.1)[q.2]?

/-- Each item of a live tuple is live under its name. -/
def InStep (expand : Value → Checked (List Value)) (s : Flatten) (T U : Tuples) : Prop :=
  Named s.name s.next (fun q => (itemsOf expand T q.1)[q.2]?) U

/-- Before any tuple came there are no items. -/
theorem InStep.empty (expand : Value → Checked (List Value)) :
    InStep expand {} Tuples.none Tuples.none := Named.empty

variable {expand : Value → Checked (List Value)} {s s' : Flatten} {T U : Tuples} {i : TupleId}
  {out : List Delta}

/-- The items of a tuple go. -/
theorem leads_removeTuple {name : TupleId × Nat → Option TupleId}
    {P : TupleId × Nat → Option Value} (h : Named name s.next P U)
    (hname : ∀ j, name (i, j) = (s.children i)[j]?) :
    ∃ U', Leads U ((s.children i).map retract) U' ∧
      Named (fun q => if q.1 = i then none else name q) s.next
        (fun q => if q.1 = i then none else P q) U' := by
  let qs := (List.range (s.children i).length).map fun j => (i, j)
  have hqs : qs.Nodup := List.nodup_range.map fun j j' hj => (Prod.mk.inj hj).2
  have hids : qs.map name = (s.children i).map some := by
    refine List.ext_getElem (by simp [qs]) fun j hj hj' => ?_
    have hj : j < (s.children i).length := by simpa using hj'
    simp [qs, hname, hj]
  obtain ⟨U', hU', h'⟩ := h.drop_all hqs hids
  refine ⟨U', hU', ?_⟩
  have hmem : ∀ q : TupleId × Nat, q ∈ qs ↔ q.1 = i ∧ name q ≠ none := by
    rintro ⟨i', j⟩
    constructor
    · intro hq
      obtain ⟨j', hj', heq⟩ := List.mem_map.1 hq
      cases heq
      exact ⟨rfl, by simpa [hname] using hj'⟩
    · rintro ⟨rfl, hq⟩
      exact List.mem_map.2 ⟨j, by simpa [hname] using hq, rfl⟩
  convert h' using 2 with q q
  · by_cases hq : q.1 = i <;> by_cases hn : name q = none <;> simp [hmem, hq, hn]
  · by_cases hq : q.1 = i
    · by_cases hn : name q = none
      · simp [hmem, hq, hn, h.eq_none_of_name hn]
      · simp [hmem, hq, hn]
    · simp [hmem, hq]

/-- The items of a tuple come. -/
theorem leads_insertItems {name : TupleId × Nat → Option TupleId} {next : TupleId}
    {P : TupleId × Nat → Option Value} (h : Named name next P U) (hi : ∀ q, q.1 = i → P q = none)
    (items : List Value) :
    ∃ U', Leads U (List.zipWith insert ((List.range items.length).map (next + ·)) items) U' ∧
      Named (fun q => if q.1 = i then ((List.range items.length).map (next + ·))[q.2]? else name q)
        (next + items.length) (fun q => if q.1 = i then items[q.2]? else P q) U' := by
  induction items using List.reverseRecOn with
  | nil =>
    refine ⟨U, rfl, h.congr (fun q => ?_) fun q => ?_⟩
    · by_cases hq : q.1 = i
      · simp [hq, h.name_eq_none (hi q hq)]
      · simp [hq]
    · by_cases hq : q.1 = i
      · simp [hq, hi q hq]
      · simp [hq]
  | append_singleton items v ih =>
    obtain ⟨U', hU', h'⟩ := ih
    let q : TupleId × Nat := (i, items.length)
    have hadd := h'.add (q := q) (by simp [q]) v
    refine ⟨apply U' (insert (next + items.length) v), ?_, ?_⟩
    · rw [List.length_append, List.length_singleton, List.range_succ, List.map_append,
        List.zipWith_append (by simp)]
      exact hU'.append (Leads.single (h'.absent h'.name_ne_next))
    · rw [List.length_append, List.length_singleton, ← Nat.add_assoc]
      refine hadd.congr (fun ⟨i', j⟩ => ?_) fun ⟨i', j⟩ => ?_
      · by_cases hq : (i', j) = q
        · obtain ⟨rfl, rfl⟩ := Prod.mk.inj hq
          simp [q]
        · rw [Function.update_of_ne hq]
          by_cases hi' : i' = i
          · have hj : j ≠ items.length := fun hj => hq (Prod.ext hi' hj)
            by_cases hlt : j < items.length
            · simp [hi', hlt, Nat.lt_succ_of_lt hlt]
            · have hnot : ¬ j < items.length + 1 := by omega
              simp [hi', hlt, hnot]
          · simp [hi']
      · by_cases hq : (i', j) = q
        · obtain ⟨rfl, rfl⟩ := Prod.mk.inj hq
          simp [q]
        · rw [Function.update_of_ne hq]
          by_cases hi' : i' = i
          · have hj : j ≠ items.length := fun hj => hq (Prod.ext hi' hj)
            by_cases hlt : j < items.length
            · simp [hi', List.getElem?_append_left hlt]
            · have hgt : items.length < j := by omega
              simp [hi', List.getElem?_append_right (Nat.le_of_lt hgt), Nat.sub_ne_zero_of_lt hgt,
                List.getElem?_eq_none (Nat.le_of_lt hgt)]
          · simp [hi']

/-- The items are known when those of one tuple are replaced. -/
theorem itemsOf_apply {d : Delta} {q : TupleId × Nat} :
    (itemsOf expand (d.apply T) q.1)[q.2]? =
      if q.1 = d.id then ((d.tuple?.bind fun t => (expand t).toOption).getD [])[q.2]?
      else (itemsOf expand T q.1)[q.2]? := by
  unfold itemsOf
  by_cases hq : q.1 = d.id
  · rw [hq, apply_id, if_pos rfl]
  · rw [apply_of_ne hq, if_neg hq]

/-- The names after the items of a tuple got theirs. -/
theorem name_set (s : Flatten) (i : TupleId) (ids : List TupleId) (n : TupleId) (q : TupleId × Nat) :
    name { outputs := s.outputs.set i ids, next := n } q =
      if q.1 = i then ids[q.2]? else s.name q := by
  unfold name children
  rw [Table.get?_set]
  split <;> rfl

/-- A tuple that goes takes its items and their names with it. -/
theorem removeTuple_eq (s : Flatten) (i : TupleId) :
    (s.removeTuple i).2 = (s.children i).map retract ∧ (s.removeTuple i).1.next = s.next ∧
      ∀ q, (s.removeTuple i).1.name q = if q.1 = i then none else s.name q := by
  cases hget : s.outputs.get? i with
  | none =>
    simp only [Flatten.removeTuple, hget]
    refine ⟨by simp [children, hget], trivial, fun q => ?_⟩
    split
    · rename_i hq
      simp [name, children, hq, hget]
    · rfl
  | some ids =>
    simp only [Flatten.removeTuple, hget]
    refine ⟨by simp [children, hget], trivial, fun q => ?_⟩
    unfold name children
    rw [Table.get?_erase]
    split <;> rfl

/-- The items of a tuple that goes go. -/
theorem InStep.removeTuple (h : s.InStep expand T U) (i : TupleId) :
    ∃ U', Leads U (s.removeTuple i).2 U' ∧
      Named (s.removeTuple i).1.name (s.removeTuple i).1.next
        (fun q => if q.1 = i then none else (itemsOf expand T q.1)[q.2]?) U' := by
  obtain ⟨hout, hnext, hname⟩ := s.removeTuple_eq i
  obtain ⟨U', hU', h'⟩ := leads_removeTuple (i := i) h fun j => rfl
  refine ⟨U', by rw [hout]; exact hU', ?_⟩
  rw [hnext, funext hname]
  exact h'

/-- The items of a tuple that comes come. -/
theorem leads_items {P : TupleId × Nat → Option Value} {items : List Value}
    (h : Named s.name s.next P U) (hi : ∀ q, q.1 = i → P q = none)
    (hins : s.insertItems i items = (s', out)) :
    ∃ U', Leads U out U' ∧
      Named s'.name s'.next (fun q => if q.1 = i then items[q.2]? else P q) U' := by
  obtain ⟨U', hU', h'⟩ := leads_insertItems h hi items
  unfold insertItems at hins
  split at hins
  · rename_i hempty
    obtain rfl := List.isEmpty_iff.1 hempty
    cases hins
    refine ⟨U, rfl, h.congr (fun _ => rfl) fun q => ?_⟩
    by_cases hq : q.1 = i
    · simp [hq, hi q hq]
    · simp [hq]
  · cases hins
    exact ⟨U', hU', h'.congr (name_set _ _ _ _) fun _ => rfl⟩

/-- What comes has names not given before, and the names of other tuples stay. -/
theorem insertItems_fresh (s : Flatten) (i : TupleId) (items : List Value) :
    s.next ≤ (s.insertItems i items).1.next ∧
      (∀ q, q.1 ≠ i → (s.insertItems i items).1.name q = s.name q) ∧
      ∀ e ∈ (s.insertItems i items).2, e.IsInsert ∧ s.next ≤ e.id := by
  unfold insertItems
  split
  · exact ⟨Nat.le_refl _, fun _ _ => rfl, by simp⟩
  · refine ⟨Nat.le_add_right _ _, fun q hq => by rw [name_set, if_neg hq], fun e he => ?_⟩
    obtain ⟨m, hm, rfl⟩ := List.mem_iff_getElem.1 he
    simp [IsInsert, Delta.id]

/-- One delta brings the items up to it. -/
theorem InStep.step (h : s.InStep expand T U) {d : Delta} (hd : d.Fits T)
    (hok : Flatten.step expand s d = .ok (s', out)) :
    ∃ U', Leads U out U' ∧ s'.InStep expand (d.apply T) U' := by
  have hcong : ∀ (items : List Value) {f : TupleId × Nat → Option Value},
      (d.tuple?.bind fun t => (expand t).toOption).getD [] = items →
      (∀ q, q.1 ≠ d.id → f q = (itemsOf expand T q.1)[q.2]?) →
      (fun q : TupleId × Nat => (itemsOf expand (d.apply T) q.1)[q.2]?) =
        fun q => if q.1 = d.id then items[q.2]? else f q := by
    intro items f hitems hf
    funext q
    rw [itemsOf_apply, hitems]
    split
    · rfl
    · exact (hf q ‹_›).symm
  cases d with
  | insert i t =>
    obtain ⟨items, hitems, hok⟩ := bind_eq_ok_iff.1 hok
    have hT : T i = none := hd
    obtain ⟨U', hU', h'⟩ := leads_items h (fun q hq => by simp [itemsOf, hq, hT]) (pure_eq_ok_iff.1 hok)
    refine ⟨U', hU', ?_⟩
    rw [InStep, hcong items (by simp [tuple?, hitems, Except.toOption]) fun _ _ => rfl]
    exact h'
  | update i t =>
    obtain ⟨items, hitems, hok⟩ := bind_eq_ok_iff.1 hok
    cases pure_eq_ok_iff.1 hok
    obtain ⟨V, hV, hmid⟩ := h.removeTuple i
    obtain ⟨U', hU', h'⟩ := leads_items hmid (i := i) (fun q hq => if_pos hq) rfl
    refine ⟨U', hV.append hU', ?_⟩
    rw [InStep, hcong items (by simp [tuple?, hitems, Except.toOption])
      fun q hq => if_neg hq]
    exact h'
  | retract i =>
    obtain ⟨U', hU', h'⟩ := h.removeTuple i
    rw [show s.removeTuple i = (s', out) from Except.ok.inj hok] at hU' h'
    refine ⟨U', hU', ?_⟩
    rw [InStep, hcong [] rfl fun _ _ => rfl]
    exact h'

/-- A batch brings the items up to it. -/
theorem InStep.feed (h : s.InStep expand T U) {T' : Tuples} {ds : List Delta} (hT : Leads T ds T')
    (hok : Planning.feed (Flatten.step expand) s ds = .ok (s', out)) :
    ∃ U', Leads U out U' ∧ s'.InStep expand T' U' := by
  obtain ⟨U', hU', h', -⟩ := feed_leads (P := InStep expand) (K := fun _ => True) id
    (fun s T U d s' out _ hs hd hok => by
      obtain ⟨U', hU', hs'⟩ := hs.step hd hok
      exact ⟨U', hU', hs', fun _ _ => trivial⟩) h (by simpa using hT) hok
  exact ⟨U', hU', h'⟩

/-- The items that come are younger than those that go, whose tuples are older. -/
theorem step_age {d : Delta} {n : TupleId} (hn : n ≤ s.next)
    (hd : ¬ d.IsInsert → ∀ q id, q.1 = d.id → s.name q = some id → id < n)
    (hok : Flatten.step expand s d = .ok (s', out)) :
    n ≤ s'.next ∧ (∀ q, q.1 ≠ d.id → s'.name q = s.name q) ∧
      ∀ e ∈ out, ¬ d.IsInsert ∧ e.IsRetract ∧ e.id < n ∨ e.IsInsert ∧ n ≤ e.id := by
  have hgone : ∀ i, d.id = i → ¬ d.IsInsert → ∀ e ∈ (s.removeTuple i).2, e.IsRetract ∧ e.id < n := by
    intro i hi hins e he
    rw [(s.removeTuple_eq i).1] at he
    obtain ⟨id, hid, rfl⟩ := List.mem_map.1 he
    obtain ⟨j, hj⟩ := List.mem_iff_getElem?.1 hid
    exact ⟨trivial, hd hins (i, j) id hi.symm hj⟩
  cases d with
  | insert i t =>
    obtain ⟨items, -, hok⟩ := bind_eq_ok_iff.1 hok
    obtain ⟨hnext, hname, hout⟩ := s.insertItems_fresh i items
    rw [show s.insertItems i items = (s', out) from pure_eq_ok_iff.1 hok] at hnext hname hout
    exact ⟨hn.trans hnext, hname, fun e he => .inr ⟨(hout e he).1, hn.trans (hout e he).2⟩⟩
  | update i t =>
    obtain ⟨items, -, hok⟩ := bind_eq_ok_iff.1 hok
    cases pure_eq_ok_iff.1 hok
    obtain ⟨-, hnext, hname⟩ := s.removeTuple_eq i
    obtain ⟨hnext', hname', hout⟩ := (s.removeTuple i).1.insertItems_fresh i items
    rw [hnext] at hnext' hout
    refine ⟨hn.trans hnext', fun q hq => ?_, fun e he => ?_⟩
    · exact (hname' q hq).trans ((hname q).trans (if_neg hq))
    · rcases List.mem_append.1 he with he | he
      · exact .inl ⟨False.elim, hgone i rfl False.elim e he⟩
      · exact .inr ⟨(hout e he).1, hn.trans (hout e he).2⟩
  | retract i =>
    obtain ⟨-, hnext, hname⟩ := s.removeTuple_eq i
    have hgone := hgone i rfl False.elim
    rw [show s.removeTuple i = (s', out) from Except.ok.inj hok] at hnext hname hgone
    refine ⟨hnext ▸ hn, fun q hq => (hname q).trans (if_neg hq), fun e he => ?_⟩
    exact .inl ⟨False.elim, hgone e he⟩

/-- In an orderly batch the items that come are younger than those that go. -/
theorem feed_age {ds : List Delta} {n : TupleId} (hn : n ≤ s.next) (ho : Orderly ds)
    (hds : ∀ d ∈ ds, ¬ d.IsInsert → ∀ q id, q.1 = d.id → s.name q = some id → id < n)
    (hok : Planning.feed (Flatten.step expand) s ds = .ok (s', out)) :
    ∀ e ∈ out, (∃ d ∈ ds, ¬ d.IsInsert) ∧ e.IsRetract ∧ e.id < n ∨ e.IsInsert ∧ n ≤ e.id := by
  induction ds generalizing s out with
  | nil =>
    cases hok
    simp
  | cons d ds ih =>
    obtain ⟨t, first, rest, h1, h2, rfl⟩ := feed_cons_eq_ok_iff.1 hok
    obtain ⟨hd, ho⟩ := List.pairwise_cons.1 ho
    obtain ⟨hnext, hname, hfirst⟩ := step_age hn (hds d (by simp)) h1
    have hrest := ih hnext ho (fun e he hins q id hq hid => by
      have hne : q.1 ≠ d.id := fun heq => hins (hd e he (heq.symm.trans hq)).2
      rw [hname q hne] at hid
      exact hds e (by simp [he]) hins q id hq hid) h2
    intro e he
    rcases List.mem_append.1 he with he | he
    · rcases hfirst e he with ⟨hins, hr⟩ | hi
      · exact .inl ⟨⟨d, by simp, hins⟩, hr⟩
      · exact .inr hi
    · rcases hrest e he with ⟨⟨d', hd', hins⟩, hr⟩ | hi
      · exact .inl ⟨⟨d', by simp [hd'], hins⟩, hr⟩
      · exact .inr hi

/-- An orderly batch is answered by an orderly one. -/
theorem InStep.orderly (h : s.InStep expand T U) {T' : Tuples} {ds : List Delta}
    (hT : Leads T ds T') (ho : Orderly ds)
    (hok : Planning.feed (Flatten.step expand) s ds = .ok (s', out)) : Orderly out := by
  obtain ⟨U', hU', -⟩ := h.feed hT hok
  refine hU'.orderly_of_lt (n := s.next) fun e he => ?_
  rcases feed_age (Nat.le_refl _) ho (fun d _ _ q id _ hid => (h.tuple q id hid).2.2) hok e he with
    ⟨-, hr⟩ | hi
  · exact .inl hr
  · exact .inr hi

/-- When tuples only come, items only come. -/
theorem isInsert {ds : List Delta} (h : s.InStep expand T U) (hds : ∀ d ∈ ds, d.IsInsert)
    (ho : Orderly ds) (hok : Planning.feed (Flatten.step expand) s ds = .ok (s', out)) :
    ∀ e ∈ out, e.IsInsert := by
  intro e he
  rcases feed_age (Nat.le_refl _) ho (fun d _ _ q id _ hid => (h.tuple q id hid).2.2) hok e he with
    ⟨⟨d, hd, hins⟩, -⟩ | hi
  · exact absurd (hds d hd) hins
  · exact hi.1

end Planning.Flatten
