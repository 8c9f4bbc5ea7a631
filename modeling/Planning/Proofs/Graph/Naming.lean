import Mathlib.Algebra.BigOperators.Group.List.Basic
import Mathlib.Data.List.Nodup
import Mathlib.Logic.Function.Basic
import Planning.Proofs.Graph.Tuples
import Planning.Table

/-!
# Tables as functions and as sums

Reading a table after an entry was written or erased is reading an updated function. In a table in which no
key stands twice, a sum over the entries changes by the entry that comes and the entry that goes.
-/

namespace Planning.Table

variable {κ α : Type} [DecidableEq κ]

/-- Writing a table is updating what it reads. -/
theorem get?_set_eq (t : Table κ α) (k : κ) (a : α) :
    (t.set k a).get? = Function.update t.get? k (some a) := by
  funext k'
  simp [Function.update_apply]

/-- Erasing a key of a table is updating what it reads. -/
theorem get?_erase_eq (t : Table κ α) (k : κ) :
    (t.erase k).get? = Function.update t.get? k none := by
  funext k'
  simp [Function.update_apply]

/-- No key stands twice in a table. -/
def Unique (t : Table κ α) : Prop := (t.map Prod.fst).Nodup

/-- Erasing leaves no key twice. -/
theorem Unique.erase {t : Table κ α} (h : t.Unique) (k : κ) : (t.erase k).Unique :=
  h.sublist (List.filter_sublist.map _)

/-- An erased key is gone. -/
theorem not_mem_erase (t : Table κ α) (k : κ) : k ∉ (t.erase k).map Prod.fst := by
  intro hmem
  obtain ⟨e, he, rfl⟩ := List.mem_map.1 hmem
  exact of_decide_eq_true (List.mem_filter.1 he).2 rfl

/-- Writing leaves no key twice. -/
theorem Unique.set {t : Table κ α} (h : t.Unique) (k : κ) (a : α) : (t.set k a).Unique :=
  List.nodup_cons.2 ⟨not_mem_erase t k, h.erase k⟩

/-- Reading a table without doubles is finding the entry. -/
theorem Unique.get?_eq_some_iff {t : Table κ α} (h : t.Unique) {k : κ} {a : α} :
    t.get? k = some a ↔ (k, a) ∈ t := by
  induction t with
  | nil => simp
  | cons e t ih =>
    obtain ⟨he, ht⟩ := List.nodup_cons.1 h
    rw [get?_cons, List.mem_cons]
    by_cases hk : e.1 = k
    · subst hk
      have hnot : (e.1, a) ∉ t := fun hmem => he (List.mem_map.2 ⟨_, hmem, rfl⟩)
      rw [if_pos rfl, or_iff_left hnot, Option.some.injEq, Prod.ext_iff]
      exact ⟨fun ha => ⟨rfl, ha.symm⟩, fun ha => ha.2.symm⟩
    · rw [if_neg hk, ih ht, or_iff_right]
      rintro rfl
      exact hk rfl

/-- Erasing goes entry by entry. -/
theorem erase_cons (e : κ × α) (t : Table κ α) (k : κ) :
    Table.erase (e :: t) k = if e.1 = k then Table.erase t k else e :: Table.erase t k := by
  unfold Table.erase
  rw [List.filter_cons]
  by_cases hk : e.1 = k
  · rw [if_pos hk, if_neg (by simp [hk])]
  · rw [if_neg hk, if_pos (by simp [hk])]

/-- Erasing a key that has no entry changes nothing. -/
theorem erase_of_not_mem {t : Table κ α} {k : κ} (h : k ∉ t.map Prod.fst) : t.erase k = t := by
  refine List.filter_eq_self.2 fun e he => decide_eq_true fun heq => h ?_
  exact List.mem_map.2 ⟨e, he, heq⟩

variable {β : Type} [AddCommMonoid β]

/-- A sum over a table is what the entry of a key adds and the sum over the others. -/
theorem Unique.sum_eq {t : Table κ α} (h : t.Unique) (f : α → β) (k : κ) :
    (t.map fun e => f e.2).sum =
      ((t.get? k).map f).getD 0 + ((t.erase k).map fun e => f e.2).sum := by
  induction t with
  | nil => simp [Table.erase]
  | cons e t ih =>
    obtain ⟨he, ht⟩ := List.nodup_cons.1 h
    by_cases hk : e.1 = k
    · subst hk
      rw [get?_cons, if_pos rfl, erase_cons, if_pos rfl, erase_of_not_mem he, List.map_cons,
        List.sum_cons]
      rfl
    · rw [get?_cons, if_neg hk, erase_cons, if_neg hk, List.map_cons, List.map_cons, List.sum_cons,
        List.sum_cons, ih ht, add_left_comm]

/-- A sum over a table after a key was written. -/
theorem sum_set (t : Table κ α) (f : α → β) (k : κ) (a : α) :
    ((t.set k a).map fun e => f e.2).sum = f a + ((t.erase k).map fun e => f e.2).sum := by
  rw [set, List.map_cons, List.sum_cons]

end Planning.Table

/-!
# Named tuples

A node that makes tuples of its own gives each item that has one a name, the identity of its tuple. Names
are given out in ascending order and never twice, so a new tuple fits the live ones; the bag of live tuples
is that of the items.
-/

namespace Planning

open Delta

/-- Each item with a tuple has a name of its own, under which the tuple is live, and nothing else is. -/
structure Named {ι : Type} (name : ι → Option TupleId) (next : TupleId) (P : ι → Option Value)
    (T : Tuples) : Prop where
  /-- The tuple of a named item is live under its name. -/
  tuple : ∀ q id, name q = some id → T id = P q ∧ P q ≠ none ∧ id < next
  /-- An item with a tuple has a name. -/
  named : ∀ q, P q ≠ none → ∃ id, name q = some id
  /-- A live tuple is that of an item. -/
  owner : ∀ id, T id ≠ none → ∃ q, name q = some id
  /-- Different items have different names. -/
  inj : ∀ q q' id, name q = some id → name q' = some id → q = q'

namespace Named

variable {ι : Type} {name : ι → Option TupleId} {next : TupleId} {P : ι → Option Value} {T : Tuples}

/-- Without items nothing is live. -/
theorem empty : Named (fun _ : ι => none) 0 (fun _ => none) Tuples.none where
  tuple _ _ h := by cases h
  named _ h := by simp at h
  owner _ h := by simp [Tuples.none] at h
  inj _ _ _ h := by cases h

/-- Nothing is live under what is no name. -/
theorem absent (h : Named name next P T) {id : TupleId} (hid : ∀ q, name q ≠ some id) :
    T id = none := by
  by_contra hlive
  obtain ⟨q, hq⟩ := h.owner id hlive
  exact hid q hq

/-- The next name is not given yet. -/
theorem name_ne_next (h : Named name next P T) (q : ι) : name q ≠ some next := fun hq =>
  absurd (h.tuple q next hq).2.2 (Nat.lt_irrefl next)

/-- Names may be left out. -/
theorem skip (h : Named name next P T) {next' : TupleId} (hle : next ≤ next') :
    Named name next' P T where
  tuple q id hq := by
    obtain ⟨htuple, hsome, hlt⟩ := h.tuple q id hq
    exact ⟨htuple, hsome, Nat.lt_of_lt_of_le hlt hle⟩
  named := h.named
  owner := h.owner
  inj := h.inj

/-- An item without tuple has no name. -/
theorem name_eq_none (h : Named name next P T) {q : ι} (hq : P q = none) : name q = none := by
  by_contra hsome
  obtain ⟨id, hid⟩ := Option.ne_none_iff_exists'.1 hsome
  exact (h.tuple q id hid).2.1 hq

/-- An item without name has no tuple. -/
theorem eq_none_of_name (h : Named name next P T) {q : ι} (hq : name q = none) : P q = none := by
  by_contra hsome
  obtain ⟨id, hid⟩ := h.named q hsome
  rw [hq] at hid
  cases hid

/-- The live tuples are those of the items, each once. -/
theorem bag (h : Named name next P T) {qs : List ι} (hqs : qs.Nodup)
    (hall : ∀ q, P q ≠ none → q ∈ qs) : Tuples.Bag T (qs.filterMap P) := by
  refine ⟨qs.filterMap name, ?_, ?_, ?_⟩
  · exact List.Nodup.filterMap h.inj hqs
  · intro id
    rw [List.mem_filterMap]
    constructor
    · rintro ⟨q, -, hq⟩
      rw [(h.tuple q id hq).1]
      exact (h.tuple q id hq).2.1
    · intro hlive
      obtain ⟨q, hq⟩ := h.owner id hlive
      exact ⟨q, hall q (h.tuple q id hq).2.1, hq⟩
  · rw [List.filterMap_filterMap]
    refine congrArg _ (List.filterMap_congr fun q _ => ?_)
    cases hq : name q with
    | none => exact (h.eq_none_of_name hq).symm
    | some id => exact (h.tuple q id hq).1

/-- What is live under a name is live. -/
theorem fits_retract (h : Named name next P T) {q : ι} {id : TupleId} (hq : name q = some id) :
    (retract id).Fits T := by
  obtain ⟨htuple, hsome, -⟩ := h.tuple q id hq
  rw [Fits, htuple]
  exact hsome

/-- Names and tuples may be written otherwise. -/
theorem congr (h : Named name next P T) {name' : ι → Option TupleId} {P' : ι → Option Value}
    (hname : ∀ q, name' q = name q) (hP : ∀ q, P' q = P q) : Named name' next P' T := by
  rw [funext hname, funext hP]
  exact h

variable [DecidableEq ι]

/-- A tuple comes under a name not given yet. -/
theorem add_at (h : Named name next P T) {q : ι} (hq : P q = none) {id : TupleId}
    (hfresh : ∀ q, name q ≠ some id) (hid : id < next) (v : Value) :
    Named (Function.update name q (some id)) next (Function.update P q (some v))
      (apply T (insert id v)) := by
  have hnone := h.name_eq_none hq
  have hold : ∀ {q' id'}, name q' = some id' → q' ≠ q ∧ id' ≠ id := by
    intro q' id' hname
    refine ⟨?_, ?_⟩
    · rintro rfl
      rw [hnone] at hname
      cases hname
    · rintro rfl
      exact hfresh q' hname
  have hnew : ∀ {q' id'}, Function.update name q (some id) q' = some id' →
      q' = q ∧ id' = id ∨ q' ≠ q ∧ name q' = some id' := by
    intro q' id' hname
    by_cases hq' : q' = q
    · subst hq'
      rw [Function.update_self] at hname
      exact .inl ⟨rfl, (Option.some.inj hname).symm⟩
    · rw [Function.update_of_ne hq'] at hname
      exact .inr ⟨hq', hname⟩
  constructor
  · intro q' id' hname
    rcases hnew hname with ⟨rfl, rfl⟩ | ⟨hne, hname⟩
    · exact ⟨by simp [apply, Delta.id, tuple?], by simp, hid⟩
    · rw [Function.update_of_ne hne, apply_of_ne (hold hname).2]
      exact h.tuple q' id' hname
  · intro q' hsome
    by_cases hq' : q' = q
    · exact ⟨id, by simp [hq']⟩
    · rw [Function.update_of_ne hq'] at hsome ⊢
      exact h.named q' hsome
  · intro id' hlive
    by_cases hid' : id' = id
    · exact ⟨q, by simp [hid']⟩
    · rw [apply_of_ne (d := insert id v) hid'] at hlive
      obtain ⟨q', hq'⟩ := h.owner id' hlive
      exact ⟨q', by rw [Function.update_of_ne (hold hq').1]; exact hq'⟩
  · intro q1 q2 id' h1 h2
    rcases hnew h1 with ⟨hq1, hid1⟩ | ⟨-, h1⟩
    · rcases hnew h2 with ⟨hq2, -⟩ | ⟨-, h2⟩
      · exact hq1.trans hq2.symm
      · exact absurd hid1 (hold h2).2
    · rcases hnew h2 with ⟨-, hid2⟩ | ⟨-, h2⟩
      · exact absurd hid2 (hold h1).2
      · exact h.inj q1 q2 id' h1 h2

/-- A tuple comes under the next name. -/
theorem add (h : Named name next P T) {q : ι} (hq : P q = none) (v : Value) :
    Named (Function.update name q (some next)) (next + 1) (Function.update P q (some v))
      (apply T (insert next v)) :=
  (h.skip (Nat.le_succ next)).add_at hq h.name_ne_next (Nat.lt_succ_self next) v

/-- The tuple of a named item goes. -/
theorem drop (h : Named name next P T) {q : ι} {id : TupleId} (hq : name q = some id) :
    Named (Function.update name q none) next (Function.update P q none) (apply T (retract id)) := by
  have hrest : ∀ {q' id'}, Function.update name q none q' = some id' →
      q' ≠ q ∧ name q' = some id' := by
    intro q' id' hname
    by_cases hq' : q' = q
    · simp [hq'] at hname
    · rw [Function.update_of_ne hq'] at hname
      exact ⟨hq', hname⟩
  constructor
  · intro q' id' hname
    obtain ⟨hne, hname⟩ := hrest hname
    have hid : id' ≠ id := by
      rintro rfl
      exact hne (h.inj q' q id' hname hq)
    rw [Function.update_of_ne hne, apply_of_ne (d := retract id) hid]
    exact h.tuple q' id' hname
  · intro q' hsome
    by_cases hq' : q' = q
    · simp [hq'] at hsome
    · rw [Function.update_of_ne hq'] at hsome ⊢
      exact h.named q' hsome
  · intro id' hlive
    by_cases hid : id' = id
    · simp [hid, apply, Delta.id, tuple?] at hlive
    · rw [apply_of_ne (d := retract id) hid] at hlive
      obtain ⟨q', hq'⟩ := h.owner id' hlive
      have hne : q' ≠ q := by
        rintro rfl
        exact hid (Option.some.inj (hq'.symm.trans hq))
      exact ⟨q', by rw [Function.update_of_ne hne]; exact hq'⟩
  · intro q1 q2 id' h1 h2
    exact h.inj q1 q2 id' (hrest h1).2 (hrest h2).2

/-- The tuple of a named item changes. -/
theorem change (h : Named name next P T) {q : ι} {id : TupleId} (hq : name q = some id) (v : Value) :
    Named name next (Function.update P q (some v)) (apply T (update id v)) := by
  constructor
  · intro q' id' hname
    obtain ⟨htuple, hsome, hlt⟩ := h.tuple q' id' hname
    by_cases hq' : q' = q
    · subst hq'
      obtain rfl := Option.some.inj (hname.symm.trans hq)
      exact ⟨by simp [apply, Delta.id, tuple?], by simp, hlt⟩
    · have hid : id' ≠ id := by
        rintro rfl
        exact hq' (h.inj q' q id' hname hq)
      rw [Function.update_of_ne hq', apply_of_ne (d := update id v) hid]
      exact ⟨htuple, hsome, hlt⟩
  · intro q' hsome
    by_cases hq' : q' = q
    · exact ⟨id, by rw [hq']; exact hq⟩
    · rw [Function.update_of_ne hq'] at hsome
      exact h.named q' hsome
  · intro id' hlive
    by_cases hid : id' = id
    · exact ⟨q, by rw [hid]; exact hq⟩
    · rw [apply_of_ne (d := update id v) hid] at hlive
      exact h.owner id' hlive
  · exact h.inj

/-- The tuples of named items go one by one. -/
theorem drop_all (h : Named name next P T) {qs : List ι} {ids : List TupleId} (hqs : qs.Nodup)
    (hids : qs.map name = ids.map some) :
    ∃ T', Leads T (ids.map retract) T' ∧
      Named (fun q => if q ∈ qs then none else name q) next (fun q => if q ∈ qs then none else P q)
        T' := by
  induction qs generalizing name P T ids with
  | nil =>
    obtain rfl : ids = [] := by simpa using hids.symm
    exact ⟨T, rfl, by simpa using h⟩
  | cons q qs ih =>
    obtain ⟨hq, hqs⟩ := List.nodup_cons.1 hqs
    cases ids with
    | nil => simp at hids
    | cons id ids =>
      obtain ⟨hid, hids⟩ := List.cons.inj hids
      have hrest : qs.map (Function.update name q none) = ids.map some := by
        rw [← hids]
        refine List.map_congr_left fun q' hq' => Function.update_of_ne ?_ _ _
        rintro rfl
        exact hq hq'
      obtain ⟨T', hT', h'⟩ := ih (h.drop hid) hqs hrest
      have hcut : ∀ {α : Type} (f : ι → Option α),
          (fun x => if x ∈ qs then none else Function.update f q none x) =
            fun x => if x ∈ q :: qs then none else f x := by
        intro α f
        funext x
        by_cases hx : x = q
        · simp [hx]
        · simp [hx]
      rw [hcut, hcut] at h'
      exact ⟨T', ⟨h.fits_retract hid, hT'⟩, h'⟩

end Named

end Planning
