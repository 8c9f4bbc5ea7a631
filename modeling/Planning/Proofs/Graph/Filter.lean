import Planning.Graph.Filter
import Planning.Proofs.Checked
import Planning.Proofs.Graph.Tuples

/-!
# Filters and functions of live tuples

A filter keeps the live tuples for which its predicate holds, and a function replaces each live tuple by its
value; both leave the identities as they are. An orderly batch stays orderly on its way through them.
-/

namespace Planning

open Checked Delta

/-- A delta answers another when it is about the same tuple, goes when that goes and comes when that comes. -/
structure Delta.Answers (d e : Delta) : Prop where
  /-- Both are about one tuple. -/
  id : e.id = d.id
  /-- What goes is answered by what goes. -/
  retract : d.IsRetract → e.IsRetract
  /-- What comes is answered by what comes. -/
  insert : d.IsInsert → e.IsInsert

/-- An orderly batch of which each delta is answered at most once is answered by an orderly one. -/
theorem feed_orderly {σ : Type} {step : σ → Delta → Checked (σ × List Delta)}
    (hstep : ∀ s d s' out, step s d = .ok (s', out) → out.length ≤ 1 ∧ ∀ e ∈ out, d.Answers e)
    {ds out : List Delta} {s s' : σ} (ho : Orderly ds) (h : feed step s ds = .ok (s', out)) :
    Orderly out ∧ ∀ e ∈ out, ∃ d ∈ ds, d.Answers e := by
  induction ds generalizing s out with
  | nil =>
    cases h
    exact ⟨List.Pairwise.nil, by simp⟩
  | cons d ds ih =>
    obtain ⟨t, first, rest, h1, h2, rfl⟩ := feed_cons_eq_ok_iff.1 h
    obtain ⟨hd, ho⟩ := List.pairwise_cons.1 ho
    obtain ⟨hlength, hfirst⟩ := hstep s d t first h1
    obtain ⟨hrest, hans⟩ := ih ho h2
    refine ⟨List.pairwise_append.2 ⟨?_, hrest, fun x hx y hy hxy => ?_⟩, fun e he => ?_⟩
    · match first, hlength with
      | [], _ => exact List.Pairwise.nil
      | [x], _ => exact List.pairwise_singleton _ _
    · have hx := hfirst x hx
      obtain ⟨e, he, hy⟩ := hans y hy
      obtain ⟨hr, hi⟩ := hd e he (hx.id.symm.trans (hxy.trans hy.id))
      exact ⟨hx.retract hr, hy.insert hi⟩
    · rcases List.mem_append.1 he with he | he
      · exact ⟨d, by simp, hfirst e he⟩
      · obtain ⟨d', hd', hans⟩ := hans e he
        exact ⟨d', by simp [hd'], hans⟩

namespace Filter

/-- The tuple, if the predicate holds for it. -/
def keep (p : Value → Checked Bool) (t : Value) : Option Value := if p t = .ok true then some t else none

/-- The live tuples for which the predicate holds have passed, and their identities are known. -/
structure InStep (p : Value → Checked Bool) (passing : List TupleId) (T U : Tuples) : Prop where
  /-- What passed is what the predicate holds for. -/
  tuple : ∀ i, U i = (T i).bind (keep p)
  /-- The identities of what passed are known. -/
  mem_iff : ∀ i, i ∈ passing ↔ U i ≠ none

/-- Before any tuple came none passed. -/
theorem InStep.empty (p : Value → Checked Bool) : InStep p [] Tuples.none Tuples.none where
  tuple _ := rfl
  mem_iff _ := by simp [Tuples.none]

variable {p : Value → Checked Bool} {passing passing' : List TupleId} {T U : Tuples} {d : Delta}
  {out : List Delta}

/-- What passes of one tuple is replaced by what passes of another. -/
theorem InStep.replace (h : InStep p passing T U)
    (hmem : ∀ i, i ∈ passing' ↔ if i = d.id then d.tuple?.bind (keep p) ≠ none else i ∈ passing) :
    InStep p passing' (d.apply T) (Function.update U d.id (d.tuple?.bind (keep p))) where
  tuple i := by
    by_cases hi : i = d.id
    · rw [hi, Function.update_self, apply_id]
    · rw [Function.update_of_ne hi, apply_of_ne hi, h.tuple]
  mem_iff i := by
    rw [hmem]
    by_cases hi : i = d.id
    · simp [hi]
    · simp [hi, h.mem_iff]

/-- One delta brings what passed up to it. -/
theorem InStep.step (h : InStep p passing T U) (hd : d.Fits T)
    (hok : Filter.step p passing d = .ok (passing', out)) :
    ∃ U', Leads U out U' ∧ InStep p passing' (d.apply T) U' := by
  refine ⟨Function.update U d.id (d.tuple?.bind (keep p)), ?_⟩
  cases d with
  | insert i t =>
    have hU : U i = none := by
      rw [h.tuple i, show T i = none from hd]
      rfl
    obtain ⟨now, hnow, hok⟩ := bind_eq_ok_iff.1 hok
    cases now with
    | true =>
      cases pure_eq_ok_iff.1 hok
      have hk : (some t).bind (keep p) = some t := by simp [keep, hnow]
      refine ⟨⟨hU, by simp [apply, Delta.id, tuple?, hk]⟩, h.replace fun j => ?_⟩
      by_cases hj : j = i <;> simp [hj, Delta.id, tuple?, keep, hnow]
    | false =>
      cases pure_eq_ok_iff.1 hok
      have hk : (some t).bind (keep p) = none := by simp [keep, hnow]
      refine ⟨by simp [Delta.id, tuple?, hk, ← hU], h.replace fun j => ?_⟩
      by_cases hj : j = i
      · simp [hj, Delta.id, tuple?, keep, hnow, h.mem_iff, hU]
      · simp [hj, Delta.id]
  | update i t =>
    obtain ⟨now, hnow, hok⟩ := bind_eq_ok_iff.1 hok
    have hcontains : passing.contains i = true ↔ U i ≠ none := by simp [h.mem_iff]
    cases hc : passing.contains i <;> cases now <;> rw [hc] at hok hcontains <;>
      cases pure_eq_ok_iff.1 hok
    · have hU : U i = none := by simpa using hcontains
      refine ⟨by simp [Delta.id, tuple?, keep, hnow, ← hU], h.replace fun j => ?_⟩
      by_cases hj : j = i
      · simp [hj, Delta.id, tuple?, keep, hnow, h.mem_iff, hU]
      · simp [hj, Delta.id]
    · have hU : U i = none := by simpa using hcontains
      refine ⟨⟨hU, by simp [apply, Delta.id, tuple?, keep, hnow]⟩, h.replace fun j => ?_⟩
      by_cases hj : j = i <;> simp [hj, Delta.id, tuple?, keep, hnow]
    · have hU : U i ≠ none := by simpa using hcontains
      refine ⟨⟨hU, by simp [apply, Delta.id, tuple?, keep, hnow]⟩, h.replace fun j => ?_⟩
      by_cases hj : j = i <;> simp [hj, Delta.id, tuple?, keep, hnow]
    · have hU : U i ≠ none := by simpa using hcontains
      refine ⟨⟨hU, by simp [apply, Delta.id, tuple?, keep, hnow]⟩, h.replace fun j => ?_⟩
      by_cases hj : j = i
      · simp [hj, Delta.id, tuple?, keep, hnow, h.mem_iff, hU]
      · simp [hj, Delta.id]
  | retract i =>
    have hcontains : passing.contains i = true ↔ U i ≠ none := by simp [h.mem_iff]
    simp only [Filter.step] at hok
    cases hc : passing.contains i <;> rw [hc] at hok hcontains <;> cases hok
    · have hU : U i = none := by simpa using hcontains
      refine ⟨by simpa [Delta.id, tuple?] using hU, h.replace fun j => ?_⟩
      by_cases hj : j = i
      · simp [hj, Delta.id, tuple?, h.mem_iff, hU]
      · simp [hj, Delta.id]
    · have hU : U i ≠ none := by simpa using hcontains
      refine ⟨⟨hU, by simp [apply, Delta.id, tuple?]⟩, h.replace fun j => ?_⟩
      by_cases hj : j = i <;> simp [hj, Delta.id, tuple?]

/-- A filter answers a delta at most once. -/
theorem step_answers (hok : Filter.step p passing d = .ok (passing', out)) :
    out.length ≤ 1 ∧ ∀ e ∈ out, d.Answers e := by
  cases d with
  | insert i t =>
    obtain ⟨now, -, hok⟩ := bind_eq_ok_iff.1 hok
    cases now <;> cases pure_eq_ok_iff.1 hok
    · simp
    · exact ⟨Nat.le_refl 1, by simpa using ⟨rfl, id, id⟩⟩
  | update i t =>
    obtain ⟨now, -, hok⟩ := bind_eq_ok_iff.1 hok
    cases hc : passing.contains i <;> cases now <;> rw [hc] at hok <;>
      cases pure_eq_ok_iff.1 hok
    · simp
    · exact ⟨Nat.le_refl 1, by simpa using ⟨rfl, False.elim, fun _ => trivial⟩⟩
    · exact ⟨Nat.le_refl 1, by simpa using ⟨rfl, fun _ => trivial, False.elim⟩⟩
    · exact ⟨Nat.le_refl 1, by simpa using ⟨rfl, id, id⟩⟩
  | retract i =>
    simp only [Filter.step] at hok
    cases hc : passing.contains i <;> rw [hc] at hok <;> cases hok
    · simp
    · exact ⟨Nat.le_refl 1, by simpa using ⟨rfl, id, id⟩⟩

/-- A batch brings what passed up to it. -/
theorem InStep.feed (h : InStep p passing T U) {T' : Tuples} {ds : List Delta} (hT : Leads T ds T')
    (hok : feed (Filter.step p) passing ds = .ok (passing', out)) :
    ∃ U', Leads U out U' ∧ InStep p passing' T' U' := by
  obtain ⟨U', hU', h', -⟩ := feed_leads (P := InStep p) (K := fun _ => True) id
    (fun s T U d s' out _ hs hd hok => by
      obtain ⟨U', hU', hs'⟩ := hs.step hd hok
      exact ⟨U', hU', hs', fun _ _ => trivial⟩) h (by simpa using hT) hok
  exact ⟨U', hU', h'⟩

/-- An orderly batch stays orderly. -/
theorem orderly {ds : List Delta} (ho : Orderly ds)
    (hok : Planning.feed (Filter.step p) passing ds = .ok (passing', out)) : Orderly out :=
  (feed_orderly (fun _ _ _ _ h => step_answers h) ho hok).1

/-- What comes passes or stays away. -/
theorem isInsert {ds : List Delta} (hds : ∀ d ∈ ds, d.IsInsert) (ho : Orderly ds)
    (hok : Planning.feed (Filter.step p) passing ds = .ok (passing', out)) : ∀ e ∈ out, e.IsInsert := by
  intro e he
  obtain ⟨d, hd, hans⟩ := (feed_orderly (fun _ _ _ _ h => step_answers h) ho hok).2 e he
  exact hans.insert (hds d hd)

end Filter

/-- Each live tuple is replaced by its value. -/
structure Mapped (f : Value → Checked Value) (T U : Tuples) : Prop where
  /-- A live tuple has a value. -/
  ok : ∀ i t, T i = some t → ∃ v, f t = .ok v
  /-- The values are live. -/
  tuple : ∀ i, U i = (T i).bind fun t => (f t).toOption

namespace Mapped

variable {f : Value → Checked Value} {T T' U : Tuples} {ds out : List Delta}

/-- Where no tuple is live there is no value. -/
theorem empty (f : Value → Checked Value) : Mapped f Tuples.none Tuples.none where
  ok _ _ h := by cases h
  tuple _ := rfl

/-- A function of deltas answers each once. -/
theorem answers {d e : Delta} (he : d.mapTuple f = .ok e) : d.Answers e := by
  cases d with
  | insert i t =>
    obtain ⟨v, -, he⟩ := bind_eq_ok_iff.1 he
    cases pure_eq_ok_iff.1 he
    exact ⟨rfl, False.elim, id⟩
  | update i t =>
    obtain ⟨v, -, he⟩ := bind_eq_ok_iff.1 he
    cases pure_eq_ok_iff.1 he
    exact ⟨rfl, False.elim, False.elim⟩
  | retract i =>
    cases he
    exact ⟨rfl, id, id⟩

/-- One delta is replaced by one that brings the values up to it. -/
theorem step (h : Mapped f T U) {d e : Delta} (hd : d.Fits T) (he : d.mapTuple f = .ok e) :
    e.Fits U ∧ Mapped f (d.apply T) (e.apply U) := by
  have hfits : U d.id = none ↔ T d.id = none := by
    rw [h.tuple]
    cases hT : T d.id with
    | none => simp
    | some t =>
      obtain ⟨v, hv⟩ := h.ok _ _ hT
      simp [hv, Except.toOption]
  have hid : e.id = d.id := (answers he).id
  have hvalue : (e.Fits U ↔ d.Fits T) ∧ e.tuple? = d.tuple?.bind (fun t => (f t).toOption) ∧
      ∀ t, d.tuple? = some t → ∃ v, f t = .ok v := by
    cases d with
    | insert i t =>
      obtain ⟨v, hv, he⟩ := bind_eq_ok_iff.1 he
      cases pure_eq_ok_iff.1 he
      exact ⟨hfits, by simp [tuple?, hv, Except.toOption], fun t' ht' => by cases ht'; exact ⟨v, hv⟩⟩
    | update i t =>
      obtain ⟨v, hv, he⟩ := bind_eq_ok_iff.1 he
      cases pure_eq_ok_iff.1 he
      exact ⟨not_congr hfits, by simp [tuple?, hv, Except.toOption],
        fun t' ht' => by cases ht'; exact ⟨v, hv⟩⟩
    | retract i =>
      cases he
      refine ⟨not_congr hfits, rfl, fun t ht => ?_⟩
      cases ht
  obtain ⟨hfit, htuple, hok⟩ := hvalue
  refine ⟨hfit.2 hd, ⟨fun i t hT => ?_, fun i => ?_⟩⟩
  · by_cases hi : i = d.id
    · subst hi
      rw [apply_id] at hT
      exact hok t hT
    · rw [apply_of_ne hi] at hT
      exact h.ok i t hT
  · by_cases hi : i = d.id
    · rw [hi, apply_id, ← hid, apply_id, htuple]
    · rw [apply_of_ne hi, apply_of_ne (by rw [hid]; exact hi), h.tuple]

/-- A function of deltas is a step without state. -/
theorem feed_of_mapM {g : Delta → Checked Delta} (h : ds.mapM g = .ok out) :
    feed (fun (_ : Unit) d => do return ((), [← g d])) () ds = .ok ((), out) := by
  induction ds generalizing out with
  | nil =>
    cases h
    rfl
  | cons d ds ih =>
    simp only [List.mapM_cons, bind_eq_ok_iff, pure_eq_ok_iff] at h
    obtain ⟨e, he, es, hes, rfl⟩ := h
    exact feed_cons_eq_ok_iff.2 ⟨(), [e], es, by rw [he]; rfl, ih hes, rfl⟩

/-- A batch is replaced by one that brings the values up to it. -/
theorem leads (h : Mapped f T U) (hT : Leads T ds T') (hok : ds.mapM (mapTuple f) = .ok out) :
    ∃ U', Leads U out U' ∧ Mapped f T' U' := by
  obtain ⟨U', hU', h', -⟩ := feed_leads (P := fun (_ : Unit) T U => Mapped f T U)
    (K := fun _ => True) id
    (fun _ T U d _ out _ hs hd hok => by
      obtain ⟨e, he, hok⟩ := bind_eq_ok_iff.1 hok
      cases pure_eq_ok_iff.1 hok
      obtain ⟨hfit, hs'⟩ := hs.step hd he
      exact ⟨_, Leads.single hfit, hs', fun _ _ => trivial⟩) h (by simpa using hT)
    (feed_of_mapM hok)
  exact ⟨U', hU', h'⟩

/-- An orderly batch is replaced by an orderly one, whose deltas answer those of the batch. -/
theorem orderly (ho : Orderly ds) (hok : ds.mapM (mapTuple f) = .ok out) :
    Orderly out ∧ ∀ e ∈ out, ∃ d ∈ ds, d.Answers e :=
  feed_orderly (fun _ d _ out h => by
    obtain ⟨e, he, h⟩ := bind_eq_ok_iff.1 h
    cases pure_eq_ok_iff.1 h
    exact ⟨Nat.le_refl 1, by simpa using answers he⟩) ho (feed_of_mapM hok)

end Mapped

end Planning
