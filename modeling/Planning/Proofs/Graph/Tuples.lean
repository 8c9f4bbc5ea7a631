import Mathlib.Data.Multiset.Basic
import Mathlib.Logic.Function.Basic
import Planning.Graph.Delta

/-!
# Live tuples

The live tuples of a node are given by their identities. A delta fits them when it inserts what is not live
or changes what is; a list of fitting deltas leads from some live tuples to others. A batch is orderly when
no tuple goes or changes in it after it came: such a batch leads to the same tuples when everything that
goes is taken out before anything is put in.
-/

namespace Planning

/-- The live tuples of a node by their identities. -/
abbrev Tuples := TupleId → Option Value

namespace Tuples

/-- No tuple is live. -/
def none : Tuples := fun _ => Option.none

/-- The values of the live tuples, of which there are finitely many. -/
def Bag (T : Tuples) (M : Multiset Value) : Prop :=
  ∃ ids : List TupleId, ids.Nodup ∧ (∀ i, i ∈ ids ↔ T i ≠ Option.none) ∧
    (ids.filterMap T : Multiset Value) = M

/-- Live tuples have one bag of values. -/
theorem Bag.unique {T : Tuples} {M N : Multiset Value} (hM : Bag T M) (hN : Bag T N) : M = N := by
  obtain ⟨ids, hids, hmem, rfl⟩ := hM
  obtain ⟨jds, hjds, hmem', rfl⟩ := hN
  have hp : ids.Perm jds :=
    (List.perm_ext_iff_of_nodup hids hjds).2 fun i => (hmem i).trans (hmem' i).symm
  exact Multiset.coe_eq_coe.2 (hp.filterMap T)

end Tuples

namespace Delta

/-- The identity of the tuple that comes, changes or goes. -/
def id : Delta → TupleId
  | insert i _ => i
  | update i _ => i
  | retract i => i

/-- The tuple that is live after a delta. -/
def tuple? : Delta → Option Value
  | insert _ t => some t
  | update _ t => some t
  | retract _ => none

/-- The live tuples after a delta. -/
def apply (T : Tuples) (d : Delta) : Tuples := Function.update T d.id d.tuple?

/-- A delta inserts what is not live, or changes or retracts what is. -/
def Fits (T : Tuples) : Delta → Prop
  | insert i _ => T i = none
  | update i _ => T i ≠ none
  | retract i => T i ≠ none

/-- A delta retracts a tuple. -/
def IsRetract : Delta → Prop
  | retract _ => True
  | _ => False

/-- A delta inserts a tuple. -/
def IsInsert : Delta → Prop
  | insert _ _ => True
  | _ => False

section Kinds

variable {T : Tuples} {d : Delta}

/-- After a retraction no tuple is live. -/
theorem IsRetract.tuple?_eq (h : d.IsRetract) : d.tuple? = none := by
  cases d with
  | insert i t => cases h
  | update i t => cases h
  | retract i => rfl

/-- A retraction fits where its tuple is live. -/
theorem IsRetract.fits_iff (h : d.IsRetract) : d.Fits T ↔ T d.id ≠ none := by
  cases d with
  | insert i t => cases h
  | update i t => cases h
  | retract i => rfl

/-- After an insertion a tuple is live. -/
theorem IsInsert.tuple?_ne (h : d.IsInsert) : d.tuple? ≠ none := by
  cases d with
  | insert i t => exact Option.some_ne_none t
  | update i t => cases h
  | retract i => cases h

/-- An insertion fits where its tuple is not live. -/
theorem IsInsert.fits_iff (h : d.IsInsert) : d.Fits T ↔ T d.id = none := by
  cases d with
  | insert i t => rfl
  | update i t => cases h
  | retract i => cases h

end Kinds

/-- Deltas that fit one after another lead from live tuples to others. -/
def Leads (T : Tuples) : List Delta → Tuples → Prop
  | [], U => T = U
  | d :: ds, U => d.Fits T ∧ Leads (d.apply T) ds U

/-- Two deltas of one tuple in a batch retract it and insert it again. -/
def Orderly (ds : List Delta) : Prop :=
  ds.Pairwise fun d e => d.id = e.id → d.IsRetract ∧ e.IsInsert

@[simp] theorem leads_nil {T U : Tuples} : Leads T [] U ↔ T = U := Iff.rfl

@[simp] theorem leads_cons {T U : Tuples} {d : Delta} {ds : List Delta} :
    Leads T (d :: ds) U ↔ d.Fits T ∧ Leads (d.apply T) ds U := Iff.rfl

theorem leads_append {T U : Tuples} {ds es : List Delta} :
    Leads T (ds ++ es) U ↔ ∃ V, Leads T ds V ∧ Leads V es U := by
  induction ds generalizing T with
  | nil => simp
  | cons d ds ih => simp only [List.cons_append, leads_cons, ih, exists_and_left, and_assoc]

theorem Leads.append {T U V : Tuples} {ds es : List Delta} (h : Leads T ds U) (h' : Leads U es V) :
    Leads T (ds ++ es) V :=
  leads_append.2 ⟨U, h, h'⟩

theorem Leads.single {T : Tuples} {d : Delta} (h : d.Fits T) : Leads T [d] (d.apply T) := ⟨h, rfl⟩

/-- The tuples that deltas lead to are determined. -/
theorem Leads.unique {T U V : Tuples} {ds : List Delta} (h : Leads T ds U) (h' : Leads T ds V) :
    U = V := by
  induction ds generalizing T with
  | nil => exact h.symm.trans h'
  | cons d ds ih => exact ih h.2 h'.2

/-- Deltas lead to what they make of the live tuples one after another. -/
theorem Leads.eq_foldl {T U : Tuples} {ds : List Delta} (h : Leads T ds U) : ds.foldl apply T = U := by
  induction ds generalizing T with
  | nil => exact h
  | cons d ds ih => exact ih h.2

@[simp] theorem apply_id {T : Tuples} {d : Delta} : d.apply T d.id = d.tuple? := by simp [apply]

/-- A delta says nothing of tuples of other identities. -/
theorem apply_of_ne {T : Tuples} {d : Delta} {i : TupleId} (h : i ≠ d.id) : d.apply T i = T i :=
  Function.update_of_ne h _ _

/-- Whether a delta fits depends on the tuple of its identity alone. -/
theorem fits_congr {T U : Tuples} {d : Delta} (h : T d.id = U d.id) : d.Fits T ↔ d.Fits U := by
  cases d with
  | insert i t => exact iff_of_eq (congrArg (· = none) h)
  | update i t => exact iff_of_eq (congrArg (· ≠ none) h)
  | retract i => exact iff_of_eq (congrArg (· ≠ none) h)

/-- Deltas of different tuples may change places. -/
theorem apply_comm {T : Tuples} {d e : Delta} (h : d.id ≠ e.id) :
    e.apply (d.apply T) = d.apply (e.apply T) := by
  unfold apply
  exact Function.update_comm h _ _ _

/-- A delta may wait until deltas of other tuples are through. -/
theorem Leads.delay {T U : Tuples} {d : Delta} {ds : List Delta} (hd : d.Fits T)
    (hne : ∀ e ∈ ds, e.id ≠ d.id) (h : Leads (d.apply T) ds U) : Leads T (ds ++ [d]) U := by
  induction ds generalizing T with
  | nil => exact ⟨hd, h⟩
  | cons e ds ih =>
    have he : e.id ≠ d.id := hne e (by simp)
    refine ⟨(fits_congr (apply_of_ne he)).1 h.1, ih ?_ (fun x hx => hne x (by simp [hx])) ?_⟩
    · exact (fits_congr (apply_of_ne he.symm)).2 hd
    · rw [apply_comm he]
      exact h.2

/-- The deltas by which tuples of given identities go. -/
def going (ids : List TupleId) : List Delta := ids.map retract

/-- The deltas by which given tuples come. -/
def coming (entries : List (TupleId × Value)) : List Delta := entries.map fun e => insert e.1 e.2

theorem mem_removals {ds : List Delta} {i : TupleId} (h : i ∈ removals ds) : ∃ d ∈ ds, d.id = i := by
  obtain ⟨d, hd, hi⟩ := List.mem_filterMap.1 h
  refine ⟨d, hd, ?_⟩
  cases d with
  | insert j t => cases hi
  | update j t => exact Option.some.inj hi
  | retract j => exact Option.some.inj hi

/-- In an orderly batch everything that goes or changes may be taken out before anything is put in. -/
theorem Leads.taken_out_first {T U : Tuples} {ds : List Delta} (h : Leads T ds U) (ho : Orderly ds) :
    Leads T (going (removals ds) ++ coming (insertions ds)) U := by
  induction ds generalizing T with
  | nil => exact h
  | cons d ds ih =>
    obtain ⟨hfirst, hrest⟩ := List.pairwise_cons.1 ho
    obtain ⟨V, hV, hVU⟩ := leads_append.1 (ih h.2 hrest)
    -- A tuple that comes waits until the others have gone; no later delta is about it.
    have waits : ∀ {W : Tuples} {i : TupleId} {t : Value}, d.id = i → ¬ d.IsRetract → W i = none →
        Leads (Function.update W i (some t)) (going (removals ds)) V →
        Leads W (going (removals ds) ++ coming ((i, t) :: insertions ds)) U := by
      intro W i t hi hd hW hl
      have hne : ∀ e ∈ going (removals ds), e.id ≠ (insert i t).id := by
        intro e he
        obtain ⟨j, hj, rfl⟩ := List.mem_map.1 he
        obtain ⟨x, hx, rfl⟩ := mem_removals hj
        intro hxi
        exact hd (hfirst x hx (hi.trans hxi.symm)).1
      have := (Leads.delay (d := insert i t) hW hne hl).append hVU
      simpa [coming] using this
    cases d with
    | insert i t =>
      exact waits (i := i) (t := t) rfl (by simp [IsRetract]) h.1 hV
    | update i t =>
      have hl := waits (i := i) (W := Function.update T i none) (t := t) rfl (by simp [IsRetract])
        (by simp) (by rw [Function.update_idem]; exact hV)
      exact ⟨h.1, hl⟩
    | retract i => exact ⟨h.1, hV.append hVU⟩

/-- What is retracted in a row was live before. -/
theorem Leads.live_of_retracts {T U : Tuples} {ds : List Delta} (h : Leads T ds U)
    (hds : ∀ d ∈ ds, d.IsRetract) : ∀ d ∈ ds, T d.id ≠ none := by
  induction ds generalizing T with
  | nil => simp
  | cons e ds ih =>
    intro d hd
    have he := hds e List.mem_cons_self
    rcases List.mem_cons.1 hd with rfl | hd
    · exact he.fits_iff.1 h.1
    · have hlive := ih h.2 (fun x hx => hds x (by simp [hx])) d hd
      have hne : d.id ≠ e.id := by
        intro hde
        rw [hde, apply_id] at hlive
        exact hlive he.tuple?_eq
      rwa [apply_of_ne hne] at hlive

/-- What is inserted in a row was not live before. -/
theorem Leads.absent_of_inserts {T U : Tuples} {ds : List Delta} (h : Leads T ds U)
    (hds : ∀ d ∈ ds, d.IsInsert) : ∀ d ∈ ds, T d.id = none := by
  induction ds generalizing T with
  | nil => simp
  | cons e ds ih =>
    intro d hd
    have he := hds e List.mem_cons_self
    rcases List.mem_cons.1 hd with rfl | hd
    · exact he.fits_iff.1 h.1
    · have habsent := ih h.2 (fun x hx => hds x (by simp [hx])) d hd
      have hne : d.id ≠ e.id := by
        intro hde
        rw [hde, apply_id] at habsent
        exact he.tuple?_ne habsent
      rwa [apply_of_ne hne] at habsent

/-- No tuple is retracted twice in a row of retractions. -/
theorem Leads.pairwise_of_retracts {T U : Tuples} {ds : List Delta} (h : Leads T ds U)
    (hds : ∀ d ∈ ds, d.IsRetract) : ds.Pairwise fun d e => d.id ≠ e.id := by
  induction ds generalizing T with
  | nil => exact List.Pairwise.nil
  | cons d ds ih =>
    have hrest : ∀ x ∈ ds, x.IsRetract := fun x hx => hds x (by simp [hx])
    refine List.pairwise_cons.2 ⟨fun e he heq => ?_, ih h.2 hrest⟩
    have hlive := h.2.live_of_retracts hrest e he
    rw [← heq, apply_id] at hlive
    exact hlive (hds d List.mem_cons_self).tuple?_eq

/-- No tuple is inserted twice in a row of insertions. -/
theorem Leads.pairwise_of_inserts {T U : Tuples} {ds : List Delta} (h : Leads T ds U)
    (hds : ∀ d ∈ ds, d.IsInsert) : ds.Pairwise fun d e => d.id ≠ e.id := by
  induction ds generalizing T with
  | nil => exact List.Pairwise.nil
  | cons d ds ih =>
    have hrest : ∀ x ∈ ds, x.IsInsert := fun x hx => hds x (by simp [hx])
    refine List.pairwise_cons.2 ⟨fun e he heq => ?_, ih h.2 hrest⟩
    have habsent := h.2.absent_of_inserts hrest e he
    rw [← heq, apply_id] at habsent
    exact (hds d List.mem_cons_self).tuple?_ne habsent

/-- A batch in which everything that goes goes before anything comes is orderly. -/
theorem Leads.orderly {T U : Tuples} {ds es : List Delta} (h : Leads T (ds ++ es) U)
    (hds : ∀ d ∈ ds, d.IsRetract) (hes : ∀ e ∈ es, e.IsInsert) : Orderly (ds ++ es) := by
  obtain ⟨V, hV, hVU⟩ := leads_append.1 h
  refine List.pairwise_append.2 ⟨?_, ?_, fun d hd e he _ => ⟨hds d hd, hes e he⟩⟩
  · exact (hV.pairwise_of_retracts hds).imp fun hne he => absurd he hne
  · exact (hVU.pairwise_of_inserts hes).imp fun hne he => absurd he hne

/-- A batch is orderly when what goes is older and what comes is younger than some identity. -/
theorem Leads.orderly_of_lt {T U : Tuples} {ds : List Delta} {n : TupleId} (h : Leads T ds U)
    (hds : ∀ d ∈ ds, d.IsRetract ∧ d.id < n ∨ d.IsInsert ∧ n ≤ d.id) : Orderly ds := by
  suffices hne : ds.Pairwise (fun d e => d.id ≠ e.id) ∧ ∀ d ∈ ds, d.Fits T from
    hne.1.imp fun hne he => absurd he hne
  induction ds generalizing T with
  | nil => simp
  | cons d ds ih =>
    obtain ⟨hne, hfits⟩ := ih h.2 fun e he => hds e (by simp [he])
    have hne' : ∀ e ∈ ds, d.id ≠ e.id := by
      intro e he heq
      have hfit := hfits e he
      rcases hds d (by simp) with ⟨hd, hdlt⟩ | ⟨hd, hdle⟩
      · rcases hds e (by simp [he]) with ⟨he', -⟩ | ⟨-, hle⟩
        · rw [he'.fits_iff, ← heq, apply_id] at hfit
          exact hfit hd.tuple?_eq
        · exact absurd (heq ▸ hdlt) (Nat.not_lt.2 hle)
      · rcases hds e (by simp [he]) with ⟨-, hlt⟩ | ⟨he', -⟩
        · exact absurd (heq ▸ hlt) (Nat.not_lt.2 hdle)
        · rw [he'.fits_iff, ← heq, apply_id] at hfit
          exact hd.tuple?_ne hfit
    refine ⟨List.pairwise_cons.2 ⟨hne', hne⟩, fun e he => ?_⟩
    rcases List.mem_cons.1 he with rfl | he
    · exact h.1
    · exact (fits_congr (apply_of_ne (hne' e he).symm)).1 (hfits e he)

end Delta

open Delta

/-- Items taken in one by one keep what one item keeps, and all deltas are of the kind that one gives. -/
theorem feed_leads {σ ι : Type} {step : σ → ι → Checked (σ × List Delta)} (delta : ι → Delta)
    {P : σ → Tuples → Tuples → Prop} {K : Delta → Prop} {items : List ι}
    (hstep : ∀ s T U i s' out, i ∈ items → P s T U → (delta i).Fits T → step s i = .ok (s', out) →
      ∃ U', Leads U out U' ∧ P s' ((delta i).apply T) U' ∧ ∀ d ∈ out, K d)
    {s s' : σ} {T T' U : Tuples} {out : List Delta} (hP : P s T U)
    (hT : Leads T (items.map delta) T') (h : feed step s items = .ok (s', out)) :
    ∃ U', Leads U out U' ∧ P s' T' U' ∧ ∀ d ∈ out, K d := by
  induction items generalizing s T U out with
  | nil =>
    cases h
    cases hT
    exact ⟨U, rfl, hP, by simp⟩
  | cons i is ih =>
    obtain ⟨t, first, rest, h1, h2, rfl⟩ := feed_cons_eq_ok_iff.1 h
    obtain ⟨V, hV, hPV, hfirst⟩ := hstep s T U i t first (by simp) hP hT.1 h1
    obtain ⟨W, hW, hPW, hrest⟩ :=
      ih (fun s T U i s' out hi => hstep s T U i s' out (by simp [hi])) hPV hT.2 h2
    exact ⟨W, hV.append hW, hPW, by simpa [or_imp, forall_and] using ⟨hfirst, hrest⟩⟩

/-- Feeding functions of items is feeding the items. -/
theorem feed_map {σ ι κ ο : Type} (step : σ → κ → Checked (σ × List ο)) (f : ι → κ) (s : σ)
    (items : List ι) : feed step s (items.map f) = feed (fun s i => step s (f i)) s items := by
  induction items generalizing s with
  | nil => rfl
  | cons i is ih => simp only [List.map_cons, feed, ih]

/-- What is given out before a fold stands before what it gives out. -/
theorem foldl_given_out {σ ι ο : Type} (step : σ → ι → σ × List ο) (items : List ι) (s : σ)
    (acc : List ο) :
    items.foldl (fun p i => ((step p.1 i).1, p.2 ++ (step p.1 i).2)) (s, acc) =
      ((items.foldl (fun p i => ((step p.1 i).1, p.2 ++ (step p.1 i).2)) (s, [])).1,
        acc ++ (items.foldl (fun p i => ((step p.1 i).1, p.2 ++ (step p.1 i).2)) (s, [])).2) := by
  induction items generalizing s acc with
  | nil => simp
  | cons i is ih =>
    rw [List.foldl_cons, List.foldl_cons, ih, ih _ ([] ++ _)]
    simp

/-- Folding a step with everything it gives out is feeding it. -/
theorem feed_eq_foldl {σ ι ο : Type} (step : σ → ι → σ × List ο) (s : σ) (items : List ι) :
    feed (fun s i => .ok (step s i)) s items =
      .ok (items.foldl (fun p i => ((step p.1 i).1, p.2 ++ (step p.1 i).2)) (s, [])) := by
  induction items generalizing s with
  | nil => rfl
  | cons i is ih =>
    rw [List.foldl_cons, foldl_given_out]
    exact feed_cons_eq_ok_iff.2 ⟨_, _, _, rfl, ih _, rfl⟩

end Planning
