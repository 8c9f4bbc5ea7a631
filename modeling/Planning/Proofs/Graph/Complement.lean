import Planning.Graph.Complement
import Planning.Proofs.Checked
import Planning.Proofs.Graph.Naming

/-!
# Complemented live tuples

Complementing names the tuples that it passes on and those that it makes. It is in step with the tuples of
the stream and of the source when it counts the carriers of each key, knows the elements with each key, and
has made a tuple for just those elements whose key is not carried.
-/

namespace Planning

open Checked Delta

/-- A key is carried by a live tuple. -/
def ComplementRule.Carried (rule : ComplementRule) (T : Tuples) (k : Value) : Prop :=
  ∃ i t, T i = some t ∧ rule.tupleKey t = k

/-- An element of the source with its key and what fills its tuple. -/
def ComplementRule.element (rule : ComplementRule) (x : Value) : Option SourceElement :=
  match rule.elementKey x, rule.fill x with
  | .ok k, .ok f => some ⟨k, f⟩
  | _, _ => none

/-- The tuple made for an element. -/
def ComplementRule.made (rule : ComplementRule) (x : SourceElement) : Value := rule.build x.key x.fill

open Classical in
/-- What is shown of a tuple of the stream, and of an element of the source. -/
noncomputable def ComplementRule.shown (rule : ComplementRule) (T E : Tuples) :
    TupleId ⊕ TupleId → Option Value
  | .inl i => T i
  | .inr e => ((E e).bind rule.element).bind fun x =>
      if rule.Carried T x.key then none else some (rule.made x)

namespace Complement

/-- So many live tuples carry a key. -/
def Carriers (rule : ComplementRule) (T : Tuples) (k : Value) (n : Nat) : Prop :=
  ∃ ids : List TupleId, ids.Nodup ∧ ids.length = n ∧
    ∀ i, i ∈ ids ↔ ∃ t, T i = some t ∧ rule.tupleKey t = k

namespace Carriers

variable {rule : ComplementRule} {T : Tuples} {k : Value} {n : Nat} {i : TupleId} {t : Value}

/-- A key is carried when it has a carrier. -/
theorem carried_iff (h : Carriers rule T k n) : rule.Carried T k ↔ n ≠ 0 := by
  obtain ⟨ids, -, rfl, hmem⟩ := h
  rw [← Nat.pos_iff_ne_zero, List.length_pos_iff_exists_mem]
  exact exists_congr fun i => (hmem i).symm

/-- A tuple that comes is one carrier more of its key. -/
theorem succ (h : Carriers rule T k n) (hi : T i = none) (ht : rule.tupleKey t = k) :
    Carriers rule (Function.update T i (some t)) k (n + 1) := by
  obtain ⟨ids, hnodup, rfl, hmem⟩ := h
  have hnot : i ∉ ids := by simp [hmem, hi]
  refine ⟨i :: ids, List.nodup_cons.2 ⟨hnot, hnodup⟩, rfl, fun j => ?_⟩
  rw [List.mem_cons, hmem]
  by_cases hj : j = i
  · simp [hj, ht]
  · simp [hj]

/-- A tuple that goes is one carrier less of its key. -/
theorem pred (h : Carriers rule T k n) (hi : T i = some t) (ht : rule.tupleKey t = k) :
    Carriers rule (Function.update T i none) k (n - 1) := by
  obtain ⟨ids, hnodup, rfl, hmem⟩ := h
  have hi' : i ∈ ids := (hmem i).2 ⟨t, hi, ht⟩
  refine ⟨ids.erase i, hnodup.erase i, List.length_erase_of_mem hi', fun j => ?_⟩
  rw [hnodup.mem_erase_iff, hmem]
  by_cases hj : j = i
  · simp [hj]
  · simp [hj]

/-- Whether a tuple carries a key depends on its key alone. -/
theorem congr (h : Carriers rule T k n) {o : Option Value}
    (ho : (∃ t, o = some t ∧ rule.tupleKey t = k) ↔ ∃ t, T i = some t ∧ rule.tupleKey t = k) :
    Carriers rule (Function.update T i o) k n := by
  obtain ⟨ids, hnodup, hlength, hmem⟩ := h
  refine ⟨ids, hnodup, hlength, fun j => ?_⟩
  rw [hmem]
  by_cases hj : j = i
  · subst hj
    rw [Function.update_self]
    exact ho.symm
  · rw [Function.update_of_ne hj]

end Carriers

/-- The names of what is shown. -/
def name (s : Complement) : TupleId ⊕ TupleId → Option TupleId
  | .inl i => (s.passed.get? i).map Prod.snd
  | .inr e => s.made.get? e

/-- The carriers are counted and the elements are known by their keys. -/
structure Books (rule : ComplementRule) (s : Complement) (T E : Tuples) : Prop where
  /-- The keys of the tuples of the stream are kept. -/
  passed : ∀ i, (s.passed.get? i).map Prod.fst = (T i).map rule.tupleKey
  /-- The carriers of each key are counted. -/
  carried : ∀ k, ∃ n, Carriers rule T k n ∧ s.carried.get? k = if n = 0 then none else some n
  /-- The elements are kept. -/
  elements : ∀ e, s.elements.get? e = (E e).bind rule.element
  /-- Each element has a key and what fills its tuple. -/
  element : ∀ e x, E e = some x → rule.element x ≠ none
  /-- No element stands twice under a key. -/
  nodup : ∀ k, (s.elementsWith k).Nodup
  /-- The elements with a key are known. -/
  mem_iff : ∀ k e, e ∈ s.elementsWith k ↔ ∃ x, s.elements.get? e = some x ∧ x.key = k

/-- Two states differ in the made tuples alone. -/
structure SameBooks (s s' : Complement) : Prop where
  /-- The tuples passed on are the same. -/
  passed : s'.passed = s.passed
  /-- The counts are the same. -/
  carried : s'.carried = s.carried
  /-- The elements are the same. -/
  elements : s'.elements = s.elements
  /-- The elements with each key are the same. -/
  byKey : s'.byKey = s.byKey

theorem SameBooks.refl (s : Complement) : SameBooks s s := ⟨rfl, rfl, rfl, rfl⟩

theorem SameBooks.trans {s t u : Complement} (h : SameBooks s t) (h' : SameBooks t u) : SameBooks s u :=
  ⟨h'.passed.trans h.passed, h'.carried.trans h.carried, h'.elements.trans h.elements,
    h'.byKey.trans h.byKey⟩

theorem Books.congr {rule : ComplementRule} {s s' : Complement} {T E : Tuples} (h : s.Books rule T E)
    (hs : SameBooks s s') : s'.Books rule T E where
  passed := by rw [hs.passed]; exact h.passed
  carried := by rw [hs.carried]; exact h.carried
  elements := by rw [hs.elements]; exact h.elements
  element := h.element
  nodup := by unfold elementsWith; rw [hs.byKey]; exact h.nodup
  mem_iff := by unfold elementsWith; rw [hs.byKey, hs.elements]; exact h.mem_iff

variable {rule : ComplementRule} {s s' : Complement} {T E U : Tuples} {out : List Delta}
  {P : TupleId ⊕ TupleId → Option Value}

/-- A step for each element is a feed. -/
theorem feed_of_forElements {step : Complement → TupleId → Complement × List Delta}
    {es : List TupleId} (h : forElements step s es = (s', out)) :
    feed (fun s e => .ok (step s e)) s es = .ok (s', out) := by
  rw [feed_eq_foldl, ← h]
  rfl

/-- The tuple made for an element goes. -/
theorem leads_unmake (h : Named s.name s.next P U) (e : TupleId) :
    ∃ U', Leads U (s.unmake e).2 U' ∧
      Named (s.unmake e).1.name (s.unmake e).1.next (Function.update P (.inr e) none) U' ∧
      SameBooks s (s.unmake e).1 ∧ ∀ d ∈ (s.unmake e).2, d.IsRetract := by
  cases hget : s.made.get? e with
  | none =>
    simp only [unmake, hget]
    refine ⟨U, rfl, h.congr (fun _ => rfl) fun q => ?_, SameBooks.refl s, by simp⟩
    by_cases hq : q = .inr e
    · rw [hq, Function.update_self, h.eq_none_of_name (q := .inr e) hget]
    · rw [Function.update_of_ne hq]
  | some id =>
    simp only [unmake, hget]
    refine ⟨_, Leads.single (h.fits_retract (q := .inr e) hget),
      (h.drop (q := .inr e) hget).congr (fun q => ?_) fun _ => rfl, ⟨rfl, rfl, rfl, rfl⟩,
      by simp [IsRetract]⟩
    cases q with
    | inl i => simp [name]
    | inr e' =>
      by_cases he : e' = e
      · simp [name, he]
      · simp [name, he, Function.update_of_ne]

/-- A tuple is made for an element that has none. -/
theorem leads_make (h : Named s.name s.next P U) {e : TupleId} {x : SourceElement}
    (he : s.elements.get? e = some x) (hP : P (.inr e) = none) :
    ∃ U', Leads U (s.make rule e).2 U' ∧
      Named (s.make rule e).1.name (s.make rule e).1.next
        (Function.update P (.inr e) (some (rule.made x))) U' ∧
      SameBooks s (s.make rule e).1 ∧ ∀ d ∈ (s.make rule e).2, d.IsInsert := by
  simp only [make, he]
  refine ⟨_, Leads.single (d := insert s.next (rule.made x)) (h.absent h.name_ne_next),
    (h.add hP (rule.made x)).congr (fun q => ?_) fun _ => rfl, ⟨rfl, rfl, rfl, rfl⟩,
    by simp [IsInsert]⟩
  cases q with
  | inl i => simp [name]
  | inr e' =>
    by_cases he' : e' = e
    · simp [name, he']
    · simp [name, he', Function.update_of_ne]

/-- The tuples made for elements go one by one. -/
theorem leads_unmake_all {es : List TupleId} (h : Named s.name s.next P U)
    (hf : forElements unmake s es = (s', out)) :
    ∃ U', Leads U out U' ∧
      Named s'.name s'.next (fun q => if ∃ e ∈ es, q = .inr e then none else P q) U' ∧
      SameBooks s s' ∧ ∀ d ∈ out, d.IsRetract := by
  have hfeed := feed_of_forElements hf
  clear hf
  induction es generalizing s P U out with
  | nil =>
    cases hfeed
    exact ⟨U, rfl, h.congr (fun _ => rfl) fun _ => by simp, SameBooks.refl _, by simp⟩
  | cons e es ih =>
    obtain ⟨t, first, rest, h1, h2, rfl⟩ := feed_cons_eq_ok_iff.1 hfeed
    obtain ⟨V, hV, hmid, hsame, hfirst⟩ := leads_unmake h e
    rw [Except.ok.inj h1] at hV hmid hsame hfirst
    obtain ⟨U', hU', h', hsame', hrest⟩ := ih hmid h2
    refine ⟨U', hV.append hU', h'.congr (fun _ => rfl) fun q => ?_, hsame.trans hsame', ?_⟩
    · by_cases hq : q = .inr e
      · simp [hq]
      · simp [hq]
    · simpa [or_imp, forall_and] using ⟨hfirst, hrest⟩

/-- Tuples are made one by one for elements that have none. -/
theorem leads_make_all {es : List TupleId} (h : Named s.name s.next P U) (hes : es.Nodup)
    {el : TupleId → SourceElement} (hel : ∀ e ∈ es, s.elements.get? e = some (el e))
    (hP : ∀ e ∈ es, P (.inr e) = none) (hf : forElements (make rule) s es = (s', out)) :
    ∃ U', Leads U out U' ∧
      (∃ P', Named s'.name s'.next P' U' ∧ (∀ e ∈ es, P' (.inr e) = some (rule.made (el e))) ∧
        ∀ q, (∀ e ∈ es, q ≠ .inr e) → P' q = P q) ∧ SameBooks s s' := by
  have hfeed := feed_of_forElements hf
  clear hf
  induction es generalizing s P U out with
  | nil =>
    cases hfeed
    exact ⟨U, rfl, ⟨P, h, by simp, fun _ _ => rfl⟩, SameBooks.refl _⟩
  | cons e es ih =>
    obtain ⟨t, first, rest, h1, h2, rfl⟩ := feed_cons_eq_ok_iff.1 hfeed
    obtain ⟨he, hes⟩ := List.nodup_cons.1 hes
    obtain ⟨V, hV, hmid, hsame, -⟩ :=
      leads_make h (hel e (by simp)) (hP e (by simp))
    rw [Except.ok.inj h1] at hV hmid hsame
    have hne : ∀ e' ∈ es, (Sum.inr e' : TupleId ⊕ TupleId) ≠ .inr e := by
      rintro e' he' heq
      exact he (Sum.inr.inj heq ▸ he')
    have hel' : ∀ e' ∈ es, t.elements.get? e' = some (el e') := by
      intro e' he'
      rw [hsame.elements]
      exact hel e' (by simp [he'])
    have hP' : ∀ e' ∈ es, Function.update P (.inr e) (some (rule.made (el e))) (.inr e') = none := by
      intro e' he'
      rw [Function.update_of_ne (hne e' he')]
      exact hP e' (by simp [he'])
    obtain ⟨U', hU', ⟨P', h', hmade, hother⟩, hsame'⟩ := ih hmid hes hel' hP' h2
    refine ⟨U', hV.append hU', ⟨P', h', fun e' he' => ?_, fun q hq => ?_⟩, hsame.trans hsame'⟩
    · rcases List.mem_cons.1 he' with rfl | he'
      · rw [hother _ fun e'' he'' heq => hne e'' he'' heq.symm, Function.update_self]
      · exact hmade e' he'
    · rw [hother q fun e' he' => hq e' (by simp [he']), Function.update_of_ne (hq e (by simp))]

/-- What is shown of an element whose key is carried, and of one whose key is not. -/
theorem shown_inr {e : TupleId} {x : SourceElement} (he : (E e).bind rule.element = some x) :
    (rule.Carried T x.key → rule.shown T E (.inr e) = none) ∧
      (¬ rule.Carried T x.key → rule.shown T E (.inr e) = some (rule.made x)) := by
  simp only [ComplementRule.shown, he, Option.bind_some]
  exact ⟨fun h => if_pos h, fun h => if_neg h⟩

/-- What is shown of an element depends on whether its key is carried. -/
theorem shown_congr {T' : Tuples} {e : TupleId}
    (h : ∀ x, (E e).bind rule.element = some x → (rule.Carried T' x.key ↔ rule.Carried T x.key)) :
    rule.shown T' E (.inr e) = rule.shown T E (.inr e) := by
  cases he : (E e).bind rule.element with
  | none => simp [ComplementRule.shown, he]
  | some x =>
    by_cases hc : rule.Carried T x.key
    · rw [(shown_inr he).1 hc, (shown_inr he).1 ((h x he).2 hc)]
    · rw [(shown_inr he).2 hc, (shown_inr he).2 fun hc' => hc ((h x he).1 hc')]

/-- What is shown of the tuples of the stream is what they are. -/
theorem shown_update_inl (i j : TupleId) (o : Option Value) :
    rule.shown (Function.update T i o) E (.inl j) = Function.update (rule.shown T E) (.inl i) o (.inl j) := by
  by_cases hj : j = i
  · simp [ComplementRule.shown, hj]
  · simp [ComplementRule.shown, hj, Function.update_of_ne]

/-- A tuple of the stream is all that is shown otherwise when the keys of the elements are carried as before. -/
theorem shown_update {i : TupleId} {o : Option Value}
    (h : ∀ k, rule.Carried (Function.update T i o) k ↔ rule.Carried T k) (q : TupleId ⊕ TupleId) :
    rule.shown (Function.update T i o) E q = Function.update (rule.shown T E) (.inl i) o q := by
  cases q with
  | inl j => exact shown_update_inl i j o
  | inr e =>
    rw [Function.update_of_ne (by simp)]
    exact shown_congr fun x _ => h x.key

/-- A key is carried when a tuple that comes carries it or it was carried before. -/
theorem carried_insert {i : TupleId} {t k : Value} (hi : T i = none) :
    rule.Carried (Function.update T i (some t)) k ↔ rule.Carried T k ∨ rule.tupleKey t = k := by
  constructor
  · rintro ⟨j, t', hj, hk⟩
    by_cases hji : j = i
    · rw [hji, Function.update_self] at hj
      cases hj
      exact .inr hk
    · rw [Function.update_of_ne hji] at hj
      exact .inl ⟨j, t', hj, hk⟩
  · rintro (⟨j, t', hj, hk⟩ | hk)
    · have hji : j ≠ i := by
        rintro rfl
        rw [hi] at hj
        cases hj
      exact ⟨j, t', by rw [Function.update_of_ne hji]; exact hj, hk⟩
    · exact ⟨i, t, Function.update_self _ _ _, hk⟩

/-- The tuples of both streams are shown under their names. -/
structure InStep (rule : ComplementRule) (s : Complement) (T E U : Tuples) : Prop where
  /-- The books are kept. -/
  books : s.Books rule T E
  /-- What is shown is live. -/
  named : Named s.name s.next (rule.shown T E) U

/-- Before any tuple came nothing is shown. -/
theorem InStep.empty (rule : ComplementRule) :
    InStep rule {} Tuples.none Tuples.none Tuples.none where
  books :=
    { passed := fun _ => rfl
      carried := fun k => ⟨0, ⟨[], by simp [Tuples.none]⟩, rfl⟩
      elements := fun _ => rfl
      element := nofun
      nodup := fun _ => List.nodup_nil
      mem_iff := fun _ _ => by simp [elementsWith] }
  named := Named.empty.congr (fun q => by cases q <;> rfl) fun q => by
    cases q <;> rfl

/-- The count of the carriers of a key. -/
theorem Books.count (h : s.Books rule T E) (k : Value) :
    ∃ n, Carriers rule T k n ∧ (s.carried.get? k).getD 0 = n := by
  obtain ⟨n, hn, hget⟩ := h.carried k
  refine ⟨n, hn, ?_⟩
  rw [hget]
  split
  · rename_i hzero
    exact hzero.symm
  · rfl

/-- The tuples made for the elements with a key go when the key comes to be carried. -/
theorem InStep.cover {k : Value} (hbooks : s.Books rule T E) (hnamed : Named s.name s.next P U)
    (hcar : rule.Carried T k)
    (hP : ∀ q, (∀ e ∈ s.elementsWith k, q ≠ .inr e) → rule.shown T E q = P q)
    (hok : forElements unmake s (s.elementsWith k) = (s', out)) :
    ∃ U', Leads U out U' ∧ s'.InStep rule T E U' ∧ ∀ d ∈ out, d.IsRetract := by
  obtain ⟨U', hU', h', hsame, hout⟩ := leads_unmake_all hnamed hok
  refine ⟨U', hU', ⟨hbooks.congr hsame, h'.congr (fun _ => rfl) fun q => ?_⟩, hout⟩
  by_cases hq : ∃ e ∈ s.elementsWith k, q = .inr e
  · rw [if_pos hq]
    obtain ⟨e, he, rfl⟩ := hq
    obtain ⟨x, hx, hkey⟩ := (hbooks.mem_iff k e).1 he
    rw [hbooks.elements] at hx
    exact (shown_inr hx).1 (hkey ▸ hcar)
  · rw [if_neg hq]
    exact hP q fun e he heq => hq ⟨e, he, heq⟩

/-- The books are kept when a tuple of the stream comes. -/
theorem Books.insertTuple (h : s.Books rule T E) {i id : TupleId} {t : Value} {n : Nat} (hi : T i = none)
    (hn : Carriers rule T (rule.tupleKey t) n) :
    Books rule { s with
      passed := s.passed.set i (rule.tupleKey t, id)
      carried := s.carried.set (rule.tupleKey t) (n + 1)
      next := id + 1 } (Function.update T i (some t)) E := by
  refine ⟨fun j => ?_, fun k => ?_, h.elements, h.element, h.nodup, h.mem_iff⟩
  · by_cases hj : j = i
    · simp [hj]
    · simp [hj, h.passed]
  · by_cases hk : k = rule.tupleKey t
    · exact ⟨n + 1, hk ▸ hn.succ hi rfl, by simp [hk]⟩
    · obtain ⟨m, hm, hget⟩ := h.carried k
      exact ⟨m, hm.congr (by simp [hi, Ne.symm hk]), by simp [hk, hget]⟩

/-- A tuple of the stream that comes is passed on, and the tuples made for its key go. -/
theorem InStep.insertTuple (h : s.InStep rule T E U) {i : TupleId} {t : Value} (hi : T i = none)
    (hok : s.insertTuple rule i t = (s', out)) :
    ∃ U', Leads U out U' ∧ s'.InStep rule (Function.update T i (some t)) E U' ∧
      ((∀ e, E e = none) → ∀ d ∈ out, d.IsInsert) := by
  obtain ⟨n, hn, hcount⟩ := h.books.count (rule.tupleKey t)
  let s₁ : Complement := { s with
    passed := s.passed.set i (rule.tupleKey t, s.next)
    carried := s.carried.set (rule.tupleKey t) (n + 1)
    next := s.next + 1 }
  have hnamed : Named s₁.name s₁.next (Function.update (rule.shown T E) (.inl i) (some t))
      (apply U (insert s.next t)) := by
    refine (h.named.add (q := .inl i) hi t).congr (fun q => ?_) fun _ => rfl
    cases q with
    | inl j =>
      by_cases hj : j = i
      · simp [s₁, name, hj]
      · simp [s₁, name, hj, Function.update_of_ne]
    | inr e => simp [s₁, name]
  have hbooks : s₁.Books rule (Function.update T i (some t)) E := h.books.insertTuple hi hn
  have hlead : (insert s.next t).Fits U := h.named.absent h.named.name_ne_next
  rw [Complement.insertTuple, hcount] at hok
  by_cases hzero : n = 0
  · -- The key was not carried before, so there may be made tuples to go.
    rw [if_pos (by simp [hzero])] at hok
    cases hun : forElements unmake s₁ (s₁.elementsWith (rule.tupleKey t)) with
    | mk u gone =>
      have hpair : u = s' ∧ [insert s.next t] ++ gone = out := by
        have := hun ▸ hok
        exact Prod.mk.inj this
      obtain ⟨rfl, rfl⟩ := hpair
      have hother : ∀ q, (∀ e ∈ s₁.elementsWith (rule.tupleKey t), q ≠ .inr e) →
          rule.shown (Function.update T i (some t)) E q =
            Function.update (rule.shown T E) (.inl i) (some t) q := by
        intro q hq
        cases q with
        | inl j => exact shown_update_inl i j _
        | inr e =>
          rw [Function.update_of_ne (by simp)]
          refine shown_congr fun x hx => ?_
          rw [carried_insert hi, or_iff_left]
          rintro hkey
          exact hq e ((hbooks.mem_iff _ e).2 ⟨x, by rw [hbooks.elements]; exact hx, hkey.symm⟩) rfl
      obtain ⟨U', hU', h', -⟩ := InStep.cover hbooks hnamed ((carried_insert hi).2 (.inr rfl)) hother hun
      refine ⟨U', ⟨hlead, hU'⟩, h', fun hE => ?_⟩
      have hnone : s₁.elementsWith (rule.tupleKey t) = [] := by
        refine List.eq_nil_iff_forall_not_mem.2 fun e he => ?_
        obtain ⟨x, hx, -⟩ := (hbooks.mem_iff _ e).1 he
        rw [hbooks.elements, hE] at hx
        cases hx
      rw [hnone] at hun
      cases hun
      simp [IsInsert]
  · rw [if_neg (by omega)] at hok
    cases hok
    refine ⟨_, Leads.single hlead, ⟨hbooks, hnamed.congr (fun _ => rfl) (shown_update fun k => ?_)⟩,
      by simp [IsInsert]⟩
    rw [carried_insert hi, or_iff_left_of_imp]
    rintro rfl
    exact hn.carried_iff.2 hzero

/-- A key is carried without a tuple when another tuple carries it. -/
theorem carried_remove {i : TupleId} {t k : Value} (hi : T i = some t) (hk : rule.tupleKey t ≠ k) :
    rule.Carried (Function.update T i none) k ↔ rule.Carried T k := by
  constructor
  · rintro ⟨j, t', hj, hkey⟩
    by_cases hji : j = i
    · simp [hji] at hj
    · rw [Function.update_of_ne hji] at hj
      exact ⟨j, t', hj, hkey⟩
  · rintro ⟨j, t', hj, hkey⟩
    have hji : j ≠ i := by
      rintro rfl
      rw [hi] at hj
      cases hj
      exact hk hkey
    exact ⟨j, t', by rw [Function.update_of_ne hji]; exact hj, hkey⟩

/-- A live tuple of the stream is passed on under a name. -/
theorem InStep.passed (h : s.InStep rule T E U) {i : TupleId} {t : Value} (hi : T i = some t) :
    ∃ id, s.passed.get? i = some (rule.tupleKey t, id) ∧ s.name (.inl i) = some id := by
  have hkey := h.books.passed i
  rw [hi] at hkey
  obtain ⟨⟨k, id⟩, hget, rfl⟩ := Option.map_eq_some_iff.1 hkey
  exact ⟨id, hget, by simp [name, hget]⟩

/-- Tuples are made for the elements with a key that is no longer carried. -/
theorem InStep.uncover {k : Value} (hbooks : s.Books rule T E) (hnamed : Named s.name s.next P U)
    (hnot : ¬ rule.Carried T k) (hnone : ∀ e ∈ s.elementsWith k, P (.inr e) = none)
    (hP : ∀ q, (∀ e ∈ s.elementsWith k, q ≠ .inr e) → rule.shown T E q = P q)
    (hok : forElements (make rule) s (s.elementsWith k) = (s', out)) :
    ∃ U', Leads U out U' ∧ s'.InStep rule T E U' := by
  let el : TupleId → SourceElement := fun e => (s.elements.get? e).getD ⟨.null, .null⟩
  have hel : ∀ e ∈ s.elementsWith k, s.elements.get? e = some (el e) ∧ (el e).key = k := by
    intro e he
    obtain ⟨x, hx, hkey⟩ := (hbooks.mem_iff k e).1 he
    simp [el, hx, hkey]
  obtain ⟨U', hU', ⟨P', h', hmade, hother⟩, hsame⟩ :=
    leads_make_all hnamed (hbooks.nodup k) (fun e he => (hel e he).1) hnone hok
  refine ⟨U', hU', hbooks.congr hsame, h'.congr (fun _ => rfl) fun q => ?_⟩
  by_cases hq : ∃ e ∈ s.elementsWith k, q = .inr e
  · obtain ⟨e, he, rfl⟩ := hq
    obtain ⟨hx, hkey⟩ := hel e he
    rw [hbooks.elements] at hx
    rw [hmade e he, (shown_inr hx).2 (hkey ▸ hnot)]
  · have hne : ∀ e ∈ s.elementsWith k, q ≠ .inr e := fun e he heq => hq ⟨e, he, heq⟩
    rw [hother q hne, hP q hne]

/-- The books are kept when a tuple of the stream goes. -/
theorem Books.removeTuple (h : s.Books rule T E) {i : TupleId} {t : Value} {n : Nat} (hi : T i = some t)
    (hn : Carriers rule (Function.update T i none) (rule.tupleKey t) n) {carried : Table Value Nat}
    (hcarried : ∀ k, carried.get? k =
      if k = rule.tupleKey t then if n = 0 then none else some n else s.carried.get? k) :
    Books rule { s with passed := s.passed.erase i, carried := carried } (Function.update T i none) E := by
  refine ⟨fun j => ?_, fun k => ?_, h.elements, h.element, h.nodup, h.mem_iff⟩
  · by_cases hj : j = i
    · simp [hj]
    · simp [hj, h.passed]
  · by_cases hk : k = rule.tupleKey t
    · exact ⟨n, hk ▸ hn, by rw [hcarried, if_pos hk]⟩
    · obtain ⟨m, hm, hget⟩ := h.carried k
      exact ⟨m, hm.congr (by simp [hi, Ne.symm hk]), by rw [hcarried, if_neg hk, hget]⟩

/-- A tuple of the stream that goes loses its name. -/
theorem named_removeTuple (h : Named s.name s.next P U) {i id : TupleId} (hname : s.name (.inl i) = some id)
    (carried : Table Value Nat) :
    Named (name { s with passed := s.passed.erase i, carried := carried }) s.next
      (Function.update P (.inl i) none) (apply U (retract id)) := by
  refine (h.drop hname).congr (fun q => ?_) fun _ => rfl
  cases q with
  | inl j =>
    by_cases hj : j = i
    · simp [name, hj]
    · simp [name, hj, Function.update_of_ne]
  | inr e => simp [name]

/-- A tuple of the stream that goes is no longer passed on, and tuples are made for its key when no other
tuple carries it. -/
theorem InStep.removeTuple (h : s.InStep rule T E U) {i : TupleId} {t : Value} (hi : T i = some t)
    (hok : s.removeTuple rule i = (s', out)) :
    ∃ U', Leads U out U' ∧ s'.InStep rule (Function.update T i none) E U' := by
  obtain ⟨id, hget, hname⟩ := h.passed hi
  obtain ⟨n, hn, hcount⟩ := h.books.count (rule.tupleKey t)
  have hpred : Carriers rule (Function.update T i none) (rule.tupleKey t) (n - 1) := hn.pred hi rfl
  have hcar : rule.Carried T (rule.tupleKey t) := ⟨i, t, hi, rfl⟩
  rw [Complement.removeTuple, hget] at hok
  dsimp only at hok
  rw [hcount] at hok
  by_cases hzero : n - 1 = 0
  · -- The last tuple with the key goes, so tuples are made for it.
    rw [if_pos hzero] at hok
    let s₁ : Complement := { s with
      passed := s.passed.erase i, carried := s.carried.erase (rule.tupleKey t) }
    have hbooks : s₁.Books rule (Function.update T i none) E :=
      h.books.removeTuple hi hpred fun k => by simp [hzero]
    cases hmk : forElements (make rule) s₁ (s₁.elementsWith (rule.tupleKey t)) with
    | mk u come =>
      have hpair : u = s' ∧ retract id :: come = out := by
        have := hmk ▸ hok
        exact Prod.mk.inj this
      obtain ⟨rfl, rfl⟩ := hpair
      have hnot : ¬ rule.Carried (Function.update T i none) (rule.tupleKey t) := by
        rw [hpred.carried_iff, hzero]
        simp
      have hnone : ∀ e ∈ s₁.elementsWith (rule.tupleKey t),
          Function.update (rule.shown T E) (.inl i) none (.inr e) = none := by
        intro e he
        obtain ⟨x, hx, hkey⟩ := (hbooks.mem_iff _ e).1 he
        rw [hbooks.elements] at hx
        rw [Function.update_of_ne (by simp), (shown_inr hx).1 (hkey ▸ hcar)]
      have hother : ∀ q, (∀ e ∈ s₁.elementsWith (rule.tupleKey t), q ≠ .inr e) →
          rule.shown (Function.update T i none) E q = Function.update (rule.shown T E) (.inl i) none q := by
        intro q hq
        cases q with
        | inl j => exact shown_update_inl i j _
        | inr e =>
          rw [Function.update_of_ne (by simp)]
          refine shown_congr fun x hx => carried_remove hi fun hkey => ?_
          exact hq e ((hbooks.mem_iff _ e).2 ⟨x, by rw [hbooks.elements]; exact hx, hkey.symm⟩) rfl
      obtain ⟨U', hU', h'⟩ := InStep.uncover hbooks (named_removeTuple h.named hname _) hnot hnone hother hmk
      exact ⟨U', ⟨h.named.fits_retract hname, hU'⟩, h'⟩
  · rw [if_neg hzero] at hok
    cases hok
    refine ⟨_, Leads.single (h.named.fits_retract hname),
      h.books.removeTuple hi hpred fun k => by simp [hzero],
      (named_removeTuple h.named hname _).congr (fun _ => rfl) (shown_update fun k => ?_)⟩
    by_cases hkey : rule.tupleKey t = k
    · rw [← hkey]
      exact iff_of_true (hpred.carried_iff.2 hzero) hcar
    · exact carried_remove hi hkey

/-- A tuple of the stream that changes is passed on, under a new name if its key changes. -/
theorem InStep.updateTuple (h : s.InStep rule T E U) {i : TupleId} {t : Value} (hi : T i ≠ none)
    (hok : s.updateTuple rule i t = (s', out)) :
    ∃ U', Leads U out U' ∧ s'.InStep rule (Function.update T i (some t)) E U' := by
  obtain ⟨t₀, hi⟩ := Option.ne_none_iff_exists'.1 hi
  obtain ⟨id, hget, hname⟩ := h.passed hi
  rw [Complement.updateTuple, hget] at hok
  dsimp only at hok
  by_cases hkey : rule.tupleKey t₀ = rule.tupleKey t
  · rw [if_pos hkey] at hok
    cases hok
    have hsame : ∀ k, (∃ t', some t = some t' ∧ rule.tupleKey t' = k) ↔
        ∃ t', T i = some t' ∧ rule.tupleKey t' = k := by
      simp [hi, hkey]
    refine ⟨_, Leads.single (d := update id t) (h.named.fits_retract hname),
      ⟨fun j => ?_, fun k => ?_, h.books.elements, h.books.element, h.books.nodup, h.books.mem_iff⟩,
      (h.named.change hname t).congr (fun _ => rfl) (shown_update fun k => ?_)⟩
    · by_cases hj : j = i
      · simp [hj, hget, hkey]
      · simp [hj, h.books.passed]
    · obtain ⟨n, hn, hget⟩ := h.books.carried k
      exact ⟨n, hn.congr (hsame k), hget⟩
    · obtain ⟨n, hn, -⟩ := h.books.carried k
      rw [(hn.congr (hsame k)).carried_iff, hn.carried_iff]
  · rw [if_neg hkey] at hok
    cases hrem : s.removeTuple rule i with
    | mk u gone =>
      obtain ⟨V, hV, hmid⟩ := h.removeTuple hi hrem
      cases hins : u.insertTuple rule i t with
      | mk w come =>
        obtain ⟨U', hU', h', -⟩ := hmid.insertTuple (Function.update_self _ _ _) hins
        rw [Function.update_idem] at h'
        rw [hrem] at hok
        dsimp only at hok
        rw [hins] at hok
        cases hok
        exact ⟨U', hV.append hU', h'⟩

/-- One delta of the stream brings what is shown up to it. -/
theorem InStep.stepTuple (h : s.InStep rule T E U) {d : Delta} (hd : d.Fits T)
    (hok : s.stepTuple rule d = (s', out)) :
    ∃ U', Leads U out U' ∧ s'.InStep rule (d.apply T) E U' := by
  cases d with
  | insert i t =>
    obtain ⟨U', hU', h', -⟩ := h.insertTuple hd hok
    exact ⟨U', hU', h'⟩
  | update i t => exact h.updateTuple hd hok
  | retract i =>
    obtain ⟨t, hi⟩ := Option.ne_none_iff_exists'.1 (show T i ≠ none from hd)
    exact h.removeTuple hi hok

/-- The books are kept when an element of the source goes. -/
theorem Books.removeElement (h : s.Books rule T E) {e : TupleId} {x : SourceElement}
    (hx : s.elements.get? e = some x) :
    let rest := (s.elementsWith x.key).filter (· ≠ e)
    Books rule { s with
      elements := s.elements.erase e
      byKey := if rest.isEmpty then s.byKey.erase x.key else s.byKey.set x.key rest }
      T (Function.update E e none) := by
  intro rest
  let s₁ : Complement := { s with
    elements := s.elements.erase e
    byKey := if rest.isEmpty then s.byKey.erase x.key else s.byKey.set x.key rest }
  have hrest : ∀ k, s₁.elementsWith k = (s.elementsWith k).filter (· ≠ e) := by
    intro k
    by_cases hk : k = x.key
    · subst hk
      by_cases hempty : rest.isEmpty = true
      · rw [show (s.elementsWith x.key).filter (· ≠ e) = [] from List.isEmpty_iff.1 hempty]
        simp [s₁, elementsWith, hempty]
      · have hbyKey : s₁.byKey = s.byKey.set x.key rest := if_neg hempty
        rw [elementsWith, hbyKey, Table.get?_set, if_pos rfl, Option.getD_some]
    · have hsame : s₁.elementsWith k = s.elementsWith k := by
        by_cases hempty : rest.isEmpty = true
        · simp [s₁, elementsWith, hempty, hk]
        · simp [s₁, elementsWith, hempty, hk]
      rw [hsame, eq_comm, List.filter_eq_self]
      intro e' he'
      refine decide_eq_true fun heq => hk ?_
      obtain ⟨x', hx', hkey⟩ := (h.mem_iff k e').1 he'
      rw [heq, hx] at hx'
      cases hx'
      exact hkey.symm
  refine ⟨h.passed, h.carried, fun e' => ?_, fun e' v' hv' => ?_, fun k => ?_, fun k e' => ?_⟩
  · by_cases he' : e' = e
    · simp [he']
    · simp [he', h.elements]
  · by_cases he' : e' = e
    · simp [he'] at hv'
    · rw [Function.update_of_ne he'] at hv'
      exact h.element e' v' hv'
  · change (s₁.elementsWith k).Nodup
    rw [hrest]
    exact (h.nodup k).filter _
  · change e' ∈ s₁.elementsWith k ↔ _
    rw [hrest, List.mem_filter, h.mem_iff]
    by_cases he' : e' = e
    · simp [he']
    · simp [he']

/-- An element of the source that goes takes the tuple made for it with it. -/
theorem InStep.removeElement (h : s.InStep rule T E U) {e : TupleId} (he : E e ≠ none)
    (hok : s.removeElement e = (s', out)) :
    ∃ U', Leads U out U' ∧ s'.InStep rule T (Function.update E e none) U' := by
  obtain ⟨v, hv⟩ := Option.ne_none_iff_exists'.1 he
  obtain ⟨x, hx⟩ := Option.ne_none_iff_exists'.1 (h.books.element e v hv)
  have hget : s.elements.get? e = some x := by rw [h.books.elements, hv]; exact hx
  let rest := (s.elementsWith x.key).filter (· ≠ e)
  let s₁ : Complement := { s with
    elements := s.elements.erase e
    byKey := if rest.isEmpty then s.byKey.erase x.key else s.byKey.set x.key rest }
  obtain ⟨U', hU', h', hsame, -⟩ := leads_unmake (s := s₁) (h.named.congr (fun q => by
    cases q <;> rfl) fun _ => rfl) e
  have hres : s₁.unmake e = (s', out) := by
    rw [← hok, Complement.removeElement, hget]
  rw [hres] at hU' h' hsame
  refine ⟨U', hU', (h.books.removeElement hget).congr hsame, h'.congr (fun _ => rfl) fun q => ?_⟩
  cases q with
  | inl i => simp [ComplementRule.shown]
  | inr e' =>
    by_cases he' : e' = e
    · simp [ComplementRule.shown, he']
    · simp [ComplementRule.shown, he', Function.update_of_ne]

/-- The books are kept when an element of the source comes. -/
theorem Books.insertElement (h : s.Books rule T E) {e : TupleId} {v k f : Value} (he : E e = none)
    (helement : rule.element v = some ⟨k, f⟩) :
    Books rule { s with
      byKey := s.byKey.set k (s.elementsWith k ++ [e])
      elements := s.elements.set e ⟨k, f⟩ } T (Function.update E e (some v)) := by
  let s₁ : Complement := { s with
    byKey := s.byKey.set k (s.elementsWith k ++ [e])
    elements := s.elements.set e ⟨k, f⟩ }
  have hnone : s.elements.get? e = none := by rw [h.elements, he]; rfl
  have hmore : ∀ k', s₁.elementsWith k' = s.elementsWith k' ++ if k' = k then [e] else [] := by
    intro k'
    by_cases hk' : k' = k
    · simp [s₁, elementsWith, hk']
    · simp [s₁, elementsWith, hk']
  have hnot : ∀ k', e ∉ s.elementsWith k' := by
    intro k' hmem
    obtain ⟨x, hx, -⟩ := (h.mem_iff k' e).1 hmem
    rw [hnone] at hx
    cases hx
  refine ⟨h.passed, h.carried, fun e' => ?_, fun e' v' hv' => ?_, fun k' => ?_, fun k' e' => ?_⟩
  · by_cases he' : e' = e
    · simp [he', helement]
    · simp [he', h.elements]
  · by_cases he' : e' = e
    · rw [he', Function.update_self] at hv'
      cases hv'
      simp [helement]
    · rw [Function.update_of_ne he'] at hv'
      exact h.element e' v' hv'
  · change (s₁.elementsWith k').Nodup
    rw [hmore]
    split
    · refine List.nodup_append.2 ⟨h.nodup k', by simp, fun a ha b hb => ?_⟩
      rw [List.mem_singleton.1 hb]
      rintro rfl
      exact hnot k' ha
    · rw [List.append_nil]
      exact h.nodup k'
  · change e' ∈ s₁.elementsWith k' ↔ _
    rw [hmore, List.mem_append, h.mem_iff]
    by_cases he' : e' = e
    · subst he'
      by_cases hk' : k' = k
      · simp [hk', hnone]
      · simp [hk', hnone, Ne.symm hk']
    · by_cases hk' : k' = k
      · simp [hk', he']
      · simp [hk', he']

/-- An element of the source that comes has a tuple made for it unless its key is carried. -/
theorem InStep.insertElement (h : s.InStep rule T E U) {e : TupleId} {v : Value} (he : E e = none)
    (hok : s.insertElement rule e v = .ok (s', out)) :
    ∃ U', Leads U out U' ∧ s'.InStep rule T (Function.update E e (some v)) U' ∧
      ∀ d ∈ out, d.IsInsert := by
  simp only [Complement.insertElement, bind_eq_ok_iff, pure_eq_ok_iff] at hok
  obtain ⟨k, hk, f, hf, hok⟩ := hok
  have helement : rule.element v = some ⟨k, f⟩ := by rw [ComplementRule.element, hk, hf]
  let s₁ : Complement := { s with
    byKey := s.byKey.set k (s.elementsWith k ++ [e])
    elements := s.elements.set e ⟨k, f⟩ }
  have hbooks : s₁.Books rule T (Function.update E e (some v)) := h.books.insertElement he helement
  have hshown : rule.shown T E (.inr e) = none := by simp [ComplementRule.shown, he]
  have hnamed : Named s₁.name s₁.next (rule.shown T E) U := h.named.congr (fun q => by
    cases q <;> rfl) fun _ => rfl
  have hother : ∀ q, q ≠ .inr e → rule.shown T (Function.update E e (some v)) q = rule.shown T E q := by
    intro q hq
    cases q with
    | inl i => rfl
    | inr e' =>
      have he' : e' ≠ e := fun heq => hq (by rw [heq])
      simp [ComplementRule.shown, he']
  have hx : (Function.update E e (some v) e).bind rule.element = some ⟨k, f⟩ := by simp [helement]
  obtain ⟨n, hn, hget⟩ := h.books.carried k
  have hhas : s.carried.has k = true ↔ rule.Carried T k := by
    rw [hn.carried_iff, Table.has, hget]
    split
    · simp [*]
    · simp [*]
  by_cases hcar : s.carried.has k = true
  · rw [if_pos hcar] at hok
    cases hok
    refine ⟨U, rfl, ⟨hbooks, hnamed.congr (fun _ => rfl) fun q => ?_⟩, by simp⟩
    by_cases hq : q = .inr e
    · rw [hq, (shown_inr hx).1 (hhas.1 hcar), hshown]
    · exact hother q hq
  · rw [if_neg hcar] at hok
    obtain ⟨U', hU', h', hsame, hout⟩ :=
      leads_make (e := e) (x := ⟨k, f⟩) hnamed (by simp [s₁]) hshown
    rw [show s₁.make rule e = (s', out) from hok] at hU' h' hsame hout
    refine ⟨U', hU', ⟨hbooks.congr hsame, h'.congr (fun _ => rfl) fun q => ?_⟩, hout⟩
    by_cases hq : q = .inr e
    · rw [hq, (shown_inr hx).2 fun hc => hcar (hhas.2 hc), Function.update_self]
    · rw [hother q hq, Function.update_of_ne hq]

/-- One delta of the source brings what is shown up to it. -/
theorem InStep.stepElement (h : s.InStep rule T E U) {d : Delta} (hd : d.Fits E)
    (hok : s.stepElement rule d = .ok (s', out)) :
    ∃ U', Leads U out U' ∧ s'.InStep rule T (d.apply E) U' ∧ (d.IsInsert → ∀ d ∈ out, d.IsInsert) := by
  cases d with
  | insert e v =>
    obtain ⟨U', hU', h', hout⟩ := h.insertElement hd hok
    exact ⟨U', hU', h', fun _ => hout⟩
  | update e v =>
    cases hrem : s.removeElement e with
    | mk u gone =>
      simp only [Complement.stepElement, hrem, bind_eq_ok_iff, pure_eq_ok_iff] at hok
      obtain ⟨⟨w, come⟩, hins, hpure⟩ := hok
      cases hpure
      obtain ⟨V, hV, hmid⟩ := h.removeElement hd hrem
      obtain ⟨U', hU', h', -⟩ := hmid.insertElement (Function.update_self _ _ _) hins
      rw [Function.update_idem] at h'
      exact ⟨U', hV.append hU', h', False.elim⟩
  | retract e =>
    obtain ⟨U', hU', h'⟩ := h.removeElement hd (Except.ok.inj hok)
    exact ⟨U', hU', h', False.elim⟩

/-- A batch of each stream brings what is shown up to both; before any element came, tuples that come bring
only what comes. -/
theorem InStep.process (h : s.InStep rule T E U) {stream source : List Delta} {T' E' : Tuples}
    (hT : Leads T stream T') (hE : Leads E source E')
    (hok : s.process rule stream source = .ok (s', out)) :
    ∃ U', Leads U out U' ∧ s'.InStep rule T' E' U' ∧
      ((∀ e, E e = none) → (∀ d ∈ stream, d.IsInsert) → (∀ d ∈ source, d.IsInsert) →
        ∀ d ∈ out, d.IsInsert) := by
  simp only [Complement.process, bind_eq_ok_iff, pure_eq_ok_iff] at hok
  obtain ⟨⟨s₁, out₁⟩, h1, ⟨s₂, out₂⟩, h2, hpure⟩ := hok
  cases hpure
  obtain ⟨U₁, hU₁, hs₁, hout₁⟩ := feed_leads (P := fun s T U => s.InStep rule T E U)
    (K := fun d => (∀ e, E e = none) → (∀ d ∈ stream, d.IsInsert) → d.IsInsert) id
    (fun s T U d s' out hmem hs hd hok => by
      cases d with
      | insert i t =>
        obtain ⟨U', hU', h', hout⟩ := hs.insertTuple hd (Except.ok.inj hok)
        exact ⟨U', hU', h', fun d hd hnone _ => hout hnone d hd⟩
      | update i t =>
        obtain ⟨U', hU', h'⟩ := hs.stepTuple hd (Except.ok.inj hok)
        exact ⟨U', hU', h', fun _ _ _ hins => (hins _ hmem).elim⟩
      | retract i =>
        obtain ⟨U', hU', h'⟩ := hs.stepTuple hd (Except.ok.inj hok)
        exact ⟨U', hU', h', fun _ _ _ hins => (hins _ hmem).elim⟩) h (by simpa using hT) h1
  obtain ⟨U₂, hU₂, hs₂, hout₂⟩ := feed_leads (P := fun s E U => s.InStep rule T' E U)
    (K := fun d => (∀ d ∈ source, d.IsInsert) → d.IsInsert) id
    (fun s E U d s' out hmem hs hd hok => by
      obtain ⟨U', hU', h', hout⟩ := hs.stepElement hd hok
      exact ⟨U', hU', h', fun e he hins => hout (hins d hmem) e he⟩) hs₁ (by simpa using hE) h2
  refine ⟨U₂, hU₁.append hU₂, hs₂, fun hnone hstream hsource d hd => ?_⟩
  rcases List.mem_append.1 hd with hd | hd
  · exact hout₁ d hd hnone hstream
  · exact hout₂ d hd hsource

end Complement

end Planning
