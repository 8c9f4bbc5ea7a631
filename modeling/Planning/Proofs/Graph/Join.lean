import Planning.Proofs.Graph.Joiner

/-!
# Joins as pairs of live tuples

A join is in step with the live tuples of its sides when it holds both sides with their keys and one joined
tuple for each pair that belongs together, found again from either member. Every change of one side brings
the joined tuples up to that side, and so does a batch in which both sides are orderly.
-/

namespace Planning

open Checked Delta

/-- A table of partners lists, each once, those in a relation. -/
structure Links (t : Table TupleId (List TupleId)) (Q : TupleId → TupleId → Prop) : Prop where
  /-- No partner stands twice. -/
  nodup : ∀ a, ((t.get? a).getD []).Nodup
  /-- The partners are those in the relation. -/
  mem_iff : ∀ a b, b ∈ (t.get? a).getD [] ↔ Q a b

namespace Links

variable {t : Table TupleId (List TupleId)} {Q Q' : TupleId → TupleId → Prop}

theorem empty : Links [] fun _ _ => False := ⟨by simp, by simp⟩

theorem congr (h : Links t Q) (hQ : ∀ a b, Q a b ↔ Q' a b) : Links t Q' :=
  ⟨h.nodup, fun a b => (h.mem_iff a b).trans (hQ a b)⟩

/-- One more partner is linked. -/
theorem link (h : Links t Q) {a b : TupleId} (hab : ¬ Q a b)
    (hQ : ∀ c d, Q' c d ↔ Q c d ∨ c = a ∧ d = b) : Links (Join.link t a b) Q' := by
  have hnot : b ∉ (t.get? a).getD [] := fun hmem => hab ((h.mem_iff a b).1 hmem)
  constructor
  · intro c
    rw [Join.link, Table.get?_set]
    split
    · rw [Option.getD_some, List.nodup_append]
      exact ⟨h.nodup a, List.nodup_singleton b, by
        rintro x hx y hy rfl
        exact hnot (List.mem_singleton.1 hy ▸ hx)⟩
    · exact h.nodup c
  · intro c d
    rw [Join.link, Table.get?_set, hQ]
    split
    · rename_i hc
      subst hc
      rw [Option.getD_some, List.mem_append, List.mem_singleton, h.mem_iff]
      simp
    · rename_i hc
      rw [h.mem_iff]
      simp [hc]

/-- One partner is unlinked. -/
theorem unlink (h : Links t Q) {a b : TupleId} (hQ : ∀ c d, Q' c d ↔ Q c d ∧ ¬ (c = a ∧ d = b)) :
    Links (Join.unlink t a b) Q' := by
  have hlist : ∀ c, ((Join.unlink t a b).get? c).getD [] =
      if c = a then swapErase b ((t.get? a).getD []) else (t.get? c).getD [] := by
    intro c
    rw [Join.unlink]
    cases hget : t.get? a with
    | none =>
      dsimp only [Option.getD_none]
      split
      · rename_i hc
        rw [hc, hget]
        rfl
      · rfl
    | some l =>
      dsimp only [Option.getD_some]
      split
      · rename_i hempty
        rw [Table.get?_erase]
        split
        · rw [List.isEmpty_iff.1 hempty]
          rfl
        · rfl
      · rw [Table.get?_set]
        split <;> rfl
  constructor
  · intro c
    rw [hlist]
    split
    · exact (swapErase_perm b _).nodup_iff.2 ((h.nodup a).erase b)
    · exact h.nodup c
  · intro c d
    rw [hlist, hQ]
    split
    · rename_i hc
      subst hc
      rw [(swapErase_perm b _).mem_iff, (h.nodup c).mem_erase_iff, h.mem_iff]
      simp [and_comm]
    · rename_i hc
      rw [h.mem_iff]
      simp [hc]

/-- All partners of one are unlinked. -/
theorem erase (h : Links t Q) {a : TupleId} (hQ : ∀ c d, Q' c d ↔ Q c d ∧ c ≠ a) :
    Links (t.erase a) Q' := by
  constructor
  · intro c
    rw [Table.get?_erase]
    split
    · exact List.nodup_nil
    · exact h.nodup c
  · intro c d
    rw [Table.get?_erase, hQ]
    split
    · rename_i hc
      simp [hc]
    · rename_i hc
      simp [h.mem_iff, hc]

end Links

/-- The tuple of a pair of live tuples that belong together. -/
def JoinRule.pair (rule : JoinRule) (L R : Tuples) (q : TupleId × TupleId) : Option Value :=
  match L q.1, R q.2 with
  | some a, some b =>
    if (rule.uniquePairs = true → q.1 < q.2) ∧ rule.joiner.matching a b = .ok true then
      some (rule.combine a b)
    else none
  | _, _ => none

namespace JoinRule

variable {rule : JoinRule} {L R : Tuples} {l r : TupleId} {a b : Value}

theorem pair_left_none (h : L l = none) : rule.pair L R (l, r) = none := by
  simp [pair, h]

theorem pair_right_none (h : R r = none) : rule.pair L R (l, r) = none := by
  cases hl : L l <;> simp [pair, h, hl]

theorem pair_of_live (hl : L l = some a) (hr : R r = some b) :
    rule.pair L R (l, r) =
      if (rule.uniquePairs = true → l < r) ∧ rule.joiner.matching a b = .ok true then
        some (rule.combine a b)
      else none := by
  simp [pair, hl, hr]

/-- The members of a joined pair are live and belong together. -/
theorem live_of_pair (h : rule.pair L R (l, r) ≠ none) :
    ∃ a b, L l = some a ∧ R r = some b ∧ rule.joiner.matching a b = .ok true := by
  cases hl : L l with
  | none => exact absurd (pair_left_none hl) h
  | some a =>
    cases hr : R r with
    | none => exact absurd (pair_right_none hr) h
    | some b =>
      rw [pair_of_live hl hr] at h
      refine ⟨a, b, rfl, rfl, ?_⟩
      by_contra hm
      rw [if_neg fun hc => hm hc.2] at h
      exact h rfl

/-- A pair depends on its members alone. -/
theorem pair_congr {L' R' : Tuples} (hl : L' l = L l) (hr : R' r = R r) :
    rule.pair L' R' (l, r) = rule.pair L R (l, r) := by
  simp only [pair, hl, hr]

/-- Where all right tuples that belong with a left one are looked at when it comes, its pairs are theirs. -/
theorem pair_insert_left {rs : List TupleId} (hl : L l = none)
    (hrs : ∀ r b, R r = some b → rule.joiner.matching a b = .ok true → r ∈ rs) :
    (fun q => if q ∈ rs.map (fun r => (l, r)) then rule.pair (Function.update L l (some a)) R q
        else rule.pair L R q) = rule.pair (Function.update L l (some a)) R := by
  funext ⟨c, d⟩
  by_cases hc : c = l
  · subst hc
    by_cases hd : rule.pair (Function.update L c (some a)) R (c, d) = none
    · rw [hd, pair_left_none hl, ite_self]
    · obtain ⟨a', b, ha', hb, hm⟩ := live_of_pair hd
      obtain rfl := Option.some.inj (ha'.symm.trans (Function.update_self _ _ _))
      rw [if_pos (List.mem_map_of_mem (hrs d b hb hm))]
  · rw [if_neg (by simp [Ne.symm hc]), pair_congr (Function.update_of_ne hc _ _) rfl]

/-- Where all left tuples that belong with a right one are looked at when it comes, its pairs are theirs. -/
theorem pair_insert_right {ls : List TupleId} (hr : R r = none)
    (hls : ∀ l a, L l = some a → rule.joiner.matching a b = .ok true → l ∈ ls) :
    (fun q => if q ∈ ls.map (fun l => (l, r)) then rule.pair L (Function.update R r (some b)) q
        else rule.pair L R q) = rule.pair L (Function.update R r (some b)) := by
  funext ⟨c, d⟩
  by_cases hd : d = r
  · subst hd
    by_cases hc : rule.pair L (Function.update R d (some b)) (c, d) = none
    · rw [hc, pair_right_none hr, ite_self]
    · obtain ⟨a, b', ha, hb', hm⟩ := live_of_pair hc
      obtain rfl := Option.some.inj (hb'.symm.trans (Function.update_self _ _ _))
      rw [if_pos (List.mem_map_of_mem (hls c a ha hm))]
  · rw [if_neg (by simp [Ne.symm hd]), pair_congr rfl (Function.update_of_ne hd _ _)]

end JoinRule

namespace Join

/-- The joined tuples are those of the pairs, which are linked from both members. -/
structure Pairs (s : Join) (P : TupleId × TupleId → Option Value) (T : Tuples) : Prop where
  /-- Each pair has its tuple. -/
  named : Named s.pairs.get? s.next P T
  /-- The left members know their partners. -/
  byLeft : Links s.byLeft fun l r => P (l, r) ≠ none
  /-- The right members know their partners. -/
  byRight : Links s.byRight fun r l => P (l, r) ≠ none

/-- Two joins hold the same tuples of both sides. -/
structure SameSides (s s' : Join) : Prop where
  /-- The left tuples are the same. -/
  lefts : s'.lefts = s.lefts
  /-- The right tuples are the same. -/
  rights : s'.rights = s.rights
  /-- The left index is the same. -/
  leftIndex : s'.leftIndex = s.leftIndex
  /-- The right index is the same. -/
  rightIndex : s'.rightIndex = s.rightIndex

theorem SameSides.refl (s : Join) : SameSides s s := ⟨rfl, rfl, rfl, rfl⟩

theorem SameSides.trans {s t u : Join} (h : SameSides s t) (h' : SameSides t u) : SameSides s u :=
  ⟨h'.lefts.trans h.lefts, h'.rights.trans h.rights, h'.leftIndex.trans h.leftIndex,
    h'.rightIndex.trans h.rightIndex⟩

/-- A pair is joined. -/
theorem Pairs.emit {s : Join} {P : TupleId × TupleId → Option Value} {T : Tuples} (h : s.Pairs P T)
    {l r : TupleId} (hq : P (l, r) = none) (v : Value) :
    (s.emit l r v).1.Pairs (Function.update P (l, r) (some v)) (apply T (insert s.next v)) := by
  have hlinked : ∀ c d, Function.update P (l, r) (some v) (c, d) ≠ none ↔
      P (c, d) ≠ none ∨ c = l ∧ d = r := by
    intro c d
    by_cases hcd : (c, d) = (l, r)
    · obtain ⟨rfl, rfl⟩ := Prod.mk.inj hcd
      simp
    · rw [Function.update_of_ne hcd]
      simpa using fun hc hd => absurd (Prod.ext hc hd) hcd
  refine ⟨?_, ?_, ?_⟩
  · rw [Join.emit, Table.get?_set_eq]
    exact h.named.add hq v
  · exact h.byLeft.link (by simp [hq]) hlinked
  · exact h.byRight.link (by simp [hq]) fun c d => (hlinked d c).trans (or_congr_right and_comm)

/-- The tuple that a pair makes comes, if it makes one. -/
def emitPair (s : Join) (q : TupleId × TupleId) : Option Value → Join × List Delta
  | some v => s.emit q.1 q.2 v
  | none => (s, [])

/-- Candidates are joined one by one, those that make a tuple. -/
theorem Pairs.emit_all {s s' : Join} {P V : TupleId × TupleId → Option Value} {T : Tuples}
    {step : Join → TupleId × TupleId → Checked (Join × List Delta)}
    {qs : List (TupleId × TupleId)} {out : List Delta} (h : s.Pairs P T) (hqs : qs.Nodup)
    (hP : ∀ q ∈ qs, P q = none)
    (hstep : ∀ t t' more, ∀ q ∈ qs, SameSides s t → step t q = .ok (t', more) →
      (t', more) = t.emitPair q (V q))
    (hfeed : feed step s qs = .ok (s', out)) :
    ∃ T', Leads T out T' ∧ s'.Pairs (fun q => if q ∈ qs then V q else P q) T' ∧
      SameSides s s' ∧ ∀ d ∈ out, d.IsInsert := by
  induction qs generalizing s P T out with
  | nil =>
    cases hfeed
    exact ⟨T, rfl, by simpa using h, SameSides.refl _, by simp⟩
  | cons q qs ih =>
    obtain ⟨t, first, rest, h1, h2, rfl⟩ := feed_cons_eq_ok_iff.1 hfeed
    obtain ⟨hq, hqs⟩ := List.nodup_cons.1 hqs
    -- One candidate either makes a tuple, which is inserted under the next name, or nothing.
    have hone : ∃ U, Leads T first U ∧ t.Pairs (Function.update P q (V q)) U ∧ SameSides s t ∧
        ∀ d ∈ first, d.IsInsert := by
      have h1 := hstep s t first q (by simp) (SameSides.refl s) h1
      cases hV : V q with
      | none =>
        rw [hV] at h1
        cases h1
        refine ⟨T, rfl, ?_, SameSides.refl s, by simp⟩
        rw [← hP q (by simp), Function.update_eq_self]
        exact h
      | some v =>
        rw [hV] at h1
        cases h1
        exact ⟨_, Leads.single (h.named.absent h.named.name_ne_next), h.emit (hP q (by simp)) v,
          ⟨rfl, rfl, rfl, rfl⟩, by simp [IsInsert]⟩
    obtain ⟨U, hU, hpairs, hsame, hfirst⟩ := hone
    have hP' : ∀ q' ∈ qs, Function.update P q (V q) q' = none := by
      intro q' hq'
      rw [Function.update_of_ne (by rintro rfl; exact hq hq')]
      exact hP q' (by simp [hq'])
    obtain ⟨T', hT', hpairs', hsame', hrest⟩ :=
      ih hpairs hqs hP'
        (fun u u' more q' hq' hu => hstep u u' more q' (by simp [hq']) (hsame.trans hu)) h2
    refine ⟨T', hU.append hT', ?_, hsame.trans hsame', ?_⟩
    · convert hpairs' using 1
      funext q'
      by_cases hq' : q' = q
      · subst hq'
        simp [hq]
      · simp [hq']
    · simpa [or_imp, forall_and] using ⟨hfirst, hrest⟩

/-- The joined tuple of a pair goes because a member of a side does. -/
def unpair (side : Side) (s : Join) (q : TupleId × TupleId) : Join × List Delta :=
  let (s, gone) := s.dropPair q.1 q.2
  match side with
  | .left => ({ s with byRight := unlink s.byRight q.2 q.1 }, gone)
  | .right => ({ s with byLeft := unlink s.byLeft q.1 q.2 }, gone)

/-- While a member of a side goes, the members of the other side know the partners that are left. -/
structure Halves (side : Side) (s : Join) (P : TupleId × TupleId → Option Value) (T : Tuples) :
    Prop where
  /-- Each pair has its tuple. -/
  named : Named s.pairs.get? s.next P T
  /-- The members of the other side know their partners. -/
  links : match side with
    | .left => Links s.byRight fun r l => P (l, r) ≠ none
    | .right => Links s.byLeft fun l r => P (l, r) ≠ none

/-- Two joins differ in their pairs alone, as known to the other side. -/
structure SameBut (side : Side) (s s' : Join) : Prop where
  /-- Both hold the same tuples. -/
  sides : SameSides s s'
  /-- The members of the side know the same partners. -/
  links : match side with
    | .left => s'.byLeft = s.byLeft
    | .right => s'.byRight = s.byRight

/-- A pair goes. -/
theorem Halves.unpair {side : Side} {s : Join} {P : TupleId × TupleId → Option Value} {T : Tuples}
    (h : s.Halves side P T) {q : TupleId × TupleId} (hq : P q ≠ none) :
    ∃ T', Leads T (s.unpair side q).2 T' ∧
      (s.unpair side q).1.Halves side (Function.update P q none) T' ∧
      SameBut side s (s.unpair side q).1 ∧ ∀ d ∈ (s.unpair side q).2, d.IsRetract := by
  obtain ⟨l, r⟩ := q
  obtain ⟨id, hid⟩ := h.named.named _ hq
  have hdrop : s.dropPair l r = ({ s with pairs := s.pairs.erase (l, r) }, [.retract id]) := by
    rw [dropPair, hid]
  have hlinked : ∀ c d, Function.update P (l, r) none (c, d) ≠ none ↔
      P (c, d) ≠ none ∧ ¬ (c = l ∧ d = r) := by
    intro c d
    by_cases hcd : (c, d) = (l, r)
    · obtain ⟨rfl, rfl⟩ := Prod.mk.inj hcd
      simp
    · rw [Function.update_of_ne hcd]
      simpa using fun _ hc hd => absurd (Prod.ext hc hd) hcd
  have hnamed : Named (s.pairs.erase (l, r)).get? s.next (Function.update P (l, r) none)
      (apply T (retract id)) := by
    rw [Table.get?_erase_eq]
    exact h.named.drop hid
  refine ⟨apply T (retract id), ?_⟩
  cases side with
  | left =>
    simp only [Join.unpair, hdrop]
    refine ⟨Leads.single (h.named.fits_retract hid), ⟨hnamed, ?_⟩, ⟨⟨rfl, rfl, rfl, rfl⟩, rfl⟩,
      by simp [IsRetract]⟩
    exact h.links.unlink fun c d => (hlinked d c).trans (and_congr_right fun _ => not_congr and_comm)
  | right =>
    simp only [Join.unpair, hdrop]
    refine ⟨Leads.single (h.named.fits_retract hid), ⟨hnamed, ?_⟩, ⟨⟨rfl, rfl, rfl, rfl⟩, rfl⟩,
      by simp [IsRetract]⟩
    exact h.links.unlink hlinked

/-- The pairs of a member go one by one. -/
theorem Halves.unpair_all {side : Side} {s s' : Join} {P : TupleId × TupleId → Option Value}
    {T : Tuples} {qs : List (TupleId × TupleId)} {out : List Delta} (h : s.Halves side P T)
    (hqs : qs.Nodup) (hP : ∀ q ∈ qs, P q ≠ none)
    (hfeed : feed (fun s q => .ok (s.unpair side q)) s qs = .ok (s', out)) :
    ∃ T', Leads T out T' ∧ s'.Halves side (fun q => if q ∈ qs then none else P q) T' ∧
      SameBut side s s' ∧ ∀ d ∈ out, d.IsRetract := by
  induction qs generalizing s P T out with
  | nil =>
    cases hfeed
    exact ⟨T, rfl, by simpa using h, ⟨SameSides.refl _, by cases side <;> rfl⟩, by simp⟩
  | cons q qs ih =>
    obtain ⟨t, first, rest, h1, h2, rfl⟩ := feed_cons_eq_ok_iff.1 hfeed
    obtain ⟨hq, hqs⟩ := List.nodup_cons.1 hqs
    obtain ⟨U, hU, hhalves, hsame, hfirst⟩ := h.unpair (hP q (by simp))
    rw [Except.ok.inj h1] at hU hhalves hsame hfirst
    have hP' : ∀ q' ∈ qs, Function.update P q none q' ≠ none := by
      intro q' hq'
      rw [Function.update_of_ne (by rintro rfl; exact hq hq')]
      exact hP q' (by simp [hq'])
    obtain ⟨T', hT', hhalves', hsame', hrest⟩ := ih hhalves hqs hP' h2
    refine ⟨T', hU.append hT', ?_, ⟨hsame.sides.trans hsame'.sides, ?_⟩, ?_⟩
    · convert hhalves' using 1
      funext q'
      by_cases hq' : q' = q
      · simp [hq']
      · simp [hq']
    · cases side with
      | left => exact hsame'.links.trans hsame.links
      | right => exact hsame'.links.trans hsame.links
    · simpa [or_imp, forall_and] using ⟨hfirst, hrest⟩

/-- The join holds the live tuples of both sides and has joined those that belong together. -/
structure InStep (rule : JoinRule) (s : Join) (L R T : Tuples) : Prop where
  /-- The left tuples are held. -/
  left : Indexed rule.joiner .left s.lefts.get? s.leftIndex L
  /-- The right tuples are held. -/
  right : Indexed rule.joiner .right s.rights.get? s.rightIndex R
  /-- The tuples that belong together are joined. -/
  pairs : s.Pairs (rule.pair L R) T

/-- Before any tuple came nothing is joined. -/
theorem InStep.empty (rule : JoinRule) :
    InStep rule (Join.empty rule.joiner.relation) Tuples.none Tuples.none Tuples.none where
  left := Indexed.empty _ _
  right := Indexed.empty _ _
  pairs := by
    have hnone : rule.pair Tuples.none Tuples.none = fun _ => none := by
      funext ⟨l, r⟩
      exact JoinRule.pair_left_none rfl
    rw [hnone]
    exact ⟨Named.empty, Links.empty.congr (by simp), Links.empty.congr (by simp)⟩

variable {rule : JoinRule} {s s' : Join} {L R T : Tuples}

/-- A left tuple that goes takes its pairs with it. -/
theorem InStep.removeLeft (h : s.InStep rule L R T) {l : TupleId} {out : List Delta}
    (hl : L l ≠ none) (hrem : s.removeLeft l = (s', out)) :
    ∃ T', Leads T out T' ∧ s'.InStep rule (Function.update L l none) R T' ∧
      ∀ d ∈ out, d.IsRetract := by
  obtain ⟨a, ha⟩ := Option.ne_none_iff_exists'.1 hl
  obtain ⟨k, hkept, -⟩ := h.left.kept_of_live ha
  let base : Join := { s with
    lefts := s.lefts.erase l
    leftIndex := s.leftIndex.remove k l
    byLeft := s.byLeft.erase l }
  let partners := (s.byLeft.get? l).getD []
  have hpartner : ∀ r, r ∈ partners ↔ rule.pair L R (l, r) ≠ none := h.pairs.byLeft.mem_iff l
  have hfeed : feed (fun s q => .ok (s.unpair .left q)) base (partners.map fun r => (l, r)) =
      .ok (s', out) := by
    rw [feed_map, feed_eq_foldl, ← hrem, Join.removeLeft, hkept]
    rfl
  have hnodup : (partners.map fun r => (l, r)).Nodup :=
    (h.pairs.byLeft.nodup l).map fun r r' hr => (Prod.mk.inj hr).2
  have hbase : base.Halves .left (rule.pair L R) T := ⟨h.pairs.named, h.pairs.byRight⟩
  obtain ⟨T', hT', hhalves, hsame, hout⟩ := hbase.unpair_all hnodup (by simp [hpartner]) hfeed
  have hpairs : (fun q => if q ∈ partners.map (fun r => (l, r)) then none else rule.pair L R q) =
      rule.pair (Function.update L l none) R := by
    funext ⟨c, d⟩
    by_cases hc : c = l
    · subst hc
      rw [JoinRule.pair_left_none (Function.update_self _ _ _)]
      by_cases hd : rule.pair L R (c, d) = none <;> simp [hpartner, hd]
    · rw [if_neg (by simp [Ne.symm hc]), JoinRule.pair_congr (Function.update_of_ne hc _ _) rfl]
  rw [hpairs] at hhalves
  refine ⟨T', hT', ⟨?_, ?_, hhalves.named, ?_, hhalves.links⟩, hout⟩
  · rw [hsame.sides.lefts, hsame.sides.leftIndex, Table.get?_erase_eq]
    exact h.left.remove hkept
  · rw [hsame.sides.rights, hsame.sides.rightIndex]
    exact h.right
  · rw [hsame.links]
    refine h.pairs.byLeft.erase fun c d => ?_
    by_cases hc : c = l
    · subst hc
      simp [JoinRule.pair]
    · rw [JoinRule.pair_congr (Function.update_of_ne hc _ _) rfl]
      simp [hc]

/-- A right tuple that goes takes its pairs with it. -/
theorem InStep.removeRight (h : s.InStep rule L R T) {r : TupleId} {out : List Delta}
    (hr : R r ≠ none) (hrem : s.removeRight r = (s', out)) :
    ∃ T', Leads T out T' ∧ s'.InStep rule L (Function.update R r none) T' ∧
      ∀ d ∈ out, d.IsRetract := by
  obtain ⟨b, hb⟩ := Option.ne_none_iff_exists'.1 hr
  obtain ⟨k, hkept, -⟩ := h.right.kept_of_live hb
  let base : Join := { s with
    rights := s.rights.erase r
    rightIndex := s.rightIndex.remove k r
    byRight := s.byRight.erase r }
  let partners := (s.byRight.get? r).getD []
  have hpartner : ∀ l, l ∈ partners ↔ rule.pair L R (l, r) ≠ none := h.pairs.byRight.mem_iff r
  have hfeed : feed (fun s q => .ok (s.unpair .right q)) base (partners.map fun l => (l, r)) =
      .ok (s', out) := by
    rw [feed_map, feed_eq_foldl, ← hrem, Join.removeRight, hkept]
    rfl
  have hnodup : (partners.map fun l => (l, r)).Nodup :=
    (h.pairs.byRight.nodup r).map fun l l' hl => (Prod.mk.inj hl).1
  have hbase : base.Halves .right (rule.pair L R) T := ⟨h.pairs.named, h.pairs.byLeft⟩
  obtain ⟨T', hT', hhalves, hsame, hout⟩ := hbase.unpair_all hnodup (by simp [hpartner]) hfeed
  have hpairs : (fun q => if q ∈ partners.map (fun l => (l, r)) then none else rule.pair L R q) =
      rule.pair L (Function.update R r none) := by
    funext ⟨c, d⟩
    by_cases hd : d = r
    · subst hd
      rw [JoinRule.pair_right_none (Function.update_self _ _ _)]
      by_cases hc : rule.pair L R (c, d) = none <;> simp [hpartner, hc]
    · rw [if_neg (by simp [Ne.symm hd]), JoinRule.pair_congr rfl (Function.update_of_ne hd _ _)]
  rw [hpairs] at hhalves
  refine ⟨T', hT', ⟨?_, ?_, hhalves.named, hhalves.links, ?_⟩, hout⟩
  · rw [hsame.sides.lefts, hsame.sides.leftIndex]
    exact h.left
  · rw [hsame.sides.rights, hsame.sides.rightIndex, Table.get?_erase_eq]
    exact h.right.remove hkept
  · rw [hsame.links]
    refine h.pairs.byRight.erase fun d c => ?_
    by_cases hd : d = r
    · subst hd
      simp [JoinRule.pair_right_none]
    · rw [JoinRule.pair_congr rfl (Function.update_of_ne hd _ _)]
      simp [hd]

/-- What considering two tuples gives out. -/
theorem tryPair_eq {l r : TupleId} {a b : Value} {t t' : Join} {out : List Delta} (hl : L l = some a)
    (hr : R r = some b) (h : t.tryPair rule l r a b = .ok (t', out)) :
    (t', out) = t.emitPair (l, r) (rule.pair L R (l, r)) := by
  rw [JoinRule.pair_of_live hl hr]
  unfold tryPair at h
  by_cases hu : rule.uniquePairs = true → l < r
  · have hcond : (rule.uniquePairs && decide (r ≤ l)) = false := by
      cases hp : rule.uniquePairs with
      | false => rfl
      | true => simpa using hu hp
    rw [hcond] at h
    obtain ⟨m, hm, h⟩ := bind_eq_ok_iff.1 h
    cases m with
    | true =>
      rw [if_pos ⟨hu, hm⟩]
      exact (pure_eq_ok_iff.1 h).symm
    | false =>
      rw [if_neg (by simp [hm])]
      exact (pure_eq_ok_iff.1 h).symm
  · have hcond : (rule.uniquePairs && decide (r ≤ l)) = true := by
      simpa [not_lt] using hu
    rw [hcond] at h
    rw [if_neg fun hc => hu hc.1]
    exact (pure_eq_ok_iff.1 h).symm

/-- A left tuple that comes is considered with a right one, if that is kept. -/
def tryRight (rule : JoinRule) (a : Value) (s : Join) (q : TupleId × TupleId) :
    Checked (Join × List Delta) :=
  match s.rights.get? q.2 with
  | some b => s.tryPair rule q.1 q.2 a b.tuple
  | none => .ok (s, [])

/-- A right tuple that comes is considered with a left one, if that is kept. -/
def tryLeft (rule : JoinRule) (b : Value) (s : Join) (q : TupleId × TupleId) :
    Checked (Join × List Delta) :=
  match s.lefts.get? q.1 with
  | some a => s.tryPair rule q.1 q.2 a.tuple b
  | none => .ok (s, [])

/-- What considering a left tuple with a right one gives out. -/
theorem tryRight_eq {l r : TupleId} {a : Value} {t t' : Join} {out : List Delta}
    (hright : Indexed rule.joiner .right s.rights.get? s.rightIndex R) (hsame : SameSides s t) (hl : L l = some a)
    (h : t.tryRight rule a (l, r) = .ok (t', out)) :
    (t', out) = t.emitPair (l, r) (rule.pair L R (l, r)) := by
  rw [tryRight, hsame.rights] at h
  cases hr : s.rights.get? r with
  | some b =>
    rw [hr] at h
    exact tryPair_eq hl (hright.live_of_kept hr) h
  | none =>
    rw [hr] at h
    have hR : R r = none := by rw [← hright.tuple r, hr]; rfl
    rw [JoinRule.pair_right_none hR]
    exact (Except.ok.inj h).symm

/-- What considering a right tuple with a left one gives out. -/
theorem tryLeft_eq {l r : TupleId} {b : Value} {t t' : Join} {out : List Delta}
    (hleft : Indexed rule.joiner .left s.lefts.get? s.leftIndex L) (hsame : SameSides s t) (hr : R r = some b)
    (h : t.tryLeft rule b (l, r) = .ok (t', out)) :
    (t', out) = t.emitPair (l, r) (rule.pair L R (l, r)) := by
  rw [tryLeft, hsame.lefts] at h
  cases hl : s.lefts.get? l with
  | some a =>
    rw [hl] at h
    exact tryPair_eq (hleft.live_of_kept hl) hr h
  | none =>
    rw [hl] at h
    have hL : L l = none := by rw [← hleft.tuple l, hl]; rfl
    rw [JoinRule.pair_left_none hL]
    exact (Except.ok.inj h).symm

/-- A left tuple that comes is joined with the right tuples it belongs with. -/
theorem InStep.insertLeft (h : s.InStep rule L R T) {l : TupleId} {a : Value} {out : List Delta}
    (hl : L l = none) (hok : s.insertLeft rule l a = .ok (s', out)) :
    ∃ T', Leads T out T' ∧ s'.InStep rule (Function.update L l (some a)) R T' ∧
      ∀ d ∈ out, d.IsInsert := by
  simp only [Join.insertLeft, bind_eq_ok_iff, pure_eq_ok_iff] at hok
  obtain ⟨k, hk, ⟨t, more⟩, hfeed, hpure⟩ := hok
  cases hpure
  let rs := s.rightIndex.lookup k (rule.joiner.overlapBound k)
  let L' := Function.update L l (some a)
  have hqs : (rs.map fun r => (l, r)).Nodup :=
    (h.right.holds.nodup_lookup _ _).map fun r r' hr => (Prod.mk.inj hr).2
  have hfeed' : feed (Join.tryRight rule a) s (rs.map fun r => (l, r)) = .ok (t, more) := by
    rw [feed_map]
    exact hfeed
  have hnone : ∀ q ∈ rs.map (fun r => (l, r)), rule.pair L R q = none := by
    intro q hq
    obtain ⟨r, -, rfl⟩ := List.mem_map.1 hq
    exact JoinRule.pair_left_none hl
  have hstep : ∀ u u' more, ∀ q ∈ rs.map (fun r => (l, r)), SameSides s u →
      u.tryRight rule a q = .ok (u', more) → (u', more) = u.emitPair q (rule.pair L' R q) := by
    intro u u' more q hq hu hok
    obtain ⟨r, -, rfl⟩ := List.mem_map.1 hq
    exact tryRight_eq h.right hu (Function.update_self _ _ _) hok
  obtain ⟨T', hT', hpairs, hsame, hout⟩ := h.pairs.emit_all hqs hnone hstep hfeed'
  rw [JoinRule.pair_insert_left hl fun r b hb hm => h.right.mem_of_left hb hm hk] at hpairs
  refine ⟨T', hT', ⟨?_, ?_, hpairs.named, hpairs.byLeft, hpairs.byRight⟩, hout⟩
  · dsimp only
    rw [hsame.lefts, hsame.leftIndex, Table.get?_set_eq]
    exact h.left.insert hl hk
  · dsimp only
    rw [hsame.rights, hsame.rightIndex]
    exact h.right

/-- A right tuple that comes is joined with the left tuples it belongs with. -/
theorem InStep.insertRight (h : s.InStep rule L R T) {r : TupleId} {b : Value} {out : List Delta}
    (hr : R r = none) (hok : s.insertRight rule r b = .ok (s', out)) :
    ∃ T', Leads T out T' ∧ s'.InStep rule L (Function.update R r (some b)) T' ∧
      ∀ d ∈ out, d.IsInsert := by
  simp only [Join.insertRight, bind_eq_ok_iff, pure_eq_ok_iff] at hok
  obtain ⟨k, hk, ⟨t, more⟩, hfeed, hpure⟩ := hok
  cases hpure
  let ls := s.leftIndex.lookup k (rule.joiner.overlapBound k)
  let R' := Function.update R r (some b)
  have hqs : (ls.map fun l => (l, r)).Nodup :=
    (h.left.holds.nodup_lookup _ _).map fun l l' hl => (Prod.mk.inj hl).1
  have hfeed' : feed (Join.tryLeft rule b) s (ls.map fun l => (l, r)) = .ok (t, more) := by
    rw [feed_map]
    exact hfeed
  have hnone : ∀ q ∈ ls.map (fun l => (l, r)), rule.pair L R q = none := by
    intro q hq
    obtain ⟨l, -, rfl⟩ := List.mem_map.1 hq
    exact JoinRule.pair_right_none hr
  have hstep : ∀ u u' more, ∀ q ∈ ls.map (fun l => (l, r)), SameSides s u →
      u.tryLeft rule b q = .ok (u', more) → (u', more) = u.emitPair q (rule.pair L R' q) := by
    intro u u' more q hq hu hok
    obtain ⟨l, -, rfl⟩ := List.mem_map.1 hq
    exact tryLeft_eq h.left hu (Function.update_self _ _ _) hok
  obtain ⟨T', hT', hpairs, hsame, hout⟩ := h.pairs.emit_all hqs hnone hstep hfeed'
  rw [JoinRule.pair_insert_right hr fun l a ha hm => h.left.mem_of_right ha hm hk] at hpairs
  refine ⟨T', hT', ⟨?_, ?_, hpairs.named, hpairs.byLeft, hpairs.byRight⟩, hout⟩
  · dsimp only
    rw [hsame.lefts, hsame.leftIndex]
    exact h.left
  · dsimp only
    rw [hsame.rights, hsame.rightIndex, Table.get?_set_eq]
    exact h.right.insert hr hk

/-- A batch in which both sides are orderly brings the joined tuples up to both sides; what goes goes
before anything comes. -/
theorem InStep.process (h : s.InStep rule L R T) {left right out : List Delta} {L' R' : Tuples}
    (hL : Leads L left L') (hR : Leads R right R') (hl : Orderly left) (hr : Orderly right)
    (hok : s.process rule left right = .ok (s', out)) :
    ∃ T', Leads T out T' ∧ s'.InStep rule L' R' T' ∧
      ∃ gone come, out = gone ++ come ∧ (∀ d ∈ gone, d.IsRetract) ∧ (∀ d ∈ come, d.IsInsert) ∧
        (removals left = [] → removals right = [] → gone = []) := by
  obtain ⟨L1, hL1, hL2⟩ := leads_append.1 (hL.taken_out_first hl)
  obtain ⟨R1, hR1, hR2⟩ := leads_append.1 (hR.taken_out_first hr)
  simp only [Join.process, bind_eq_ok_iff, pure_eq_ok_iff] at hok
  obtain ⟨⟨s1, out1⟩, h1, ⟨s2, out2⟩, h2, ⟨s3, out3⟩, h3, ⟨s4, out4⟩, h4, hpure⟩ := hok
  cases hpure
  obtain ⟨T1, hT1, hs1, hout1⟩ := feed_leads (P := fun s L T => s.InStep rule L R T) retract
    (fun s L T l s' out _ hs hfit hok => hs.removeLeft hfit (Except.ok.inj hok)) h hL1 h1
  obtain ⟨T2, hT2, hs2, hout2⟩ := feed_leads (P := fun s R T => s.InStep rule L1 R T) retract
    (fun s R T r s' out _ hs hfit hok => hs.removeRight hfit (Except.ok.inj hok)) hs1 hR1 h2
  obtain ⟨T3, hT3, hs3, hout3⟩ := feed_leads (P := fun s L T => s.InStep rule L R1 T)
    (fun e => insert e.1 e.2) (fun s L T e s' out _ hs hfit hok => hs.insertLeft hfit hok) hs2 hL2 h3
  obtain ⟨T4, hT4, hs4, hout4⟩ := feed_leads (P := fun s R T => s.InStep rule L' R T)
    (fun e => insert e.1 e.2) (fun s R T e s' out _ hs hfit hok => hs.insertRight hfit hok) hs3 hR2 h4
  refine ⟨T4, ((hT1.append hT2).append hT3).append hT4, hs4, out1 ++ out2, out3 ++ out4, ?_, ?_, ?_, ?_⟩
  · simp
  · simpa [or_imp, forall_and] using ⟨hout1, hout2⟩
  · simpa [or_imp, forall_and] using ⟨hout3, hout4⟩
  · intro hl hr
    rw [hl] at h1
    rw [hr] at h2
    cases h1
    cases h2
    rfl

end Join

end Planning
