import Planning.Graph.Exists
import Planning.Proofs.Graph.Joiner

/-!
# Existence tests as live tuples with matches

An existence test is in step with the live tuples of its sides when it counts for each left tuple the right
tuples that match it; the left tuples that pass are live. Every change of one side brings the counts up to
that side, and so does a batch in which both sides are orderly.
-/

namespace Planning

open Checked Delta

/-- So many right tuples match a left one. -/
def Counts (j : Joiner) (R : Tuples) (a : Value) (n : Nat) : Prop :=
  ∃ ms : List TupleId, ms.Nodup ∧ ms.length = n ∧
    ∀ r, r ∈ ms ↔ ∃ b, R r = some b ∧ j.matching a b = .ok true

namespace Counts

variable {j : Joiner} {R : Tuples} {a b : Value} {n : Nat} {r : TupleId}

/-- The number of matches is positive when there is a match. -/
theorem pos_iff (h : Counts j R a n) :
    0 < n ↔ ∃ r b, R r = some b ∧ j.matching a b = .ok true := by
  obtain ⟨ms, -, rfl, hms⟩ := h
  rw [List.length_pos_iff_exists_mem]
  exact exists_congr hms

/-- A tuple that does not match does not count. -/
theorem of_not_match (h : Counts j R a n) {v : Option Value}
    (hold : ∀ b, R r = some b → j.matching a b ≠ .ok true)
    (hnew : ∀ b, v = some b → j.matching a b ≠ .ok true) :
    Counts j (Function.update R r v) a n := by
  obtain ⟨ms, hnodup, hlength, hms⟩ := h
  refine ⟨ms, hnodup, hlength, fun r' => ?_⟩
  by_cases hr : r' = r
  · subst hr
    rw [hms, Function.update_self]
    constructor
    · rintro ⟨b, hb, hm⟩
      exact absurd hm (hold b hb)
    · rintro ⟨b, hb, hm⟩
      exact absurd hm (hnew b hb)
  · rw [hms, Function.update_of_ne hr]

/-- One more match counts one more. -/
theorem succ (h : Counts j R a n) (hr : R r = none) (hm : j.matching a b = .ok true) :
    Counts j (Function.update R r (some b)) a (n + 1) := by
  obtain ⟨ms, hnodup, rfl, hms⟩ := h
  have hnot : r ∉ ms := by
    rw [hms, hr]
    rintro ⟨_, h, -⟩
    cases h
  refine ⟨r :: ms, List.nodup_cons.2 ⟨hnot, hnodup⟩, rfl, fun r' => ?_⟩
  rw [List.mem_cons, hms]
  by_cases hr' : r' = r
  · subst hr'
    simp [hm]
  · simp [hr']

/-- One match less counts one less. -/
theorem pred (h : Counts j R a n) (hr : R r = some b) (hm : j.matching a b = .ok true) :
    Counts j (Function.update R r none) a (n - 1) := by
  obtain ⟨ms, hnodup, rfl, hms⟩ := h
  have hmem : r ∈ ms := (hms r).2 ⟨b, hr, hm⟩
  refine ⟨ms.erase r, hnodup.erase r, List.length_erase_of_mem hmem, fun r' => ?_⟩
  rw [hnodup.mem_erase_iff, hms]
  by_cases hr' : r' = r
  · subst hr'
    simp
  · simp [hr']

end Counts

/-- A counted tuple as a keyed one. -/
def Counted.keyed (c : Counted) : Keyed := ⟨c.key, c.tuple⟩

/-- The tuple that a counted one lets pass. -/
def Counted.passing (rule : ExistsRule) (c : Counted) : Option Value :=
  if Exists.passes rule c.matchCount then some c.tuple else none

namespace Exists

/-- The test holds the live tuples of both sides, counts the matches, and lets pass what passes. -/
structure InStep (rule : ExistsRule) (s : Exists) (L R T : Tuples) : Prop where
  /-- The left tuples are held. -/
  left : Indexed rule.joiner .left (fun l => (s.lefts.get? l).map Counted.keyed) s.leftIndex L
  /-- The right tuples are held. -/
  right : Indexed rule.joiner .right s.rights.get? s.rightIndex R
  /-- The matches are counted. -/
  counts : ∀ l c, s.lefts.get? l = some c → Counts rule.joiner R c.tuple c.matchCount
  /-- What passes is live. -/
  passed : ∀ l, T l = (s.lefts.get? l).bind (Counted.passing rule)

/-- Before any tuple came nothing passes. -/
theorem InStep.empty (rule : ExistsRule) :
    InStep rule (Exists.empty rule.joiner.relation) Tuples.none Tuples.none Tuples.none where
  left := Indexed.empty _ _
  right := Indexed.empty _ _
  counts _ _ h := by cases h
  passed _ := rfl

variable {rule : ExistsRule} {s s' : Exists} {L R T : Tuples} {out : List Delta}

/-- A live left tuple is counted. -/
theorem InStep.counted (h : s.InStep rule L R T) {l : TupleId} {a : Value} (hl : L l = some a) :
    ∃ c, s.lefts.get? l = some c ∧ c.tuple = a := by
  obtain ⟨k, hkept, -⟩ := h.left.kept_of_live hl
  obtain ⟨c, hc, heq⟩ := Option.map_eq_some_iff.1 hkept
  exact ⟨c, hc, congrArg Keyed.tuple heq⟩

/-- What is counted is live on the left. -/
theorem InStep.live (h : s.InStep rule L R T) {l : TupleId} {c : Counted}
    (hc : s.lefts.get? l = some c) : L l = some c.tuple :=
  h.left.live_of_kept (a := c.keyed) (by rw [hc]; rfl)

/-- A left tuple that goes no longer passes. -/
theorem InStep.removeLeft (h : s.InStep rule L R T) {l : TupleId} (hl : L l ≠ none)
    (hrem : s.removeLeft rule l = (s', out)) :
    ∃ T', Leads T out T' ∧ s'.InStep rule (Function.update L l none) R T' ∧
      ∀ d ∈ out, d.IsRetract := by
  obtain ⟨a, ha⟩ := Option.ne_none_iff_exists'.1 hl
  obtain ⟨c, hc, rfl⟩ := h.counted ha
  have hT : T l = c.passing rule := by rw [h.passed, hc]; rfl
  rw [Exists.removeLeft, hc] at hrem
  cases hrem
  refine ⟨Function.update T l none, ?_, ⟨?_, h.right, ?_, ?_⟩, ?_⟩
  · by_cases hp : passes rule c.matchCount = true
    · rw [if_pos hp]
      refine Leads.single (d := retract l) ?_
      simp [Fits, hT, Counted.passing, hp]
    · rw [if_neg hp, leads_nil]
      have hnone : T l = none := by simp [hT, Counted.passing, hp]
      rw [← hnone, Function.update_eq_self]
  · convert h.left.remove (i := l) (a := c.keyed) (by rw [hc]; rfl) using 1
    · funext l'
      by_cases hne : l' = l <;> simp [hne]
    · rfl
  · intro l' c' hc'
    rw [Table.get?_erase] at hc'
    split at hc'
    · cases hc'
    · exact h.counts l' c' hc'
  · intro l'
    by_cases hne : l' = l
    · simp [hne]
    · simp [hne, h.passed]
  · split <;> simp [IsRetract]

/-- The candidates that match are counted. -/
theorem countMatches_eq (h : Indexed rule.joiner .right s.rights.get? s.rightIndex R) {a : Value}
    {rs : List TupleId} {n : Nat} (hrs : rs.Nodup) (hok : s.countMatches rule a rs = .ok n) :
    ∃ ms : List TupleId, ms.Nodup ∧ ms.length = n ∧
      ∀ r, r ∈ ms ↔ r ∈ rs ∧ ∃ b, R r = some b ∧ rule.joiner.matching a b = .ok true := by
  induction rs generalizing n with
  | nil =>
    cases hok
    exact ⟨[], by simp⟩
  | cons r rs ih =>
    obtain ⟨hr, hrs⟩ := List.nodup_cons.1 hrs
    rw [countMatches] at hok
    cases hget : s.rights.get? r with
    | none =>
      rw [hget] at hok
      obtain ⟨ms, hnodup, hlength, hms⟩ := ih hrs hok
      have hR : R r = none := by rw [← h.tuple r, hget]; rfl
      refine ⟨ms, hnodup, hlength, fun r' => ?_⟩
      rw [hms, List.mem_cons]
      by_cases hr' : r' = r
      · subst hr'
        simp [hR]
      · simp [hr']
    | some b =>
      rw [hget] at hok
      simp only [bind_eq_ok_iff, pure_eq_ok_iff] at hok
      obtain ⟨m, hm, k, hk, rfl⟩ := hok
      obtain ⟨ms, hnodup, rfl, hms⟩ := ih hrs hk
      have hR := h.live_of_kept hget
      cases m with
      | true =>
        refine ⟨r :: ms, List.nodup_cons.2 ⟨fun hmem => hr ((hms r).1 hmem).1, hnodup⟩, rfl,
          fun r' => ?_⟩
        rw [List.mem_cons, List.mem_cons, hms]
        by_cases hr' : r' = r
        · subst hr'
          simp [hR, hm]
        · simp [hr']
      | false =>
        refine ⟨ms, hnodup, rfl, fun r' => ?_⟩
        rw [hms, List.mem_cons]
        by_cases hr' : r' = r
        · subst hr'
          simp [hR, hm, hr]
        · simp [hr']

/-- A left tuple that comes passes if its matches say so. -/
theorem InStep.insertLeft (h : s.InStep rule L R T) {l : TupleId} {a : Value} (hl : L l = none)
    (hok : s.insertLeft rule l a = .ok (s', out)) :
    ∃ T', Leads T out T' ∧ s'.InStep rule (Function.update L l (some a)) R T' ∧
      ∀ d ∈ out, d.IsInsert := by
  simp only [Exists.insertLeft, bind_eq_ok_iff, pure_eq_ok_iff] at hok
  obtain ⟨k, hk, n, hn, hpure⟩ := hok
  cases hpure
  obtain ⟨ms, hnodup, hlength, hms⟩ :=
    countMatches_eq h.right (h.right.holds.nodup_lookup _ _) hn
  have hcounts : Counts rule.joiner R a n := by
    refine ⟨ms, hnodup, hlength, fun r => ?_⟩
    rw [hms]
    constructor
    · exact And.right
    · rintro ⟨b, hb, hm⟩
      exact ⟨h.right.mem_of_left hb hm hk, b, hb, hm⟩
  have hnone : s.lefts.get? l = none := Option.map_eq_none_iff.1 (h.left.kept_eq_none hl)
  have hT : T l = none := by rw [h.passed, hnone]; rfl
  refine ⟨Function.update T l (Counted.passing rule ⟨k, a, n⟩), ?_, ⟨?_, h.right, ?_, ?_⟩, ?_⟩
  · by_cases hp : passes rule n = true
    · rw [if_pos hp, Counted.passing, if_pos hp]
      exact Leads.single (d := insert l a) hT
    · rw [if_neg hp, Counted.passing, if_neg hp, leads_nil, ← hT, Function.update_eq_self]
  · convert h.left.insert (a := a) hl hk using 1
    funext l'
    by_cases hne : l' = l
    · simp [hne, Counted.keyed]
    · simp [hne]
  · intro l' c' hc'
    rw [Table.get?_set] at hc'
    split at hc'
    · cases hc'
      exact hcounts
    · exact h.counts l' c' hc'
  · intro l'
    by_cases hne : l' = l
    · simp [hne]
    · simp [hne, h.passed]
  · split <;> simp [IsInsert]

/-- While the left tuples win or lose a match, those that remain are counted as before. -/
structure Adjusting (rule : ExistsRule) (s : Exists) (L R R' : Tuples) (ls : List TupleId)
    (T : Tuples) : Prop where
  /-- The left tuples are held. -/
  left : Indexed rule.joiner .left (fun l => (s.lefts.get? l).map Counted.keyed) s.leftIndex L
  /-- The matches are counted, of those that remain among the former tuples. -/
  counts : ∀ l c, s.lefts.get? l = some c →
    Counts rule.joiner (if l ∈ ls then R else R') c.tuple c.matchCount
  /-- What passes is live. -/
  passed : ∀ l, T l = (s.lefts.get? l).bind (Counted.passing rule)

/-- The counts that a right tuple that comes or goes brings about. -/
def Turns (j : Joiner) (R R' : Tuples) (b : Value) (more : Bool) : Prop :=
  ∀ a n, Counts j R a n →
    if j.matching a b = .ok true then Counts j R' a (if more then n + 1 else n - 1)
    else Counts j R' a n

/-- A right tuple that comes is one match more for those it matches. -/
theorem turns_more {j : Joiner} {R : Tuples} {r : TupleId} {b : Value} (hr : R r = none) :
    Turns j R (Function.update R r (some b)) b true := by
  intro a n h
  split
  · rename_i hm
    exact h.succ hr hm
  · rename_i hm
    exact h.of_not_match (by simp [hr]) fun b' hb' => by cases hb'; exact hm

/-- A right tuple that goes is one match less for those it matches. -/
theorem turns_less {j : Joiner} {R : Tuples} {r : TupleId} {b : Value} (hr : R r = some b) :
    Turns j R (Function.update R r none) b false := by
  intro a n h
  split
  · rename_i hm
    exact h.pred hr hm
  · rename_i hm
    refine h.of_not_match (fun b' hb' => ?_) (by simp)
    obtain rfl := Option.some.inj (hr.symm.trans hb')
    exact hm

/-- What a left tuple whose count changes gives out. -/
def recount (rule : ExistsRule) (c : Counted) (n : Nat) (l : TupleId) : List Delta :=
  match passes rule c.matchCount, passes rule n with
  | true, false => [retract l]
  | false, true => [insert l c.tuple]
  | _, _ => []

/-- What passes of a left tuple whose count changes goes, comes or stays. -/
theorem leads_recount {c : Counted} {n : Nat} {l : TupleId} (hT : T l = c.passing rule) :
    Leads T (recount rule c n l)
      (Function.update T l (Counted.passing rule { c with matchCount := n })) := by
  unfold recount Counted.passing at *
  cases hold : passes rule c.matchCount <;> cases hnew : passes rule n <;> rw [hold] at hT
  · simpa using hT
  · exact Leads.single (d := insert l c.tuple) hT
  · exact Leads.single (d := retract l) (by simp [Fits, hT])
  · simpa using hT

/-- With one match more or less what passes on a match does not change the other way. -/
theorem mem_recount {c : Counted} {l : TupleId} {more : Bool} {d : Delta}
    (hd : d ∈ recount rule c (if more then c.matchCount + 1 else c.matchCount - 1) l) :
    d.id = l ∧ (rule.shouldExist = true → if more then d.IsInsert else d.IsRetract) := by
  unfold recount at hd
  split at hd
  · rename_i hold hnew
    obtain rfl := List.mem_singleton.1 hd
    refine ⟨rfl, fun hs => ?_⟩
    cases more with
    | true => simp [passes, hs] at hold hnew
    | false => trivial
  · rename_i hold hnew
    obtain rfl := List.mem_singleton.1 hd
    refine ⟨rfl, fun hs => ?_⟩
    cases more with
    | true => trivial
    | false =>
      simp only [passes, hs, beq_true, decide_eq_false_iff_not, decide_eq_true_eq, Bool.false_eq_true,
        if_false] at hold hnew
      omega
  · simp at hd

/-- A left tuple that matches is counted anew. -/
theorem adjustOne_eq {l : TupleId} {b : Value} {more : Bool} {c : Counted} (hget : s.lefts.get? l = some c)
    (hm : rule.joiner.matching c.tuple b = .ok true) (hok : s.adjustOne rule b more l = .ok (s', out)) :
    let n := if more then c.matchCount + 1 else c.matchCount - 1
    s' = { s with lefts := s.lefts.set l { c with matchCount := n } } ∧ out = recount rule c n l := by
  intro n
  unfold adjustOne at hok
  rw [hget] at hok
  simp only [hm, bind_eq_ok_iff, Except.ok.injEq, exists_eq_left', if_true] at hok
  unfold recount
  split at hok <;> cases pure_eq_ok_iff.1 hok <;> simp [*, n]

/-- One left tuple wins or loses a match, if it matches. -/
theorem Adjusting.one {R' : Tuples} {l : TupleId} {ls : List TupleId} {b : Value} {more : Bool}
    (h : s.Adjusting rule L R R' (l :: ls) T) (hl : l ∉ ls) (ht : Turns rule.joiner R R' b more)
    (hok : s.adjustOne rule b more l = .ok (s', out)) :
    ∃ T', Leads T out T' ∧ s'.Adjusting rule L R R' ls T' ∧
      s'.leftIndex = s.leftIndex ∧ s'.rights = s.rights ∧ s'.rightIndex = s.rightIndex ∧
      ∀ d ∈ out, L d.id ≠ none ∧
        (rule.shouldExist = true → if more then d.IsInsert else d.IsRetract) := by
  cases hget : s.lefts.get? l with
  | none =>
    rw [adjustOne, hget] at hok
    cases hok
    refine ⟨T, rfl, ⟨h.left, fun l' c' hc' => ?_, h.passed⟩, rfl, rfl, rfl, by simp⟩
    have hne : l' ≠ l := by
      rintro rfl
      rw [hget] at hc'
      cases hc'
    simpa [hne] using h.counts l' c' hc'
  | some c =>
    have hcount : Counts rule.joiner R c.tuple c.matchCount := by simpa using h.counts l c hget
    have hturn := ht _ _ hcount
    have hrun := hok
    rw [adjustOne, hget] at hrun
    obtain ⟨m, hm, hrun⟩ := bind_eq_ok_iff.1 hrun
    cases m with
    | false =>
      cases pure_eq_ok_iff.1 hrun
      refine ⟨T, rfl, ⟨h.left, fun l' c' hc' => ?_, h.passed⟩, rfl, rfl, rfl, by simp⟩
      by_cases hne : l' = l
      · subst hne
        obtain rfl := Option.some.inj (hget.symm.trans hc')
        simpa [hl, hm] using hturn
      · simpa [hne] using h.counts l' c' hc'
    | true =>
      obtain ⟨rfl, rfl⟩ := adjustOne_eq hget hm hok
      generalize hn : (if more then c.matchCount + 1 else c.matchCount - 1) = n at hturn
      have hlive : L l = some c.tuple := h.left.live_of_kept (a := c.keyed) (by rw [hget]; rfl)
      refine ⟨_, leads_recount (by rw [h.passed, hget]; rfl), ⟨?_, fun l' c' hc' => ?_, fun l' => ?_⟩,
        rfl, rfl, rfl, fun d hd => ?_⟩
      · convert h.left using 1
        funext l'
        by_cases hne : l' = l
        · simp [hne, hget, Counted.keyed]
        · simp [hne]
      · rw [Table.get?_set] at hc'
        split at hc'
        · rename_i hne
          subst hne
          cases hc'
          simpa [hl, hm] using hturn
        · rename_i hne
          simpa [hne] using h.counts l' c' hc'
      · by_cases hne : l' = l
        · simp [hne]
        · simp [hne, h.passed]
      · obtain ⟨hid, hkind⟩ := mem_recount (hn ▸ hd)
        exact ⟨by simp [hid, hlive], hkind⟩

/-- The left tuples win or lose a match one by one, those that match. -/
theorem Adjusting.all {R' : Tuples} {ls : List TupleId} {b : Value} {more : Bool}
    (h : s.Adjusting rule L R R' ls T) (hls : ls.Nodup) (ht : Turns rule.joiner R R' b more)
    (hok : feed (adjustOne rule b more) s ls = .ok (s', out)) :
    ∃ T', Leads T out T' ∧ s'.Adjusting rule L R R' [] T' ∧
      s'.leftIndex = s.leftIndex ∧ s'.rights = s.rights ∧ s'.rightIndex = s.rightIndex ∧
      ∀ d ∈ out, L d.id ≠ none ∧
        (rule.shouldExist = true → if more then d.IsInsert else d.IsRetract) := by
  induction ls generalizing s T out with
  | nil =>
    cases hok
    exact ⟨T, rfl, h, rfl, rfl, rfl, by simp⟩
  | cons l ls ih =>
    obtain ⟨t, first, rest, h1, h2, rfl⟩ := feed_cons_eq_ok_iff.1 hok
    obtain ⟨hl, hls⟩ := List.nodup_cons.1 hls
    obtain ⟨U, hU, hadj, hx, hrights, hrightIndex, hfirst⟩ := h.one hl ht h1
    obtain ⟨T', hT', hadj', hx', hrights', hrightIndex', hrest⟩ := ih hadj hls h2
    refine ⟨T', hU.append hT', hadj', hx'.trans hx, hrights'.trans hrights,
      hrightIndex'.trans hrightIndex, fun d hd => ?_⟩
    rcases List.mem_append.1 hd with hd | hd
    · exact hfirst d hd
    · exact hrest d hd

/-- The left tuples that match a right tuple win or lose a match. -/
theorem InStep.adjust (h : s.InStep rule L R T) {R' : Tuples} {k b : Value} {more : Bool}
    (hk : rule.joiner.rightKey b = .ok k) (ht : Turns rule.joiner R R' b more) {t : Exists}
    (hlefts : t.lefts = s.lefts) (hx : t.leftIndex = s.leftIndex)
    (hok : t.adjust rule k b more = .ok (s', out)) :
    ∃ T', Leads T out T' ∧ s'.Adjusting rule L R R' [] T' ∧
      s'.leftIndex = s.leftIndex ∧ s'.rights = t.rights ∧ s'.rightIndex = t.rightIndex ∧
      ∀ d ∈ out, L d.id ≠ none ∧
        (rule.shouldExist = true → if more then d.IsInsert else d.IsRetract) := by
  let ls := s.leftIndex.lookup k (rule.joiner.overlapBound k)
  have hadj : t.Adjusting rule L R R' ls T := by
    refine ⟨by rw [hlefts, hx]; exact h.left, fun l c hc => ?_, fun l => by rw [hlefts, h.passed]⟩
    rw [hlefts] at hc
    have hcount := h.counts l c hc
    split
    · exact hcount
    · rename_i hl
      have hturn := ht _ _ hcount
      rwa [if_neg fun hm => hl (h.left.mem_of_right (h.live hc) hm hk)] at hturn
  rw [Exists.adjust, hx] at hok
  obtain ⟨T', hT', hadj', hx', hrest⟩ := hadj.all (h.left.holds.nodup_lookup _ _) ht hok
  exact ⟨T', hT', hadj', hx'.trans hx, hrest⟩

/-- A right tuple that goes is a match less for the left tuples it matches. -/
theorem InStep.removeRight (h : s.InStep rule L R T) {r : TupleId} (hr : R r ≠ none)
    (hok : s.removeRight rule r = .ok (s', out)) :
    ∃ T', Leads T out T' ∧ s'.InStep rule L (Function.update R r none) T' ∧
      ∀ d ∈ out, rule.shouldExist = true → d.IsRetract := by
  obtain ⟨b, hb⟩ := Option.ne_none_iff_exists'.1 hr
  obtain ⟨k, hkept, hk⟩ := h.right.kept_of_live hb
  rw [Exists.removeRight, hkept] at hok
  obtain ⟨T', hT', hadj, hx, hrights, hrightIndex, hout⟩ :=
    h.adjust (t := { s with rights := s.rights.erase r, rightIndex := s.rightIndex.remove k r })
      hk (turns_less hb) rfl rfl hok
  refine ⟨T', hT', ⟨hadj.left, ?_, ?_, hadj.passed⟩, fun d hd => (hout d hd).2⟩
  · rw [hrights, hrightIndex, Table.get?_erase_eq]
    exact h.right.remove hkept
  · intro l c hc
    simpa using hadj.counts l c hc

/-- A right tuple that comes is a match more for the left tuples it matches. -/
theorem InStep.insertRight (h : s.InStep rule L R T) {r : TupleId} {b : Value} (hr : R r = none)
    (hok : s.insertRight rule r b = .ok (s', out)) :
    ∃ T', Leads T out T' ∧ s'.InStep rule L (Function.update R r (some b)) T' ∧
      ∀ d ∈ out, L d.id ≠ none ∧ (rule.shouldExist = true → d.IsInsert) := by
  simp only [Exists.insertRight, bind_eq_ok_iff, pure_eq_ok_iff] at hok
  obtain ⟨k, hk, ⟨t, more⟩, hadjust, hpure⟩ := hok
  cases hpure
  obtain ⟨T', hT', hadj, hx, hrights, hrightIndex, hout⟩ :=
    h.adjust hk (turns_more hr) rfl rfl hadjust
  refine ⟨T', hT', ⟨hadj.left, ?_, ?_, hadj.passed⟩, hout⟩
  · dsimp only
    rw [hrights, hrightIndex, Table.get?_set_eq]
    exact h.right.insert hr hk
  · intro l c hc
    simpa using hadj.counts l c hc

/-- A batch in which both sides are orderly brings the test up to both sides. -/
theorem InStep.process (h : s.InStep rule L R T) {left right : List Delta} {L' R' : Tuples}
    (hL : Leads L left L') (hR : Leads R right R') (hl : Orderly left) (hr : Orderly right)
    (hok : s.process rule left right = .ok (s', out)) :
    ∃ T', Leads T out T' ∧ s'.InStep rule L' R' T' ∧
      ∃ gone less come more, out = gone ++ less ++ come ++ more ∧
        (∀ d ∈ gone, d.IsRetract) ∧ (∀ d ∈ less, rule.shouldExist = true → d.IsRetract) ∧
        (∀ d ∈ come, d.IsInsert) ∧
        (∀ d ∈ more, L' d.id ≠ none ∧ (rule.shouldExist = true → d.IsInsert)) ∧
        (removals left = [] → gone = []) ∧ (removals right = [] → less = []) ∧
        (insertions left = [] → come = []) ∧ (insertions right = [] → more = []) := by
  obtain ⟨L1, hL1, hL2⟩ := leads_append.1 (hL.taken_out_first hl)
  obtain ⟨R1, hR1, hR2⟩ := leads_append.1 (hR.taken_out_first hr)
  simp only [Exists.process, bind_eq_ok_iff, pure_eq_ok_iff] at hok
  obtain ⟨⟨s1, out1⟩, h1, ⟨s2, out2⟩, h2, ⟨s3, out3⟩, h3, ⟨s4, out4⟩, h4, hpure⟩ := hok
  cases hpure
  obtain ⟨T1, hT1, hs1, hout1⟩ := feed_leads (P := fun s L T => s.InStep rule L R T) retract
    (fun s L T l s' out _ hs hfit hok => hs.removeLeft hfit (Except.ok.inj hok)) h hL1 h1
  obtain ⟨T2, hT2, hs2, hout2⟩ := feed_leads (P := fun s R T => s.InStep rule L1 R T) retract
    (fun s R T r s' out _ hs hfit hok => hs.removeRight hfit hok) hs1 hR1 h2
  obtain ⟨T3, hT3, hs3, hout3⟩ := feed_leads (P := fun s L T => s.InStep rule L R1 T)
    (fun e => insert e.1 e.2) (fun s L T e s' out _ hs hfit hok => hs.insertLeft hfit hok) hs2 hL2 h3
  obtain ⟨T4, hT4, hs4, hout4⟩ := feed_leads (P := fun s R T => s.InStep rule L' R T)
    (fun e => insert e.1 e.2) (fun s R T e s' out _ hs hfit hok => hs.insertRight hfit hok) hs3 hR2 h4
  refine ⟨T4, ((hT1.append hT2).append hT3).append hT4, hs4, out1, out2, out3, out4, rfl, hout1, hout2,
    hout3, hout4, ?_, ?_, ?_, ?_⟩
  · intro hnil
    rw [hnil] at h1
    cases h1
    rfl
  · intro hnil
    rw [hnil] at h2
    cases h2
    rfl
  · intro hnil
    rw [hnil] at h3
    cases h3
    rfl
  · intro hnil
    rw [hnil] at h4
    cases h4
    rfl

end Exists

end Planning
