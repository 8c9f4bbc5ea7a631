import Planning.Proofs.Graph.Complement
import Planning.Proofs.Graph.Exists
import Planning.Proofs.Graph.Join

/-!
# Histories of batches

A node with two streams is fed with one batch of deltas of each, time after time. What it gives out then leads from
nothing to live tuples that depend on the live tuples of both streams alone: joined tuples are those of two nested
loops, a test lets pass the left tuples that it should, and complementing makes a tuple for just those elements whose
key is not carried.
-/

namespace Planning

open Checked Delta

/-- The batches of two streams at one time. -/
abbrev Batch := List Delta × List Delta

/-- Batches in order, all of some kind, that lead from the live tuples of two streams to others. -/
inductive History (Fine : List Delta → Prop) : Tuples → Tuples → List Batch → Tuples → Tuples → Prop where
  /-- Nothing happens. -/
  | nil {L R : Tuples} : History Fine L R [] L R
  /-- A batch of each stream comes before the others. -/
  | cons {L L₁ L₂ R R₁ R₂ : Tuples} {left right : List Delta} {batches : List Batch} (hL : Leads L left L₁)
    (hR : Leads R right R₁) (hleft : Fine left) (hright : Fine right) (h : History Fine L₁ R₁ batches L₂ R₂) :
    History Fine L R ((left, right) :: batches) L₂ R₂

/-- What a node keeps with each pair of batches it keeps throughout a history, and what it gives out leads on. -/
theorem History.feed {σ : Type} {Fine : List Delta → Prop} {P : σ → Tuples → Tuples → Tuples → Prop}
    {step : σ → Batch → Checked (σ × List Delta)} {L R L' R' : Tuples} {batches : List Batch}
    (hstep : ∀ {s L R T left right L' R' s' out}, P s L R T → Leads L left L' → Leads R right R' → Fine left →
      Fine right → step s (left, right) = .ok (s', out) → ∃ T', Leads T out T' ∧ P s' L' R' T')
    (h : History Fine L R batches L' R') {s s' : σ} {T : Tuples} {out : List Delta} (hP : P s L R T)
    (hok : Planning.feed step s batches = .ok (s', out)) : ∃ T', Leads T out T' ∧ P s' L' R' T' := by
  induction h generalizing s T out with
  | nil =>
    cases hok
    exact ⟨T, rfl, hP⟩
  | cons hL hR hleft hright _ ih =>
    obtain ⟨t, first, rest, h₁, h₂, rfl⟩ := feed_cons_eq_ok_iff.1 hok
    obtain ⟨T₁, hT₁, hP₁⟩ := hstep hP hL hR hleft hright h₁
    obtain ⟨T₂, hT₂, hP₂⟩ := ih hP₁ h₂
    exact ⟨T₂, hT₁.append hT₂, hP₂⟩

/-- A history of one stream, taken as both sides: two tuples come, and then one changes and the other is made anew. -/
def renewal : List Batch :=
  [[.insert 0 (.int 3), .insert 1 (.int 3)], [.retract 0, .insert 0 (.int 4), .update 1 (.int 4)]].map fun b => (b, b)

/-- The renewal is a history of orderly batches. -/
theorem history_renewal : ∃ L, History Orderly Tuples.none Tuples.none renewal L L := by
  refine ⟨_, .cons ⟨rfl, rfl, rfl⟩ ⟨rfl, rfl, rfl⟩ ?_ ?_
    (.cons ⟨nofun, rfl, nofun, rfl⟩ ⟨nofun, rfl, nofun, rfl⟩ ?_ ?_ .nil)⟩
  · simp [Orderly, Delta.id]
  · simp [Orderly, Delta.id]
  · simp [Orderly, Delta.id, IsRetract, IsInsert]
  · simp [Orderly, Delta.id, IsRetract, IsInsert]

/-- A step that always answers can be taken for all items. -/
theorem exists_feed {σ ι ο : Type} (step : σ → ι → Checked (σ × List ο))
    (hstep : ∀ s i, ∃ r, step s i = .ok r) (items : List ι) (s : σ) : ∃ r, feed step s items = .ok r := by
  induction items generalizing s with
  | nil => exact ⟨_, rfl⟩
  | cons i items ih =>
    obtain ⟨⟨t, first⟩, h₁⟩ := hstep s i
    obtain ⟨⟨u, rest⟩, h₂⟩ := ih t
    exact ⟨_, feed_cons_eq_ok_iff.2 ⟨t, first, rest, h₁, h₂, rfl⟩⟩

/-- A joiner whose keys and whose matches are defined for all tuples. -/
structure Joiner.Total (j : Joiner) : Prop where
  /-- Each left tuple has a key. -/
  left : ∀ a, ∃ k, j.leftKey a = .ok k
  /-- Each right tuple has a key. -/
  right : ∀ b, ∃ k, j.rightKey b = .ok k
  /-- Any two tuples match or do not. -/
  pair : ∀ a b, ∃ m, j.matching a b = .ok m

/-- Tuples are their own keys. -/
theorem Joiner.total_equal : (Joiner.equal .ok).Total where
  left a := ⟨a, rfl⟩
  right b := ⟨b, rfl⟩
  pair a b := ⟨a == b, rfl⟩

namespace Join

variable {rule : JoinRule} {L R T : Tuples} {batches : List Batch}

/-- The live tuples are those of two nested loops: each pair of a left and a right tuple that belong together, in
order where pairs are unique, has a tuple of its own, and nothing else is live. -/
structure NestedLoops (rule : JoinRule) (L R T : Tuples) (name : TupleId → TupleId → Option TupleId) : Prop where
  /-- A pair has a tuple when it belongs together. -/
  joined : ∀ l r, (∃ id, name l r = some id) ↔ ∃ a b, L l = some a ∧ R r = some b ∧
    (rule.uniquePairs = true → l < r) ∧ rule.joiner.matching a b = .ok true
  /-- The tuple of a pair is live. -/
  live : ∀ l r id a b, name l r = some id → L l = some a → R r = some b → T id = some (rule.combine a b)
  /-- A live tuple is that of a pair. -/
  owner : ∀ id, T id ≠ none → ∃ l r, name l r = some id
  /-- Two pairs have no tuple in common. -/
  apart : ∀ l r l' r' id, name l r = some id → name l' r' = some id → l = l' ∧ r = r'

/-- A join in step with its sides has joined what nested loops do. -/
theorem InStep.nestedLoops {s : Join} (h : s.InStep rule L R T) :
    NestedLoops rule L R T fun l r => s.pairs.get? (l, r) where
  joined l r := by
    constructor
    · rintro ⟨id, hid⟩
      obtain ⟨-, hsome, -⟩ := h.pairs.named.tuple _ _ hid
      obtain ⟨a, b, ha, hb, hm⟩ := JoinRule.live_of_pair hsome
      rw [JoinRule.pair_of_live ha hb] at hsome
      by_contra hnot
      exact hsome (if_neg fun hc => hnot ⟨a, b, ha, hb, hc⟩)
    · rintro ⟨a, b, ha, hb, hc⟩
      refine h.pairs.named.named (l, r) ?_
      rw [JoinRule.pair_of_live ha hb, if_pos hc]
      exact Option.some_ne_none _
  live l r id a b hid ha hb := by
    obtain ⟨htuple, hsome, -⟩ := h.pairs.named.tuple _ _ hid
    rw [JoinRule.pair_of_live ha hb] at htuple hsome
    rw [htuple]
    by_contra hne
    exact hne (if_pos (by_contra fun hc => hsome (if_neg hc)))
  owner id hid := by
    obtain ⟨⟨l, r⟩, hq⟩ := h.pairs.named.owner id hid
    exact ⟨l, r, hq⟩
  apart l r l' r' id h₁ h₂ := Prod.mk.inj (h.pairs.named.inj _ _ _ h₁ h₂)

/-- Where matches are defined two tuples can be considered. -/
theorem exists_tryPair (hj : rule.joiner.Total) (s : Join) (l r : TupleId) (a b : Value) :
    ∃ p, s.tryPair rule l r a b = .ok p := by
  obtain ⟨m, hm⟩ := hj.pair a b
  rw [tryPair, hm]
  split
  · exact ⟨_, rfl⟩
  · cases m <;> exact ⟨_, rfl⟩

/-- Where keys and matches are defined a left tuple can come. -/
theorem exists_insertLeft (hj : rule.joiner.Total) (s : Join) (l : TupleId) (a : Value) :
    ∃ p, s.insertLeft rule l a = .ok p := by
  obtain ⟨k, hk⟩ := hj.left a
  have htry : ∀ (t : Join) (q : TupleId × TupleId), ∃ p, t.tryRight rule a q = .ok p := by
    intro t q
    unfold tryRight
    split
    · exact exists_tryPair hj t _ _ _ _
    · exact ⟨_, rfl⟩
  obtain ⟨⟨t, out⟩, hfeed⟩ := exists_feed _ htry
    ((s.rightIndex.lookup k (rule.joiner.overlapBound k)).map fun r => (l, r)) s
  rw [feed_map] at hfeed
  exact ⟨_, bind_eq_ok_iff.2 ⟨k, hk, bind_eq_ok_iff.2 ⟨(t, out), hfeed, rfl⟩⟩⟩

/-- Where keys and matches are defined a right tuple can come. -/
theorem exists_insertRight (hj : rule.joiner.Total) (s : Join) (r : TupleId) (b : Value) :
    ∃ p, s.insertRight rule r b = .ok p := by
  obtain ⟨k, hk⟩ := hj.right b
  have htry : ∀ (t : Join) (q : TupleId × TupleId), ∃ p, t.tryLeft rule b q = .ok p := by
    intro t q
    unfold tryLeft
    split
    · exact exists_tryPair hj t _ _ _ _
    · exact ⟨_, rfl⟩
  obtain ⟨⟨t, out⟩, hfeed⟩ := exists_feed _ htry
    ((s.leftIndex.lookup k (rule.joiner.overlapBound k)).map fun l => (l, r)) s
  rw [feed_map] at hfeed
  exact ⟨_, bind_eq_ok_iff.2 ⟨k, hk, bind_eq_ok_iff.2 ⟨(t, out), hfeed, rfl⟩⟩⟩

/-- Where keys and matches are defined a pair of batches is answered. -/
theorem exists_process (hj : rule.joiner.Total) (s : Join) (b : Batch) : ∃ p, s.process rule b.1 b.2 = .ok p := by
  obtain ⟨⟨s₁, out₁⟩, h₁⟩ :=
    exists_feed (fun (s : Join) l => .ok (s.removeLeft l)) (fun _ _ => ⟨_, rfl⟩) (removals b.1) s
  obtain ⟨⟨s₂, out₂⟩, h₂⟩ :=
    exists_feed (fun (s : Join) r => .ok (s.removeRight r)) (fun _ _ => ⟨_, rfl⟩) (removals b.2) s₁
  obtain ⟨⟨s₃, out₃⟩, h₃⟩ := exists_feed (fun (s : Join) (e : TupleId × Value) => s.insertLeft rule e.1 e.2)
    (fun s e => exists_insertLeft hj s e.1 e.2) (insertions b.1) s₂
  obtain ⟨⟨s₄, out₄⟩, h₄⟩ := exists_feed (fun (s : Join) (e : TupleId × Value) => s.insertRight rule e.1 e.2)
    (fun s e => exists_insertRight hj s e.1 e.2) (insertions b.2) s₃
  refine ⟨(s₄, out₁ ++ out₂ ++ out₃ ++ out₄), ?_⟩
  simp only [Join.process, bind_eq_ok_iff, pure_eq_ok_iff]
  exact ⟨_, h₁, _, h₂, _, h₃, _, h₄, rfl⟩

/-- Fed with a history of orderly batches a join gives out deltas that lead from nothing to what nested loops join;
where keys and matches are defined it always answers. -/
theorem nestedLoops_of_history (rule : JoinRule) {batches : List Batch} {L R : Tuples}
    (h : History Orderly Tuples.none Tuples.none batches L R) :
    (∀ s out, feed (fun s b => s.process rule b.1 b.2) (Join.empty rule.joiner.relation) batches = .ok (s, out) →
      ∃ T name, Leads Tuples.none out T ∧ NestedLoops rule L R T name) ∧
    (rule.joiner.Total →
      ∃ p, feed (fun s b => s.process rule b.1 b.2) (Join.empty rule.joiner.relation) batches = .ok p) := by
  refine ⟨fun s out hok => ?_, fun hj => exists_feed _ (exists_process hj) _ _⟩
  obtain ⟨T, hT, hs⟩ := h.feed (P := fun s L R T => s.InStep rule L R T)
    (fun hs hL hR hleft hright hok => by
      obtain ⟨T', hT', hs', -⟩ := hs.process hL hR hleft hright hok
      exact ⟨T', hT', hs'⟩) (InStep.empty rule) hok
  exact ⟨T, _, hT, hs.nestedLoops⟩

theorem nestedLoops_of_renewal :
    ∃ L s out T name, History Orderly Tuples.none Tuples.none renewal L L ∧
      feed (fun s b => s.process ⟨.equal .ok, .pair, true⟩ b.1 b.2) (Join.empty .equal) renewal = .ok (s, out) ∧
      Leads Tuples.none out T ∧ NestedLoops ⟨.equal .ok, .pair, true⟩ L L T name := by
  obtain ⟨L, h⟩ := history_renewal
  obtain ⟨hloops, htotal⟩ := nestedLoops_of_history ⟨.equal .ok, .pair, true⟩ h
  obtain ⟨⟨s, out⟩, hok⟩ := htotal Joiner.total_equal
  obtain ⟨T, name, hT, hname⟩ := hloops s out hok
  exact ⟨L, s, out, T, name, h, hok, hT, hname⟩

end Join

namespace Exists

variable {rule : ExistsRule} {L R T : Tuples} {batches : List Batch}

/-- Each live left tuple is held with the number of its matches, and the live tuples are the left ones that should
pass, under their own identities. -/
structure Tests (rule : ExistsRule) (s : Exists) (L R T : Tuples) : Prop where
  /-- The left tuples are held. -/
  held : ∀ l a, L l = some a ↔ ∃ c, s.lefts.get? l = some c ∧ c.tuple = a
  /-- The matches are counted. -/
  counts : ∀ l c, s.lefts.get? l = some c → Counts rule.joiner R c.tuple c.matchCount
  /-- A left tuple passes when it has a match, or when it has none. -/
  passed : ∀ l a, T l = some a ↔
    L l = some a ∧ ((∃ r b, R r = some b ∧ rule.joiner.matching a b = .ok true) ↔ rule.shouldExist = true)

/-- A test in step with its sides counts right and lets the right tuples pass. -/
theorem InStep.tests {s : Exists} (h : s.InStep rule L R T) : s.Tests rule L R T := by
  have hheld : ∀ l a, L l = some a ↔ ∃ c, s.lefts.get? l = some c ∧ c.tuple = a := by
    refine fun l a => ⟨h.counted, ?_⟩
    rintro ⟨c, hc, rfl⟩
    exact h.live hc
  refine ⟨hheld, h.counts, fun l a => ?_⟩
  have hpasses : ∀ c, s.lefts.get? l = some c → (passes rule c.matchCount = true ↔
      ((∃ r b, R r = some b ∧ rule.joiner.matching c.tuple b = .ok true) ↔ rule.shouldExist = true)) := by
    intro c hc
    rw [passes, ← (h.counts l c hc).pos_iff, beq_iff_eq, Bool.eq_iff_iff, decide_eq_true_iff]
  rw [h.passed, hheld, Option.bind_eq_some_iff]
  constructor
  · rintro ⟨c, hc, hpass⟩
    rw [Counted.passing] at hpass
    split at hpass
    · rename_i hp
      obtain rfl := Option.some.inj hpass
      exact ⟨⟨c, hc, rfl⟩, (hpasses c hc).1 hp⟩
    · cases hpass
  · rintro ⟨⟨c, hc, rfl⟩, hshould⟩
    exact ⟨c, hc, if_pos ((hpasses c hc).2 hshould)⟩

/-- Where matches are defined a left tuple can win or lose a match. -/
theorem exists_adjustOne (hj : rule.joiner.Total) (b : Value) (more : Bool) (s : Exists) (l : TupleId) :
    ∃ p, s.adjustOne rule b more l = .ok p := by
  unfold adjustOne
  split
  · exact ⟨_, rfl⟩
  · rename_i a _
    obtain ⟨m, hm⟩ := hj.pair a.tuple b
    rw [hm]
    cases m
    · exact ⟨_, rfl⟩
    · dsimp only [bind, Except.bind]
      rw [if_pos rfl]
      split <;> exact ⟨_, rfl⟩

/-- Where matches are defined they can be counted. -/
theorem exists_countMatches (hj : rule.joiner.Total) (s : Exists) (a : Value) (rs : List TupleId) :
    ∃ n, s.countMatches rule a rs = .ok n := by
  induction rs with
  | nil => exact ⟨0, rfl⟩
  | cons r rs ih =>
    obtain ⟨n, hn⟩ := ih
    unfold countMatches
    split
    · rename_i b _
      obtain ⟨m, hm⟩ := hj.pair a b.tuple
      rw [hm, hn]
      exact ⟨_, rfl⟩
    · exact ⟨n, hn⟩

/-- Where keys and matches are defined a left tuple can come. -/
theorem exists_insertLeft (hj : rule.joiner.Total) (s : Exists) (l : TupleId) (a : Value) :
    ∃ p, s.insertLeft rule l a = .ok p := by
  obtain ⟨k, hk⟩ := hj.left a
  obtain ⟨n, hn⟩ := exists_countMatches hj s a (s.rightIndex.lookup k (rule.joiner.overlapBound k))
  exact ⟨_, bind_eq_ok_iff.2 ⟨k, hk, bind_eq_ok_iff.2 ⟨n, hn, rfl⟩⟩⟩

/-- Where matches are defined a right tuple can go. -/
theorem exists_removeRight (hj : rule.joiner.Total) (s : Exists) (r : TupleId) :
    ∃ p, s.removeRight rule r = .ok p := by
  unfold removeRight
  split
  · exact ⟨_, rfl⟩
  · exact exists_feed _ (exists_adjustOne hj _ _) _ _

/-- Where keys and matches are defined a right tuple can come. -/
theorem exists_insertRight (hj : rule.joiner.Total) (s : Exists) (r : TupleId) (b : Value) :
    ∃ p, s.insertRight rule r b = .ok p := by
  obtain ⟨k, hk⟩ := hj.right b
  obtain ⟨⟨t, out⟩, hfeed⟩ := exists_feed _ (exists_adjustOne hj b true)
    (s.leftIndex.lookup k (rule.joiner.overlapBound k)) s
  exact ⟨_, bind_eq_ok_iff.2 ⟨k, hk, bind_eq_ok_iff.2 ⟨(t, out), hfeed, rfl⟩⟩⟩

/-- Where keys and matches are defined a pair of batches is answered. -/
theorem exists_process (hj : rule.joiner.Total) (s : Exists) (b : Batch) :
    ∃ p, s.process rule b.1 b.2 = .ok p := by
  obtain ⟨⟨s₁, out₁⟩, h₁⟩ :=
    exists_feed (fun (s : Exists) l => .ok (s.removeLeft rule l)) (fun _ _ => ⟨_, rfl⟩) (removals b.1) s
  obtain ⟨⟨s₂, out₂⟩, h₂⟩ :=
    exists_feed (fun (s : Exists) r => s.removeRight rule r) (exists_removeRight hj) (removals b.2) s₁
  obtain ⟨⟨s₃, out₃⟩, h₃⟩ := exists_feed (fun (s : Exists) (e : TupleId × Value) => s.insertLeft rule e.1 e.2)
    (fun s e => exists_insertLeft hj s e.1 e.2) (insertions b.1) s₂
  obtain ⟨⟨s₄, out₄⟩, h₄⟩ := exists_feed (fun (s : Exists) (e : TupleId × Value) => s.insertRight rule e.1 e.2)
    (fun s e => exists_insertRight hj s e.1 e.2) (insertions b.2) s₃
  refine ⟨(s₄, out₁ ++ out₂ ++ out₃ ++ out₄), ?_⟩
  simp only [Exists.process, bind_eq_ok_iff, pure_eq_ok_iff]
  exact ⟨_, h₁, _, h₂, _, h₃, _, h₄, rfl⟩

/-- Fed with a history of orderly batches an existence test counts the matches of each live left tuple and gives out
deltas that lead from nothing to the tuples that should pass; where keys and matches are defined it always answers. -/
theorem tests_of_history (rule : ExistsRule) {batches : List Batch} {L R : Tuples}
    (h : History Orderly Tuples.none Tuples.none batches L R) :
    (∀ s out, feed (fun s b => s.process rule b.1 b.2) (Exists.empty rule.joiner.relation) batches = .ok (s, out) →
      ∃ T, Leads Tuples.none out T ∧ s.Tests rule L R T) ∧
    (rule.joiner.Total →
      ∃ p, feed (fun s b => s.process rule b.1 b.2) (Exists.empty rule.joiner.relation) batches = .ok p) := by
  refine ⟨fun s out hok => ?_, fun hj => exists_feed _ (exists_process hj) _ _⟩
  obtain ⟨T, hT, hs⟩ := h.feed (P := fun s L R T => s.InStep rule L R T)
    (fun hs hL hR hleft hright hok => by
      obtain ⟨T', hT', hs', -⟩ := hs.process hL hR hleft hright hok
      exact ⟨T', hT', hs'⟩) (InStep.empty rule) hok
  exact ⟨T, hT, hs.tests⟩

theorem tests_of_renewal :
    ∃ L s out T, History Orderly Tuples.none Tuples.none renewal L L ∧
      feed (fun s b => s.process ⟨.equal .ok, false⟩ b.1 b.2) (Exists.empty .equal) renewal = .ok (s, out) ∧
      Leads Tuples.none out T ∧ s.Tests ⟨.equal .ok, false⟩ L L T := by
  obtain ⟨L, h⟩ := history_renewal
  obtain ⟨htests, htotal⟩ := tests_of_history ⟨.equal .ok, false⟩ h
  obtain ⟨⟨s, out⟩, hok⟩ := htotal Joiner.total_equal
  obtain ⟨T, hT, hs⟩ := htests s out hok
  exact ⟨L, s, out, T, h, hok, hT, hs⟩

end Exists

namespace Complement

variable {rule : ComplementRule} {T E U : Tuples} {batches : List Batch}

/-- The live tuples are those of the stream, each once, and one made for each element whose key is not carried. -/
structure Completes (rule : ComplementRule) (T E U : Tuples) (name : TupleId ⊕ TupleId → Option TupleId) : Prop where
  /-- Each live element has a key and what fills its tuple. -/
  element : ∀ e x, E e = some x → ∃ k f, rule.elementKey x = .ok k ∧ rule.fill x = .ok f
  /-- A tuple of the stream is live under its name. -/
  passed : ∀ i t, T i = some t → ∃ id, name (.inl i) = some id ∧ U id = some t
  /-- The tuple made for an element whose key is not carried is live under its name. -/
  made : ∀ e x k f, E e = some x → rule.elementKey x = .ok k → rule.fill x = .ok f → ¬ rule.Carried T k →
    ∃ id, name (.inr e) = some id ∧ U id = some (rule.build k f)
  /-- A live tuple is one of the stream, or one made for an element whose key is not carried. -/
  owner : ∀ id, U id ≠ none → (∃ i, name (.inl i) = some id ∧ T i ≠ none) ∨
    ∃ e x k, name (.inr e) = some id ∧ E e = some x ∧ rule.elementKey x = .ok k ∧ ¬ rule.Carried T k
  /-- Two tuples or elements have no live tuple in common. -/
  apart : ∀ q q' id, name q = some id → name q' = some id → q = q'

/-- The key of an element and what fills its tuple. -/
theorem element_eq_some_iff {x : Value} {k f : Value} :
    rule.element x = some ⟨k, f⟩ ↔ rule.elementKey x = .ok k ∧ rule.fill x = .ok f := by
  unfold ComplementRule.element
  cases hk : rule.elementKey x <;> cases hf : rule.fill x <;> simp

/-- Complementing in step with both streams has made what is lacking. -/
theorem InStep.completes {s : Complement} (h : s.InStep rule T E U) : Completes rule T E U s.name where
  element e x hx := by
    obtain ⟨⟨k, f⟩, hkf⟩ := Option.ne_none_iff_exists'.1 (h.books.element e x hx)
    exact ⟨k, f, element_eq_some_iff.1 hkf⟩
  passed i t ht := by
    have hshown : rule.shown T E (.inl i) = some t := ht
    obtain ⟨id, hid⟩ := h.named.named (.inl i) (by simp [hshown])
    exact ⟨id, hid, (h.named.tuple _ _ hid).1.trans hshown⟩
  made e x k f hx hk hf hnot := by
    have hshown : rule.shown T E (.inr e) = some (rule.build k f) := by
      rw [ComplementRule.shown, hx, Option.bind_some, element_eq_some_iff.2 ⟨hk, hf⟩, Option.bind_some, if_neg hnot]
      rfl
    obtain ⟨id, hid⟩ := h.named.named (.inr e) (by simp [hshown])
    exact ⟨id, hid, (h.named.tuple _ _ hid).1.trans hshown⟩
  owner id hid := by
    obtain ⟨q, hq⟩ := h.named.owner id hid
    obtain ⟨-, hshown, -⟩ := h.named.tuple q id hq
    cases q with
    | inl i => exact .inl ⟨i, hq, hshown⟩
    | inr e =>
      rw [ComplementRule.shown, Option.ne_none_iff_exists'] at hshown
      obtain ⟨v, hv⟩ := hshown
      obtain ⟨⟨k, f⟩, hkf, hmade⟩ := Option.bind_eq_some_iff.1 hv
      obtain ⟨x, hx, hxkf⟩ := Option.bind_eq_some_iff.1 hkf
      split at hmade
      · cases hmade
      · rename_i hnot
        exact .inr ⟨e, x, k, hq, hx, (element_eq_some_iff.1 hxkf).1, hnot⟩
  apart := h.named.inj

/-- Where each element has a key and what fills its tuple a pair of batches is answered. -/
theorem exists_process (hkey : ∀ x, ∃ k, rule.elementKey x = .ok k) (hfill : ∀ x, ∃ f, rule.fill x = .ok f)
    (s : Complement) (b : Batch) : ∃ p, s.process rule b.1 b.2 = .ok p := by
  have hinsert : ∀ (s : Complement) (e : TupleId) (x : Value), ∃ p, s.insertElement rule e x = .ok p := by
    intro s e x
    obtain ⟨k, hk⟩ := hkey x
    obtain ⟨f, hf⟩ := hfill x
    exact ⟨_, bind_eq_ok_iff.2 ⟨k, hk, bind_eq_ok_iff.2 ⟨f, hf, rfl⟩⟩⟩
  have hstep : ∀ (s : Complement) (d : Delta), ∃ p, s.stepElement rule d = .ok p := by
    intro s d
    cases d with
    | insert e x => exact hinsert s e x
    | update e x =>
      obtain ⟨p, hp⟩ := hinsert (s.removeElement e).1 e x
      exact ⟨_, bind_eq_ok_iff.2 ⟨p, hp, rfl⟩⟩
    | retract e => exact ⟨_, rfl⟩
  obtain ⟨⟨s₁, out₁⟩, h₁⟩ :=
    exists_feed (fun (s : Complement) d => .ok (s.stepTuple rule d)) (fun _ _ => ⟨_, rfl⟩) b.1 s
  obtain ⟨⟨s₂, out₂⟩, h₂⟩ := exists_feed (stepElement rule) hstep b.2 s₁
  refine ⟨(s₂, out₁ ++ out₂), ?_⟩
  simp only [Complement.process, bind_eq_ok_iff, pure_eq_ok_iff]
  exact ⟨_, h₁, _, h₂, rfl⟩

/-- Fed with any history complementing gives out deltas that lead from nothing to the tuples of the stream and one
tuple for each element whose key none of them carries; where elements have keys and fills it always answers. -/
theorem completes_of_history (rule : ComplementRule) {batches : List Batch} {T E : Tuples}
    (h : History (fun _ => True) Tuples.none Tuples.none batches T E) :
    (∀ s out, feed (fun s b => s.process rule b.1 b.2) ({} : Complement) batches = .ok (s, out) →
      ∃ U name, Leads Tuples.none out U ∧ Completes rule T E U name) ∧
    ((∀ x, ∃ k, rule.elementKey x = .ok k) → (∀ x, ∃ f, rule.fill x = .ok f) →
      ∃ p, feed (fun s b => s.process rule b.1 b.2) ({} : Complement) batches = .ok p) := by
  refine ⟨fun s out hok => ?_, fun hkey hfill => exists_feed _ (exists_process hkey hfill) _ _⟩
  obtain ⟨U, hU, hs⟩ := h.feed (P := fun s T E U => s.InStep rule T E U)
    (fun hs hT hE _ _ hok => by
      obtain ⟨U', hU', hs', -⟩ := hs.process hT hE hok
      exact ⟨U', hU', hs'⟩) (InStep.empty rule) hok
  exact ⟨U, _, hU, hs.completes⟩

/-- A tuple comes with three elements, two of which share a key that the tuple carries in the end. -/
def handover : List Batch :=
  [([.insert 0 (.int 3)], [.insert 0 (.int 3), .insert 1 (.int 5), .insert 2 (.int 5)]), ([.update 0 (.int 5)], [])]

theorem completes_of_handover :
    ∃ T E s out U name, History (fun _ => True) Tuples.none Tuples.none handover T E ∧
      feed (fun s b => s.process ⟨fun t => t, .ok, fun _ => .ok .null, .pair⟩ b.1 b.2) ({} : Complement) handover =
        .ok (s, out) ∧
      Leads Tuples.none out U ∧ Completes ⟨fun t => t, .ok, fun _ => .ok .null, .pair⟩ T E U name := by
  have h : ∃ T E, History (fun _ => True) Tuples.none Tuples.none handover T E :=
    ⟨_, _, .cons ⟨rfl, rfl⟩ ⟨rfl, rfl, rfl, rfl⟩ trivial trivial (.cons ⟨nofun, rfl⟩ rfl trivial trivial .nil)⟩
  obtain ⟨T, E, h⟩ := h
  obtain ⟨hcompletes, htotal⟩ := completes_of_history ⟨fun t => t, .ok, fun _ => .ok .null, .pair⟩ h
  obtain ⟨⟨s, out⟩, hok⟩ := htotal (fun x => ⟨x, rfl⟩) fun _ => ⟨.null, rfl⟩
  obtain ⟨U, name, hU, hname⟩ := hcompletes s out hok
  exact ⟨T, E, s, out, U, name, h, hok, hU, hname⟩

end Complement

end Planning
