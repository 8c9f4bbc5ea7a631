import Mathlib.Data.Multiset.Filter
import Planning.Proofs.Graph.Joiner

/-!
# Looking up in join indexes

Whatever was put into an index and taken out again, it answers by its entries: how many there are, whether there is a
certain one, and which identities have keys that stand in the relation with a key of the other side. Of intervals it
gives those that start before the bound of the joiner, and those are all that overlap.
-/

namespace Planning

open Checked

/-! ## Keys that stand in a relation -/

namespace JoinRelation

/-- A left and a right key stand in the relation. Intervals do when each starts before the other ends. -/
def Stands (r : JoinRelation) (l k : Value) : Prop :=
  match r with
  | equal => l = k
  | lessThan => l < k
  | lessThanOrEqual => l ≤ k
  | greaterThan => k < l
  | greaterThanOrEqual => k ≤ l
  | overlapping => l.at? 0 < k.at? 1 ∧ k.at? 0 < l.at? 1
  | unindexed => True

instance (r : JoinRelation) (l k : Value) : Decidable (r.Stands l k) :=
  match r with
  | equal => inferInstanceAs (Decidable (l = k))
  | lessThan => inferInstanceAs (Decidable (l < k))
  | lessThanOrEqual => inferInstanceAs (Decidable (l ≤ k))
  | greaterThan => inferInstanceAs (Decidable (k < l))
  | greaterThanOrEqual => inferInstanceAs (Decidable (k ≤ l))
  | overlapping => inferInstanceAs (Decidable (l.at? 0 < k.at? 1 ∧ k.at? 0 < l.at? 1))
  | unindexed => inferInstanceAs (Decidable True)

/-- Keys are compared to see whether they stand in an order. -/
theorem compares_iff {r : JoinRelation} (hoverlap : r ≠ .overlapping) (hindexed : r ≠ .unindexed) (l k : Value) :
    r.compares l k = true ↔ r.Stands l k := by
  cases r with
  | equal => exact beq_iff_eq
  | lessThan => exact Ordering.isLT_iff_eq_lt
  | lessThanOrEqual => exact Iff.rfl
  | greaterThan => exact Ordering.isGT_iff_eq_gt.trans Std.OrientedCmp.gt_iff_lt
  | greaterThanOrEqual => exact Std.OrientedCmp.isGE_iff_isLE
  | overlapping => exact absurd rfl hoverlap
  | unindexed => exact absurd rfl hindexed

end JoinRelation

/-- A key of the other side stands in the relation with a key of this side. -/
def Side.Stands (side : Side) (r : JoinRelation) (key stored : Value) : Prop :=
  match side with
  | .left => r.Stands stored key
  | .right => r.Stands key stored

instance (side : Side) (r : JoinRelation) (key stored : Value) : Decidable (side.Stands r key stored) :=
  match side with
  | .left => inferInstanceAs (Decidable (r.Stands stored key))
  | .right => inferInstanceAs (Decidable (r.Stands key stored))

namespace Joiner

/-- The intervals of two tuples overlap when their keys stand in the relation. -/
theorem matching_overlapping_iff {leftStart leftEnd rightStart rightEnd : Value → Checked Value} {a b l k : Value}
    (hl : (overlapping leftStart leftEnd rightStart rightEnd).leftKey a = .ok l)
    (hk : (overlapping leftStart leftEnd rightStart rightEnd).rightKey b = .ok k) :
    (overlapping leftStart leftEnd rightStart rightEnd).matching a b = .ok true ↔
      JoinRelation.Stands .overlapping l k := by
  obtain ⟨ls, hls, hl⟩ := bind_eq_ok_iff.1 hl
  obtain ⟨le, hle, hl⟩ := bind_eq_ok_iff.1 hl
  obtain ⟨ks, hks, hk⟩ := bind_eq_ok_iff.1 hk
  obtain ⟨ke, hke, hk⟩ := bind_eq_ok_iff.1 hk
  cases hl
  cases hk
  have hstart : (compare ls ke).isLT = true ↔ ls < ke := Ordering.isLT_iff_eq_lt
  have hend : (compare ks le).isLT = true ↔ ks < le := Ordering.isLT_iff_eq_lt
  have hmatching : (overlapping leftStart leftEnd rightStart rightEnd).matching a b =
      if (compare ls ke).isLT then .ok (compare ks le).isLT else .ok false := by
    simp only [matching, hls, hle, hks, hke]
    rfl
  rw [hmatching]
  by_cases h : (compare ls ke).isLT = true
  · rw [if_pos h, Except.ok.injEq, hend]
    exact (and_iff_right (hstart.1 h)).symm
  · rw [if_neg h]
    exact ⟨fun hfalse => (by cases hfalse), fun hstands => absurd (hstart.2 hstands.1) h⟩

/-- The bound of a joiner is the key of the empty interval at the end of the one that is looked up. -/
theorem eq_of_mem_overlapBound {j : Joiner} {key limit : Value} (h : limit ∈ j.overlapBound key) :
    limit = .pair (key.at? 1) (key.at? 1) := by
  induction j with
  | overlapping leftStart leftEnd rightStart rightEnd => exact (Option.some.inj h).symm
  | keys r left right => cases h
  | filtering p => cases h
  | cross => cases h
  | and first second ih _ => exact ih h

end Joiner

/-! ## Entries -/

namespace JoinIndex

/-- An index is changed. -/
inductive Edit where
  /-- An entry comes. -/
  | insert (key : Value) (id : TupleId)
  /-- An entry goes. -/
  | remove (key : Value) (id : TupleId)
  /-- All entries go. -/
  | clear

/-- The index after a change. -/
def edit (x : JoinIndex) : Edit → JoinIndex
  | .insert key id => x.insert key id
  | .remove key id => x.remove key id
  | .clear => x.clear

/-- The index after changes from nothing on. -/
def after (relation : JoinRelation) (side : Side) (edits : List Edit) : JoinIndex :=
  edits.foldl edit { relation := relation, side := side }

/-- The entries after a change: pairs of a key and an identity, or of no key where there are none. -/
def Edit.change (relation : JoinRelation) (s : Multiset (Value × TupleId)) : Edit → Multiset (Value × TupleId)
  | .insert key id => (slot relation key, id) ::ₘ s
  | .remove key id => s.erase (slot relation key, id)
  | .clear => 0

/-- The entries after changes from nothing on. -/
def entriesAfter (relation : JoinRelation) (edits : List Edit) : Multiset (Value × TupleId) :=
  edits.foldl (Edit.change relation) 0

/-- The index over a relation and a side has just the entries, in the order of their keys. -/
structure Stores (relation : JoinRelation) (side : Side) (x : JoinIndex) (s : Multiset (Value × TupleId)) : Prop where
  /-- The index is over the relation. -/
  relation : x.relation = relation
  /-- The index is over the side. -/
  side : x.side = side
  /-- The keys of the buckets ascend. -/
  ascending : Ascending x.buckets
  /-- The buckets have the entries. -/
  entries : (entriesOf x.buckets : Multiset (Value × TupleId)) = s

namespace Stores

variable {relation : JoinRelation} {side : Side} {x : JoinIndex} {s : Multiset (Value × TupleId)}

/-- A change of the index changes its entries. -/
theorem edit (h : Stores relation side x s) (e : Edit) : Stores relation side (x.edit e) (e.change relation s) where
  relation := by cases e <;> exact h.relation
  side := by cases e <;> exact h.side
  ascending := by
    cases e with
    | insert key id => exact h.ascending.push _ _
    | remove key id => exact h.ascending.drop _ _
    | clear => exact List.Pairwise.nil
  entries := by
    cases e with
    | insert key id =>
      rw [Edit.change, ← h.entries, ← h.relation]
      exact Multiset.coe_eq_coe.2 (entriesOf_push _ _ _)
    | remove key id =>
      rw [Edit.change, ← h.entries, ← h.relation]
      rw [Multiset.coe_erase, lawful_beq_subsingleton instBEqOfDecidableEq instBEqProd]
      exact Multiset.coe_eq_coe.2 (entriesOf_drop h.ascending _ _)
    | clear => rfl

/-- An index has the entries that its changes left. -/
theorem after (relation : JoinRelation) (side : Side) (edits : List Edit) :
    Stores relation side (after relation side edits) (entriesAfter relation edits) := by
  have hempty : Stores relation side { relation := relation, side := side } 0 := ⟨rfl, rfl, List.Pairwise.nil, rfl⟩
  unfold JoinIndex.after entriesAfter
  generalize ({ relation := relation, side := side } : JoinIndex) = x at hempty ⊢
  generalize (0 : Multiset (Value × TupleId)) = s at hempty ⊢
  induction edits generalizing x s with
  | nil => exact hempty
  | cons e edits ih => exact ih _ _ (hempty.edit e)

/-- The number of entries is counted bucket by bucket. -/
theorem size_eq (h : Stores relation side x s) : x.size = Multiset.card s := by
  rw [← h.entries, Multiset.coe_card, size]
  induction x.buckets with
  | nil => rfl
  | cons b bs ih =>
    rw [entriesOf_cons, List.length_append, List.length_map, ← ih]
    rfl

/-- The bucket of a key has its identities. -/
theorem mem_lookup_iff {bs : List (Value × List TupleId)} (h : Ascending bs) (key : Value) (id : TupleId) :
    id ∈ (List.lookup key bs).getD [] ↔ (key, id) ∈ entriesOf bs := by
  induction bs with
  | nil => simp
  | cons b bs ih =>
    obtain ⟨k, ids⟩ := b
    by_cases hk : key = k
    · subst hk
      rw [List.lookup_cons_self, entriesOf_cons, List.mem_append]
      simp [h.not_mem_entriesOf id]
    · have hne : (key == k) = false := beq_eq_false_iff_ne.2 hk
      rw [List.lookup_cons, hne, ih (List.pairwise_cons.1 h).2, entriesOf_cons, List.mem_append]
      simp [Ne.symm hk]

/-- An entry is found in the bucket of its key. -/
theorem holds_iff (h : Stores relation side x s) (key : Value) (id : TupleId) :
    x.holds key id = true ↔ (slot relation key, id) ∈ s := by
  rw [holds, List.contains_iff_mem, bucket, mem_lookup_iff h.ascending, ← h.entries, h.relation, Multiset.mem_coe]

/-- Taking an entry out leaves one less, if it was there. -/
theorem size_remove (h : Stores relation side x s) (key : Value) (id : TupleId) :
    (x.remove key id).size + (x.holds key id).toNat = x.size := by
  have hremove : (x.remove key id).size = Multiset.card (s.erase (slot relation key, id)) :=
    (h.edit (.remove key id)).size_eq
  rw [hremove, h.size_eq]
  cases hheld : x.holds key id with
  | true => exact Multiset.card_erase_add_one ((h.holds_iff key id).1 hheld)
  | false =>
    rw [Multiset.erase_of_notMem fun hmem => Bool.eq_false_iff.1 hheld ((h.holds_iff key id).2 hmem)]
    rfl

/-- Looking up finds the entries whose keys are admitted. -/
theorem lookup_eq (h : Stores relation side x s) (key : Value) (upper : Option Value) :
    (x.lookup key upper : Multiset TupleId) = (s.filter fun e => x.admits key upper e.1).map Prod.snd := by
  rw [Holds.lookup_eq, ← h.entries, Multiset.filter_coe, Multiset.map_coe]
  simp only [Bool.decide_eq_true]

end Stores

/-- A key is admitted where it stands in the relation, other than one of intervals. -/
theorem admits_iff {x : JoinIndex} (hoverlap : x.relation ≠ .overlapping) (key : Value) (upper : Option Value)
    (stored : Value) : x.admits key upper stored = true ↔ x.side.Stands x.relation key stored := by
  obtain ⟨relation, side, buckets⟩ := x
  cases relation with
  | overlapping => exact absurd rfl hoverlap
  | unindexed => cases side <;> exact ⟨fun _ => trivial, fun _ => rfl⟩
  | _ =>
    cases side <;> refine JoinRelation.compares_iff hoverlap ?_ _ _ <;> exact fun h => by cases h

/-- A key of intervals is admitted where it is below the bound, if there is one. -/
theorem admits_overlapping_iff {x : JoinIndex} (hoverlap : x.relation = .overlapping) (key : Value)
    (upper : Option Value) (stored : Value) : x.admits key upper stored = true ↔ ∀ limit ∈ upper, stored < limit := by
  unfold admits
  rw [hoverlap]
  cases upper with
  | none => simp
  | some limit => exact Ordering.isLT_iff_eq_lt.trans (by simp; rfl)

/-- An interval that overlaps the one that is looked up is below the bound of the joiner. -/
theorem lt_of_stands {side : Side} {j : Joiner} {key stored : Value} (h : side.Stands .overlapping key stored) :
    ∀ limit ∈ j.overlapBound key, stored < limit := by
  intro limit hlimit
  rw [Joiner.eq_of_mem_overlapBound hlimit]
  refine Value.lt_pair_of_at?_lt ?_ _
  cases side with
  | left => exact h.1
  | right => exact h.2

/-- Whatever changes an index has seen, its size is the number of its entries, it has just these, removing one leaves one
less of it, and looking up a key of the other side finds just the identities whose keys stand in the relation. Of
intervals it finds those below the bound, and with the bound of a joiner all are among them that overlap. -/
theorem answers_of_edits (relation : JoinRelation) (side : Side) (edits : List Edit) :
    (after relation side edits).size = Multiset.card (entriesAfter relation edits) ∧
    (∀ key id,
      ((after relation side edits).holds key id = true ↔ (slot relation key, id) ∈ entriesAfter relation edits) ∧
      ((after relation side edits).remove key id).size + ((after relation side edits).holds key id).toNat =
        (after relation side edits).size) ∧
    (relation ≠ .overlapping → ∀ key upper,
      ((after relation side edits).lookup key upper : Multiset TupleId) =
        ((entriesAfter relation edits).filter fun e => side.Stands relation key e.1).map Prod.snd) ∧
    (relation = .overlapping →
      (∀ key upper, ((after relation side edits).lookup key upper : Multiset TupleId) =
        ((entriesAfter relation edits).filter fun e => ∀ limit ∈ upper, e.1 < limit).map Prod.snd) ∧
      ∀ (j : Joiner) key, ((entriesAfter relation edits).filter fun e => side.Stands relation key e.1).map Prod.snd ≤
        ((after relation side edits).lookup key (j.overlapBound key) : Multiset TupleId)) ∧
    ∀ leftStart leftEnd rightStart rightEnd a b l k,
      (Joiner.overlapping leftStart leftEnd rightStart rightEnd).leftKey a = .ok l →
      (Joiner.overlapping leftStart leftEnd rightStart rightEnd).rightKey b = .ok k →
      ((Joiner.overlapping leftStart leftEnd rightStart rightEnd).matching a b = .ok true ↔
        JoinRelation.Stands .overlapping l k) := by
  have hstores := Stores.after relation side edits
  have hrelation := hstores.relation
  have hside := hstores.side
  refine ⟨hstores.size_eq, fun key id => ⟨hstores.holds_iff key id, hstores.size_remove key id⟩,
    fun hoverlap key upper => ?_, fun hoverlap => ?_, fun _ _ _ _ _ _ _ _ => Joiner.matching_overlapping_iff⟩
  · rw [hstores.lookup_eq]
    refine congrArg (Multiset.map Prod.snd) (Multiset.filter_congr fun e _ => ?_)
    rw [admits_iff (by rwa [hrelation]), hside, hrelation]
  · have hlookup : ∀ key upper, ((after relation side edits).lookup key upper : Multiset TupleId) =
        ((entriesAfter relation edits).filter fun e => ∀ limit ∈ upper, e.1 < limit).map Prod.snd := fun key upper => by
      rw [hstores.lookup_eq]
      refine congrArg (Multiset.map Prod.snd) (Multiset.filter_congr fun e _ => ?_)
      exact admits_overlapping_iff (hrelation.trans hoverlap) key upper e.1
    refine ⟨hlookup, fun j key => ?_⟩
    rw [hlookup, hoverlap]
    exact Multiset.map_le_map (Multiset.monotone_filter_right _ fun e => lt_of_stands)

end JoinIndex

end Planning
