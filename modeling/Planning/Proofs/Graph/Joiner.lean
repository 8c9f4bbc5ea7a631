import Mathlib.Data.List.Nodup
import Planning.Graph.Join
import Planning.Graph.JoinIndex
import Planning.Proofs.Checked
import Planning.Proofs.Graph.Naming
import Planning.Proofs.Graph.Tuples
import Planning.Proofs.Value.Order

/-!
# Join indexes and joiners

An index holds each entry once, under its key. What is put in and taken out changes the entries by just
that, and looking up gives, each once, the identities whose keys are admitted.
-/

namespace Planning

/-- Taking an element out of a list by moving the last one into its place removes one occurrence. -/
theorem swapErase_perm {α : Type} [DecidableEq α] (a : α) (l : List α) :
    (swapErase a l).Perm (l.erase a) := by
  induction l with
  | nil => exact List.Perm.refl _
  | cons b rest ih =>
    by_cases h : b = a
    · subst h
      rw [swapErase, if_pos rfl, List.erase_cons_head]
      cases hr : rest.getLast? with
      | none => simp [List.getLast?_eq_none_iff.1 hr]
      | some last =>
        obtain ⟨front, rfl⟩ := List.getLast?_eq_some_iff.1 hr
        simpa using (List.perm_append_singleton last front).symm
    · rw [swapErase, if_neg h, List.erase_cons_tail (by simpa using h)]
      exact ih.cons b

namespace JoinIndex

/-- The entries of buckets. -/
def entriesOf (bs : List (Value × List TupleId)) : List (Value × TupleId) :=
  bs.flatMap fun b => b.2.map fun i => (b.1, i)

@[simp] theorem entriesOf_nil : entriesOf [] = [] := rfl

@[simp] theorem entriesOf_cons (k : Value) (ids : List TupleId) (bs : List (Value × List TupleId)) :
    entriesOf ((k, ids) :: bs) = ids.map (fun i => (k, i)) ++ entriesOf bs := rfl

theorem mem_entriesOf {bs : List (Value × List TupleId)} {k : Value} {i : TupleId} :
    (k, i) ∈ entriesOf bs ↔ ∃ ids, (k, ids) ∈ bs ∧ i ∈ ids := by
  simp only [entriesOf, List.mem_flatMap, List.mem_map, Prod.mk.injEq, Prod.exists]
  constructor
  · rintro ⟨k', ids, hb, j, hj, rfl, rfl⟩
    exact ⟨ids, hb, hj⟩
  · rintro ⟨ids, hb, hi⟩
    exact ⟨k, ids, hb, i, hi, rfl, rfl⟩

/-- The keys of buckets ascend. -/
def Ascending (bs : List (Value × List TupleId)) : Prop :=
  bs.Pairwise fun a b => compare a.1 b.1 = .lt

/-- Putting an identity into its bucket adds its entry. -/
theorem entriesOf_push (key : Value) (id : TupleId) (bs : List (Value × List TupleId)) :
    (entriesOf (push key id bs)).Perm ((key, id) :: entriesOf bs) := by
  induction bs with
  | nil => exact List.Perm.refl _
  | cons b bs ih =>
    obtain ⟨k, ids⟩ := b
    rw [push]
    cases hc : compare key k with
    | lt => exact List.Perm.refl _
    | eq =>
      obtain rfl := Value.compare_eq_eq_iff.1 hc
      simp only [entriesOf_cons, List.map_append, List.map_cons, List.map_nil, List.append_assoc]
      exact List.perm_middle
    | gt =>
      simp only [entriesOf_cons]
      exact (ih.append_left _).trans List.perm_middle

theorem mem_push {key : Value} {id : TupleId} {bs : List (Value × List TupleId)}
    {b : Value × List TupleId} (h : b ∈ push key id bs) : b.1 = key ∨ ∃ c ∈ bs, c.1 = b.1 := by
  induction bs with
  | nil =>
    rw [push, List.mem_singleton] at h
    exact Or.inl (by rw [h])
  | cons c bs ih =>
    obtain ⟨k, ids⟩ := c
    rw [push] at h
    cases hc : compare key k with
    | lt =>
      rw [hc] at h
      rcases List.mem_cons.1 h with rfl | h
      · exact Or.inl rfl
      · exact Or.inr ⟨b, h, rfl⟩
    | eq =>
      rw [hc] at h
      rcases List.mem_cons.1 h with rfl | h
      · exact Or.inr ⟨(k, ids), by simp, rfl⟩
      · exact Or.inr ⟨b, by simp [h], rfl⟩
    | gt =>
      rw [hc] at h
      rcases List.mem_cons.1 h with rfl | h
      · exact Or.inr ⟨(k, ids), by simp, rfl⟩
      · exact (ih h).imp_right fun ⟨c, hc, he⟩ => ⟨c, by simp [hc], he⟩

/-- Putting an identity into its bucket keeps the keys ascending. -/
theorem Ascending.push {bs : List (Value × List TupleId)} (h : Ascending bs) (key : Value)
    (id : TupleId) : Ascending (push key id bs) := by
  induction bs with
  | nil => exact List.pairwise_singleton _ _
  | cons b bs ih =>
    obtain ⟨k, ids⟩ := b
    obtain ⟨hfirst, hrest⟩ := List.pairwise_cons.1 h
    rw [JoinIndex.push]
    cases hc : compare key k with
    | lt =>
      refine List.pairwise_cons.2 ⟨fun c hmem => ?_, h⟩
      rcases List.mem_cons.1 hmem with rfl | hmem
      · exact hc
      · exact Std.TransCmp.lt_trans hc (hfirst c hmem)
    | eq => exact List.pairwise_cons.2 ⟨hfirst, hrest⟩
    | gt =>
      refine List.pairwise_cons.2 ⟨fun c hmem => ?_, ih hrest⟩
      rcases mem_push hmem with hk | ⟨d, hd, he⟩
      · rw [hk]
        exact Std.OrientedCmp.lt_of_gt hc
      · rw [← he]
        exact hfirst d hd

/-- Another key has its entries elsewhere. -/
theorem Ascending.not_mem_entriesOf {k : Value} {ids : List TupleId}
    {bs : List (Value × List TupleId)} (h : Ascending ((k, ids) :: bs)) (i : TupleId) :
    (k, i) ∉ entriesOf bs := by
  intro hmem
  obtain ⟨ids', hb, -⟩ := mem_entriesOf.1 hmem
  have hlt : compare k k = .lt := (List.pairwise_cons.1 h).1 _ hb
  rw [Value.compare_eq_eq_iff.2 rfl] at hlt
  cases hlt

/-- Taking an identity out of its bucket removes its entry. -/
theorem entriesOf_drop {bs : List (Value × List TupleId)} (h : Ascending bs) (key : Value)
    (id : TupleId) : (entriesOf (drop key id bs)).Perm ((entriesOf bs).erase (key, id)) := by
  induction bs with
  | nil => exact List.Perm.refl _
  | cons b bs ih =>
    obtain ⟨k, ids⟩ := b
    rw [drop]
    by_cases hk : k = key
    · subst hk
      have hinj : Function.Injective fun i : TupleId => (k, i) := fun i j hij => (Prod.ext_iff.1 hij).2
      have hleft : ((swapErase id ids).map fun i => (k, i)).Perm
          ((ids.map fun i => (k, i)).erase (k, id)) := by
        rw [← List.map_erase hinj]
        exact (swapErase_perm id ids).map _
      have herase : (entriesOf ((k, ids) :: bs)).erase (k, id) =
          (ids.map fun i => (k, i)).erase (k, id) ++ entriesOf bs := by
        by_cases hid : (k, id) ∈ ids.map fun i => (k, i)
        · exact List.erase_append_left _ hid
        · rw [entriesOf_cons, List.erase_append_right _ hid, List.erase_of_not_mem hid,
            List.erase_of_not_mem (h.not_mem_entriesOf id)]
      rw [herase, if_pos rfl]
      by_cases hempty : (swapErase id ids).isEmpty
      · simp only [hempty, if_true]
        rw [List.isEmpty_iff.1 hempty, List.map_nil] at hleft
        rw [List.nil_perm.1 hleft]
        exact List.Perm.refl _
      · simp only [hempty]
        exact hleft.append_right _
    · have hid : (key, id) ∉ ids.map fun i => (k, i) := by
        simp only [List.mem_map, Prod.mk.injEq, not_exists, not_and]
        exact fun _ _ hkey => absurd hkey hk
      rw [if_neg hk, entriesOf_cons, entriesOf_cons, List.erase_append_right _ hid]
      exact (ih (List.pairwise_cons.1 h).2).append_left _

/-- Taking an identity out of its bucket leaves only buckets with keys from before, in their order. -/
theorem drop_keys_sublist (key : Value) (id : TupleId) (bs : List (Value × List TupleId)) :
    ((drop key id bs).map Prod.fst).Sublist (bs.map Prod.fst) := by
  induction bs with
  | nil => exact List.Sublist.refl _
  | cons b bs ih =>
    obtain ⟨k, ids⟩ := b
    rw [drop]
    by_cases hk : k = key
    · rw [if_pos hk]
      by_cases hempty : (swapErase id ids).isEmpty
      · simp [hempty]
      · simp [hempty]
    · rw [if_neg hk]
      exact ih.cons_cons k

theorem ascending_iff {bs : List (Value × List TupleId)} :
    Ascending bs ↔ (bs.map Prod.fst).Pairwise fun a b => compare a b = .lt := by
  rw [List.pairwise_map]
  rfl

theorem Ascending.drop {bs : List (Value × List TupleId)} (h : Ascending bs) (key : Value)
    (id : TupleId) : Ascending (drop key id bs) :=
  ascending_iff.2 ((ascending_iff.1 h).sublist (drop_keys_sublist key id bs))

/-- The index holds the identities that have a key, each once under its key. -/
structure Holds (x : JoinIndex) (keys : TupleId → Option Value) : Prop where
  /-- The keys of the buckets ascend. -/
  ascending : Ascending x.buckets
  /-- No entry stands twice. -/
  nodup : (entriesOf x.buckets).Nodup
  /-- The entries are the keys of the identities. -/
  mem_iff : ∀ k i, (k, i) ∈ entriesOf x.buckets ↔ ∃ key, keys i = some key ∧ slot x.relation key = k

namespace Holds

variable {x : JoinIndex} {keys : TupleId → Option Value}

/-- An empty index holds nothing. -/
theorem empty (relation : JoinRelation) (side : Side) :
    Holds { relation := relation, side := side } fun _ => none where
  ascending := List.Pairwise.nil
  nodup := List.nodup_nil
  mem_iff := by simp

/-- One more entry is held after it was put in. -/
theorem insert (h : x.Holds keys) {id : TupleId} (hid : keys id = none) (key : Value) :
    (x.insert key id).Holds (Function.update keys id (some key)) where
  ascending := h.ascending.push _ _
  nodup := by
    rw [JoinIndex.insert, (entriesOf_push _ _ _).nodup_iff, List.nodup_cons]
    refine ⟨fun hmem => ?_, h.nodup⟩
    obtain ⟨_, hk, -⟩ := (h.mem_iff _ _).1 hmem
    rw [hid] at hk
    cases hk
  mem_iff k i := by
    rw [JoinIndex.insert, (entriesOf_push _ _ _).mem_iff, List.mem_cons, h.mem_iff]
    by_cases hi : i = id
    · subst hi
      simp [hid, eq_comm]
    · simp [hi]

/-- One entry less is held after it was taken out. -/
theorem remove (h : x.Holds keys) {id : TupleId} {key : Value} (hid : keys id = some key) :
    (x.remove key id).Holds (Function.update keys id none) where
  ascending := h.ascending.drop _ _
  nodup := by
    rw [JoinIndex.remove, (entriesOf_drop h.ascending _ _).nodup_iff]
    exact h.nodup.erase _
  mem_iff k i := by
    rw [JoinIndex.remove, (entriesOf_drop h.ascending _ _).mem_iff, h.nodup.mem_erase_iff, h.mem_iff]
    by_cases hi : i = id
    · subst hi
      simp [hid, eq_comm]
    · simp [hi]

/-- Looking up finds the entries whose keys are admitted. -/
theorem lookup_eq (x : JoinIndex) (key : Value) (upper : Option Value) :
    x.lookup key upper =
      ((entriesOf x.buckets).filter fun e => x.admits key upper e.1).map Prod.snd := by
  rw [lookup, entriesOf]
  induction x.buckets with
  | nil => rfl
  | cons b bs ih =>
    rw [List.flatMap_cons, List.filter_append, List.map_append, ← ih, List.filter_cons]
    by_cases hb : x.admits key upper b.1
    · have hall : (b.2.map fun i => (b.1, i)).filter (fun e => x.admits key upper e.1) =
          b.2.map fun i => (b.1, i) := by
        simp [List.filter_eq_self, hb]
      rw [if_pos hb, hall, List.flatMap_cons, List.map_map]
      congr 1
      exact (List.map_id _).symm
    · have hnone : (b.2.map fun i => (b.1, i)).filter (fun e => x.admits key upper e.1) = [] := by
        simp [List.filter_eq_nil_iff, hb]
      rw [if_neg hb, hnone]
      rfl

/-- Looking up finds each identity once. -/
theorem nodup_lookup (h : x.Holds keys) (key : Value) (upper : Option Value) :
    (x.lookup key upper).Nodup := by
  rw [lookup_eq]
  refine List.Nodup.map_on (fun e he f hf hef => ?_) (h.nodup.filter _)
  obtain ⟨k, hk, hs⟩ := (h.mem_iff e.1 e.2).1 (List.mem_of_mem_filter he)
  obtain ⟨k', hk', hs'⟩ := (h.mem_iff f.1 f.2).1 (List.mem_of_mem_filter hf)
  have hkk : k = k' := by
    rw [hef, hk'] at hk
    exact (Option.some.inj hk).symm
  exact Prod.ext (by rw [← hs, ← hs', hkk]) hef

/-- Looking up finds the identities whose keys are admitted. -/
theorem mem_lookup (h : x.Holds keys) {key : Value} {upper : Option Value} {i : TupleId} :
    i ∈ x.lookup key upper ↔
      ∃ k, keys i = some k ∧ x.admits key upper (slot x.relation k) = true := by
  rw [lookup_eq]
  simp only [List.mem_map, List.mem_filter, Prod.exists, exists_eq_right, h.mem_iff]
  constructor
  · rintro ⟨_, ⟨k, hk, rfl⟩, ha⟩
    exact ⟨k, hk, ha⟩
  · rintro ⟨k, hk, ha⟩
    exact ⟨_, ⟨k, hk, rfl⟩, ha⟩

end Holds

end JoinIndex

end Planning

/-!
## Joiners and indexes

Tuples that belong together find each other through the index over either side: the key of the one is
admitted when the key of the other is looked up. A side of a join keeps its live tuples with their keys and
an index that holds them.
-/

namespace Planning

open Checked

/-- What starts below the start of an interval is below it. -/
theorem Value.lt_pair_of_at?_lt {v a : Value} (h : v.at? 0 < a) (b : Value) : v < .pair a b := by
  cases v with
  | list vs =>
    cases vs with
    | nil => rfl
    | cons v vs =>
      change cmp v a = .lt at h
      change (cmp v a).then (cmpList vs [b]) = .lt
      rw [h]
      rfl
  | null => rfl
  | bool _ => rfl
  | int _ => rfl
  | real _ => rfl
  | text _ => rfl

namespace Joiner

/-- Whichever side an index is over, the key of a match there is admitted when that of the other side is looked up. -/
theorem admits_of_matching {j : Joiner} {a b ka kb : Value} (h : j.matching a b = .ok true)
    (ha : j.leftKey a = .ok ka) (hb : j.rightKey b = .ok kb) {x : JoinIndex} (hrel : x.relation = j.relation) :
    (x.side = .right → x.admits ka (j.overlapBound ka) (JoinIndex.slot x.relation kb) = true) ∧
      (x.side = .left → x.admits kb (j.overlapBound kb) (JoinIndex.slot x.relation ka) = true) := by
  rw [hrel]
  unfold JoinIndex.admits
  rw [hrel]
  induction j with
  | keys r left right =>
    have hc : r.compares ka kb = true := by
      simp only [matching, leftKey, rightKey] at h ha hb
      rw [ha, hb] at h
      exact Except.ok.inj h
    constructor <;> intro hside <;> rw [hside] <;> cases r <;> first | rfl | exact hc
  | overlapping leftStart leftEnd rightStart rightEnd =>
    simp only [matching, bind_eq_ok_iff] at h
    obtain ⟨ls, hls, re, hre, h⟩ := h
    simp only [leftKey, rightKey, bind_eq_ok_iff, pure_eq_ok_iff] at ha hb
    obtain ⟨ls', hls', le, hle, rfl⟩ := ha
    obtain ⟨rs, hrs, re', hre', rfl⟩ := hb
    obtain rfl := Except.ok.inj (hls.symm.trans hls')
    obtain rfl := Except.ok.inj (hre.symm.trans hre')
    split at h
    · -- Each interval starts before the other one ends, where the bound of a looked up interval is.
      rename_i hstart
      simp only [hrs, hle, bind_eq_ok_iff, pure_eq_ok_iff, Except.ok.injEq, exists_eq_left'] at h
      simp only [relation, overlapBound, JoinIndex.slot, JoinRelation.isIndexed]
      rw [Ordering.isLT_iff_eq_lt] at hstart h ⊢
      rw [Ordering.isLT_iff_eq_lt]
      exact ⟨fun _ => Value.lt_pair_of_at?_lt h _, fun _ => Value.lt_pair_of_at?_lt hstart _⟩
    · simp [pure_eq_ok_iff] at h
  | filtering p => exact ⟨fun _ => rfl, fun _ => rfl⟩
  | cross => exact ⟨fun _ => rfl, fun _ => rfl⟩
  | and first second ih _ =>
    simp only [matching, bind_eq_ok_iff] at h
    obtain ⟨m, hm, h⟩ := h
    cases m with
    | false => simp [pure_eq_ok_iff] at h
    | true => exact ih hm ha hb hrel

/-- The key of a tuple of a side. -/
def keyOf (j : Joiner) : Side → Value → Checked Value
  | .left => j.leftKey
  | .right => j.rightKey

end Joiner

/-- The live tuples of a side are kept with their keys and are held by its index. -/
structure Indexed (j : Joiner) (side : Side) (kept : TupleId → Option Keyed) (x : JoinIndex)
    (L : Tuples) : Prop where
  /-- The live tuples are kept. -/
  tuple : ∀ i, (kept i).map Keyed.tuple = L i
  /-- Each is kept with its key. -/
  key : ∀ i a, kept i = some a → j.keyOf side a.tuple = .ok a.key
  /-- The index holds the keys. -/
  holds : x.Holds fun i => (kept i).map Keyed.key
  /-- The index is over the relation of the joiner. -/
  relation : x.relation = j.relation
  /-- The index is over the side. -/
  side : x.side = side

namespace Indexed

variable {j : Joiner} {side : Side} {kept : TupleId → Option Keyed} {x : JoinIndex} {L : Tuples}

/-- A side without tuples. -/
theorem empty (j : Joiner) (side : Side) :
    Indexed j side (fun _ => none) { relation := j.relation, side := side } Tuples.none where
  tuple _ := rfl
  key _ _ h := by cases h
  holds := JoinIndex.Holds.empty _ _
  relation := rfl
  side := rfl

/-- What is not live is not kept. -/
theorem kept_eq_none (h : Indexed j side kept x L) {i : TupleId} (hi : L i = none) :
    kept i = none := by
  rw [← h.tuple i] at hi
  exact Option.map_eq_none_iff.1 hi

/-- What is live is kept with its key. -/
theorem kept_of_live (h : Indexed j side kept x L) {i : TupleId} {a : Value} (hi : L i = some a) :
    ∃ k, kept i = some ⟨k, a⟩ ∧ j.keyOf side a = .ok k := by
  rw [← h.tuple i] at hi
  obtain ⟨⟨k, a'⟩, hk, rfl⟩ := Option.map_eq_some_iff.1 hi
  exact ⟨k, hk, h.key i _ hk⟩

/-- What is kept is live. -/
theorem live_of_kept (h : Indexed j side kept x L) {i : TupleId} {a : Keyed} (hi : kept i = some a) :
    L i = some a.tuple := by
  rw [← h.tuple i, hi]
  rfl

/-- A tuple comes to a side. -/
theorem insert (h : Indexed j side kept x L) {i : TupleId} {a k : Value} (hi : L i = none)
    (hk : j.keyOf side a = .ok k) :
    Indexed j side (Function.update kept i (some ⟨k, a⟩)) (x.insert k i)
      (Function.update L i (some a)) where
  tuple i' := by
    by_cases hne : i' = i
    · subst hne
      simp
    · rw [Function.update_of_ne hne, Function.update_of_ne hne]
      exact h.tuple i'
  key i' a' hkept := by
    by_cases hne : i' = i
    · subst hne
      rw [Function.update_self] at hkept
      cases hkept
      exact hk
    · rw [Function.update_of_ne hne] at hkept
      exact h.key i' a' hkept
  holds := by
    have hnone : (kept i).map Keyed.key = none := by rw [h.kept_eq_none hi]; rfl
    convert h.holds.insert hnone k using 1
    funext i'
    by_cases hne : i' = i
    · subst hne
      simp
    · rw [Function.update_of_ne hne, Function.update_of_ne hne]
  relation := h.relation
  side := h.side

/-- A tuple of a side goes. -/
theorem remove (h : Indexed j side kept x L) {i : TupleId} {a : Keyed} (hi : kept i = some a) :
    Indexed j side (Function.update kept i none) (x.remove a.key i) (Function.update L i none) where
  tuple i' := by
    by_cases hne : i' = i
    · subst hne
      simp
    · rw [Function.update_of_ne hne, Function.update_of_ne hne]
      exact h.tuple i'
  key i' a' hkept := by
    by_cases hne : i' = i
    · subst hne
      simp at hkept
    · rw [Function.update_of_ne hne] at hkept
      exact h.key i' a' hkept
  holds := by
    have hsome : (kept i).map Keyed.key = some a.key := by rw [hi]; rfl
    convert h.holds.remove hsome using 1
    funext i'
    by_cases hne : i' = i
    · subst hne
      simp
    · rw [Function.update_of_ne hne, Function.update_of_ne hne]
  relation := h.relation
  side := h.side

/-- The right tuples that belong with a left one are found with its key. -/
theorem mem_of_left (h : Indexed j .right kept x L) {r : TupleId} {a b ka : Value}
    (hr : L r = some b) (hm : j.matching a b = .ok true) (ha : j.leftKey a = .ok ka) :
    r ∈ x.lookup ka (j.overlapBound ka) := by
  obtain ⟨kb, hkept, hb⟩ := h.kept_of_live hr
  exact h.holds.mem_lookup.2
    ⟨kb, by rw [hkept]; rfl, (Joiner.admits_of_matching hm ha hb h.relation).1 h.side⟩

/-- The left tuples that belong with a right one are found with its key. -/
theorem mem_of_right (h : Indexed j .left kept x L) {l : TupleId} {a b kb : Value}
    (hl : L l = some a) (hm : j.matching a b = .ok true) (hb : j.rightKey b = .ok kb) :
    l ∈ x.lookup kb (j.overlapBound kb) := by
  obtain ⟨ka, hkept, ha⟩ := h.kept_of_live hl
  exact h.holds.mem_lookup.2
    ⟨ka, by rw [hkept]; rfl, (Joiner.admits_of_matching hm ha hb h.relation).2 h.side⟩

end Indexed

end Planning
