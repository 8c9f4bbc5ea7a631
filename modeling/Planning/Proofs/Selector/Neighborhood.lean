import Planning.Problems.Routing
import Planning.Proofs.Selector.Listed

/-!
# Neighborhoods of lists

A selector of a list variable gives every doable move of its kind and no other one, each of them once. Of the two ways
to write the swap of two elements it gives one. What it shuffles is what it would list, in another order: drawing
random numbers never fails.
-/

namespace Planning

open Checked

namespace Generator

variable {α β : Type}

/-- Something is drawn whatever the stream is. -/
def Total (y : Draw α) : Prop := ∀ gen, ∃ a gen', y.run gen = .ok (a, gen')

/-- Nothing has to be drawn. -/
theorem Total.pure (a : α) : Total (Pure.pure a : Draw α) := fun gen => ⟨a, gen, rfl⟩

/-- Draws are made one after another. -/
theorem Total.bind {y : Draw α} {f : α → Draw β} (hy : Total y) (hf : ∀ a, Total (f a)) : Total (y >>= f) := by
  intro gen
  obtain ⟨a, gen₁, ha⟩ := hy gen
  obtain ⟨b, gen₂, hb⟩ := hf a gen₁
  exact ⟨b, gen₂, by rw [StateT.run_bind]; exact bind_eq_ok_iff.2 ⟨_, ha, hb⟩⟩

/-- One of two draws is made. -/
theorem Total.ite {c : Prop} [Decidable c] {y z : Draw α} (hy : Total y) (hz : Total z) :
    Total (if c then y else z) := by
  split
  · exact hy
  · exact hz

theorem total_word : Total word
  | { pending := [], .. } => ⟨_, _, rfl⟩
  | { pending := _ :: _, .. } => ⟨_, _, rfl⟩

theorem total_below (n : Nat) : Total (below n) :=
  total_word.bind fun _ => .ite (total_word.bind fun _ => .pure _) (.pure _)

/-- What is drawn below a bound is less than it. -/
theorem lt_of_below {n i : Nat} {gen gen' : Generator} (hn : 0 < n) (h : (below n).run gen = .ok (i, gen')) :
    i < n := by
  have hscaled : ∀ w : UInt32, w.toNat * n / Nat.pow 2 32 < n := fun w =>
    Nat.div_lt_of_lt_mul (Nat.mul_lt_mul_of_pos_right w.toNat_lt hn)
  obtain ⟨⟨w, gen₁⟩, -, h⟩ := bind_eq_ok_iff.1 h
  simp only at h
  split at h
  · obtain ⟨⟨w', gen₂⟩, -, h⟩ := bind_eq_ok_iff.1 h
    obtain ⟨hi, -⟩ := Prod.mk.inj (Except.ok.inj h)
    split at hi
    · -- A carry leaves room: the number and what is carried are less than the bound times a whole word.
      rename_i hcarry
      have hw : w.toNat * n + n ≤ n * Nat.pow 2 32 := by
        rw [← Nat.succ_mul, Nat.mul_comm n]
        exact Nat.mul_le_mul_right n w.toNat_lt
      have hdiv := Nat.div_add_mod (w.toNat * n) (Nat.pow 2 32)
      have hnext := hscaled w'
      rw [← hi]
      refine Nat.lt_of_mul_lt_mul_right (a := Nat.pow 2 32) ?_
      rw [Nat.succ_mul]
      rw [Nat.mul_comm] at hdiv
      omega
    · exact hi ▸ hscaled w
  · obtain ⟨hi, -⟩ := Prod.mk.inj (Except.ok.inj h)
    exact hi ▸ hscaled w

theorem total_nextIndex (position : Nat) (c : Chunk) : Total (nextIndex position c) := by
  have hchoose : ∀ c : Chunk, Total (if c.left = 1 then return (c.value, ⟨c.value, 0⟩)
      else return (c.value % (position + 1), ⟨c.value / (position + 1), c.left - 1⟩) : Draw (Nat × Chunk)) :=
    fun c => .ite (.pure _) (.pure _)
  unfold nextIndex
  by_cases hleft : c.left = 0
  · simp only [hleft, if_true]
    exact (total_below _).bind fun _ => hchoose _
  · simp only [hleft, if_false]
    exact hchoose c

theorem total_shuffleFrom (position fuel : Nat) (c : Chunk) (xs : Array α) :
    Total (shuffleFrom position c xs fuel) := by
  induction fuel generalizing position c xs with
  | zero => exact .pure xs
  | succ fuel ih => exact (total_nextIndex position c).bind fun _ => ih _ _ _

/-- A list can always be shuffled. -/
theorem total_shuffle (l : List α) : Total (shuffle l) :=
  .ite (.pure l) ((total_shuffleFrom _ _ _ _).bind fun _ => .pure _)

end Generator

/-- Lists that are put together have no member twice if none of them has, and no two of them share a member. -/
theorem nodup_flatMap_of_eq {α β : Type} {f : α → List β} {l : List α} (hl : l.Nodup)
    (hf : ∀ a ∈ l, (f a).Nodup) (heq : ∀ a ∈ l, ∀ a' ∈ l, ∀ b ∈ f a, b ∈ f a' → a = a') : (l.flatMap f).Nodup := by
  refine List.nodup_flatMap.2 ⟨hf, hl.imp_of_mem fun ha ha' hne => ?_⟩
  exact List.disjoint_left.2 fun b hb hb' => hne (heq _ ha _ ha' b hb hb')

namespace ListVariable

variable {S V : Type} {x : ListVariable S V} {s : S}

/-- The movable entities come with the lengths of their lists. -/
theorem mem_movable {e n : Nat} : (e, n) ∈ x.movable s ↔ x.Movable s e ∧ x.size s e = n := by
  simp [movable, Movable]

theorem nodup_movable : (x.movable s).Nodup :=
  (List.nodup_range.filter _).map fun _ _ h => (Prod.mk.inj h).1

/-- Entities are movable with one length each. -/
theorem eq_of_mem_movable {p q : Nat × Nat} (hp : p ∈ x.movable s) (hq : q ∈ x.movable s) (h : p.1 = q.1) :
    p = q := by
  obtain ⟨-, hsize⟩ := mem_movable.1 hp
  obtain ⟨-, hsize'⟩ := mem_movable.1 hq
  rw [h, hsize'] at hsize
  exact Prod.ext h hsize.symm

/-- Two positions hold different elements if no element is at two positions. -/
theorem getElem?_ne_of_nodup (hnodup : (x.elements s).Nodup) {a i b j : Nat} (ha : a < x.count s)
    (hb : b < x.count s) (hi : i < x.size s a) (hne : ¬ (a = b ∧ i = j)) :
    (x.list s a)[i]? ≠ (x.list s b)[j]? := by
  obtain ⟨hlists, l, hrange, hdisjoint⟩ :=
    Multiset.nodup_bind.1 (hnodup : ((Multiset.range (x.count s)).bind fun e => (x.list s e : Multiset V)).Nodup)
  intro heq
  have hv := List.getElem?_eq_getElem hi
  have hva := List.mem_of_getElem? hv
  have hvb := List.mem_of_getElem? (heq.symm.trans hv)
  by_cases hab : a = b
  · subst hab
    have hlist : (x.list s a).Nodup := Multiset.coe_nodup.1 (hlists a (Multiset.mem_range.2 ha))
    exact hne ⟨rfl, (List.getElem?_inj hi hlist).1 heq⟩
  · have hmem : ∀ e, e < x.count s → e ∈ l := fun e he => by
      rw [← Multiset.mem_coe, ← hrange]
      exact Multiset.mem_range.2 he
    have := hdisjoint.forall (hmem a ha) (hmem b hb) hab
    exact Multiset.disjoint_left.1 this (Multiset.mem_coe.2 hva) (Multiset.mem_coe.2 hvb)

end ListVariable

namespace ListMove

variable {S V : Type} [PlanningValue V] [DecidableEq V] {x : ListVariable S V} {s : S} {a i b j e n : Nat}

/-- Exactly the doable moves of a kind are listed, each once. -/
structure Covers (x : ListVariable S V) (s : S) (kind : ListMove V → Prop) (l : List (ListMove V)) : Prop where
  /-- No move is listed twice. -/
  nodup : l.Nodup
  /-- The doable moves of the kind are listed, and no others. -/
  mem_iff : ∀ m, m ∈ l ↔ m.isDoable x s = true ∧ kind m

omit [PlanningValue V] [DecidableEq V] in
/-- An element is moved to the positions of movable lists that it may go to. -/
theorem mem_changesOf {m : ListMove V} : m ∈ changesOf x s a i ↔ ∃ b j, m = .change a i b j ∧ x.Movable s b ∧
    j < x.size s b + (if a = b then 0 else 1) ∧ ¬ (a = b ∧ i = j) := by
  simp only [changesOf, List.mem_flatMap, List.mem_map, List.mem_filter, List.mem_range]
  constructor
  · rintro ⟨⟨b, n⟩, hb, j, ⟨hj, hne⟩, rfl⟩
    obtain ⟨hmovable, rfl⟩ := ListVariable.mem_movable.1 hb
    exact ⟨b, j, rfl, hmovable, by grind, by grind⟩
  · rintro ⟨b, j, rfl, hb, hj, hne⟩
    exact ⟨(b, _), ListVariable.mem_movable.2 ⟨hb, rfl⟩, j, ⟨by grind, by grind⟩, rfl⟩

omit [PlanningValue V] [DecidableEq V] in
theorem nodup_changesOf : (changesOf x s a i).Nodup := by
  refine nodup_flatMap_of_eq ListVariable.nodup_movable (fun p _ => ?_) fun p hp q hq m hm hm' => ?_
  · exact (List.nodup_range.filter _).map fun _ _ h => (ListMove.change.inj h).2.2.2
  · obtain ⟨j, -, rfl⟩ := List.mem_map.1 hm
    obtain ⟨j', -, h⟩ := List.mem_map.1 hm'
    exact ListVariable.eq_of_mem_movable hp hq (ListMove.change.inj h).2.2.1.symm

/-- The moves of elements are listed. -/
theorem covers_changes : Covers x s (fun m => ∃ a i b j, m = .change a i b j) (changes x s) where
  nodup := by
    refine nodup_flatMap_of_eq ListVariable.nodup_movable (fun p _ => ?_) fun p hp q hq m hm hm' => ?_
    · refine nodup_flatMap_of_eq List.nodup_range (fun i _ => nodup_changesOf) fun i _ i' _ m hm hm' => ?_
      obtain ⟨b, j, rfl, -⟩ := mem_changesOf.1 hm
      obtain ⟨b', j', h, -⟩ := mem_changesOf.1 hm'
      exact (ListMove.change.inj h).2.1
    · obtain ⟨i, -, hm⟩ := List.mem_flatMap.1 hm
      obtain ⟨i', -, hm'⟩ := List.mem_flatMap.1 hm'
      obtain ⟨b, j, rfl, -⟩ := mem_changesOf.1 hm
      obtain ⟨b', j', h, -⟩ := mem_changesOf.1 hm'
      exact ListVariable.eq_of_mem_movable hp hq (ListMove.change.inj h).1
  mem_iff m := by
    simp only [changes, List.mem_flatMap, Prod.exists, List.mem_range]
    constructor
    · rintro ⟨a, n, hp, i, hi, hm⟩
      obtain ⟨ha, rfl⟩ := ListVariable.mem_movable.1 hp
      obtain ⟨b, j, rfl, hb, hj, hne⟩ := mem_changesOf.1 hm
      exact ⟨isDoable_change_iff.2 ⟨ha, hb, hi, hj, hne⟩, a, i, b, j, rfl⟩
    · rintro ⟨hdoable, a, i, b, j, rfl⟩
      obtain ⟨ha, hb, hi, hj, hne⟩ := isDoable_change_iff.1 hdoable
      exact ⟨a, _, ListVariable.mem_movable.2 ⟨ha, rfl⟩, i, hi, mem_changesOf.2 ⟨b, j, rfl, hb, hj, hne⟩⟩

/-- The reversals of segments are listed. -/
theorem covers_reversals : Covers x s (fun m => ∃ e i j, m = .reverse e i j) (reversals x s) where
  nodup := by
    refine nodup_flatMap_of_eq ListVariable.nodup_movable (fun p _ => ?_) fun p hp q hq m hm hm' => ?_
    · refine nodup_flatMap_of_eq List.nodup_range (fun i _ => ?_) fun i _ i' _ m hm hm' => ?_
      · exact (List.nodup_range' _).map fun _ _ h => (ListMove.reverse.inj h).2.2
      · obtain ⟨j, -, rfl⟩ := List.mem_map.1 hm
        obtain ⟨j', -, h⟩ := List.mem_map.1 hm'
        exact (ListMove.reverse.inj h).2.1.symm
    · simp only [List.mem_flatMap, List.mem_map] at hm hm'
      obtain ⟨i, -, j, -, rfl⟩ := hm
      obtain ⟨i', -, j', -, h⟩ := hm'
      exact ListVariable.eq_of_mem_movable hp hq (ListMove.reverse.inj h).1.symm
  mem_iff m := by
    simp only [reversals, List.mem_flatMap, Prod.exists, List.mem_map, List.mem_range, List.mem_range'_1]
    constructor
    · rintro ⟨e, n, hp, i, hi, j, ⟨hij, hj⟩, rfl⟩
      obtain ⟨he, rfl⟩ := ListVariable.mem_movable.1 hp
      exact ⟨isDoable_reverse_iff.2 ⟨he, hij, by omega⟩, e, i, j, rfl⟩
    · rintro ⟨hdoable, e, i, j, rfl⟩
      obtain ⟨he, hij, hj⟩ := isDoable_reverse_iff.1 hdoable
      exact ⟨e, _, ListVariable.mem_movable.2 ⟨he, rfl⟩, i, by omega, j, ⟨hij, by omega⟩, rfl⟩

omit [PlanningValue V] [DecidableEq V] in
/-- A sublist is moved to the positions of movable lists that it may go to. -/
theorem mem_sublistChangesOf {size : Nat} {m : ListMove V} : m ∈ sublistChangesOf x s a i size ↔
    ∃ b n, m = .sublistChange a i (i + size) b n ∧ x.Movable s b ∧
      n ≤ (if a = b then x.size s b - size else x.size s b) ∧ ¬ (a = b ∧ i = n) := by
  simp only [sublistChangesOf, List.mem_flatMap, List.mem_map, List.mem_filter, List.mem_range]
  constructor
  · rintro ⟨⟨b, k⟩, hb, n, ⟨hn, hne⟩, rfl⟩
    obtain ⟨hmovable, rfl⟩ := ListVariable.mem_movable.1 hb
    exact ⟨b, n, rfl, hmovable, by grind, by grind⟩
  · rintro ⟨b, n, rfl, hb, hn, hne⟩
    exact ⟨(b, _), ListVariable.mem_movable.2 ⟨hb, rfl⟩, n, ⟨by grind, by grind⟩, rfl⟩

omit [PlanningValue V] [DecidableEq V] in
theorem nodup_sublistChangesOf {size : Nat} : (sublistChangesOf x s a i size).Nodup := by
  refine nodup_flatMap_of_eq ListVariable.nodup_movable (fun p _ => ?_) fun p hp q hq m hm hm' => ?_
  · exact (List.nodup_range.filter _).map fun _ _ h => (ListMove.sublistChange.inj h).2.2.2.2
  · obtain ⟨n, -, rfl⟩ := List.mem_map.1 hm
    obtain ⟨n', -, h⟩ := List.mem_map.1 hm'
    exact ListVariable.eq_of_mem_movable hp hq (ListMove.sublistChange.inj h).2.2.2.1.symm

/-- The moves of sublists of sizes in a span are listed. -/
theorem covers_sublistChanges {low high : Nat} (hlow : 0 < low) :
    Covers x s (fun m => ∃ a i j b n, m = .sublistChange a i j b n ∧ low ≤ j - i ∧ j - i ≤ high)
      (sublistChanges x s low high) where
  nodup := by
    refine nodup_flatMap_of_eq ListVariable.nodup_movable (fun p _ => ?_) fun p hp q hq m hm hm' => ?_
    · refine nodup_flatMap_of_eq List.nodup_range' (fun size _ => ?_) fun size _ size' _ m hm hm' => ?_
      · refine nodup_flatMap_of_eq List.nodup_range (fun i _ => nodup_sublistChangesOf) fun i _ i' _ m hm hm' => ?_
        obtain ⟨b, n, rfl, -⟩ := mem_sublistChangesOf.1 hm
        obtain ⟨b', n', h, -⟩ := mem_sublistChangesOf.1 hm'
        exact (ListMove.sublistChange.inj h).2.1
      · obtain ⟨i, -, hm⟩ := List.mem_flatMap.1 hm
        obtain ⟨i', -, hm'⟩ := List.mem_flatMap.1 hm'
        obtain ⟨b, n, rfl, -⟩ := mem_sublistChangesOf.1 hm
        obtain ⟨b', n', h, -⟩ := mem_sublistChangesOf.1 hm'
        obtain ⟨-, hi, hj, -⟩ := ListMove.sublistChange.inj h
        omega
    · simp only [List.mem_flatMap] at hm hm'
      obtain ⟨size, -, i, -, hm⟩ := hm
      obtain ⟨size', -, i', -, hm'⟩ := hm'
      obtain ⟨b, n, rfl, -⟩ := mem_sublistChangesOf.1 hm
      obtain ⟨b', n', h, -⟩ := mem_sublistChangesOf.1 hm'
      exact ListVariable.eq_of_mem_movable hp hq (ListMove.sublistChange.inj h).1
  mem_iff m := by
    simp only [sublistChanges, List.mem_flatMap, Prod.exists, List.mem_range, List.mem_range'_1]
    constructor
    · rintro ⟨a, k, hp, size, ⟨hmin, hmax⟩, i, hi, hm⟩
      obtain ⟨ha, rfl⟩ := ListVariable.mem_movable.1 hp
      obtain ⟨b, n, rfl, hb, hn, hne⟩ := mem_sublistChangesOf.1 hm
      refine ⟨isDoable_sublistChange_iff.2 ⟨ha, hb, by omega, by omega, ?_, hne⟩, a, i, i + size, b, n, rfl,
        by omega, by omega⟩
      rwa [Nat.add_sub_cancel_left]
    · rintro ⟨hdoable, a, i, j, b, n, rfl, hmin, hmax⟩
      obtain ⟨ha, hb, hij, hj, hn, hne⟩ := isDoable_sublistChange_iff.1 hdoable
      refine ⟨a, _, ListVariable.mem_movable.2 ⟨ha, rfl⟩, j - i, ⟨hmin, by omega⟩, i, by omega,
        mem_sublistChangesOf.2 ⟨b, n, ?_, hb, hn, hne⟩⟩
      rw [Nat.add_sub_cancel' hij.le]

/-- The positions of movable lists. -/
def places (x : ListVariable S V) (s : S) : List (Nat × Nat) :=
  (x.movable s).flatMap fun (e, n) => (List.range n).map fun i => (e, i)

omit [PlanningValue V] [DecidableEq V] in
theorem mem_places : (e, i) ∈ places x s ↔ x.Movable s e ∧ i < x.size s e := by
  simp only [places, List.mem_flatMap, Prod.exists, List.mem_map, List.mem_range, ListVariable.mem_movable]
  grind

omit [PlanningValue V] [DecidableEq V] in
theorem nodup_places : (places x s).Nodup := by
  refine nodup_flatMap_of_eq ListVariable.nodup_movable (fun p _ => ?_) fun p hp q hq m hm hm' => ?_
  · exact List.nodup_range.map fun _ _ h => (Prod.mk.inj h).2
  · obtain ⟨i, -, rfl⟩ := List.mem_map.1 hm
    obtain ⟨i', -, h⟩ := List.mem_map.1 hm'
    exact ListVariable.eq_of_mem_movable hp hq (Prod.mk.inj h).1.symm

/-- Of two members one comes first. -/
theorem sublist_pair_iff {α : Type} {l : List α} (hl : l.Nodup) {p q : α} (hp : p ∈ l) (hq : q ∈ l) (hne : p ≠ q) :
    List.Sublist [p, q] l ↔ ¬ List.Sublist [q, p] l := by
  induction l with
  | nil => cases hp
  | cons r l ih =>
    obtain ⟨hr, hl⟩ := List.nodup_cons.1 hl
    have hsplit : ∀ {p q : α}, List.Sublist [p, q] (r :: l) ↔ List.Sublist [p, q] l ∨ p = r ∧ q ∈ l := by
      simp [List.sublist_cons_iff]
    rw [hsplit, hsplit]
    have hfirst : ∀ {p q : α}, List.Sublist [p, q] l → p ∈ l ∧ q ∈ l := fun h =>
      ⟨h.subset List.mem_cons_self, h.subset (List.mem_cons_of_mem _ List.mem_cons_self)⟩
    grind

omit [PlanningValue V] [DecidableEq V] in
/-- Each position is swapped with the later ones. -/
theorem mem_swapsAmong {l : List (Nat × Nat)} {m : ListMove V} :
    m ∈ swapsAmong l ↔ ∃ p q, List.Sublist [p, q] l ∧ m = .swap p.1 p.2 q.1 q.2 := by
  induction l with
  | nil => simp [swapsAmong]
  | cons p l ih =>
    simp only [swapsAmong, List.mem_append, List.mem_map, ih, List.sublist_cons_iff]
    constructor
    · rintro (⟨q, hq, rfl⟩ | ⟨p', q, h, rfl⟩)
      · exact ⟨p, q, .inr ⟨[q], rfl, List.singleton_sublist.2 hq⟩, rfl⟩
      · exact ⟨p', q, .inl h, rfl⟩
    · rintro ⟨p', q, h | ⟨r, hr, h⟩, rfl⟩
      · exact .inr ⟨p', q, h, rfl⟩
      · cases hr
        exact .inl ⟨q, List.singleton_sublist.1 h, rfl⟩

omit [PlanningValue V] [DecidableEq V] in
theorem nodup_swapsAmong {l : List (Nat × Nat)} (hl : l.Nodup) : (swapsAmong l : List (ListMove V)).Nodup := by
  induction l with
  | nil => exact List.nodup_nil
  | cons p l ih =>
    obtain ⟨hp, hl⟩ := List.nodup_cons.1 hl
    refine List.Nodup.append (hl.map fun q r h => ?_) (ih hl) (List.disjoint_left.2 fun m hm hm' => ?_)
    · obtain ⟨-, -, h₁, h₂⟩ := ListMove.swap.inj h
      exact Prod.ext h₁ h₂
    · obtain ⟨q, -, rfl⟩ := List.mem_map.1 hm
      obtain ⟨p', q', hsub, h⟩ := mem_swapsAmong.1 hm'
      obtain ⟨h₁, h₂, -⟩ := ListMove.swap.inj h
      exact hp ((Prod.ext h₁ h₂ : p = p') ▸ hsub.subset List.mem_cons_self)

/-- Exactly the doable swaps are listed, each in one of the two ways to write it and once. -/
structure CoversSwaps (x : ListVariable S V) (s : S) (l : List (ListMove V)) : Prop where
  /-- No swap is listed twice. -/
  nodup : l.Nodup
  /-- What is listed are doable swaps. -/
  doable : ∀ m ∈ l, m.isDoable x s = true ∧ ∃ a i b j, m = .swap a i b j
  /-- A doable swap is listed the way it is written or the other way, and not both. -/
  one : ∀ a i b j, (swap a i b j : ListMove V).isDoable x s = true →
    (.swap a i b j ∈ l ↔ .swap b j a i ∉ l)

/-- The swaps of elements are listed if no element is at two positions. -/
theorem coversSwaps_swaps (hnodup : (x.elements s).Nodup) : CoversSwaps x s (swaps x s) where
  nodup := nodup_swapsAmong nodup_places
  doable m hm := by
    obtain ⟨⟨a, i⟩, ⟨b, j⟩, hsub, rfl⟩ := mem_swapsAmong.1 hm
    obtain ⟨ha, hi⟩ := mem_places.1 (hsub.subset List.mem_cons_self)
    obtain ⟨hb, hj⟩ := mem_places.1 (hsub.subset (List.mem_cons_of_mem _ List.mem_cons_self))
    have hne : ¬ (a = b ∧ i = j) := by
      rintro ⟨rfl, rfl⟩
      have := nodup_places.sublist hsub
      simp at this
    exact ⟨isDoable_swap_iff.2 ⟨ha, hb, hi, hj, hne,
      ListVariable.getElem?_ne_of_nodup hnodup ha.1 hb.1 hi hne⟩, a, i, b, j, rfl⟩
  one a i b j hdoable := by
    obtain ⟨ha, hb, hi, hj, hne, -⟩ := isDoable_swap_iff.1 hdoable
    have hmem : ∀ {a i b j}, (.swap a i b j : ListMove V) ∈ swaps x s ↔
        List.Sublist [(a, i), (b, j)] (places x s) := by
      intro a i b j
      refine mem_swapsAmong.trans ⟨?_, fun h => ⟨_, _, h, rfl⟩⟩
      rintro ⟨p, q, hsub, h⟩
      obtain ⟨rfl, rfl, rfl, rfl⟩ := ListMove.swap.inj h
      exact hsub
    rw [hmem, hmem]
    exact sublist_pair_iff nodup_places (mem_places.2 ⟨ha, hi⟩) (mem_places.2 ⟨hb, hj⟩) fun h =>
      hne (Prod.mk.inj h)

end ListMove

namespace MoveSelector

variable {S V : Type} [PlanningValue V] [DecidableEq V] {x : ListVariable S V} {s : S}

/-- A selector with an order gives the moves of a list: as they are listed, or all of them shuffled. -/
structure Gives (x : ListVariable S V) (s : S) (selector : SelectionOrder → MoveSelector S)
    (l : List (ListMove V)) : Prop where
  /-- In their order nothing is drawn. -/
  listed : ∀ gen, ((selector .asListed).moves s).run gen = .ok (l.map fun m => m.toMove x, gen)
  /-- In random order the same moves come, whatever is drawn. -/
  shuffled : ∀ gen, ∃ (l' : List (ListMove V)) (gen' : Generator),
    ((selector .random).moves s).run gen = .ok (l'.map fun m => m.toMove x, gen') ∧ l'.Perm l

/-- The moves of a list variable are given as they are listed or shuffled. -/
theorem gives_of_moves_eq {selector : SelectionOrder → MoveSelector S} {l : List (ListMove V)}
    (h : ∀ o, (selector o).moves s = ofList x o l) : Gives x s selector l where
  listed gen := by
    rw [h]
    rfl
  shuffled gen := by
    obtain ⟨l', gen', hl'⟩ := Generator.total_shuffle l gen
    refine ⟨l', gen', ?_, Generator.perm_shuffle hl'⟩
    rw [h, ofList, StateT.run_bind]
    exact bind_eq_ok_iff.2 ⟨_, hl', rfl⟩

/-- The selectors of a list variable whose lists share no element give exactly the doable moves of their kind, each
once, in their order or shuffled: the moves of elements, the swaps in one of the two ways to write them, the reversals
of all segments of two or more elements, and the moves of all sublists of sizes in a span. -/
theorem gives_doable_of_nodup (hnodup : (x.elements s).Nodup) :
    (∃ l, Gives x s (listChange x) l ∧ ListMove.Covers x s (fun m => ∃ a i b j, m = .change a i b j) l) ∧
    (∃ l, Gives x s (listSwap x) l ∧ ListMove.CoversSwaps x s l) ∧
    (∃ l, Gives x s (listReverse x) l ∧ ListMove.Covers x s (fun m => ∃ e i j, m = .reverse e i j) l ∧
      ∀ e i j, .reverse e i j ∈ l ↔ x.Movable s e ∧ i + 2 ≤ j ∧ j ≤ x.size s e) ∧
    ∀ minimum maximum, ∃ l, Gives x s (fun o => sublistChange x o minimum maximum) l ∧
      ListMove.Covers x s (fun m => ∃ a i j b n, m = .sublistChange a i j b n ∧
        max minimum 1 ≤ j - i ∧ j - i ≤ max maximum (max minimum 1)) l := by
  refine ⟨⟨_, gives_of_moves_eq fun _ => rfl, ListMove.covers_changes⟩,
    ⟨_, gives_of_moves_eq fun _ => rfl, ListMove.coversSwaps_swaps hnodup⟩,
    ⟨_, gives_of_moves_eq fun _ => rfl, ListMove.covers_reversals, fun e i j => ?_⟩,
    fun minimum maximum => ⟨_, gives_of_moves_eq fun _ => rfl,
      ListMove.covers_sublistChanges (Nat.lt_of_lt_of_le Nat.one_pos (Nat.le_max_right _ _))⟩⟩
  rw [ListMove.covers_reversals.mem_iff, ListMove.isDoable_reverse_iff, and_iff_left ⟨e, i, j, rfl⟩]

/-- A plan with a route of two visits and a route of one. -/
def twoRoutes : RoutePlan where
  vehicles := [⟨0, 5, [0, 2]⟩, ⟨1, 5, [1]⟩]
  visits := [
    { id := 0, demand := 1, service := 1, due := 10 },
    { id := 1, demand := 1, service := 1, due := 10 },
    { id := 2, demand := 1, service := 1, due := 10 }]
  travelTimes := [[0, 1, 2, 3], [1, 0, 1, 2], [2, 1, 0, 1], [3, 2, 1, 0]]

/-- The visits of two routes are swapped in every way, and no way twice. -/
theorem gives_doable_twoRoutes : (RoutePlan.routeVariable.elements twoRoutes).Nodup ∧
    ∃ l, Gives RoutePlan.routeVariable twoRoutes (listSwap RoutePlan.routeVariable) l ∧
      ListMove.CoversSwaps RoutePlan.routeVariable twoRoutes l := by
  have hnodup : (RoutePlan.routeVariable.elements twoRoutes).Nodup := by decide
  exact ⟨hnodup, (gives_doable_of_nodup hnodup).2.1⟩

end MoveSelector

end Planning

/-!
## Candidates in order

Candidates that are sorted by a key are the same candidates. Those that have the same key keep their order.
-/

namespace Planning

open Checked

/-- Members sorted by a key: each of them as often as before, in the order of their keys, and those that have the same
key in the order in which they were. -/
def SortsBy {α : Type} (le : Int → Int → Bool) (key : α → Checked Int) (l l' : List α) : Prop :=
  ∃ rank : α → Int, (∀ a ∈ l, ∀ n, key a = .ok n → rank a = n) ∧ l'.Perm l ∧
    (l'.Pairwise fun a b => le (rank a) (rank b) = true) ∧
    ∀ n, (l'.filter fun a => decide (rank a = n)) = l.filter fun a => decide (rank a = n)

namespace SortsBy

variable {α : Type} {le : Int → Int → Bool} {key : α → Checked Int} {l l' : List α}

/-- The members are the same. -/
theorem perm (h : SortsBy le key l l') : l'.Perm l := by
  obtain ⟨_, -, hperm, -⟩ := h
  exact hperm

/-- The key of a member, or any number if there is none. -/
theorem exists_rank (key : α → Checked Int) : ∃ rank : α → Int, ∀ a n, key a = .ok n → rank a = n := by
  refine ⟨fun a => (key a).toOption.getD 0, fun a n h => ?_⟩
  dsimp only
  rw [h]
  rfl

/-- A single member is sorted. -/
theorem of_length_le_one (h : l.length ≤ 1) : SortsBy le key l l := by
  obtain ⟨rank, hrank⟩ := exists_rank key
  refine ⟨rank, fun a _ => hrank a, .refl l, ?_, fun _ => rfl⟩
  match l, h with
  | [], _ => exact .nil
  | [a], _ => exact List.pairwise_singleton _ _

/-- Members with their keys that are sorted by the keys. -/
theorem of_keyed (htrans : ∀ m n p, le m n = true → le n p = true → le m p = true)
    (htotal : ∀ m n, (le m n || le n m) = true) {keyed : List (Int × α)}
    (h : l.mapM (fun a => do return (← key a, a)) = .ok keyed) :
    SortsBy le key l ((keyed.mergeSort fun a b => le a.1 b.1).map Prod.snd) := by
  obtain ⟨rank, hrank⟩ := exists_rank key
  have hkeyed : keyed = l.map fun a => (rank a, a) := by
    have hone : ∀ a p, (do return (← key a, a)) = .ok p ↔ key a = .ok (rank a) ∧ p = (rank a, a) := by
      intro a p
      rw [bind_eq_ok_iff]
      constructor
      · rintro ⟨n, hn, hpure⟩
        cases hpure
        rw [hrank a n hn]
        exact ⟨hn, rfl⟩
      · rintro ⟨hn, rfl⟩
        exact ⟨_, hn, rfl⟩
    exact ((mapM_eq_ok_iff_map hone).1 h).2
  let before (a b : α) : Bool := le (rank a) (rank b)
  have hbefore : ∀ a b c, before a b = true → before b c = true → before a c = true := fun _ _ _ => htrans _ _ _
  have hone : ∀ a b, (before a b || before b a) = true := fun _ _ => htotal _ _
  have hsorted : (keyed.mergeSort fun a b => le a.1 b.1).map Prod.snd = l.mergeSort before := by
    have hmap : (l.mergeSort before).map (fun a => (rank a, a)) =
        (l.map fun a => (rank a, a)).mergeSort fun a b => le a.1 b.1 := List.map_mergeSort fun _ _ _ _ => rfl
    rw [hkeyed, ← hmap, List.map_map]
    exact List.map_id _
  rw [hsorted]
  refine ⟨rank, fun a _ => hrank a, List.mergeSort_perm l _, List.pairwise_mergeSort hbefore hone l, fun n => ?_⟩
  -- Members with the same key are in order before they are sorted, so they stay in that order.
  have hsame : (l.filter fun a => decide (rank a = n)).Pairwise fun a b => before a b = true := by
    refine List.pairwise_of_forall_mem_list fun a ha b hb => ?_
    change le (rank a) (rank b) = true
    rw [of_decide_eq_true (List.mem_filter.1 ha).2, of_decide_eq_true (List.mem_filter.1 hb).2]
    simpa using htotal n n
  have hsub := (List.sublist_mergeSort hbefore hone hsame List.filter_sublist).filter fun a => decide (rank a = n)
  rw [List.filter_filter] at hsub
  simp only [Bool.and_self] at hsub
  exact (hsub.eq_of_length ((List.mergeSort_perm l _).filter _).length_eq.symm).symm

end SortsBy

section

variable {α : Type} {key : α → Checked Int} {l l' : List α}

/-- Members are sorted by a key, the least first. -/
theorem sortByKey_sorts (h : sortByKey key l = .ok l') : SortsBy (fun m n => decide (m ≤ n)) key l l' := by
  unfold sortByKey at h
  split at h
  · rename_i hshort
    cases h
    exact .of_length_le_one hshort
  · obtain ⟨keyed, hkeyed, hpure⟩ := bind_eq_ok_iff.1 h
    cases hpure
    exact .of_keyed (by simp; omega) (by simp; omega) hkeyed

/-- Members are sorted by a key, the greatest first. -/
theorem sortByKeyDescending_sorts (h : sortByKeyDescending key l = .ok l') :
    SortsBy (fun m n => decide (n ≤ m)) key l l' := by
  unfold sortByKeyDescending at h
  split at h
  · rename_i hshort
    cases h
    exact .of_length_le_one hshort
  · obtain ⟨keyed, hkeyed, hpure⟩ := bind_eq_ok_iff.1 h
    cases hpure
    exact .of_keyed (by simp; omega) (by simp; omega) hkeyed

end

end Planning
