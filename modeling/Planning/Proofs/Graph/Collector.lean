import Mathlib.Algebra.BigOperators.Group.Multiset.Basic
import Mathlib.Algebra.Ring.Int.Defs
import Mathlib.Data.Multiset.MapFold
import Mathlib.Tactic.Ring
import Planning.Graph.Collector
import Planning.Proofs.Checked
import Planning.Proofs.Value.Order

/-!
# States of collectors

A state is reached by inputs when they are what is left of the inputs it took in after those it gave back.
The result of a collector depends on its inputs alone when all states reached by the same inputs finish
alike. A collector that makes no list has one state for some inputs: two inputs that come may be swapped, and
giving back an input that came last undoes it, so that whatever came and went, the state is that of the
inputs left. Tallies and loads are what takes an argument.
-/

namespace Planning

open Checked

/-! ## Tallies -/

namespace Tally

/-- Every value counts at least once. -/
def Positive (t : Tally) : Prop := ∀ e ∈ t, 0 < e.2

/-- Two values may be added in any order, the lesser one before the greater one. -/
theorem add_add_of_lt {v w : Value} (h : compare v w = .lt) (t : Tally) :
    add v (add w t) = add w (add v t) := by
  have hgt : compare w v = .gt := Std.OrientedCmp.gt_of_lt h
  induction t with
  | nil => simp [add, h, hgt]
  | cons e t ih =>
    obtain ⟨u, n⟩ := e
    cases hw : compare w u with
    | lt =>
      have hv : compare v u = .lt := Std.TransCmp.lt_trans h hw
      simp [add, h, hgt, hw, hv]
    | eq =>
      have hv : compare v u = .lt := by rwa [← Value.compare_eq_eq_iff.1 hw]
      simp [add, hgt, hw, hv]
    | gt =>
      cases hv : compare v u with
      | lt => simp [add, hgt, hw, hv]
      | eq => simp [add, hw, hv]
      | gt => simp [add, hw, hv, ih]

/-- Two values may be added in any order. -/
theorem add_add (v w : Value) (t : Tally) : add v (add w t) = add w (add v t) := by
  cases h : compare v w with
  | lt => exact add_add_of_lt h t
  | eq => rw [Value.compare_eq_eq_iff.1 h]
  | gt => exact (add_add_of_lt (Std.OrientedCmp.lt_of_gt h) t).symm

/-- A value that is added counts. -/
theorem Positive.add {t : Tally} (h : t.Positive) (v : Value) : Positive (Tally.add v t) := by
  induction t with
  | nil => simp [Tally.add, Positive]
  | cons e t ih =>
    obtain ⟨he, ht⟩ := List.forall_mem_cons.1 h
    unfold Tally.add
    split
    · exact List.forall_mem_cons.2 ⟨Nat.one_pos, h⟩
    · exact List.forall_mem_cons.2 ⟨Nat.succ_pos _, ht⟩
    · exact List.forall_mem_cons.2 ⟨he, ih ht⟩

/-- Taking a value away undoes adding it. -/
theorem remove_add {t : Tally} (h : t.Positive) (v : Value) : remove v (add v t) = t := by
  induction t with
  | nil => simp [add, remove]
  | cons e t ih =>
    obtain ⟨u, n⟩ := e
    obtain ⟨hn, ht⟩ := List.forall_mem_cons.1 h
    cases hv : compare v u with
    | lt => simp [add, remove, hv]
    | eq =>
      have hn : ¬ n = 0 := Nat.ne_of_gt hn
      simp [add, remove, Value.compare_eq_eq_iff.1 hv, hn]
    | gt =>
      have hne : u ≠ v := by
        rintro rfl
        rw [Value.compare_eq_eq_iff.2 rfl] at hv
        cases hv
      simp [add, remove, hv, hne, ih ht]

end Tally

/-! ## Loads -/

namespace Loads

/-- Placing a load puts it under its key and leaves the other keys. -/
theorem find?_place (new : Load) (es : List Load) (key : Value) :
    (place new es).find? (fun e => decide (e.key = key)) =
      if key = new.key then some new else es.find? fun e => decide (e.key = key) := by
  induction es with
  | nil => simp [place, eq_comm]
  | cons e es ih =>
    unfold place
    cases hcmp : compare new.key e.key with
    | lt => simp only [List.find?_cons]; grind
    | eq =>
      have := Value.compare_eq_eq_iff.1 hcmp
      simp only [List.find?_cons]; grind
    | gt =>
      have hne : e.key ≠ new.key := by
        intro heq
        rw [Value.compare_eq_eq_iff.2 heq.symm] at hcmp
        cases hcmp
      simp only [List.find?_cons]; grind

/-- A load takes the place of a former load of its key. -/
theorem place_place_of_eq {a b : Load} (h : a.key = b.key) (es : List Load) :
    place a (place b es) = place a es := by
  have heq : compare a.key b.key = .eq := Value.compare_eq_eq_iff.2 h
  induction es with
  | nil => simp [place, heq]
  | cons e es ih =>
    cases hcmp : compare b.key e.key <;> simp [place, h, hcmp, ih]

/-- The loads of two keys may be placed in any order, the lesser key before the greater one. -/
theorem place_place_of_lt {a b : Load} (h : compare a.key b.key = .lt) (es : List Load) :
    place a (place b es) = place b (place a es) := by
  have hgt : compare b.key a.key = .gt := Std.OrientedCmp.gt_of_lt h
  induction es with
  | nil => simp [place, h, hgt]
  | cons e es ih =>
    cases hb : compare b.key e.key with
    | lt =>
      have ha : compare a.key e.key = .lt := Std.TransCmp.lt_trans h hb
      simp [place, h, hgt, hb, ha]
    | eq =>
      have ha : compare a.key e.key = .lt := by rwa [← Value.compare_eq_eq_iff.1 hb]
      simp [place, h, hgt, hb, ha]
    | gt =>
      cases ha : compare a.key e.key with
      | lt => simp [place, hgt, hb, ha]
      | eq =>
        have hba : compare b.key a.key = .gt := hgt
        simp [place, hb, ha, hgt]
      | gt => simp [place, hb, ha, ih]

/-- The loads of two keys may be placed in any order. -/
theorem place_place {a b : Load} (h : a.key ≠ b.key) (es : List Load) :
    place a (place b es) = place b (place a es) := by
  cases hcmp : compare a.key b.key with
  | lt => exact place_place_of_lt hcmp es
  | eq => exact absurd (Value.compare_eq_eq_iff.1 hcmp) h
  | gt => exact (place_place_of_lt (Std.OrientedCmp.lt_of_gt hcmp) es).symm

/-- The load of a key, empty if it has none. -/
def loadOf (l : Loads) (key : Value) : Load := (l.find? key).getD ⟨key, 0, 0⟩

/-- The load of a key carries the key. -/
theorem key_of_find? {l : Loads} {key : Value} {e : Load} (h : l.find? key = some e) : e.key = key := by
  simpa using List.find?_some h

/-- The loads with one more item, whatever the bounds. -/
def put (l : Loads) (key : Value) (amount : Int) : Loads where
  entries := place ⟨key, (l.loadOf key).items + 1, (l.loadOf key).amount + amount⟩ l.entries
  sum := l.sum + amount
  squares := l.squares + (((l.loadOf key).amount + amount) * ((l.loadOf key).amount + amount) -
    (l.loadOf key).amount * (l.loadOf key).amount)

/-- An item changes the load of its key alone. -/
theorem find?_put (l : Loads) (key k : Value) (amount : Int) :
    (l.put key amount).find? k =
      if k = key then some ⟨key, (l.loadOf key).items + 1, (l.loadOf key).amount + amount⟩ else l.find? k :=
  find?_place _ _ _

/-- The load of a key with one more item. -/
theorem loadOf_put_self (l : Loads) (key : Value) (amount : Int) :
    (l.put key amount).loadOf key = ⟨key, (l.loadOf key).items + 1, (l.loadOf key).amount + amount⟩ := by
  rw [loadOf, find?_put, if_pos rfl, Option.getD_some]

/-- The load of another key stays. -/
theorem loadOf_put_of_ne (l : Loads) {key k : Value} (h : k ≠ key) (amount : Int) :
    (l.put key amount).loadOf k = l.loadOf k := by
  rw [loadOf, find?_put, if_neg h, loadOf]

/-- Two items may be put in any order. -/
theorem put_put (l : Loads) (key key' : Value) (amount amount' : Int) :
    (l.put key' amount').put key amount = (l.put key amount).put key' amount' := by
  by_cases h : key = key'
  · subst h
    rw [put, put.eq_def (l.put key amount), loadOf_put_self, loadOf_put_self]
    simp only [put, place_place_of_eq]
    congr 1
    · congr 2
      ring
    · ring
    · ring
  · rw [put, put.eq_def (l.put key amount), loadOf_put_of_ne l h, loadOf_put_of_ne l (Ne.symm h)]
    simp only [put]
    congr 1
    · exact place_place h l.entries
    · ring
    · ring

/-- Loads shift within the bounds of their numbers. -/
theorem eq_of_shift {l l' : Loads} {key : Value} {items : Nat} {old diff : Int}
    (h : l.shift key items old diff = .ok l') :
    l' = ⟨place ⟨key, items, old + diff⟩ l.entries, l.sum + diff,
      l.squares + ((old + diff) * (old + diff) - old * old)⟩ := by
  simp only [shift, boundedSquares, bind_eq_ok_iff, pure_eq_ok_iff, bounded_eq_ok_iff, ite_eq_ok_iff] at h
  obtain ⟨_, ⟨-, rfl⟩, _, ⟨-, rfl⟩, _, ⟨-, rfl⟩, rfl⟩ := h
  rfl

/-- An item is put. -/
theorem eq_put_of_add {l l' : Loads} {key : Value} {amount : Int} (h : l.add key amount = .ok l') :
    l' = l.put key amount := by
  unfold add at h
  cases hfind : l.find? key with
  | some e =>
    rw [hfind] at h
    rw [eq_of_shift h, put, loadOf, hfind, Option.getD_some]
  | none =>
    rw [hfind] at h
    rw [eq_of_shift h, put, loadOf, hfind, Option.getD_none]

/-- The load of each key is in its place and comes of some items. -/
structure Settled (l : Loads) : Prop where
  /-- A key with a load has an item. -/
  items : ∀ k e, l.find? k = some e → 0 < e.items
  /-- The load of a key is in its place. -/
  place : ∀ k e, l.find? k = some e → Loads.place e l.entries = l.entries

/-- An item leaves every load in its place. -/
theorem Settled.put {l : Loads} (h : l.Settled) (key : Value) (amount : Int) :
    (l.put key amount).Settled := by
  refine ⟨fun k e he => ?_, fun k e he => ?_⟩
  · rw [find?_put] at he
    split at he
    · cases he
      exact Nat.succ_pos _
    · exact h.items k e he
  · rw [find?_put] at he
    split at he
    · cases he
      exact place_place_of_eq rfl _
    · rename_i hk
      have hkey : e.key = k := key_of_find? he
      rw [Loads.put, place_place (by rwa [hkey]), h.place k e he]

/-- A key without items has no load. -/
theorem Settled.find?_eq_none {l : Loads} (h : l.Settled) {key : Value} (hitems : (l.loadOf key).items = 0) :
    l.find? key = none := by
  cases hfind : l.find? key with
  | none => rfl
  | some e =>
    rw [loadOf, hfind, Option.getD_some] at hitems
    exact absurd hitems (Nat.ne_of_gt (h.items key e hfind))

/-- Dropping a key undoes placing its load. -/
theorem filter_place {new : Load} {es : List Load} (h : ∀ e ∈ es, e.key ≠ new.key) :
    (place new es).filter (fun e => e.key ≠ new.key) = es := by
  have hkeep : ∀ {es : List Load}, (∀ e ∈ es, e.key ≠ new.key) → es.filter (fun e => e.key ≠ new.key) = es :=
    fun h => List.filter_eq_self.2 fun e he => decide_eq_true (h e he)
  induction es with
  | nil => simp [place]
  | cons e es ih =>
    obtain ⟨he, hes⟩ := List.forall_mem_cons.1 h
    unfold place
    split
    · rw [List.filter_cons_of_neg (by simp), hkeep h]
    · rename_i hcmp
      exact absurd (Value.compare_eq_eq_iff.1 hcmp).symm he
    · rw [List.filter_cons_of_pos (by simpa using he), ih hes]

/-- Taking an item away undoes putting it. -/
theorem eq_of_remove_put {l l' : Loads} (hl : l.Settled) {key : Value} {amount : Int}
    (h : (l.put key amount).remove key amount = .ok l') : l' = l := by
  rw [remove, find?_put, if_pos rfl] at h
  simp only [bind_eq_ok_iff, bounded_eq_ok_iff] at h
  obtain ⟨_, ⟨-, rfl⟩, l₁, hshift, h⟩ := h
  have hback : l₁ =
      { l with entries := Loads.place ⟨key, (l.loadOf key).items, (l.loadOf key).amount⟩ l.entries } := by
    rw [eq_of_shift hshift, put]
    simp only [place_place_of_eq, Nat.add_sub_cancel, add_neg_cancel_right]
    congr 1
    ring
  by_cases hitems : (l.loadOf key).items = 0
  · have hnone := hl.find?_eq_none hitems
    have hload : l.loadOf key = ⟨key, 0, 0⟩ := by rw [loadOf, hnone, Option.getD_none]
    have hfind : l₁.find? key = some ⟨key, 0, 0⟩ := by
      rw [hback, hload, find?, find?_place, if_pos rfl]
    have hothers : ∀ e ∈ l.entries, e.key ≠ key := by simpa [find?] using hnone
    rw [if_pos (by rw [hitems]), drop, hfind] at h
    simp only [Option.map_some, Option.getD_some, boundedSquares, bind_eq_ok_iff, pure_eq_ok_iff,
      bounded_eq_ok_iff, ite_eq_ok_iff, hback, hload] at h
    rw [@filter_place ⟨key, 0, 0⟩ l.entries hothers] at h
    obtain ⟨_, ⟨-, rfl⟩, _, ⟨-, rfl⟩, rfl⟩ := h
    simp
  · obtain ⟨e, he⟩ : ∃ e, l.find? key = some e := by
      rw [← Option.ne_none_iff_exists']
      intro hnone
      exact hitems (by rw [loadOf, hnone, Option.getD_none])
    have hload : (⟨key, (l.loadOf key).items, (l.loadOf key).amount⟩ : Load) = e := by
      rw [loadOf, he, Option.getD_some, ← key_of_find? he]
    rw [if_neg (by omega), pure_eq_ok_iff] at h
    rw [← h, hback, hload, hl.place key e he]

/-- A sum of squares fits or overflows. -/
theorem overflowOnly_boundedSquares (n : Int) : OverflowOnly (boundedSquares n) := by
  unfold boundedSquares
  split
  · exact .ok n
  · intro f h
    cases h
    rfl

/-- Loads shift unless a number overflows. -/
theorem overflowOnly_shift (l : Loads) (key : Value) (items : Nat) (old diff : Int) :
    OverflowOnly (l.shift key items old diff) :=
  (OverflowOnly.bounded _).bind fun _ _ => (OverflowOnly.bounded _).bind fun _ _ =>
    (overflowOnly_boundedSquares _).bind fun _ _ => .pure _

/-- An item is added unless a number overflows. -/
theorem overflowOnly_add (l : Loads) (key : Value) (amount : Int) : OverflowOnly (l.add key amount) := by
  unfold add
  split
  · exact overflowOnly_shift l key _ _ amount
  · exact overflowOnly_shift l key _ _ amount

/-- An item is removed unless a number overflows. -/
theorem overflowOnly_remove (l : Loads) (key : Value) (amount : Int) : OverflowOnly (l.remove key amount) := by
  have hdrop : ∀ l : Loads, OverflowOnly (l.drop key) := fun l =>
    (OverflowOnly.bounded _).bind fun _ _ => (overflowOnly_boundedSquares _).bind fun _ _ => .pure _
  unfold remove
  split
  · exact .ok _
  · exact (OverflowOnly.bounded _).bind fun _ _ => (overflowOnly_shift l key _ _ _).bind fun _ _ =>
      .ite (hdrop _) (.pure _)

end Loads

/-! ## Collectors -/

namespace Collector

variable {c : Collector}

/-- A state is reached by the inputs that were taken in and not given back. -/
inductive Reaches (c : Collector) : Multiset c.Input → c.State → Prop where
  /-- No input was taken in. -/
  | empty : Reaches c 0 c.empty
  /-- One more input was taken in. -/
  | accumulate {m : Multiset c.Input} {s s' : c.State} {v : c.Input} :
    Reaches c m s → c.accumulate s v = .ok s' → Reaches c (v ::ₘ m) s'
  /-- One input was given back. -/
  | retract {m : Multiset c.Input} {s s' : c.State} {v : c.Input} :
    Reaches c (v ::ₘ m) s → c.retract s v = .ok s' → Reaches c m s'

/-- The result depends on the inputs alone, in whatever order they came and went. -/
def OrderFree (c : Collector) : Prop :=
  ∀ m s s', c.Reaches m s → c.Reaches m s' → c.finish s = c.finish s'

open Classical in
/-- The result of some inputs, if a state that they reach has one. -/
noncomputable def result (c : Collector) (m : Multiset c.Input) : Option Value :=
  if h : ∃ r s, c.Reaches m s ∧ c.finish s = .ok r then some h.choose else none

/-- The result of any state is that of its inputs. -/
theorem OrderFree.result_eq {c : Collector} (h : c.OrderFree) {m : Multiset c.Input} {s : c.State}
    {r : Value} (hs : c.Reaches m s) (hr : c.finish s = .ok r) : c.result m = some r := by
  have hex : ∃ r s, c.Reaches m s ∧ c.finish s = .ok r := ⟨r, s, hs, hr⟩
  obtain ⟨s', hs', hr'⟩ := hex.choose_spec
  rw [result, dif_pos hex, Option.some.injEq]
  exact Except.ok.inj (hr'.symm.trans ((h m s' s hs' hs).trans hr))

/-- No list is made, in which the order of the inputs would show. -/
def Unordered : Collector → Prop
  | count => True
  | countDistinct _ => True
  | sum _ => True
  | average _ => True
  | extremum _ _ => True
  | toList _ => False
  | toSet _ => True
  | loadBalance _ _ => True
  | compose first second => first.Unordered ∧ second.Unordered
  | conditionally _ inner => inner.Unordered
  | andThen inner _ => inner.Unordered

/-- The state with one more input, whatever the bounds. -/
def put : (c : Collector) → c.Input → c.State → c.State
  | count, _, (n : Nat) => n + 1
  | countDistinct _, v, (t : Tally) => t.add v
  | sum _, (v : Int), (n : Int) => n + v
  | average _, (v : Int), ((total : Int), (n : Nat)) => (total + v, n + 1)
  | extremum _ _, v, (t : Tally) => t.add v
  | toList _, (v : Value), (l : List Value) => l ++ [v]
  | toSet _, v, (t : Tally) => t.add v
  | loadBalance _ _, (key, amount), (l : Loads) => l.put key amount
  | compose first second, (v, w), (a, b) => (first.put v a, second.put w b)
  | conditionally _ inner, v, s =>
    match v with
    | some v => inner.put v s
    | none => s
  | andThen inner _, v, s => inner.put v s

/-- The states of the parts are those of some inputs. -/
def Settled : (c : Collector) → c.State → Prop
  | count, _ => True
  | countDistinct _, (t : Tally) => t.Positive
  | sum _, _ => True
  | average _, _ => True
  | extremum _ _, (t : Tally) => t.Positive
  | toList _, _ => True
  | toSet _, (t : Tally) => t.Positive
  | loadBalance _ _, (l : Loads) => l.Settled
  | compose first second, (a, b) => first.Settled a ∧ second.Settled b
  | conditionally _ inner, s => inner.Settled s
  | andThen inner _, s => inner.Settled s

/-- Two inputs may come in any order where no list is made. -/
theorem put_put (hc : c.Unordered) (v w : c.Input) (s : c.State) :
    c.put v (c.put w s) = c.put w (c.put v s) := by
  induction c with
  | count => rfl
  | countDistinct f => exact Tally.add_add v w s
  | sum f => exact Int.add_right_comm s w v
  | average f => exact Prod.ext (Int.add_right_comm s.1 w v) rfl
  | extremum greatest f => exact Tally.add_add v w s
  | toList f => exact hc.elim
  | toSet f => exact Tally.add_add v w s
  | loadBalance key amount => exact Loads.put_put s v.1 w.1 v.2 w.2
  | compose first second ihf ihs => exact Prod.ext (ihf hc.1 v.1 w.1 s.1) (ihs hc.2 v.2 w.2 s.2)
  | conditionally p inner ih =>
    cases v with
    | none => rfl
    | some v =>
      cases w with
      | none => rfl
      | some w => exact ih hc v w s
  | andThen inner f ih => exact ih hc v w s

/-- An input that comes is put. -/
theorem eq_put_of_accumulate {s s' : c.State} {v : c.Input} (h : c.accumulate s v = .ok s') :
    s' = c.put v s := by
  induction c with
  | count => exact (Except.ok.inj h).symm
  | countDistinct f => exact (Except.ok.inj h).symm
  | sum f => exact (bounded_eq_ok_iff.1 h).2.symm
  | average f =>
    obtain ⟨total, htotal, h⟩ := bind_eq_ok_iff.1 h
    obtain ⟨-, rfl⟩ := bounded_eq_ok_iff.1 htotal
    exact (pure_eq_ok_iff.1 h).symm
  | extremum greatest f => exact (Except.ok.inj h).symm
  | toList f => exact (Except.ok.inj h).symm
  | toSet f => exact (Except.ok.inj h).symm
  | loadBalance key amount => exact Loads.eq_put_of_add h
  | compose first second ihf ihs =>
    obtain ⟨a, ha, h⟩ := bind_eq_ok_iff.1 h
    obtain ⟨b, hb, h⟩ := bind_eq_ok_iff.1 h
    rw [← pure_eq_ok_iff.1 h, ihf ha, ihs hb]
    rfl
  | conditionally p inner ih =>
    cases v with
    | none => exact (Except.ok.inj h).symm
    | some v => exact ih h
  | andThen inner f ih => exact ih h

/-- The empty state is settled. -/
theorem settled_empty (c : Collector) : c.Settled c.empty := by
  have hnil : Tally.Positive [] := by simp [Tally.Positive]
  induction c with
  | count => trivial
  | countDistinct f => exact hnil
  | sum f => trivial
  | average f => trivial
  | extremum greatest f => exact hnil
  | toList f => trivial
  | toSet f => exact hnil
  | loadBalance key amount => exact ⟨by simp [empty, Loads.find?], by simp [empty, Loads.find?]⟩
  | compose first second ihf ihs => exact ⟨ihf, ihs⟩
  | conditionally p inner ih => exact ih
  | andThen inner f ih => exact ih

/-- An input leaves the state settled. -/
theorem Settled.put {s : c.State} (h : c.Settled s) (v : c.Input) : c.Settled (c.put v s) := by
  induction c with
  | count => trivial
  | countDistinct f => exact Tally.Positive.add h v
  | sum f => trivial
  | average f => trivial
  | extremum greatest f => exact Tally.Positive.add h v
  | toList f => trivial
  | toSet f => exact Tally.Positive.add h v
  | loadBalance key amount => exact Loads.Settled.put h v.1 v.2
  | compose first second ihf ihs => exact ⟨ihf h.1 v.1, ihs h.2 v.2⟩
  | conditionally p inner ih =>
    cases v with
    | none => exact h
    | some v => exact ih h v
  | andThen inner f ih => exact ih h v

/-- Giving an input back undoes putting it where no list is made. -/
theorem eq_of_retract_put (hc : c.Unordered) {s s' : c.State} (hs : c.Settled s) {v : c.Input}
    (h : c.retract (c.put v s) v = .ok s') : s' = s := by
  induction c with
  | count => exact (Except.ok.inj h).symm
  | countDistinct f => exact (Except.ok.inj h).symm.trans (Tally.remove_add hs v)
  | sum f => exact (bounded_eq_ok_iff.1 h).2.symm.trans (Int.add_sub_cancel s v)
  | average f =>
    obtain ⟨total, htotal, h⟩ := bind_eq_ok_iff.1 h
    obtain ⟨-, rfl⟩ := bounded_eq_ok_iff.1 htotal
    rw [← pure_eq_ok_iff.1 h]
    exact Prod.ext (Int.add_sub_cancel s.1 v) rfl
  | extremum greatest f => exact (Except.ok.inj h).symm.trans (Tally.remove_add hs v)
  | toList f => exact hc.elim
  | toSet f => exact (Except.ok.inj h).symm.trans (Tally.remove_add hs v)
  | loadBalance key amount => exact Loads.eq_of_remove_put hs h
  | compose first second ihf ihs =>
    obtain ⟨a, ha, h⟩ := bind_eq_ok_iff.1 h
    obtain ⟨b, hb, h⟩ := bind_eq_ok_iff.1 h
    rw [← pure_eq_ok_iff.1 h]
    exact Prod.ext (ihf hc.1 hs.1 ha) (ihs hc.2 hs.2 hb)
  | conditionally p inner ih =>
    cases v with
    | none => exact (Except.ok.inj h).symm
    | some v => exact ih hc hs h
  | andThen inner f ih => exact ih hc hs h

/-- The state of some inputs where no list is made, whatever their order. -/
def stateOf (hc : c.Unordered) (m : Multiset c.Input) : c.State :=
  @Multiset.foldr _ _ c.put ⟨put_put hc⟩ c.empty m

/-- The state of one more input. -/
theorem stateOf_cons (hc : c.Unordered) (v : c.Input) (m : Multiset c.Input) :
    stateOf hc (v ::ₘ m) = c.put v (stateOf hc m) :=
  @Multiset.foldr_cons _ _ c.put ⟨put_put hc⟩ c.empty v m

/-- The state of inputs is settled. -/
theorem settled_stateOf (hc : c.Unordered) (m : Multiset c.Input) : c.Settled (stateOf hc m) := by
  induction m using Multiset.induction_on with
  | empty => exact settled_empty c
  | cons v m ih =>
    rw [stateOf_cons]
    exact ih.put v

/-- A state is that of its inputs where no list is made. -/
theorem Reaches.eq_stateOf (hc : c.Unordered) {m : Multiset c.Input} {s : c.State} (h : c.Reaches m s) :
    s = stateOf hc m := by
  induction h with
  | empty => rfl
  | accumulate _ hok ih =>
    subst ih
    rw [stateOf_cons]
    exact eq_put_of_accumulate hok
  | retract _ hok ih =>
    subst ih
    rw [stateOf_cons] at hok
    exact eq_of_retract_put hc (settled_stateOf hc _) hok

/-- A collector that makes no list does not look at the order of its inputs. -/
theorem Unordered.orderFree (hc : c.Unordered) : c.OrderFree := by
  intro m s s' h h'
  rw [h.eq_stateOf hc, h'.eq_stateOf hc]

/-- Inputs taken in one after another are reached. -/
theorem reaches_foldlM {l : List c.Input} {s : c.State} (h : l.foldlM c.accumulate c.empty = .ok s) :
    c.Reaches (l : Multiset c.Input) s := by
  induction l using List.reverseRecOn generalizing s with
  | nil =>
    cases h
    exact .empty
  | append_singleton l v ih =>
    rw [List.foldlM_append] at h
    obtain ⟨s₁, h₁, h⟩ := bind_eq_ok_iff.1 h
    rw [List.foldlM_cons] at h
    obtain ⟨s₂, h₂, h⟩ := bind_eq_ok_iff.1 h
    cases h
    have hcons : ((l ++ [v] : List c.Input) : Multiset c.Input) = v ::ₘ (l : Multiset c.Input) :=
      Multiset.coe_eq_coe.2 List.perm_append_comm
    rw [hcons]
    exact (ih h₁).accumulate h₂

/-- A list has what was taken in and not given back. -/
theorem Reaches.toList_eq {f : Value → Checked Value} {m : Multiset (toList f).Input} {s : (toList f).State}
    (h : (toList f).Reaches m s) : @Eq (Multiset Value) (@Multiset.ofList Value s) m := by
  have hadd : ∀ {m : Multiset Value} {l : List Value} {v : Value}, (l : Multiset Value) = m →
      ((l ++ [v] : List Value) : Multiset Value) = v ::ₘ m := by
    rintro _ l v rfl
    exact Multiset.coe_eq_coe.2 List.perm_append_comm
  have herase : ∀ {m : Multiset Value} {l : List Value} {v : Value}, (l : Multiset Value) = v ::ₘ m →
      ((l.erase v : List Value) : Multiset Value) = m := by
    intro m l v h
    rw [← Multiset.coe_erase, h, Multiset.erase_cons_head]
  induction h with
  | empty => rfl
  | accumulate _ hok ih =>
    cases hok
    exact hadd ih
  | retract _ hok ih =>
    cases hok
    exact herase ih

/-- The sum of integers is what their state is. -/
theorem Reaches.sum_eq {f : Value → Checked Int} {m : Multiset (Collector.sum f).Input}
    {n : (Collector.sum f).State} (h : Reaches (Collector.sum f) m n) : n = @Multiset.sum Int _ m := by
  have hadd : ∀ {m : Multiset Int} {n n' v : Int}, bounded (n + v) = .ok n' → n = m.sum →
      n' = (v ::ₘ m).sum := by
    intro m n n' v hok ih
    obtain ⟨-, rfl⟩ := bounded_eq_ok_iff.1 hok
    rw [Multiset.sum_cons, ih, add_comm]
  have hsub : ∀ {m : Multiset Int} {n n' v : Int}, bounded (n - v) = .ok n' → n = (v ::ₘ m).sum →
      n' = m.sum := by
    intro m n n' v hok ih
    obtain ⟨-, rfl⟩ := bounded_eq_ok_iff.1 hok
    rw [ih, Multiset.sum_cons, add_sub_cancel_left]
  induction h with
  | empty => rfl
  | accumulate _ hok ih => exact hadd hok ih
  | retract _ hok ih => exact hsub hok ih

/-- A sum that is added up is reached by what was added up. -/
theorem reaches_sum {f : Value → Checked Int} {l : List Int} {n : Int}
    (h : l.foldlM (fun total v => bounded (total + v)) 0 = .ok n) :
    Reaches (Collector.sum f) (l : Multiset Int) n ∧ n = l.sum :=
  have hreaches : Reaches (Collector.sum f) (l : Multiset Int) n := reaches_foldlM h
  ⟨hreaches, hreaches.sum_eq.trans (Multiset.sum_coe l)⟩

/-- A sum does not look at the order of its inputs. -/
theorem orderFree_sum (f : Value → Checked Int) : (Collector.sum f).OrderFree :=
  Unordered.orderFree (c := sum f) trivial

/-- An input comes unless a number overflows. -/
theorem overflowOnly_accumulate (c : Collector) (s : c.State) (v : c.Input) :
    OverflowOnly (c.accumulate s v) := by
  induction c with
  | count => exact .ok _
  | countDistinct f => exact .ok _
  | sum f => exact .bounded _
  | average f => exact (OverflowOnly.bounded _).bind fun _ _ => .pure _
  | extremum greatest f => exact .ok _
  | toList f => exact .ok _
  | toSet f => exact .ok _
  | loadBalance key amount => exact Loads.overflowOnly_add s v.1 v.2
  | compose first second ihf ihs => exact (ihf s.1 v.1).bind fun _ _ => (ihs s.2 v.2).bind fun _ _ => .pure _
  | conditionally p inner ih =>
    cases v with
    | none => exact .ok _
    | some v => exact ih s v
  | andThen inner f ih => exact ih s v

/-- An input goes unless a number overflows. -/
theorem overflowOnly_retract (c : Collector) (s : c.State) (v : c.Input) : OverflowOnly (c.retract s v) := by
  induction c with
  | count => exact .ok _
  | countDistinct f => exact .ok _
  | sum f => exact .bounded _
  | average f => exact (OverflowOnly.bounded _).bind fun _ _ => .pure _
  | extremum greatest f => exact .ok _
  | toList f => exact .ok _
  | toSet f => exact .ok _
  | loadBalance key amount => exact Loads.overflowOnly_remove s v.1 v.2
  | compose first second ihf ihs => exact (ihf s.1 v.1).bind fun _ _ => (ihs s.2 v.2).bind fun _ _ => .pure _
  | conditionally p inner ih =>
    cases v with
    | none => exact .ok _
    | some v => exact ih s v
  | andThen inner f ih => exact ih s v

/-- Whatever inputs came and went, a collector that makes no list is in the state of a fresh one fed with the
inputs left, in any order; a list has the inputs left; and nothing but an overflow stops an input. -/
theorem state_eq_fresh (c : Collector) :
    (c.Unordered → ∀ (m : Multiset c.Input) (s : c.State), c.Reaches m s → ∀ (l : List c.Input) (s' : c.State),
      (l : Multiset c.Input) = m → l.foldlM c.accumulate c.empty = .ok s' → s = s') ∧
    (∀ (f : Value → Checked Value) (m : Multiset (toList f).Input) (s : (toList f).State),
      (toList f).Reaches m s → ∃ l : List Value, (toList f).finish s = .ok (.list l) ∧ (l : Multiset Value) = m) ∧
    ∀ (s : c.State) (v : c.Input), OverflowOnly (c.accumulate s v) ∧ OverflowOnly (c.retract s v) := by
  refine ⟨fun hc m s hs l s' hl hfresh => ?_, fun f m s hs => ⟨s, rfl, hs.toList_eq⟩,
    fun s v => ⟨overflowOnly_accumulate c s v, overflowOnly_retract c s v⟩⟩
  subst hl
  rw [hs.eq_stateOf hc, (reaches_foldlM hfresh).eq_stateOf hc]

/-- The loads of values and how many of those that are not zero are different. -/
def loadsAndVariety : Collector :=
  (loadBalance .ok fun _ => .ok 2).compose (conditionally (fun v => .ok (v ≠ .int 0)) (countDistinct .ok))

theorem state_eq_fresh_of_return :
    ∃ (a b d : loadsAndVariety.Input) (s₁ s₂ s : loadsAndVariety.State),
      [a, d, b].foldlM loadsAndVariety.accumulate loadsAndVariety.empty = .ok s₁ ∧
      loadsAndVariety.retract s₁ d = .ok s₂ ∧
      [b, a].foldlM loadsAndVariety.accumulate loadsAndVariety.empty = .ok s ∧ s₂ = s := by
  obtain ⟨a, b, d, s₁, s₂, s, h₁, h₂, h⟩ : ∃ (a b d : loadsAndVariety.Input) (s₁ s₂ s : loadsAndVariety.State),
      [a, d, b].foldlM loadsAndVariety.accumulate loadsAndVariety.empty = .ok s₁ ∧
      loadsAndVariety.retract s₁ d = .ok s₂ ∧
      [b, a].foldlM loadsAndVariety.accumulate loadsAndVariety.empty = .ok s :=
    ⟨((.int 1, (2 : Int)), some (.int 1)), ((.int 0, (2 : Int)), none), ((.int 1, (2 : Int)), some (.int 1)),
      _, _, _, rfl, rfl, rfl⟩
  have hback : (([a, d, b] : List loadsAndVariety.Input) : Multiset loadsAndVariety.Input) = d ::ₘ ↑[b, a] :=
    Multiset.coe_eq_coe.2 (List.perm_append_comm : ([a] ++ [d, b]).Perm ([d, b] ++ [a]))
  have hs₁ := reaches_foldlM h₁
  rw [hback] at hs₁
  exact ⟨a, b, d, s₁, s₂, s, h₁, h₂, h,
    (state_eq_fresh loadsAndVariety).1 ⟨trivial, trivial⟩ _ s₂ (hs₁.retract h₂) [b, a] s rfl h⟩

end Collector

end Planning
