import Planning.Proofs.Checked
import Planning.ValueRange

/-!
# Coherent value ranges

The accessors of a range compute their bounds each on its own. They are coherent when they all speak of one list of
values. The ranges over the solution and over a fixed list always are. A range of integers is when the distance of its
bounds is a number in bounds; otherwise its size overflows, also where the bounds are the wrong way round and there is
no value at all.
-/

namespace Planning.ValueRange

open Checked

variable {S V : Type} {r : ValueRange S V} {s : S} {e n : Nat} {start finish v : Int}

/-- The accessors of a range agree, for an entity in a solution, on a number of values. -/
structure Coherent (r : ValueRange S V) (s : S) (e n : Nat) : Prop where
  /-- The size is that number. -/
  size : r.size s e = .ok n
  /-- There are values at the indices below it. -/
  isSome_get? : ∀ i, (r.get? s e i).isSome = true ↔ i < n
  /-- What stands at some index is contained. -/
  contains : ∀ v, r.contains s e v = true ↔ ∃ i, r.get? s e i = some v
  /-- The range is empty when nothing is contained. -/
  isEmpty : ∃ b, r.isEmpty s e = .ok b ∧ (b = true ↔ ∀ v, r.contains s e v = false)
  /-- What stands at the indices is listed in their order. -/
  values : ∃ vs, r.values s e = .ok vs ∧ vs.map some = (List.range n).map (r.get? s e)

/-- What a list has at its indices one after another is the list. -/
theorem filterMap_range_getElem? (vs : List V) : (List.range vs.length).filterMap (vs[·]?) = vs := by
  induction vs with
  | nil => rfl
  | cons v vs ih =>
    rw [List.length_cons, List.range_succ_eq_map, List.filterMap_cons_some List.getElem?_cons_zero,
      List.filterMap_map]
    exact congrArg (v :: ·) ih

/-- Accessors that speak of one list are coherent. -/
theorem coherent_of_list {vs : List V} (hsize : r.size s e = .ok vs.length) (hget : ∀ i, r.get? s e i = vs[i]?)
    (hcontains : ∀ v, r.contains s e v = true ↔ v ∈ vs) : r.Coherent s e vs.length where
  size := hsize
  isSome_get? i := by rw [hget, isSome_getElem?]
  contains v := by
    rw [hcontains, List.mem_iff_getElem?]
    simp only [hget]
  isEmpty := by
    refine ⟨vs.length == 0, bind_eq_ok_iff.2 ⟨_, hsize, rfl⟩, ?_⟩
    simp only [Bool.eq_false_iff, ne_eq, hcontains, beq_iff_eq, List.length_eq_zero_iff]
    exact List.eq_nil_iff_forall_not_mem
  values := by
    have hvalues : (List.range vs.length).filterMap (r.get? s e) = vs := by
      rw [funext hget]
      exact filterMap_range_getElem? vs
    refine ⟨vs, bind_eq_ok_iff.2 ⟨_, hsize, pure_eq_ok_iff.2 hvalues⟩, List.ext_getElem? fun i => ?_⟩
    by_cases hi : i < vs.length
    · simp [hget, hi]
    · simp [Nat.le_of_not_lt hi]

/-- Each index below a number is listed at its own place. -/
theorem getElem?_range_eq_some_iff {i j : Nat} : (List.range n)[i]? = some j ↔ i < n ∧ i = j := by
  simp [List.getElem?_eq_some_iff]

/-- The indices of a collection are coherent. -/
theorem coherent_indices (count : S → Nat) (s : S) (e : Nat) : (indices count).Coherent s e (count s) := by
  have hlength : (List.range (count s)).length = count s := List.length_range
  rw [← hlength]
  refine coherent_of_list ?_ (fun i => ?_) fun v => ?_
  · rw [hlength, indices]
  · refine Option.ext fun j => ?_
    rw [getElem?_range_eq_some_iff, indices, Option.ite_none_right_eq_some, Option.some.injEq]
  · rw [List.mem_range, indices, decide_eq_true_iff]

/-- The members of a list of the solution are coherent. -/
theorem coherent_members [DecidableEq V] (field : S → List V) (s : S) (e : Nat) :
    (members field).Coherent s e (field s).length :=
  coherent_of_list rfl (fun _ => rfl) fun _ => List.contains_iff_mem

/-!
## Ranges of integers

A number is contained when it is between the bounds, and it stands at its distance from the start if that is in bounds.
-/

/-- The numbers between the bounds are contained. -/
theorem contains_integers :
    (integers start finish : ValueRange S Int).contains s e v = true ↔ start ≤ v ∧ v < finish := by
  rw [integers, Bool.and_eq_true, decide_eq_true_iff, decide_eq_true_iff]

/-- The number at an index in bounds is that far from the start. -/
theorem get?_integers_eq_some_iff (hfinish : InBounds finish) {i : Nat} :
    (integers start finish : ValueRange S Int).get? s e i = some v ↔
      v = start + i ∧ v < finish ∧ (i : Int) ≤ maxBound := by
  have hle : finish ≤ maxBound := hfinish.2
  simp only [integers, Option.ite_none_right_eq_some, Option.some.injEq]
  constructor
  · rintro ⟨⟨hi, -, hlt⟩, rfl⟩
    exact ⟨rfl, hlt, hi⟩
  · rintro ⟨rfl, hlt, hi⟩
    exact ⟨⟨hi, by omega, hlt⟩, rfl⟩

/-- Integers whose bounds have a distance in bounds are coherent. -/
theorem coherent_integers (hfinish : InBounds finish) (hfits : InBounds (finish - start)) (s : S) (e : Nat) :
    (integers start finish).Coherent s e (finish - start).toNat := by
  have hlength : ((List.range (finish - start).toNat).map fun i : Nat => start + i).length =
      (finish - start).toNat := by
    rw [List.length_map, List.length_range]
  rw [← hlength]
  refine coherent_of_list ?_ (fun i => ?_) fun v => ?_
  · rw [hlength]
    exact bind_eq_ok_iff.2 ⟨_, bounded_eq_ok_iff.2 ⟨hfits, rfl⟩, rfl⟩
  · -- An index below the size is in bounds, as the size is.
    have hle : finish - start ≤ maxBound := hfits.2
    refine Option.ext fun v => ?_
    rw [get?_integers_eq_some_iff hfinish, List.getElem?_map, Option.map_eq_some_iff]
    simp only [getElem?_range_eq_some_iff]
    constructor
    · rintro ⟨rfl, hlt, -⟩
      exact ⟨i, ⟨by omega, rfl⟩, rfl⟩
    · rintro ⟨_, ⟨hi, rfl⟩, rfl⟩
      exact ⟨rfl, by omega, by omega⟩
  · rw [contains_integers, List.mem_map]
    constructor
    · rintro ⟨hstart, hlt⟩
      exact ⟨(v - start).toNat, List.mem_range.2 (by omega), by omega⟩
    · rintro ⟨i, hi, rfl⟩
      have := List.mem_range.1 hi
      omega

/-- Integers from zero are coherent. -/
theorem coherent_integersBelow (hfinish : InBounds finish) (s : S) (e : Nat) :
    (integersBelow finish).Coherent s e finish.toNat := by
  have h : (integers 0 finish).Coherent s e (finish - 0).toNat := coherent_integers hfinish (by rwa [Int.sub_zero]) s e
  rwa [Int.sub_zero] at h

/-- Where the distance of the bounds is out of bounds, whatever asks for the size overflows. -/
theorem integers_overflow (h : ¬ InBounds (finish - start)) (s : S) (e : Nat) :
    (integers start finish : ValueRange S Int).size s e = .error .overflow ∧
    (integers start finish : ValueRange S Int).isEmpty s e = .error .overflow ∧
    (integers start finish : ValueRange S Int).values s e = .error .overflow := by
  have hsize : (integers start finish : ValueRange S Int).size s e = .error .overflow := by
    rw [integers, bounded_eq_error_iff.2 ⟨h, rfl⟩]
    rfl
  refine ⟨hsize, ?_, ?_⟩
  · rw [isEmpty, hsize]
    rfl
  · rw [values, hsize]
    rfl

/-- The accessors of the four ranges agree: the size never overflows, there are values just at the indices below it,
just these are contained and listed, and only a range without any is empty. The one exception are integers between
bounds whose distance is out of bounds: whatever asks for their size overflows, what is contained is still what is
between the bounds, and only what is at a distance in bounds stands at an index. -/
theorem accessors_agree (S V : Type) [DecidableEq V] (s : S) (e : Nat) :
    (∀ start finish, InBounds start → InBounds finish → InBounds (finish - start) →
      (integers start finish).Coherent s e (finish - start).toNat) ∧
    (∀ start finish, InBounds start → InBounds finish → ¬ InBounds (finish - start) →
      (integers start finish : ValueRange S Int).size s e = .error .overflow ∧
      (integers start finish : ValueRange S Int).isEmpty s e = .error .overflow ∧
      (integers start finish : ValueRange S Int).values s e = .error .overflow ∧
      (∀ v, (integers start finish).contains s e v = true ↔ start ≤ v ∧ v < finish) ∧
      ∀ i v, (integers start finish).get? s e i = some v ↔ v = start + i ∧ v < finish ∧ (i : Int) ≤ maxBound) ∧
    (∀ finish, InBounds finish → (integersBelow finish).Coherent s e finish.toNat) ∧
    (∀ count : S → Nat, (indices count).Coherent s e (count s)) ∧
    (∀ field : S → List V, (members field).Coherent s e (field s).length) ∧
    ∀ vs : List V, (fixed vs).Coherent s e vs.length := by
  refine ⟨fun start finish _ hfinish hfits => coherent_integers hfinish hfits s e,
    fun start finish _ hfinish hfar => ?_, fun finish hfinish => coherent_integersBelow hfinish s e,
    fun count => coherent_indices count s e, fun field => coherent_members field s e,
    fun vs => coherent_members (fun _ => vs) s e⟩
  obtain ⟨hsize, hempty, hvalues⟩ := integers_overflow hfar s e
  exact ⟨hsize, hempty, hvalues, fun v => contains_integers, fun i v => get?_integers_eq_some_iff hfinish⟩

/-- The widest range from the least number on whose size is told is coherent, and so is a range that is empty because
its bounds are the wrong way round. -/
theorem accessors_agree_widest :
    InBounds minBound ∧ InBounds (-1) ∧ InBounds (-1 - minBound) ∧ InBounds maxBound ∧ InBounds (0 - maxBound) ∧
      (integers minBound (-1)).Coherent () 0 9223372036854775807 ∧ (integers maxBound 0).Coherent () 0 0 := by
  obtain ⟨hcoherent, -⟩ := accessors_agree Unit Bool () 0
  exact ⟨by decide, by decide, by decide, by decide, by decide,
    hcoherent minBound (-1) (by decide) (by decide) (by decide),
    hcoherent maxBound 0 (by decide) (by decide) (by decide)⟩

/-- The size of integers overflows between the greatest number and the least one, where there is no value, and
between the least number and the greatest one, where zero is contained but stands at no index. -/
theorem exists_incoherent :
    InBounds minBound ∧ InBounds maxBound ∧
    (integers maxBound minBound : ValueRange Unit Int).size () 0 = .error .overflow ∧
    (∀ v, (integers maxBound minBound).contains () 0 v = false) ∧
    (integers minBound maxBound : ValueRange Unit Int).size () 0 = .error .overflow ∧
    (integers minBound maxBound).contains () 0 0 = true ∧
    ∀ i, (integers minBound maxBound).get? () 0 i ≠ some 0 := by
  refine ⟨by decide, by decide, rfl, fun v => ?_, rfl, rfl, fun i h => ?_⟩
  · rw [Bool.eq_false_iff, ne_eq, contains_integers]
    exact fun ⟨hge, hlt⟩ => absurd (Int.lt_of_le_of_lt hge hlt) (by decide)
  · obtain ⟨hi, -, hle⟩ := (get?_integers_eq_some_iff (by decide)).1 h
    rw [minBound] at hi
    rw [maxBound] at hle
    omega

end Planning.ValueRange
