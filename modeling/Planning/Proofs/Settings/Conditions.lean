import Mathlib
import Planning.Proofs.Checked
import Planning.Settings.Validation

/-!
# Limits and conditions in settings

Limits of time are given in several units and add up. Each of them is a number of 64 bits and the seconds of a time are
another, so that limits may add up to a time that is too long. The sum exists just where the exact one is not too long,
and is the exact one then.
-/

namespace Planning

open Checked

/-- There is a time that is not too long. -/
theorem timeBound_pos : 0 < timeBound := Nat.mul_pos (Nat.succ_pos _) (by decide)

/-- Times that are added to another one have a sum just where the exact one is not too long. -/
theorem foldlM_addTime_eq_ok_iff {l : List Nat} {a n : Nat} (ha : a < timeBound) :
    l.foldlM addTime a = .ok n ↔ a + l.sum < timeBound ∧ n = a + l.sum := by
  induction l generalizing a with
  | nil =>
    rw [List.foldlM_nil, pure_eq_ok_iff]
    simp [ha, eq_comm]
  | cons b l ih =>
    rw [List.foldlM_cons, List.sum_cons, ← Nat.add_assoc]
    unfold addTime
    split
    · rename_i hb
      exact ih hb
    · rename_i hb
      exact ⟨nofun, fun h => absurd h.1 (by omega)⟩

/-- The exact sum of the times that are given, none if there are none. -/
def exactTime (ts : List (Option Nat)) : Option Nat :=
  if ts.reduceOption = [] then none else some ts.reduceOption.sum

/-- There is a sum just where one of the times is given. -/
theorem exactTime_eq_none_iff {ts : List (Option Nat)} : exactTime ts = none ↔ ∀ t ∈ ts, t = none := by
  rw [exactTime, ite_eq_left_iff]
  simp only [reduceCtorEq, imp_false, not_not, List.reduceOption, List.filterMap_eq_nil_iff, id]

/-- Times that may be given have a sum just where the exact one is not too long. -/
theorem totalTime_eq_ok_iff {ts : List (Option Nat)} {o : Option Nat} (h : ∀ n, some n ∈ ts → n < timeBound) :
    totalTime ts = .ok o ↔ (exactTime ts).getD 0 < timeBound ∧ o = exactTime ts := by
  induction ts with
  | nil => exact ⟨fun ho => ⟨timeBound_pos, (Except.ok.inj ho).symm⟩, fun ho => ho.2 ▸ rfl⟩
  | cons t ts ih =>
    cases t with
    | none => exact ih fun n hn => h n (List.mem_cons_of_mem _ hn)
    | some a =>
      have he : exactTime (some a :: ts) = some (a + (ts.filterMap id).sum) := by
        simp [exactTime, List.reduceOption]
      rw [totalTime, bind_eq_ok_iff, he, Option.getD_some]
      simp only [foldlM_addTime_eq_ok_iff (h a List.mem_cons_self), pure_eq_ok_iff]
      exact ⟨fun ⟨n, ⟨hlt, hn⟩, ho⟩ => ⟨hlt, by rw [← ho, hn]⟩, fun ⟨hlt, ho⟩ => ⟨_, ⟨hlt, rfl⟩, ho.symm⟩⟩

/-- Minutes are counted in seconds where that many seconds can be. -/
theorem mapM_counted_eq_ok_iff {m n : Option Nat} :
    (m.mapM fun m => counted (m * 60)) = .ok n ↔ (∀ a ∈ m, a * 60 ≤ maxCount) ∧ n = m.map (· * 60) := by
  cases m with
  | none => simp [pure, Except.pure, eq_comm]
  | some a =>
    rw [Option.mapM_some]
    unfold counted
    split
    · rename_i ha
      simp [ha, eq_comm, Except.map, Functor.map]
    · rename_i ha
      simp [ha, Except.map, Functor.map]

namespace TerminationSettings

/-- The limits of time are numbers of 64 bits. -/
structure Countable (t : TerminationSettings) : Prop where
  /-- The milliseconds are. -/
  millis : ∀ n ∈ t.millis, n ≤ maxCount
  /-- The seconds are. -/
  seconds : ∀ n ∈ t.seconds, n ≤ maxCount
  /-- The minutes are. -/
  minutes : ∀ n ∈ t.minutes, n ≤ maxCount
  /-- The milliseconds without a better score are. -/
  unimprovedMillis : ∀ n ∈ t.unimprovedMillis, n ≤ maxCount
  /-- The seconds without a better score are. -/
  unimprovedSeconds : ∀ n ∈ t.unimprovedSeconds, n ≤ maxCount

variable (t : TerminationSettings)

/-- The exact time to spend in milliseconds, none where no limit of it is given. -/
def spentTime : Option Nat :=
  exactTime [t.millis, t.seconds.map (· * 1000), t.minutes.map (· * 60000)]

/-- The exact time to spend without a better score in milliseconds, none where no limit of it is given. -/
def unimprovedTime : Option Nat :=
  exactTime [t.unimprovedMillis, t.unimprovedSeconds.map (· * 1000)]

variable {t} {o : Option Nat}

/-- Minutes that do not make the time to spend too long can be counted in seconds. -/
theorem minutes_le_of_spentTime_lt (h : t.spentTime.getD 0 < timeBound) {m : Nat} (hm : m ∈ t.minutes) :
    m * 60 ≤ maxCount := by
  have hbound : timeBound = (maxCount + 1) * 1000 := rfl
  have hle : m * 60000 ≤ t.spentTime.getD 0 := by
    have hmem : m * 60000 ∈ [t.millis, t.seconds.map (· * 1000), t.minutes.map (· * 60000)].reduceOption :=
      List.reduceOption_mem_iff.2 (by simp [Option.mem_def.1 hm])
    rw [spentTime, exactTime, if_neg (List.ne_nil_of_mem hmem)]
    exact List.le_sum_of_mem hmem
  omega

/-- The time to spend exists just where the exact one is not too long. -/
theorem timeLimit_eq_ok_iff (ht : t.Countable) :
    t.timeLimit = .ok o ↔ t.spentTime.getD 0 < timeBound ∧ o = t.spentTime := by
  have hbound : timeBound = (maxCount + 1) * 1000 := rfl
  have htotal : (∀ m ∈ t.minutes, m * 60 ≤ maxCount) →
      (totalTime [t.millis, t.seconds.map (· * 1000), (t.minutes.map (· * 60)).map (· * 1000)] = .ok o ↔
        t.spentTime.getD 0 < timeBound ∧ o = t.spentTime) := by
    intro hm
    have hminutes : (t.minutes.map (· * 60)).map (· * 1000) = t.minutes.map (· * 60000) := by
      simp [Function.comp_def, Nat.mul_assoc]
    rw [totalTime_eq_ok_iff, hminutes, spentTime]
    intro n hn
    simp only [List.mem_cons, List.not_mem_nil, or_false, eq_comm (a := some n), Option.map_map,
      Option.map_eq_some_iff, Function.comp_apply] at hn
    rcases hn with hn | ⟨a, ha, rfl⟩ | ⟨a, ha, rfl⟩
    · have := ht.millis n hn
      omega
    · have := ht.seconds a ha
      omega
    · have := hm a ha
      omega
  simp only [timeLimit, bind_eq_ok_iff, mapM_counted_eq_ok_iff]
  constructor
  · rintro ⟨_, ⟨hm, rfl⟩, h⟩
    exact (htotal hm).1 h
  · intro h
    have hm : ∀ m ∈ t.minutes, m * 60 ≤ maxCount := fun m => minutes_le_of_spentTime_lt h.1
    exact ⟨_, ⟨hm, rfl⟩, (htotal hm).2 h⟩

/-- The time to spend without a better score exists just where the exact one is not too long. -/
theorem unimprovedTimeLimit_eq_ok_iff (ht : t.Countable) :
    t.unimprovedTimeLimit = .ok o ↔ t.unimprovedTime.getD 0 < timeBound ∧ o = t.unimprovedTime := by
  have hbound : timeBound = (maxCount + 1) * 1000 := rfl
  rw [unimprovedTimeLimit, totalTime_eq_ok_iff, unimprovedTime]
  intro n hn
  simp only [List.mem_cons, List.not_mem_nil, or_false, eq_comm (a := some n), Option.map_eq_some_iff] at hn
  rcases hn with hn | ⟨a, ha, rfl⟩
  · have := ht.unimprovedMillis n hn
    omega
  · have := ht.unimprovedSeconds a ha
    omega

end TerminationSettings

end Planning

/-!
## Conditions that settings set

Settings set conditions of seven kinds. They are empty just where they set none of them, which is looked at in the order
of the kinds: the time without a better score is added up only where no time to spend is given.
-/

namespace Planning

open Checked

/-- A kind of condition to stop. -/
inductive Criterion where
  /-- A time is spent. -/
  | spent
  /-- A time is spent without a better score. -/
  | unimproved
  /-- A score is reached. -/
  | score
  /-- The score is feasible. -/
  | feasible
  /-- A number of steps is made. -/
  | steps
  /-- A number of steps is made without a better score. -/
  | unimprovedSteps
  /-- A number of moves is evaluated. -/
  | moves

/-- The kinds of conditions, in the order in which they are looked at. -/
def Criterion.all : List Criterion := [.spent, .unimproved, .score, .feasible, .steps, .unimprovedSteps, .moves]

theorem Criterion.mem_all (c : Criterion) : c ∈ all := by
  cases c <;> simp [all]

/-- What holds of every kind of condition. -/
theorem Criterion.forall_iff {p : Criterion → Prop} :
    (∀ c, p c) ↔ p .spent ∧ p .unimproved ∧ p .score ∧ p .feasible ∧ p .steps ∧ p .unimprovedSteps ∧ p .moves := by
  constructor
  · intro h
    exact ⟨h _, h _, h _, h _, h _, h _, h _⟩
  · rintro ⟨h₁, h₂, h₃, h₄, h₅, h₆, h₇⟩ c
    cases c <;> assumption

namespace TerminationSettings

/-- A condition of a kind is set. Times are set in any of their units, and a feasible score is good enough only where
that is said to hold. -/
def Sets (t : TerminationSettings) : Criterion → Prop
  | .spent => t.millis ≠ none ∨ t.seconds ≠ none ∨ t.minutes ≠ none
  | .unimproved => t.unimprovedMillis ≠ none ∨ t.unimprovedSeconds ≠ none
  | .score => t.scoreLimit ≠ none
  | .feasible => t.feasible = some true
  | .steps => t.steps ≠ none
  | .unimprovedSteps => t.unimprovedSteps ≠ none
  | .moves => t.moves ≠ none

/-- The times that are looked at are not too long: the time to spend and, unless there is one, the time without a better
score. -/
def AddsUp (t : TerminationSettings) : Prop :=
  t.spentTime.getD 0 < timeBound ∧ (t.spentTime = none → t.unimprovedTime.getD 0 < timeBound)

variable {t : TerminationSettings}

/-- There is no time to spend where none is set. -/
theorem spentTime_eq_none_iff : t.spentTime = none ↔ ¬t.Sets .spent := by
  rw [spentTime, exactTime_eq_none_iff]
  simp only [List.forall_mem_cons, List.not_mem_nil, false_imp_iff, implies_true, and_true, Option.map_eq_none_iff,
    Sets, not_or, not_not]

/-- There is no time without a better score where none is set. -/
theorem unimprovedTime_eq_none_iff : t.unimprovedTime = none ↔ ¬t.Sets .unimproved := by
  rw [unimprovedTime, exactTime_eq_none_iff]
  simp only [List.forall_mem_cons, List.not_mem_nil, false_imp_iff, implies_true, and_true, Option.map_eq_none_iff,
    Sets, not_or, not_not]

theorem requiresFeasible_iff : t.requiresFeasible = true ↔ t.Sets .feasible := by
  cases hf : t.feasible <;> simp [requiresFeasible, Sets, hf]

/-- The answer that is given back is the one that a property has. -/
theorem pure_eq_ok_iff_of_iff {P : Prop} {a b : Bool} (h : a = true ↔ P) :
    (pure a : Checked Bool) = .ok b ↔ (b = true ↔ P) := by
  rw [pure_eq_ok_iff, ← h]
  cases a <;> cases b <;> simp

/-- Settings can be found empty just where the times that are looked at add up, and are where they set no condition. -/
theorem isEmpty_eq_ok_iff (ht : t.Countable) {b : Bool} :
    t.isEmpty = .ok b ↔ t.AddsUp ∧ (b = true ↔ ∀ c, ¬t.Sets c) := by
  rw [isEmpty, bind_eq_ok_iff]
  simp only [timeLimit_eq_ok_iff ht, AddsUp, and_assoc, exists_and_left, exists_eq_left]
  refine and_congr_right fun _ => ?_
  cases hs : t.spentTime with
  | some n =>
    have hset : t.Sets .spent := not_not.1 fun h => by simp [spentTime_eq_none_iff.2 h] at hs
    simpa using pure_eq_ok_iff_of_iff (iff_of_false Bool.false_ne_true fun h => h _ hset)
  | none =>
    simp only [Option.isSome_none, Bool.false_eq_true, if_false, forall_const, bind_eq_ok_iff,
      unimprovedTimeLimit_eq_ok_iff ht, and_assoc, exists_and_left, exists_eq_left]
    refine and_congr_right fun _ => ?_
    cases hu : t.unimprovedTime with
    | some n =>
      have hset : t.Sets .unimproved := not_not.1 fun h => by simp [unimprovedTime_eq_none_iff.2 h] at hu
      simpa using pure_eq_ok_iff_of_iff (iff_of_false Bool.false_ne_true fun h => h _ hset)
    | none =>
      refine pure_eq_ok_iff_of_iff ?_
      rw [Criterion.forall_iff, and_iff_right (spentTime_eq_none_iff.1 hs),
        and_iff_right (unimprovedTime_eq_none_iff.1 hu), ← requiresFeasible_iff]
      simp [Sets, and_assoc]

end TerminationSettings

/-- A condition to stop can be looked for just where the times that are looked at add up, and is found where one is
set. -/
theorem stops_eq_ok_iff {o : Option TerminationSettings} (ho : ∀ t ∈ o, t.Countable) {b : Bool} :
    stops o = .ok b ↔ (∀ t ∈ o, t.AddsUp) ∧ (b = true ↔ ∃ t ∈ o, ∃ c, t.Sets c) := by
  cases o with
  | none => cases b <;> simp [stops]
  | some t =>
    have hsets : (∃ c, t.Sets c) ↔ ¬∀ c, ¬t.Sets c := by rw [not_forall_not]
    simp only [stops, bind_eq_ok_iff, TerminationSettings.isEmpty_eq_ok_iff (ho t rfl), pure_eq_ok_iff,
      Option.mem_some_iff, forall_eq', exists_eq_left', hsets]
    constructor
    · rintro ⟨empty, ⟨hadd, hempty⟩, rfl⟩
      exact ⟨hadd, by simp [← hempty]⟩
    · rintro ⟨hadd, hb⟩
      exact ⟨!b, ⟨hadd, by rw [← not_iff_not, ← hb]; simp⟩, Bool.not_not b⟩

/-- A condition to stop can be looked for where the times that are looked at add up. -/
theorem exists_stops {o : Option TerminationSettings} (ho : ∀ t ∈ o, t.Countable) (hadd : ∀ t ∈ o, t.AddsUp) :
    ∃ b, stops o = .ok b := by
  classical
  exact ⟨decide (∃ t ∈ o, ∃ c, t.Sets c), (stops_eq_ok_iff ho).2 ⟨hadd, decide_eq_true_iff⟩⟩

/-- A condition to stop cannot be looked for just where a time that is looked at is too long. -/
theorem exists_stops_eq_error_iff {o : Option TerminationSettings} (ho : ∀ t ∈ o, t.Countable) :
    (∃ f, stops o = .error f) ↔ ∃ t ∈ o, ¬t.AddsUp := by
  constructor
  · rintro ⟨f, hf⟩
    by_contra! hadd
    obtain ⟨b, hb⟩ := exists_stops ho hadd
    exact nomatch hf.symm.trans hb
  · rintro ⟨t, ht, hadd⟩
    cases hstops : stops o with
    | error f => exact ⟨f, rfl⟩
    | ok b => exact absurd (((stops_eq_ok_iff ho).1 hstops).1 t ht) hadd

end Planning
