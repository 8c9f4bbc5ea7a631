import Planning.Proofs.Settings.Conditions

/-!
# What the check of settings answers

The settings of a solver are usable where all of them are in their ranges, their times add up and every local search is
stopped by something. The check accepts just the usable ones. It stumbles over a time that is too long where it comes to
look at it: limits of time are not checked before they are added.
-/

namespace Planning

open Checked

namespace PhaseSettings

/-- The phase is a local search. -/
def isSearch : PhaseSettings → Bool
  | localSearch _ => true
  | _ => false

/-- The settings of a phase, found at a path, are in their ranges. -/
structure InRange (path : String) (p : PhaseSettings) : Prop where
  /-- Its own settings are. -/
  own : p.validate path = .ok ()
  /-- When it stops is. -/
  termination : ∀ t ∈ p.termination, t.validate s!"{path}.termination" = .ok ()

/-- The settings of a phase can be used; `governed` says that the run is stopped by something. -/
structure Usable (governed : Prop) (path : String) (p : PhaseSettings) : Prop extends p.InRange path where
  /-- Its times add up. -/
  addsUp : ∀ t ∈ p.termination, t.AddsUp
  /-- A local search is stopped by something. -/
  stopped : p.isSearch = true → governed ∨ ∃ t ∈ p.termination, ∃ c, t.Sets c

/-- A phase is in its ranges, and a time that is looked at is too long. -/
def Stumbles (path : String) (p : PhaseSettings) : Prop := p.InRange path ∧ ∃ t ∈ p.termination, ¬t.AddsUp

/-- The part of the check of a phase that looks at ranges. -/
def checkRanges (path : String) (p : PhaseSettings) : Except ConfigurationError Unit := do
  p.validate path
  if let some t := p.termination then t.validate s!"{path}.termination"

/-- The check of one phase. -/
def check (stopped : Bool) (path : String) (p : PhaseSettings) : ExceptT ConfigurationError Checked Unit := do
  ExceptT.mk (.ok (p.checkRanges path))
  let phaseStopped ← (stops p.termination : Checked Bool)
  if p.isSearch && !stopped && !phaseStopped then
    throw ⟨path, "local search needs a termination on the phase or the solver"⟩

variable {stopped : Bool} {path : String} {p : PhaseSettings}

theorem checkRanges_eq_ok_iff : p.checkRanges path = .ok () ↔ p.InRange path := by
  rw [checkRanges, bind_eq_ok_iff]
  constructor
  · rintro ⟨_, hown, ht⟩
    refine ⟨hown, fun t htermination => ?_⟩
    rw [Option.mem_def.1 htermination] at ht
    exact ht
  · intro ⟨hown, ht⟩
    refine ⟨(), hown, ?_⟩
    cases htermination : p.termination with
    | none => rfl
    | some t => exact ht t htermination

/-- The check of a phase accepts it just where it can be used. -/
theorem check_eq_ok_iff (hp : ∀ t ∈ p.termination, t.Countable) :
    (p.check stopped path).run = .ok (.ok ()) ↔ p.Usable (stopped = true) path := by
  have hguard : ∀ b : Bool,
      (p.isSearch && !stopped && !b) = false ↔ (p.isSearch = true → stopped = true ∨ b = true) := by
    intro b
    cases p.isSearch <;> cases stopped <;> cases b <;> decide
  simp only [check, run_bind_eq_ok_iff, run_mk_eq_ok_iff, run_lift_eq_ok_iff, run_guard_eq_ok_iff, hguard]
  constructor
  · rintro ⟨_, hr, b, hb, hstopped⟩
    obtain ⟨hadd, hb⟩ := (stops_eq_ok_iff hp).1 hb
    exact ⟨checkRanges_eq_ok_iff.1 hr, hadd, fun hs => (hstopped hs).imp id hb.1⟩
  · intro ⟨hr, hadd, hstopped⟩
    obtain ⟨b, hb⟩ := exists_stops hp hadd
    exact ⟨(), checkRanges_eq_ok_iff.2 hr, b, hb, fun hs => (hstopped hs).imp id ((stops_eq_ok_iff hp).1 hb).2.2⟩

/-- The check of a phase faults just where it stumbles over a time. -/
theorem check_faults_iff (hp : ∀ t ∈ p.termination, t.Countable) :
    (∃ f, (p.check stopped path).run = .error f) ↔ p.Stumbles path := by
  simp only [check, run_bind_eq_error_iff, run_mk_ne_error, run_mk_eq_ok_iff, run_lift_eq_error_iff,
    run_guard_ne_error, false_or, and_false, exists_false, or_false, Stumbles, ← exists_stops_eq_error_iff hp]
  constructor
  · rintro ⟨f, _, hr, hf⟩
    exact ⟨checkRanges_eq_ok_iff.1 hr, f, hf⟩
  · rintro ⟨hr, f, hf⟩
    exact ⟨f, (), checkRanges_eq_ok_iff.2 hr, hf⟩

end PhaseSettings

namespace SolverSettings

/-- The check of phases checks the first of them and goes on with the others. -/
theorem validatePhases_cons (stopped : Bool) (i : Nat) (p : PhaseSettings) (rest : List PhaseSettings) :
    validatePhases stopped i (p :: rest) =
      (p.check stopped s!"phases[{i}]" >>= fun _ => validatePhases stopped (i + 1) rest) := by
  have hguard : ∀ (b : Bool) (e : ConfigurationError) (x : ExceptT ConfigurationError Checked Unit),
      ((if b then throw e else pure ()) >>= fun _ => x) = if b then throw e >>= fun _ : Unit => x else x :=
    fun b _ _ => by cases b <;> rfl
  rw [validatePhases.eq_def]
  simp only [PhaseSettings.check, PhaseSettings.checkRanges, bind_assoc, hguard]
  cases p.validate s!"phases[{i}]" with
  | error e => rfl
  | ok _ =>
    cases p.termination with
    | none => cases p <;> rfl
    | some t =>
      cases t.validate s!"phases[{i}].termination" with
      | error e => rfl
      | ok _ => cases p <;> rfl

variable {stopped : Bool} {i : Nat} {l : List PhaseSettings}

/-- The check of phases accepts them just where all of them can be used. -/
theorem validatePhases_eq_ok_iff (hl : ∀ p ∈ l, ∀ t ∈ p.termination, t.Countable) :
    (validatePhases stopped i l).run = .ok (.ok ()) ↔
      ∀ (j : Nat) (p : PhaseSettings), l[j]? = some p → p.Usable (stopped = true) s!"phases[{i + j}]" := by
  induction l generalizing i with
  | nil => exact iff_of_true rfl fun j p hp => by simp at hp
  | cons p rest ih =>
    obtain ⟨hp, hrest⟩ := List.forall_mem_cons.1 hl
    have hshift : ∀ j, i + 1 + j = i + (j + 1) := by omega
    simp only [validatePhases_cons, run_bind_eq_ok_iff, PhaseSettings.check_eq_ok_iff hp, ih hrest, hshift]
    constructor
    · rintro ⟨_, hfirst, hlater⟩ (_ | j) q hq
      · obtain rfl := Option.some.inj hq
        exact hfirst
      · exact hlater j q hq
    · intro h
      exact ⟨(), h 0 p rfl, fun j q hq => h (j + 1) q hq⟩

/-- The check of phases faults just where it stumbles over one behind others that can be used. -/
theorem validatePhases_faults_iff (hl : ∀ p ∈ l, ∀ t ∈ p.termination, t.Countable) :
    (∃ f, (validatePhases stopped i l).run = .error f) ↔
      ∃ (j : Nat) (p : PhaseSettings), l[j]? = some p ∧ p.Stumbles s!"phases[{i + j}]" ∧
        ∀ m < j, ∀ q : PhaseSettings, l[m]? = some q → q.Usable (stopped = true) s!"phases[{i + m}]" := by
  induction l generalizing i with
  | nil => exact iff_of_false nofun fun ⟨j, p, hp, _⟩ => by simp at hp
  | cons p rest ih =>
    obtain ⟨hp, hrest⟩ := List.forall_mem_cons.1 hl
    have hshift : ∀ j, i + 1 + j = i + (j + 1) := by omega
    simp only [validatePhases_cons, run_bind_eq_error_iff, exists_or, PhaseSettings.check_faults_iff hp,
      PhaseSettings.check_eq_ok_iff hp]
    constructor
    · rintro (hfirst | ⟨f, _, hfirst, hf⟩)
      · exact ⟨0, p, rfl, hfirst, nofun⟩
      · obtain ⟨j, q, hq, hstumbles, hbefore⟩ := (ih hrest).1 ⟨f, hf⟩
        refine ⟨j + 1, q, hq, hshift j ▸ hstumbles, ?_⟩
        rintro (_ | m) hm r hr
        · obtain rfl := Option.some.inj hr
          exact hfirst
        · exact hshift m ▸ hbefore m (Nat.lt_of_succ_lt_succ hm) r hr
    · rintro ⟨_ | j, q, hq, hstumbles, hbefore⟩
      · obtain rfl := Option.some.inj hq
        exact .inl hstumbles
      · obtain ⟨f, hf⟩ := (ih hrest).2 ⟨j, q, hq, (hshift j).symm ▸ hstumbles, fun m hm r hr =>
          (hshift m).symm ▸ hbefore (m + 1) (Nat.succ_lt_succ hm) r hr⟩
        exact .inr ⟨f, (), hbefore 0 (Nat.succ_pos j) p rfl, hf⟩

/-- The settings of a run, but for those of its phases, are in their ranges. -/
structure InRange (s : SolverSettings) : Prop where
  /-- There is at least one thread where threads are counted. -/
  threads : s.threads ≠ .count 0
  /-- When the run stops is. -/
  termination : ∀ t ∈ s.termination, t.validate "termination" = .ok ()

/-- The run is stopped by something. -/
def Governed (s : SolverSettings) : Prop := ∃ t ∈ s.termination, ∃ c, t.Sets c

/-- The settings can be used. -/
structure Usable (s : SolverSettings) : Prop extends s.InRange where
  /-- The times of the run add up. -/
  addsUp : ∀ t ∈ s.termination, t.AddsUp
  /-- The phases can be used. -/
  phases : ∀ (i : Nat) (p : PhaseSettings), s.effectivePhases[i]? = some p → p.Usable s.Governed s!"phases[{i}]"

/-- The check comes to a time that is too long, of the run or of a phase behind phases that can be used. -/
def Stumbles (s : SolverSettings) : Prop :=
  s.InRange ∧ ((∃ t ∈ s.termination, ¬t.AddsUp) ∨ (∀ t ∈ s.termination, t.AddsUp) ∧
    ∃ (i : Nat) (p : PhaseSettings), s.effectivePhases[i]? = some p ∧ p.Stumbles s!"phases[{i}]" ∧
      ∀ j < i, ∀ q : PhaseSettings, s.effectivePhases[j]? = some q → q.Usable s.Governed s!"phases[{j}]")

/-- Settings have conditions for the run and for its phases. -/
def HasTermination (s : SolverSettings) (t : TerminationSettings) : Prop :=
  s.termination = some t ∨ ∃ p ∈ s.effectivePhases, p.termination = some t

/-- The part of the check that looks at the ranges of the run. -/
def checkRanges (s : SolverSettings) : Except ConfigurationError Unit := do
  if s.threads = .count 0 then misconfigured "move_thread_count" "thread count must be at least 1"
  if let some t := s.termination then t.validate "termination"

variable {s : SolverSettings}

theorem checkRanges_eq_ok_iff : s.checkRanges = .ok () ↔ s.InRange := by
  unfold checkRanges
  by_cases hthreads : s.threads = .count 0
  · rw [if_pos hthreads]
    exact iff_of_false nofun fun h => h.threads hthreads
  · rw [if_neg hthreads]
    refine ⟨fun h => ⟨hthreads, fun t ht => ?_⟩, fun ⟨_, h⟩ => ?_⟩
    · rw [Option.mem_def.1 ht] at h
      exact h
    · cases ht : s.termination with
      | none => rfl
      | some t => exact h t ht

/-- The check looks at the ranges of the run, at what stops it and at its phases. -/
theorem validate_eq :
    s.validate = (do
      ExceptT.mk (.ok s.checkRanges)
      let stopped ← (stops s.termination : Checked Bool)
      validatePhases stopped 0 s.effectivePhases : ExceptT ConfigurationError Checked Unit).run := by
  unfold validate checkRanges
  by_cases hthreads : s.threads = .count 0
  · simp only [if_pos hthreads]
    rfl
  · simp only [if_neg hthreads]
    cases s.termination with
    | none => rfl
    | some t =>
      cases t.validate "termination" with
      | error e => rfl
      | ok _ => rfl

/-- The limits of time of all conditions are numbers of 64 bits. -/
def Countable (s : SolverSettings) : Prop := ∀ t, s.HasTermination t → t.Countable

namespace Countable

theorem termination (hs : s.Countable) : ∀ t ∈ s.termination, t.Countable := fun t ht => hs t (.inl ht)

theorem phases (hs : s.Countable) : ∀ p ∈ s.effectivePhases, ∀ t ∈ p.termination, t.Countable :=
  fun p hp t ht => hs t (.inr ⟨p, hp, ht⟩)

end Countable

/-- What the check of the phases takes for the run to be stopped is that it is. -/
theorem usable_congr {governed : Prop} {q : PhaseSettings} {path : String} (h : governed ↔ s.Governed) :
    q.Usable governed path ↔ q.Usable s.Governed path := by
  rw [propext h]

/-- The check accepts the settings just where they can be used. -/
theorem validate_eq_ok_iff (hs : s.Countable) : s.validate = .ok (.ok ()) ↔ s.Usable := by
  simp only [validate_eq, run_bind_eq_ok_iff, run_mk_eq_ok_iff, run_lift_eq_ok_iff,
    validatePhases_eq_ok_iff hs.phases, Nat.zero_add]
  constructor
  · rintro ⟨_, hr, b, hb, hphases⟩
    obtain ⟨hadd, hb⟩ := (stops_eq_ok_iff hs.termination).1 hb
    exact ⟨checkRanges_eq_ok_iff.1 hr, hadd, fun i p hp => (usable_congr hb).1 (hphases i p hp)⟩
  · intro ⟨hr, hadd, hphases⟩
    obtain ⟨b, hb⟩ := exists_stops hs.termination hadd
    exact ⟨(), checkRanges_eq_ok_iff.2 hr, b, hb, fun i p hp =>
      (usable_congr ((stops_eq_ok_iff hs.termination).1 hb).2).2 (hphases i p hp)⟩

/-- The check faults just where it stumbles over a time. -/
theorem validate_faults_iff (hs : s.Countable) : (∃ f, s.validate = .error f) ↔ s.Stumbles := by
  simp only [validate_eq, run_bind_eq_error_iff, run_mk_ne_error, run_mk_eq_ok_iff, run_lift_eq_error_iff,
    run_lift_eq_ok_iff, false_or]
  constructor
  · rintro ⟨f, _, hr, hf | ⟨b, hb, hf⟩⟩
    · exact ⟨checkRanges_eq_ok_iff.1 hr, .inl ((exists_stops_eq_error_iff hs.termination).1 ⟨f, hf⟩)⟩
    · obtain ⟨hadd, hb⟩ := (stops_eq_ok_iff hs.termination).1 hb
      obtain ⟨i, p, hp, hstumbles, hbefore⟩ := (validatePhases_faults_iff hs.phases).1 ⟨f, hf⟩
      simp only [Nat.zero_add] at hstumbles hbefore
      exact ⟨checkRanges_eq_ok_iff.1 hr, .inr ⟨hadd, i, p, hp, hstumbles, fun j hj q hq =>
        (usable_congr hb).1 (hbefore j hj q hq)⟩⟩
  · rintro ⟨hr, hlong | ⟨hadd, i, p, hp, hstumbles, hbefore⟩⟩
    · obtain ⟨f, hf⟩ := (exists_stops_eq_error_iff hs.termination).2 hlong
      exact ⟨f, (), checkRanges_eq_ok_iff.2 hr, .inl hf⟩
    · obtain ⟨b, hb⟩ := exists_stops hs.termination hadd
      have hgoverned := ((stops_eq_ok_iff hs.termination).1 hb).2
      have hfaults : ∃ f, (validatePhases b 0 s.effectivePhases).run = .error f := by
        refine (validatePhases_faults_iff hs.phases).2 ⟨i, p, hp, ?_, fun j hj q hq => ?_⟩
        · rwa [Nat.zero_add]
        · rw [Nat.zero_add]
          exact (usable_congr hgoverned).2 (hbefore j hj q hq)
      obtain ⟨f, hf⟩ := hfaults
      exact ⟨f, (), checkRanges_eq_ok_iff.2 hr, .inr ⟨b, hb, hf⟩⟩

/-- Settings whose times add up have their exact time to spend, and the exact time without a better score unless that
one is too long, which is only looked at where there is no time to spend. -/
theorem times_of_addsUp {t : TerminationSettings} (ht : t.Countable) (hadd : t.AddsUp) :
    t.timeLimit = .ok t.spentTime ∧
      (t.unimprovedTime.getD 0 < timeBound → t.unimprovedTimeLimit = .ok t.unimprovedTime) ∧
      (timeBound ≤ t.unimprovedTime.getD 0 → t.spentTime ≠ none ∧ ∃ f, t.unimprovedTimeLimit = .error f) := by
  refine ⟨(TerminationSettings.timeLimit_eq_ok_iff ht).2 ⟨hadd.1, rfl⟩,
    fun h => (TerminationSettings.unimprovedTimeLimit_eq_ok_iff ht).2 ⟨h, rfl⟩,
    fun h => ⟨fun hnone => Nat.not_lt_of_le h (hadd.2 hnone), ?_⟩⟩
  cases hlimit : t.unimprovedTimeLimit with
  | error f => exact ⟨f, rfl⟩
  | ok o => exact absurd ((TerminationSettings.unimprovedTimeLimit_eq_ok_iff ht).1 hlimit).1 (Nat.not_lt_of_le h)

/-- The check of settings answers, by accepting or refusing them, unless it comes to a time that is too long: then it
faults. It accepts just the settings that can be used. What is accepted has its exact times to spend; the time without a
better score is exact where it is not too long, and faults where it is, which the check leaves unseen where there is a
time to spend. Where all times fit, nothing faults. -/
theorem validate_answers (hs : s.Countable) :
    ((∃ f, s.validate = .error f) ↔ s.Stumbles) ∧
    (s.validate = .ok (.ok ()) ↔ s.Usable) ∧
    (s.validate = .ok (.ok ()) → s.timeLimit = .ok (s.termination.bind TerminationSettings.spentTime) ∧
      ∀ t, s.HasTermination t → t.timeLimit = .ok t.spentTime ∧
        (t.unimprovedTime.getD 0 < timeBound → t.unimprovedTimeLimit = .ok t.unimprovedTime) ∧
        (timeBound ≤ t.unimprovedTime.getD 0 → t.spentTime ≠ none ∧ ∃ f, t.unimprovedTimeLimit = .error f)) ∧
    ((∀ t, s.HasTermination t → t.spentTime.getD 0 < timeBound ∧ t.unimprovedTime.getD 0 < timeBound) →
      (∃ r, s.validate = .ok r) ∧ ∀ t, s.HasTermination t →
        t.timeLimit = .ok t.spentTime ∧ t.unimprovedTimeLimit = .ok t.unimprovedTime) := by
  refine ⟨validate_faults_iff hs, validate_eq_ok_iff hs, fun haccepted => ?_, fun hfits => ?_⟩
  · have husable := (validate_eq_ok_iff hs).1 haccepted
    have hadd : ∀ t, s.HasTermination t → t.AddsUp := by
      rintro t (ht | ⟨p, hp, ht⟩)
      · exact husable.addsUp t ht
      · obtain ⟨i, hi⟩ := List.mem_iff_getElem?.1 hp
        exact (husable.phases i p hi).addsUp t ht
    refine ⟨?_, fun t ht => times_of_addsUp (hs t ht) (hadd t ht)⟩
    cases ht : s.termination with
    | none => simp [timeLimit, ht]
    | some t => simpa [timeLimit, ht] using (times_of_addsUp (hs t (.inl ht)) (hadd t (.inl ht))).1
  · have hadd : ∀ t, s.HasTermination t → t.AddsUp := fun t ht => ⟨(hfits t ht).1, fun _ => (hfits t ht).2⟩
    constructor
    · cases hvalidate : s.validate with
      | ok r => exact ⟨r, rfl⟩
      | error f =>
        obtain ⟨-, ⟨t, ht, hlong⟩ | ⟨-, i, p, hp, ⟨-, t, ht, hlong⟩, -⟩⟩ := (validate_faults_iff hs).1 ⟨f, hvalidate⟩
        · exact absurd (hadd t (.inl ht)) hlong
        · exact absurd (hadd t (.inr ⟨p, List.mem_of_getElem? hp, ht⟩)) hlong
    · intro t ht
      obtain ⟨hspent, hunimproved, -⟩ := times_of_addsUp (hs t ht) (hadd t ht)
      exact ⟨hspent, hunimproved (hfits t ht).2⟩

/-- Settings without phases have the condition of the run only. -/
theorem countable_of_phases_eq_nil (hphases : s.phases = []) (ht : ∀ t ∈ s.termination, t.Countable) : s.Countable := by
  rintro t (h | ⟨p, hp, h⟩)
  · exact ht t h
  · simp only [effectivePhases, hphases, List.isEmpty_nil, if_true, List.mem_cons, List.not_mem_nil, or_false] at hp
    rcases hp with rfl | rfl <;> cases h

/-- Half a minute and half a second, given in three units. -/
def halfMinute : SolverSettings :=
  { termination := some { seconds := some 30, millis := some 500, minutes := some 0 } }

/-- The settings with half a minute can be used, and the run gets it. -/
theorem validate_answers_halfMinute :
    halfMinute.Countable ∧ halfMinute.validate = .ok (.ok ()) ∧ halfMinute.timeLimit = .ok (some 30500) := by
  have hs : halfMinute.Countable := countable_of_phases_eq_nil rfl <| by
    rintro t ⟨⟩
    constructor <;> decide
  have hvalidate : halfMinute.validate = .ok (.ok ()) := by decide
  obtain ⟨-, -, haccepted, -⟩ := validate_answers hs
  exact ⟨hs, hvalidate, (haccepted hvalidate).1⟩

/-- More minutes than can be counted in seconds. -/
def longMinutes : SolverSettings := { termination := some { minutes := some 400000000000000000 } }

/-- A second to spend, and more time without a better score than can be added up. -/
def longUnimproved : SolverSettings :=
  { termination := some { seconds := some 1, unimprovedSeconds := some maxCount, unimprovedMillis := some 1000 } }

/-- The check may fault, and it may accept settings whose time without a better score faults. -/
theorem exists_validate_faults :
    (longMinutes.Countable ∧ longMinutes.validate = .error .overflow) ∧
      longUnimproved.Countable ∧ longUnimproved.validate = .ok (.ok ()) ∧
        longUnimproved.termination.map TerminationSettings.unimprovedTimeLimit = some (.error .outOfRange) := by
  refine ⟨⟨countable_of_phases_eq_nil rfl ?_, by decide⟩, countable_of_phases_eq_nil rfl ?_, by decide, by decide⟩
  · rintro t ⟨⟩
    constructor <;> decide
  · rintro t ⟨⟩
    constructor <;> decide

end SolverSettings

end Planning
