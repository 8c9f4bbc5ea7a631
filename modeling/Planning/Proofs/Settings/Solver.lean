import Planning.Problems.Queens
import Planning.Proofs.Score.Order
import Planning.Proofs.Settings.Conditions
import Planning.Proofs.Settings.Validation
import Planning.Solver.Settings
import Planning.Termination.Settings

/-!
# Terminations that settings make

What settings make is looked at as conditions that are reached at a progress. The settings make no condition where they
set none, and else one that is met just where any of those they set is reached, or all of them are.
-/

namespace Planning

open Checked

variable {k : ScoreKind}

/-- Any of some things has a property, or all of them have it. -/
def Composition.Holds {α : Type} (P Q : α → Prop) : Composition → Prop
  | .or => ∃ a, P a ∧ Q a
  | .and => ∀ a, P a → Q a

/-- Things and their properties that correspond to each other are combined alike. -/
theorem Composition.holds_congr {α β : Type} {P Q : α → Prop} {P' Q' : β → Prop} (R : α → β → Prop)
    (hR : ∀ a b, R a b → (P a ∧ P' b) ∧ (Q a ↔ Q' b)) (hP : ∀ a, P a → ∃ b, R a b) (hP' : ∀ b, P' b → ∃ a, R a b)
    (c : Composition) : c.Holds P Q ↔ c.Holds P' Q' := by
  cases c with
  | or =>
    constructor
    · rintro ⟨a, ha, hq⟩
      obtain ⟨b, hb⟩ := hP a ha
      exact ⟨b, (hR a b hb).1.2, (hR a b hb).2.1 hq⟩
    · rintro ⟨b, hb, hq⟩
      obtain ⟨a, ha⟩ := hP' b hb
      exact ⟨a, (hR a b ha).1.1, (hR a b ha).2.2 hq⟩
  | and =>
    constructor
    · intro h b hb
      obtain ⟨a, ha⟩ := hP' b hb
      exact (hR a b ha).2.1 (h a (hR a b ha).1.1)
    · intro h a ha
      obtain ⟨b, hb⟩ := hP a ha
      exact (hR a b hb).2.2 (h b (hR a b hb).1.2)

namespace TerminationSettings

/-- A condition that is set is reached at a progress. -/
def Reached (t : TerminationSettings) (p : Progress k) : Criterion → Prop
  | .spent => ∃ n ∈ t.spentTime, n ≤ p.elapsed
  | .unimproved => ∃ n ∈ t.unimprovedTime, n ≤ p.unimprovedElapsed
  | .score => ∃ l ∈ t.scoreLimit, ∃ a, Score.parse k l = .ok a ∧ ∃ b ∈ p.best, a ≤ b
  | .feasible => t.feasible = some true ∧ ∃ b ∈ p.best, b.Feasible
  | .steps => ∃ n ∈ t.steps, n ≤ p.steps
  | .unimprovedSteps => ∃ n ∈ t.unimprovedSteps, n ≤ p.unimprovedSteps
  | .moves => ∃ n ∈ t.moves, n ≤ p.moves

/-- Conditions are set, and any of them is reached, or all of them, as the settings say. -/
def MetAt (t : TerminationSettings) (p : Progress k) : Prop :=
  (∃ c, t.Sets c) ∧ t.composition.Holds t.Sets (t.Reached p)

/-- The score to reach, if there is a limit of the score and it is a score. -/
def target (k : ScoreKind) (t : TerminationSettings) : Option (Score k) :=
  t.scoreLimit.bind fun l => (Score.parse k l).toOption

/-- The limit of the score is a score of a kind, if there is one. -/
def ScoreParses (k : ScoreKind) (t : TerminationSettings) : Prop := ∀ l ∈ t.scoreLimit, ∃ a, Score.parse k l = .ok a

/-- The times are not too long. -/
structure Fits (t : TerminationSettings) : Prop where
  /-- The time to spend is not. -/
  spent : t.spentTime.getD 0 < timeBound
  /-- The time without a better score is not. -/
  unimproved : t.unimprovedTime.getD 0 < timeBound

theorem Fits.addsUp {t : TerminationSettings} (h : t.Fits) : t.AddsUp := ⟨h.spent, fun _ => h.unimproved⟩

end TerminationSettings

namespace Termination

variable {p : Progress k} {l : List (Termination k)}

/-- One of several conditions is met just where one of the list is. -/
theorem isAnyMet_iff : isAnyMet p l = true ↔ ∃ x ∈ l, x.isMet p = true := by
  induction l with
  | nil => simp [isAnyMet]
  | cons x l ih => simp [isAnyMet, ih]

/-- All of several conditions are met just where each of the list is. -/
theorem areAllMet_iff : areAllMet p l = true ↔ ∀ x ∈ l, x.isMet p = true := by
  induction l with
  | nil => simp [areAllMet]
  | cons x l ih => simp [areAllMet, ih]

/-- Conditions make none just where there are none. -/
theorem combine_eq_none_iff {c : Composition} : combine c l = none ↔ l = [] := by
  rcases l with _ | ⟨x, _ | ⟨y, l⟩⟩ <;> cases c <;> simp [combine]

/-- What conditions make is met just where any of them is, or all are, as they are combined. -/
theorem isMet_combine {c : Composition} {x : Termination k} (h : combine c l = some x) :
    x.isMet p = true ↔ c.Holds (· ∈ l) (isMet p · = true) := by
  rcases l with _ | ⟨x', _ | ⟨y, l⟩⟩
  · cases h
  · obtain rfl := Option.some.inj h
    cases c <;> simp [Composition.Holds]
  · cases c with
    | or =>
      obtain rfl := Option.some.inj h
      exact isAnyMet_iff
    | and =>
      obtain rfl := Option.some.inj h
      simp [isMet, areAllMet_iff, Composition.Holds]

/-- The condition of a kind that settings set. -/
def ofCriterion (t : TerminationSettings) : Criterion → Option (Termination k)
  | .spent => t.spentTime.map time
  | .unimproved => t.unimprovedTime.map unimprovedTime
  | .score => (t.target k).map score
  | .feasible => if t.requiresFeasible then some feasible else none
  | .steps => t.steps.map steps
  | .unimprovedSteps => t.unimprovedSteps.map unimprovedSteps
  | .moves => t.moves.map moves

/-- The conditions of all kinds that settings set, combined as they say. -/
def meant (k : ScoreKind) (t : TerminationSettings) : Option (Termination k) :=
  combine t.composition (Criterion.all.filterMap (ofCriterion t))

variable {t : TerminationSettings}

/-- The limit of the score can be read just where it is a score, and gives one then if there is a limit. -/
theorem scoreLimit_eq_ok_iff {path : String} {o : Option String} {target : Option (Score k)} :
    scoreLimit path o = .ok target ↔ (∀ l ∈ o, ∃ a, Score.parse k l = .ok a) ∧
      target = o.bind fun l => (Score.parse k l).toOption := by
  cases o with
  | none => simp [scoreLimit, eq_comm]
  | some l => cases h : Score.parse k l <;> simp [scoreLimit, h, eq_comm, Except.toOption]

/-- The conditions are made just where the times fit and the limit of the score is a score, one for each kind that is
set. -/
theorem conditions_eq_ok_iff (ht : t.Countable) {path : String} :
    conditions path t = .ok (.ok l) ↔
      t.Fits ∧ t.ScoreParses k ∧ l = Criterion.all.filterMap (ofCriterion t) := by
  simp only [conditions, bind_eq_ok_iff, TerminationSettings.timeLimit_eq_ok_iff ht,
    TerminationSettings.unimprovedTimeLimit_eq_ok_iff ht]
  constructor
  · rintro ⟨_, ⟨hspent, rfl⟩, _, ⟨hunimproved, rfl⟩, h⟩
    cases hlimit : (scoreLimit path t.scoreLimit : Except ConfigurationError (Option (Score k))) with
    | error e =>
      rw [hlimit] at h
      cases h
    | ok target =>
      rw [hlimit] at h
      obtain ⟨hparses, rfl⟩ := scoreLimit_eq_ok_iff.1 hlimit
      exact ⟨⟨hspent, hunimproved⟩, hparses, (Except.ok.inj (Except.ok.inj h)).symm⟩
  · rintro ⟨⟨hspent, hunimproved⟩, hparses, rfl⟩
    refine ⟨_, ⟨hspent, rfl⟩, _, ⟨hunimproved, rfl⟩, ?_⟩
    rw [scoreLimit_eq_ok_iff.2 ⟨hparses, rfl⟩]
    rfl

/-- There is a condition of a kind just where it is set. -/
theorem ofCriterion_eq_none_iff (hparses : t.ScoreParses k) (c : Criterion) :
    (ofCriterion t c : Option (Termination k)) = none ↔ ¬t.Sets c := by
  cases c with
  | spent => rw [ofCriterion, Option.map_eq_none_iff, TerminationSettings.spentTime_eq_none_iff]
  | unimproved => rw [ofCriterion, Option.map_eq_none_iff, TerminationSettings.unimprovedTime_eq_none_iff]
  | score =>
    cases hl : t.scoreLimit with
    | none => simp [ofCriterion, TerminationSettings.target, TerminationSettings.Sets, hl]
    | some l =>
      obtain ⟨a, ha⟩ := hparses l hl
      simp [ofCriterion, TerminationSettings.target, TerminationSettings.Sets, hl, ha, Except.toOption]
  | feasible => simp [ofCriterion, ← TerminationSettings.requiresFeasible_iff]
  | _ => simp [ofCriterion, TerminationSettings.Sets]

/-- The condition of a kind is met just where it is reached. -/
theorem isMet_ofCriterion (hparses : t.ScoreParses k) {c : Criterion} {x : Termination k}
    (hx : ofCriterion t c = some x) : x.isMet p = true ↔ t.Reached p c := by
  cases c with
  | score =>
    obtain ⟨a, ha, rfl⟩ := Option.map_eq_some_iff.1 hx
    obtain ⟨l, hl, ha⟩ := Option.bind_eq_some_iff.1 ha
    obtain ⟨a', ha'⟩ := hparses l hl
    rw [ha'] at ha
    obtain rfl := Option.some.inj ha
    simp [isMet, TerminationSettings.Reached, hl, ha', Score.le_iff_reaches, Option.any_eq_true]
  | feasible =>
    have hfeasible : t.requiresFeasible = true := by
      by_contra h
      rw [ofCriterion, if_neg h] at hx
      cases hx
    rw [ofCriterion, if_pos hfeasible] at hx
    obtain rfl := Option.some.inj hx
    have hset : t.feasible = some true := TerminationSettings.requiresFeasible_iff.1 hfeasible
    simp [isMet, TerminationSettings.Reached, hset, Option.any_eq_true]
  | _ =>
    obtain ⟨n, hn, rfl⟩ := Option.map_eq_some_iff.1 hx
    simp [isMet, TerminationSettings.Reached, hn]

/-- The conditions that settings set make none just where they set none. -/
theorem meant_eq_none_iff (hparses : t.ScoreParses k) : meant k t = none ↔ ∀ c, ¬t.Sets c := by
  rw [meant, combine_eq_none_iff, List.filterMap_eq_nil_iff]
  simp only [ofCriterion_eq_none_iff hparses]
  exact ⟨fun h c => h c c.mem_all, fun h c _ => h c⟩

/-- What the conditions make is met just where the settings say so. -/
theorem isMet_meant (hparses : t.ScoreParses k) {x : Termination k} (hx : meant k t = some x) :
    x.isMet p = true ↔ t.MetAt p := by
  have hset : ∃ c, t.Sets c := by
    by_contra! h
    rw [(meant_eq_none_iff hparses).2 h] at hx
    cases hx
  have hmem : ∀ y : Termination k, y ∈ Criterion.all.filterMap (ofCriterion t) ↔ ∃ c, ofCriterion t c = some y := by
    intro y
    simp only [List.mem_filterMap, Criterion.mem_all, true_and]
  have hsets : ∀ c, t.Sets c ↔ ∃ y : Termination k, ofCriterion t c = some y := by
    intro c
    rw [← Option.ne_none_iff_exists', ne_eq, ofCriterion_eq_none_iff hparses, not_not]
  rw [isMet_combine hx, TerminationSettings.MetAt, and_iff_right hset]
  refine Composition.holds_congr (fun y c => ofCriterion t c = some y) (fun y c hc => ?_) (fun y => (hmem y).1)
    (fun c => (hsets c).1) t.composition
  exact ⟨⟨(hmem y).2 ⟨c, hc⟩, (hsets c).2 ⟨y, hc⟩⟩, isMet_ofCriterion hparses hc⟩

/-- Where no condition is set, none is met. -/
theorem any_meant (hparses : t.ScoreParses k) : (meant k t).any (isMet p) = true ↔ t.MetAt p := by
  cases hx : meant k t with
  | none => exact iff_of_false nofun fun h => h.1.elim ((meant_eq_none_iff hparses).1 hx)
  | some x => exact isMet_meant hparses hx

/-- The condition of settings is made just where their times fit and their limit of the score is a score. -/
theorem ofSettings_eq_ok_iff (ht : t.Countable) {path : String} {o : Option (Termination k)} :
    ofSettings path t = .ok (.ok o) ↔ t.Fits ∧ t.ScoreParses k ∧ o = meant k t := by
  simp only [ofSettings, bind_eq_ok_iff, pure_eq_ok_iff]
  constructor
  · rintro ⟨_ | l, hl, h⟩
    · cases h
    · obtain ⟨hfits, hparses, rfl⟩ := (conditions_eq_ok_iff ht).1 hl
      exact ⟨hfits, hparses, (Except.ok.inj h).symm⟩
  · rintro ⟨hfits, hparses, rfl⟩
    exact ⟨.ok _, (conditions_eq_ok_iff ht).2 ⟨hfits, hparses, rfl⟩, rfl⟩

end Termination

end Planning

/-!
## What stops the phases of settings

A solver that is made from settings stops as they say, and so does each of its local searches. Settings are only
accepted where one of the two sets a condition, so that a local search is always stopped by something.
-/

namespace Planning

open Checked

variable {S V : Type} {k : ScoreKind} [PlanningSolution S k] [PlanningValue V] [DecidableEq V]

namespace Phase

/-- What settings make that may be missing is made just where they make a condition. -/
theorem terminationOf_eq_ok_iff {path : String} {o : Option TerminationSettings} (ho : ∀ t ∈ o, t.Countable)
    {u : Option (Termination k)} :
    terminationOf path o = .ok (.ok u) ↔
      (∀ t ∈ o, t.Fits ∧ t.ScoreParses k) ∧ u = o.bind (Termination.meant k) := by
  cases o with
  | none => simp [terminationOf, eq_comm]
  | some t => simp [terminationOf, Termination.ofSettings_eq_ok_iff (ho t rfl), and_assoc]

/-- A condition that may be missing is met where there is one that the settings say is met. -/
theorem any_bind_meant {o : Option TerminationSettings} (ho : ∀ t ∈ o, t.ScoreParses k) {p : Progress k} :
    ((o.bind (Termination.meant k)).any fun u => u.isMet p) = true ↔ ∃ t ∈ o, t.MetAt p := by
  cases o with
  | none => simp
  | some t => simpa using Termination.any_meant (ho t rfl)

variable {x : PlanningVariable S V} {threads place : Nat} {path : String}

/-- The phases of settings are made one after another, each at its place. -/
theorem ofSettings_of_all {l : List PhaseSettings} {phases : List (Phase S k)}
    (h : (ofSettingsAll x threads place l).run = .ok (.ok phases)) {i : Nat} {p : PhaseSettings} (hp : l[i]? = some p) :
    ∃ phase, phases[i]? = some phase ∧ (ofSettings x s!"phases[{place + i}]" threads p).run = .ok (.ok phase) := by
  induction l generalizing place phases i with
  | nil => simp at hp
  | cons q rest ih =>
    rw [ofSettingsAll] at h
    simp only [run_bind_eq_ok_iff] at h
    obtain ⟨phase, hphase, later, hlater, h⟩ := h
    obtain rfl := Except.ok.inj (Except.ok.inj h)
    cases i with
    | zero =>
      obtain rfl := Option.some.inj hp
      exact ⟨phase, rfl, hphase⟩
    | succ i =>
      obtain ⟨later, hi, hlater⟩ := ih hlater hp
      exact ⟨later, hi, by rwa [Nat.add_right_comm] at hlater⟩

/-- A local search that is made from settings stops as they say. -/
theorem exists_localSearch {s : LocalSearchSettings} (hs : ∀ t ∈ s.termination, t.Countable) {phase : Phase S k}
    (h : (ofSettings x path threads (.localSearch s)).run = .ok (.ok phase)) :
    ∃ y : LocalSearch S k, phase = y.phase ∧ (∀ t ∈ s.termination, t.ScoreParses k) ∧
      y.termination = s.termination.bind (Termination.meant k) := by
  rw [ofSettings] at h
  simp only [run_bind_eq_ok_iff] at h
  obtain ⟨u, hu, h⟩ := h
  obtain ⟨hfits, rfl⟩ := (terminationOf_eq_ok_iff hs).1 hu
  obtain ⟨selector, -, h⟩ := bind_eq_ok_iff.1 (Except.ok.inj h)
  exact ⟨_, (Except.ok.inj h).symm, fun t ht => (hfits t ht).2, rfl⟩

end Phase

namespace Solver

/-- What settings make a solver of: they are accepted, and make its phases and its condition. -/
theorem parts_of_ofSettings {x : PlanningVariable S V} {s : SolverSettings} {solver : Solver S k}
    (h : ofSettings x s = .ok (.ok solver)) :
    s.validate = .ok (.ok ()) ∧
      (Phase.ofSettingsAll x (s.threads.workers.getD 1) 0 s.effectivePhases).run = .ok (.ok solver.phases) ∧
      Phase.terminationOf "termination" s.termination = .ok (.ok solver.termination) := by
  rw [ofSettings] at h
  simp only [run_bind_eq_ok_iff] at h
  obtain ⟨_, hvalidate, phases, hphases, u, hu, h⟩ := h
  obtain rfl := Except.ok.inj (Except.ok.inj h)
  exact ⟨hvalidate, hphases, hu⟩

/-- Settings make no condition just where they are empty, and else one that is met at a progress just where any of the
conditions they set is reached there, or all of them are, as they say. So a local search of settings that make a solver
is stopped by a condition of its own or of the run, and just where one of those is met. -/
theorem ofSettings_governs :
    (∀ (path : String) (t : TerminationSettings), t.Countable → t.ScoreParses k → t.Fits →
      ∃ o : Option (Termination k), Termination.ofSettings path t = .ok (.ok o) ∧
        (o = none ↔ t.isEmpty = .ok true) ∧ ∀ y ∈ o, ∀ p : Progress k, y.isMet p = true ↔ t.MetAt p) ∧
    ∀ (x : PlanningVariable S V) (s : SolverSettings) (solver : Solver S k), s.Countable →
      ofSettings x s = .ok (.ok solver) →
        s.validate = .ok (.ok ()) ∧
        ∀ (i : Nat) (ls : LocalSearchSettings), s.effectivePhases[i]? = some (.localSearch ls) →
          (∃ t, (s.termination = some t ∨ ls.termination = some t) ∧ ∃ c, t.Sets c) ∧
          ∃ y : LocalSearch S k, solver.phases[i]? = some y.phase ∧
            ∀ r : RunState S k, r.termination = solver.termination →
              (r.isPhaseTerminated y.termination = true ↔ r.stopping = true ∨
                (∃ t ∈ s.termination, t.MetAt r.progress) ∨ ∃ t ∈ ls.termination, t.MetAt r.phaseProgress) := by
  constructor
  · intro path t ht hparses hfits
    refine ⟨Termination.meant k t, (Termination.ofSettings_eq_ok_iff ht).2 ⟨hfits, hparses, rfl⟩, ?_,
      fun y hy p => Termination.isMet_meant hparses hy⟩
    rw [Termination.meant_eq_none_iff hparses, TerminationSettings.isEmpty_eq_ok_iff ht]
    simp [hfits.addsUp]
  · intro x s solver hs h
    obtain ⟨hvalidate, hphases, htermination⟩ := parts_of_ofSettings h
    refine ⟨hvalidate, fun i ls hls => ⟨?_, ?_⟩⟩
    · have husable := ((SolverSettings.validate_eq_ok_iff hs).1 hvalidate).phases i _ hls
      rcases husable.stopped rfl with ⟨t, ht, hset⟩ | ⟨t, ht, hset⟩
      · exact ⟨t, .inl ht, hset⟩
      · exact ⟨t, .inr ht, hset⟩
    · obtain ⟨phase, hi, hphase⟩ := Phase.ofSettings_of_all hphases hls
      obtain ⟨y, rfl, hparses, hy⟩ := Phase.exists_localSearch (hs.phases _ (List.mem_of_getElem? hls)) hphase
      obtain ⟨hrun, hsolver⟩ := (Phase.terminationOf_eq_ok_iff hs.termination).1 htermination
      refine ⟨y, hi, fun r hr => ?_⟩
      rw [RunState.isPhaseTerminated, RunState.isTerminated, hr, hsolver, hy]
      simp only [Bool.or_eq_true, Phase.any_bind_meant hparses, Phase.any_bind_meant fun t ht => (hrun t ht).2,
        or_assoc]

/-- Five steps and a feasible score. -/
def feasibleFiveSteps : TerminationSettings := { steps := some 5, feasible := some true, composition := .and }

/-- The run takes five steps at least, and more until the score is feasible. -/
def feasibleRun : SolverSettings := { termination := some feasibleFiveSteps }

/-- The rows of queens. -/
def queenRows : PlanningVariable QueensBoard Int := .basic (QueensBoard.variableOf (.fixed [0, 1, 2, 3]))

/-- The settings of the feasible run make a solver, whose local search is stopped by the conditions of the run. -/
theorem ofSettings_governs_feasibleRun :
    (feasibleFiveSteps.Countable ∧ feasibleFiveSteps.ScoreParses .simple ∧ feasibleFiveSteps.Fits ∧
      ∃ u : Termination .simple, Termination.ofSettings "termination" feasibleFiveSteps = .ok (.ok (some u)) ∧
        ∀ p, u.isMet p = true ↔ feasibleFiveSteps.MetAt p) ∧
    feasibleRun.Countable ∧ ∃ (solver : Solver QueensBoard .simple) (y : LocalSearch QueensBoard .simple),
      ofSettings queenRows feasibleRun = .ok (.ok solver) ∧ solver.phases[1]? = some y.phase := by
  obtain ⟨hterm, hsolver⟩ := ofSettings_governs (S := QueensBoard) (V := Int) (k := .simple)
  have ht : feasibleFiveSteps.Countable := by constructor <;> decide
  have hparses : feasibleFiveSteps.ScoreParses .simple := nofun
  have hfits : feasibleFiveSteps.Fits := ⟨by decide, by decide⟩
  have hs : feasibleRun.Countable := SolverSettings.countable_of_phases_eq_nil rfl <| by
    rintro t ⟨⟩
    exact ht
  refine ⟨⟨ht, hparses, hfits, ?_⟩, hs, ?_⟩
  · obtain ⟨o, ho, hnone, hmet⟩ := hterm "termination" feasibleFiveSteps ht hparses hfits
    cases o with
    | none => exact absurd (hnone.1 rfl) (by decide)
    | some u => exact ⟨u, ho, hmet u rfl⟩
  · obtain ⟨solver, h⟩ : ∃ solver : Solver QueensBoard .simple, ofSettings queenRows feasibleRun = .ok (.ok solver) :=
      ⟨_, rfl⟩
    obtain ⟨-, hphases⟩ := hsolver queenRows feasibleRun solver hs h
    obtain ⟨-, y, hy, -⟩ := hphases 1 {} rfl
    exact ⟨solver, y, h, hy⟩

end Solver

end Planning
