import Planning.Phase.Basic
import Planning.Proofs.Director.Congruence
import Planning.Proofs.Run.Basic

/-!
# Two runs side by side

Two computations of two runs meet when both succeed, with results and runs in a relation, or both fail; the second may
also fail on its own in some ways. There is one rule for each way in which computations are put together, and one for
what only one of the two runs does.
-/

namespace Planning

open Checked

variable {S : Type} {k : ScoreKind} {α β γ δ : Type}

namespace Running

variable {E : Stop → Prop} {p : Running S k α} {q : Running S k β} {r r' : RunState S k}
variable {G G' : α → β → RunState S k → RunState S k → Prop}

/-- Two computations succeed with results and runs in a relation, or both fail; the second may also fail on its own in
some ways. -/
def Meets (E : Stop → Prop) (p : Running S k α) (q : Running S k β) (r r' : RunState S k)
    (G : α → β → RunState S k → RunState S k → Prop) : Prop :=
  match p r, q r' with
  | .ok a s, .ok b s' => G a b s s'
  | .ok _ _, .error e _ => E e
  | .error _ _, .ok _ _ => False
  | .error _ _, .error _ _ => True

/-- When the second computation succeeds the first does too. -/
theorem Meets.of_ok_right (h : Meets E p q r r' G) {b : β} {s' : RunState S k} (hq : q r' = .ok b s') :
    ∃ a s, p r = .ok a s ∧ G a b s s' := by
  rw [Meets, hq] at h
  cases hp : p r with
  | ok a s =>
    rw [hp] at h
    exact ⟨a, s, rfl, h⟩
  | error e s =>
    rw [hp] at h
    exact h.elim

/-- Computations meet when each succeeds if the other does. -/
theorem Meets.intro (hok : ∀ a s, p r = .ok a s → ∃ b s', q r' = .ok b s' ∧ G a b s s')
    (hback : ∀ b s', q r' = .ok b s' → ∃ a s, p r = .ok a s) : Meets E p q r r' G := by
  unfold Meets
  cases hp : p r with
  | ok a s =>
    obtain ⟨b, s', hq, hG⟩ := hok a s hp
    rw [hq]
    exact hG
  | error e s =>
    cases hq : q r' with
    | ok b s' =>
      obtain ⟨a, t, ht⟩ := hback b s' hq
      rw [hp] at ht
      cases ht
    | error e' s' => trivial

/-- A computation meets itself. -/
theorem Meets.refl {G : α → α → RunState S k → RunState S k → Prop} (hG : ∀ a s, G a a s s) : Meets E p p r r G := by
  unfold Meets
  cases p r with
  | ok a s => exact hG a s
  | error e s => trivial

/-- A second computation that fails in a way of its own meets. -/
theorem Meets.of_error {e : Stop} {s' : RunState S k} (hq : q r' = .error e s')
    (h : E e ∨ ∀ a s, p r ≠ .ok a s) : Meets E p q r r' G := by
  unfold Meets
  rw [hq]
  cases hp : p r with
  | ok a s => exact h.resolve_right fun hne => hne a s hp
  | error e' s => trivial

/-- A weaker relation holds too. -/
theorem Meets.mono (h : Meets E p q r r' G) (hG : ∀ a b s s', G a b s s' → G' a b s s') : Meets E p q r r' G' := by
  unfold Meets at h ⊢
  split at h
  · exact hG _ _ _ _ h
  · exact h
  · exact h
  · trivial

/-- What holds when the first computation succeeds holds as well. -/
theorem Meets.and_ends (h : Meets E p q r r' G) {Q : α → RunState S k → Prop} {F : Stop → RunState S k → Prop}
    (hp : Ends p r Q F) : Meets E p q r r' fun a b s s' => G a b s s' ∧ Q a s := by
  unfold Meets at h ⊢
  split at h
  · rename_i hok _
    exact ⟨h, hp.of_ok hok⟩
  · exact h
  · exact h
  · trivial

/-- What is done next meets when it does so whatever came of what was done first. -/
theorem Meets.bind {f : α → Running S k γ} {g : β → Running S k δ} {G' : γ → δ → RunState S k → RunState S k → Prop}
    (h : Meets E p q r r' G) (hfg : ∀ a b s s', G a b s s' → Meets E (f a) (g b) s s' G') :
    Meets E (p >>= f) (q >>= g) r r' G' := by
  unfold Meets at h
  simp only [Meets, Bind.bind, EStateM.bind]
  cases hp : p r with
  | ok a s =>
    cases hq : q r' with
    | ok b s' =>
      rw [hp, hq] at h
      exact hfg a b s s' h
    | error e s' =>
      rw [hp, hq] at h
      dsimp only
      split
      · rename_i heq
        cases heq
      · rename_i heq
        cases heq
        exact h
      · trivial
      · trivial
  | error e s =>
    cases hq : q r' with
    | ok b s' =>
      rw [hp, hq] at h
      exact h.elim
    | error e' s' => trivial

/-- What only the first run does succeeds, and both go on from there. -/
theorem Meets.of_left {f : α → Running S k γ} {G : γ → β → RunState S k → RunState S k → Prop} {a : α}
    {s : RunState S k} (hp : p r = .ok a s) (h : Meets E (f a) q s r' G) : Meets E (p >>= f) q r r' G := by
  simp only [Meets, Bind.bind, EStateM.bind, hp]
  exact h

/-- What only the second run does succeeds, and both go on from there. -/
theorem Meets.of_right {g : β → Running S k δ} {G : α → δ → RunState S k → RunState S k → Prop} {b : β}
    {s' : RunState S k} (hq : q r' = .ok b s') (h : Meets E p (g b) r s' G) : Meets E p (q >>= g) r r' G := by
  simp only [Meets, Bind.bind, EStateM.bind, hq]
  exact h

@[simp] theorem meets_get_bind {f : RunState S k → Running S k α} {g : RunState S k → Running S k β} :
    Meets E (get >>= f) (get >>= g) r r' G ↔ Meets E (f r) (g r') r r' G := Iff.rfl

@[simp] theorem meets_modify_bind {u v : RunState S k → RunState S k} {f : PUnit → Running S k α}
    {g : PUnit → Running S k β} :
    Meets E (modify u >>= f) (modify v >>= g) r r' G ↔ Meets E (f ⟨⟩) (g ⟨⟩) (u r) (v r') G := Iff.rfl

/-- The result of what is done is dropped. -/
theorem Meets.discard {G : Unit → Unit → RunState S k → RunState S k → Prop}
    (h : Meets E p q r r' fun _ _ => G () ()) : Meets E (discard p) (discard q) r r' G := by
  have hdiscard : Meets E (p >>= fun _ => pure ()) (q >>= fun _ => pure ()) r r' G := h.bind fun _ _ _ _ => id
  exact hdiscard

/-- A loop keeps what each of its steps keeps. -/
theorem Meets.forM {l : List γ} {f g : γ → Running S k PUnit} {J : RunState S k → RunState S k → Prop}
    (hfg : ∀ c ∈ l, ∀ r r', J r r' → Meets E (f c) (g c) r r' fun _ _ => J) (h : J r r') :
    Meets E (l.forM f) (l.forM g) r r' fun _ _ => J := by
  induction l generalizing r r' with
  | nil => exact h
  | cons c l ih =>
    obtain ⟨hc, hl⟩ := List.forall_mem_cons.1 hfg
    exact (hc r r' h).bind fun _ _ s s' hs => ih hl hs

/-- The same members are sorted out when each of them is sorted out alike. -/
theorem Meets.filterM {l : List γ} {f g : γ → Running S k Bool}
    {J : List γ → RunState S k → RunState S k → Prop}
    (hfg : ∀ c ∈ l, ∀ kept r r', J kept r r' →
      Meets E (f c) (g c) r r' fun a b s s' => a = b ∧ J (if a then kept ++ [c] else kept) s s')
    (h : J [] r r') : Meets E (l.filterM f) (l.filterM g) r r' fun a b s s' => a = b ∧ J a s s' := by
  suffices ∀ kept r r', J kept.reverse r r' →
      Meets E (l.filterAuxM f kept) (l.filterAuxM g kept) r r' fun a b s s' => a = b ∧ J a.reverse s s' from by
    refine (this [] r r' h).bind fun a b s s' hs => ?_
    exact ⟨congrArg List.reverse hs.1, hs.2⟩
  induction l with
  | nil => exact fun kept r r' hkept => ⟨rfl, hkept⟩
  | cons c l ih =>
    obtain ⟨hc, hl⟩ := List.forall_mem_cons.1 hfg
    intro kept r r' hkept
    refine (hc _ r r' hkept).bind fun a b s s' hs => ?_
    obtain ⟨rfl, hJ⟩ := hs
    refine ih hl _ s s' ?_
    cases a with
    | true =>
      rw [if_pos rfl] at hJ
      simpa using hJ
    | false => exact hJ

/-- Two steps succeed when the first does and the second does with its result. -/
theorem bind_apply_eq_ok_iff {f : α → Running S k γ} {c : γ} {t : RunState S k} :
    (p >>= f) r = .ok c t ↔ ∃ a s, p r = .ok a s ∧ f a s = .ok c t := by
  simp only [Bind.bind, EStateM.bind]
  cases p r <;> simp

/-- Nothing is done behind a failure. -/
theorem bind_apply_of_error {f : α → Running S k γ} {e : Stop} {s : RunState S k} (h : p r = .error e s) :
    (p >>= f) r = .error e s := by
  simp only [Bind.bind, EStateM.bind, h]

/-- What may fault succeeds when there is a result. -/
theorem checked_eq_ok_iff {y : Checked α} {a : α} {s : RunState S k} :
    checked y r = .ok a s ↔ y = .ok a ∧ s = r := by
  cases y with
  | ok b => simp [checked, pure, EStateM.pure, eq_comm]
  | error f =>
    constructor
    · intro h
      cases h
    · rintro ⟨h, -⟩
      cases h

/-- What the director does succeeds when it does not fault, and leaves a run with another director. -/
theorem direct_eq_ok_iff {f : Director S k → Checked (Director S k × α)} {a : α} {s : RunState S k} :
    direct f r = .ok a s ↔ ∃ dir, f r.director = .ok (dir, a) ∧ s = { r with director := dir } := by
  change (checked (f r.director) >>= fun y => modify (fun r => { r with director := y.1 }) >>= fun _ => pure y.2) r =
    .ok a s ↔ _
  rw [bind_apply_eq_ok_iff]
  constructor
  · rintro ⟨y, t, hy, ht⟩
    obtain ⟨hy, rfl⟩ := checked_eq_ok_iff.1 hy
    cases ht
    exact ⟨y.1, hy, rfl⟩
  · rintro ⟨dir, hdir, rfl⟩
    exact ⟨_, r, checked_eq_ok_iff.2 ⟨hdir, rfl⟩, rfl⟩

/-- Drawing from the same random numbers gives the same. -/
theorem Meets.draw {y : Generator.Draw α} {G : α → α → RunState S k → RunState S k → Prop}
    (hgen : r.generator = r'.generator)
    (hok : ∀ a g, G a a { r with generator := g } { r' with generator := g }) : Meets E (draw y) (draw y) r r' G := by
  have hdraw : Meets E (Running.checked (y.run r.generator)) (Running.checked (y.run r'.generator)) r r'
      fun x x' s s' => x = x' ∧ s = r ∧ s' = r' := by
    rw [hgen]
    refine .intro (fun x s hx => ?_) fun x s' hx => ?_
    · obtain ⟨hy, rfl⟩ := checked_eq_ok_iff.1 hx
      exact ⟨x, r', checked_eq_ok_iff.2 ⟨hy, rfl⟩, rfl, rfl, rfl⟩
    · exact ⟨x, r, checked_eq_ok_iff.2 ⟨(checked_eq_ok_iff.1 hx).1, rfl⟩⟩
  exact hdraw.bind fun x x' s s' h => by
    obtain ⟨rfl, rfl, rfl⟩ := h
    exact hok x.1 x.2

end Running

end Planning

/-!
## Runs that do the same

Two runs that do the same are compared step by step. Their directors cannot be told apart from a third one, but have
tried and scored different things. The runs may count the moves that they evaluate differently; then the second counts
no fewer. Whatever is done in both runs leaves them so, and gives the same.
-/

namespace Planning

open Checked

variable {S : Type} {k : ScoreKind} [PlanningSolution S k] {α β : Type}

/-- A condition looks at steps and scores only. -/
inductive Termination.SeesSteps : Termination k → Prop where
  /-- A condition that is never met. -/
  | never : SeesSteps .never
  /-- A score that is good enough. -/
  | score (target : Score k) : SeesSteps (.score target)
  /-- A feasible score. -/
  | feasible : SeesSteps .feasible
  /-- A number of steps. -/
  | steps (limit : Nat) : SeesSteps (.steps limit)
  /-- A number of steps without a better score. -/
  | unimprovedSteps (limit : Nat) : SeesSteps (.unimprovedSteps limit)
  /-- What was asked for. -/
  | requested (b : Bool) : SeesSteps (.requested b)
  /-- One of such conditions. -/
  | any {l : List (Termination k)} (h : ∀ t ∈ l, SeesSteps t) : SeesSteps (.any l)
  /-- All of such conditions. -/
  | all {l : List (Termination k)} (h : ∀ t ∈ l, SeesSteps t) : SeesSteps (.all l)

omit [PlanningSolution S k] in
/-- Conditions that look at steps and scores only are met alike where these are the same. -/
theorem Termination.SeesSteps.isMet_congr {t : Termination k} (ht : t.SeesSteps) {p p' : Progress k}
    (hsteps : p.steps = p'.steps) (hbest : p.best = p'.best) (hunimproved : p.unimprovedSteps = p'.unimprovedSteps) :
    t.isMet p = t.isMet p' := by
  induction ht with
  | never | requested => rfl
  | score | feasible => simp only [isMet, hbest]
  | steps => simp only [isMet, hsteps]
  | unimprovedSteps => simp only [isMet, hunimproved]
  | @any l h ih =>
    simp only [isMet]
    clear h
    induction l with
    | nil => rfl
    | cons t l ihl =>
      obtain ⟨ht, hl⟩ := List.forall_mem_cons.1 ih
      rw [isAnyMet, isAnyMet, ht, ihl hl]
  | @all l h ih =>
    have hall : areAllMet p l = areAllMet p' l := by
      clear h
      induction l with
      | nil => rfl
      | cons t l ihl =>
        obtain ⟨ht, hl⟩ := List.forall_mem_cons.1 ih
        rw [areAllMet, areAllMet, ht, ihl hl]
    cases l with
    | nil => rfl
    | cons t l =>
      rw [isMet, isMet]
      exact hall

namespace RunState

variable {C : Director S k → Director S k → Prop} {exact : Prop} {dir : Director S k} {r r' : RunState S k}

/-- Two runs that have come to the same: they only differ in what their directors and logs hold, and in how many moves
they have counted. If their counts are exact these do not differ either. -/
structure Twin (C : Director S k → Director S k → Prop) (exact : Prop) (dir : Director S k) (r r' : RunState S k) :
    Prop where
  /-- The director of the first run cannot be told from a given one. -/
  left : C dir r.director
  /-- The director of the second run cannot be told from it. -/
  right : C dir r'.director
  /-- The best solutions are the same. -/
  best : r.best = r'.best
  /-- The random numbers are the same. -/
  generator : r.generator = r'.generator
  /-- The runs check themselves alike. -/
  mode : r.mode = r'.mode
  /-- The runs stop for the same reasons. -/
  termination : r.termination = r'.termination
  /-- These reasons are steps and scores if the counts are not exact. -/
  sees : exact ∨ ∀ t ∈ r.termination, t.SeesSteps
  /-- The clocks are the same. -/
  clock : r.clock = r'.clock
  /-- The phases started with the same step. -/
  phaseStart : r.phaseStart.steps = r'.phaseStart.steps
  /-- The best solutions were found with the same step. -/
  improvement : r.improvement.steps = r'.improvement.steps
  /-- The same number of steps is done. -/
  steps : r.steps = r'.steps
  /-- Both runs were asked to stop or neither was. -/
  stopping : r.stopping = r'.stopping
  /-- Both runs take in changes of the problem or neither does. -/
  takesChanges : r.takesChanges = r'.takesChanges
  /-- The same changes are waiting. -/
  pending : r.pending = r'.pending
  /-- The changes that are waiting do not tell directors apart. -/
  waits : ∀ c ∈ r.pending, c.Respects C
  /-- The same is asked for by who watches. -/
  watch : r.watch = r'.watch
  /-- The changes that are asked for do not tell directors apart. -/
  asks : ∀ c, r.Asks c → c.Respects C
  /-- The same happened. -/
  history : r.history = r'.history
  /-- As much is logged. -/
  detail : r.detail = r'.detail
  /-- The second run counts no fewer moves. -/
  moves : r.moves ≤ r'.moves
  /-- If the counts are exact they are the same. -/
  counts : exact → r.moves = r'.moves ∧ r.statistics = r'.statistics ∧ r.phaseStart = r'.phaseStart ∧
    r.improvement = r'.improvement

omit [PlanningSolution S k] in
/-- A run that counts exactly, or stops for steps and scores, is a twin of itself. -/
theorem Twin.refl (hdir : C r.director r.director) (hsees : exact ∨ ∀ t ∈ r.termination, t.SeesSteps)
    (hwaits : ∀ c ∈ r.pending, c.Respects C) (hasks : ∀ c, r.Asks c → c.Respects C) :
    r.Twin C exact r.director r where
  left := hdir
  right := hdir
  best := rfl
  generator := rfl
  mode := rfl
  termination := rfl
  sees := hsees
  clock := rfl
  phaseStart := rfl
  improvement := rfl
  steps := rfl
  stopping := rfl
  takesChanges := rfl
  pending := rfl
  waits := hwaits
  watch := rfl
  asks := hasks
  history := rfl
  detail := rfl
  moves := le_rfl
  counts _ := ⟨rfl, rfl, rfl, rfl⟩

/-- The directors of twins cannot be told apart. -/
theorem Twin.peers {P : Move S → Prop} (hC : Congruence P C) (h : r.Twin C exact dir r') : C r.director r'.director :=
  hC.trans (hC.symm h.left) h.right

/-- Twins have the same best score, and both best solutions are initialized or neither is. -/
theorem Twin.bestScore_eq (h : r.Twin C exact dir r') :
    r.bestInitialized = r'.bestInitialized ∧ r.bestScore = r'.bestScore := by
  rw [bestInitialized, bestInitialized, bestScore, bestScore, h.best]
  exact ⟨rfl, rfl⟩

/-- Twins have the same progress as far as steps and scores are concerned. -/
theorem Twin.progress_steps (h : r.Twin C exact dir r') {start start' : Mark} (hstart : start.steps = start'.steps) :
    (r.progressSince start).steps = (r'.progressSince start').steps ∧
      (r.progressSince start).best = (r'.progressSince start').best ∧
      (r.progressSince start).unimprovedSteps = (r'.progressSince start').unimprovedSteps := by
  unfold progressSince
  rw [h.steps, h.bestScore_eq.1, h.bestScore_eq.2, h.improvement, hstart]
  exact ⟨rfl, rfl, rfl⟩

/-- Twins that count exactly have the same progress. -/
theorem Twin.progress_eq (h : r.Twin C exact dir r') (hexact : exact) (start : Mark) :
    r.progressSince start = r'.progressSince start := by
  obtain ⟨hmoves, -, -, himprovement⟩ := h.counts hexact
  unfold progressSince
  rw [h.steps, h.bestScore_eq.1, h.bestScore_eq.2, h.clock, hmoves, himprovement]

/-- A condition is met by both of two twins or by neither. -/
theorem Twin.isMet_eq (h : r.Twin C exact dir r') {start start' : Mark} (hsteps : start.steps = start'.steps)
    (hstart : exact → start = start') {t : Termination k} (ht : exact ∨ t.SeesSteps) :
    t.isMet (r.progressSince start) = t.isMet (r'.progressSince start') := by
  rcases ht with hexact | ht
  · rw [h.progress_eq hexact, hstart hexact]
  · obtain ⟨hsame, hbest, hunimproved⟩ := h.progress_steps hsteps
    exact ht.isMet_congr hsame hbest hunimproved

/-- Both of two twins have to stop or neither has. -/
theorem Twin.isPhaseTerminated_eq (h : r.Twin C exact dir r') {t : Option (Termination k)}
    (ht : exact ∨ ∀ u ∈ t, u.SeesSteps) : r.isPhaseTerminated t = r'.isPhaseTerminated t := by
  have hrun : r.isTerminated = r'.isTerminated := by
    unfold isTerminated progress
    rw [h.stopping, ← h.termination]
    cases hcond : r.termination with
    | none => rfl
    | some u =>
      have hu : exact ∨ u.SeesSteps := h.sees.imp_right fun hsees => hsees u hcond
      rw [Option.any_some, Option.any_some, h.isMet_eq rfl (fun _ => rfl) hu]
  unfold isPhaseTerminated phaseProgress
  rw [hrun]
  cases t with
  | none => rfl
  | some u =>
    have hu : exact ∨ u.SeesSteps := ht.imp_right fun hsees => hsees u rfl
    rw [Option.any_some, Option.any_some, h.isMet_eq h.phaseStart (fun hexact => (h.counts hexact).2.2.1) hu]

end RunState

namespace Running

variable {P : Move S → Prop} {C : Director S k → Director S k → Prop} {exact : Prop} {E : Stop → Prop}
variable {dir : Director S k} {r r' : RunState S k} {m : Move S} {score : Score k}

/-- Two computations give the same and leave the runs twins. -/
def Agrees (C : Director S k → Director S k → Prop) (exact : Prop) (dir : Director S k) (a b : α)
    (r r' : RunState S k) : Prop :=
  a = b ∧ r.Twin C exact dir r'

/-- A score is checked when the director finds it right. -/
theorem assertScore_eq_ok_iff {u : Unit} {s : RunState S k} : assertScore r = .ok u s ↔
    ∃ dir score, r.director.assertScore = .ok (dir, .ok score) ∧ s = { r with director := dir } := by
  simp only [assertScore, bind_apply_eq_ok_iff, direct_eq_ok_iff]
  constructor
  · rintro ⟨out, t, ⟨d, hd, rfl⟩, hs⟩
    cases out with
    | ok score =>
      cases hs
      exact ⟨d, score, hd, rfl⟩
    | error c => cases hs
  · rintro ⟨d, score, hd, rfl⟩
    exact ⟨.ok score, _, ⟨d, hd, rfl⟩, rfl⟩

omit [PlanningSolution S k] in
/-- A move is made when the director makes it. -/
theorem make_eq_ok_iff {u : Unit} {s : RunState S k} : make m r = .ok u s ↔
    ∃ dir, r.director.doMove m = .ok (dir, .ok ()) ∧ s = { r with director := dir } := by
  simp only [make, bind_apply_eq_ok_iff, direct_eq_ok_iff]
  constructor
  · rintro ⟨out, t, ⟨d, hd, rfl⟩, hs⟩
    cases out with
    | ok _ =>
      cases hs
      exact ⟨d, hd, rfl⟩
    | error e => cases hs
  · rintro ⟨d, hd, rfl⟩
    exact ⟨.ok (), _, ⟨d, hd, rfl⟩, rfl⟩

variable (hC : Congruence P C) (h : r.Twin C exact dir r')

section

include hC h

/-- Twins log alike. -/
theorem meets_logAt (level : LogLevel) (e e' : Unit → LogEvent) :
    Meets E (logAt level e) (logAt level e') r r' fun _ _ => RunState.Twin C exact dir := by
  have hlogs : r.logs level = r'.logs level := by rw [RunState.logs, RunState.logs, h.detail]
  simp only [logAt, meets_get_bind, hlogs]
  split
  · exact { h with
      left := hC.symm (hC.journal _ (hC.symm h.left)), right := hC.symm (hC.journal _ (hC.symm h.right)) }
  · exact h

/-- Twins report alike. -/
theorem meets_report (level : LogLevel) (name : String) (fields fields' : Unit → List (String × LogValue)) :
    Meets E (report level name fields) (report level name fields') r r' fun _ _ => RunState.Twin C exact dir :=
  meets_logAt hC h level _ _

omit hC [PlanningSolution S k] in
/-- What is asked of both of two twins leaves them twins. -/
theorem meets_request {q : Request S k} (hq : ∀ c, q = .change c → c.Respects C) :
    Meets E (request q) (request q) r r' fun _ _ => RunState.Twin C exact dir := by
  cases q with
  | change c =>
    refine { h with
      pending := congrArg (· ++ [c]) h.pending
      history := congrArg (.queued :: ·) h.history
      waits := fun d hd => ?_ }
    rcases List.mem_append.1 hd with hd | hd
    · exact h.waits d hd
    · exact List.mem_singleton.1 hd ▸ hq c rfl
  | stop => exact { h with stopping := rfl }

/-- Twins tell the same. -/
theorem meets_tell (e : RunEvent S k) : Meets E (tell e) (tell e) r r' fun _ _ => RunState.Twin C exact dir := by
  have htold : { r with history := e :: r.history }.Twin C exact dir { r' with history := e :: r'.history } :=
    { h with history := congrArg (e :: ·) h.history }
  simp only [tell, meets_modify_bind, meets_get_bind]
  rw [← h.watch] at htold ⊢
  split
  · rename_i w hw
    split
    · rename_i i score
      -- Each request for the end of this step is one that the watch asks for.
      have hbody : ∀ q ∈ w.requests.filter fun q => q.1 == i, ∀ s s', s.Twin C exact dir s' →
          Meets E (request q.2) (request q.2) s s' fun _ _ => RunState.Twin C exact dir :=
        fun q hq s s' hs => meets_request hs fun c hc => h.asks c ⟨w, hw, q.1, hc ▸ (List.mem_filter.1 hq).1⟩
      refine (Meets.forM hbody htold).bind fun _ _ s s' hs => ?_
      split
      · exact meets_logAt hC hs _ _ _
      · exact hs
    · split
      · exact meets_logAt hC htold _ _ _
      · exact htold
  · exact htold

/-- A step of twins starts alike. -/
theorem meets_stepStarted : Meets E stepStarted stepStarted r r' fun _ _ => RunState.Twin C exact dir := by
  simp only [stepStarted, meets_get_bind, h.steps]
  exact meets_tell hC h _

/-- A step of twins ends alike with the same score. -/
theorem meets_stepEnded (score : Score k) :
    Meets E (stepEnded score) (stepEnded score) r r' fun _ _ => RunState.Twin C exact dir := by
  simp only [stepEnded, meets_get_bind, h.steps]
  refine (meets_tell hC h _).bind fun _ _ s s' hs => ?_
  simp only [meets_get_bind, hs.steps]
  have hcounted : Meets E (checked (counted (s'.steps + 1))) (checked (counted (s'.steps + 1))) s s'
      fun n n' t t' => n = n' ∧ t.Twin C exact dir t' := by
    refine .intro (fun n t hn => ?_) fun n t' hn => ?_
    · obtain ⟨hcount, rfl⟩ := checked_eq_ok_iff.1 hn
      exact ⟨n, s', checked_eq_ok_iff.2 ⟨hcount, rfl⟩, rfl, hs⟩
    · exact ⟨n, s, checked_eq_ok_iff.2 ⟨(checked_eq_ok_iff.1 hn).1, rfl⟩⟩
  refine hcounted.bind fun n n' t t' ht => ?_
  obtain ⟨rfl, ht⟩ := ht
  simp only [meets_modify_bind, meets_get_bind]
  refine meets_report hC ?_ _ _ _ _
  refine { ht with steps := rfl, counts := fun hexact => ?_ }
  obtain ⟨hmoves, hstatistics, hstart, himprovement⟩ := ht.counts hexact
  exact ⟨hmoves, congrArg Statistics.recordStep hstatistics, hstart, himprovement⟩

/-- Twins have the same score. -/
theorem meets_calculate : Meets E calculate calculate r r' (Agrees C exact dir) := by
  simp only [calculate, meets_modify_bind]
  refine .intro (fun score s hs => ?_) fun score s' hs => ?_
  · obtain ⟨d, hd, rfl⟩ := direct_eq_ok_iff.1 hs
    obtain ⟨hback, d', hd'⟩ := hC.calculate (h.peers hC) hd
    have hback' := (hC.calculate (hC.symm (h.peers hC)) hd').1
    refine ⟨score, _, direct_eq_ok_iff.2 ⟨d', hd', rfl⟩, rfl, ?_⟩
    refine { h with
      left := hC.trans h.left (hC.symm hback)
      right := hC.trans h.right (hC.symm hback')
      counts := fun hexact => ?_ }
    obtain ⟨hmoves, hstatistics, hstart, himprovement⟩ := h.counts hexact
    exact ⟨hmoves, congrArg Statistics.recordCalculation hstatistics, hstart, himprovement⟩
  · obtain ⟨d', hd', -⟩ := direct_eq_ok_iff.1 hs
    obtain ⟨-, d, hd⟩ := hC.calculate (hC.symm (h.peers hC)) hd'
    exact ⟨score, _, direct_eq_ok_iff.2 ⟨d, hd, rfl⟩⟩

/-- The scores of twins are found right alike. -/
theorem meets_assertScore : Meets E assertScore assertScore r r' fun _ _ => RunState.Twin C exact dir := by
  refine .intro (fun u s hs => ?_) fun u s' hs => ?_
  · obtain ⟨d, score, hd, rfl⟩ := assertScore_eq_ok_iff.1 hs
    obtain ⟨hback, d', hd'⟩ := hC.assertScore (h.peers hC) hd
    have hback' := (hC.assertScore (hC.symm (h.peers hC)) hd').1
    refine ⟨(), _, assertScore_eq_ok_iff.2 ⟨d', score, hd', rfl⟩, ?_⟩
    exact { h with left := hC.trans h.left (hC.symm hback), right := hC.trans h.right (hC.symm hback') }
  · obtain ⟨d', score, hd', -⟩ := assertScore_eq_ok_iff.1 hs
    obtain ⟨-, d, hd⟩ := hC.assertScore (hC.symm (h.peers hC)) hd'
    exact ⟨(), _, assertScore_eq_ok_iff.2 ⟨d, score, hd, rfl⟩⟩

/-- The scores of twins are checked alike after a step. -/
theorem meets_assertStep : Meets E assertStep assertStep r r' fun _ _ => RunState.Twin C exact dir := by
  simp only [assertStep, meets_get_bind, h.mode]
  split
  · exact meets_assertScore hC h
  · exact h

/-- Solutions that are the same but for the stored score become the best ones of twins. -/
theorem meets_setBest {s s' : S}
    (hs : ∀ score, PlanningSolution.withScore s score = PlanningSolution.withScore s' score) (score : Score k) :
    Meets E (setBest s score) (setBest s' score) r r' fun _ _ => RunState.Twin C exact dir := by
  simp only [setBest, meets_get_bind, hs]
  refine (meets_report hC h _ _ _ _).bind fun _ _ t t' ht => ?_
  simp only [meets_modify_bind]
  refine meets_tell hC ?_ _
  refine { ht with best := rfl, improvement := ht.steps, counts := fun hexact => ?_ }
  obtain ⟨hmoves, hstatistics, hstart, -⟩ := ht.counts hexact
  refine ⟨hmoves, hstatistics, hstart, ?_⟩
  rw [RunState.mark, RunState.mark, ht.steps, hmoves]

/-- The working solutions of twins become the best ones alike. -/
theorem meets_updateBestWith (score : Score k) :
    Meets E (updateBestWith score) (updateBestWith score) r r' (Agrees C exact dir) := by
  have himproves : r.improvesWith score = r'.improvesWith score := by
    unfold RunState.improvesWith
    rw [h.best, hC.initialized (h.peers hC), h.bestScore_eq.1]
  simp only [updateBestWith, meets_get_bind, himproves]
  split
  · exact (meets_setBest hC h (hC.stored (h.peers hC)) score).bind fun _ _ s s' hs => ⟨rfl, hs⟩
  · exact ⟨rfl, h⟩

/-- The working solutions of twins become the best ones alike when they are scored. -/
theorem meets_updateBest : Meets E updateBest updateBest r r' (Agrees C exact dir) := by
  refine (meets_calculate hC h).bind fun score score' s s' hs => ?_
  obtain ⟨rfl, hs⟩ := hs
  exact meets_updateBestWith hC hs score

/-- A change of the problem is made or refused alike; if it is refused it leaves the directors as they were. -/
theorem meets_applyChange {c : ProblemChange S k} (hc : c.Respects C) :
    Meets E (applyChange c) (applyChange c) r r' fun a b s s' =>
      a = b ∧ ∃ d, s.Twin C exact d s' ∧ (a = false → d = dir) := by
  have hdirect : Meets E (direct c.apply) (direct c.apply) r r' fun x y s s' =>
      x = y ∧ ∃ d, s.Twin C exact d s' ∧ (x.isSome = true → d = dir) := by
    refine .intro (fun x s hs => ?_) fun x s' hs => ?_
    · obtain ⟨d, hd, rfl⟩ := direct_eq_ok_iff.1 hs
      obtain ⟨⟨d', hd', hsame⟩, hrefused⟩ := hc _ _ _ _ (h.peers hC) hd
      refine ⟨x, _, direct_eq_ok_iff.2 ⟨d', hd', rfl⟩, rfl, ?_⟩
      cases x with
      | none =>
        exact ⟨d, { h with left := hC.trans hsame (hC.symm hsame), right := hsame }, nofun⟩
      | some e =>
        have hleft := hC.trans h.left (hC.symm (hrefused rfl))
        exact ⟨dir, { h with left := hleft, right := hC.trans hleft hsame }, fun _ => rfl⟩
    · obtain ⟨d', hd', -⟩ := direct_eq_ok_iff.1 hs
      obtain ⟨⟨d, hd, -⟩, -⟩ := hc _ _ _ _ (hC.symm (h.peers hC)) hd'
      exact ⟨x, _, direct_eq_ok_iff.2 ⟨d, hd, rfl⟩⟩
  refine hdirect.bind fun x y s s' hs => ?_
  obtain ⟨rfl, d, hs, hrefused⟩ := hs
  cases x with
  | none => exact (meets_report hC hs _ _ _ _).bind fun _ _ t t' ht => ⟨rfl, d, ht, nofun⟩
  | some e => exact (meets_report hC hs _ _ _ _).bind fun _ _ t t' ht => ⟨rfl, d, ht, fun _ => hrefused rfl⟩

/-- Twins take in the same changes of the problem; without any the directors are as they were. -/
theorem meets_takeChanges : Meets E takeChanges takeChanges r r' fun n n' s s' =>
    n = n' ∧ ∃ d, s.Twin C exact d s' ∧ (n = 0 → d = dir) := by
  simp only [takeChanges, meets_get_bind, h.takesChanges, ← h.pending]
  split
  · exact ⟨rfl, dir, h, fun _ => rfl⟩
  · simp only [meets_modify_bind]
    have hmade : Meets E (r.pending.filterM applyChange) (r.pending.filterM applyChange)
        { r with pending := [] } { r' with pending := [] } fun made made' s s' =>
          made = made' ∧ ∃ d, s.Twin C exact d s' ∧ (made = [] → d = dir) := by
      refine .filterM (fun c hc made s s' hs => ?_)
        ⟨dir, { h with pending := rfl, waits := fun _ hmem => absurd hmem List.not_mem_nil }, fun _ => rfl⟩
      obtain ⟨d, hs, hnone⟩ := hs
      refine (meets_applyChange hC hs (h.waits c hc)).mono fun a b t t' ht => ?_
      obtain ⟨rfl, d', ht, hrefused⟩ := ht
      refine ⟨rfl, d', ht, fun hmade => ?_⟩
      cases a with
      | true => cases List.append_ne_nil_of_right_ne_nil made (List.cons_ne_nil c []) hmade
      | false => rw [hrefused rfl, hnone hmade]
    refine hmade.bind fun made made' s s' hs => ?_
    obtain ⟨rfl, d, hs, hnone⟩ := hs
    split
    · rename_i hempty
      exact ⟨rfl, d, hs, fun _ => hnone (List.isEmpty_iff.1 hempty)⟩
    · rename_i hempty
      refine (meets_calculate hC hs).bind fun score score' t t' ht => ?_
      obtain ⟨rfl, ht⟩ := ht
      simp only [meets_get_bind]
      refine (meets_setBest hC ht (hC.stored (ht.peers hC)) score).bind fun _ _ u u' hu => ?_
      refine (meets_report hC hu _ _ _ _).bind fun _ _ v v' hv => ⟨rfl, d, hv, fun hzero => ?_⟩
      exact absurd (List.isEmpty_iff.2 (List.length_eq_zero_iff.1 hzero)) hempty

/-- The same move is made by twins. -/
theorem meets_make (hm : P m) : Meets E (make m) (make m) r r' fun _ _ s s' =>
    ∃ d, dir.doMove m = .ok (d, .ok ()) ∧ s.Twin C exact d s' := by
  refine .intro (fun u s hs => ?_) fun u s' hs => ?_
  · obtain ⟨d, hd, rfl⟩ := make_eq_ok_iff.1 hs
    obtain ⟨d', hd', hsame'⟩ := hC.doMove hm (h.peers hC) hd
    obtain ⟨d₀, hd₀, hsame⟩ := hC.doMove hm (hC.symm h.left) hd
    refine ⟨(), _, make_eq_ok_iff.2 ⟨d', hd', rfl⟩, d₀, hd₀, ?_⟩
    exact { h with left := hC.symm hsame, right := hC.trans (hC.symm hsame) hsame' }
  · obtain ⟨d', hd', -⟩ := make_eq_ok_iff.1 hs
    obtain ⟨d, hd, -⟩ := hC.doMove hm (hC.symm (h.peers hC)) hd'
    exact ⟨(), _, make_eq_ok_iff.2 ⟨d, hd, rfl⟩⟩

/-- What the first of two twins logs leaves them twins. -/
theorem exists_logAt (level : LogLevel) (e : Unit → LogEvent) :
    ∃ s, logAt level e r = .ok () s ∧ s.mode = r.mode ∧ s.Twin C exact dir r' := by
  by_cases hlogs : r.logs level = true
  · let logged : RunState S k := { r.drained with log := e () :: r.drained.log }
    refine ⟨logged, bind_apply_eq_ok_iff.2 ⟨r, r, rfl, by rw [if_pos hlogs]; rfl⟩, rfl, ?_⟩
    exact { h with left := hC.symm (hC.journal _ (hC.symm h.left)) }
  · exact ⟨r, bind_apply_eq_ok_iff.2 ⟨r, r, rfl, by rw [if_neg hlogs]; rfl⟩, rfl, h⟩

/-- A move that the director scores is evaluated by the first of two twins, and they are twins again. -/
theorem exists_evaluate (hm : P m) {d : Director S k}
    (hd : dir.evaluate m r.mode.assertsMoves = .ok (d, .ok score)) :
    ∃ s, evaluate m r = .ok score s ∧ s.mode = r.mode ∧ s.Twin C exact dir r' := by
  obtain ⟨-, d', hd'⟩ := hC.evaluate hm h.left hd
  have hback := (hC.evaluate hm (hC.trans (hC.symm h.left) h.left) hd').1
  have htried : { r with director := d' }.Twin C exact dir r' := { h with left := hC.trans h.left (hC.symm hback) }
  obtain ⟨s, hs, hmode, htwin⟩ := exists_logAt hC htried .trace
    fun _ => .named .trace "move_evaluated" [("candidate", .shown m.text), ("score", .shown score.text)]
  refine ⟨s, bind_apply_eq_ok_iff.2 ⟨r, r, rfl, ?_⟩, hmode, htwin⟩
  refine bind_apply_eq_ok_iff.2 ⟨.ok score, _, direct_eq_ok_iff.2 ⟨d', hd', rfl⟩, ?_⟩
  exact bind_apply_eq_ok_iff.2 ⟨(), s, hs, rfl⟩

omit hC [PlanningSolution S k] in
/-- Twins count a move that both evaluated, unless the second counts too many. -/
theorem meets_recordMove (hE : exact ∨ E (.faulted .overflow)) (isAccepted : Bool) :
    Meets E (recordMove isAccepted) (recordMove isAccepted) r r' fun _ _ => RunState.Twin C exact dir := by
  have hnext : r.moves + 1 ≤ r'.moves + 1 := Nat.succ_le_succ h.moves
  simp only [recordMove, meets_get_bind]
  by_cases hright : r'.moves + 1 ≤ maxCount
  · rw [counted_of_le (hnext.trans hright), counted_of_le hright]
    refine { h with moves := hnext, counts := fun hexact => ?_ }
    obtain ⟨hmoves, hstatistics, hstart, himprovement⟩ := h.counts hexact
    refine ⟨congrArg (· + 1) hmoves, ?_, hstart, himprovement⟩
    exact congrArg (Statistics.recordMove · isAccepted) hstatistics
  · rw [counted, counted, if_neg hright]
    refine Meets.of_error (show _ = EStateM.Result.error _ r' from rfl) (hE.symm.imp_right fun hexact u s hs => ?_)
    rw [(h.counts hexact).1, if_neg hright] at hs
    cases hs

omit hC [PlanningSolution S k] in
/-- If counts need not be exact, the second of two twins counts a move that the first did not evaluate, unless it counts
too many. -/
theorem meets_recordMove_right (hE : E (.faulted .overflow)) (hexact : ¬ exact) (isAccepted : Bool)
    {p : Running S k α} {q : Running S k β} {G : α → β → RunState S k → RunState S k → Prop}
    (hnext : ∀ s', r.Twin C exact dir s' → Meets E p q r s' G) :
    Meets E p (recordMove isAccepted >>= fun _ => q) r r' G := by
  by_cases hle : r'.moves + 1 ≤ maxCount
  · have hcounted : recordMove isAccepted r' = .ok ()
        { r' with moves := r'.moves + 1, statistics := r'.statistics.recordMove isAccepted } :=
      bind_apply_eq_ok_iff.2 ⟨r', r', rfl, by rw [counted_of_le hle]; rfl⟩
    refine .of_right hcounted (hnext _ ?_)
    exact { h with moves := h.moves.trans (Nat.le_succ _), counts := fun hcounts => absurd hcounts hexact }
  · have hcount : checked (S := S) (k := k) (counted (r'.moves + 1)) r' = .error (.faulted .overflow) r' := by
      rw [counted_eq_error_iff.2 ⟨Nat.lt_of_not_le hle, rfl⟩]
      rfl
    have hfault : recordMove isAccepted r' = .error (.faulted .overflow) r' := by
      change (checked (counted (r'.moves + 1)) >>= _) r' = _
      exact bind_apply_of_error hcount
    exact .of_error (bind_apply_of_error hfault) (.inl hE)

end

end Running

end Planning
