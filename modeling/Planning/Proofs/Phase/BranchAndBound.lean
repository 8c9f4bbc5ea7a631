import Planning.Proofs.Director.Full
import Planning.Proofs.Phase.Exact
import Planning.Proofs.Problems.Timetable

/-!
# Branch and bound

Where giving a value to a further entity never makes the score better, branch and bound finds what brute force finds: an
assignment with the best score, and depth first the very first of these in the order of the values. Both have to get
through all nodes; they do where no termination and no limit is set and nobody asks the run to stop.
-/

namespace Planning

open Checked RunState Running

variable {S T : Type} {k : ScoreKind} [PlanningSolution S k]

/-- Nothing stops a run: it has no termination, and it was not and will not be asked to stop. -/
structure RunState.Unstopped (r : RunState S k) : Prop where
  /-- The run was not asked to stop. -/
  stopping : r.stopping = false
  /-- The run has no termination. -/
  termination : r.termination = none
  /-- The watch will not ask the run to stop. -/
  watch : ∀ w ∈ r.watch, ∀ q ∈ w.requests, q.2 ≠ .stop

/-- A phase without a termination does not have to stop while nothing stops the run. -/
theorem RunState.Unstopped.isPhaseTerminated {r : RunState S k} (h : r.Unstopped) : r.isPhaseTerminated none = false := by
  rw [RunState.isPhaseTerminated, RunState.isTerminated, h.stopping, h.termination]
  rfl

/-- What nothing stopped before nothing stops afterwards. -/
def RunState.StaysUnstopped (r r' : RunState S k) : Prop := r.Unstopped → r'.Unstopped

instance : IsPreorder (RunState S k) StaysUnstopped where
  refl _ := id
  trans _ _ _ h h' := h' ∘ h

namespace Running

variable {r : RunState S k}

/-- A computation asks no run to stop. -/
abbrev Unstopping {α : Type} (x : Running S k α) : Prop := Leads RunState.Unstopped StaysUnstopped x

namespace Unstopping

omit [PlanningSolution S k] in
/-- A run that is changed goes on. -/
theorem change {g : RunState S k → RunState S k} (h : ∀ r, (g r).stopping = r.stopping ∧
    (g r).termination = r.termination ∧ (g r).watch = r.watch) : Unstopping (modify g : Running S k PUnit) := by
  refine .modify fun r hr => ?_
  obtain ⟨hstopping, htermination, hwatch⟩ := h r
  have hg : (g r).Unstopped := ⟨hstopping.trans hr.stopping, htermination.trans hr.termination, hwatch ▸ hr.watch⟩
  exact ⟨hg, fun _ => hg⟩

omit [PlanningSolution S k] in
theorem direct {α : Type} (d : Director S k → Checked (Director S k × α)) : Unstopping (direct d) :=
  Leads.direct fun _ _ _ hr _ => ⟨⟨hr.stopping, hr.termination, hr.watch⟩, fun _ => ⟨hr.stopping, hr.termination, hr.watch⟩⟩

omit [PlanningSolution S k] in
theorem logAt (level : LogLevel) (e : Unit → LogEvent) : Unstopping (logAt level e : Running S k Unit) :=
  .bind .get fun _ => .ite (change fun _ => ⟨rfl, rfl, rfl⟩) (.pure _)

omit [PlanningSolution S k] in
theorem recordMove (accepted : Bool) : Unstopping (recordMove accepted : Running S k Unit) :=
  .bind .get fun _ => .bind (.checked _) fun _ => change fun _ => ⟨rfl, rfl, rfl⟩

omit [PlanningSolution S k] in
/-- What the watch asks for is a change of the problem. -/
theorem request {q : Request S k} (hq : q ≠ .stop) : Unstopping (request q) := by
  cases q with
  | change c => exact change fun _ => ⟨rfl, rfl, rfl⟩
  | stop => exact absurd rfl hq

/-- What is told makes the watch ask for nothing but changes of the problem. -/
theorem tell (e : RunEvent S k) : Unstopping (tell e) := by
  intro r hr
  unfold Running.tell
  simp only [ends_bind, ends_modify, ends_get]
  have hnoted : { r with history := e :: r.history }.Unstopped := ⟨hr.stopping, hr.termination, hr.watch⟩
  have hlog : ∀ {r' : RunState S k} {level} {logged : Unit → LogEvent}, r'.Unstopped →
      Ends (Running.logAt level logged) r' (fun _ r'' => r''.Unstopped ∧ r.StaysUnstopped r'')
        fun _ r'' => r.StaysUnstopped r'' := by
    intro r' level logged hr'
    refine (logAt level logged r' hr').mono (fun _ _ hr'' => ⟨hr''.1, fun _ => hr''.1⟩) fun _ _ hstays _ => hstays hr'
  split
  · rename_i w hw
    split
    · rename_i i score
      have hloop : Unstopping ((w.requests.filter fun q => q.1 == i).forM fun q => Running.request q.2 : Running S k _) :=
        .forM fun q hq => request (hr.watch w hw q (List.mem_filter.1 hq).1)
      rw [ends_bind]
      refine (hloop _ hnoted).mono (fun _ r' hr' => ?_) fun _ _ hstays _ => hstays hnoted
      split
      · exact hlog hr'.1
      · exact ⟨hr'.1, fun _ => hr'.1⟩
    · split
      · exact hlog hnoted
      · exact ⟨hnoted, fun _ => hnoted⟩
  · exact ⟨hnoted, fun _ => hnoted⟩

theorem calculate : Unstopping (calculate : Running S k (Score k)) :=
  .bind (change fun _ => ⟨rfl, rfl, rfl⟩) fun _ => direct _

theorem stepStarted : Unstopping (stepStarted : Running S k Unit) := .bind .get fun _ => tell _

theorem stepEnded (score : Score k) : Unstopping (stepEnded score : Running S k Unit) :=
  .bind .get fun _ => .bind (tell _) fun _ => .bind .get fun _ => .bind (.checked _) fun _ =>
    .bind (change fun _ => ⟨rfl, rfl, rfl⟩) fun _ => .bind .get fun _ => logAt _ _

theorem setBest (s : S) (score : Score k) : Unstopping (setBest s score : Running S k Unit) :=
  .bind .get fun _ => .bind (logAt _ _) fun _ => .bind (change fun _ => ⟨rfl, rfl, rfl⟩) fun _ => tell _

theorem updateBestWith (score : Score k) : Unstopping (updateBestWith score : Running S k Bool) :=
  .bind .get fun _ => .ite (.bind (setBest _ _) fun _ => .pure _) (.pure _)

theorem assertStep : Unstopping (assertStep : Running S k Unit) := by
  refine .bind .get fun _ => .ite (.bind (direct _) fun out => ?_) (.pure _)
  cases out with
  | ok _ => exact .pure _
  | error e => exact .fail _

end Unstopping

end Running

namespace ExhaustiveSearch

variable {U : Type} {x : ExhaustiveSearch S U k} {entities : List Nat} {r : RunState S k}

omit [PlanningSolution S k] in
theorem unstopping_assign (e : Nat) (v : Option U) : Unstopping (x.assign e v : Running S k Unit) := by
  unfold assign Running.edit
  exact Unstopping.direct _

theorem unstopping_children (e : Nat) (node : SearchNode U k) (best : Option (SearchNode U k)) (sequence : Nat)
    (vs : List U) : Unstopping (x.children e node best sequence vs) := by
  induction vs generalizing sequence with
  | nil => exact .pure _
  | cons v vs ih =>
    have hscored : Unstopping (x.scoreWith e v) :=
      .bind (unstopping_assign _ _) fun _ => .bind Unstopping.calculate fun _ => .bind (unstopping_assign _ _) fun _ =>
        .bind (Unstopping.recordMove _) fun _ => .pure _
    exact .bind hscored fun _ => .ite (ih _) (.bind (.checked _) fun _ => .bind (ih _) fun _ => .pure _)

variable [DecidableEq U]

/-- Looking at a node asks no run to stop. -/
theorem unstopping_visit (node : SearchNode U k) (st : TreeState U k) : Unstopping (x.visit entities node st) := by
  have hmove : ∀ p q, Unstopping (x.moveTo entities p q : Running S k Unit) := fun _ _ =>
    .bind (.forM fun _ _ => unstopping_assign _ _) fun _ => .forM fun _ _ => unstopping_assign _ _
  refine .bind Unstopping.stepStarted fun _ => .bind (hmove _ _) fun _ => ?_
  dsimp only
  split
  · refine .ite (.bind (Unstopping.updateBestWith _).discard fun _ => ?_) ?_
    · exact .bind (Unstopping.stepEnded _) fun _ => .pure _
    · exact .bind (Unstopping.stepEnded _) fun _ => .pure _
  · refine .bind .get fun _ => .bind (.checked _) fun _ => .bind (unstopping_children _ _ _ _ _) fun out => ?_
    exact .bind (Unstopping.stepEnded _) fun _ => .bind Unstopping.assertStep fun _ => .pure _

/-- Without a node limit and a termination a search that nothing stops goes through all nodes. -/
theorem exhausts_of_unstopped (hlimit : x.nodeLimit = none) (htermination : x.termination = none) (h : r.Unstopped) :
    x.Exhausts entities r := by
  have hvisits : ∀ {fuel : Nat} {st : TreeState U k} {r : RunState S k}, r.Unstopped →
      Ends (x.visits entities fuel st) r (fun st' _ => st'.frontier = []) fun _ _ => True := by
    intro fuel
    induction fuel with
    | zero => exact fun _ => trivial
    | succ fuel ih =>
      intro st r hr
      have hstopped : r.isPhaseTerminated x.termination = false := by
        rw [htermination, hr.isPhaseTerminated]
      unfold visits
      split
      · rename_i hfrontier
        exact hfrontier
      · simp only [isStopped, ends_bind, ends_get, ends_pure, ends_ite, hstopped, hlimit]
        refine ⟨fun hstop => absurd hstop (by simp), fun _ => ⟨fun _ => ih hr, fun _ => ?_⟩⟩
        exact (unstopping_visit _ _ r hr).mono (fun st' r' hr' => ih hr'.1) fun _ _ _ => trivial
  intro score r₁ st r₂ hcalculate hrun
  exact (hvisits ((Unstopping.calculate r h).of_ok hcalculate).1).of_ok hrun

end ExhaustiveSearch

variable {D : Director S k → Prop} {F : S → Score k} {B L : Type} {V : B → Type} {W : L → Type}
variable [DecidableEq B] [DecidableEq L]
variable [∀ b, PlanningValue (V b)] [∀ b, DecidableEq (V b)] [∀ l, PlanningValue (W l)] [∀ l, DecidableEq (W l)]
variable {g : Genuine S V W} {facts : S → T} {shadows : ShadowCascade S} {b : B}

omit [DecidableEq B] [DecidableEq L] [∀ b, PlanningValue (V b)] [∀ b, DecidableEq (V b)] [∀ l, PlanningValue (W l)]
  [∀ l, DecidableEq (W l)] in
/-- Directors that score in full never fault, if neither their listeners nor their scores do. -/
theorem Genuine.reliable_full {f : S → Checked (Score k)}
    (hstored : ∀ s score, f (PlanningSolution.withScore s score) = f s) (hf : ∀ s, ∃ score, f s = .ok score)
    (hshadows : ∀ e ∈ shadows, ∀ s x, ∃ s' changed, e.listener.update s x = .ok (s', changed)) (b : B) :
    g.Reliable b (Director.Full f shadows) := by
  refine ⟨fun {dir e} v h _ => ?_, fun h => h.exists_calculate (hf _), fun h => h.exists_assertScore hstored (hf _)⟩
  obtain ⟨known, hscoring⟩ := h.exists_known
  have hforgot : (dir.forget.forget).Forgot f := Director.forgot_forget (Director.forgot_forget hscoring)
  let s := (g.basic b).set dir.forget.solution e v
  let edited : Director S k := { dir.forget.forget with solution := s }
  obtain ⟨s', changed, hcascade, -⟩ := ShadowCascade.exists_cascade (I := fun _ => True)
    (fun e he s x _ => (hshadows e he s x).imp fun _ h => h.imp fun _ h => ⟨h, trivial⟩) (s := s) trivial
    ((g.basic b).entityClass, e) (edited.variableIndex? (g.basic b).entityClass (g.basic b).name)
  have hlisteners : edited.shadows = shadows := by
    have hkept : ∀ d : Director S k, d.forget.shadows = d.shadows := fun d => by rw [Director.forget_eq]
    exact (hkept _).trans ((hkept dir).trans h.shadows)
  have hfull : { edited with solution := s' }.scoring = .full f none := hforgot
  refine ⟨_, bind_eq_ok_iff.2 ⟨edited, rfl, bind_eq_ok_iff.2 ⟨{ edited with solution := s' }, ?_,
    bind_eq_ok_iff.2 ⟨_, Director.emit_of_full hfull _, rfl⟩⟩⟩⟩
  rw [← hlisteners] at hcascade
  exact bind_eq_ok_iff.2 ⟨_, hcascade, Director.emitAll_of_full hfull _ _⟩

/-- The search of some kind in some order. -/
def ExhaustiveSearch.inOrder {U : Type} (x : ExhaustiveSearch S U k) (kind : ExhaustiveKind) (o : Exploration) :
    ExhaustiveSearch S U k :=
  { x with kind := kind, exploration := o }

/-- Branch and bound is exact. From the same run, branch and bound and brute force leave complete assignments with the
same score, which no complete assignment beats, or no assignment at all if there is no complete one. Whichever of them
goes depth first leaves the first of the best assignments in the order of the values. -/
theorem ExhaustiveSearch.branchAndBound_exact {x : ExhaustiveSearch S (V b) k} (hx : x.planned = g.basic b)
    (hsafe : g.Reliable b D) (hreg : g.Regular facts shadows) (hD : Settles g facts shadows D F)
    {r : RunState S k} (h : r.Abides D) {entities : List Nat}
    (hentities : (g.basic b).unassigned r.director.solution = entities) (hlimit : entities.length ≤ x.entityLimit)
    {t : SearchTree (V b) k}
    (ht : t.Describes g facts D F (g.content r.director.solution) (facts r.director.solution) entities) (hfalls : t.Falls)
    (hcounts : r.moves + t.size [] ≤ maxCount ∧ r.steps + (t.size [] + 1) ≤ maxCount) {o o' : Exploration}
    (hall : (x.inOrder .branchAndBound o).Exhausts entities r ∧ (x.inOrder .bruteForce o').Exhausts entities r) :
    ∃ r₁ r₂, (x.inOrder .branchAndBound o).run r = .ok () r₁ ∧ (x.inOrder .bruteForce o').run r = .ok () r₂ ∧
      ((t.assignments = [] ∧ g.content r₁.director.solution = g.content r.director.solution ∧
          g.content r₂.director.solution = g.content r.director.solution) ∨
        ∃ first p q, t.First first ∧ p ∈ t.assignments ∧ q ∈ t.assignments ∧
          g.content r₁.director.solution = (g.content r.director.solution).fill b entities p ∧
          g.content r₂.director.solution = (g.content r.director.solution).fill b entities q ∧
          F r₁.director.solution = t.score first ∧ F r₂.director.solution = t.score first ∧
          (o = .depthFirst → p = first) ∧ (o' = .depthFirst → q = first)) := by
  subst hentities
  obtain ⟨⟨⟩, r₁, hrun₁, best₁, hagrees₁, hmem₁, hstands₁⟩ :=
    (ends_run_exact hsafe hreg hD (x := x.inOrder .branchAndBound o) hx ht h (fun _ => hfalls) hlimit hall.1 hcounts.1
      hcounts.2).exists_ok
  obtain ⟨⟨⟩, r₂, hrun₂, best₂, hagrees₂, hmem₂, hstands₂⟩ :=
    (ends_run_exact hsafe hreg hD (x := x.inOrder .bruteForce o') hx ht h (fun _ => hfalls) hlimit hall.2 hcounts.1
      hcounts.2).exists_ok
  refine ⟨r₁, r₂, hrun₁, hrun₂, ?_⟩
  have hscore₁ := ht.score hstands₁.abides.director hstands₁.content hstands₁.facts
  have hscore₂ := ht.score hstands₂.abides.director hstands₂.content hstands₂.facts
  cases hkept : t.keep none t.assignments with
  | none =>
    refine .inl ⟨(SearchTree.keep_eq_none_iff.1 hkept).2, ?_⟩
    have hvacant := vacant_unassigned (g := g) b r.director.solution
    have hnone : ∀ {o : Exploration} {best : Option (List (V b))}, t.Agrees o best (t.keep none t.assignments) →
        best.getD [] = [] := by
      intro o best hagrees
      have hscore := hagrees.score
      rw [hkept] at hscore
      rw [Option.map_eq_none_iff.1 hscore, Option.getD_none]
    rw [hstands₁.content, hstands₂.content, hnone hagrees₁, hnone hagrees₂, Content.fill_nil hvacant.none]
    exact ⟨rfl, rfl⟩
  | some first =>
    have hsome : ∀ {o : Exploration} {best : Option (List (V b))}, t.Agrees o best (t.keep none t.assignments) →
        ∃ p, best = some p ∧ t.score p = t.score first ∧ (o = .depthFirst → p = first) := by
      intro o best hagrees
      have hscore := hagrees.score
      have hpath := hagrees.path
      rw [hkept] at hscore hpath
      obtain ⟨p, rfl, hp⟩ := Option.map_eq_some_iff.1 hscore
      exact ⟨p, rfl, hp, fun ho => Option.some.inj (hpath ho)⟩
    obtain ⟨p, rfl, hp, hfirst₁⟩ := hsome hagrees₁
    obtain ⟨q, rfl, hq, hfirst₂⟩ := hsome hagrees₂
    exact .inr ⟨first, p, q, SearchTree.first_of_keep hkept, hmem₁ p rfl, hmem₂ q rfl, hstands₁.content, hstands₂.content,
      hscore₁.trans hp, hscore₂.trans hq, hfirst₁, hfirst₂⟩

namespace Timetable

/-- Two lessons without rooms, and two rooms. -/
def unplaced : Timetable where
  rooms := [⟨0, "A", 30⟩, ⟨1, "B", 20⟩]
  lessons := [⟨0, "Curie", 25, 0, none⟩, ⟨1, "Turing", 18, 0, none⟩]

/-- The score of two lessons: they must not be in the same room. -/
def separation (first second : Option Nat) : Score .hardSoft :=
  if first.isSome && first == second then ⟨[⟨-1, by decide⟩, .zero], rfl⟩ else .zero

/-- The first two lessons must not be in the same room. -/
def keepApart (t : Timetable) : Checked (Score .hardSoft) := .ok (separation (t.room? 0) (t.room? 1))

/-- The rooms of two lessons that must not be in the same one. -/
def separated : SearchTree Nat .hardSoft where
  depth := 2
  values _ := [0, 1]
  score p := separation p[0]? p[1]?

/-- A director that keeps two lessons apart. -/
def separator : Director Timetable .hardSoft where
  descriptor := descriptor
  solution := unplaced
  shadows := []
  scoring := .full keepApart none

/-- The run of the director. -/
def separating : RunState Timetable .hardSoft := { director := separator, generator := .ofSeed 0 }

/-- Where the lessons must not be in the same room, what the genuine variables hold settles the score. -/
theorem settles_keepApart :
    ExhaustiveSearch.Settles givenRooms bare [] (Director.Full keepApart []) (scratch keepApart) where
  toScores := givenRooms.scores_full [] fun _ _ => rfl
  shadows h := h.shadows
  settled _ _ h := by
    have hrooms : Timetable.room? _ = Timetable.room? _ := congrArg (fun c => c.values ()) h.content
    rw [scratch, scratch, keepApart, keepApart, hrooms]

/-- The tree of rooms describes what the search goes through. -/
theorem describes_separated : separated.Describes (b := ()) givenRooms bare (Director.Full keepApart []) (scratch keepApart)
    (givenRooms.content unplaced) (bare unplaced) [0, 1] where
  depth := rfl
  values {dir path e} _ _ hfacts _ := by
    have hrooms : dir.solution.rooms = unplaced.rooms := congrArg Prod.fst hfacts
    change (ValueRange.indices fun t : Timetable => t.rooms.length).values dir.solution e = .ok [0, 1]
    simp only [ValueRange.values, ValueRange.indices, hrooms]
    rfl
  score {dir path} _ hcontent _ := by
    have hrooms : dir.solution.room? = ((givenRooms.content unplaced).fill () [0, 1] path).values () :=
      congrArg (fun c => c.values ()) hcontent
    simp only [scratch, keepApart, hrooms, Content.fill, Function.update_self]
    rfl

/-- A further room never makes the score better. -/
theorem falls_separated : separated.Falls := by
  intro p v hlt _
  have hnone : p[1]? = none := List.getElem?_eq_none (Nat.le_of_lt_succ hlt)
  have hzero : separated.score p = .zero := by
    change separation p[0]? p[1]? = .zero
    rw [hnone]
    cases p[0]? <;> rfl
  rw [hzero]
  change Score.reaches .zero (separation _ _) = true
  unfold separation
  split <;> decide

/-- The first of the best assignments puts the second lesson into the other room. -/
theorem first_separated : separated.First [0, 1] :=
  ⟨[[0, 0]], [[1, 0], [1, 1]], rfl, by decide, by decide⟩

/-- The run goes on. -/
theorem unstopped_separating : separating.Unstopped := ⟨rfl, rfl, fun _ hw => by cases hw⟩

/-- The director of the run scores in full. -/
theorem abides_separating : separating.Abides (Director.Full keepApart []) := by
  refine ⟨⟨rfl, .inl rfl⟩, fun _ hc => absurd hc List.not_mem_nil, fun c hc => ?_⟩
  obtain ⟨w, hw, -⟩ := hc
  cases hw

/-- Where the lessons must not be in the same room, nothing faults. -/
theorem reliable_keepApart : givenRooms.Reliable () (Director.Full keepApart []) :=
  Genuine.reliable_full (fun _ _ => rfl) (fun _ => ⟨_, rfl⟩) (fun _ he => absurd he List.not_mem_nil) ()

/-- Branch and bound and brute force put two lessons into different rooms. -/
theorem run_separating : ∃ r₁ r₂, (roomSearch.inOrder .branchAndBound .depthFirst).run separating = .ok () r₁ ∧
    (roomSearch.inOrder .bruteForce .depthFirst).run separating = .ok () r₂ ∧
    givenRooms.content r₁.director.solution = (givenRooms.content unplaced).fill () [0, 1] [0, 1] ∧
    givenRooms.content r₂.director.solution = (givenRooms.content unplaced).fill () [0, 1] [0, 1] := by
  have hopen : (givenRooms.basic ()).unassigned separating.director.solution = [0, 1] := rfl
  have hall : ∀ kind, (roomSearch.inOrder kind .depthFirst).Exhausts [0, 1] separating :=
    fun _ => ExhaustiveSearch.exhausts_of_unstopped rfl rfl unstopped_separating
  obtain ⟨r₁, r₂, hrun₁, hrun₂, hout⟩ := ExhaustiveSearch.branchAndBound_exact (x := roomSearch) rfl reliable_keepApart
    regular_givenRooms settles_keepApart abides_separating hopen (by decide) describes_separated falls_separated (by decide)
    ⟨hall .branchAndBound, hall .bruteForce⟩
  rcases hout with ⟨hnone, -⟩ | ⟨first, p, q, hfirst, -, -, hp, hq, -, -, hfirst₁, hfirst₂⟩
  · cases hnone
  · obtain rfl := hfirst.unique first_separated
    rw [hfirst₁ rfl] at hp
    rw [hfirst₂ rfl] at hq
    exact ⟨r₁, r₂, hrun₁, hrun₂, hp, hq⟩

end Timetable

end Planning
