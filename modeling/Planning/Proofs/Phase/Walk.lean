import Planning.Proofs.Phase.Boundary
import Planning.Proofs.Phase.BranchAndBound

/-!
# Walks through the nodes of an exhaustive search

Whichever open node comes next, a search gets to it by taking back what the node does not share with the one before and
assigning the rest. So wherever a walk through the nodes gets to, the working solution has the values of the node, and
the score of the node is its score. When the search is over it has the values of the first of the best complete
assignments that were looked at, or what it had in the beginning.
-/

namespace Planning

open Checked RunState Running

variable {S T : Type} {k : ScoreKind} [PlanningSolution S k] {D : Director S k → Prop} {F : S → Score k}
variable {B L : Type} {V : B → Type} {W : L → Type} [DecidableEq B] [DecidableEq L]
variable [∀ b, PlanningValue (V b)] [∀ b, DecidableEq (V b)] [∀ l, PlanningValue (W l)] [∀ l, DecidableEq (W l)]
variable {g : Genuine S V W} {facts : S → T} {shadows : ShadowCascade S} {b : B}

/-- What the genuine variables hold and the facts make up the solutions of directors of a kind, but for the stored
score. -/
def Genuine.Determines (g : Genuine S V W) (facts : S → T) (D : Director S k → Prop) : Prop :=
  ∀ {dir dir'}, D dir → D dir' → g.Alike facts dir.solution dir'.solution → ∀ score : Score k,
    PlanningSolution.withScore dir.solution score = PlanningSolution.withScore dir'.solution score

namespace ExhaustiveSearch

section Walk

variable {U : Type} [DecidableEq U] {x : ExhaustiveSearch S U k} {entities : List Nat} {st st' : TreeState U k}
variable {r r' : RunState S k} {node : SearchNode U k} {looked : List (SearchNode U k)}

/-- The search gets from where it is to a node. -/
def goTo (x : ExhaustiveSearch S U k) (entities : List Nat) (st : TreeState U k) (node : SearchNode U k) :
    Running S k Unit := do
  Running.stepStarted
  x.moveTo entities st.current node.path

/-- A node is accepted once the search has got to it, if its assignment is complete. -/
theorem visit_leaf (h : entities[node.path.length]? = none) : x.visit entities node st = (do
    x.goTo entities st node
    visitLeaf node { st with current := node.path, nodes := st.nodes + 1 }) := by
  simp only [visit, goTo, bind_assoc, h]

/-- A node is expanded once the search has got to it, if an entity is left that has no value. -/
theorem visit_inner {e : Nat} (h : entities[node.path.length]? = some e) : x.visit entities node st = (do
    x.goTo entities st node
    x.visitInner e node { st with current := node.path, nodes := st.nodes + 1 }) := by
  simp only [visit, goTo, bind_assoc, h]

/-- A walk through nodes: one open node after another, whichever comes next, is left out or looked at. -/
inductive Walk (x : ExhaustiveSearch S U k) (entities : List Nat) (st : TreeState U k) (r : RunState S k) :
    List (SearchNode U k) → TreeState U k → RunState S k → Prop
  /-- No node was looked at. -/
  | start : Walk x entities st r [] st r
  /-- A node is left out. -/
  | skip {looked st' r' before node after} : Walk x entities st r looked st' r' →
      st'.frontier = before ++ node :: after → x.prunes st'.best node.score = true →
      Walk x entities st r looked { st' with frontier := before ++ after } r'
  /-- A node is looked at. -/
  | look {looked st' r' before node after st'' r''} : Walk x entities st r looked st' r' →
      st'.frontier = before ++ node :: after → x.prunes st'.best node.score = false →
      x.visit entities node { st' with frontier := before ++ after } r' = .ok st'' r'' →
      Walk x entities st r (looked ++ [node]) st'' r''

/-- The search is over: no node is open, it is to stop, or it has looked at as many nodes as it may. -/
def Halts (x : ExhaustiveSearch S U k) (st : TreeState U k) (r : RunState S k) : Prop :=
  st.frontier = [] ∨ r.isPhaseTerminated x.termination = true ∨ ∃ n ∈ x.nodeLimit, n ≤ st.nodes

/-- The complete assignments among some nodes. -/
def leaves (entities : List Nat) (nodes : List (SearchNode U k)) : List (SearchNode U k) :=
  nodes.filter fun node => decide (entities.length ≤ node.path.length)

/-- Looking at a node stops the run only by a mishap. -/
theorem ends_visit_mishap : Ends (x.visit entities node st) r (fun _ _ => True) fun e _ => e.IsMishap := by
  rw [visit_eq, ends_bind]
  refine (unfailing_look entities node st r).mono (fun _ r₁ _ => ?_) fun _ _ => .inl
  simp only [ends_ite, ends_bind, ends_pure]
  exact ⟨fun _ => ends_assertStep_mishap, fun _ => trivial⟩

/-- A search walks through its nodes until it is over, unless a mishap stops it. -/
theorem ends_visits_walk {st₀ : TreeState U k} {r₀ : RunState S k} (h : x.Walk entities st₀ r₀ looked st r)
    (fuel : Nat) :
    Ends (x.visits entities fuel st) r (fun st' r' => ∃ looked, x.Walk entities st₀ r₀ looked st' r' ∧ x.Halts st' r')
      fun e _ => e.IsMishap := by
  induction fuel generalizing looked st r with
  | zero => exact .inl ⟨_, rfl⟩
  | succ fuel ih =>
    unfold visits
    split
    · rename_i hfrontier
      exact ⟨looked, h, .inl hfrontier⟩
    · rename_i node rest hfrontier
      have hnext : st.frontier = [] ++ node :: rest := hfrontier
      simp only [isStopped, ends_bind, ends_get, ends_pure, ends_ite]
      refine ⟨fun hstopped => ⟨looked, h, .inr ?_⟩, fun _ => ⟨fun hprunes => ?_, fun hkeeps => ?_⟩⟩
      · rcases Bool.or_eq_true_iff.1 hstopped with hterminated | hlimit
        · exact .inl hterminated
        · obtain ⟨n, hn, hle⟩ := (Option.any_eq_true _ _).1 hlimit
          exact .inr ⟨n, hn, by simpa using hle⟩
      · exact ih (h.skip hnext hprunes)
      · refine ends_visit_mishap.eq.mono (fun st' r' hlook => ?_) fun _ _ => id
        exact ih (h.look hnext (by simpa using hkeeps) hlook.2)

/-- A complete assignment that is looked at becomes the best one if it beats the best one so far; other nodes leave
the best one alone. -/
theorem gives_visit : Gives (fun st' => st'.best = if entities.length ≤ node.path.length then
    if st.best.all (fun a => node.score.beats a.score) then some node else st.best else st.best)
    (x.visit entities node st) := by
  cases he : entities[node.path.length]? with
  | none =>
    rw [visit_leaf he, if_pos (List.getElem?_eq_none_iff.1 he)]
    refine .bind fun _ r => ?_
    simp only [visitLeaf, ends_bind, ends_ite, ends_discard, ends_pure]
    refine ⟨fun hbetter => ?_, fun hworse => ?_⟩
    · rw [if_pos hbetter]
      refine (ends_trivial _ _).mono (fun _ _ _ => ?_) fun _ _ => id
      exact (ends_trivial _ _).mono (fun _ _ _ => by rw [if_pos hbetter]) fun _ _ => id
    · rw [if_neg hworse]
      exact (ends_trivial _ _).mono (fun _ _ _ => by rw [if_neg hworse]) fun _ _ => id
  | some e =>
    rw [visit_inner he, if_neg (Nat.not_le_of_lt (List.getElem?_eq_some_iff.1 he).1)]
    exact .bind fun _ => .bind fun _ => .bind fun _ => .bind fun _ => .bind fun _ => .bind fun _ r => rfl

end Walk

section

variable {x : ExhaustiveSearch S (V b) k} {c : Content V W} {f : T} {entities : List Nat}
variable {st st' : TreeState (V b) k} {r r' : RunState S k} {node : SearchNode (V b) k}
variable {looked : List (SearchNode (V b) k)}
omit [∀ b, PlanningValue (V b)] [∀ b, DecidableEq (V b)] [∀ l, PlanningValue (W l)] [∀ l, DecidableEq (W l)]
  [DecidableEq L] [PlanningSolution S k] in
/-- A search knows its open nodes without one of them. -/
theorem Explores.without {before after : List (SearchNode (V b) k)} (h : Explores g facts D F c f b entities st r)
    (hfrontier : st.frontier = before ++ node :: after) :
    Explores g facts D F c f b entities { st with frontier := before ++ after } r := by
  refine ⟨h.stands, h.length, fun a ha => h.known a ?_⟩
  rw [hfrontier]
  exact (List.sublist_cons_self node after).append_left before |>.mem ha

variable (hreg : g.Regular facts shadows) (hD : Settles g facts shadows D F) (hx : x.planned = g.basic b)
variable (hopen : c.Vacant b entities)
include hreg hD hx hopen

/-- Where the search has got to a node the working solution has the values of the node, and the score of the node is
its score. -/
theorem ends_goTo (h : Explores g facts D F c f b entities st r) (hnode : Known g facts D F c f b entities node) :
    Ends (x.goTo entities st node) r (fun _ r' => Stands g facts D c f b entities node.path r' ∧
      F r'.director.solution = node.score) fun _ _ => True := by
  simp only [goTo, ends_bind]
  refine (ends_stepStarted_right hD.toPreserves h.stands.abides).mono (fun _ r₁ hr₁ => ?_) fun _ _ _ => trivial
  obtain ⟨habides₁, -, hsame₁⟩ := hr₁
  have hstands₁ : Stands g facts D c f b entities st.current r₁ :=
    ⟨habides₁, by rw [hsame₁, h.stands.content], by rw [hsame₁, h.stands.facts]⟩
  refine (ends_moveTo hreg hD hx hopen hstands₁ h.length hnode.length).mono
    (fun _ r₂ (hr₂ : _ ∧ r₁.Rests (fun _ => true) r₂) => ?_) fun _ _ _ => trivial
  exact ⟨hr₂.1, hnode.score _ hr₂.1.abides.director hr₂.1.content hr₂.1.facts⟩

/-- Wherever a walk gets to, the working solution has the current values and the open nodes are known; the best complete
assignment is the first of the best that were looked at. -/
theorem Walk.explores [LawfulSolution S k] (h : x.Walk entities st r looked st' r')
    (hstart : Explores g facts D F c f b entities st r) (hnone : st.best = none) :
    Explores g facts D F c f b entities st' r' ∧ FirstBest SearchNode.score (leaves entities looked) st'.best ∧
      ∀ leaf ∈ st'.best, Known g facts D F c f b entities leaf := by
  induction h with
  | start => exact ⟨hstart, by rw [hnone]; rfl, fun _ hleaf => by rw [hnone] at hleaf; cases hleaf⟩
  | skip _ hfrontier _ ih =>
    obtain ⟨hexplores, hbest, hknown⟩ := ih
    exact ⟨hexplores.without hfrontier, hbest, hknown⟩
  | @look looked st' r' before node after st'' r'' _ hfrontier _ hlook ih =>
    obtain ⟨hexplores, hbest, hknown⟩ := ih
    have hnode := hexplores.known node (by rw [hfrontier]; simp)
    have hvisit := (ends_visit hreg hD hx hopen (hexplores.without hfrontier) hnode).of_ok hlook
    refine ⟨hvisit.1, ?_⟩
    have hgiven := (gives_visit _).of_ok hlook
    dsimp only at hgiven
    rw [hgiven, leaves, List.filter_append, List.filter_singleton]
    split
    · rename_i hleaf
      rw [decide_eq_true hleaf]
      refine ⟨hbest.concat node, fun leaf hmem => ?_⟩
      split at hmem
      · cases hmem
        exact hnode
      · exact hknown leaf hmem
    · rename_i hleaf
      rw [decide_eq_false hleaf]
      simp only [cond_false, List.append_nil]
      exact ⟨hbest, hknown⟩

/-- In the end the working solution goes to the best complete assignment, or back to where it was. -/
theorem ends_close (h : Explores g facts D F c f b entities st r)
    (hbest : ∀ leaf ∈ st.best, Known g facts D F c f b entities leaf) (fields : Unit → List (String × LogValue)) :
    Ends (do
        x.moveTo entities st.current ((st.best.map SearchNode.path).getD [])
        discard Running.calculate
        Running.report .debug "exhaustive_search_done" fields) r
      (fun _ r' => Stands g facts D c f b entities ((st.best.map SearchNode.path).getD []) r')
      fun e _ => e.IsMishap := by
  have hlength : ((st.best.map SearchNode.path).getD []).length ≤ entities.length := by
    cases hsome : st.best with
    | none => exact Nat.zero_le _
    | some leaf => exact (hbest leaf hsome).length
  simp only [ends_bind, ends_discard]
  refine ((ends_moveTo hreg hD hx hopen h.stands h.length hlength).and (unfailing_moveTo entities _ _ r)).mono
    (fun _ r₁ (hr₁ : (_ ∧ r.Rests (fun _ => true) r₁) ∧ _) => ?_) fun _ _ he => .inl he.2
  refine ((ends_calculate_stands hreg hD hr₁.1.1).and (Unfailing.calculate r₁)).mono
    (fun _ r₂ (hr₂ : (_ ∧ r₁.Rests (fun _ => true) r₂ ∧ _) ∧ _) => ?_) fun _ _ he => .inl he.2
  obtain ⟨⟨hstands, -⟩, -⟩ := hr₂
  refine .report fun r₃ hr₃ => ⟨hstands.abides.noted hD.journal hr₃, ?_, ?_⟩
  · rw [hr₃.solution, hstands.content]
  · rw [hr₃.solution, hstands.facts]

end

end ExhaustiveSearch

/-- An exhaustive search keeps its nodes and the working solution in step. Whichever open nodes come next, where the
search has got to one of them the working solution is the one in the beginning with the values of the node given to the
entities, and its score is that of the node. A search that ends has walked through nodes until it was over; then the
working solution is the one in the beginning with the values of the first of the best complete assignments that were
looked at, and if none was looked at it is the one in the beginning. Only a mishap stops it before. -/
theorem ExhaustiveSearch.walk_in_step [LawfulSolution S k] {x : ExhaustiveSearch S (V b) k} (hx : x.planned = g.basic b)
    (hreg : g.Regular facts shadows) (hD : Settles g facts shadows D F) (hexact : g.Determines facts D)
    {r : RunState S k} (h : r.Abides D) {entities : List Nat}
    (hentities : (g.basic b).unassigned r.director.solution = entities) :
    (∀ score r₁ looked st r₂, Running.calculate r = .ok score r₁ →
        x.Walk entities { frontier := [⟨[], score, 0⟩] } r₁ looked st r₂ →
        g.content r₂.director.solution = (g.content r.director.solution).fill b entities st.current ∧
        facts r₂.director.solution = facts r.director.solution ∧
        ∀ node ∈ st.frontier, ∀ r₃, x.goTo entities st node r₂ = .ok () r₃ →
          g.content r₃.director.solution = (g.content r.director.solution).fill b entities node.path ∧
          facts r₃.director.solution = facts r.director.solution ∧ F r₃.director.solution = node.score) ∧
      Ends x.run r (fun _ r' =>
        (entities = [] ∨ x.entityLimit < entities.length) ∧ r'.director.solution = r.director.solution ∨
        ∃ score r₁ looked st r₂, Running.calculate r = .ok score r₁ ∧
          x.Walk entities { frontier := [⟨[], score, 0⟩] } r₁ looked st r₂ ∧ x.Halts st r₂ ∧
          FirstBest SearchNode.score (leaves entities looked) st.best ∧
          (∀ leaf ∈ st.best, F r'.director.solution = leaf.score ∧
            g.content r'.director.solution = (g.content r.director.solution).fill b entities leaf.path ∧
            facts r'.director.solution = facts r.director.solution) ∧
          (st.best = none → ∀ score : Score k, PlanningSolution.withScore r'.director.solution score =
            PlanningSolution.withScore r.director.solution score)) fun e _ => e.IsMishap := by
  subst hentities
  have hopen := vacant_unassigned (g := g) b r.director.solution
  have hstart : Stands g facts D (g.content r.director.solution) (facts r.director.solution) b
      ((g.basic b).unassigned r.director.solution) [] r := ⟨h, (Content.fill_nil hopen.none).symm, rfl⟩
  have hroot : ∀ score r₁, Running.calculate r = .ok score r₁ →
      Explores g facts D F (g.content r.director.solution) (facts r.director.solution) b
        ((g.basic b).unassigned r.director.solution) { frontier := [⟨[], score, 0⟩] } r₁ := by
    intro score r₁ hcalculate
    obtain ⟨hstands, (_ : r.Rests (fun _ => true) r₁), hscore⟩ :=
      (ends_calculate_stands hreg hD hstart).of_ok hcalculate
    exact ⟨hstands, Nat.zero_le _, List.forall_mem_singleton.2 ⟨Nat.zero_le _, hscore⟩⟩
  refine ⟨fun score r₁ looked st r₂ hcalculate hwalk => ?_, ?_⟩
  · obtain ⟨hexplores, -, -⟩ := hwalk.explores hreg hD hx hopen (hroot score r₁ hcalculate) rfl
    refine ⟨hexplores.stands.content, hexplores.stands.facts, fun node hnode r₃ hgo => ?_⟩
    obtain ⟨hstands, hscore⟩ := (ends_goTo hreg hD hx hopen hexplores (hexplores.known node hnode)).of_ok hgo
    exact ⟨hstands.content, hstands.facts, hscore⟩
  · simp only [run, ends_bind, ends_get, ends_ite, ends_pure]
    rw [hx]
    refine ⟨fun hempty => .inl ⟨.inl (List.isEmpty_iff.1 hempty), trivial⟩, fun _ => ⟨fun hmany => ?_, fun _ => ?_⟩⟩
    · exact .report fun r₁ hr₁ => .inl ⟨.inr hmany, hr₁.solution⟩
    · unfold search
      rw [ends_bind]
      refine (Unfailing.calculate r).eq.mono (fun score r₁ hscore => ?_) fun _ _ => .inl
      obtain ⟨-, hcalculate⟩ := hscore
      rw [ends_bind]
      refine (ends_visits_walk .start _).mono (fun st r₂ hvisited => ?_) fun _ _ => id
      obtain ⟨looked, hwalk, hhalts⟩ := hvisited
      obtain ⟨hexplores, hbest, hknown⟩ := hwalk.explores hreg hD hx hopen (hroot score r₁ hcalculate) rfl
      refine (ends_close hreg hD hx hopen hexplores hknown _).mono (fun _ r₃ hr₃ => .inr ?_) fun _ _ => id
      refine ⟨score, r₁, looked, st, r₂, hcalculate, hwalk, hhalts, hbest, fun leaf hleaf => ?_, fun hnone => ?_⟩
      · rw [Option.mem_def.1 hleaf] at hr₃
        exact ⟨(hknown leaf hleaf).score _ hr₃.abides.director hr₃.content hr₃.facts, hr₃.content, hr₃.facts⟩
      · rw [hnone] at hr₃
        exact hexact hr₃.abides.director h.director ⟨hr₃.content.trans (Content.fill_nil hopen.none), hr₃.facts⟩

namespace Timetable

/-- The rooms of lessons and the facts make up a timetable. -/
theorem determines_givenRooms {D : Director Timetable .hardSoft → Prop} : givenRooms.Determines bare D :=
  fun _ _ h _ => (eq_of_alike h).symm ▸ rfl

/-- The search that keeps two lessons apart walks through its nodes and leaves the first of the best assignments. -/
theorem walk_in_step_separating : givenRooms.Determines bare (Director.Full keepApart []) ∧
    ∃ r', roomSearch.run separating = .ok () r' ∧ ∃ score r₁ looked st r₂,
      Running.calculate separating = .ok score r₁ ∧
      roomSearch.Walk [0, 1] { frontier := [⟨[], score, 0⟩] } r₁ looked st r₂ ∧
      FirstBest SearchNode.score (ExhaustiveSearch.leaves [0, 1] looked) st.best ∧
      ∀ leaf ∈ st.best, givenRooms.content r'.director.solution =
        (givenRooms.content unplaced).fill () [0, 1] leaf.path := by
  have hopen : (givenRooms.basic ()).unassigned separating.director.solution = [0, 1] := rfl
  have hall : roomSearch.Exhausts [0, 1] separating :=
    ExhaustiveSearch.exhausts_of_unstopped rfl rfl unstopped_separating
  obtain ⟨⟨⟩, r', hrun, -⟩ := (ExhaustiveSearch.ends_run_exact (x := roomSearch) reliable_keepApart regular_givenRooms
    settles_keepApart rfl describes_separated abides_separating (fun _ => falls_separated) (by decide) hall (by decide)
    (by decide)).exists_ok
  obtain ⟨-, hends⟩ := ExhaustiveSearch.walk_in_step (x := roomSearch) rfl regular_givenRooms settles_keepApart
    determines_givenRooms abides_separating hopen
  refine ⟨determines_givenRooms, r', hrun, ?_⟩
  rcases hends.of_ok hrun with ⟨hskipped, -⟩ | ⟨score, r₁, looked, st, r₂, hcalculate, hwalk, -, hbest, hleaf, -⟩
  · exact absurd hskipped (by decide)
  · exact ⟨score, r₁, looked, st, r₂, hcalculate, hwalk, hbest, fun leaf hmem => (hleaf leaf hmem).2.1⟩

end Timetable

end Planning
