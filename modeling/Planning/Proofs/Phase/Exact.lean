import Planning.Proofs.Phase.Exhaustive
import Planning.Proofs.Phase.SearchTree

/-!
# Exhaustive searches find the best assignment

A search that goes through all nodes leaves the best complete assignment in the working solution. What is kept of the
best assignment so far and of what is still below open nodes agrees with what is kept of all complete assignments: each
node that is looked at or left out keeps it so. If scores only fall along paths, branch and bound leaves out nothing but
assignments that the best one so far reaches.
-/

namespace Planning

open Checked RunState Running

variable {S T : Type} {k : ScoreKind} [PlanningSolution S k] {D : Director S k → Prop} {F : S → Score k}
variable {B L : Type} {V : B → Type} {W : L → Type} [DecidableEq B] [DecidableEq L]
variable [∀ b, PlanningValue (V b)] [∀ b, DecidableEq (V b)] [∀ l, PlanningValue (W l)] [∀ l, DecidableEq (W l)]
variable {g : Genuine S V W} {facts : S → T} {shadows : ShadowCascade S} {b : B}

namespace RunState

/-- No move and no step was counted. -/
structure SameCounts (r r' : RunState S k) : Prop where
  /-- No move was counted. -/
  moves : r'.moves = r.moves
  /-- No step was counted. -/
  steps : r'.steps = r.steps

variable {r r' r'' : RunState S k}

omit [PlanningSolution S k] in
theorem SameCounts.trans (h : r.SameCounts r') (h' : r'.SameCounts r'') : r.SameCounts r'' :=
  ⟨h'.moves.trans h.moves, h'.steps.trans h.steps⟩

omit [PlanningSolution S k] in
/-- What is noted counts nothing. -/
theorem Noted.sameCounts (h : r.Noted r') : r.SameCounts r' := by
  rw [h.eq]
  exact ⟨rfl, rfl⟩

end RunState

/-- Directors of a kind give values to entities that exist, calculate scores and check them without fault, and find no
score wrong. -/
structure Genuine.Reliable (g : Genuine S V W) (b : B) (D : Director S k → Prop) : Prop where
  /-- An entity is given a value, or none. -/
  assign : ∀ {dir e} v, D dir → e < (g.basic b).count dir.solution → ∃ dir', dir.assign (g.basic b) e v = .ok dir'
  /-- The score is asked for. -/
  calculate : ∀ {dir}, D dir → ∃ dir' score, dir.calculate = .ok (dir', score)
  /-- The score is checked. -/
  assertScore : ∀ {dir}, D dir → ∃ dir' score, dir.assertScore = .ok (dir', .ok score)

/-- A tree says what is in range and what the scores are where the working solution has the values of a path. -/
structure SearchTree.Describes (t : SearchTree (V b) k) (g : Genuine S V W) (facts : S → T) (D : Director S k → Prop)
    (F : S → Score k) (c : Content V W) (f : T) (entities : List Nat) : Prop where
  /-- The tree is as deep as there are entities. -/
  depth : t.depth = entities.length
  /-- The values are those in the range of the next entity. -/
  values : ∀ {dir path e}, D dir → g.content dir.solution = c.fill b entities path → facts dir.solution = f →
    entities[path.length]? = some e → (g.basic b).range.values dir.solution e = .ok (t.values path)
  /-- The scores are those of the director. -/
  score : ∀ {dir path}, D dir → g.content dir.solution = c.fill b entities path → facts dir.solution = f →
    F dir.solution = t.score path

namespace Running

variable {r : RunState S k}

/-- Asking for the score counts nothing. -/
theorem ends_calculate_counts :
    Ends calculate r (fun _ r' => r.SameCounts r')
      fun _ _ => ¬ ∃ dir score, r.director.calculate = .ok (dir, score) := by
  rw [ends_calculate]
  refine ⟨fun _ _ _ => ⟨rfl, rfl⟩, fun f hf => ?_⟩
  rintro ⟨dir, score, hok⟩
  rw [hok] at hf
  cases hf

/-- Checking the score counts nothing. -/
theorem ends_assertStep_counts :
    Ends assertStep r (fun _ r' => r.SameCounts r')
      fun _ _ => ¬ ∃ dir score, r.director.assertScore = .ok (dir, .ok score) := by
  simp only [ends_assertStep, ends_assertScore]
  refine ⟨fun _ => ⟨fun _ _ _ => ⟨rfl, rfl⟩, fun dir' c hc => ?_, fun f hf => ?_⟩, fun _ => ⟨rfl, rfl⟩⟩
  · rintro ⟨dir, score, hok⟩
    rw [hok] at hc
    cases hc
  · rintro ⟨dir, score, hok⟩
    rw [hok] at hf
    cases hf

/-- A step that ends is counted, unless there are too many. -/
theorem ends_stepEnded_counts (score : Score k) :
    Ends (stepEnded score) r (fun _ r' => r'.moves = r.moves ∧ r'.steps = r.steps + 1)
      fun e _ => e = .faulted .overflow ∧ maxCount < r.steps + 1 := by
  simp only [stepEnded, ends_bind, ends_get]
  refine .tell fun r₁ hr₁ => ?_
  have hcounts := hr₁.sameCounts
  rw [ends_checked, hcounts.steps]
  refine ⟨fun n hn => ?_, fun f hf => ?_⟩
  · obtain ⟨-, rfl⟩ := ite_eq_ok_iff.1 hn
    simp only [ends_modify]
    exact .report fun r₂ hr₂ => ⟨hr₂.sameCounts.moves.trans hcounts.moves, hr₂.sameCounts.steps⟩
  · obtain ⟨hlt, rfl⟩ := counted_eq_error_iff.1 hf
    exact ⟨rfl, hlt⟩

end Running

namespace ExhaustiveSearch

variable {x : ExhaustiveSearch S (V b) k} {c : Content V W} {f : T} {entities : List Nat} {path : List (V b)}
variable {r : RunState S k} {e : Nat} {v : V b} {t : SearchTree (V b) k}

/-- The search goes through its nodes until none is open: nothing stops it before. -/
def Exhausts {U : Type} [DecidableEq U] (x : ExhaustiveSearch S U k) (entities : List Nat) (r : RunState S k) : Prop :=
  ∀ score r₁ st r₂, Running.calculate r = .ok score r₁ →
    x.visits entities (maxCount + 2) { frontier := [⟨[], score, 0⟩] } r₁ = .ok st r₂ → st.frontier = []

section Sure

variable (hsafe : g.Reliable b D)
include hsafe

omit [DecidableEq B] [DecidableEq L] [∀ b, PlanningValue (V b)] [∀ b, DecidableEq (V b)] [∀ l, PlanningValue (W l)]
  [∀ l, DecidableEq (W l)] in
/-- A score that is asked for is there. -/
theorem ends_calculate_sure (h : r.Abides D) :
    Ends calculate r (fun _ r' => r.SameCounts r') fun _ _ => False :=
  ends_calculate_counts.mono (fun _ _ => id) fun _ _ hnone => hnone (hsafe.calculate h.director)

omit [DecidableEq B] [DecidableEq L] [∀ b, PlanningValue (V b)] [∀ b, DecidableEq (V b)] [∀ l, PlanningValue (W l)]
  [∀ l, DecidableEq (W l)] in
/-- A score that is checked is found right. -/
theorem ends_assertStep_sure (h : r.Abides D) :
    Ends assertStep r (fun _ r' => r.SameCounts r') fun _ _ => False :=
  ends_assertStep_counts.mono (fun _ _ => id) fun _ _ hnone => hnone (hsafe.assertScore h.director)

variable (hreg : g.Regular facts shadows) (hD : Settles g facts shadows D F) (hx : x.planned = g.basic b)
include hreg hD hx

/-- An entity that exists is given a value, or none. -/
theorem ends_assign_sure {v : Option (V b)} (he : e < (g.basic b).count r.director.solution) (h : r.Abides D) :
    Ends (x.assign e v) r
      (fun _ r' => r'.Abides D ∧ (g.basic b).count r'.director.solution = (g.basic b).count r.director.solution ∧
        r.SameCounts r')
      fun _ _ => False := by
  have hsure : Ends (x.assign e v) r (fun _ r' => r.SameCounts r') fun _ _ => False := by
    obtain ⟨dir, hdir⟩ := hsafe.assign v h.director he
    rw [assign_eq hx]
    simp only [Running.edit, ends_direct]
    refine ⟨fun _ _ _ => ⟨rfl, rfl⟩, fun f hf => ?_⟩
    rw [hdir] at hf
    cases hf
  refine ((ends_assign hreg hD hx he h).sure hsure).mono
    (fun _ r' (hr' : ((_ ∧ r.Rests (fun _ => true) r') ∧ _) ∧ _) => ?_) fun _ _ => id
  obtain ⟨⟨⟨habides, -⟩, hcontent, -⟩, hcounts⟩ := hr'
  exact ⟨habides, congrArg (fun c => c.valueCount b) hcontent, hcounts⟩

/-- The working solution gets from a path to another. -/
theorem ends_moveTo_sure (hlt : ∀ e ∈ entities, e < (g.basic b).count r.director.solution) (h : r.Abides D)
    (p q : List (V b)) : Ends (x.moveTo entities p q) r (fun _ r' => r.SameCounts r') fun _ _ => False := by
  let I (r' : RunState S k) : Prop := r'.Abides D ∧
    (g.basic b).count r'.director.solution = (g.basic b).count r.director.solution ∧ r.SameCounts r'
  have hone : ∀ e ∈ entities, ∀ (v : Option (V b)) r', I r' → Ends (x.assign e v) r' (fun _ => I) fun _ _ => False := by
    intro e he v r' hr'
    obtain ⟨habides, hcount, hcounts⟩ := hr'
    refine (ends_assign_sure hsafe hreg hD hx (hcount ▸ hlt e he) habides).mono (fun _ r'' hr'' => ?_) fun _ _ => id
    exact ⟨hr''.1, hr''.2.1.trans hcount, hcounts.trans hr''.2.2⟩
  simp only [moveTo, ends_bind]
  refine (Ends.forM (fun e he => hone e ?_ none) ⟨h, rfl, rfl, rfl⟩).mono (fun _ r₁ hr₁ => ?_) fun _ _ => id
  · exact List.mem_of_mem_take (List.mem_of_mem_drop (List.mem_reverse.1 he))
  · refine (Ends.forM (fun a ha => hone a.1 ?_ (some a.2)) hr₁).mono (fun _ _ hr₂ => hr₂.2.2) fun _ _ => id
    exact (List.of_mem_zip (List.mem_of_mem_drop ha)).1

end Sure

/-- A search is on its way to the best assignment. -/
structure Nears (t : SearchTree (V b) k) (g : Genuine S V W) (facts : S → T) (D : Director S k → Prop)
    (c : Content V W) (f : T) (entities : List Nat) (o : Exploration) (st : TreeState (V b) k) (r : RunState S k) :
    Prop where
  /-- The working solution has the current values. -/
  stands : Stands g facts D c f b entities st.current r
  /-- There is an entity for each current value. -/
  length : st.current.length ≤ t.depth
  /-- The open nodes are in the tree. -/
  known : ∀ a ∈ st.frontier, t.Has a
  /-- The best assignment so far is complete. -/
  best : ∀ a ∈ st.best, t.Has a ∧ a.path ∈ t.assignments
  /-- What was found and what is still to be looked at gives the best assignment. -/
  agrees : t.Agrees o (t.keep (st.best.map SearchNode.path) (t.belowAll st.frontier)) (t.keep none t.assignments)
  /-- All moves to come can be counted. -/
  moves : r.moves + t.sizeAll st.frontier ≤ maxCount
  /-- All steps to come can be counted. -/
  steps : r.steps + (t.sizeAll st.frontier + st.frontier.length) ≤ maxCount
  /-- All nodes to come can be counted. -/
  sequence : st.sequence + t.sizeAll st.frontier ≤ maxCount

omit [PlanningSolution S k] [DecidableEq B] [∀ b, PlanningValue (V b)] [∀ b, DecidableEq (V b)] in
/-- A score is left out by branch and bound if the best assignment so far reaches it. -/
theorem covers_of_prunes {best : Option (SearchNode (V b) k)} (hbest : ∀ a ∈ best, t.Has a ∧ a.path ∈ t.assignments)
    {score : Score k} (h : x.prunes best score = true) :
    x.kind = .branchAndBound ∧ t.Covers (best.map SearchNode.path) score := by
  obtain ⟨hkind, hany⟩ := Bool.and_eq_true_iff.1 h
  cases best with
  | none => cases hany
  | some a =>
    refine ⟨by simpa using hkind, a.path, rfl, ?_⟩
    rw [← (hbest a rfl).1.score]
    exact hany

section Search

variable (hsafe : g.Reliable b D) (hreg : g.Regular facts shadows) (hD : Settles g facts shadows D F)
variable (hx : x.planned = g.basic b) (hopen : c.Vacant b entities) (ht : t.Describes g facts D F c f entities)
include hsafe hreg hD ht

omit hsafe in
/-- The score that is asked for where the working solution has the values of a path is that of the path. -/
theorem ends_calculate_rated (h : Stands g facts D c f b entities path r) :
    Ends calculate r (fun score r' => Stands g facts D c f b entities path r' ∧ score = t.score path)
      fun _ _ => True := by
  refine (ends_calculate_stands hreg hD h).mono (fun score r' (hr' : _ ∧ r.Rests (fun _ => true) r' ∧ _) => ?_)
    fun _ _ _ => trivial
  obtain ⟨hstands, -, hscore⟩ := hr'
  refine ⟨hstands, ?_⟩
  rw [← hscore r'.director hstands.abides.director hstands.content hstands.facts]
  exact ht.score hstands.abides.director hstands.content hstands.facts

include hx hopen

omit ht in
/-- The working solution gets from a path to another. -/
theorem ends_moveTo_stands {target : List (V b)} (h : Stands g facts D c f b entities path r)
    (hlength : path.length ≤ entities.length) (htarget : target.length ≤ entities.length) :
    Ends (x.moveTo entities path target) r
      (fun _ r' => Stands g facts D c f b entities target r' ∧ r.SameCounts r') fun _ _ => False := by
  have hlt : ∀ e ∈ entities, e < (g.basic b).count r.director.solution := by
    intro e he
    obtain ⟨i, hi⟩ := List.getElem?_of_mem he
    exact h.lt hopen hi
  have hsure := ends_moveTo_sure hsafe hreg hD hx hlt h.abides path target
  exact ((ends_moveTo hreg hD hx hopen h hlength htarget).sure hsure).mono
    (fun _ r' (hr' : (_ ∧ r.Rests (fun _ => true) r') ∧ _) => ⟨hr'.1.1, hr'.2⟩) fun _ _ => id

/-- The score with a value of the next entity is that of the longer path. -/
theorem ends_scoreWith_rated (h : Stands g facts D c f b entities path r) (he : entities[path.length]? = some e)
    (v : V b) (hmoves : r.moves + 1 ≤ maxCount) :
    Ends (x.scoreWith e v) r (fun score r' => Stands g facts D c f b entities path r' ∧
      score = t.score (path ++ [v]) ∧ r'.moves = r.moves + 1 ∧ r'.steps = r.steps) fun _ _ => False := by
  simp only [scoreWith, ends_bind, ends_pure]
  have hsome := ends_assign_sure (v := some v) hsafe hreg hD hx (h.lt hopen he) h.abides
  refine ((ends_assign_some hreg hD hx hopen h he v).sure hsome).mono
    (fun _ r₁ (hr₁ : (_ ∧ r.Rests (fun _ => true) r₁) ∧ _) => ?_) fun _ _ => id
  obtain ⟨⟨hstands₁, -⟩, -, -, hcounts₁⟩ := hr₁
  have hscore := (ends_calculate_rated hreg hD ht hstands₁).sure (ends_calculate_sure hsafe hstands₁.abides)
  refine hscore.mono (fun score r₂ hr₂ => ?_) fun _ _ => id
  obtain ⟨⟨hstands₂, hrated⟩, hcounts₂⟩ := hr₂
  have hnone := ends_assign_sure (v := none) hsafe hreg hD hx (hstands₂.lt hopen he) hstands₂.abides
  refine ((ends_assign_none hreg hD hx hopen hstands₂ he).sure hnone).mono
    (fun _ r₃ (hr₃ : (_ ∧ r₂.Rests (fun _ => true) r₃) ∧ _) => ?_) fun _ _ => id
  obtain ⟨⟨hstands₃, -⟩, -, -, hcounts₃⟩ := hr₃
  have hcounts := (hcounts₁.trans hcounts₂).trans hcounts₃
  rw [ends_recordMove, hcounts.moves, counted_of_le hmoves]
  refine ⟨fun n hn => ?_, fun f hf => by cases hf⟩
  cases hn
  have habides := hstands₃.abides
  exact ⟨⟨⟨habides.director, habides.pending, habides.asked⟩, hstands₃.content, hstands₃.facts⟩, hrated, rfl, hcounts.steps⟩

/-- The children of a node are the longer paths that are not left out, in the order of their values. -/
theorem ends_children_rated {node : SearchNode (V b) k} {best : Option (SearchNode (V b) k)} {sequence : Nat}
    {vs : List (V b)} (h : Stands g facts D c f b entities node.path r) (he : entities[node.path.length]? = some e)
    (hmoves : r.moves + vs.length ≤ maxCount) (hsequence : sequence + vs.length ≤ maxCount) :
    Ends (x.children e node best sequence vs) r
      (fun out r' => Stands g facts D c f b entities node.path r' ∧
        out.1.map SearchNode.path =
          (vs.filter fun v => !x.prunes best (t.score (node.path ++ [v]))).map (fun v => node.path ++ [v]) ∧
        (∀ a ∈ out.1, a.score = t.score a.path) ∧ out.2 = sequence + out.1.length ∧
        r'.moves = r.moves + vs.length ∧ r'.steps = r.steps)
      fun _ _ => False := by
  induction vs generalizing sequence r with
  | nil => exact ⟨h, rfl, fun _ ha => absurd ha List.not_mem_nil, rfl, rfl, rfl⟩
  | cons v vs ih =>
    rw [List.length_cons] at hmoves hsequence
    simp only [children, ends_bind, ends_ite, ends_pure]
    refine (ends_scoreWith_rated hsafe hreg hD hx hopen ht h he v (by omega)).mono (fun score r₁ hr₁ => ?_) fun _ _ => id
    obtain ⟨hstands₁, hscore, hmoves₁, hsteps₁⟩ := hr₁
    refine ⟨fun hprunes => ?_, fun hkeeps => ?_⟩
    · refine (ih hstands₁ (by omega) (by omega)).mono (fun out r₂ hr₂ => ?_) fun _ _ => id
      obtain ⟨hstands, hpaths, hrated, hcount, hmoves₂, hsteps₂⟩ := hr₂
      rw [List.filter_cons_of_neg (by simp [← hscore, hprunes])]
      exact ⟨hstands, hpaths, hrated, hcount, by rw [hmoves₂, hmoves₁, List.length_cons]; omega, hsteps₂.trans hsteps₁⟩
    · rw [ends_checked, counted_of_le (by omega)]
      refine ⟨fun n hn => ?_, fun f hf => by cases hf⟩
      cases hn
      refine (ih hstands₁ (by omega) (by omega)).mono (fun out r₂ hr₂ => ?_) fun _ _ => id
      obtain ⟨hstands, hpaths, hrated, hcount, hmoves₂, hsteps₂⟩ := hr₂
      rw [List.filter_cons_of_pos (by simp [← hscore, hkeeps])]
      refine ⟨hstands, ?_, List.forall_mem_cons.2 ⟨hscore, hrated⟩, ?_, ?_, hsteps₂.trans hsteps₁⟩
      · rw [List.map_cons, List.map_cons, hpaths]
      · rw [hcount, List.length_cons]
        omega
      · rw [hmoves₂, hmoves₁, List.length_cons]
        omega

variable {o : Exploration} {st : TreeState (V b) k} {node : SearchNode (V b) k}

omit hsafe hreg hD hx hopen ht [PlanningSolution S k] [DecidableEq L] [∀ b, PlanningValue (V b)]
  [∀ b, DecidableEq (V b)] [∀ l, PlanningValue (W l)] [∀ l, DecidableEq (W l)] in
/-- The working solution went to another path. -/
theorem Nears.moved (h : Nears t g facts D c f entities o st r) {r' : RunState S k}
    (hstands : Stands g facts D c f b entities path r') (hlength : path.length ≤ t.depth) (hcounts : r.SameCounts r')
    (n : Nat) : Nears t g facts D c f entities o { st with current := path, nodes := n } r' :=
  ⟨hstands, hlength, h.known, h.best, h.agrees, by rw [hcounts.moves]; exact h.moves,
    by rw [hcounts.steps]; exact h.steps, h.sequence⟩

omit hsafe hreg hx hopen ht [DecidableEq L] in
/-- A step ends and is counted; the working solution stays where it is. -/
theorem ends_stepEnded_stands (h : Stands g facts D c f b entities path r) (hsteps : r.steps + 1 ≤ maxCount)
    (score : Score k) :
    Ends (stepEnded score) r (fun _ r' => Stands g facts D c f b entities path r' ∧ r'.moves = r.moves ∧
      r'.steps = r.steps + 1) fun _ _ => False := by
  have hcounted : Ends (stepEnded score) r (fun _ r' => r'.moves = r.moves ∧ r'.steps = r.steps + 1)
      fun _ _ => False :=
    (ends_stepEnded_counts score).mono (fun _ _ => id) fun _ _ he => absurd he.2 (Nat.not_lt_of_le hsteps)
  refine ((ends_stepEnded_right hD.toPreserves h.abides score).sure hcounted).mono (fun _ r' hr' => ?_) fun _ _ => id
  obtain ⟨⟨habides, -, hsame⟩, hcounts⟩ := hr'
  exact ⟨⟨habides, by rw [hsame, h.content], by rw [hsame, h.facts]⟩, hcounts⟩

omit hsafe hreg hx hopen ht [DecidableEq L] in
/-- The working solution may become the best one, and stays where it is. -/
theorem ends_updateBestWith_stands (h : Stands g facts D c f b entities path r) (score : Score k) :
    Ends (updateBestWith score) r (fun _ r' => Stands g facts D c f b entities path r' ∧ r.SameCounts r')
      fun _ _ => False := by
  refine .updateBestWith (fun _ => .setBest fun r₁ r₂ hr₁ hr₂ => ?_) fun _ => ⟨h, rfl, rfl⟩
  have habides₁ := h.abides.noted hD.journal hr₁
  have habides₂ : { r₁ with
      best := some ⟨PlanningSolution.withScore r.director.solution score, score⟩,
      improvement := r₁.mark }.Abides D := ⟨habides₁.director, habides₁.pending, habides₁.asked⟩
  have hsame : r₂.director.solution = r.director.solution := hr₂.solution.trans hr₁.solution
  have hcounts : r.SameCounts r₂ :=
    ⟨hr₂.sameCounts.moves.trans hr₁.sameCounts.moves, hr₂.sameCounts.steps.trans hr₁.sameCounts.steps⟩
  exact ⟨⟨habides₂.noted hD.journal hr₂, by rw [hsame, h.content], by rw [hsame, h.facts]⟩, hcounts⟩

omit hsafe hreg hx hopen ht [DecidableEq L] in
/-- A complete assignment is looked at. -/
theorem ends_visitLeaf_nears (hnode : node.path.length = t.depth)
    (h : Nears t g facts D c f entities o { st with frontier := node :: st.frontier } r) :
    Ends (visitLeaf node st) r
      (fun st' r' => Nears t g facts D c f entities o st' r' ∧ st'.frontier = st.frontier) fun _ _ => False := by
  obtain ⟨hknown, hrest⟩ := List.forall_mem_cons.1 h.known
  obtain ⟨hstands, hlength, -, hbest, hagrees, hmoves, hsteps, hsequence⟩ := h
  simp only [SearchTree.sizeAll_cons, SearchTree.size_of_complete hnode, Nat.zero_add, List.length_cons] at hmoves hsteps hsequence
  -- The step ends where the best assignment so far is the better one of two.
  have hend : ∀ {r₁ : RunState S k} (best : Option (SearchNode (V b) k)), Stands g facts D c f b entities st.current r₁ →
      r.SameCounts r₁ → (∀ a ∈ best, t.Has a ∧ a.path ∈ t.assignments) →
      best.map SearchNode.path = t.pick (st.best.map SearchNode.path) node.path →
      Ends (stepEnded node.score) r₁ (fun _ r' => Nears t g facts D c f entities o { st with best := best } r')
        fun _ _ => False := by
    intro r₁ best hstands₁ hcounts hrated hpick
    rw [← hcounts.steps] at hsteps
    rw [← hcounts.moves] at hmoves
    refine (ends_stepEnded_stands hD hstands₁ (by omega) _).mono (fun _ r₂ hr₂ => ?_) fun _ _ => id
    obtain ⟨hstands₂, hmoves₂, hsteps₂⟩ := hr₂
    refine ⟨hstands₂, hlength, hrest, hrated, ?_, by rw [hmoves₂]; exact hmoves, by rw [hsteps₂]; dsimp only; omega, hsequence⟩
    rw [SearchTree.belowAll_cons, SearchTree.below_of_complete hnode, List.singleton_append, SearchTree.keep_cons] at hagrees
    rw [hpick]
    exact hagrees
  have hscore : (st.best.all fun a => node.score.beats a.score) =
      (st.best.map SearchNode.path).all fun q => (t.score node.path).beats (t.score q) := by
    cases hsome : st.best with
    | none => rfl
    | some a =>
      rw [Option.map_some, Option.all_some, Option.all_some, hknown.score, (hbest a hsome).1.score]
  simp only [visitLeaf, ends_bind, ends_ite, ends_discard, ends_pure]
  refine ⟨fun hbetter => ?_, fun hworse => ?_⟩
  · refine (ends_updateBestWith_stands hD hstands node.score).mono (fun _ r₁ hr₁ => ?_) fun _ _ => id
    have hpick : t.pick (st.best.map SearchNode.path) node.path = some node.path := if_pos (hscore ▸ hbetter)
    refine (hend (some node) hr₁.1 hr₁.2 (fun a ha => ?_) hpick.symm).mono (fun _ r₂ hr₂ => ?_) fun _ _ => id
    · cases ha
      exact ⟨hknown, hknown.mem_assignments hnode⟩
    · rw [if_pos hbetter]
      exact ⟨hr₂, rfl⟩
  · have hpick : t.pick (st.best.map SearchNode.path) node.path = st.best.map SearchNode.path :=
      if_neg (hscore ▸ hworse)
    refine (hend st.best hstands ⟨rfl, rfl⟩ hbest hpick.symm).mono (fun _ r₂ hr₂ => ?_) fun _ _ => id
    rw [if_neg hworse]
    exact ⟨hr₂, rfl⟩

/-- An assignment of the first entities is looked at. -/
theorem ends_visitInner_nears (hfalls : x.kind = .branchAndBound → t.Falls)
    (he : entities[node.path.length]? = some e) (hcurrent : st.current = node.path)
    (h : Nears t g facts D c f entities x.exploration { st with frontier := node :: st.frontier } r) :
    Ends (x.visitInner e node st) r
      (fun st' r' => Nears t g facts D c f entities x.exploration st' r' ∧
        t.sizeAll st'.frontier + st'.frontier.length ≤
          t.size node.path + (t.sizeAll st.frontier + st.frontier.length))
      fun _ _ => False := by
  have hlt : node.path.length < t.depth := by
    rw [ht.depth]
    exact (List.getElem?_eq_some_iff.1 he).1
  obtain ⟨hknown, hrest⟩ := List.forall_mem_cons.1 h.known
  obtain ⟨hstands, hlength, -, hbest, hagrees, hmoves, hsteps, hsequence⟩ := h
  rw [hcurrent] at hstands
  simp only [SearchTree.sizeAll_cons, List.length_cons] at hmoves hsteps hsequence
  have hvalues : (t.values node.path).length ≤ t.size node.path := by
    rw [SearchTree.size_of_lt hlt]
    omega
  simp only [visitInner, ends_bind, ends_get, ends_pure]
  rw [hx, ht.values hstands.abides.director hstands.content hstands.facts he, ends_checked]
  refine ⟨fun vs hvs => ?_, fun f hf => by cases hf⟩
  cases hvs
  refine (ends_children_rated hsafe hreg hD hx hopen ht hstands he (by omega) (by omega)).mono (fun out r₁ hr₁ => ?_)
    fun _ _ => id
  obtain ⟨hstands₁, hpaths, hrated, hcount, hmoves₁, hsteps₁⟩ := hr₁
  have hless := SearchTree.sizeAll_add_length_le hlt hpaths
  have hfew := SearchTree.length_children_le hpaths
  refine (ends_stepEnded_stands hD hstands₁ (by omega) _).mono (fun _ r₂ hr₂ => ?_) fun _ _ => id
  obtain ⟨hstands₂, hmoves₂, hsteps₂⟩ := hr₂
  refine ((ends_assertStep_stands hreg hD hstands₂).sure (ends_assertStep_sure hsafe hstands₂.abides)).mono
    (fun _ r₃ (hr₃ : (_ ∧ r₂.Rests (fun _ => true) r₃) ∧ _) => ?_) fun _ _ => id
  obtain ⟨⟨hstands₃, -⟩, hcounts⟩ := hr₃
  refine ⟨⟨hcurrent ▸ hstands₃, hlength, fun a ha => ?_, hbest, ?_, ?_, ?_, ?_⟩, ?_⟩
  · rcases SearchNode.mem_expand ha with hchild | hold
    · have hmem := List.mem_map_of_mem (f := SearchNode.path) hchild
      rw [hpaths] at hmem
      obtain ⟨v, hv, hpath⟩ := List.mem_map.1 hmem
      exact hknown.child hlt (List.mem_of_mem_filter hv) hpath.symm (hrated a hchild)
    · exact hrest a hold
  · refine SearchTree.agrees_expand.trans (.trans (.of_eq ?_) hagrees)
    -- Children that were left out start assignments that the best one so far reaches.
    rw [SearchTree.belowAll_append, SearchTree.belowAll_cons, SearchTree.keep_append, SearchTree.keep_append,
      SearchTree.belowAll_of_paths hpaths, SearchTree.below_of_lt hlt, SearchTree.keep_flatMap_filter]
    intro v hv hleft q hq
    obtain ⟨hkind, hcovers⟩ := covers_of_prunes hbest (by simpa using hleft)
    refine hcovers.mono ((hfalls hkind).reaches_below ?_ hq)
    rw [List.length_append, List.length_singleton]
    omega
  · dsimp only
    rw [SearchTree.sizeAll_expand, hcounts.moves, hmoves₂, hmoves₁]
    omega
  · dsimp only
    rw [SearchTree.sizeAll_expand, SearchTree.length_expand, hcounts.steps, hsteps₂, hsteps₁]
    omega
  · dsimp only
    rw [SearchTree.sizeAll_expand, hcount]
    omega
  · rw [SearchTree.sizeAll_expand, SearchTree.length_expand]
    omega

/-- A node is looked at. -/
theorem ends_visit_nears (hfalls : x.kind = .branchAndBound → t.Falls)
    (h : Nears t g facts D c f entities x.exploration { st with frontier := node :: st.frontier } r) :
    Ends (x.visit entities node st) r
      (fun st' r' => Nears t g facts D c f entities x.exploration st' r' ∧
        t.sizeAll st'.frontier + st'.frontier.length ≤
          t.size node.path + (t.sizeAll st.frontier + st.frontier.length))
      fun _ _ => False := by
  obtain ⟨hknown, -⟩ := List.forall_mem_cons.1 h.known
  simp only [visit, ends_bind]
  have hstarted : Ends stepStarted r (fun _ r' => r.SameCounts r') fun _ _ => False := by
    simp only [stepStarted, ends_bind, ends_get]
    exact .tell fun r' hr' => hr'.sameCounts
  refine ((ends_stepStarted_right hD.toPreserves h.stands.abides).sure hstarted).mono (fun _ r₁ hr₁ => ?_) fun _ _ => id
  obtain ⟨⟨habides₁, -, hsame₁⟩, hcounts₁⟩ := hr₁
  have hstands₁ : Stands g facts D c f b entities st.current r₁ :=
    ⟨habides₁, by rw [hsame₁, h.stands.content], by rw [hsame₁, h.stands.facts]⟩
  have hlength := h.length
  have hpath := hknown.length
  rw [ht.depth] at hlength hpath
  refine (ends_moveTo_stands hsafe hreg hD hx hopen hstands₁ hlength hpath).mono (fun _ r₂ hr₂ => ?_) fun _ _ => id
  have hnext := h.moved hr₂.1 hknown.length (hcounts₁.trans hr₂.2) (st.nodes + 1)
  split
  · rename_i hnone
    have hcomplete : node.path.length = t.depth := by
      rw [List.getElem?_eq_none_iff] at hnone
      rw [ht.depth]
      omega
    refine (ends_visitLeaf_nears hD hcomplete hnext).mono (fun st' r₃ hr₃ => ⟨hr₃.1, ?_⟩) fun _ _ => id
    rw [hr₃.2]
    dsimp only
    omega
  · rename_i e he
    exact ends_visitInner_nears hsafe hreg hD hx hopen ht hfalls he rfl hnext

/-- Nodes are looked at or left out until none is open or something stops the search. -/
theorem ends_visits_nears (hfalls : x.kind = .branchAndBound → t.Falls) {fuel : Nat}
    (hfuel : t.sizeAll st.frontier + st.frontier.length < fuel)
    (h : Nears t g facts D c f entities x.exploration st r) :
    Ends (x.visits entities fuel st) r (fun st' r' => Nears t g facts D c f entities x.exploration st' r')
      fun _ _ => False := by
  induction fuel generalizing st r with
  | zero => omega
  | succ fuel ih =>
    unfold visits
    split
    · exact h
    · rename_i node rest hfrontier
      have hopened : Nears t g facts D c f entities x.exploration { st with frontier := node :: rest } r := by
        rw [← hfrontier]
        exact h
      obtain ⟨hknown, hrest⟩ := List.forall_mem_cons.1 hopened.known
      rw [hfrontier, SearchTree.sizeAll_cons, List.length_cons] at hfuel
      simp only [isStopped, ends_bind, ends_get, ends_pure, ends_ite]
      refine ⟨fun _ => h, fun _ => ⟨fun hprunes => ?_, fun _ => ?_⟩⟩
      · refine ih (by dsimp only; omega) ?_
        obtain ⟨hkind, hcovers⟩ := covers_of_prunes h.best hprunes
        obtain ⟨hstands, hlength, -, hbest, hagrees, hmoves, hsteps, hsequence⟩ := hopened
        simp only [SearchTree.sizeAll_cons, List.length_cons] at hmoves hsteps hsequence
        refine ⟨hstands, hlength, hrest, hbest, ?_, by dsimp only; omega, by dsimp only; omega, by dsimp only; omega⟩
        -- What is below a node that is left out the best assignment so far reaches.
        rw [hknown.score] at hcovers
        have hsame : t.keep (st.best.map SearchNode.path) (t.below node.path) = st.best.map SearchNode.path :=
          SearchTree.keep_of_covers fun q hq => hcovers.mono ((hfalls hkind).reaches_below hknown.length hq)
        rw [SearchTree.belowAll_cons, SearchTree.keep_append, hsame] at hagrees
        exact hagrees
      · refine (ends_visit_nears hsafe hreg hD hx hopen ht hfalls hopened).mono (fun st' r₁ hr₁ => ?_) fun _ _ => id
        refine ih ?_ hr₁.1
        have hless := hr₁.2
        dsimp only at hless
        omega

end Search

variable (hsafe : g.Reliable b D) (hreg : g.Regular facts shadows) (hD : Settles g facts shadows D F)
variable (hx : x.planned = g.basic b)
include hsafe hreg hD hx

/-- A search that goes through all nodes leaves the best complete assignment in the working solution, if there is one,
and otherwise the assignment that it started with. -/
theorem ends_search_exact (hopen : (g.content r.director.solution).Vacant b entities)
    (ht : t.Describes g facts D F (g.content r.director.solution) (facts r.director.solution) entities)
    (h : r.Abides D) (hfalls : x.kind = .branchAndBound → t.Falls) (hall : x.Exhausts entities r)
    (hmoves : r.moves + t.size [] ≤ maxCount) (hsteps : r.steps + (t.size [] + 1) ≤ maxCount) :
    Ends (x.search entities) r (fun _ r' => ∃ best, t.Agrees x.exploration best (t.keep none t.assignments) ∧
      (∀ p ∈ best, p ∈ t.assignments) ∧
      Stands g facts D (g.content r.director.solution) (facts r.director.solution) b entities (best.getD []) r')
      fun _ _ => False := by
  have hstart : Stands g facts D (g.content r.director.solution) (facts r.director.solution) b entities [] r :=
    ⟨h, (Content.fill_nil hopen.none).symm, rfl⟩
  simp only [search, ends_bind, ends_discard]
  have hscored := (ends_calculate_rated hreg hD ht hstart).sure (ends_calculate_sure hsafe h)
  refine hscored.eq.mono (fun score r₁ hr₁ => ?_) fun _ _ => id
  obtain ⟨⟨⟨hstands₁, hscore⟩, hcounts₁⟩, hcalculate⟩ := hr₁
  have hroot : t.Has ⟨[], score, 0⟩ := ⟨Nat.zero_le _, hscore, fun q hq => hq⟩
  have hall₁ : t.sizeAll [⟨[], score, 0⟩] = t.size [] := by
    rw [SearchTree.sizeAll_cons]
    rfl
  have hnears : Nears t g facts D (g.content r.director.solution) (facts r.director.solution) entities x.exploration
      { frontier := [⟨[], score, 0⟩] } r₁ := by
    refine ⟨hstands₁, Nat.zero_le _, List.forall_mem_singleton.2 hroot, fun a ha => (by cases ha), .of_eq ?_, ?_, ?_, ?_⟩
    · rw [SearchTree.belowAll_cons, SearchTree.belowAll_nil, List.append_nil]
      rfl
    · rw [hall₁, hcounts₁.moves]
      exact hmoves
    · rw [hall₁, hcounts₁.steps]
      exact hsteps
    · rw [hall₁]
      dsimp only
      omega
  have hfuel : t.sizeAll [⟨[], score, 0⟩] + 1 < maxCount + 2 := by
    rw [hall₁]
    omega
  refine (ends_visits_nears hsafe hreg hD hx hopen ht hfalls hfuel hnears).eq.mono (fun st r₂ hr₂ => ?_) fun _ _ => id
  obtain ⟨hfound, hvisits⟩ := hr₂
  have hagrees := hfound.agrees
  rw [hall score r₁ st r₂ hcalculate hvisits] at hagrees
  have hmem : ∀ p ∈ st.best.map SearchNode.path, p ∈ t.assignments := by
    intro p hp
    obtain ⟨a, ha, rfl⟩ := Option.map_eq_some_iff.1 hp
    exact (hfound.best a ha).2
  have htarget : ((st.best.map SearchNode.path).getD []).length ≤ entities.length := by
    rw [← ht.depth]
    cases hbest : st.best with
    | none => exact Nat.zero_le _
    | some a => exact (hfound.best a hbest).1.length
  have hlength := hfound.length
  rw [ht.depth] at hlength
  refine (ends_moveTo_stands hsafe hreg hD hx hopen hfound.stands hlength htarget).mono (fun _ r₃ hr₃ => ?_)
    fun _ _ => id
  refine ((ends_calculate_rated hreg hD ht hr₃.1).sure (ends_calculate_sure hsafe hr₃.1.abides)).mono
    (fun _ r₄ hr₄ => ?_) fun _ _ => id
  obtain ⟨⟨hstands₄, -⟩, -⟩ := hr₄
  refine .report fun r₅ hr₅ => ⟨st.best.map SearchNode.path, hagrees, hmem, hstands₄.abides.noted hD.journal hr₅, ?_, ?_⟩
  · rw [hr₅.solution, hstands₄.content]
  · rw [hr₅.solution, hstands₄.facts]

/-- The run of an exhaustive search that goes through all nodes. -/
theorem ends_run_exact
    (ht : t.Describes g facts D F (g.content r.director.solution) (facts r.director.solution)
      ((g.basic b).unassigned r.director.solution))
    (h : r.Abides D) (hfalls : x.kind = .branchAndBound → t.Falls)
    (hlimit : ((g.basic b).unassigned r.director.solution).length ≤ x.entityLimit)
    (hall : x.Exhausts ((g.basic b).unassigned r.director.solution) r)
    (hmoves : r.moves + t.size [] ≤ maxCount) (hsteps : r.steps + (t.size [] + 1) ≤ maxCount) :
    Ends x.run r (fun _ r' => ∃ best, t.Agrees x.exploration best (t.keep none t.assignments) ∧
      (∀ p ∈ best, p ∈ t.assignments) ∧
      Stands g facts D (g.content r.director.solution) (facts r.director.solution) b
        ((g.basic b).unassigned r.director.solution) (best.getD []) r') fun _ _ => False := by
  simp only [run, ends_bind, ends_get, ends_ite, ends_pure]
  rw [hx]
  refine ⟨fun hempty => ?_, fun _ => ⟨fun hmany => absurd hlimit (by omega), fun _ => ?_⟩⟩
  · have hnone : (g.basic b).unassigned r.director.solution = [] := List.isEmpty_iff.1 hempty
    have hdepth : t.depth = 0 := by rw [ht.depth, hnone, List.length_nil]
    have hassignments : t.assignments = [[]] := SearchTree.below_of_complete hdepth.symm
    refine ⟨some [], .of_eq ?_, fun p hp => ?_, h, ?_, rfl⟩
    · rw [hassignments]
      rfl
    · cases hp
      rw [hassignments]
      exact List.mem_singleton_self _
    · exact (Content.fill_nil (vacant_unassigned b r.director.solution).none).symm
  · exact ends_search_exact hsafe hreg hD hx (vacant_unassigned b r.director.solution) ht h hfalls hall hmoves hsteps

end ExhaustiveSearch

end Planning
