import Planning.Problems.Queens
import Planning.Proofs.Director.Evaluate
import Planning.Proofs.Move.Doable
import Planning.Proofs.Problems.Routing.Undo

/-!
# Moves made as a whole or not at all

A move checks all entities, positions and values before anything is written. So a move that is refused leaves the
director as it was, and one that is not refused never reads or writes past the end of a list: it can only end in a
fault when the director announces the edited solution to its listeners and constraints. The lists of a variable
hold the same elements before and after, but for an element that a move puts into a list for the first time.
-/

namespace Planning

open Checked

variable {S B L : Type} {V : B → Type} {W : L → Type} [DecidableEq B] [DecidableEq L]
variable {g : Genuine S V W} {s s' : S}

section Elements

omit [DecidableEq B] [DecidableEq L] in
/-- Lists that hold the same have the same elements. -/
theorem Genuine.elements_congr {l : L} (hlist : (g.content s').lists l = (g.content s).lists l)
    (hcount : (g.content s').listCount l = (g.content s).listCount l) :
    (g.list l).elements s' = (g.list l).elements s := by
  change (g.list l).list s' = (g.list l).list s at hlist
  change (g.list l).count s' = (g.list l).count s at hcount
  rw [ListVariable.elements, ListVariable.elements, hlist, hcount]

/-- An element is in a list. -/
theorem ListVariable.mem_elements_iff {V : Type} [DecidableEq V] {x : ListVariable S V} {v : V} :
    v ∈ x.elements s ↔ x.isAssigned s v = true := by
  rw [elements, Multiset.mem_sum, isAssigned, List.any_eq_true]
  simp

end Elements

variable [∀ b, PlanningValue (V b)] [∀ b, DecidableEq (V b)] [∀ l, PlanningValue (W l)] [∀ l, DecidableEq (W l)]

/-- A move that is planned can be made. -/
theorem Genuine.Moves.exists_apply_of_plan (hg : g.Lawful) {m : Move S} (hm : g.Moves m) {e : Edit S}
    (hplan : m.plan s = .ok e) : ∃ s', e.apply s = .ok s' := by
  cases hm with
  | basic b m =>
    obtain ⟨-, -, hpure⟩ := bind_eq_ok_iff.1 hplan
    cases hpure
    exact ⟨_, rfl⟩
  | list l m =>
    obtain ⟨u, hcheck, hpure⟩ := bind_eq_ok_iff.1 hplan
    cases hpure
    exact ListMove.exists_apply hg hcheck

omit [DecidableEq L] [∀ b, PlanningValue (V b)] [∀ b, DecidableEq (V b)] [∀ l, PlanningValue (W l)]
  [∀ l, DecidableEq (W l)] in
/-- Writing values changes no list. -/
theorem BasicMove.lists_foldl {b : B} (vs : List (Nat × Option (V b))) (c : Content V W) :
    (vs.foldl (fun c y => c.setValue b y.1 y.2) c).lists = c.lists ∧
      (vs.foldl (fun c y => c.setValue b y.1 y.2) c).listCount = c.listCount := by
  induction vs generalizing c with
  | nil => exact ⟨rfl, rfl⟩
  | cons y vs ih => exact ih (c.setValue b y.1 y.2)

namespace ListMove

variable {l : L} {m : ListMove (W l)}

omit [∀ b, PlanningValue (V b)] [∀ b, DecidableEq (V b)] in
/-- A move of a list variable writes no other list variable. -/
theorem lists_of_apply (hg : g.Lawful) {u : Unit} (hcheck : m.check (g.list l) s = .ok u)
    (h : m.apply (g.list l) s = .ok s') {l' : L} (hne : l' ≠ l) :
    (g.list l').list s' = (g.list l').list s ∧ (g.list l').count s' = (g.list l').count s := by
  -- The entities of the move exist in all solutions on the way, since writing a list changes no count.
  let Spares (r t : S) : Prop := (∀ d ∈ m.entities, d < (g.list l).count r) →
    (g.content t).lists l' = (g.content r).lists l' ∧ (g.content t).listCount = (g.content r).listCount
  have htrans : ∀ ⦃r s t⦄, Spares r s → Spares s t → Spares r t := by
    intro r s t hrs hst hlt
    obtain ⟨hlists, hcounts⟩ := hrs hlt
    obtain ⟨hlists', hcounts'⟩ := hst fun d hd => lt_of_lt_of_eq (hlt d hd) (congrFun hcounts l).symm
    exact ⟨hlists'.trans hlists, hcounts'.trans hcounts⟩
  have hset : ∀ d ∈ m.entities, ∀ r w t, (g.list l).set r d w = .ok t → Spares r t := by
    intro d hd r w t ht hlt
    obtain ⟨t', ht', hcontent⟩ := hg.set_list l r d w (hlt d hd)
    rw [ht] at ht'
    cases ht'
    rw [hcontent]
    exact ⟨Function.update_of_ne hne _ _, Content.listCount_setList ..⟩
  obtain ⟨hlists, hcounts⟩ := apply_rel htrans hset h (lt_of_check hcheck)
  exact ⟨hlists, congrFun hcounts l'⟩

omit [DecidableEq B] [DecidableEq L] [∀ b, PlanningValue (V b)] [∀ b, DecidableEq (V b)] in
/-- An element that a move puts into a list for the first time was in no list. -/
theorem not_mem_of_check {u : Unit} (hcheck : m.check (g.list l) s = .ok u) :
    ∀ v ∈ m.added, v ∉ (g.list l).elements s := by
  cases m with
  | assign v e i =>
    obtain ⟨_, -, hcheck⟩ := bind_eq_ok_iff.1 hcheck
    obtain ⟨_, -, hcheck⟩ := bind_eq_ok_iff.1 hcheck
    obtain ⟨_, -, hcheck⟩ := bind_eq_ok_iff.1 hcheck
    intro w hw
    rw [List.mem_singleton.1 hw, ListVariable.mem_elements_iff]
    exact (of_unless_ok hcheck).1
  | _ => simp [added]

end ListMove

namespace Director

variable {k : ScoreKind} {dir dir' : Director S k}

/-- The entities of an edit are announced one after another. -/
def announce (dir : Director S k) (e : Edit S) : Checked (Director S k) :=
  e.entities.foldlM (fun dir x => dir.afterVariableChanged x e.name) dir

omit [DecidableEq B] [DecidableEq L] in
/-- A move is refused if it cannot be planned, and then the director is as before. -/
theorem doMove_refused_iff {m : Move S} {err : MoveError} :
    dir.doMove m = .ok (dir', .error err) ↔ m.plan dir.solution = .error err ∧ dir' = dir := by
  constructor
  · intro h
    obtain ⟨err', hplan, herr, hsame⟩ | ⟨e, -, hok, -⟩ := cases_doMove h
    · cases herr
      exact ⟨hplan, hsame⟩
    · cases hok
  · rintro ⟨hplan, rfl⟩
    rw [doMove, hplan]
    rfl

/-- An edit that can be made ends in a fault only when it is announced. -/
theorem announce_of_perform_fault {e : Edit S} (happly : ∃ s, e.apply dir.solution = .ok s) {f : Fault}
    (h : dir.perform e = .error f) :
    ∃ dir₁, dir.beforeVariableChanged.edit e.apply = .ok dir₁ ∧ dir₁.announce e = .error f := by
  obtain ⟨s, hs⟩ := happly
  have hedit : ∃ dir₁, dir.beforeVariableChanged.edit e.apply = .ok dir₁ := by
    have hsolution : dir.beforeVariableChanged.solution = dir.solution := by
      rw [beforeVariableChanged, forget_eq]
    exact ⟨_, bind_eq_ok_iff.2 ⟨s, hsolution ▸ hs, rfl⟩⟩
  obtain ⟨dir₁, h₁⟩ := hedit
  refine ⟨dir₁, h₁, ?_⟩
  unfold perform at h
  rw [h₁] at h
  change (dir₁.announce e >>= fun dir => pure (dir.remember e.undo)) = .error f at h
  cases hannounce : dir₁.announce e with
  | error f' =>
    rw [hannounce] at h
    cases h
    rfl
  | ok dir₂ =>
    rw [hannounce] at h
    cases h

/-- A move of a genuine variable ends in a fault only when its edit is announced. -/
theorem announce_of_doMove_fault (hg : g.Lawful) {m : Move S} (hm : g.Moves m) {f : Fault}
    (h : dir.doMove m = .error f) :
    ∃ e dir₁, m.plan dir.solution = .ok e ∧ dir.beforeVariableChanged.edit e.apply = .ok dir₁ ∧
      dir₁.announce e = .error f := by
  unfold doMove at h
  split at h
  · cases h
  · rename_i e hplan
    cases hperform : dir.perform e with
    | ok dir' =>
      rw [hperform] at h
      cases h
    | error f' =>
      rw [hperform] at h
      cases h
      obtain ⟨dir₁, hedit, hannounce⟩ := announce_of_perform_fault (hm.exists_apply_of_plan hg hplan) hperform
      exact ⟨e, dir₁, hplan, hedit, hannounce⟩

/-- A director that scores in full makes every move of a genuine variable or refuses it, if its listeners always
succeed. -/
theorem exists_doMove_of_full (hg : g.Lawful) {m : Move S} (hm : g.Moves m) (hfull : dir.isIncremental = false)
    (hlisteners : ∀ e ∈ dir.shadows, ∀ s x, ∃ r, e.listener.update s x = .ok r) : ∃ r, dir.doMove m = .ok r := by
  obtain ⟨calculate, known, hscoring⟩ : ∃ calculate known, dir.scoring = .full calculate known := by
    unfold isIncremental at hfull
    split at hfull
    · cases hfull
    · exact ⟨_, _, ‹_›⟩
  have htotal : ∀ e ∈ dir.shadows, ∀ s x, True → ∃ s' changed, e.listener.update s x = .ok (s', changed) ∧ True := by
    intro e he s x _
    obtain ⟨⟨s', changed⟩, h⟩ := hlisteners e he s x
    exact ⟨s', changed, h, trivial⟩
  unfold doMove
  cases hplan : m.plan dir.solution with
  | error err => exact ⟨_, rfl⟩
  | ok e =>
    obtain ⟨s, happly⟩ := hm.exists_apply_of_plan hg hplan
    obtain ⟨s', hcascade⟩ := ShadowCascade.exists_cascadeAll htotal (fun c => dir.variableIndex? c e.name)
      (s := s) trivial e.entities
    obtain ⟨dir', hperform⟩ := exists_perform hscoring happly hcascade
    exact ⟨_, bind_eq_ok_iff.2 ⟨dir', hperform, rfl⟩⟩

variable [PlanningSolution S k]

omit [DecidableEq B] [DecidableEq L] [∀ b, PlanningValue (V b)] [∀ b, DecidableEq (V b)]
  [∀ l, PlanningValue (W l)] [∀ l, DecidableEq (W l)] in
/-- A move that is made leaves the genuine variables as its edit does. -/
theorem content_of_doMove (hapart : g.Apart (k := k) dir.shadows) {m : Move S}
    (h : dir.doMove m = .ok (dir', .ok ())) : ∃ e s, m.plan dir.solution = .ok e ∧ e.apply dir.solution = .ok s ∧
      g.content dir'.solution = g.content s := by
  obtain ⟨err, -, herr, -⟩ | ⟨e, hplan, -, hperform⟩ := cases_doMove h
  · cases herr
  obtain ⟨s, happly, hcascade, -⟩ := perform_eq hperform
  exact ⟨e, s, hplan, happly, ShadowCascade.kept_cascadeAll hapart.listener hcascade⟩

omit [∀ l, PlanningValue (W l)] [∀ l, DecidableEq (W l)] in
/-- A move of a value leaves the elements of all lists. -/
theorem elements_of_doMove_basic (hg : g.Lawful) (hapart : g.Apart (k := k) dir.shadows) {b : B}
    {n : BasicMove (V b)} (h : dir.doMove (n.toMove (g.basic b)) = .ok (dir', .ok ())) (l : L) :
    (g.list l).elements dir'.solution = (g.list l).elements dir.solution := by
  obtain ⟨e, s, hplan, happly, hcontent⟩ := content_of_doMove hapart h
  obtain ⟨u, hcheck, hpure⟩ := bind_eq_ok_iff.1 hplan
  cases hpure
  cases happly
  rw [BasicMove.content_assignAll hg (BasicMove.lt_of_mem_result hcheck)] at hcontent
  apply Genuine.elements_congr
  · rw [hcontent, (BasicMove.lists_foldl _ _).1]
  · rw [hcontent, (BasicMove.lists_foldl _ _).2]

omit [∀ b, PlanningValue (V b)] [∀ b, DecidableEq (V b)] in
/-- A move of a list leaves the elements of the lists of all variables, but that an element that was in no list of its
variable may come to one. -/
theorem elements_of_doMove_list (hg : g.Lawful) (hapart : g.Apart (k := k) dir.shadows) {l : L}
    {n : ListMove (W l)} (h : dir.doMove (n.toMove (g.list l)) = .ok (dir', .ok ())) :
    (g.list l).elements dir'.solution = (g.list l).elements dir.solution + n.added ∧
      (∀ v ∈ n.added, v ∉ (g.list l).elements dir.solution) ∧
      ∀ l' ≠ l, (g.list l').elements dir'.solution = (g.list l').elements dir.solution := by
  obtain ⟨e, s, hplan, happly, hcontent⟩ := content_of_doMove hapart h
  obtain ⟨u, hcheck, hpure⟩ := bind_eq_ok_iff.1 hplan
  cases hpure
  have hkept : ∀ l', (g.list l').elements dir'.solution = (g.list l').elements s :=
    fun l' => Genuine.elements_congr (by rw [hcontent]) (by rw [hcontent])
  refine ⟨(hkept l).trans (ListMove.elements_apply hg hcheck happly), ListMove.not_mem_of_check hcheck,
    fun l' hne => (hkept l').trans ?_⟩
  obtain ⟨hlists, hcounts⟩ := ListMove.lists_of_apply hg hcheck happly hne
  exact Genuine.elements_congr hlists hcounts

/-- A move of a genuine variable is made as a whole or not at all. It is refused if it cannot be planned, and then the
director is as before, with its recordings and what it told its constraints. It ends in a fault only when a listener
or a constraint does that is told of the edited solution, so a director that scores in full is not stopped if its
listeners always succeed. If it is made the lists of a variable hold the same elements as before, but that an element
that was in none may come to one. -/
theorem doMove_whole (hg : g.Lawful) (hapart : g.Apart (k := k) dir.shadows) :
    (∀ m, g.Moves m →
      (∀ dir' err, dir.doMove m = .ok (dir', .error err) ↔ m.plan dir.solution = .error err ∧ dir' = dir) ∧
      (∀ f, dir.doMove m = .error f → ∃ e dir₁, m.plan dir.solution = .ok e ∧
        dir.beforeVariableChanged.edit e.apply = .ok dir₁ ∧ dir₁.announce e = .error f) ∧
      (dir.isIncremental = false → (∀ e ∈ dir.shadows, ∀ s x, ∃ r, e.listener.update s x = .ok r) →
        ∃ r, dir.doMove m = .ok r)) ∧
    (∀ b (n : BasicMove (V b)) dir', dir.doMove (n.toMove (g.basic b)) = .ok (dir', .ok ()) →
      ∀ l, (g.list l).elements dir'.solution = (g.list l).elements dir.solution) ∧
    ∀ l (n : ListMove (W l)) dir', dir.doMove (n.toMove (g.list l)) = .ok (dir', .ok ()) →
      (g.list l).elements dir'.solution = (g.list l).elements dir.solution + n.added ∧
      (∀ v ∈ n.added, v ∉ (g.list l).elements dir.solution) ∧
      ∀ l' ≠ l, (g.list l').elements dir'.solution = (g.list l').elements dir.solution := by
  refine ⟨fun m hm => ⟨fun dir' err => doMove_refused_iff, fun f h => announce_of_doMove_fault hg hm h,
    exists_doMove_of_full hg hm⟩, ?_, ?_⟩
  · exact fun b n dir' h => elements_of_doMove_basic hg hapart h
  · exact fun l n dir' h => elements_of_doMove_list hg hapart h

end Director

namespace RoutePlan

/-- A visit that is in no route comes to the first one. -/
def serveLast : Move RoutePlan := (ListMove.assign 2 0 0).toMove ((routes none).list ())

/-- A visit comes to a route, and is to come to it once more. -/
def servedTwice (dir : Director RoutePlan .hardSoft) :
    Checked (Director RoutePlan .hardSoft × Except MoveError Unit × Except MoveError Unit) := do
  let (dir, first) ← dir.doMove serveLast
  let (dir, second) ← dir.doMove serveLast
  return (dir, first, second)

/-- A visit comes to a route of a plan of three visits. The same move is refused from then on. -/
theorem doMove_whole_threeVisits : ∃ dir dir' err,
    problem.incremental threeVisits = .ok (.ok dir) ∧ (routes none).Lawful ∧
      (routes none).Apart (k := .hardSoft) dir.shadows ∧
      dir.doMove serveLast = .ok (dir', .ok ()) ∧
      ((routes none).list ()).elements dir'.solution = ((routes none).list ()).elements dir.solution + {2} ∧
      2 ∉ ((routes none).list ()).elements dir.solution ∧
      dir'.doMove serveLast = .ok (dir', .error err) := by
  obtain ⟨s, hs⟩ := exists_eq_ok_of_isOk (x := cascade.updateAll threeVisits) (by cbv)
  have hrun : ((cascade.updateAll threeVisits).bind fun s =>
      (servedTwice (directorOf (.incremental { constraints := constraints }) s)).map fun r => r.2) =
        .ok (.ok (), .error (.notDoable "element 2 is already assigned")) := by cbv
  rw [hs] at hrun
  have h₀ : problem.incremental threeVisits =
      .ok (.ok (directorOf (.incremental { constraints := constraints }) s)) := director_eq_ok_iff.2 ⟨s, hs, rfl⟩
  dsimp only [Except.bind] at hrun
  have hapart : (routes none).Apart (k := .hardSoft) cascade := apart_routes
  generalize directorOf (.incremental { constraints := constraints }) s = dir at h₀ hrun
  have hshadows : dir.shadows = cascade := (fresh_director planned_threeVisits h₀).shadows
  rw [← hshadows] at hapart
  cases htwice : servedTwice dir with
  | error f =>
    rw [htwice] at hrun
    cases hrun
  | ok r =>
    rw [htwice] at hrun
    obtain ⟨dir'', first, second⟩ := r
    obtain ⟨⟩ := Except.ok.inj hrun
    obtain ⟨⟨dir', _⟩, hfirst, htwice⟩ := bind_eq_ok_iff.1 htwice
    obtain ⟨⟨_, _⟩, hsecond, hpure⟩ := bind_eq_ok_iff.1 htwice
    cases hpure
    have hmoves : (routes none).Moves serveLast := .list (g := routes none) () _
    obtain ⟨-, -, hlists⟩ := Director.doMove_whole lawful_routes hapart
    obtain ⟨helements, hnone, -⟩ := hlists () _ dir' hfirst
    have hapart' : (routes none).Apart (k := .hardSoft) dir'.shadows := by
      rw [Director.shadows_doMove hfirst]
      exact hapart
    obtain ⟨-, rfl⟩ := (((Director.doMove_whole lawful_routes hapart').1 serveLast hmoves).1 _ _).1 hsecond
    exact ⟨dir, dir'', _, h₀, lawful_routes, hapart, hfirst, helements, hnone 2 (List.mem_singleton_self 2), hsecond⟩

end RoutePlan

namespace QueensBoard

/-- The queen of column one goes to the lowest row. -/
def lower : Move QueensBoard := (BasicMove.change 1 (some minBound)).toMove (variableOf (.fixed [minBound]))

/-- A board is scored, and then the queen of column one goes to the lowest row. -/
def lowered (b : QueensBoard) :
    Checked (Except ValidationError (Checked (Director QueensBoard .simple × Except MoveError Unit))) := do
  match ← problem.incremental b with
  | .error e => return .error e
  | .ok dir =>
    let (dir, _) ← dir.calculate
    return .ok (dir.doMove lower)

/-- A move within the range of rows ends in a fault when the constraints are told of it: they subtract the column from
the row. -/
theorem doMove_lower_overflow : ∃ dir dir' score,
    problem.incremental (.ofRows [none, none]) = .ok (.ok dir) ∧ dir.calculate = .ok (dir', score) ∧
      dir'.doMove lower = .error .overflow := by
  have hrun : lowered (.ofRows [none, none]) = .ok (.ok (.error .overflow)) := by cbv
  obtain ⟨r, hdir, hrun⟩ := bind_eq_ok_iff.1 hrun
  split at hrun
  · cases hrun
  · rename_i dir
    obtain ⟨⟨dir', score⟩, hscore, hrun⟩ := bind_eq_ok_iff.1 hrun
    exact ⟨dir, dir', score, hdir, hscore, Except.ok.inj (Except.ok.inj hrun)⟩

end QueensBoard

end Planning
