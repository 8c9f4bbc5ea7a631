import Mathlib
import Planning.Proofs.Director.Revision
import Planning.Proofs.Problems.Agreement.Routing
import Planning.Proofs.Problems.Agreement.Timetable

/-!
# Scores of the problems

Each problem is scored by constraints and by a function of the whole solution. However a solution came about, by moves
and by changes of the problem, the score of a director that follows it is the one of the function, as long as rooms,
vehicles and visits are numbered by their indices: the constraints join them by numbers, the functions by indices.
-/

/-!
## Boards of queens

The three constraints on queens find the lines that queens share one by one; the full calculation counts them by
distances. They agree where no two queens stand in one column, in whatever way the board came about.
-/

namespace Planning.QueensBoard

open Checked

variable {b b' : QueensBoard} {dir dir' : Director QueensBoard .simple} {f : Int → Int → Int} {name : String}

/-- Queens come and go at any position and take other rows. -/
inductive Amends : QueensBoard → Amendment QueensBoard → Prop where
  /-- A queen comes. -/
  | added (b : QueensBoard) (i : Nat) (q : Queen) : Amends b (.comes (0, i) (collection.edit fun l => insertAt l i q))
  /-- A queen goes. -/
  | removed (b : QueensBoard) (i : Nat) : Amends b (.goes (0, i) (collection.edit fun l => removeAt l i))
  /-- A queen takes a row, or none. -/
  | placed (b : QueensBoard) (i : Nat) (name : String) (r : Option Int) :
    Amends b (.varies (0, i) name fun b => .ok (b.setRow i r))

/-- The constraints read the queens one by one. -/
theorem lists_collection : collection.Lists constraints (.entity 0) where
  members _ _ := rfl
  own ms hr := by
    obtain ⟨-, rfl⟩ := reads_constraints hr
    exact ⟨Queen.toValue, fun _ => rfl⟩
  other cl' ms hr hcl := absurd (reads_constraints hr).1 hcl

/-- A row that is set shows in its queen. -/
theorem reported_setRow (b : QueensBoard) (i : Nat) (r : Option Int) :
    Reported constraints b (b.setRow i r) [(0, i)] := by
  refine ⟨fun cl => ?_, fun cl ms hr j hne => ?_⟩
  · cases cl with
    | entity d => exact List.length_modify ..
    | fact d => rfl
  · obtain ⟨rfl, rfl⟩ := reads_constraints hr
    refine ⟨(0, i), List.mem_singleton_self _, ?_⟩
    by_contra hji
    have hji : j ≠ i := fun heq => hji (by rw [heq])
    rw [getElem?_members_setRow, if_neg hji] at hne
    exact hne rfl

/-- Amendments of boards announce what they change. -/
theorem sound_of_amends {a : Amendment QueensBoard} (h : Amends b a) : a.Sound constraints b := by
  cases h with
  | added i q => exact fun s' hs' => lists_collection.keeps_insertAt hs'
  | removed i => exact fun s' hs' => lists_collection.keeps_removeAt hs'
  | placed i name r =>
    intro s' hs'
    cases hs'
    exact reported_setRow b i r

/-- The value of a queen tells the queen. -/
theorem ofValue_toValue (q : Queen) : Queen.ofValue q.toValue = q := by
  obtain ⟨id, column, row⟩ := q
  cases row <;> rfl

/-- Two queens have a number in common: one if they do. -/
def sharing (f : Int → Int → Int) (a c : Queen) : Int :=
  match a.row, c.row with
  | some r, some r' => if f r a.column = f r' c.column then 1 else 0
  | _, _ => 0

/-- The keys of queens tell whether they have a number in common. -/
theorem matching_line {a c : Queen} (ha : ∃ key, line f a.toValue = .ok key) (hc : ∃ key, line f c.toValue = .ok key) :
    (if (Joiner.equal (line f)).matching a.toValue c.toValue = .ok true ∧ a.row.isSome = true then 1 else 0) =
      sharing f a c := by
  simp only [line, ofValue_toValue] at ha hc
  simp only [Joiner.equal, Joiner.matching, JoinRelation.compares, line, ofValue_toValue, sharing]
  cases hra : a.row with
  | none => simp
  | some r =>
    simp only [hra, bind_eq_ok_iff] at ha
    obtain ⟨_, n, hn, hpure⟩ := ha
    obtain ⟨-, rfl⟩ := bounded_eq_ok_iff.1 hn
    cases hrc : c.row with
    | none =>
      simp only [hn]
      rw [if_neg]
      rintro ⟨heq, -⟩
      cases heq
    | some r' =>
      simp only [hrc, bind_eq_ok_iff] at hc
      obtain ⟨_, n', hn', hpure'⟩ := hc
      obtain ⟨-, rfl⟩ := bounded_eq_ok_iff.1 hn'
      simp [hn, hn', bind, Except.bind, pure, Except.pure]

/-- A conflict counts the pairs of queens that have its number in common. -/
theorem count_conflict (hkeys : (conflict name f).node.HasKeys b) :
    (conflict name f).count b = pairSum (sharing f) b.queens := by
  have hline : ∀ q ∈ b.queens, ∃ key, line f q.toValue = .ok key := fun q hq =>
    hkeys.1.2 q.toValue (List.mem_map.2 ⟨q, hq, rfl⟩)
  refine (Stream.sum_forEachUniquePair (.entity 0) members _ _ b (.equal (line f))).trans ?_
  rw [members, pairSum_map]
  refine pairSum_congr (List.pairwise_of_forall_mem_list fun a ha c hc => ?_)
  rw [← matching_line (hline a ha) (hline c hc)]
  have hweigher : (conflict name f).weigher = Stream.once := rfl
  simp [Value.pair, Value.at?, ofValue_toValue, hweigher, Stream.once, Except.toOption]

/-- The lines that two queens share. -/
def lines (a c : Queen) : Int :=
  match a.row, c.row with
  | some r, some r' =>
    (if r = r' then 1 else 0) + if (r - r').natAbs = (c.column - a.column).natAbs then 1 else 0
  | _, _ => 0

theorem sharedLines_eq {a c : Queen} {n : Int} (h : sharedLines a c = .ok n) : n = lines a c := by
  unfold sharedLines at h
  split at h
  · rename_i r r' ha hc
    simp only [bind_eq_ok_iff, pure_eq_ok_iff, bounded_eq_ok_iff] at h
    obtain ⟨_, ⟨-, rfl⟩, _, ⟨-, rfl⟩, _, ⟨-, rfl⟩, _, ⟨-, rfl⟩, rfl⟩ := h
    simp only [lines, ha, hc, Int.natCast_inj]
  · rename_i hrows
    cases h
    unfold lines
    split
    · rename_i ha hc
      exact absurd hc (hrows _ _ ha)
    · rfl

/-- The conflicts that are calculated are the lines that queens share, pair by pair. -/
theorem conflicts_eq {qs : List Queen} {n : Int} (h : conflicts qs = .ok n) : n = pairSum lines qs := by
  induction qs generalizing n with
  | nil =>
    cases h
    rfl
  | cons a qs ih =>
    obtain ⟨m, hm, h⟩ := bind_eq_ok_iff.1 h
    obtain ⟨rest, hrest, h⟩ := bind_eq_ok_iff.1 h
    cases h
    have hshared : ∀ (l : List Queen) (start total : Int),
        l.foldlM (fun n c => do return n + (← sharedLines a c)) start = .ok total →
        total = start + (l.map (lines a)).sum := by
      intro l
      induction l with
      | nil =>
        intro start total htotal
        cases htotal
        exact (add_zero _).symm
      | cons c l ih =>
        intro start total htotal
        rw [List.foldlM_cons] at htotal
        obtain ⟨mid, hmid, htotal⟩ := bind_eq_ok_iff.1 htotal
        obtain ⟨one, hone, hpure⟩ := bind_eq_ok_iff.1 hmid
        cases hpure
        rw [ih _ _ htotal, sharedLines_eq hone, List.map_cons, List.sum_cons, add_assoc]
    rw [pairSum_cons, ← ih hrest, hshared qs 0 m hm, zero_add]

/-- Queens of different columns share a row or a diagonal, or not, and never both diagonals. -/
theorem lines_eq {a c : Queen} (hne : a.column ≠ c.column) :
    lines a c = sharing (fun r _ => r) a c + sharing (fun r c => r - c) a c + sharing (fun r c => r + c) a c := by
  unfold lines sharing
  split
  · simp only
    split_ifs <;> omega
  · rfl

/-- No two queens stand in one column. -/
def Apart (b : QueensBoard) : Prop := (b.queens.map Queen.column).Nodup

/-- Where no two queens stand in one column the score of a board is what the constraints are worth. -/
theorem vector_calculate (hb : b.Apart) (hkeys : ∀ c ∈ constraints, c.node.HasKeys b) {score : Score .simple}
    (h : calculate b = .ok score) : score.vector = constraints.worth b := by
  obtain ⟨n, hn, hscore⟩ := bind_eq_ok_iff.1 h
  have hpairs : b.queens.Pairwise fun a c => a.column ≠ c.column := List.pairwise_map.1 hb
  rw [Score.vector_of_ofList hscore, conflicts_eq hn,
    pairSum_congr (hpairs.imp fun hne => lines_eq hne), pairSum_add, pairSum_add]
  have hworth : ∀ name f, conflict name f ∈ constraints →
      (conflict name f).worth b = Pi.single 0 (-pairSum (sharing f) b.queens) := by
    intro name f hmem
    rw [Constraint.worth_of_penalty rfl (by decide) rfl, count_conflict (hkeys _ hmem)]
  simp only [ConstraintSet.worth, constraints, List.map_cons, List.map_nil, List.sum_cons, List.sum_nil]
  rw [hworth _ _ (by simp [constraints]), hworth _ _ (by simp [constraints]), hworth _ _ (by simp [constraints])]
  funext i
  cases i with
  | zero =>
    simp only [Pi.add_apply, Pi.single_eq_same, Pi.zero_apply, List.getD_cons_zero]
    omega
  | succ i =>
    simp only [Pi.add_apply, Pi.single_eq_of_ne (Nat.succ_ne_zero i), add_zero, List.getD_cons_succ,
      List.getD_nil]

end Planning.QueensBoard

/-!
## All problems

What runs of moves and changes come to is the same for every problem, and so is what a director gives behind them.
-/

namespace Planning

open Checked

section Runs

variable {S : Type} {k : ScoreKind} [PlanningSolution S k] {problem : PlanningProblem S k} {s : S}
variable {moves : List (Move S)} {a : S → Amendment S} {P : Move S → Prop} {A : S → Amendment S → Prop}
variable {dir₀ dir : Director S k} {score full : Score k}

/-- A problem that is scored incrementally is amended after some moves: the director before and after all of it, the
score that it gives then, and the score of its whole solution. -/
def rescored (problem : PlanningProblem S k) (s : S) (moves : List (Move S)) (a : S → Amendment S) :
    Checked (Director S k × Director S k × Score k × Score k) := do
  match ← problem.incremental s with
  | .error _ => .error .outOfRange
  | .ok dir₀ =>
    let dir₁ ← moves.foldlM (fun dir m => do return (← dir.doMove m).1) dir₀
    let dir ← dir₁.amend (a dir₁.solution)
    let (_, score) ← dir.calculate
    return (dir₀, dir, score, ← problem.calculate dir.solution)

/-- Moves one after another are revisions. -/
theorem revisions_of_moves (hP : ∀ m ∈ moves, P m)
    (h : moves.foldlM (fun dir m => do return (← Director.doMove dir m).1) dir₀ = .ok dir) :
    Relation.ReflTransGen (Director.Revision P A) dir₀ dir := by
  induction moves generalizing dir₀ with
  | nil =>
    cases h
    exact .refl
  | cons m moves ih =>
    rw [List.foldlM_cons] at h
    obtain ⟨mid, hmid, h⟩ := bind_eq_ok_iff.1 h
    obtain ⟨⟨_, result⟩, hmove, hpure⟩ := bind_eq_ok_iff.1 hmid
    cases hpure
    exact .head (.trial (.move (hP m List.mem_cons_self) hmove)) (ih (fun m hm => hP m (List.mem_cons_of_mem _ hm)) h)

/-- Moves and an amendment are revisions, after which both scores are asked for. -/
theorem revisions_of_rescored (hP : ∀ m ∈ moves, P m) (hA : ∀ s, A s (a s))
    (h : rescored problem s moves a = .ok (dir₀, dir, score, full)) :
    ∃ dir', problem.incremental s = .ok (.ok dir₀) ∧ Relation.ReflTransGen (Director.Revision P A) dir₀ dir ∧
      dir.calculate = .ok (dir', score) ∧ problem.calculate dir.solution = .ok full := by
  obtain ⟨d, hcreate, h⟩ := bind_eq_ok_iff.1 h
  cases d with
  | error e => cases h
  | ok d =>
    obtain ⟨dir₁, hmoves, h⟩ := bind_eq_ok_iff.1 h
    obtain ⟨dir₂, hamend, h⟩ := bind_eq_ok_iff.1 h
    obtain ⟨⟨dir₃, score'⟩, hcalculate, h⟩ := bind_eq_ok_iff.1 h
    obtain ⟨full', hfull, hpure⟩ := bind_eq_ok_iff.1 h
    cases hpure
    exact ⟨dir₃, hcreate, .tail (revisions_of_moves hP hmoves) (.amended (hA _) hamend), hcalculate, hfull⟩

end Runs

/-- The first of three queens takes another row, and then the second one goes. -/
def shrunkBoard :
    Checked (Director QueensBoard .simple × Director QueensBoard .simple × Score .simple × Score .simple) :=
  rescored QueensBoard.problem (.ofRows [some 0, some 2, some 2])
    [(BasicMove.change 0 (some 2)).toMove (QueensBoard.variableOf (.integersBelow 3))]
    fun _ => .goes (0, 1) (QueensBoard.collection.edit fun l => removeAt l 1)

/-- Two rooms and a lesson in the first one. -/
def oneLesson : Timetable where
  rooms := [⟨0, "A", 30⟩, ⟨1, "B", 20⟩]
  lessons := [⟨0, "Curie", 25, 0, some 0⟩]

/-- A room goes from a timetable with one lesson. -/
def closedRoom (moves : List (BasicMove Nat)) (i : Nat) :
    Checked (Director Timetable .hardSoft × Director Timetable .hardSoft × Score .hardSoft × Score .hardSoft) :=
  rescored Timetable.problem oneLesson (moves.map fun m => m.toMove Timetable.roomVariable)
    fun _ => .fact 0 i (Timetable.roomCollection.edit fun rs => removeAt rs i)

/-- A visit goes to the other vehicle, and then the second one goes. -/
def soldVehicle :
    Checked (Director RoutePlan .hardSoft × Director RoutePlan .hardSoft × Score .hardSoft × Score .hardSoft) :=
  rescored RoutePlan.problem RoutePlan.threeVisits
    [(ListMove.change 1 0 0 1).toMove ((RoutePlan.routes none).list ())]
    fun _ => .goes (0, 1) (RoutePlan.vehicleCollection.edit fun l => removeAt l 1)

/-- After any revisions the score that follows the working solution is the score of the whole solution: for boards
whose queens stand in different columns; for timetables whose rooms are numbered by their indices; and for plans that
were planned at first, whose vehicles are numbered by their indices and do not lack room for no visits. -/
theorem calculate_eq_full (b : QueensBoard) (t : Timetable) (p : RoutePlan)
    (pinned : Option (RoutePlan → Nat → Bool)) :
    (∀ (dir₀ dir dir' : Director QueensBoard .simple) (score full : Score .simple),
      QueensBoard.problem.incremental b = .ok (.ok dir₀) →
      Relation.ReflTransGen (Director.Revision (Moved 0 QueensBoard.setRow) QueensBoard.Amends) dir₀ dir →
      dir.solution.Apart → dir.calculate = .ok (dir', score) →
      QueensBoard.problem.calculate dir.solution = .ok full → score = full) ∧
    (∀ (dir₀ dir dir' : Director Timetable .hardSoft) (score full : Score .hardSoft),
      Timetable.problem.incremental t = .ok (.ok dir₀) →
      Relation.ReflTransGen (Director.Revision (Moved 0 Timetable.setRoom) Timetable.Amends) dir₀ dir →
      dir.solution.Numbered → dir.calculate = .ok (dir', score) →
      Timetable.problem.calculate dir.solution = .ok full → score = full) ∧
    ∀ (dir₀ dir dir' : Director RoutePlan .hardSoft) (score full : Score .hardSoft),
      p.Planned → RoutePlan.problem.incremental p = .ok (.ok dir₀) →
      Relation.ReflTransGen (Director.Revision (RoutePlan.routes pinned).Moves RoutePlan.Amends) dir₀ dir →
      dir.solution.Numbered → dir.solution.Spacious → dir.calculate = .ok (dir', score) →
      RoutePlan.problem.calculate dir.solution = .ok full → score = full := by
  refine ⟨fun dir₀ dir dir' score full h₀ hsteps hapart hok hfull => Score.vector_inj.1 ?_,
    fun dir₀ dir dir' score full h₀ hsteps hnumbered hok hfull => Score.vector_inj.1 ?_,
    fun dir₀ dir dir' score full hp h₀ hsteps hnumbered hspacious hok hfull => Score.vector_inj.1 ?_⟩
  · obtain ⟨hannounced, hretraced⟩ := announced_moved fun b i r => QueensBoard.reported_setRow b i r
    have hq : Contract QueensBoard.problem.constraints [] := QueensBoard.contract
    obtain ⟨hscore, hkeys⟩ := Director.vector_of_revisions hq rfl h₀
      (Director.shadows_of_incremental rfl h₀) hannounced hretraced (fun _ _ => QueensBoard.sound_of_amends) hsteps hok
    rw [hscore, QueensBoard.vector_calculate hapart hkeys hfull]
    rfl
  · obtain ⟨hannounced, hretraced⟩ := announced_moved fun t i r => Timetable.reported_setRoom t i r
    have ht : Contract Timetable.problem.constraints [] := Timetable.contract
    obtain ⟨hscore, -⟩ := Director.vector_of_revisions ht rfl h₀
      (Director.shadows_of_incremental rfl h₀) hannounced hretraced (fun _ _ => Timetable.sound_of_amends) hsteps hok
    rw [hscore, Timetable.vector_calculate hnumbered hfull]
    rfl
  · have hr : Contract RoutePlan.problem.constraints RoutePlan.cascade := RoutePlan.contract
    have hfresh₀ := RoutePlan.fresh_director hp h₀
    have hfresh := hfresh₀.revisions hsteps
    obtain ⟨hscore, -⟩ := Director.vector_of_revisions hr rfl h₀
      hfresh₀.shadows RoutePlan.announced_routes RoutePlan.retraced_routes (fun _ _ => RoutePlan.sound_of_amends)
      hsteps hok
    rw [hscore, RoutePlan.vector_calculate hfresh.planned hfresh.awaits hnumbered hspacious hfull]
    rfl

theorem calculate_eq_full_amended :
    (∃ dir₀ dir dir' score full, QueensBoard.problem.incremental (.ofRows [some 0, some 2, some 2]) = .ok (.ok dir₀) ∧
      Relation.ReflTransGen (Director.Revision (Moved 0 QueensBoard.setRow) QueensBoard.Amends) dir₀ dir ∧
      dir.solution.Apart ∧ dir.calculate = .ok (dir', score) ∧
      QueensBoard.problem.calculate dir.solution = .ok full ∧ score = full) ∧
    (∃ dir₀ dir dir' score full, Timetable.problem.incremental oneLesson = .ok (.ok dir₀) ∧
      Relation.ReflTransGen (Director.Revision (Moved 0 Timetable.setRoom) Timetable.Amends) dir₀ dir ∧
      dir.solution.Numbered ∧ dir.calculate = .ok (dir', score) ∧
      Timetable.problem.calculate dir.solution = .ok full ∧ score = full) ∧
    ∃ dir₀ dir dir' score full, RoutePlan.threeVisits.Planned ∧
      RoutePlan.problem.incremental RoutePlan.threeVisits = .ok (.ok dir₀) ∧
      Relation.ReflTransGen (Director.Revision (RoutePlan.routes none).Moves RoutePlan.Amends) dir₀ dir ∧
      dir.solution.Numbered ∧ dir.solution.Spacious ∧ dir.calculate = .ok (dir', score) ∧
      RoutePlan.problem.calculate dir.solution = .ok full ∧ score = full := by
  refine ⟨?_, ?_, ?_⟩
  · have hcolumns : shrunkBoard.map (fun x => decide (x.2.1.solution.queens.map Queen.column).Nodup) = .ok true := by
      decide +kernel
    obtain ⟨⟨dir₀, dir, score, full⟩, hok, hapart⟩ := map_eq_ok_iff.1 hcolumns
    obtain ⟨dir', h₀, hsteps, hcalculate, hfull⟩ := revisions_of_rescored (P := Moved 0 QueensBoard.setRow)
      (A := QueensBoard.Amends) (List.forall_mem_singleton.2 ⟨_, _, rfl, rfl, rfl⟩) (fun b => .removed b 1) hok
    have hapart : (dir.solution.queens.map Queen.column).Nodup := of_decide_eq_true hapart
    exact ⟨dir₀, dir, dir', score, full, h₀, hsteps, hapart, hcalculate, hfull,
      (calculate_eq_full _ oneLesson .threeVisits none).1 _ _ _ _ _ h₀ hsteps hapart hcalculate hfull⟩
  · have hrooms : (closedRoom [.change 0 (some 1), .change 0 (some 0)] 1).map (fun x => x.2.1.solution.rooms) =
        .ok [⟨0, "A", 30⟩] := by decide +kernel
    obtain ⟨⟨dir₀, dir, score, full⟩, hok, hrooms⟩ := map_eq_ok_iff.1 hrooms
    have hmoves : ∀ m ∈ [BasicMove.change 0 (some 1), .change 0 (some 0)].map fun m => m.toMove Timetable.roomVariable,
        Moved 0 Timetable.setRoom m := by
      intro m hm
      obtain ⟨b, -, rfl⟩ := List.mem_map.1 hm
      exact ⟨_, b, rfl, rfl, rfl⟩
    obtain ⟨dir', h₀, hsteps, hcalculate, hfull⟩ := revisions_of_rescored (A := Timetable.Amends) hmoves
      (fun t => .roomRemoved t 1) hok
    have hnumbered : dir.solution.Numbered := by
      intro i r hr
      rw [hrooms, List.getElem?_singleton] at hr
      split at hr
      · subst i
        cases hr
        rfl
      · cases hr
    exact ⟨dir₀, dir, dir', score, full, h₀, hsteps, hnumbered, hcalculate, hfull,
      (calculate_eq_full (.ofRows []) _ .threeVisits none).2.1 _ _ _ _ _ h₀ hsteps hnumbered hcalculate hfull⟩
  · have hvehicles : soldVehicle.map (fun x => x.2.1.solution.vehicles) = .ok [⟨0, 5, [0, 1]⟩] := by cbv
    obtain ⟨⟨dir₀, dir, score, full⟩, hok, hvehicles⟩ := map_eq_ok_iff.1 hvehicles
    obtain ⟨dir', h₀, hsteps, hcalculate, hfull⟩ := revisions_of_rescored (P := (RoutePlan.routes none).Moves)
      (A := RoutePlan.Amends)
      (List.forall_mem_singleton.2 (.list () _)) (fun p => .vehicleRemoved p 1) hok
    have hnumbered : dir.solution.Numbered := by
      intro i x hx
      rw [hvehicles, List.getElem?_singleton] at hx
      split at hx
      · subst i
        cases hx
        rfl
      · cases hx
    have hspacious : dir.solution.Spacious := by
      intro x hx hempty
      rw [hvehicles, List.mem_singleton] at hx
      subst hx
      cases hempty
    exact ⟨dir₀, dir, dir', score, full, RoutePlan.planned_threeVisits, h₀, hsteps, hnumbered, hspacious, hcalculate,
      hfull, (calculate_eq_full (.ofRows []) oneLesson _ _).2.2 _ _ _ _ _ RoutePlan.planned_threeVisits h₀ hsteps
        hnumbered hspacious hcalculate hfull⟩

/-- When the first room goes the lesson in it is in the room that comes next, whose number is not its index: the
constraints find no room of that number, and the lesson lacks places in the full calculation. -/
theorem exists_calculate_ne_full :
    ∃ dir₀ dir dir' score full, oneLesson.Numbered ∧ Timetable.problem.incremental oneLesson = .ok (.ok dir₀) ∧
      Relation.ReflTransGen (Director.Revision (Moved 0 Timetable.setRoom) Timetable.Amends) dir₀ dir ∧
      dir.calculate = .ok (dir', score) ∧ Timetable.problem.calculate dir.solution = .ok full ∧ score ≠ full := by
  have hscores : (closedRoom [] 0).map (fun x => decide (x.2.2.1 = x.2.2.2)) = .ok false := by decide +kernel
  obtain ⟨⟨dir₀, dir, score, full⟩, hok, hne⟩ := map_eq_ok_iff.1 hscores
  obtain ⟨dir', h₀, hsteps, hcalculate, hfull⟩ := revisions_of_rescored (P := Moved 0 Timetable.setRoom)
    (A := Timetable.Amends) (List.forall_mem_nil _) (fun t => .roomRemoved t 0) hok
  refine ⟨dir₀, dir, dir', score, full, fun i r hr => ?_, h₀, hsteps, hcalculate, hfull, of_decide_eq_false hne⟩
  obtain ⟨hlt, rfl⟩ := List.getElem?_eq_some_iff.1 hr
  have hi : i = 0 ∨ i = 1 := by
    change i < 2 at hlt
    omega
  rcases hi with rfl | rfl
  · rfl
  · rfl

end Planning
