import Planning.Phase.Exhaustive
import Planning.Proofs.Run.Track

/-!
# Exhaustive searches that keep track of the best solution

A complete assignment is given the score that was found when its last value was tried, though the working solution went
elsewhere in between. When it is looked at, the genuine variables hold what they held then; so the score is still right
if what the genuine variables hold settles it.
-/

namespace Planning

open Checked RunState Running

section Fill

variable {B L : Type} {V : B → Type} {W : L → Type} [DecidableEq B]

/-- The content where the first of some entities have the values of a path, and the others of them none. -/
def Content.fill (c : Content V W) (b : B) (entities : List Nat) (path : List (V b)) : Content V W :=
  { c with values := Function.update c.values b fun e =>
      if e ∈ entities then path[entities.idxOf e]? else c.values b e }

variable {c : Content V W} {b : B} {entities : List Nat} {path : List (V b)} {e : Nat} {v : V b}

/-- Without values the entities have none. -/
theorem Content.fill_nil (h : ∀ e ∈ entities, c.values b e = none) : c.fill b entities [] = c := by
  refine Content.ext ?_ rfl rfl rfl
  simp only [fill]
  rw [Function.update_eq_self_iff]
  funext e
  split
  · rename_i he
    rw [h e he, List.getElem?_nil]
  · rfl

/-- The next entity gets the next value. -/
theorem Content.setValue_fill (hnodup : entities.Nodup) (he : entities[path.length]? = some e) :
    (c.fill b entities path).setValue b e (some v) = c.fill b entities (path ++ [v]) := by
  obtain ⟨hlt, rfl⟩ := List.getElem?_eq_some_iff.1 he
  refine Content.ext ?_ rfl rfl rfl
  simp only [fill, setValue, Function.update_idem, Function.update_self]
  congr 1
  funext d
  rw [Function.update_apply]
  split
  · rename_i hd
    subst hd
    rw [if_pos (List.getElem_mem hlt), hnodup.idxOf_getElem, List.getElem?_concat_length]
  · rename_i hd
    split
    · rename_i hmem
      have hne : entities.idxOf d ≠ path.length := by
        intro hidx
        refine hd ?_
        rw [← List.getElem_idxOf (List.idxOf_lt_length_of_mem hmem)]
        simp only [hidx]
      rw [List.getElem?_append]
      split
      · rfl
      · rw [List.getElem?_eq_none (by omega), List.getElem?_eq_none (by simp; omega)]
    · rfl

/-- The last entity with a value loses it. -/
theorem Content.setValue_none_fill (hnodup : entities.Nodup) (he : entities[path.length]? = some e) :
    (c.fill b entities (path ++ [v])).setValue b e none = c.fill b entities path := by
  have hnone : (c.fill b entities path).values b e = none := by
    obtain ⟨hlt, rfl⟩ := List.getElem?_eq_some_iff.1 he
    simp only [fill, Function.update_self]
    rw [if_pos (List.getElem_mem hlt), hnodup.idxOf_getElem, List.getElem?_eq_none le_rfl]
  rw [← setValue_fill hnodup he, setValue_setValue]
  conv_lhs => rw [← hnone]
  rw [setValue_values]

end Fill

/-- Entities without a value, each of them once. -/
structure Content.Vacant {B L : Type} {V : B → Type} {W : L → Type} (c : Content V W) (b : B) (entities : List Nat) :
    Prop where
  /-- Each entity is there once. -/
  nodup : entities.Nodup
  /-- The entities exist. -/
  lt : ∀ e ∈ entities, e < c.valueCount b
  /-- The entities have no value. -/
  none : ∀ e ∈ entities, c.values b e = none

namespace SearchNode

variable {V : Type} {k : ScoreKind} {node a : SearchNode V k} {l children frontier : List (SearchNode V k)}

/-- A node that is inserted is among the nodes. -/
theorem mem_insert : node ∈ a.insert l ↔ node = a ∨ node ∈ l := by
  induction l with
  | nil => simp [insert]
  | cons b l ih =>
    unfold insert
    split
    · simp
    · simp only [List.mem_cons, ih]
      tauto

/-- Open nodes are children or were open before. -/
theorem mem_expand {o : Exploration} (h : node ∈ expand o children frontier) : node ∈ children ∨ node ∈ frontier := by
  cases o with
  | depthFirst => exact List.mem_append.1 h
  | scoreFirst =>
    unfold expand at h
    dsimp only at h
    induction children generalizing frontier with
    | nil => exact .inr h
    | cons a children ih =>
      rcases ih h with h | h
      · exact .inl (List.mem_cons_of_mem a h)
      · rcases mem_insert.1 h with rfl | h
        · exact .inl List.mem_cons_self
        · exact .inr h

end SearchNode

namespace ExhaustiveSearch

/-- Two paths are the same up to what they share. -/
theorem take_shared {V : Type} [DecidableEq V] (p q : List V) : p.take (shared p q) = q.take (shared p q) := by
  induction p generalizing q with
  | nil => simp [shared]
  | cons a p ih =>
    cases q with
    | nil => simp [shared]
    | cons c q =>
      unfold shared
      split
      · rename_i hac
        rw [List.take_succ_cons, List.take_succ_cons, hac, ih]
      · rfl

/-- Two paths share at most all of each. -/
theorem shared_le {V : Type} [DecidableEq V] (p q : List V) : shared p q ≤ p.length ∧ shared p q ≤ q.length := by
  induction p generalizing q with
  | nil => simp [shared]
  | cons a p ih =>
    cases q with
    | nil => simp [shared]
    | cons c q =>
      unfold shared
      split
      · simp only [List.length_cons, Nat.add_le_add_iff_right]
        exact ih q
      · simp

variable {S T : Type} {k : ScoreKind} [PlanningSolution S k] {D : Director S k → Prop} {F : S → Score k}
variable {B L : Type} {V : B → Type} {W : L → Type} [DecidableEq B] [DecidableEq L]
variable [∀ b, PlanningValue (V b)] [∀ b, DecidableEq (V b)] [∀ l, PlanningValue (W l)] [∀ l, DecidableEq (W l)]
variable {g : Genuine S V W} {facts : S → T} {shadows : ShadowCascade S} {loud : RunEvent S k → Bool}

section Steady

variable {b : B} {x : ExhaustiveSearch S (V b) k} (hx : x.planned = g.basic b)
include hx

omit [DecidableEq B] [DecidableEq L] [PlanningSolution S k] [∀ b, PlanningValue (V b)] [∀ b, DecidableEq (V b)]
  [∀ l, PlanningValue (W l)] [∀ l, DecidableEq (W l)] in
/-- The director gives an entity a value, or none. -/
theorem assign_eq (e : Nat) (v : Option (V b)) :
    (x.assign e v : Running S k Unit) = Running.edit (Director.assign (g.basic b) e v) := by
  rw [← hx]
  rfl

variable (hD : g.Preserves D)
include hD

omit [DecidableEq B] [DecidableEq L] in
/-- Giving an entity a value leaves the best solution alone. -/
theorem steady_assign (e : Nat) (v : Option (V b)) : Steady D loud (x.assign e v : Running S k Unit) := by
  rw [assign_eq hx]
  refine Steady.direct fun dir dir' _ hdir hd => ?_
  obtain ⟨dir₁, h₁, hpure⟩ := bind_eq_ok_iff.1 hd
  cases hpure
  exact hD.assign hdir h₁

omit [DecidableEq B] [DecidableEq L] in
/-- Going from a path to another leaves the best solution alone. -/
theorem steady_moveTo (entities : List Nat) (current target : List (V b)) :
    Steady D loud (x.moveTo entities current target : Running S k Unit) :=
  .bind (.forM fun _ _ => steady_assign hx hD _ _) fun _ => .forM fun _ _ => steady_assign hx hD _ _

end Steady

/-- What the genuine variables hold settles the scores of directors of a kind. -/
structure Settles (g : Genuine S V W) (facts : S → T) (shadows : ShadowCascade S) (D : Director S k → Prop)
    (F : S → Score k) : Prop extends g.Scores D F where
  /-- The directors have the listeners. -/
  shadows : ∀ {dir}, D dir → dir.shadows = shadows
  /-- Solutions that are alike have the same score. -/
  settled : ∀ {dir dir'}, D dir → D dir' → g.Alike facts dir.solution dir'.solution → F dir.solution = F dir'.solution

variable {b : B} {x : ExhaustiveSearch S (V b) k} {c : Content V W} {f : T} {entities : List Nat} {path : List (V b)}
variable {r : RunState S k} {e : Nat} {v : V b}

/-- The working solution has the values of a path, and is as it was otherwise. -/
structure Stands (g : Genuine S V W) (facts : S → T) (D : Director S k → Prop) (c : Content V W) (f : T) (b : B)
    (entities : List Nat) (path : List (V b)) (r : RunState S k) : Prop where
  /-- The director is of the kind. -/
  abides : r.Abides D
  /-- The entities have the values. -/
  content : g.content r.director.solution = c.fill b entities path
  /-- The facts are the same. -/
  facts : facts r.director.solution = f

/-- A score is that of every solution with the values of a path. -/
def Foretells (g : Genuine S V W) (facts : S → T) (D : Director S k → Prop) (F : S → Score k) (c : Content V W) (f : T)
    (b : B) (entities : List Nat) (path : List (V b)) (score : Score k) : Prop :=
  ∀ dir, D dir → g.content dir.solution = c.fill b entities path → facts dir.solution = f → F dir.solution = score

omit [DecidableEq L] [∀ b, PlanningValue (V b)] [∀ b, DecidableEq (V b)] [∀ l, PlanningValue (W l)]
  [∀ l, DecidableEq (W l)] [PlanningSolution S k] in
/-- The entities exist in the working solution. -/
theorem Stands.lt (h : Stands g facts D c f b entities path r) (hopen : c.Vacant b entities) {i : Nat}
    (he : entities[i]? = some e) : e < (g.basic b).count r.director.solution := by
  have hlt := hopen.lt e (List.mem_of_getElem? he)
  have hsame : (g.basic b).count r.director.solution = c.valueCount b := congrArg (fun c => c.valueCount b) h.content
  omega

section

variable (hreg : g.Regular facts shadows) (hD : Settles g facts shadows D F) (hx : x.planned = g.basic b)
include hreg hD hx

/-- An entity is given a value, or none. -/
theorem ends_assign {v : Option (V b)} (he : e < (g.basic b).count r.director.solution) (h : r.Abides D) :
    Ends (x.assign e v) r
      (fun _ r' => (r'.Abides D ∧ r.Rests loud r') ∧
        g.content r'.director.solution = (g.content r.director.solution).setValue b e v ∧
        facts r'.director.solution = facts r.director.solution)
      fun _ r' => r.Rests loud r' := by
  have hedit : Steady D loud (x.assign e v : Running S k Unit) := steady_assign hx hD.toPreserves e v
  rw [assign_eq hx] at hedit ⊢
  have hset : Ends (Running.edit (Director.assign (g.basic b) e v)) r (fun _ r' =>
      g.content r'.director.solution = (g.content r.director.solution).setValue b e v ∧
        facts r'.director.solution = facts r.director.solution) fun _ _ => True := by
    simp only [Running.edit, ends_direct]
    refine ⟨fun dir _ hd => ?_, fun _ _ => trivial⟩
    obtain ⟨dir₁, h₁, hpure⟩ := bind_eq_ok_iff.1 hd
    cases hpure
    obtain ⟨dir₂, h₂, hafter⟩ := bind_eq_ok_iff.1 h₁
    rw [Director.beforeVariableChanged, Director.forget_eq] at h₂
    obtain ⟨hs₂, heq₂⟩ := Director.edit_eq h₂
    obtain ⟨changed, hcascade, -⟩ := Director.afterVariableChanged_eq hafter
    have hshadows : dir₂.shadows = shadows := by rw [heq₂, ← hD.shadows h.director]
    rw [hshadows] at hcascade
    have hall : shadows.cascadeAll (fun d => dir₂.variableIndex? d (g.basic b).name) dir₂.solution
        [((g.basic b).entityClass, e)] = .ok dir.solution :=
      ShadowCascade.cascadeAll_cons_eq_ok_iff.2 ⟨_, changed, hcascade, rfl⟩
    have hlike := Director.alike_of_cascadeAll hreg hall
    have hset : (g.basic b).set r.director.solution e v = dir₂.solution := Except.ok.inj hs₂
    rw [hlike.content, hlike.facts, ← hset]
    exact ⟨hreg.lawful.set_basic b _ e v he, hreg.governed.set_basic b _ e v⟩
  exact ((hedit r h).and hset).mono (fun _ _ => id) fun _ _ => And.left

variable (hopen : c.Vacant b entities)
include hopen

/-- The next entity is given a value. -/
theorem ends_assign_some (h : Stands g facts D c f b entities path r) (he : entities[path.length]? = some e) (v : V b) :
    Ends (x.assign e (some v)) r (fun _ r' => Stands g facts D c f b entities (path ++ [v]) r' ∧ r.Rests loud r')
      fun _ r' => r.Rests loud r' := by
  refine (ends_assign hreg hD hx (h.lt hopen he) h.abides).mono (fun _ r' hr' => ?_) fun _ _ => id
  obtain ⟨⟨habides, hrest⟩, hcontent, hfacts⟩ := hr'
  rw [h.content, Content.setValue_fill hopen.nodup he] at hcontent
  exact ⟨⟨habides, hcontent, hfacts.trans h.facts⟩, hrest⟩

/-- The last entity with a value loses it. -/
theorem ends_assign_none (h : Stands g facts D c f b entities (path ++ [v]) r)
    (he : entities[path.length]? = some e) :
    Ends (x.assign e none) r (fun _ r' => Stands g facts D c f b entities path r' ∧ r.Rests loud r')
      fun _ r' => r.Rests loud r' := by
  refine (ends_assign hreg hD hx (h.lt hopen he) h.abides).mono (fun _ r' hr' => ?_) fun _ _ => id
  obtain ⟨⟨habides, hrest⟩, hcontent, hfacts⟩ := hr'
  rw [h.content, Content.setValue_none_fill hopen.nodup he] at hcontent
  exact ⟨⟨habides, hcontent, hfacts.trans h.facts⟩, hrest⟩

/-- The working solution goes back to the first values of a path. -/
theorem ends_rewind {n : Nat} (h : Stands g facts D c f b entities path r) (hn : n ≤ path.length)
    (hlength : path.length ≤ entities.length) :
    Ends (x.rewind ((entities.take path.length).drop n)) r
      (fun _ r' => Stands g facts D c f b entities (path.take n) r' ∧ r.Rests loud r')
      fun _ r' => r.Rests loud r' := by
  induction path using List.reverseRecOn generalizing r with
  | nil =>
    rw [List.length_nil, List.take_zero, List.drop_nil, List.take_nil]
    exact ⟨h, refl_of _ r⟩
  | append_singleton path v ih =>
    rw [List.length_append, List.length_singleton] at hn hlength
    have he : entities[path.length]? = some entities[path.length] := List.getElem?_eq_getElem hlength
    by_cases hall : n = path.length + 1
    · have hnone : (entities.take (path ++ [v]).length).drop n = [] := by
        rw [List.drop_eq_nil_iff, List.length_take, List.length_append, List.length_singleton]
        omega
      rw [hnone, List.take_of_length_le (by simp [hall])]
      exact ⟨h, refl_of _ r⟩
    · have hlast : (entities.take (path ++ [v]).length).drop n =
          (entities.take path.length).drop n ++ [entities[path.length]] := by
        rw [List.length_append, List.length_singleton, List.take_succ_eq_append_getElem hlength,
          List.drop_append_of_le_length (by rw [List.length_take]; omega)]
      rw [hlast, rewind, List.reverse_append, List.reverse_singleton, List.singleton_append]
      change Ends (x.assign _ none >>= fun _ => x.rewind _) r _ _
      rw [ends_bind]
      refine (ends_assign_none hreg hD hx hopen h he).mono (fun _ r₁ hr₁ => ?_) fun _ _ => id
      refine (ih hr₁.1 (by omega) (by omega)).mono (fun _ r₂ hr₂ => ?_) fun _ _ => trans_of _ hr₁.2
      rw [List.take_append_of_le_length (by omega)]
      exact ⟨hr₂.1, trans_of _ hr₁.2 hr₂.2⟩

/-- The working solution goes on to the last values of a path. -/
theorem ends_advance {n : Nat} (h : Stands g facts D c f b entities (path.take n) r) (hn : n ≤ path.length)
    (hlength : path.length ≤ entities.length) :
    Ends (x.advance ((entities.zip path).drop n)) r
      (fun _ r' => Stands g facts D c f b entities path r' ∧ r.Rests loud r')
      fun _ r' => r.Rests loud r' := by
  induction hk : path.length - n generalizing n r with
  | zero =>
    have hnone : (entities.zip path).drop n = [] := by
      rw [List.drop_eq_nil_iff, List.length_zip]
      omega
    rw [hnone]
    rw [List.take_of_length_le (by omega)] at h
    exact ⟨h, refl_of _ r⟩
  | succ m ih =>
    have hlt : n < path.length := by omega
    have hfirst : (entities.zip path).drop n = (entities[n], path[n]) :: (entities.zip path).drop (n + 1) := by
      rw [List.drop_eq_getElem_cons (by rw [List.length_zip]; omega), List.getElem_zip]
    have he : entities[(path.take n).length]? = some entities[n] := by
      rw [List.length_take, Nat.min_eq_left hn]
      exact List.getElem?_eq_getElem _
    rw [hfirst]
    change Ends (x.assign _ (some _) >>= fun _ => x.advance _) r _ _
    rw [ends_bind]
    refine (ends_assign_some hreg hD hx hopen h he path[n]).mono (fun _ r₁ hr₁ => ?_) fun _ _ => id
    rw [List.take_append_getElem hlt] at hr₁
    exact (ih hr₁.1 hlt (by omega)).mono (fun _ r₂ hr₂ => ⟨hr₂.1, trans_of _ hr₁.2 hr₂.2⟩) fun _ _ => trans_of _ hr₁.2

/-- The working solution goes from a path to another. -/
theorem ends_moveTo {target : List (V b)} (h : Stands g facts D c f b entities path r)
    (hlength : path.length ≤ entities.length) (htarget : target.length ≤ entities.length) :
    Ends (x.moveTo entities path target) r
      (fun _ r' => Stands g facts D c f b entities target r' ∧ r.Rests loud r')
      fun _ r' => r.Rests loud r' := by
  obtain ⟨hle, hle'⟩ := shared_le path target
  simp only [moveTo, ends_bind]
  refine (ends_rewind hreg hD hx hopen h hle hlength).mono (fun _ r₁ hr₁ => ?_) fun _ _ => id
  rw [take_shared] at hr₁
  exact (ends_advance hreg hD hx hopen hr₁.1 hle' htarget).mono (fun _ r₂ hr₂ => ⟨hr₂.1, trans_of _ hr₁.2 hr₂.2⟩)
    fun _ _ => trans_of _ hr₁.2

omit hx hopen hD [∀ b, PlanningValue (V b)] [∀ b, DecidableEq (V b)] [∀ l, PlanningValue (W l)]
  [∀ l, DecidableEq (W l)] in
/-- A stored score leaves the working solution where it stands. -/
theorem Stands.stored (h : Stands g facts D c f b entities path r) {r' : RunState S k} (habides : r'.Abides D)
    (hs : r'.director.solution = r.director.solution ∨
      ∃ score, r'.director.solution = PlanningSolution.withScore r.director.solution score) :
    Stands g facts D c f b entities path r' := by
  have hlike := Director.alike_of_stored hreg hs
  exact ⟨habides, hlike.content.trans h.content, hlike.facts.trans h.facts⟩

omit hreg hx hopen [DecidableEq L] in
/-- The score of the working solution is that of every solution with the values of the path. -/
theorem Stands.foretells (h : Stands g facts D c f b entities path r) {score : Score k}
    (hscore : score = F r.director.solution) : Foretells g facts D F c f b entities path score := by
  intro dir hdir hcontent hfacts
  rw [hscore]
  exact hD.settled hdir h.abides.director ⟨hcontent.trans h.content.symm, hfacts.trans h.facts.symm⟩

omit hx hopen in
/-- Asking for the score leaves the working solution where it stands, and tells the score of the path. -/
theorem ends_calculate_stands (h : Stands g facts D c f b entities path r) :
    Ends calculate r (fun score r' => Stands g facts D c f b entities path r' ∧ r.Rests loud r' ∧
      Foretells g facts D F c f b entities path score) fun _ r' => r.Rests loud r' := by
  refine ((ends_calculate_right hD.toScores h.abides).and ends_calculate_stored).mono (fun score r' hr' => ?_) fun _ _ => And.left
  obtain ⟨⟨habides, hrest, hscore⟩, hs⟩ := hr'
  have hstands := h.stored hreg habides hs
  exact ⟨hstands, hrest, hstands.foretells hD hscore⟩

omit hx hopen in
/-- Checking the score after a step leaves the working solution where it stands. -/
theorem ends_assertStep_stands (h : Stands g facts D c f b entities path r) :
    Ends assertStep r (fun _ r' => Stands g facts D c f b entities path r' ∧ r.Rests loud r')
      fun _ r' => r.Rests loud r' := by
  refine ((Steady.assertStep hD.toPreserves r h.abides).and ends_assertStep_stored).mono (fun _ r' hr' => ?_) fun _ _ => And.left
  exact ⟨h.stored hreg hr'.1.1 hr'.2, hr'.1.2⟩

/-- The score with a value of the next entity is that of the path with the value. -/
theorem ends_scoreWith (h : Stands g facts D c f b entities path r) (he : entities[path.length]? = some e) (v : V b) :
    Ends (x.scoreWith e v) r (fun score r' => Stands g facts D c f b entities path r' ∧ r.Rests loud r' ∧
      Foretells g facts D F c f b entities (path ++ [v]) score) fun _ r' => r.Rests loud r' := by
  simp only [scoreWith, ends_bind, ends_pure]
  refine (ends_assign_some hreg hD hx hopen h he v).mono (fun _ r₁ hr₁ => ?_) fun _ _ => id
  refine (ends_calculate_stands hreg hD hr₁.1).mono (fun score r₂ hr₂ => ?_) fun _ _ => trans_of _ hr₁.2
  obtain ⟨hstands₂, hrest₂, hscore⟩ := hr₂
  have hrest₂ := trans_of _ hr₁.2 hrest₂
  refine (ends_assign_none hreg hD hx hopen hstands₂ he).mono (fun _ r₃ hr₃ => ?_) fun _ _ => trans_of _ hrest₂
  have hrest₃ := trans_of _ hrest₂ hr₃.2
  rw [ends_recordMove]
  refine ⟨fun n _ => ⟨?_, ⟨hrest₃.best, hrest₃.history⟩, hscore⟩, fun _ _ => hrest₃⟩
  exact ⟨⟨hr₃.1.abides.director, hr₃.1.abides.pending, hr₃.1.abides.asked⟩, hr₃.1.content, hr₃.1.facts⟩

end

/-- A node has a path for the entities and its score. -/
structure Known (g : Genuine S V W) (facts : S → T) (D : Director S k → Prop) (F : S → Score k) (c : Content V W) (f : T)
    (b : B) (entities : List Nat) (node : SearchNode (V b) k) : Prop where
  /-- There is an entity for each value. -/
  length : node.path.length ≤ entities.length
  /-- The score is that of the path. -/
  score : Foretells g facts D F c f b entities node.path node.score

/-- A search knows its open nodes and where the working solution stands. -/
structure Explores (g : Genuine S V W) (facts : S → T) (D : Director S k → Prop) (F : S → Score k) (c : Content V W)
    (f : T) (b : B) (entities : List Nat) (st : TreeState (V b) k) (r : RunState S k) : Prop where
  /-- The working solution has the current values. -/
  stands : Stands g facts D c f b entities st.current r
  /-- There is an entity for each current value. -/
  length : st.current.length ≤ entities.length
  /-- The open nodes are known. -/
  known : ∀ node ∈ st.frontier, Known g facts D F c f b entities node

section

variable (hreg : g.Regular facts shadows) (hD : Settles g facts shadows D F) (hx : x.planned = g.basic b)
variable (hopen : c.Vacant b entities) {node : SearchNode (V b) k}
include hreg hD hx hopen

/-- The children of a node are known. -/
theorem ends_children {best : Option (SearchNode (V b) k)} {sequence : Nat} {vs : List (V b)}
    (h : Stands g facts D c f b entities node.path r) (he : entities[node.path.length]? = some e) :
    Ends (x.children e node best sequence vs) r
      (fun out r' => Stands g facts D c f b entities node.path r' ∧ r.Rests loud r' ∧
        ∀ a ∈ out.1, Known g facts D F c f b entities a)
      fun _ r' => r.Rests loud r' := by
  have hlt : node.path.length < entities.length := (List.getElem?_eq_some_iff.1 he).1
  induction vs generalizing sequence r with
  | nil => exact ⟨h, refl_of _ r, fun _ ha => absurd ha List.not_mem_nil⟩
  | cons v vs ih =>
    simp only [children, ends_bind, ends_ite, ends_checked, ends_pure]
    refine (ends_scoreWith hreg hD hx hopen h he v).mono (fun score r₁ hr₁ => ?_) fun _ _ => id
    obtain ⟨hstands₁, hrest₁, hscore⟩ := hr₁
    refine ⟨fun _ => ?_, fun _ => ⟨fun n _ => ?_, fun _ _ => hrest₁⟩⟩
    · refine (ih hstands₁).mono (fun out r₂ hr₂ => ?_) fun _ _ => trans_of _ hrest₁
      exact ⟨hr₂.1, trans_of _ hrest₁ hr₂.2.1, hr₂.2.2⟩
    · refine (ih hstands₁).mono (fun out r₂ hr₂ => ?_) fun _ _ => trans_of _ hrest₁
      refine ⟨hr₂.1, trans_of _ hrest₁ hr₂.2.1, List.forall_mem_cons.2 ⟨⟨?_, hscore⟩, hr₂.2.2⟩⟩
      rw [List.length_append, List.length_singleton]
      omega

variable [LawfulSolution S k] {st : TreeState (V b) k}

omit hreg hx hopen [DecidableEq L] in
/-- A complete assignment is looked at where its score is that of the working solution. -/
theorem ends_visitLeaf (h : Stands g facts D c f b entities node.path r) (hnode : Known g facts D F c f b entities node) :
    Ends (visitLeaf node st) r
      (fun st' r' => Stands g facts D c f b entities node.path r' ∧ Track F r r' ∧ st'.frontier = st.frontier ∧
        st'.current = st.current)
      fun _ r' => Track F r r' := by
  have hscore : node.score = F r.director.solution := (hnode.score _ h.abides.director h.content h.facts).symm
  have hend : ∀ {r₁ : RunState S k}, Stands g facts D c f b entities node.path r₁ → Track F r r₁ →
      Ends (stepEnded node.score) r₁ (fun _ r' => Stands g facts D c f b entities node.path r' ∧ Track F r r')
        fun _ r' => Track F r r' := by
    intro r₁ hstands htrack
    refine (ends_stepEnded_right hD.toPreserves hstands.abides node.score).mono (fun _ r' hr' => ?_)
      fun _ _ hrest => .tail htrack (.rest hrest)
    obtain ⟨habides, hrest, hsame⟩ := hr'
    exact ⟨⟨habides, by rw [hsame, hstands.content], by rw [hsame, hstands.facts]⟩, .tail htrack (.rest hrest)⟩
  simp only [visitLeaf, ends_bind, ends_ite, ends_discard, ends_pure]
  refine ⟨fun hbetter => ?_, fun hworse => ?_⟩
  · refine ((ends_updateBestWith_track hD.toScores h.abides hscore).and
      (ends_updateBestWith_same (E := fun _ _ => True))).mono (fun _ r₁ hr₁ => ?_) fun _ _ => And.left
    obtain ⟨⟨habides, htrack⟩, hsame⟩ := hr₁
    have hstands : Stands g facts D c f b entities node.path r₁ :=
      ⟨habides, by rw [hsame, h.content], by rw [hsame, h.facts]⟩
    refine (hend hstands htrack).mono (fun _ r₂ hr₂ => ⟨hr₂.1, hr₂.2, ?_⟩) fun _ _ => id
    rw [if_pos hbetter]
    exact ⟨rfl, rfl⟩
  · refine (hend h .refl).mono (fun _ r₂ hr₂ => ⟨hr₂.1, hr₂.2, ?_⟩) fun _ _ => id
    rw [if_neg hworse]
    exact ⟨rfl, rfl⟩

omit [LawfulSolution S k] in
/-- An assignment of the first entities is looked at. -/
theorem ends_visitInner (h : Stands g facts D c f b entities node.path r) (he : entities[node.path.length]? = some e)
    (hst : ∀ a ∈ st.frontier, Known g facts D F c f b entities a) :
    Ends (x.visitInner e node st) r
      (fun st' r' => Stands g facts D c f b entities node.path r' ∧ Track F r r' ∧
        (∀ a ∈ st'.frontier, Known g facts D F c f b entities a) ∧ st'.current = st.current)
      fun _ r' => Track F r r' := by
  have hrested : ∀ {r' : RunState S k}, r.Rests RunEvent.isBest r' → Track F r r' := fun hrest => .single (.rest hrest)
  simp only [visitInner, ends_bind, ends_get, ends_checked, ends_pure]
  refine ⟨fun values _ => ?_, fun _ _ => .refl⟩
  refine (ends_children hreg hD hx hopen h he).mono (fun out r₁ hr₁ => ?_) fun _ _ => hrested
  obtain ⟨hstands₁, hrest₁, hchildren⟩ := hr₁
  refine (ends_stepEnded_right hD.toPreserves hstands₁.abides node.score).mono (fun _ r₂ hr₂ => ?_)
    fun _ _ hrest => hrested (trans_of _ hrest₁ hrest)
  obtain ⟨habides₂, hrest₂, hsame₂⟩ := hr₂
  have hrest₂ := trans_of _ hrest₁ hrest₂
  have hstands₂ : Stands g facts D c f b entities node.path r₂ :=
    ⟨habides₂, by rw [hsame₂, hstands₁.content], by rw [hsame₂, hstands₁.facts]⟩
  refine (ends_assertStep_stands hreg hD hstands₂).mono (fun _ r₃ hr₃ => ?_)
    fun _ _ hrest => hrested (trans_of _ hrest₂ hrest)
  refine ⟨hr₃.1, hrested (trans_of _ hrest₂ hr₃.2), fun a ha => ?_, trivial⟩
  exact (SearchNode.mem_expand ha).elim (hchildren a) (hst a)

/-- A node is looked at. -/
theorem ends_visit (h : Explores g facts D F c f b entities st r) (hnode : Known g facts D F c f b entities node) :
    Ends (x.visit entities node st) r (fun st' r' => Explores g facts D F c f b entities st' r' ∧ Track F r r')
      fun _ r' => Track F r r' := by
  have hrested : ∀ {r' : RunState S k}, r.Rests RunEvent.isBest r' → Track F r r' := fun hrest => .single (.rest hrest)
  simp only [visit, ends_bind]
  refine (ends_stepStarted_right hD.toPreserves h.stands.abides).mono (fun _ r₁ hr₁ => ?_) fun _ _ => hrested
  obtain ⟨habides₁, hrest₁, hsame₁⟩ := hr₁
  have hstands₁ : Stands g facts D c f b entities st.current r₁ :=
    ⟨habides₁, by rw [hsame₁, h.stands.content], by rw [hsame₁, h.stands.facts]⟩
  refine (ends_moveTo hreg hD hx hopen hstands₁ h.length hnode.length).mono (fun _ r₂ hr₂ => ?_)
    fun _ _ hrest => hrested (trans_of _ hrest₁ hrest)
  have htrack₂ := hrested (trans_of _ hrest₁ hr₂.2)
  split
  · refine (ends_visitLeaf hD hr₂.1 hnode).mono (fun st' r₃ hr₃ => ?_) fun _ _ => .trans htrack₂
    obtain ⟨hstands, htrack, hfrontier, hcurrent⟩ := hr₃
    refine ⟨⟨?_, ?_, ?_⟩, .trans htrack₂ htrack⟩
    · rw [hcurrent]
      exact hstands
    · rw [hcurrent]
      exact hnode.length
    · rw [hfrontier]
      exact h.known
  · rename_i e he
    have hopened : ∀ a ∈ ({ st with current := node.path, nodes := st.nodes + 1 } : TreeState (V b) k).frontier,
        Known g facts D F c f b entities a := h.known
    refine (ends_visitInner hreg hD hx hopen hr₂.1 he hopened).mono (fun st' r₃ hr₃ => ?_) fun _ _ => .trans htrack₂
    obtain ⟨hstands, htrack, hknown, hcurrent⟩ := hr₃
    refine ⟨⟨?_, ?_, hknown⟩, .trans htrack₂ htrack⟩
    · rw [hcurrent]
      exact hstands
    · rw [hcurrent]
      exact hnode.length

/-- Looking at nodes keeps track of the best solution. -/
theorem ends_visits {fuel : Nat} (h : Explores g facts D F c f b entities st r) :
    Ends (x.visits entities fuel st) r (fun _ r' => r'.Abides D ∧ Track F r r') fun _ r' => Track F r r' := by
  induction fuel generalizing st r with
  | zero => exact .refl
  | succ fuel ih =>
    unfold visits
    split
    · exact ⟨h.stands.abides, .refl⟩
    · rename_i node rest hfrontier
      have hknown := h.known
      rw [hfrontier] at hknown
      obtain ⟨hnode, hrest⟩ := List.forall_mem_cons.1 hknown
      have hnext : Explores g facts D F c f b entities { st with frontier := rest } r := ⟨h.stands, h.length, hrest⟩
      simp only [isStopped, ends_bind, ends_get, ends_pure, ends_ite]
      refine ⟨fun _ => ⟨h.stands.abides, .refl⟩, fun _ => ⟨fun _ => ih hnext, fun _ => ?_⟩⟩
      refine (ends_visit hreg hD hx hopen hnext hnode).mono (fun st' r₁ hr₁ => ?_) fun _ _ => id
      exact (ih hr₁.1).mono (fun _ r₂ hr₂ => ⟨hr₂.1, .trans hr₁.2 hr₂.2⟩) fun _ _ => .trans hr₁.2

end

omit [PlanningSolution S k] [DecidableEq B] [DecidableEq L] [∀ b, PlanningValue (V b)] [∀ b, DecidableEq (V b)]
  [∀ l, PlanningValue (W l)] [∀ l, DecidableEq (W l)] in
/-- The entities that are searched through have no value. -/
theorem vacant_unassigned (b : B) (s : S) : (g.content s).Vacant b ((g.basic b).unassigned s) := by
  have hmem : ∀ e ∈ (g.basic b).unassigned s, e < (g.basic b).count s ∧ (g.basic b).get? s e = none := by
    intro e he
    obtain ⟨hlt, he⟩ := List.mem_filter.1 he
    rw [Bool.and_eq_true, Option.isNone_iff_eq_none] at he
    exact ⟨List.mem_range.1 hlt, he.1⟩
  exact ⟨List.nodup_range.filter _, fun e he => (hmem e he).1, fun e he => (hmem e he).2⟩

variable (hreg : g.Regular facts shadows) (hD : Settles g facts shadows D F) (hx : x.planned = g.basic b)
include hreg hD hx

variable [LawfulSolution S k]

/-- The search through the assignments of some entities keeps track of the best solution. -/
theorem ends_search (hopen : (g.content r.director.solution).Vacant b entities) (h : r.Abides D) :
    Ends (x.search entities) r (fun _ r' => r'.Abides D ∧ Track F r r') fun _ r' => Track F r r' := by
  have hstart : Stands g facts D (g.content r.director.solution) (facts r.director.solution) b entities [] r :=
    ⟨h, (Content.fill_nil hopen.none).symm, rfl⟩
  simp only [search, ends_bind, ends_discard]
  refine (ends_calculate_stands hreg hD hstart).mono (fun score r₁ hr₁ => ?_) fun _ _ hrest => .single (.rest hrest)
  obtain ⟨hstands, hrest, hscore⟩ := hr₁
  have hroot : Explores g facts D F (g.content r.director.solution) (facts r.director.solution) b entities
      { frontier := [⟨[], score, 0⟩] } r₁ :=
    ⟨hstands, Nat.zero_le _, List.forall_mem_singleton.2 ⟨Nat.zero_le _, hscore⟩⟩
  have htrack : Track F r r₁ := .single (.rest hrest)
  refine (ends_visits hreg hD hx hopen hroot).mono (fun st r₂ hr₂ => ?_) fun _ _ => .trans htrack
  -- The working solution goes to the best assignment, which leaves the best solution alone.
  have hclose : Leads (Abides D) (Track F) (do
      x.moveTo entities st.current ((st.best.map SearchNode.path).getD [])
      discard calculate
      report .debug "exhaustive_search_done" fun _ => [("nodes", .number st.nodes),
        ("best_score", .shown (Text.optional (fun b => b.score.debugText) st.best))] : Running S k Unit) :=
    .bind (steady_moveTo hx hD.toPreserves _ _ _).track fun _ => .bind (Steady.calculate hD.toPreserves).track.discard fun _ =>
      (Steady.report hD.journal _ _ _).track
  have hclosed := hclose r₂ hr₂.1
  simp only [ends_bind, ends_discard] at hclosed
  have htrack₂ := htrack.trans hr₂.2
  exact hclosed.mono (fun _ r₃ hr₃ => hr₃.mono (fun _ r₄ hr₄ => hr₄.mono (fun _ r₅ hr₅ => ⟨hr₅.1, htrack₂.trans hr₅.2⟩)
    fun _ _ => htrack₂.trans) fun _ _ => htrack₂.trans) fun _ _ => htrack₂.trans

/-- An exhaustive search keeps track of the best solution. -/
theorem track_run : Leads (Abides D) (Track F) x.run := by
  intro r h
  simp only [run, ends_bind, ends_get, ends_ite, ends_pure]
  refine ⟨fun _ => ⟨h, .refl⟩, fun _ => ⟨fun _ => (Steady.report hD.journal _ _ _).track r h, fun _ => ?_⟩⟩
  rw [hx]
  exact ends_search hreg hD hx (vacant_unassigned b _) h

end ExhaustiveSearch

end Planning
