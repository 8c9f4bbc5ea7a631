import Mathlib.Logic.Relation
import Planning.Proofs.Run.Basic

/-!
# Where computations lead

From runs with some property a computation leads to runs with that property again, which are related to the runs
before. The relation also holds where the computation stops the run. As the relation is reflexive and transitive, what
is made of such computations is such a computation.
-/

namespace Planning.Running

variable {S : Type} {k : ScoreKind} {α β : Type}
variable {x : Running S k α} {f : α → Running S k β} {r : RunState S k}
variable {I : RunState S k → Prop} {R : RunState S k → RunState S k → Prop} {P : α → Prop}

/-- From runs with a property a computation leads to runs with it, and relates runs before and after it. -/
def Leads (I : RunState S k → Prop) (R : RunState S k → RunState S k → Prop) (x : Running S k α) : Prop :=
  ∀ r, I r → Ends x r (fun _ r' => I r' ∧ R r r') fun _ r' => R r r'

/-- What comes of a computation has a property. -/
def Gives (P : α → Prop) (x : Running S k α) : Prop := ∀ r, Ends x r (fun a _ => P a) fun _ _ => True

/-- What comes of a computation that follows another. -/
theorem Gives.bind {P : β → Prop} (hf : ∀ a, Gives P (f a)) : Gives P (x >>= f) := by
  intro r
  rw [ends_bind]
  exact (ends_trivial x r).mono (fun a r' _ => hf a r') fun _ _ => id

namespace Leads

/-- A relation that follows is led to as well. -/
theorem mono {R' : RunState S k → RunState S k → Prop} (h : Leads I R x) (hR : ∀ r r', R r r' → R' r r') :
    Leads I R' x := fun r hr => (h r hr).mono (fun _ _ => And.imp_right (hR _ _)) fun _ _ => hR _ _

section Changes

/-- A run that is changed. -/
theorem modify {g : RunState S k → RunState S k} (h : ∀ r, I r → I (g r) ∧ R r (g r)) :
    Leads I R (modify g : Running S k PUnit) := h

variable [Std.Refl R]

/-- A run that is left as it is. -/
theorem pure (a : α) : Leads I R (Pure.pure a : Running S k α) := fun r hr => ⟨hr, refl_of R r⟩

theorem get : Leads I R (MonadState.get : Running S k (RunState S k)) := fun r hr => ⟨hr, refl_of R r⟩

theorem throw (e : Stop) : Leads I R (MonadExcept.throw e : Running S k α) := fun r _ => refl_of R r

theorem fail (e : SolverError) : Leads I R (fail e : Running S k α) := .throw _

theorem checked (y : Checked α) : Leads I R (checked y : Running S k α) := by
  cases y with
  | ok a => exact .pure a
  | error e => exact .throw (.faulted e)

/-- What the director does leads to a run with another director. -/
theorem direct {d : Director S k → Checked (Director S k × α)}
    (h : ∀ r dir a, I r → d r.director = .ok (dir, a) →
      I { r with director := dir } ∧ R r { r with director := dir }) : Leads I R (direct d) := by
  intro r hr
  rw [ends_direct]
  exact ⟨fun dir a hd => h r dir a hr hd, fun _ _ => refl_of R r⟩

/-- What is drawn leads to a run with other random numbers. -/
theorem draw {y : Generator.Draw α}
    (h : ∀ r g, I r → I { r with generator := g } ∧ R r { r with generator := g }) :
    Leads I R (draw y : Running S k α) := by
  intro r hr
  rw [ends_draw]
  exact ⟨fun _ g _ => h r g hr, fun _ _ => refl_of R r⟩

end Changes

theorem discard (hx : Leads I R x) : Leads I R (discard x) := by
  intro r hr
  rw [ends_discard]
  exact hx r hr

theorem ite {c : Prop} [Decidable c] {y : Running S k α} (hx : Leads I R x) (hy : Leads I R y) :
    Leads I R (if c then x else y) := by
  split
  · exact hx
  · exact hy

section Sequences

variable [IsPreorder _ R]

/-- A computation is followed by one that may rely on what the first gave. -/
theorem bindOf (hx : Leads I R x) (hP : Gives P x) (hf : ∀ a, P a → Leads I R (f a)) : Leads I R (x >>= f) := by
  intro r hr
  rw [ends_bind]
  refine ((hx r hr).and (hP r)).mono (fun a r' hr' => ?_) fun _ _ => And.left
  obtain ⟨⟨hI, hR⟩, ha⟩ := hr'
  exact (hf a ha r' hI).mono (fun _ r'' hr'' => ⟨hr''.1, trans_of R hR hr''.2⟩) fun _ r'' => trans_of R hR

/-- A computation is followed by another. -/
theorem bind (hx : Leads I R x) (hf : ∀ a, Leads I R (f a)) : Leads I R (x >>= f) :=
  hx.bindOf (P := fun _ => True) (ends_trivial x) fun a _ => hf a

/-- Computations for members one after another. -/
theorem forM {γ : Type} {l : List γ} {body : γ → Running S k PUnit} (h : ∀ a ∈ l, Leads I R (body a)) :
    Leads I R (l.forM body) := by
  induction l with
  | nil => exact .pure _
  | cons a l ih =>
    obtain ⟨ha, hl⟩ := List.forall_mem_cons.1 h
    exact .bind ha fun _ => ih hl

/-- Computations that give something for members one after another. -/
theorem mapM {γ δ : Type} {l : List γ} {body : γ → Running S k δ} (h : ∀ a ∈ l, Leads I R (body a)) :
    Leads I R (l.mapM body) := by
  induction l with
  | nil => exact .pure _
  | cons a l ih =>
    obtain ⟨ha, hl⟩ := List.forall_mem_cons.1 h
    rw [List.mapM_cons]
    exact .bind ha fun _ => .bind (ih hl) fun _ => .pure _

/-- Members are sorted out one after another. -/
theorem filterM {γ : Type} {l : List γ} {body : γ → Running S k Bool} (h : ∀ a ∈ l, Leads I R (body a)) :
    Leads I R (l.filterM body) := by
  have haux : ∀ kept, Leads I R (l.filterAuxM body kept) := by
    induction l with
    | nil => exact fun _ => .pure _
    | cons a l ih =>
      obtain ⟨ha, hl⟩ := List.forall_mem_cons.1 h
      exact fun _ => .bind ha fun _ => ih hl _
  exact .bind (haux []) fun _ => .pure _

end Sequences

end Leads

end Planning.Running

/-!
## Computations that can only fault

Most of what is done in a run fails with no error: the run goes on, or a fault stops it. What is made of such
computations is such a computation.
-/

namespace Planning

/-- A run stopped at a fault, or at a score that was found wrong. -/
def Stop.IsMishap (e : Stop) : Prop := (∃ f, e = .faulted f) ∨ ∃ c, e = .failed (.scoreCorruption c)

namespace Running

variable {S : Type} {k : ScoreKind} {α β : Type} {x y : Running S k α} {f : α → Running S k β}

/-- Nothing but a fault stops a computation. -/
def Unfailing (x : Running S k α) : Prop :=
  ∀ r, Ends x r (fun _ _ => True) fun e _ => ∃ f, e = .faulted f

namespace Unfailing

theorem pure (a : α) : Unfailing (Pure.pure a : Running S k α) := fun _ => trivial

theorem get : Unfailing (MonadState.get : Running S k (RunState S k)) := fun _ => trivial

theorem modify (g : RunState S k → RunState S k) : Unfailing (modify g : Running S k PUnit) := fun _ => trivial

theorem checked (y : Checked α) : Unfailing (checked y : Running S k α) := by
  intro r
  rw [ends_checked]
  exact ⟨fun _ _ => trivial, fun f _ => ⟨f, rfl⟩⟩

theorem direct (d : Director S k → Checked (Director S k × α)) : Unfailing (direct d) := by
  intro r
  rw [ends_direct]
  exact ⟨fun _ _ _ => trivial, fun f _ => ⟨f, rfl⟩⟩

/-- A computation is followed by another. -/
theorem bind (hx : Unfailing x) (hf : ∀ a, Unfailing (f a)) : Unfailing (x >>= f) := by
  intro r
  rw [ends_bind]
  exact (hx r).mono (fun a r' _ => hf a r') fun _ _ => id

theorem discard (hx : Unfailing x) : Unfailing (discard x) := by
  intro r
  rw [ends_discard]
  exact hx r

theorem ite {c : Prop} [Decidable c] (hx : Unfailing x) (hy : Unfailing y) : Unfailing (if c then x else y) := by
  split
  · exact hx
  · exact hy

/-- Computations for members one after another. -/
theorem forM {γ : Type} {l : List γ} {body : γ → Running S k PUnit} (h : ∀ a ∈ l, Unfailing (body a)) :
    Unfailing (l.forM body) := fun _ =>
  Ends.forM (I := fun _ => True) (fun a ha r _ => h a ha r) trivial

theorem logAt (level : LogLevel) (e : Unit → LogEvent) : Unfailing (logAt level e : Running S k Unit) :=
  fun _ => .logAt fun _ _ => trivial

theorem recordMove (accepted : Bool) : Unfailing (recordMove accepted : Running S k Unit) := by
  intro r
  rw [ends_recordMove]
  exact ⟨fun _ _ => trivial, fun f _ => ⟨f, rfl⟩⟩

variable [PlanningSolution S k]

theorem tell (e : RunEvent S k) : Unfailing (tell e) := fun _ => .tell fun _ _ => trivial

theorem calculate : Unfailing (calculate : Running S k (Score k)) := fun _ => ends_calculate_fault

theorem stepStarted : Unfailing (stepStarted : Running S k Unit) := .bind .get fun _ => tell _

theorem stepEnded (score : Score k) : Unfailing (stepEnded score : Running S k Unit) :=
  fun _ => .stepEnded (fun _ _ _ _ _ => trivial) fun f _ _ => ⟨f, rfl⟩

theorem updateBestWith (score : Score k) : Unfailing (updateBestWith score : Running S k Bool) :=
  fun _ => .updateBestWith (fun _ => .setBest fun _ _ _ _ => trivial) fun _ => trivial

theorem setBest (t : S) (score : Score k) : Unfailing (setBest t score : Running S k Unit) :=
  fun _ => .setBest fun _ _ _ _ => trivial

omit [PlanningSolution S k] in
theorem applyChange (c : ProblemChange S k) : Unfailing (applyChange c) := by
  refine .bind (.direct _) fun refusal => ?_
  cases refusal with
  | none => exact .bind (.logAt _ _) fun _ => .pure _
  | some e => exact .bind (.logAt _ _) fun _ => .pure _

omit [PlanningSolution S k] in
theorem filterM {γ : Type} {l : List γ} {body : γ → Running S k Bool} (h : ∀ a ∈ l, Unfailing (body a)) :
    Unfailing (l.filterM body) := fun _ =>
  Ends.filterM (J := fun _ _ => True) (fun a ha _ r _ => h a ha r) trivial

theorem takeChanges : Unfailing (takeChanges : Running S k Nat) := by
  refine .bind .get fun r => .ite (.pure _) (.bind (.modify _) fun _ => ?_)
  refine .bind (.filterM fun c _ => applyChange c) fun made => .ite (.pure _) (.bind calculate fun score => ?_)
  exact .bind .get fun _ => .bind (setBest _ _) fun _ => .bind (.logAt _ _) fun _ => .pure _

end Unfailing

/-- Checking the score after a step stops the run only by a mishap. -/
theorem ends_assertStep_mishap [PlanningSolution S k] {r : RunState S k} :
    Ends assertStep r (fun _ _ => True) fun e _ => e.IsMishap := by
  simp only [ends_assertStep, ends_assertScore]
  exact ⟨fun _ => ⟨fun _ _ _ => trivial, fun _ c _ => .inr ⟨c, rfl⟩, fun f _ => .inl ⟨f, rfl⟩⟩, fun _ => trivial⟩

end Running

end Planning
