import Planning.Proofs.Checked
import Planning.Run.Basic

/-!
# How computations of a run end

What is done in a run succeeds or stops the run, and leaves the run behind either way. What holds then is found by
going through a computation backwards, from what is to hold in the end. What is only logged or told to a watch leaves
a run as it was, but for what it says of itself and for what the watch asks for.
-/

namespace Planning

variable {S : Type} {k : ScoreKind} {α β : Type}

namespace RunState

/-- The watch asks for a change of the problem at the end of some step. -/
def Asks (r : RunState S k) (c : ProblemChange S k) : Prop := ∃ w ∈ r.watch, ∃ i, (i, .change c) ∈ w.requests

/-- A run was reported, logged or told about: what it says of itself may differ, and changes of the problem that its
watch asks for may be waiting. -/
structure Noted (r r' : RunState S k) : Prop where
  /-- Nothing else differs. -/
  eq : r' = { r with
    director := { r.director with journal := r'.director.journal }, log := r'.log, history := r'.history,
    pending := r'.pending, stopping := r'.stopping }
  /-- What waits was waiting or is asked for. -/
  pending : ∀ c ∈ r'.pending, c ∈ r.pending ∨ r.Asks c

namespace Noted

variable {r r' r'' : RunState S k}

/-- Nothing was said. -/
theorem refl (r : RunState S k) : r.Noted r := ⟨rfl, fun _ => .inl⟩

/-- The director is the same but for what it reported. -/
theorem director (h : r.Noted r') : r'.director = { r.director with journal := r'.director.journal } := by
  rw [h.eq]

/-- The working solution is the same. -/
theorem solution (h : r.Noted r') : r'.director.solution = r.director.solution := by
  rw [h.director]

/-- The best solution is the same. -/
theorem best (h : r.Noted r') : r'.best = r.best := by
  rw [h.eq]

/-- The watch is the same. -/
theorem watch (h : r.Noted r') : r'.watch = r.watch := by
  rw [h.eq]

/-- What is asked for is the same. -/
theorem asks (h : r.Noted r') (c : ProblemChange S k) : r'.Asks c ↔ r.Asks c := by
  unfold Asks
  rw [h.watch]

/-- What is said one after another is said. -/
theorem trans (h : r.Noted r') (h' : r'.Noted r'') : r.Noted r'' where
  eq := by
    rw [h'.eq, h.eq]
  pending c hc := (h'.pending c hc).elim (h.pending c) fun hasks => .inr ((h.asks c).1 hasks)

end Noted

end RunState

namespace Running

variable {x : Running S k α} {f : α → Running S k β} {r : RunState S k} {Q Q' : α → RunState S k → Prop}
variable {E E' : Stop → RunState S k → Prop}

/-- What holds when a computation ends: of its result and the run if it succeeds, and of what stops the run and the
run if it does not. -/
def Ends (x : Running S k α) (r : RunState S k) (Q : α → RunState S k → Prop)
    (E : Stop → RunState S k → Prop) : Prop :=
  match x r with
  | .ok a r' => Q a r'
  | .error e r' => E e r'

/-- What holds of a computation that succeeds. -/
theorem Ends.of_ok (h : Ends x r Q E) {a : α} {r' : RunState S k} (hx : x r = .ok a r') : Q a r' := by
  rw [Ends, hx] at h
  exact h

/-- What holds of a computation that stops the run. -/
theorem Ends.of_error (h : Ends x r Q E) {e : Stop} {r' : RunState S k} (hx : x r = .error e r') : E e r' := by
  rw [Ends, hx] at h
  exact h

/-- What follows from what holds in the end holds then. -/
theorem Ends.mono (h : Ends x r Q E) (hQ : ∀ a r', Q a r' → Q' a r') (hE : ∀ e r', E e r' → E' e r') :
    Ends x r Q' E' := by
  unfold Ends at h ⊢
  split at h
  · exact hQ _ _ h
  · exact hE _ _ h

/-- What holds in the end for one reason and for another holds for both. -/
theorem Ends.and (h : Ends x r Q E) (h' : Ends x r Q' E') :
    Ends x r (fun a r' => Q a r' ∧ Q' a r') fun e r' => E e r' ∧ E' e r' := by
  unfold Ends at h h' ⊢
  split at h
  · rename_i hx
    rw [hx] at h'
    exact ⟨h, h'⟩
  · rename_i hx
    rw [hx] at h'
    exact ⟨h, h'⟩

/-- A computation ends as it does. -/
theorem ends_self (x : Running S k α) (r : RunState S k) :
    Ends x r (fun a r' => x r = .ok a r') fun e r' => x r = .error e r' := by
  unfold Ends
  split <;> assumption

/-- Every computation ends in some way. -/
theorem ends_trivial (x : Running S k α) (r : RunState S k) : Ends x r (fun _ _ => True) fun _ _ => True :=
  (ends_self x r).mono (fun _ _ _ => trivial) fun _ _ _ => trivial

/-- What holds in the end holds of what the computation gives. -/
theorem Ends.eq (h : Ends x r Q E) : Ends x r (fun a r' => Q a r' ∧ x r = .ok a r') E :=
  (h.and (ends_self x r)).mono (fun _ _ => id) fun _ _ => And.left

/-- What holds when a computation succeeds, of one that does. -/
theorem Ends.sure (h : Ends x r Q E) (h' : Ends x r Q' fun _ _ => False) :
    Ends x r (fun a r' => Q a r' ∧ Q' a r') fun _ _ => False :=
  (h.and h').mono (fun _ _ => id) fun _ _ => And.right

/-- A computation that does not stop succeeds. -/
theorem Ends.exists_ok (h : Ends x r Q fun _ _ => False) : ∃ a r', x r = .ok a r' ∧ Q a r' := by
  unfold Ends at h
  split at h
  · rename_i a r' hx
    exact ⟨a, r', hx, h⟩
  · exact h.elim

@[simp] theorem ends_pure {a : α} : Ends (pure a) r Q E ↔ Q a r := Iff.rfl

@[simp] theorem ends_bind {Q : β → RunState S k → Prop} :
    Ends (x >>= f) r Q E ↔ Ends x r (fun a r' => Ends (f a) r' Q E) E := by
  simp only [Ends, bind, EStateM.bind]
  cases x r <;> rfl

@[simp] theorem ends_map {Q : β → RunState S k → Prop} {g : α → β} :
    Ends (g <$> x) r Q E ↔ Ends x r (fun a => Q (g a)) E := by
  simp only [Ends, Functor.map, EStateM.map]
  cases x r <;> rfl

@[simp] theorem ends_discard {Q : Unit → RunState S k → Prop} :
    Ends (discard x) r Q E ↔ Ends x r (fun _ => Q ()) E := by
  simp only [Ends, discard, Functor.mapConst, EStateM.map, Function.comp, Function.const]
  cases x r <;> rfl

@[simp] theorem ends_get {Q : RunState S k → RunState S k → Prop} : Ends get r Q E ↔ Q r r := Iff.rfl

@[simp] theorem ends_modify {Q : PUnit → RunState S k → Prop} {g : RunState S k → RunState S k} :
    Ends (modify g) r Q E ↔ Q ⟨⟩ (g r) := Iff.rfl

@[simp] theorem ends_throw {e : Stop} : Ends (throw e) r Q E ↔ E e r := Iff.rfl

@[simp] theorem ends_fail {e : SolverError} : Ends (fail e) r Q E ↔ E (.failed e) r := Iff.rfl

theorem ends_ite {c : Prop} [Decidable c] {y : Running S k α} :
    Ends (if c then x else y) r Q E ↔ (c → Ends x r Q E) ∧ (¬ c → Ends y r Q E) := by
  split <;> simp_all

@[simp] theorem ends_checked {y : Checked α} : Ends (checked y) r Q E ↔
    (∀ a, y = .ok a → Q a r) ∧ ∀ e, y = .error e → E (.faulted e) r := by
  cases y <;> simp [checked]

/-- What the director does leaves a run with another director. -/
@[simp] theorem ends_direct {d : Director S k → Checked (Director S k × α)} : Ends (direct d) r Q E ↔
    (∀ dir a, d r.director = .ok (dir, a) → Q a { r with director := dir }) ∧
      ∀ e, d r.director = .error e → E (.faulted e) r := by
  simp [direct]

/-- What is drawn leaves a run with other random numbers. -/
@[simp] theorem ends_draw {y : Generator.Draw α} : Ends (draw y) r Q E ↔
    (∀ a g, y.run r.generator = .ok (a, g) → Q a { r with generator := g }) ∧
      ∀ e, y.run r.generator = .error e → E (.faulted e) r := by
  simp [draw]

/-- What is logged is noted. -/
theorem Ends.logAt {level : LogLevel} {e : Unit → LogEvent} {Q : Unit → RunState S k → Prop}
    (h : ∀ r', r.Noted r' → Q () r') : Ends (logAt level e) r Q E := by
  simp only [Running.logAt, ends_bind, ends_get, ends_ite, ends_modify, ends_pure]
  exact ⟨fun _ => h _ ⟨rfl, fun _ => .inl⟩, fun _ => h _ (.refl r)⟩

/-- What is reported is noted. -/
theorem Ends.report {level : LogLevel} {name : String} {fields : Unit → List (String × LogValue)}
    {Q : Unit → RunState S k → Prop} (h : ∀ r', r.Noted r' → Q () r') : Ends (report level name fields) r Q E :=
  .logAt h

/-- A loop keeps what each of its steps keeps. -/
theorem Ends.forM {γ : Type} {l : List γ} {body : γ → Running S k PUnit} {I : RunState S k → Prop}
    (hbody : ∀ a ∈ l, ∀ r, I r → Ends (body a) r (fun _ => I) E) (h : I r) :
    Ends (l.forM body) r (fun _ => I) E := by
  induction l generalizing r with
  | nil => exact h
  | cons a l ih =>
    obtain ⟨ha, hl⟩ := List.forall_mem_cons.1 hbody
    change Ends (body a >>= fun _ => l.forM body) r _ E
    rw [ends_bind]
    exact (ha r h).mono (fun _ r' hr' => ih hl hr') fun _ _ => id

/-- What comes of members one after another has what each step gives, and keeps what each step keeps. -/
theorem Ends.mapM {γ δ : Type} {l : List γ} {body : γ → Running S k δ} {I : RunState S k → Prop} {P : δ → Prop}
    (hbody : ∀ a ∈ l, ∀ r, I r → Ends (body a) r (fun b r' => I r' ∧ P b) E) (h : I r) :
    Ends (l.mapM body) r (fun bs r' => I r' ∧ ∀ b ∈ bs, P b) E := by
  induction l generalizing r with
  | nil => exact ⟨h, fun _ hmem => absurd hmem List.not_mem_nil⟩
  | cons a l ih =>
    obtain ⟨ha, hl⟩ := List.forall_mem_cons.1 hbody
    simp only [List.mapM_cons, ends_bind, ends_pure]
    refine (ha r h).mono (fun b r' hr' => ?_) fun _ _ => id
    exact (ih hl hr'.1).mono (fun bs r'' hr'' => ⟨hr''.1, List.forall_mem_cons.2 ⟨hr'.2, hr''.2⟩⟩) fun _ _ => id

/-- Members are sorted out one after another: what each of them keeps, of those that were kept so far, holds in the
end of those that are kept. -/
theorem Ends.filterM {γ : Type} {l : List γ} {body : γ → Running S k Bool} {J : List γ → RunState S k → Prop}
    (hbody : ∀ a ∈ l, ∀ kept r, J kept r →
      Ends (body a) r (fun isKept r' => J (if isKept then kept ++ [a] else kept) r') E)
    (h : J [] r) : Ends (l.filterM body) r J E := by
  suffices ∀ kept r, J kept.reverse r →
      Ends (l.filterAuxM body kept) r (fun out r' => J out.reverse r') E from by
    simp only [List.filterM, ends_bind, ends_pure]
    exact this [] r h
  induction l with
  | nil => exact fun _ _ hkept => hkept
  | cons a l ih =>
    obtain ⟨ha, hl⟩ := List.forall_mem_cons.1 hbody
    intro kept r hkept
    simp only [List.filterAuxM, ends_bind]
    refine (ha _ r hkept).mono (fun isKept r' hr' => ih hl _ r' ?_) fun _ _ => id
    cases isKept with
    | true =>
      rw [if_pos rfl] at hr'
      simpa using hr'
    | false => exact hr'

/-- What the watch asks for is noted. -/
theorem Ends.request {q : Request S k} (hq : ∀ c, q = .change c → r.Asks c) {Q : Unit → RunState S k → Prop}
    (h : ∀ r', r.Noted r' → Q () r') : Ends (request q) r Q E := by
  cases q with
  | change c =>
    refine h _ ⟨rfl, fun d hd => ?_⟩
    rcases List.mem_append.1 hd with hd | hd
    · exact .inl hd
    · exact .inr (List.mem_singleton.1 hd ▸ hq c rfl)
  | stop => exact h _ ⟨rfl, fun _ => .inl⟩

variable [PlanningSolution S k]

/-- What is told is noted. -/
theorem Ends.tell {e : RunEvent S k} {Q : Unit → RunState S k → Prop} (h : ∀ r', r.Noted r' → Q () r') :
    Ends (tell e) r Q E := by
  have hlog : ∀ {r' level} {logged : Unit → LogEvent}, r.Noted r' → Ends (Running.logAt level logged) r' Q E :=
    fun hr' => .logAt fun r'' hr'' => h r'' (hr'.trans hr'')
  have hnoted : r.Noted { r with history := e :: r.history } := ⟨rfl, fun _ => .inl⟩
  simp only [Running.tell, ends_bind, ends_modify, ends_get]
  split
  · rename_i w hw
    split
    · rename_i i score
      -- Each request for the end of this step is one that the watch asks for.
      have hloop : Ends ((w.requests.filter fun q => q.1 == i).forM fun q => Running.request q.2)
          { r with history := .stepEnded i score :: r.history } (fun _ r' => r.Noted r') E := by
        refine .forM (fun q hq r' hr' => ?_) hnoted
        refine .request (fun c hc => (hr'.asks c).2 ?_) fun r'' hr'' => hr'.trans hr''
        exact ⟨w, hw, q.1, hc ▸ (List.mem_filter.1 hq).1⟩
      rw [ends_bind]
      refine hloop.mono (fun _ r' hr' => ?_) fun _ _ => id
      split
      · exact hlog hr'
      · exact h r' hr'
    · split
      · exact hlog hnoted
      · exact h _ hnoted
  · exact h _ hnoted

/-- A score that is asked for leaves another director. -/
@[simp] theorem ends_calculate {Q : Score k → RunState S k → Prop} : Ends calculate r Q E ↔
    (∀ dir score, r.director.calculate = .ok (dir, score) →
      Q score { r with statistics := r.statistics.recordCalculation, director := dir }) ∧
      ∀ f, r.director.calculate = .error f →
        E (.faulted f) { r with statistics := r.statistics.recordCalculation } := by
  simp [calculate]

/-- Asking for the score can only fault. -/
theorem ends_calculate_fault : Ends calculate r (fun _ _ => True) fun e _ => ∃ f, e = .faulted f := by
  rw [ends_calculate]
  exact ⟨fun _ _ _ => trivial, fun f _ => ⟨f, rfl⟩⟩

omit [PlanningSolution S k] in
/-- An evaluated move is counted. -/
@[simp] theorem ends_recordMove {accepted : Bool} {Q : Unit → RunState S k → Prop} :
    Ends (recordMove accepted) r Q E ↔
      (∀ n, counted (r.moves + 1) = .ok n →
        Q () { r with moves := n, statistics := r.statistics.recordMove accepted }) ∧
        ∀ f, counted (r.moves + 1) = .error f → E (.faulted f) r := by
  simp [recordMove]

/-- A score that is checked either is right or stops the run. -/
@[simp] theorem ends_assertScore {Q : Unit → RunState S k → Prop} : Ends assertScore r Q E ↔
    (∀ dir score, r.director.assertScore = .ok (dir, .ok score) → Q () { r with director := dir }) ∧
      (∀ dir c, r.director.assertScore = .ok (dir, .error c) →
        E (.failed (.scoreCorruption c)) { r with director := dir }) ∧
      ∀ f, r.director.assertScore = .error f → E (.faulted f) r := by
  simp only [assertScore, ends_bind, ends_direct]
  constructor
  · rintro ⟨hok, herror⟩
    exact ⟨fun dir score hd => hok dir _ hd, fun dir c hd => hok dir _ hd, herror⟩
  · rintro ⟨hok, hcorrupt, herror⟩
    refine ⟨fun dir out hd => ?_, herror⟩
    cases out with
    | ok score => exact hok dir score hd
    | error c => exact hcorrupt dir c hd

/-- A score is checked after a step if the run checks steps. -/
@[simp] theorem ends_assertStep {Q : Unit → RunState S k → Prop} : Ends assertStep r Q E ↔
    (r.mode.assertsSteps = true → Ends assertScore r Q E) ∧ (r.mode.assertsSteps = false → Q () r) := by
  simp only [assertStep, ends_bind, ends_get, ends_ite, ends_pure, Bool.not_eq_true]

/-- A step that ends is told and counted. -/
theorem Ends.stepEnded {score : Score k} {Q : Unit → RunState S k → Prop}
    (h : ∀ r' n r'', r.Noted r' →
      { r' with steps := n, statistics := r'.statistics.recordStep }.Noted r'' → Q () r'')
    (hfault : ∀ f r', r.Noted r' → E (.faulted f) r') : Ends (stepEnded score) r Q E := by
  simp only [Running.stepEnded, ends_bind, ends_get]
  refine .tell fun r' hr' => ?_
  simp only [ends_checked, ends_modify]
  exact ⟨fun n _ => .report fun r'' hr'' => h r' n r'' hr' hr'', fun f _ => hfault f r' hr'⟩

/-- A solution that becomes the best one is reported, kept and told. -/
theorem Ends.setBest {s : S} {score : Score k} {Q : Unit → RunState S k → Prop}
    (h : ∀ r' r'', r.Noted r' →
      { r' with best := some ⟨PlanningSolution.withScore s score, score⟩, improvement := r'.mark }.Noted r'' →
      Q () r'') : Ends (setBest s score) r Q E := by
  simp only [Running.setBest, ends_bind, ends_get, ends_modify]
  exact .report fun r' hr' => .tell fun r'' hr'' => h r' r'' hr' hr''

/-- The working solution becomes the best one if it is better. -/
theorem Ends.updateBestWith {score : Score k} {Q : Bool → RunState S k → Prop}
    (hbetter : r.improvesWith score = true → Ends (Running.setBest r.director.solution score) r (fun _ => Q true) E)
    (hworse : r.improvesWith score = false → Q false r) : Ends (updateBestWith score) r Q E := by
  simp only [Running.updateBestWith, ends_bind, ends_get, ends_ite, ends_pure, Bool.not_eq_true]
  exact ⟨hbetter, hworse⟩

end Running

end Planning
