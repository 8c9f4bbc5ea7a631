import Mathlib.Data.List.Forall2
import Planning.Fault

/-!
# Successful computations

A computation made of steps succeeds exactly when each of its steps does, with the result of the last one.
-/

namespace Planning.Checked

variable {ε α β : Type}

/-- Two steps succeed when the first does and the second does with its result. -/
theorem bind_eq_ok_iff {x : Except ε α} {f : α → Except ε β} {b : β} :
    (x >>= f) = .ok b ↔ ∃ a, x = .ok a ∧ f a = .ok b := by
  cases x with
  | error e => simp [bind, Except.bind]
  | ok a => simp [bind, Except.bind]

/-- Giving a value back is no step. -/
theorem pure_eq_ok_iff {a b : α} : (pure a : Except ε α) = .ok b ↔ a = b := by
  simp [pure, Except.pure]

/-- What is made of a result is made when there is one. -/
theorem map_eq_ok_iff {x : Except ε α} {f : α → β} {b : β} :
    x.map f = .ok b ↔ ∃ a, x = .ok a ∧ f a = b := by
  cases x with
  | error e => simp [Except.map]
  | ok a => simp [Except.map]

/-- What comes of members one after another comes of some member each. -/
theorem exists_of_mem_mapM {f : α → Except ε β} {l : List α} {l' : List β} (h : l.mapM f = .ok l') {b : β}
    (hb : b ∈ l') : ∃ a ∈ l, f a = .ok b := by
  induction l generalizing l' with
  | nil =>
    cases h
    cases hb
  | cons a l ih =>
    rw [List.mapM_cons] at h
    obtain ⟨c, hc, h⟩ := bind_eq_ok_iff.1 h
    obtain ⟨l'', hl, h⟩ := bind_eq_ok_iff.1 h
    cases h
    rcases List.mem_cons.1 hb with rfl | hb
    · exact ⟨a, List.mem_cons_self, hc⟩
    · obtain ⟨d, hd, hfd⟩ := ih hl hb
      exact ⟨d, List.mem_cons_of_mem a hd, hfd⟩

/-- Members are made one after another when each of them can be made. -/
theorem mapM_eq_ok_iff {f : α → Except ε β} {l : List α} {l' : List β} :
    l.mapM f = .ok l' ↔ List.Forall₂ (fun a b => f a = .ok b) l l' := by
  induction l generalizing l' with
  | nil => cases l' <;> simp [pure, Except.pure]
  | cons a l ih =>
    simp only [List.mapM_cons, bind_eq_ok_iff, pure_eq_ok_iff, ih]
    constructor
    · rintro ⟨b, hb, bs, hbs, rfl⟩
      exact .cons hb hbs
    · rintro (_ | ⟨hb, hbs⟩)
      exact ⟨_, hb, _, hbs, rfl⟩

/-- Members are made one after another when each of them fulfils its condition. -/
theorem mapM_eq_ok_iff_map {f : α → Except ε β} {p : α → Prop} {g : α → β}
    (h : ∀ a b, f a = .ok b ↔ p a ∧ b = g a) {l : List α} {l' : List β} :
    l.mapM f = .ok l' ↔ (∀ a ∈ l, p a) ∧ l' = l.map g := by
  induction l generalizing l' with
  | nil =>
    rw [List.mapM_nil, pure_eq_ok_iff]
    simp [eq_comm]
  | cons a l ih =>
    simp only [List.mapM_cons, bind_eq_ok_iff, pure_eq_ok_iff, h, ih, List.forall_mem_cons]
    constructor
    · rintro ⟨_, ⟨ha, rfl⟩, _, ⟨hl, rfl⟩, rfl⟩
      exact ⟨⟨ha, hl⟩, rfl⟩
    · rintro ⟨⟨ha, hl⟩, rfl⟩
      exact ⟨g a, ⟨ha, rfl⟩, l.map g, ⟨hl, rfl⟩, rfl⟩

/-- What is refused under a condition is done where the condition fails. -/
theorem of_unless_ok {c : Prop} [Decidable c] {err : ε} {x : Except ε α} {r : α}
    (h : (if c then throw err else x) = .ok r) : ¬ c ∧ x = .ok r := by
  split at h
  · cases h
  · exact ⟨‹_›, h⟩

/-- A guarded value is given back when the guard holds. -/
theorem ite_eq_ok_iff {c : Prop} [Decidable c] {a b : α} {f : Fault} :
    (if c then .ok a else .error f : Checked α) = .ok b ↔ c ∧ b = a := by
  split
  · rename_i hc
    rw [Except.ok.injEq, eq_comm, and_iff_right hc]
  · rename_i hc
    exact ⟨nofun, fun h => absurd h.1 hc⟩

/-- A computation that succeeds has a result. -/
theorem exists_eq_ok_of_isOk {x : Checked α} (h : x.isOk = true) : ∃ a, x = .ok a := by
  cases x with
  | error e => cases h
  | ok a => exact ⟨a, rfl⟩

/-- A computation without a result ended in an overflow. -/
def OverflowOnly (x : Checked α) : Prop := ∀ f, x = .error f → f = .overflow

namespace OverflowOnly

variable {x : Checked α} {g : α → Checked β}

theorem ok (a : α) : OverflowOnly (.ok a) := fun _ => nofun

/-- A computation with a result did not overflow. -/
theorem of_exists (h : ∃ a, x = .ok a) : OverflowOnly x := by
  obtain ⟨a, rfl⟩ := h
  exact ok a

theorem pure (a : α) : OverflowOnly (Pure.pure a) := ok a

theorem bounded (n : Int) : OverflowOnly (bounded n) := fun _ h => (bounded_eq_error_iff.1 h).2

theorem ite {c : Prop} [Decidable c] {y : Checked α} (hx : OverflowOnly x) (hy : OverflowOnly y) :
    OverflowOnly (if c then x else y) := by
  split
  · exact hx
  · exact hy

/-- A computation is followed by another. -/
theorem bind (hx : OverflowOnly x) (hg : ∀ a, x = .ok a → OverflowOnly (g a)) : OverflowOnly (x >>= g) := by
  cases x with
  | error f =>
    intro f' h
    cases h
    exact hx f rfl
  | ok a => exact hg a rfl

/-- Computations one after another. -/
theorem foldlM {σ : Type} {step : σ → α → Checked σ} (hstep : ∀ s a, OverflowOnly (step s a)) (l : List α)
    (s : σ) : OverflowOnly (l.foldlM step s) := by
  induction l generalizing s with
  | nil => exact ok s
  | cons a l ih => exact (hstep s a).bind fun s' _ => ih s'

end OverflowOnly

end Planning.Checked

/-!
## Computations that may be refused

A computation that has no result may have been refused, or it may have faulted. It succeeds, and faults, just where its
steps do.
-/

namespace Planning.Checked

variable {ε α β : Type} {x : ExceptT ε Checked α} {g : α → ExceptT ε Checked β} {c : Checked α}

/-- Two steps succeed when the first does and the second does with its result. -/
theorem run_bind_eq_ok_iff {b : β} :
    (x >>= g).run = .ok (.ok b) ↔ ∃ a, x.run = .ok (.ok a) ∧ (g a).run = .ok (.ok b) := by
  rw [ExceptT.run_bind, bind_eq_ok_iff]
  constructor
  · rintro ⟨_ | a, ha, hb⟩
    · cases hb
    · exact ⟨a, ha, hb⟩
  · rintro ⟨a, ha, hb⟩
    exact ⟨.ok a, ha, hb⟩

/-- Two steps fault where the first does, or the second does with the result of the first. -/
theorem run_bind_eq_error_iff {f : Fault} :
    (x >>= g).run = .error f ↔ x.run = .error f ∨ ∃ a, x.run = .ok (.ok a) ∧ (g a).run = .error f := by
  rw [ExceptT.run_bind]
  rcases x.run with f' | (e | a)
  · simp [bind, Except.bind]
  · simp [bind, Except.bind, pure, Except.pure]
  · simp [bind, Except.bind]

/-- A computation that is never refused succeeds when it has a result. -/
theorem run_lift_eq_ok_iff {a : α} : (liftM c : ExceptT ε Checked α).run = .ok (.ok a) ↔ c = .ok a := by
  rcases c with f | a' <;> simp [liftM, monadLift, MonadLift.monadLift, ExceptT.lift, ExceptT.run, ExceptT.mk,
    Functor.map, Except.map]

/-- A computation that is never refused faults when it has no result. -/
theorem run_lift_eq_error_iff {f : Fault} : (liftM c : ExceptT ε Checked α).run = .error f ↔ c = .error f := by
  rcases c with f | a' <;> simp [liftM, monadLift, MonadLift.monadLift, ExceptT.lift, ExceptT.run, ExceptT.mk,
    Functor.map, Except.map]

/-- What may only be refused succeeds when it is not. -/
theorem run_mk_eq_ok_iff {r : Except ε α} {a : α} :
    (ExceptT.mk (.ok r) : ExceptT ε Checked α).run = .ok (.ok a) ↔ r = .ok a := by
  simp [ExceptT.run, ExceptT.mk]

/-- What may only be refused does not fault. -/
theorem run_mk_ne_error {r : Except ε α} {f : Fault} :
    (ExceptT.mk (.ok r) : ExceptT ε Checked α).run ≠ .error f := nofun

/-- What is refused under a condition succeeds where the condition fails. -/
theorem run_guard_eq_ok_iff {b : Bool} {e : ε} :
    (if b then throw e else pure () : ExceptT ε Checked Unit).run = .ok (.ok ()) ↔ b = false := by
  cases b with
  | false => exact iff_of_true rfl rfl
  | true => exact iff_of_false nofun nofun

/-- What is refused under a condition does not fault. -/
theorem run_guard_ne_error {b : Bool} {e : ε} {f : Fault} :
    (if b then throw e else pure () : ExceptT ε Checked Unit).run ≠ .error f := by
  cases b <;> nofun

end Planning.Checked
