import Mathlib.Data.List.Forall2
import Planning.Phase.LocalSearch
import Planning.Proofs.Checked

/-!
# Scores of candidates on several threads

Each thread scores a part of the candidates on a director of its own. What holds of such a director before and after
each candidate holds throughout, and what holds of each score holds of all, in the order of the candidates. The parts
make up all candidates.
-/

namespace Planning.LocalSearch

open Checked

variable {S : Type} {k : ScoreKind} [PlanningSolution S k]
variable {check : Bool} {P : Move S → Prop} {Q : Director S k → Prop} {G : Move S → Option (Score k) → Prop}
variable {E : SolverError → Prop} {thread : Director S k} {ms : List (Move S)}

/-- What comes of a candidate of some kind on the director of a thread: the director is again of its kind, and the
score, if there is any, or the error is one that the candidate may have. -/
structure Scores (check : Bool) (P : Move S → Prop) (Q : Director S k → Prop) (G : Move S → Option (Score k) → Prop)
    (E : SolverError → Prop) : Prop where
  /-- A candidate that would change nothing has no score. -/
  idle : ∀ {m dir}, P m → Q dir → m.isDoable dir.solution = false → G m none
  /-- A candidate that is evaluated has a score. -/
  scored : ∀ {m dir dir' score}, P m → Q dir → m.isDoable dir.solution = true →
    dir.evaluate m check = .ok (dir', .ok score) → Q { dir' with journal := [] } ∧ G m (some score)
  /-- A candidate that cannot be evaluated has an error. -/
  refused : ∀ {m dir dir' e}, P m → Q dir → m.isDoable dir.solution = true →
    dir.evaluate m check = .ok (dir', .error e) → E e

/-- A thread keeps the kind of its director and gives each of its candidates a score, or stops with an error. -/
theorem Scores.of_scorePart (h : Scores check P Q G E) (hthread : Q thread) (hms : ∀ m ∈ ms, P m)
    {out : Except SolverError (Director S k × List (Option (Score k)))} (hout : scorePart check thread ms = .ok out) :
    (∀ thread' scores, out = .ok (thread', scores) → Q thread' ∧ List.Forall₂ G ms scores) ∧
      ∀ e, out = .error e → E e := by
  induction ms generalizing thread out with
  | nil =>
    cases hout
    refine ⟨fun thread' scores heq => ?_, fun _ => nofun⟩
    cases heq
    exact ⟨hthread, .nil⟩
  | cons m ms ih =>
    obtain ⟨hm, hms⟩ := List.forall_mem_cons.1 hms
    -- A candidate in front with a score, and a director of the kind behind it.
    have hcons : ∀ {dir : Director S k} {score rest}, Q dir → G m score → scorePart check dir ms = .ok rest →
        (∀ thread' scores, rest.map (fun y => (y.1, score :: y.2)) = .ok (thread', scores) →
          Q thread' ∧ List.Forall₂ G (m :: ms) scores) ∧
        ∀ e, rest.map (fun y => (y.1, score :: y.2)) = .error e → E e := by
      intro dir score rest hdir hscore hrest
      obtain ⟨hok, herror⟩ := ih hdir hms hrest
      cases rest with
      | error e =>
        refine ⟨fun _ _ => nofun, fun e' heq => herror e' ?_⟩
        cases heq
        rfl
      | ok rest =>
        refine ⟨fun thread' scores heq => ?_, fun _ => nofun⟩
        cases heq
        obtain ⟨hkind, hscores⟩ := hok _ _ rfl
        exact ⟨hkind, .cons hscore hscores⟩
    rw [scorePart] at hout
    split at hout
    · rename_i hidle
      obtain ⟨rest, hrest, hpure⟩ := bind_eq_ok_iff.1 hout
      cases hpure
      exact hcons hthread (h.idle hm hthread (by simpa using hidle)) hrest
    · rename_i hdoable
      have hdoable : m.isDoable thread.solution = true := by simpa using hdoable
      obtain ⟨⟨dir, evaluated⟩, hevaluate, hout⟩ := bind_eq_ok_iff.1 hout
      cases evaluated with
      | error e =>
        cases hout
        refine ⟨fun _ _ => nofun, fun e' heq => ?_⟩
        cases heq
        exact h.refused hm hthread hdoable hevaluate
      | ok score =>
        obtain ⟨rest, hrest, hpure⟩ := bind_eq_ok_iff.1 hout
        cases hpure
        obtain ⟨hdir, hscore⟩ := h.scored hm hthread hdoable hevaluate
        exact hcons hdir hscore hrest

variable {size : Nat} {threads : List (Director S k)}

/-- The threads keep the kind of their directors and give the candidates of their parts scores, or one of them stops
with an error. -/
theorem Scores.of_scoreParts (h : Scores check P Q G E) (hthreads : ∀ thread ∈ threads, Q thread)
    (hms : ∀ m ∈ ms, P m) {out : Except SolverError (List (Director S k) × List (Option (Score k)))}
    (hout : scoreParts check size ms threads = .ok out) :
    (∀ threads' scores, out = .ok (threads', scores) → (∀ thread ∈ threads', Q thread) ∧
      threads'.length = threads.length ∧ List.Forall₂ G (ms.take (size * threads.length)) scores) ∧
    ∀ e, out = .error e → E e := by
  induction threads generalizing ms out with
  | nil =>
    cases hout
    refine ⟨fun threads' scores heq => ?_, fun _ => nofun⟩
    cases heq
    exact ⟨fun _ hmem => absurd hmem List.not_mem_nil, rfl, .nil⟩
  | cons thread threads ih =>
    obtain ⟨hthread, hthreads⟩ := List.forall_mem_cons.1 hthreads
    obtain ⟨part, hpart, hout⟩ := bind_eq_ok_iff.1 hout
    obtain ⟨hok, herror⟩ := h.of_scorePart hthread (fun m hm => hms m (List.mem_of_mem_take hm)) hpart
    cases part with
    | error e =>
      cases hout
      refine ⟨fun _ _ => nofun, fun e' heq => herror e' ?_⟩
      cases heq
      rfl
    | ok part =>
      obtain ⟨hkind, hfront⟩ := hok _ _ rfl
      obtain ⟨rest, hrest, hpure⟩ := bind_eq_ok_iff.1 hout
      cases hpure
      obtain ⟨hok, herror⟩ := ih hthreads (fun m hm => hms m (List.mem_of_mem_drop hm)) hrest
      cases rest with
      | error e =>
        refine ⟨fun _ _ => nofun, fun e' heq => herror e' ?_⟩
        cases heq
        rfl
      | ok rest =>
        refine ⟨fun threads' scores heq => ?_, fun _ => nofun⟩
        cases heq
        obtain ⟨hkinds, hlength, hback⟩ := hok _ _ rfl
        refine ⟨List.forall_mem_cons.2 ⟨hkind, hkinds⟩, congrArg (· + 1) hlength, ?_⟩
        rw [List.length_cons, Nat.mul_succ, Nat.add_comm, List.take_add]
        exact List.rel_append hfront hback

omit [PlanningSolution S k] in
/-- A candidate that comes with a score has that score. -/
theorem of_mem_zip {n : Nat} {scores : List (Option (Score k))} (h : List.Forall₂ G (ms.take n) scores) {m : Move S}
    {score : Option (Score k)} (hmem : (m, score) ∈ ms.zip scores) : G m score := by
  rw [← List.take_append_drop n ms, ← List.append_nil scores, List.zip_append h.length_eq, List.zip_nil_right,
    List.append_nil] at hmem
  exact (List.forall₂_iff_zip.1 h).2 hmem

/-- The parts of the candidates, one for each thread, are all of them. -/
theorem length_le_partSize {n threads : Nat} (h : 0 < threads) : n ≤ partSize n threads * threads := by
  have hdiv := Nat.lt_div_mul_add h (a := n + threads - 1)
  unfold partSize
  omega

end Planning.LocalSearch
