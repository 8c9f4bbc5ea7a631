import Mathlib.Data.Nat.ModEq
import Planning.Acceptor.Basic
import Planning.Proofs.Score.Order

/-!
# What acceptors remember

An acceptor is told when a phase starts and ends and with which score each step ends. What it remembers of this
is compared with the whole history of the phase: the ring of late acceptance with all scores since the start, and
the list of tabu search with the signatures of all steps.
-/

namespace Planning

/-- What an acceptor is told. -/
inductive AcceptorEvent (k : ScoreKind) where
  /-- A phase starts with a score, also when problem changes were made. -/
  | phaseStarted (score : Score k)
  /-- A step ends with a score, and with a signature of its move if the acceptor asks for them. -/
  | stepEnded (score : Score k) (signature : Option MoveSignature)
  /-- A phase ends. -/
  | phaseEnded

namespace Acceptor

variable {k : ScoreKind}

/-- The acceptor that was told something. -/
def told (a : Acceptor k) : AcceptorEvent k → Acceptor k
  | .phaseStarted score => a.phaseStarted score
  | .stepEnded score signature => a.stepEnded score signature
  | .phaseEnded => a.phaseEnded

/-- The acceptor that was told one thing after another. -/
def toldAll (a : Acceptor k) (events : List (AcceptorEvent k)) : Acceptor k := events.foldl told a

theorem toldAll_append (a : Acceptor k) (xs ys : List (AcceptorEvent k)) :
    a.toldAll (xs ++ ys) = (a.toldAll xs).toldAll ys :=
  List.foldl_append

end Acceptor

/-- The score of the step `n` steps ago, which is the one at the start if there were fewer steps. -/
def scoreAgo {k : ScoreKind} (n : Nat) (initial : Score k) (scores : List (Score k)) : Score k :=
  if scores.length < n then initial else scores.getD (scores.length - n) initial

namespace LateAcceptance

variable {k : ScoreKind} {a : LateAcceptance k} {n : Nat} {initial : Score k} {scores : List (Score k)}

/-- The ring holds the last `n` of the scores since the start of the phase, each at its number modulo `n`. -/
structure Recalls (a : LateAcceptance k) (n : Nat) (initial : Score k) (scores : List (Score k)) : Prop where
  /-- The size never changes. -/
  size : a.size = n
  /-- The score at the start. -/
  start : a.start = some initial
  /-- The next place is that of the score that leaves the ring. -/
  place : a.place = scores.length % n
  /-- The ring grows until it is full. -/
  length : a.ring.size = min scores.length n
  /-- Where the scores stand. -/
  ring : ∀ i < scores.length, scores.length ≤ i + n → a.ring[i % n]? = scores[i]?

/-- A phase that starts has no scores of steps. -/
theorem recalls_phaseStarted (score : Score k) : (a.phaseStarted score).Recalls a.size score [] where
  size := rfl
  start := rfl
  place := by simp [phaseStarted]
  length := by simp [phaseStarted]
  ring := by simp

/-- While steps are recalled the place is the end of a ring that grows, or within one that is full. -/
theorem Recalls.place_eq (h : a.Recalls n initial scores) (hn : 0 < n) :
    scores.length < n ∧ a.place = scores.length ∧ a.ring.size = scores.length ∨
      n ≤ scores.length ∧ a.place < n ∧ a.ring.size = n := by
  have hlength := h.length
  have hplace := h.place
  rcases Nat.lt_or_ge scores.length n with hlt | hge
  · rw [Nat.mod_eq_of_lt hlt] at hplace
    exact .inl ⟨hlt, hplace, by omega⟩
  · exact .inr ⟨hge, hplace ▸ Nat.mod_lt _ hn, by omega⟩

/-- Among `n` steps in a row no two have the same place. -/
theorem mod_ne_of_lt {n i j : Nat} (hlt : i < j) (hnear : j < i + n) : i % n ≠ j % n := fun h => by
  have hdvd : n ∣ j - i := (Nat.modEq_iff_dvd' hlt.le).1 h
  exact absurd (Nat.le_of_dvd (by omega) hdvd) (by omega)

/-- A step puts its score where the score of `n` steps ago stood. -/
theorem Recalls.stepEnded (h : a.Recalls n initial scores) (score : Score k) :
    (a.stepEnded score).Recalls n initial (scores ++ [score]) := by
  have hn : 0 < n := h.size ▸ a.size_pos
  have hnext : (a.place + 1) % a.size = (scores ++ [score]).length % n := by
    rw [h.place, h.size, List.length_append, List.length_singleton, Nat.mod_add_mod]
  -- The scores that stay in the ring stand elsewhere than the new one.
  have holder : ∀ i < scores.length, scores.length + 1 ≤ i + n →
      i % n ≠ a.place ∧ a.ring[i % n]? = (scores ++ [score])[i]? := fun i hi hnear => by
    refine ⟨h.place ▸ mod_ne_of_lt hi (by omega), ?_⟩
    rw [h.ring i hi (by omega), List.getElem?_append_left hi]
  have hnewest : (scores ++ [score])[scores.length]? = some score := by simp
  rcases h.place_eq hn with ⟨hlt, hplace, hsize⟩ | ⟨hge, hplace, hsize⟩
  · have hring : (a.stepEnded score).ring = a.ring.push score := by
      simp [LateAcceptance.stepEnded, h.start, hplace, hsize]
    refine ⟨h.size, h.start, hnext, ?_, fun i hi hnear => ?_⟩
    · rw [hring, Array.size_push, hsize, List.length_append, List.length_singleton]
      omega
    · rw [List.length_append, List.length_singleton] at hi hnear
      rw [hring]
      rcases Nat.lt_succ_iff_lt_or_eq.1 hi with hi | rfl
      · have hlt' : i % n < a.ring.size := by rw [Nat.mod_eq_of_lt (by omega), hsize]; exact hi
        rw [Array.getElem?_push_lt hlt', ← Array.getElem?_eq_getElem hlt']
        exact (holder i hi hnear).2
      · rw [hnewest, Nat.mod_eq_of_lt hlt, ← hsize]
        exact Array.getElem?_push_size
  · have hring : (a.stepEnded score).ring = a.ring.setIfInBounds a.place score := by
      simp [LateAcceptance.stepEnded, h.start, hplace, hsize]
    refine ⟨h.size, h.start, hnext, ?_, fun i hi hnear => ?_⟩
    · rw [hring, Array.size_setIfInBounds, hsize, List.length_append, List.length_singleton]
      omega
    · rw [List.length_append, List.length_singleton] at hi hnear
      rw [hring]
      rcases Nat.lt_succ_iff_lt_or_eq.1 hi with hi | rfl
      · obtain ⟨hne, hold⟩ := holder i hi hnear
        rw [Array.getElem?_setIfInBounds_ne hne.symm, hold]
      · rw [← h.place, hnewest]
        exact Array.getElem?_setIfInBounds_self_of_lt (by omega)

/-- The score at the place of the ring is the one of `n` steps ago. -/
theorem Recalls.lateScore_eq (h : a.Recalls n initial scores) :
    a.lateScore = some (scoreAgo n initial scores) := by
  have hn : 0 < n := h.size ▸ a.size_pos
  rw [lateScore, h.start, Option.map_some, scoreAgo]
  rcases h.place_eq hn with ⟨hlt, hplace, hsize⟩ | ⟨hge, -, -⟩
  · rw [if_pos hlt, Array.getElem?_eq_none (by omega), Option.getD_none]
  · have hmod : (scores.length - n) % n = a.place := by
      rw [h.place, ← Nat.mod_eq_sub_mod hge]
    rw [if_neg (by omega), ← hmod, h.ring _ (by omega) (by omega), List.getD_eq_getElem?_getD]

end LateAcceptance

namespace TabuSearch

variable {t : TabuSearch} {signatures : List MoveSignature} {m : MoveSignature}

/-- The search that saw steps with some signatures, the latest first, since it remembered nothing. -/
def after (t : TabuSearch) (signatures : List MoveSignature) : TabuSearch :=
  { t with recent := signatures.take t.window }

/-- A search that saw no steps remembers nothing. -/
theorem after_nil (t : TabuSearch) : t.after [] = t.clear := by rw [after, List.take_nil, clear]

/-- A step with a signature is the latest one. -/
theorem stepEnded_after (t : TabuSearch) (signatures : List MoveSignature) (m : MoveSignature) :
    (t.after signatures).stepEnded (some m) = t.after (m :: signatures) := by
  have htake : ∀ n, (m :: signatures.take n).take n = (m :: signatures).take n := fun n => by
    cases n with
    | zero => rfl
    | succ n => rw [List.take_succ_cons, List.take_succ_cons, List.take_take, Nat.min_eq_left n.le_succ]
  exact congrArg (fun recent => { t with recent }) (htake t.window)

/-- The two memories reach as far back as each of them is said to, although the signatures are kept only once. -/
theorem isTabu_after : (t.after signatures).isTabu m = true ↔
    (∃ s ∈ signatures.take t.entitySize, s.touches m = true) ∨
      ∃ s ∈ signatures.take t.moveSize, s.reverses m = true := by
  have hentity : (signatures.take t.window).take t.entitySize = signatures.take t.entitySize := by
    rw [List.take_take, window, Nat.min_eq_left (Nat.le_max_left _ _)]
  have hmove : (signatures.take t.window).take t.moveSize = signatures.take t.moveSize := by
    rw [List.take_take, window, Nat.min_eq_left (Nat.le_max_right _ _)]
  simp [isTabu, after, hentity, hmove]

end TabuSearch

namespace Acceptor

variable {k : ScoreKind}

/-- Whatever late acceptance is told, it goes on looking back the same number of steps. -/
theorem exists_toldAll_lateAcceptance (a : LateAcceptance k) (events : List (AcceptorEvent k)) :
    ∃ b : LateAcceptance k, b.size = a.size ∧ (lateAcceptance a).toldAll events = lateAcceptance b := by
  induction events generalizing a with
  | nil => exact ⟨a, rfl, rfl⟩
  | cons e events ih =>
    cases e with
    | phaseStarted score => exact ih (a.phaseStarted score)
    | stepEnded score signature => exact ih (a.stepEnded score)
    | phaseEnded => exact ih a.phaseEnded

/-- The steps of a phase are recalled one after another. -/
theorem exists_recalls_toldAll {a : LateAcceptance k} {n : Nat} {initial : Score k} {scores : List (Score k)}
    (h : a.Recalls n initial scores) (steps : List (Score k × Option MoveSignature)) :
    ∃ b : LateAcceptance k, b.Recalls n initial (scores ++ steps.map Prod.fst) ∧
      (lateAcceptance a).toldAll (steps.map fun s => .stepEnded s.1 s.2) = lateAcceptance b := by
  induction steps generalizing a scores with
  | nil => exact ⟨a, by simpa using h, rfl⟩
  | cons s steps ih =>
    obtain ⟨b, hb, htold⟩ := ih (h.stepEnded s.1)
    exact ⟨b, by simpa using hb, htold⟩

/-- Late acceptance compares with the last step and with the step so many steps ago, where zero steps count as one
and the score at the start of the phase stands for steps before it. What was before the start is forgotten. -/
theorem accepts_lateAcceptance (size : Nat) (before : List (AcceptorEvent k)) (initial : Score k)
    (steps : List (Score k × Option MoveSignature)) (e : Evaluation k) :
    (((lateAcceptance (.ofSize k size)).toldAll (before ++ .phaseStarted initial ::
        steps.map fun s => .stepEnded s.1 s.2)).accepts e) =
      pure (e.score.reaches e.last ||
        e.score.reaches (scoreAgo (max size 1) initial (steps.map Prod.fst))) := by
  obtain ⟨a, hsize, htold⟩ := exists_toldAll_lateAcceptance (.ofSize k size) before
  obtain ⟨b, hb, hsteps⟩ := exists_recalls_toldAll (a.recalls_phaseStarted initial) steps
  rw [List.nil_append, hsize] at hb
  have hall : (lateAcceptance (.ofSize k size)).toldAll (before ++ .phaseStarted initial ::
      steps.map fun s => .stepEnded s.1 s.2) = lateAcceptance b := by
    rw [toldAll_append, htold]
    exact hsteps
  rw [hall, accepts, LateAcceptance.accepts, hb.lateScore_eq]
  rfl

end Acceptor

end Planning
