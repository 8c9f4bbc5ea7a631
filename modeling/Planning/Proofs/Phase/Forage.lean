import Planning.Proofs.Phase.HillClimbing
import Planning.Proofs.Phase.LocalSearch
import Planning.Proofs.Run.Leads
import Planning.Proofs.Selector.Neighborhood

/-!
# What a step picks

With a single thread the candidates of a step are tried in their order. The attempts end with the first accepted one
that is worth stopping for or that is the last of as many as are wanted. The forager picks that one if it is worth
stopping for, and one of the best accepted ones otherwise.
-/

namespace Planning

open Checked

/-- A candidate that was tried. -/
structure Attempt (S : Type) (k : ScoreKind) where
  /-- Its place among the candidates. -/
  place : Nat
  /-- The candidate itself. -/
  move : Move S
  /-- The score that it has. -/
  score : Score k
  /-- The acceptor accepted it. -/
  isAccepted : Bool

namespace Attempt

variable {S : Type} {k : ScoreKind}

/-- The attempts that were accepted. -/
def accepted (attempts : List (Attempt S k)) : List (Attempt S k) := attempts.filter Attempt.isAccepted

/-- The accepted attempts that no accepted one beats. -/
def unbeaten (attempts : List (Attempt S k)) : List (Attempt S k) :=
  (accepted attempts).filter fun t => (accepted attempts).all fun u => t.score.reaches u.score

/-- What a forager gathers of an attempt. -/
def entry (t : Attempt S k) : Nat × Score k := (t.place, t.score)

theorem accepted_concat (attempts : List (Attempt S k)) (t : Attempt S k) :
    accepted (attempts ++ [t]) = if t.isAccepted then accepted attempts ++ [t] else accepted attempts := by
  cases ht : t.isAccepted <;> simp [accepted, ht]

end Attempt

namespace Forager

variable {S : Type} {k : ScoreKind} {f : Forager k} {last best : Score k} {attempts : List (Attempt S k)} {t : Attempt S k}

/-!
## Foragers that are offered attempts
-/

/-- A score is worth stopping for. -/
def isWorth (f : Forager k) (last best score : Score k) : Bool :=
  match f.pickEarly with
  | .never => false
  | .firstBestScoreImproving => score.beats best
  | .firstLastStepScoreImproving => score.beats last

/-- The forager after some attempts: it was offered those that were accepted. -/
def offered (f : Forager k) (last best : Score k) (attempts : List (Attempt S k)) : Forager k :=
  attempts.foldl (fun f t => if t.isAccepted then f.addCompared t.place t.score last best else f) f

/-- The latest attempt was accepted and is worth stopping for. -/
def EndsEarly (f : Forager k) (last best : Score k) (attempts : List (Attempt S k)) : Prop :=
  ∃ t ∈ attempts.getLast?, t.isAccepted = true ∧ f.isWorth last best t.score = true

/-- The latest attempt was accepted, and is worth stopping for or fills the limit. -/
def Enough (f : Forager k) (last best : Score k) (attempts : List (Attempt S k)) : Prop :=
  ∃ t ∈ attempts.getLast?, t.isAccepted = true ∧
    (f.isWorth last best t.score = true ∨ f.limit ≤ (Attempt.accepted attempts).length)

theorem addCompared_eq (f : Forager k) (place : Nat) (score last best : Score k) :
    f.addCompared place score last best =
      { f with accepted := (place, score) :: f.accepted, pickedEarly := f.isWorth last best score } :=
  rfl

theorem offered_concat (f : Forager k) (last best : Score k) (attempts : List (Attempt S k)) (t : Attempt S k) :
    f.offered last best (attempts ++ [t]) =
      if t.isAccepted then (f.offered last best attempts).addCompared t.place t.score last best
      else f.offered last best attempts := by
  rw [offered, List.foldl_append]
  rfl

/-- A forager that is offered attempts gathers what was accepted and keeps its settings. -/
theorem exists_offered_eq (f : Forager k) (last best : Score k) (attempts : List (Attempt S k)) :
    ∃ early, f.offered last best attempts =
      { f with accepted := (Attempt.accepted attempts).reverse.map Attempt.entry ++ f.accepted, pickedEarly := early } := by
  induction attempts using List.reverseRecOn with
  | nil => exact ⟨f.pickedEarly, rfl⟩
  | append_singleton attempts t ih =>
    obtain ⟨early, ih⟩ := ih
    rw [offered_concat, Attempt.accepted_concat, ih]
    split
    · exact ⟨_, by rw [addCompared_eq, List.reverse_append]; rfl⟩
    · exact ⟨early, rfl⟩

/-- An accepted attempt is the latest that a forager was offered, which knows whether it is worth stopping for. -/
theorem pickedEarly_offered_concat (ht : t.isAccepted = true) :
    (f.offered last best (attempts ++ [t])).pickedEarly = f.isWorth last best t.score := by
  obtain ⟨early, hoffered⟩ := f.exists_offered_eq last best attempts
  rw [offered_concat, if_pos ht, hoffered]
  rfl

/-- A forager that was offered an accepted attempt is done when there were enough. -/
theorem isDone_offered_concat (hf : f.accepted = []) (ht : t.isAccepted = true) :
    (f.offered last best (attempts ++ [t])).isDone = true ↔ f.Enough last best (attempts ++ [t]) := by
  have hearly : (f.offered last best (attempts ++ [t])).pickedEarly = f.isWorth last best t.score :=
    pickedEarly_offered_concat ht
  obtain ⟨early, hoffered⟩ := f.exists_offered_eq last best (attempts ++ [t])
  rw [hoffered] at hearly ⊢
  change early = f.isWorth last best t.score at hearly
  simp [isDone, Enough, hf, ht, hearly]

/-- Where a forager was offered something worth stopping for, the attempts up to it ended early. -/
theorem exists_endsEarly (hf : f.pickedEarly = false) (h : (f.offered last best attempts).pickedEarly = true) :
    ∃ earlier later, attempts = earlier ++ later ∧ f.EndsEarly last best earlier := by
  induction attempts using List.reverseRecOn with
  | nil =>
    change f.pickedEarly = true at h
    rw [hf] at h
    cases h
  | append_singleton attempts t ih =>
    cases ht : t.isAccepted with
    | true =>
      rw [pickedEarly_offered_concat ht] at h
      exact ⟨attempts ++ [t], [], by simp, t, by simp, ht, h⟩
    | false =>
      rw [offered_concat, ht] at h
      obtain ⟨earlier, later, heq, hends⟩ := ih h
      exact ⟨earlier, later ++ [t], by rw [heq, List.append_assoc], hends⟩

/-- Attempts that end early are enough. -/
theorem EndsEarly.enough (h : f.EndsEarly last best attempts) : f.Enough last best attempts := by
  obtain ⟨t, ht, haccepted, hworth⟩ := h
  exact ⟨t, ht, haccepted, .inl hworth⟩

/-!
## What is picked
-/

/-- The best score of some moves is that of one of them, and reaches all others. -/
theorem bestScore?_eq_some {l : List (Nat × Score k)} {score : Score k} (h : bestScore? l = some score) :
    (∃ y ∈ l, y.2 = score) ∧ ∀ y ∈ l, score.reaches y.2 = true := by
  cases l with
  | nil => cases h
  | cons y l =>
    cases h
    induction l using List.reverseRecOn with
    | nil => simp
    | append_singleton l z ih =>
      obtain ⟨⟨w, hw, heq⟩, hall⟩ := ih
      rw [List.foldl_append, List.foldl_cons, List.foldl_nil, ← List.cons_append]
      generalize l.foldl (fun a m => a.max m.2) y.2 = b at heq hall ⊢
      rw [Score.max]
      split
      · rename_i hgt
        have hbeats : b.beats z.2 = true := by simp [Score.beats, hgt]
        refine ⟨⟨w, List.mem_append_left _ hw, heq⟩, fun v hv => ?_⟩
        rcases List.mem_append.1 hv with hv | hv
        · exact hall v hv
        · exact List.mem_singleton.1 hv ▸ Score.reaches_of_beats hbeats
      · rename_i hgt
        have hreaches : z.2.reaches b = true := by
          rw [← Bool.not_eq_false, ← Score.beats_iff]
          simpa [Score.beats] using hgt
        refine ⟨⟨z, by simp, rfl⟩, fun v hv => ?_⟩
        rcases List.mem_append.1 hv with hv | hv
        · exact Score.reaches_trans hreaches (hall v hv)
        · exact List.mem_singleton.1 hv ▸ Score.reaches_refl _

/-- The ties are the gathered moves that reach all gathered ones. -/
theorem ties_eq (f : Forager k) :
    f.ties = f.accepted.reverse.filter fun y => f.accepted.all fun z => y.2.reaches z.2 := by
  unfold ties
  cases hbest : bestScore? f.accepted with
  | none =>
    cases haccepted : f.accepted with
    | nil => rfl
    | cons y l =>
      rw [haccepted] at hbest
      cases hbest
  | some score =>
    obtain ⟨⟨w, hw, rfl⟩, hall⟩ := bestScore?_eq_some hbest
    refine List.filter_congr fun y hy => ?_
    rw [Bool.eq_iff_iff, beq_iff_eq, List.all_eq_true]
    refine ⟨fun heq z hz => heq ▸ hall z hz, fun hreaches => ?_⟩
    exact Score.eq_of_reaches (hreaches w hw) (hall y (List.mem_reverse.1 hy))

/-- Among moves that were gathered there are ties. -/
theorem ties_eq_nil_iff : f.ties = [] ↔ f.accepted = [] := by
  cases hbest : bestScore? f.accepted with
  | none =>
    cases haccepted : f.accepted with
    | nil => simp [ties, haccepted, bestScore?]
    | cons y l =>
      rw [haccepted] at hbest
      cases hbest
  | some score =>
    obtain ⟨⟨y, hy, rfl⟩, hall⟩ := bestScore?_eq_some hbest
    have hmem : y ∈ f.ties := by
      rw [ties_eq, List.mem_filter, List.mem_reverse, List.all_eq_true]
      exact ⟨hy, hall⟩
    exact ⟨fun hnil => absurd (hnil ▸ hmem) List.not_mem_nil, fun hnil => absurd (hnil ▸ hy) List.not_mem_nil⟩

/-- What is picked of some attempts: nothing only if nothing was accepted, what ends the attempts early if anything does,
and one of the best accepted ones otherwise, which is the first of them if ties are broken so. -/
structure Picks (f : Forager k) (last best : Score k) (attempts : List (Attempt S k)) (picked : Option (Attempt S k)) :
    Prop where
  /-- Nothing is picked only if nothing was accepted. -/
  none_iff : picked = none ↔ Attempt.accepted attempts = []
  /-- What was worth stopping for is picked. -/
  early : f.EndsEarly last best attempts → picked = attempts.getLast?
  /-- What is picked otherwise was accepted, and no accepted attempt has a better score. -/
  unbeaten : ¬ f.EndsEarly last best attempts → ∀ t ∈ picked, t ∈ Attempt.accepted attempts ∧
    ∀ u ∈ Attempt.accepted attempts, t.score.reaches u.score = true
  /-- The first of the best is picked if ties are broken so. -/
  first : ¬ f.EndsEarly last best attempts → f.tieBreak = .firstEncountered →
    FirstBest Attempt.score (Attempt.accepted attempts) picked

/-- What is picked was accepted. -/
theorem Picks.mem {picked : Option (Attempt S k)} (h : f.Picks last best attempts picked) (ht : t ∈ picked) :
    t ∈ Attempt.accepted attempts := by
  by_cases hends : f.EndsEarly last best attempts
  · obtain ⟨u, hu, hyes, -⟩ := id hends
    rw [h.early hends, hu, Option.mem_some_iff] at ht
    exact ht ▸ List.mem_filter.2 ⟨List.mem_of_getLast? hu, hyes⟩
  · exact (h.unbeaten hends t ht).1

/-- Something is picked whatever the stream of random numbers is. -/
theorem total_pick (f : Forager k) : Generator.Total f.pick := by
  unfold pick
  refine .ite (.pure _) ?_
  split
  · exact .pure _
  · exact .ite (.pure _) ((Generator.total_below _).bind fun _ => .pure _)

/-- Where the latest move was not worth stopping for, one of the ties is picked if there are any. -/
theorem of_pick_ties {picked : Option (Nat × Score k)} {gen gen' : Generator} (hf : f.pickedEarly = false)
    (h : f.pick.run gen = .ok (picked, gen')) :
    (picked = none ↔ f.ties = []) ∧ (∀ y ∈ picked, y ∈ f.ties) ∧
      (f.tieBreak = .firstEncountered → picked = f.ties.head?) := by
  rw [pick, hf] at h
  split at h
  · contradiction
  split at h
  · obtain ⟨rfl, -⟩ := Prod.mk.inj (Except.ok.inj h)
    exact ⟨List.head?_eq_none_iff, fun y => List.mem_of_mem_head?, fun _ => rfl⟩
  · rename_i htie
    rw [htie]
    split at h
    · rename_i hnil
      obtain ⟨rfl, -⟩ := Prod.mk.inj (Except.ok.inj h)
      exact ⟨iff_of_true rfl (List.isEmpty_iff.1 hnil), nofun, nofun⟩
    · rename_i hsome
      obtain ⟨⟨i, gen₁⟩, hdraw, h⟩ := bind_eq_ok_iff.1 h
      obtain ⟨hpicked, -⟩ := Prod.mk.inj (Except.ok.inj h)
      have hne : f.ties ≠ [] := fun hnil => hsome (List.isEmpty_iff.2 hnil)
      have hlt := Generator.lt_of_below (List.length_pos_iff.2 hne) hdraw
      refine ⟨iff_of_false ?_ hne, fun y hy => ?_, nofun⟩
      · rw [← hpicked]
        simp [hlt]
      · rw [← hpicked] at hy
        exact List.mem_of_getElem? hy

/-- The first of some things that reaches all of them is the first of the best. -/
theorem firstBest_of_find? {α : Type} {score : α → Score k} {l : List α} {a : α}
    (h : (l.filter fun a => l.all fun b => (score a).reaches (score b)).head? = some a) :
    FirstBest score l (some a) := by
  rw [List.head?_filter, List.find?_eq_some_iff_append] at h
  obtain ⟨hall, before, after, heq, hbefore⟩ := h
  have hreaches : ∀ b ∈ l, (score a).reaches (score b) = true := List.all_eq_true.1 hall
  refine ⟨before, after, heq, fun b hb => ?_, fun b hb => hreaches b (by simp [heq, hb])⟩
  rw [Score.beats_iff, ← Bool.not_eq_true]
  -- What reaches the first one reaches all, and would come before it.
  intro hback
  refine Bool.false_ne_true ((Bool.not_eq_true' _ ▸ hbefore b hb).symm.trans ?_)
  exact List.all_eq_true.2 fun c hc => Score.reaches_trans hback (hreaches c hc)

section Offered

variable {out : Option (Nat × Score k)} {gen gen' : Generator} (hf : f.accepted = [])
  (h : (f.offered last best attempts).pick.run gen = .ok (out, gen'))
include hf

/-- What was gathered of attempts are those that were accepted, the latest first. -/
theorem accepted_offered :
    (f.offered last best attempts).accepted = (Attempt.accepted attempts).reverse.map Attempt.entry := by
  obtain ⟨early, hoffered⟩ := f.exists_offered_eq last best attempts
  rw [hoffered, hf, List.append_nil]

/-- The ties among attempts are those that no accepted one beats. -/
theorem ties_offered : (f.offered last best attempts).ties = (Attempt.unbeaten attempts).map Attempt.entry := by
  rw [ties_eq, accepted_offered hf, ← List.map_reverse, List.reverse_reverse, List.filter_map]
  simp only [List.all_map, List.all_reverse]
  rfl

include h

/-- What ends the attempts early is picked. -/
theorem exists_picks_of_endsEarly (hends : f.EndsEarly last best attempts) :
    ∃ picked, out = picked.map Attempt.entry ∧ f.Picks last best attempts picked := by
  obtain ⟨t, ht, hyes, hworth⟩ := id hends
  obtain ⟨front, rfl⟩ := List.getLast?_eq_some_iff.1 ht
  rw [pick, pickedEarly_offered_concat hyes, hworth, accepted_offered hf, Attempt.accepted_concat, if_pos hyes] at h
  obtain ⟨rfl, -⟩ := Prod.mk.inj (Except.ok.inj h)
  refine ⟨some t, by simp, ?_, fun _ => ht.symm, fun hnot => absurd hends hnot, fun hnot => absurd hends hnot⟩
  simp [Attempt.accepted_concat, hyes]

/-- Where nothing was worth stopping for, what is picked is one of the ties, the first one if they are broken so. -/
theorem exists_picks_of_ties (hlate : (f.offered last best attempts).pickedEarly = false) :
    ∃ picked, out = picked.map Attempt.entry ∧ f.Picks last best attempts picked := by
  have hnot : ¬ f.EndsEarly last best attempts := by
    rintro ⟨t, ht, hyes, hworth⟩
    obtain ⟨front, rfl⟩ := List.getLast?_eq_some_iff.1 ht
    rw [pickedEarly_offered_concat hyes, hworth] at hlate
    cases hlate
  have htie : (f.offered last best attempts).tieBreak = f.tieBreak := by
    obtain ⟨early, hoffered⟩ := f.exists_offered_eq last best attempts
    rw [hoffered]
  have hnone : (f.offered last best attempts).ties = [] ↔ Attempt.accepted attempts = [] := by
    rw [ties_eq_nil_iff, accepted_offered hf, List.map_eq_nil_iff, List.reverse_eq_nil_iff]
  obtain ⟨hout, hmem, hhead⟩ := of_pick_ties hlate h
  rw [hnone] at hout
  rw [htie] at hhead
  rw [ties_offered hf] at hmem hhead
  -- What is picked stands for an attempt, which is the first of the ties if they are broken so.
  obtain ⟨picked, rfl, htop, hfirst⟩ : ∃ picked, out = picked.map Attempt.entry ∧
      (∀ t ∈ picked, t ∈ Attempt.unbeaten attempts) ∧
      (f.tieBreak = .firstEncountered → picked = (Attempt.unbeaten attempts).head?) := by
    by_cases hbreak : f.tieBreak = .firstEncountered
    · exact ⟨_, by rw [hhead hbreak, List.head?_map], fun t => List.mem_of_mem_head?, fun _ => rfl⟩
    · cases out with
      | none => exact ⟨none, rfl, nofun, fun h => absurd h hbreak⟩
      | some y =>
        obtain ⟨t, ht, rfl⟩ := List.mem_map.1 (hmem y rfl)
        exact ⟨some t, rfl, fun u hu => Option.some.inj hu ▸ ht, fun h => absurd h hbreak⟩
  rw [Option.map_eq_none_iff] at hout
  refine ⟨picked, rfl, hout, fun hends => absurd hends hnot, fun _ t ht => ?_, fun _ hbreak => ?_⟩
  · obtain ⟨haccepted, hall⟩ := List.mem_filter.1 (htop t ht)
    exact ⟨haccepted, List.all_eq_true.1 hall⟩
  · cases picked with
    | none => exact hout.1 rfl
    | some t => exact firstBest_of_find? (hfirst hbreak).symm

/-- What a forager picks that was offered attempts until there were enough. -/
theorem exists_picks (hstart : f.pickedEarly = false)
    (hfirst : ∀ earlier later, attempts = earlier ++ later → later ≠ [] → ¬ f.Enough last best earlier) :
    ∃ picked, out = picked.map Attempt.entry ∧ f.Picks last best attempts picked := by
  cases hearly : (f.offered last best attempts).pickedEarly with
  | true =>
    obtain ⟨earlier, later, rfl, hends⟩ := exists_endsEarly hstart hearly
    obtain rfl : later = [] := by_contra fun hne => hfirst _ _ rfl hne hends.enough
    exact exists_picks_of_endsEarly hf h (by rwa [List.append_nil])
  | false => exact exists_picks_of_ties hf h hearly

end Offered

end Forager

namespace LocalSearch

open Running

/-!
## The candidates of a step
-/

section Attempts

variable {S : Type} {k : ScoreKind}

/-- The candidates that would change a solution, with their places from a first one on. -/
def doable (s : S) (place : Nat) (moves : List (Move S)) : List (Move S × Nat) :=
  (moves.zipIdx place).filter fun y => y.1.isDoable s

/-- Behind some attempts those from a place on are made in order, up to the first with which there are enough. -/
structure Considers (f : Forager k) (last best : Score k) (s : S) (front : List (Attempt S k)) (place : Nat)
    (moves : List (Move S)) (attempts : List (Attempt S k)) : Prop where
  /-- The candidates that would change the solution are tried in their order. -/
  order : attempts.map (fun t => (t.move, t.place)) <+: doable s place moves
  /-- As long as there are more attempts there were not enough. -/
  first : ∀ earlier later, attempts = earlier ++ later → later ≠ [] → ¬ f.Enough last best (front ++ earlier)
  /-- If there are not enough all candidates that would change the solution were tried. -/
  all : f.Enough last best (front ++ attempts) ∨ attempts.map (fun t => (t.move, t.place)) = doable s place moves

/-- A candidate with its place stands there. -/
theorem getElem?_of_mem_doable {s : S} {place : Nat} {moves : List (Move S)} {y : Move S × Nat}
    (h : y ∈ doable s place moves) : moves[y.2 - place]? = some y.1 := by
  exact List.getElem?_eq_some_iff.2 ⟨_, (List.mem_zipIdx (List.mem_filter.1 h).1).2.2.symm⟩

namespace Considers

variable {f : Forager k} {last best : Score k} {s : S} {front attempts : List (Attempt S k)} {place : Nat} {m : Move S}
variable {moves : List (Move S)} {t : Attempt S k}

/-- There is nothing to try. -/
theorem nil : Considers f last best s front place [] [] where
  order := List.nil_prefix
  first _ _ h hne := absurd (List.append_eq_nil_iff.1 h.symm).2 hne
  all := .inr rfl

/-- A candidate that would change nothing is passed over. -/
theorem skip (hm : m.isDoable s = false) (h : Considers f last best s front (place + 1) moves attempts) :
    Considers f last best s front place (m :: moves) attempts := by
  have hsame : doable s place (m :: moves) = doable s (place + 1) moves := by simp [doable, hm]
  exact ⟨hsame ▸ h.order, h.first, hsame ▸ h.all⟩

/-- A candidate is tried, and there are enough. -/
theorem stop (hm : m.isDoable s = true) (hplace : t.place = place) (hmove : t.move = m)
    (hbefore : ¬ f.Enough last best front) (hafter : f.Enough last best (front ++ [t])) :
    Considers f last best s front place (m :: moves) [t] where
  order := by simp [doable, hm, hplace, hmove]
  first earlier later h hne := by
    cases earlier with
    | nil => simpa using hbefore
    | cons u earlier =>
      have hnil : earlier ++ later = [] := (List.cons.inj h).2.symm
      exact absurd (List.append_eq_nil_iff.1 hnil).2 hne
  all := .inl hafter

/-- A candidate is tried, and there are not enough. -/
theorem cons (hm : m.isDoable s = true) (hplace : t.place = place) (hmove : t.move = m)
    (hbefore : ¬ f.Enough last best front) (h : Considers f last best s (front ++ [t]) (place + 1) moves attempts) :
    Considers f last best s front place (m :: moves) (t :: attempts) := by
  have hmore : doable s place (m :: moves) = (m, place) :: doable s (place + 1) moves := by simp [doable, hm]
  refine ⟨?_, fun earlier later heq hne => ?_, ?_⟩
  · rw [hmore, List.map_cons, hplace, hmove]
    exact List.cons_prefix_cons.2 ⟨rfl, h.order⟩
  · cases earlier with
    | nil => simpa using hbefore
    | cons u earlier =>
      obtain ⟨rfl, hrest⟩ := List.cons.inj heq
      simpa using h.first earlier later hrest hne
  · rw [hmore, List.map_cons, hplace, hmove]
    exact h.all.imp (by simp) (congrArg _)

/-- What is tried is a candidate at its place. -/
theorem getElem? (h : Considers f last best s front 0 moves attempts) (ht : t ∈ attempts) :
    moves[t.place]? = some t.move :=
  getElem?_of_mem_doable (h.order.subset (List.mem_map_of_mem ht))

end Considers

end Attempts

variable {S : Type} {k : ScoreKind} [PlanningSolution S k]
variable {B L F : Type} {V : B → Type} {W : L → Type}
variable {g : Genuine S V W} {facts : S → F} {shadows : ShadowCascade S} {s : S} {m : Move S}
variable {r r' : RunState S k} {a : Acceptor k} {last best score : Score k} {moves : List (Move S)} {e : Stop}

/-- A run goes through attempts: each candidate is evaluated, which gives its score, and the acceptor decides. -/
inductive Tries (a : Acceptor k) (last best : Score k) : RunState S k → List (Attempt S k) → RunState S k → Prop where
  /-- Nothing is tried. -/
  | nil (r : RunState S k) : Tries a last best r [] r
  /-- A candidate is tried before others. -/
  | cons {r r₁ r₂ r' : RunState S k} {t : Attempt S k} {attempts : List (Attempt S k)}
    (hscore : evaluate t.move r = .ok t.score r₁)
    (haccepted : accepted a last best t.score t.move r₁ = .ok t.isAccepted r₂)
    (hrest : Tries a last best r₂ attempts r') : Tries a last best r (t :: attempts) r'

/-- Attempts stop a run: behind some of them a candidate that would change the solution cannot be evaluated, or too
many candidates were counted. -/
inductive Fails (a : Acceptor k) (last best : Score k) (moves : List (Move S)) (r : RunState S k) (e : Stop)
    (r' : RunState S k) : Prop where
  /-- A candidate cannot be evaluated. -/
  | evaluation {attempts : List (Attempt S k)} {r₁ : RunState S k} {m : Move S} (h : Tries a last best r attempts r₁)
    (hm : m ∈ moves) (hdoable : m.isDoable r₁.director.solution = true) (hfails : evaluate m r₁ = .error e r')
  /-- Too many candidates were counted. -/
  | count (h : e = .faulted .overflow) (hcount : maxCount ≤ r'.moves)

/-- What stops a run behind an attempt stops it. -/
theorem Fails.cons {r₁ r₂ : RunState S k} {t : Attempt S k} (hscore : evaluate t.move r = .ok t.score r₁)
    (haccepted : accepted a last best t.score t.move r₁ = .ok t.isAccepted r₂)
    (h : Fails a last best moves r₂ e r') : Fails a last best (m :: moves) r e r' := by
  cases h with
  | evaluation h hm hdoable hfails =>
    exact .evaluation (.cons hscore haccepted h) (List.mem_cons_of_mem _ hm) hdoable hfails
  | count h hcount => exact .count h hcount

/-- What stops a run among fewer candidates stops it. -/
theorem Fails.skip (h : Fails a last best moves r e r') : Fails a last best (m :: moves) r e r' := by
  cases h with
  | evaluation h hm hdoable hfails => exact .evaluation h (List.mem_cons_of_mem _ hm) hdoable hfails
  | count h hcount => exact .count h hcount

/-- The acceptor decides whatever the stream of random numbers is. -/
theorem total_accepts (a : Acceptor k) (e : Evaluation k) : Generator.Total (a.accepts e) := by
  have hreal : Generator.Total Generator.unitReal :=
    (Generator.total_word.bind fun _ => Generator.total_word.bind fun _ => .pure _).bind fun _ => .pure _
  cases a with
  | hillClimbing => exact .pure _
  | annealing a => exact .ite (.pure _) (.ite (hreal.bind fun _ => .pure _) (.pure _))
  | lateAcceptance a => exact .pure _
  | tabu t => exact .pure _

omit [PlanningSolution S k] in
/-- Asking the acceptor leaves a run calm, unless too many moves were counted. -/
theorem ends_accepted_calm (h : r.Calm g facts shadows s) (score : Score k) :
    Ends (accepted a last best score m) r (fun _ r' => r'.Calm g facts shadows s)
      fun e r' => e = .faulted .overflow ∧ maxCount ≤ r'.moves := by
  simp only [accepted, ends_bind, ends_get, ends_draw, ends_recordMove, ends_pure]
  refine ⟨fun _ gen _ => ⟨fun _ _ => h.congr rfl rfl rfl, fun f hcount => ?_⟩, fun f hdraw => ?_⟩
  · obtain ⟨hlt, rfl⟩ := counted_eq_error_iff.1 hcount
    exact ⟨rfl, Nat.le_of_lt_succ hlt⟩
  · obtain ⟨_, _, hok⟩ := total_accepts a _ r.generator
    rw [hok] at hdraw
    cases hdraw

variable [DecidableEq B] [DecidableEq L]
variable [∀ b, PlanningValue (V b)] [∀ b, DecidableEq (V b)] [∀ l, PlanningValue (W l)] [∀ l, DecidableEq (W l)]
variable {f : Forager k} {front : List (Attempt S k)} {place : Nat} {x : LocalSearch S k} {st : SearchState S k}

/-- Going through the candidates makes attempts until there are enough, and leaves a run calm. -/
theorem ends_scan_tries (hreg : g.Regular facts shadows) (h : r.Calm g facts shadows s)
    (hmoves : ∀ m ∈ moves, g.Moves m) (hf : f.accepted = []) (hfront : ¬ f.Enough last best front) :
    Ends (scan a last best (f.offered last best front) place moves) r
      (fun f' r' => r'.Calm g facts shadows s ∧ ∃ attempts, Tries a last best r attempts r' ∧
        Considers f last best s front place moves attempts ∧ f' = f.offered last best (front ++ attempts))
      (Fails a last best moves r) := by
  induction moves generalizing r place front with
  | nil => exact ⟨h, [], .nil r, .nil, by rw [List.append_nil]⟩
  | cons m ms ih =>
    obtain ⟨hm, hmoves⟩ := List.forall_mem_cons.1 hmoves
    simp only [scan, ends_bind, ends_get, ends_ite]
    refine ⟨fun hidle => ?_, fun hdoable => ?_⟩
    · have hidle : m.isDoable s = false := by simpa [hm.isDoable_alike hreg.governed h.alike] using hidle
      refine (ih h hmoves hfront).mono (fun f' r' hr' => ?_) fun _ _ => Fails.skip
      obtain ⟨hcalm, attempts, htries, hconsiders, hf'⟩ := hr'
      exact ⟨hcalm, attempts, htries, hconsiders.skip hidle, hf'⟩
    · have hdoable : m.isDoable r.director.solution = true := by simpa using hdoable
      have hdoable' : m.isDoable s = true := (hm.isDoable_alike hreg.governed h.alike).symm.trans hdoable
      refine ((ends_evaluate_calm hreg h hm).and (ends_self _ r)).mono (fun score r₁ hr₁ => ?_) fun e r' he =>
        .evaluation (.nil r) List.mem_cons_self hdoable he.2
      obtain ⟨⟨hcalm₁, -⟩, hscore⟩ := hr₁
      refine (ends_accepted_calm hcalm₁ score).eq.mono (fun isAccepted r₂ hr₂ => ?_) fun e r' he => .count he.1 he.2
      obtain ⟨hcalm₂, haccepted⟩ := hr₂
      let t : Attempt S k := ⟨place, m, score, isAccepted⟩
      -- Where there are not enough the search goes on with the candidates behind.
      have hgo : ¬ f.Enough last best (front ++ [t]) →
          Ends (scan a last best (f.offered last best (front ++ [t])) (place + 1) ms) r₂
            (fun f' r' => r'.Calm g facts shadows s ∧ ∃ attempts, Tries a last best r attempts r' ∧
              Considers f last best s front place (m :: ms) attempts ∧ f' = f.offered last best (front ++ attempts))
            (Fails a last best (m :: ms) r) := fun hmore => by
        refine (ih hcalm₂ hmoves hmore).mono (fun f' r' hr' => ?_) fun e r' he => Fails.cons (t := t) hscore haccepted he
        obtain ⟨hcalm, attempts, htries, hconsiders, hf'⟩ := hr'
        exact ⟨hcalm, t :: attempts, .cons hscore haccepted htries, hconsiders.cons hdoable' rfl rfl hfront,
          by simpa using hf'⟩
      have hoffered := f.offered_concat last best front t
      refine ⟨fun hyes => ?_, fun hno => ?_⟩
      · have hyes' : t.isAccepted = true := hyes
        rw [if_pos hyes'] at hoffered
        rw [← hoffered, Forager.isDone_offered_concat hf hyes']
        refine ⟨fun henough => ?_, hgo⟩
        exact ⟨hcalm₂, [t], .cons hscore haccepted (.nil r₂), .stop hdoable' rfl rfl hfront henough, rfl⟩
      · have hno' : ¬ t.isAccepted = true := hno
        rw [if_neg hno'] at hoffered
        rw [← hoffered]
        refine hgo ?_
        rintro ⟨u, hu, hyes, -⟩
        rw [List.getLast?_concat, Option.mem_some_iff] at hu
        exact hno' (hu ▸ hyes)

/-- With a single thread a step tries the candidates that would change the solution in their order, up to the first
accepted one that is worth stopping for or fills the limit. It picks that one if it is worth stopping for, one of the
best accepted ones otherwise, and none only if none was accepted; the working solution is left like it was. Nothing
stops it but a candidate that cannot be evaluated and a count that gets too great. -/
theorem forage_picks (hreg : g.Regular facts shadows) (h : r.Tended g facts shadows) (hst : st.forks = [])
    (hmoves : ∀ m ∈ moves, g.Moves m) :
    Ends (x.forage st moves) r
      (fun out r' => ∃ attempts picked r₁, Tries st.acceptor st.last (r.bestScore.getD st.last) r attempts r₁ ∧
        Considers x.forager st.last (r.bestScore.getD st.last) r.director.solution [] 0 moves attempts ∧
        x.forager.Picks st.last (r.bestScore.getD st.last) attempts picked ∧ out = (st, picked.map Attempt.move) ∧
        (∃ gen, r' = { r₁ with generator := gen }) ∧ g.Alike facts r'.director.solution r.director.solution)
      (Fails st.acceptor st.last (r.bestScore.getD st.last) moves r) := by
  have hnone : ¬ x.forager.stepStarted.Enough st.last (r.bestScore.getD st.last) ([] : List (Attempt S k)) := nofun
  have hcalm : r.Calm g facts shadows r.director.solution := ⟨h, .refl _⟩
  simp only [forage, hst, List.isEmpty_nil, if_true, ends_bind, ends_get, ends_pure, ends_draw]
  refine (ends_scan_tries hreg hcalm hmoves rfl hnone).mono (fun f' r₁ hr₁ => ?_) fun _ _ => id
  obtain ⟨hcalm₁, attempts, htries, hconsiders, rfl⟩ := hr₁
  refine ⟨fun out gen hpick => ?_, fun e hpick => ?_⟩
  · obtain ⟨picked, rfl, hpicks⟩ := Forager.exists_picks rfl hpick rfl hconsiders.first
    refine ⟨attempts, picked, r₁, htries, ⟨hconsiders.order, hconsiders.first, hconsiders.all⟩,
      ⟨hpicks.none_iff, hpicks.early, hpicks.unbeaten, hpicks.first⟩, ?_, ⟨gen, rfl⟩, hcalm₁.alike⟩
    cases picked with
    | none => rfl
    | some t =>
      have hplace := hconsiders.getElem? (List.mem_filter.1 (hpicks.mem rfl)).1
      simp [Attempt.entry, hplace]
  · obtain ⟨_, _, hok⟩ := Forager.total_pick _ r₁.generator
    rw [hok] at hpick
    cases hpick

end LocalSearch

namespace Timetable

/-- Nothing waits for the run that starts from the crowded room, and nothing is asked of it. -/
theorem tended_uncrowding : uncrowding.Tended givenRooms bare [] where
  shadows := rfl
  pending _ h := absurd h List.not_mem_nil
  asked := by
    rintro c ⟨w, hw, -⟩
    cases hw

/-- Rooms for the lessons in the crowded room, of which the first is the one that the lesson has. -/
def otherRooms : List (Move Timetable) :=
  [(.change 0 (some 1) : BasicMove Nat), .change 1 (some 0), .change 0 (some 0)].map fun m =>
    m.toMove (givenRooms.basic ())

/-- A search that stands in the crowded room. -/
def crowdedState : SearchState Timetable .hardSoft where
  acceptor := .hillClimbing
  last := ⟨[⟨-10, by decide⟩, .zero], rfl⟩
  forks := []

/-- What is picked if a step succeeds, and how many candidates were tried. -/
def pickOf {σ : Type} : EStateM.Result Stop (RunState Timetable .hardSoft) (σ × Option (Move Timetable)) →
    Option (Option (List Nat) × Nat)
  | .ok out r => some (out.2.map Move.entities, r.moves)
  | .error _ _ => none

/-- Two candidates are tried of which the first is picked, since the second is no better. -/
theorem forage_picks_crowded : pickOf (roomChanges.forage crowdedState otherRooms uncrowding) = some (some [1], 2) ∧
    ∃ attempts picked r₁ r', roomChanges.forage crowdedState otherRooms uncrowding =
        .ok (crowdedState, picked.map Attempt.move) r' ∧
      LocalSearch.Tries .hillClimbing crowdedState.last crowdedState.last uncrowding attempts r₁ ∧
      LocalSearch.Considers roomChanges.forager crowdedState.last crowdedState.last crowded [] 0 otherRooms attempts ∧
      roomChanges.forager.Picks crowdedState.last crowdedState.last attempts picked := by
  have hpick : pickOf (roomChanges.forage crowdedState otherRooms uncrowding) = some (some [1], 2) := by
    decide +kernel
  have hmoves : ∀ m ∈ otherRooms, givenRooms.Moves m := by
    intro m hm
    obtain ⟨m, -, rfl⟩ := List.mem_map.1 hm
    exact Genuine.Moves.basic (g := givenRooms) () m
  have hends : Running.Ends (roomChanges.forage crowdedState otherRooms) uncrowding _ _ :=
    LocalSearch.forage_picks regular_givenRooms tended_uncrowding rfl hmoves
  refine ⟨hpick, ?_⟩
  cases hforage : roomChanges.forage crowdedState otherRooms uncrowding with
  | error e r =>
    rw [hforage] at hpick
    cases hpick
  | ok out r' =>
    obtain ⟨attempts, picked, r₁, htries, hconsiders, hpicks, rfl, -⟩ := hends.of_ok hforage
    exact ⟨attempts, picked, r₁, r', rfl, htries, hconsiders, hpicks⟩

end Timetable

end Planning
