import Planning.Proofs.Constraint.Total
import Planning.Proofs.Graph.Node

/-!
# Calm graphs and runs of events

A node is steady when its batches are orderly as long as those it reads can be digested: only tests for what
is missing and complements may take back in a batch what they brought in it. A graph is calm when joins and
existence tests read steady nodes alone; it digests whatever happens to the solution.
-/

namespace Planning.Node

open Checked Delta

variable {S : Type}

/-- The batches of the node are orderly when it digests what it reads. -/
def Steady : Node S → Prop
  | source _ _ => True
  | filter up _ _ => up.Steady
  | map up _ => up.Steady
  | flatten up _ _ => up.Steady
  | join _ _ _ _ => True
  | .exists _ _ rule _ => rule.shouldExist = true
  | group _ _ _ => True
  | complement _ _ _ _ => False

/-- Joins and existence tests read steady nodes alone. -/
def Calm : Node S → Prop
  | source _ _ => True
  | filter up _ _ => up.Calm
  | map up _ => up.Calm
  | flatten up _ _ => up.Calm
  | join left right _ _ => (left.Calm ∧ left.Steady) ∧ right.Calm ∧ right.Steady
  | .exists left right _ _ => (left.Calm ∧ left.Steady) ∧ right.Calm ∧ right.Steady
  | group up _ _ => up.Calm
  | complement up elements _ _ => up.Calm ∧ elements.Calm

/-- Whether a node is steady does not depend on its state. -/
theorem steady_reset (n : Node S) : n.reset.Steady ↔ n.Steady := by
  induction n <;>
    simp_all [Node.reset, Steady, ofFilter, ofFlatten, ofJoin, ofExists, ofGroup, ofComplement]

/-- Whether a graph is calm does not depend on its state. -/
theorem calm_reset (n : Node S) : n.reset.Calm ↔ n.Calm := by
  induction n <;>
    simp_all [Node.reset, Calm, steady_reset, ofFilter, ofFlatten, ofJoin, ofExists, ofGroup,
      ofComplement]

/-- The answer of a source is one delta at most. -/
theorem orderly_sourceAnswer (c : SourceClass) (members : List Value) (e : SourceEvent) :
    Orderly (sourceAnswer c members e) := by
  unfold sourceAnswer
  split
  · exact List.Pairwise.nil
  · split
    · exact List.pairwise_singleton _ _
    · exact List.pairwise_singleton _ _
    · exact List.pairwise_singleton _ _
    · exact List.Pairwise.nil

/-- A steady node that digests an event answers it in order, as the nodes that read it ask. -/
theorem Steady.answers {n n' : Node S} (hn : n.Steady) {s : S} {e : SourceEvent} {out : List Delta}
    (h : n.Digests s e ∧ (n.Steady → Orderly out)) (hok : n.propagate s e = .ok (n', out)) :
    n.Digests s e ∧ ∀ n' out, n.propagate s e = .ok (n', out) → Orderly out := by
  refine ⟨h.1, fun _ _ hok' => ?_⟩
  cases hok.symm.trans hok'
  exact h.2 hn

/-- A calm graph that is in step digests every event that is true of it, and answers in order if it is
steady. -/
theorem Calm.digests {n n' : Node S} (hn : n.Calm) {V : View S} {T : Tuples} (h : n.InStep V T)
    {s : S} {e : SourceEvent} (ha : n.Admits V s e) {out : List Delta}
    (hok : n.propagate s e = .ok (n', out)) : n.Digests s e ∧ (n.Steady → Orderly out) := by
  induction n generalizing T n' out with
  | source c members =>
    cases hok
    exact ⟨trivial, fun _ => orderly_sourceAnswer _ _ _⟩
  | filter up p passing ih =>
    obtain ⟨U, hup, -⟩ := h
    simp only [Node.propagate, bind_eq_ok_iff, pure_eq_ok_iff] at hok
    obtain ⟨⟨up', ds⟩, h1, ⟨passing', out'⟩, h2, hpure⟩ := hok
    cases hpure
    obtain ⟨hd, ho⟩ := ih hn hup ha h1
    exact ⟨hd, fun hn => Filter.orderly (ho hn) h2⟩
  | map up f ih =>
    obtain ⟨U, hup, -⟩ := h
    simp only [Node.propagate, bind_eq_ok_iff, pure_eq_ok_iff] at hok
    obtain ⟨⟨up', ds⟩, h1, out', h2, hpure⟩ := hok
    cases hpure
    obtain ⟨hd, ho⟩ := ih hn hup ha h1
    exact ⟨hd, fun hn => (Mapped.orderly (ho hn) h2).1⟩
  | flatten up expand state ih =>
    obtain ⟨U, hup, h⟩ := h
    simp only [Node.propagate, bind_eq_ok_iff, pure_eq_ok_iff] at hok
    obtain ⟨⟨up', ds⟩, h1, ⟨state', out'⟩, h2, hpure⟩ := hok
    cases hpure
    obtain ⟨hd, ho⟩ := ih hn hup ha h1
    obtain ⟨U', hU', -⟩ := hup.propagate ha hd h1
    exact ⟨hd, fun hn => h.orderly hU' (ho hn) h2⟩
  | join left right rule state ihl ihr =>
    obtain ⟨L, R, hl, hr, h⟩ := h
    simp only [Node.propagate, bind_eq_ok_iff, pure_eq_ok_iff] at hok
    obtain ⟨⟨left', ls⟩, h1, ⟨right', rs⟩, h2, ⟨state', out'⟩, h3, hpure⟩ := hok
    cases hpure
    have hal : left.Admits V s e := ha.of_reads fun _ => .inl
    have har : right.Admits V s e := ha.of_reads fun _ => .inr
    have hdl := hn.1.2.answers (ihl hn.1.1 hl hal h1) h1
    have hdr := hn.2.2.answers (ihr hn.2.1 hr har h2) h2
    obtain ⟨L', hL', -⟩ := hl.propagate hal hdl.1 h1
    obtain ⟨R', hR', -⟩ := hr.propagate har hdr.1 h2
    obtain ⟨T', hT', -, gone, come, rfl, hgone, hcome, -⟩ :=
      h.process hL' hR' (hdl.2 _ _ h1) (hdr.2 _ _ h2) h3
    exact ⟨⟨hdl, hdr⟩, fun _ => hT'.orderly hgone hcome⟩
  | «exists» left right rule state ihl ihr =>
    obtain ⟨L, R, hl, hr, h⟩ := h
    simp only [Node.propagate, bind_eq_ok_iff, pure_eq_ok_iff] at hok
    obtain ⟨⟨left', ls⟩, h1, ⟨right', rs⟩, h2, ⟨state', out'⟩, h3, hpure⟩ := hok
    cases hpure
    have hal : left.Admits V s e := ha.of_reads fun _ => .inl
    have har : right.Admits V s e := ha.of_reads fun _ => .inr
    have hdl := hn.1.2.answers (ihl hn.1.1 hl hal h1) h1
    have hdr := hn.2.2.answers (ihr hn.2.1 hr har h2) h2
    obtain ⟨L', hL', -⟩ := hl.propagate hal hdl.1 h1
    obtain ⟨R', hR', -⟩ := hr.propagate har hdr.1 h2
    obtain ⟨T', hT', -, gone, less, come, more, rfl, hgone, hless, hcome, hmore, -⟩ :=
      h.process hL' hR' (hdl.2 _ _ h1) (hdr.2 _ _ h2) h3
    refine ⟨⟨hdl, hdr⟩, fun hexist => ?_⟩
    have hgoing : ∀ d ∈ gone ++ less, d.IsRetract := by
      intro d hd
      rcases List.mem_append.1 hd with hd | hd
      · exact hgone d hd
      · exact hless d hd hexist
    have hcoming : ∀ d ∈ come ++ more, d.IsInsert := by
      intro d hd
      rcases List.mem_append.1 hd with hd | hd
      · exact hcome d hd
      · exact (hmore d hd).2 hexist
    rw [List.append_assoc] at hT' ⊢
    exact hT'.orderly hgoing hcoming
  | group up rule state ih =>
    obtain ⟨U, hup, h⟩ := h
    simp only [Node.propagate, bind_eq_ok_iff, pure_eq_ok_iff] at hok
    obtain ⟨⟨up', ds⟩, h1, ⟨state', out'⟩, h2, hpure⟩ := hok
    cases hpure
    obtain ⟨hd, -⟩ := ih hn hup ha h1
    obtain ⟨U', hU', -⟩ := hup.propagate ha hd h1
    obtain ⟨T', -, -, ho, -⟩ := h.process hU' h2
    exact ⟨hd, fun _ => ho⟩
  | complement up elements rule state ihu ihe =>
    obtain ⟨U, E, hup, hel, -⟩ := h
    simp only [Node.propagate, bind_eq_ok_iff, pure_eq_ok_iff] at hok
    obtain ⟨⟨up', ds⟩, h1, ⟨elements', es⟩, h2, -⟩ := hok
    obtain ⟨hdu, -⟩ := ihu hn.1 hup (ha.of_reads fun _ => .inl) h1
    obtain ⟨hde, -⟩ := ihe hn.2 hel (ha.of_reads fun _ => .inr) h2
    exact ⟨⟨hdu, hde⟩, False.elim⟩

end Planning.Node

/-!
## Runs of events

A run is a list of events, each with the solution that shows it. When each event is true of what is live
before it, and joins and existence tests read orderly batches all along, as they do in calm graphs, a
constraint has after the run the matches and the total of one that is loaded with the solution afresh. Two
constraints show what happens otherwise.
-/

namespace Planning

open Checked

variable {S : Type} {k : ScoreKind}

/-- Events, each with the solution that shows what happened. -/
abbrev Events (S : Type) := List (S × SourceEvent)

/-- What is live after a run. -/
def View.run (V : View S) : Events S → View S
  | [] => V
  | (s, e) :: es => (V.after s e).run es

/-- Every event of a run is true of what is live before it. -/
def Node.Truthful (n : Node S) (V : View S) : Events S → Prop
  | [] => True
  | (s, e) :: es => n.Admits V s e ∧ n.Truthful (V.after s e) es

/-- A graph is told the truth when all that is built like it are. -/
theorem Node.Truthful.congr {n n' : Node S} (hreset : n'.reset = n.reset) {V : View S} {es : Events S}
    (h : n.Truthful V es) : n'.Truthful V es := by
  have hreads : ∀ cl members, n'.Reads cl members → n.Reads cl members := by
    intro cl members hr
    rwa [← reads_reset, hreset, reads_reset] at hr
  induction es generalizing V with
  | nil => trivial
  | cons p es ih => exact ⟨h.1.of_reads fun members => hreads _ members, ih h.2⟩

namespace Constraint

variable {c c' : Constraint S k} {V : View S} {es : Events S}

/-- The constraint after a run. -/
def run (c : Constraint S k) : Events S → Checked (Constraint S k)
  | [] => .ok c
  | (s, e) :: es => do
    let (c, _) ← c.onEvent s e
    c.run es

/-- The batches that joins and existence tests read are orderly throughout a run. -/
def Digests (c : Constraint S k) : Events S → Prop
  | [] => True
  | (s, e) :: es =>
    c.node.Digests s e ∧ ∀ c' change, c.onEvent s e = .ok (c', change) → c'.Digests es

/-- A run keeps a constraint in step with what is live. -/
theorem InStep.run (h : c.InStep V) (ht : c.node.Truthful V es) (hd : c.Digests es)
    (hok : c.run es = .ok c') : c'.InStep (V.run es) ∧ c'.reset = c.reset := by
  induction es generalizing c V with
  | nil =>
    cases hok
    exact ⟨h, rfl⟩
  | cons p es ih =>
    obtain ⟨⟨c₁, change⟩, h1, hok⟩ := bind_eq_ok_iff.1 hok
    obtain ⟨h₁, hreset⟩ := h.onEvent ht.1 hd.1 h1
    obtain ⟨h', hreset'⟩ := ih h₁ (ht.2.congr (congrArg node hreset)) (hd.2 _ _ h1) hok
    exact ⟨h', hreset'.trans hreset⟩

/-- A constraint over a calm graph digests every true event. -/
theorem InStep.digests (h : c.InStep V) (hn : c.node.Calm) {s : S} {e : SourceEvent}
    (ha : c.node.Admits V s e) {change : Score k} (hok : c.onEvent s e = .ok (c', change)) :
    c.node.Digests s e := by
  obtain ⟨T, hT, -⟩ := h
  obtain ⟨⟨n, ds⟩, hnode, -⟩ := bind_eq_ok_iff.1 hok
  exact (hn.digests hT ha hnode).1

/-- A constraint over a calm graph digests every run of true events. -/
theorem InStep.digests_run (h : c.InStep V) (hn : c.node.Calm) (ht : c.node.Truthful V es)
    (hok : c.run es = .ok c') : c.Digests es := by
  induction es generalizing c V with
  | nil => trivial
  | cons p es ih =>
    obtain ⟨⟨c₁, change⟩, h1, hok⟩ := bind_eq_ok_iff.1 hok
    have hd := h.digests hn ht.1 h1
    refine ⟨hd, fun c₂ change' h2 => ?_⟩
    cases h1.symm.trans h2
    obtain ⟨h₁, hreset⟩ := h.onEvent ht.1 hd h1
    have hnode : c₁.node.reset = c.node.reset := congrArg Constraint.node hreset
    refine ih h₁ ?_ (ht.2.congr hnode) hok
    rwa [← Node.calm_reset, hnode, Node.calm_reset]

/-- After a run of true events that joins and existence tests could digest, a constraint that is free of
orders has the matches and the total of one that is loaded afresh. -/
theorem run_eq_load {c c₀ cₙ fresh : Constraint S k} {s₀ s : S} (hf : c.node.OrderFree)
    (h₀ : c.reset.load s₀ = .ok c₀) (ht : c.node.Truthful (View.of s₀) es)
    (hd : c.node.Calm ∨ c₀.Digests es) (hrun : c₀.run es = .ok cₙ)
    (hs : ∀ cl members, c.node.Reads cl members → (View.of s₀).run es cl members = View.of s cl members)
    (hfresh : cₙ.reset.load s = .ok fresh) :
    (cₙ.live.map Prod.snd).Perm (fresh.live.map Prod.snd) ∧ cₙ.total = fresh.total := by
  obtain ⟨hstep₀, hreset₀⟩ := load_inStep h₀
  have hnode₀ : c₀.node.reset = c.node.reset := congrArg node hreset₀
  have hd₀ : c₀.Digests es := hd.elim (fun hn => by
    rw [← Node.calm_reset, ← hnode₀, Node.calm_reset] at hn
    exact hstep₀.digests_run hn (ht.congr hnode₀) hrun) id
  obtain ⟨hstepₙ, hresetₙ⟩ := hstep₀.run (ht.congr hnode₀) hd₀ hrun
  obtain ⟨hstep, hreset⟩ := load_inStep hfresh
  have hrule : fresh.node.reset = c.node.reset := by
    rw [← hnode₀]
    exact congrArg node (hreset.trans hresetₙ)
  have hread : ∀ cl members, fresh.node.Reads cl members → c.node.Reads cl members := by
    intro cl members hr
    rwa [← Node.reads_reset, hrule, Node.reads_reset] at hr
  refine hstep.same hstepₙ hreset.symm ?_ (fun _ _ _ => rfl) fun cl members hr => hs cl members (hread _ _ hr)
  rw [← Node.orderFree_reset, hrule, Node.orderFree_reset]
  exact hf

/-- The constraint after it was loaded and taken through a run, and one like it that is loaded afresh. -/
def replay (c : Constraint S k) (s₀ : S) (es : Events S) (s : S) :
    Checked (Constraint S k × Constraint S k) := do
  let c₀ ← c.reset.load s₀
  let cₙ ← c₀.run es
  return (cₙ, ← cₙ.reset.load s)

theorem replay_eq_ok_iff {s₀ s : S} {cₙ fresh : Constraint S k} :
    c.replay s₀ es s = .ok (cₙ, fresh) ↔
      ∃ c₀, c.reset.load s₀ = .ok c₀ ∧ c₀.run es = .ok cₙ ∧ cₙ.reset.load s = .ok fresh := by
  simp only [replay, bind_eq_ok_iff, pure_eq_ok_iff, Prod.mk.injEq]
  grind

/-- The number of tuples of a graph. -/
def counting (n : Node S) : Constraint S .simple :=
  { ref := ⟨"", "count"⟩, impact := .reward, weight := ⟨[.one], rfl⟩, weigher := fun _ => .ok 1
    justify := fun _ => "", node := n }

/-- The pairs of an entity and a fact, if the fact that the solution consists of lets the entity pass. -/
def letting (shouldExist : Bool) : Node Value :=
  .ofJoin
    (.ofExists (.source (.entity 0) fun _ => [.null]) (.source (.fact 0) fun v => [v])
      ⟨.cross, shouldExist⟩)
    (.source (.fact 1) fun _ => [.null]) { joiner := .cross, combine := .pair }

/-- The fact that the solution consists of changes. -/
def changing : Events Value := [(.int 1, ⟨.update, .fact 0, 0⟩)]

theorem truthful_changing (shouldExist : Bool) :
    (letting shouldExist).Truthful (View.of (.int 0)) changing := by
  refine ⟨?_, trivial⟩
  rintro members ((⟨h, -⟩ | ⟨-, rfl⟩) | ⟨h, -⟩)
  · cases h
  · exact ⟨nofun, nofun⟩
  · cases h

theorem shown_changing (shouldExist : Bool) (cl : SourceClass) (members : Value → List Value)
    (h : (letting shouldExist).Reads cl members) :
    (View.of (.int 0)).run changing cl members = View.of (.int 1) cl members := by
  rcases h with (⟨rfl, rfl⟩ | ⟨rfl, rfl⟩) | ⟨rfl, rfl⟩
  · rfl
  · funext i
    cases i <;> rfl
  · rfl

/-- A run over a graph whose test asks for what is there. -/
theorem run_eq_load_letting :
    ∃ cₙ fresh, (counting (letting true)).replay (.int 0) changing (.int 1) = .ok (cₙ, fresh) ∧
      (cₙ.live.map Prod.snd).Perm (fresh.live.map Prod.snd) ∧ cₙ.total = fresh.total := by
  obtain ⟨⟨cₙ, fresh⟩, hok⟩ :
      ∃ p, (counting (letting true)).replay (.int 0) changing (.int 1) = .ok p := ⟨_, rfl⟩
  obtain ⟨c₀, h₀, hrun, hfresh⟩ := replay_eq_ok_iff.1 hok
  have hcalm : (letting true).Calm :=
    ⟨⟨⟨⟨trivial, trivial⟩, trivial, trivial⟩, rfl⟩, trivial, trivial⟩
  exact ⟨cₙ, fresh, hok,
    run_eq_load (c := counting (letting true)) ⟨⟨trivial, trivial⟩, trivial, nofun⟩ h₀
      (truthful_changing true) (.inl hcalm) hrun (shown_changing true) hfresh⟩

/-- The pairs of different items of two entities, each once. -/
def pairing : Node Value :=
  let items : Node Value := .ofFlatten (.source (.entity 0) fun v => [v, .int 2]) fun v => .ok [v]
  .ofJoin items items { joiner := .cross, combine := .pair, uniquePairs := true }

/-- The entity that the solution consists of changes. -/
def stepping : Events Value := [(.int 1, ⟨.update, .entity 0, 0⟩)]

/-- A tuple that a test for what is missing brought and took back stays joined, and unique pairs of items turn
round when the items of the first entity come again. -/
theorem run_ne_load :
    ((letting false).Truthful (View.of (.int 0)) changing ∧
      (∀ cl members, (letting false).Reads cl members →
        (View.of (.int 0)).run changing cl members = View.of (.int 1) cl members) ∧
      ((counting (letting false)).replay (.int 0) changing (.int 1)).map
        (fun p => (p.1.total, p.2.total)) = .ok (⟨[.one], rfl⟩, ⟨[.zero], rfl⟩)) ∧
    (pairing.Truthful (View.of (.int 0)) stepping ∧
      (∀ cl members, pairing.Reads cl members →
        (View.of (.int 0)).run stepping cl members = View.of (.int 1) cl members) ∧
      ((counting pairing).replay (.int 0) stepping (.int 1)).map
        (fun p => (p.1.live.map fun e => e.2.tuple, p.2.live.map fun e => e.2.tuple)) =
          .ok ([.pair (.int 2) (.int 1)], [.pair (.int 1) (.int 2)])) := by
  refine ⟨⟨truthful_changing false, shown_changing false, rfl⟩, ⟨⟨?_, trivial⟩, ?_, by decide +kernel⟩⟩
  · rintro members (⟨-, rfl⟩ | ⟨-, rfl⟩)
    · exact ⟨nofun, nofun⟩
    · exact ⟨nofun, nofun⟩
  · rintro _ _ (⟨rfl, rfl⟩ | ⟨rfl, rfl⟩)
    · funext i
      cases i <;> rfl
    · funext i
      cases i <;> rfl

end Constraint

end Planning
