import Planning.Constraint.Set
import Planning.Constraint.Stream
import Planning.Proofs.Constraint.Run

/-!
# Constraint sets in step with a solution

A constraint set is in step with a view when each of its constraints is. Loading and events keep it so, give
out what its total changed by, and leave its rules as they are. Two sets with the same rules that are in step
with one solution have the same total.
-/

namespace Planning

open Checked

variable {S : Type} {k : ScoreKind}

namespace Constraint

variable {c c' : Constraint S k}

/-- A constraint in step with a view is so with any view that shows it the same. -/
theorem InStep.congr {V V' : View S} (h : c.InStep V)
    (hV : ∀ cl members, c.node.Reads cl members → V cl members = V' cl members) : c.InStep V' := by
  obtain ⟨T, hT, hw⟩ := h
  exact ⟨T, hT.congr hV, hw⟩

/-- An event of a class that a constraint does not listen to leaves it in step. -/
theorem InStep.of_not_listensTo {V : View S} (h : c.InStep V) {s : S} {e : SourceEvent}
    (hl : c.listensTo e.source = false) : c.InStep (V.after s e) := by
  refine h.congr fun cl members hr => ?_
  have hcl : cl ≠ e.source := by
    rintro rfl
    exact absurd hr.listensTo (by simpa [listensTo] using hl)
  rw [View.after, if_neg hcl]

end Constraint

namespace ConstraintSet

variable {cs cs' : ConstraintSet S k} {V V' : View S} {s : S} {e : SourceEvent} {sum sum' : Score k}

/-- Some constraint reads a class in a certain way. -/
def Reads (cs : ConstraintSet S k) (cl : SourceClass) (members : S → List Value) : Prop :=
  ∃ c ∈ cs, c.node.Reads cl members

/-- Every constraint digests whatever happens, whatever the order in which things happen. -/
def Sound (cs : ConstraintSet S k) : Prop := ∀ c ∈ cs, c.node.Calm ∧ c.node.OrderFree

/-- Every constraint is in step with a view. -/
def InStep (cs : ConstraintSet S k) (V : View S) : Prop := ∀ c ∈ cs, c.InStep V

/-- The sum of the totals. -/
def total (cs : ConstraintSet S k) : Nat → Int := (cs.map fun c => c.total.vector).sum

@[simp] theorem total_cons (c : Constraint S k) (cs : ConstraintSet S k) :
    total (c :: cs) = c.total.vector + total cs := rfl

/-- A set without matches is left as it is when it is reset. -/
theorem reset_reset (cs : ConstraintSet S k) : cs.reset.reset = cs.reset := by
  simp only [ConstraintSet.reset, List.map_map]
  exact List.map_congr_left fun c _ => by simp [Constraint.reset, Node.reset_reset]

/-- What is read does not depend on states. -/
theorem reads_reset (cs : ConstraintSet S k) (cl : SourceClass) (members : S → List Value) :
    Reads cs.reset cl members ↔ Reads cs cl members := by
  simp only [Reads, ConstraintSet.reset, List.mem_map, exists_exists_and_eq_and]
  exact exists_congr fun c => and_congr_right fun _ => Node.reads_reset c.node cl members

/-- Whether a set is sound does not depend on states. -/
theorem sound_reset (cs : ConstraintSet S k) : Sound cs.reset ↔ Sound cs := by
  simp only [Sound, ConstraintSet.reset, List.mem_map, forall_exists_index, and_imp,
    forall_apply_eq_imp_iff₂]
  exact forall₂_congr fun c _ =>
    and_congr (Node.calm_reset c.node) (Node.orderFree_reset c.node)

/-- Loading a solution gives out the sum of the totals. -/
theorem vector_of_load (hok : load s cs sum = .ok (cs', sum')) : sum'.vector = sum.vector + cs'.total := by
  induction cs generalizing cs' sum with
  | nil =>
    cases hok
    exact (add_zero _).symm
  | cons c cs ih =>
    simp only [ConstraintSet.load, bind_eq_ok_iff, pure_eq_ok_iff] at hok
    obtain ⟨c', -, sum₁, hsum, ⟨cs₁, sum₂⟩, hcs, hpure⟩ := hok
    cases hpure
    rw [ih hcs, Score.vector_of_add hsum, total_cons, add_assoc]

/-- An event is answered with what the sum of the totals changes by. -/
theorem vector_of_onEvent (hok : onEvent s e cs sum = .ok (cs', sum')) :
    cs'.total + sum.vector = cs.total + sum'.vector := by
  induction cs generalizing cs' sum with
  | nil =>
    cases hok
    rfl
  | cons c cs ih =>
    unfold ConstraintSet.onEvent at hok
    split at hok
    · simp only [bind_eq_ok_iff, pure_eq_ok_iff] at hok
      obtain ⟨⟨c', change⟩, hone, sum₁, hsum, ⟨cs₁, sum₂⟩, hrest, hpure⟩ := hok
      cases hpure
      have htotals := ih hrest
      rw [Score.vector_of_add hsum] at htotals
      rw [total_cons, total_cons, Constraint.vector_of_onEvent hone, add_assoc c.total.vector (total cs),
        ← htotals]
      abel
    · simp only [bind_eq_ok_iff, pure_eq_ok_iff] at hok
      obtain ⟨⟨cs₁, sum₂⟩, hrest, hpure⟩ := hok
      cases hpure
      rw [total_cons, total_cons, add_assoc, ih hrest, add_assoc]

/-- Loading a solution puts a set without matches in step with it. -/
theorem load_inStep (hok : load s cs.reset sum = .ok (cs', sum')) :
    cs'.InStep (View.of s) ∧ cs'.reset = cs.reset ∧ sum'.vector = sum.vector + cs'.total := by
  suffices hstep : cs'.InStep (View.of s) ∧ cs'.reset = cs.reset from ⟨hstep.1, hstep.2, vector_of_load hok⟩
  induction cs generalizing cs' sum with
  | nil =>
    cases hok
    exact ⟨nofun, rfl⟩
  | cons c cs ih =>
    simp only [ConstraintSet.reset, List.map_cons, ConstraintSet.load, bind_eq_ok_iff,
      pure_eq_ok_iff] at hok
    obtain ⟨c', hc, sum₁, hsum, ⟨cs₁, sum₂⟩, hcs, hpure⟩ := hok
    cases hpure
    obtain ⟨hstep, hreset⟩ := Constraint.load_inStep hc
    obtain ⟨hsteps, hresets⟩ := ih hcs
    exact ⟨List.forall_mem_cons.2 ⟨hstep, hsteps⟩, congrArg₂ List.cons hreset hresets⟩

/-- Taking in an event keeps a set in step. -/
theorem InStep.onEvent (h : cs.InStep V) (hcs : cs.Sound)
    (ha : ∀ c ∈ cs, c.node.Admits V s e) (hok : onEvent s e cs sum = .ok (cs', sum')) :
    cs'.InStep (V.after s e) ∧ cs'.reset = cs.reset ∧
      cs'.total + sum.vector = cs.total + sum'.vector := by
  suffices hstep : cs'.InStep (V.after s e) ∧ cs'.reset = cs.reset from
    ⟨hstep.1, hstep.2, vector_of_onEvent hok⟩
  induction cs generalizing cs' sum with
  | nil =>
    cases hok
    exact ⟨nofun, rfl⟩
  | cons c cs ih =>
    obtain ⟨hc, htail⟩ := List.forall_mem_cons.1 h
    obtain ⟨hcalm, hcalms⟩ := List.forall_mem_cons.1 hcs
    obtain ⟨hac, has⟩ := List.forall_mem_cons.1 ha
    unfold ConstraintSet.onEvent at hok
    split at hok
    · simp only [bind_eq_ok_iff, pure_eq_ok_iff] at hok
      obtain ⟨⟨c', change⟩, hone, sum₁, hsum, ⟨cs₁, sum₂⟩, hrest, hpure⟩ := hok
      cases hpure
      obtain ⟨hstep, hreset⟩ := hc.onEvent hac (hc.digests hcalm.1 hac hone) hone
      obtain ⟨hsteps, hresets⟩ := ih htail hcalms has hrest
      exact ⟨List.forall_mem_cons.2 ⟨hstep, hsteps⟩, congrArg₂ List.cons hreset hresets⟩
    · rename_i hl
      simp only [bind_eq_ok_iff, pure_eq_ok_iff] at hok
      obtain ⟨⟨cs₁, sum₂⟩, hrest, hpure⟩ := hok
      cases hpure
      obtain ⟨hsteps, hresets⟩ := ih htail hcalms has hrest
      have hstep := hc.of_not_listensTo (s := s) (eq_false_of_ne_true hl)
      exact ⟨List.forall_mem_cons.2 ⟨hstep, hsteps⟩, congrArg (c.reset :: ·) hresets⟩

/-- Sets with the same rules that are in step with one solution have the same total. -/
theorem InStep.total_eq (h : cs.InStep V) (h' : cs'.InStep V') (hreset : cs'.reset = cs.reset)
    (hcs : cs.Sound) (hV : ∀ cl members, cs.Reads cl members → V cl members = View.of s cl members)
    (hV' : ∀ cl members, cs.Reads cl members → V' cl members = View.of s cl members) :
    cs'.total = cs.total := by
  induction cs generalizing cs' with
  | nil =>
    obtain rfl : cs' = [] := List.map_eq_nil_iff.1 hreset
    rfl
  | cons c cs ih =>
    obtain ⟨c', cs', rfl, hc', hcs'⟩ := List.map_eq_cons_iff.1 hreset
    obtain ⟨hc, htail⟩ := List.forall_mem_cons.1 h
    obtain ⟨hc', htail'⟩ := List.forall_mem_cons.1 h'
    obtain ⟨hsound, hsounds⟩ := List.forall_mem_cons.1 hcs
    have hone := (hc.same hc' ‹_› hsound.2 (fun cl m hr => hV cl m ⟨c, by simp, hr⟩) fun cl m hr =>
      hV' cl m ⟨c, by simp, hr⟩).2
    have hrest := ih htail htail' hcs' hsounds
      (fun cl m ⟨d, hd, hr⟩ => hV cl m ⟨d, by simp [hd], hr⟩) fun cl m ⟨d, hd, hr⟩ =>
        hV' cl m ⟨d, by simp [hd], hr⟩
    rw [total_cons, total_cons, hone, hrest]

end ConstraintSet

end Planning

/-!
## Sound streams

A stream is sound when its graph is calm, steady and free of orders. Members of classes, pairs of them, and
whatever filters, maps, flattens, joins, tests for a match and groups make of sound streams are sound.
-/

namespace Planning

variable {S : Type}

/-- A graph digests whatever happens, answers in order, and does not depend on the order of events. -/
structure Node.Sound (n : Node S) : Prop where
  /-- Joins and existence tests read steady nodes. -/
  calm : n.Calm
  /-- The batches are orderly. -/
  steady : n.Steady
  /-- The tuples do not depend on the order in which others came and went. -/
  orderFree : n.OrderFree

/-- The members of a class are sound. -/
theorem Node.sound_source (cl : SourceClass) (members : S → List Value) : (source cl members).Sound :=
  ⟨trivial, trivial, trivial⟩

namespace Stream

variable {x : Stream S}

theorem sound_forEach (cl : SourceClass) (members : S → List Value) : (forEach cl members).node.Sound :=
  Node.sound_source cl members

theorem sound_forEachUniquePair (cl : SourceClass) (members : S → List Value) (joiner : Joiner) :
    (forEachUniquePair cl members joiner).node.Sound where
  calm := ⟨⟨trivial, trivial⟩, trivial, trivial⟩
  steady := trivial
  orderFree := ⟨trivial, trivial, fun _ => ⟨trivial, trivial⟩⟩

theorem sound_filter (h : x.node.Sound) (p : Value → Checked Bool) : (x.filter p).node.Sound :=
  ⟨h.calm, h.steady, h.orderFree⟩

theorem sound_map (h : x.node.Sound) (f : Value → Checked Value) : (x.map f).node.Sound :=
  ⟨h.calm, h.steady, h.orderFree⟩

theorem sound_flatten (h : x.node.Sound) (expand : Value → Checked (List Value)) :
    (x.flatten expand).node.Sound :=
  ⟨h.calm, h.steady, h.orderFree⟩

theorem sound_flattenLast (h : x.node.Sound) (expand : Value → Checked (List Value)) :
    (x.flattenLast expand).node.Sound :=
  ⟨h.calm, h.steady, h.orderFree⟩

theorem sound_join (h : x.node.Sound) {other : Node S} (hother : other.Sound) (joiner : Joiner) :
    (x.join other joiner).node.Sound where
  calm := ⟨⟨h.calm, h.steady⟩, hother.calm, hother.steady⟩
  steady := trivial
  orderFree := ⟨h.orderFree, hother.orderFree, nofun⟩

theorem sound_ifExists (h : x.node.Sound) {other : Node S} (hother : other.Sound) (joiner : Joiner) :
    (x.ifExists other joiner).node.Sound where
  calm := ⟨⟨h.calm, h.steady⟩, hother.calm, hother.steady⟩
  steady := rfl
  orderFree := ⟨h.orderFree, hother.orderFree⟩

theorem sound_groupBy (h : x.node.Sound) (key : Value → Checked Value) {collector : Collector}
    (hcollector : collector.OrderFree) : (x.groupBy key collector).node.Sound :=
  ⟨h.calm, trivial, h.orderFree, hcollector⟩

end Stream

end Planning
