import Mathlib.Data.Set.Insert
import Planning.Director.Basic
import Planning.Proofs.Constraint.Set
import Planning.Proofs.Director.Shadow
import Planning.Solution

/-!
# Directors that follow changes

A caller changes the working solution of a director before it announces the change, and takes members out
before it moves them. What is pending are the members that changed unannounced and those that are out. A view
shows a solution but for what is pending; each event settles something.
-/

namespace Planning

variable {S : Type} {k : ScoreKind}

/-- The number of members of a class. -/
def PlanningSolution.size [PlanningSolution S k] (s : S) : SourceClass → Nat
  | .entity d => entityCount s d
  | .fact d => factCount s d

/-- A member of a class, by its position. -/
abbrev MemberRef := SourceClass × Nat

/-- The members of a class from a position on. -/
def MemberRef.tail (cl : SourceClass) (i : Nat) : Set MemberRef := {z | z.1 = cl ∧ i ≤ z.2}

/-- The members of a class from a position up to another. -/
def MemberRef.between (cl : SourceClass) (i n : Nat) : Set MemberRef := {z | z.1 = cl ∧ i ≤ z.2 ∧ z.2 < n}

@[simp] theorem MemberRef.mem_tail {cl : SourceClass} {i : Nat} {z : MemberRef} :
    z ∈ tail cl i ↔ z.1 = cl ∧ i ≤ z.2 := Iff.rfl

@[simp] theorem MemberRef.mem_between {cl : SourceClass} {i n : Nat} {z : MemberRef} :
    z ∈ between cl i n ↔ z.1 = cl ∧ i ≤ z.2 ∧ z.2 < n := Iff.rfl

/-- What a caller still owes a director. -/
structure Pending where
  /-- The members that changed without an announcement. -/
  stale : Set MemberRef
  /-- The members that were taken out and did not come back. -/
  out : Set MemberRef

namespace Pending

/-- Nothing is pending. -/
def none : Pending := ⟨∅, ∅⟩

/-- What is pending after members came, changed or went. -/
def after (p : Pending) (change : Change) (zs : Set MemberRef) : Pending :=
  match change with
  | .insert => ⟨p.stale \ zs, p.out \ zs⟩
  | .update => ⟨p.stale \ zs, p.out⟩
  | .retract => ⟨p.stale, p.out ∪ zs⟩

/-- What is pending after the members of a class were taken out from a position on. -/
def opened (p : Pending) (cl : SourceClass) (i : Nat) : Pending := ⟨p.stale, p.out ∪ MemberRef.tail cl i⟩

/-- What is pending after the members of a class came back from a position on. -/
def closed (p : Pending) (cl : SourceClass) (i : Nat) : Pending :=
  ⟨p.stale \ MemberRef.tail cl i, p.out \ MemberRef.tail cl i⟩

/-- What happens to one member and then to others happens to all of them. -/
theorem after_after (p : Pending) (change : Change) (zs ws : Set MemberRef) :
    (p.after change zs).after change ws = p.after change (zs ∪ ws) := by
  cases change with
  | insert => simp only [after, Set.sdiff_sdiff]
  | update => simp only [after, Set.sdiff_sdiff]
  | retract => simp only [after, Set.union_assoc]

/-- An event may happen to a member: only what is out comes and only what is not out changes or goes. -/
def Allows [PlanningSolution S k] (p : Pending) (s : S) (change : Change) (z : MemberRef) : Prop :=
  match change with
  | .insert => z ∈ p.out ∧ z.2 < PlanningSolution.size s z.1
  | .update => z ∉ p.out
  | .retract => z ∉ p.out ∧ z.2 < PlanningSolution.size s z.1

/-- What is allowed stays so while the same happens to another member. -/
theorem Allows.after [PlanningSolution S k] {p : Pending} {s : S} {change : Change} {y z : MemberRef}
    (h : p.Allows s change z) (hne : change = .update ∨ z ≠ y) : (p.after change {y}).Allows s change z := by
  cases change with
  | insert => exact ⟨⟨h.1, hne.resolve_left nofun⟩, h.2⟩
  | update => exact h
  | retract => exact ⟨fun hz => hz.elim h.1 (hne.resolve_left nofun), h.2⟩

end Pending

/-- A view shows a solution but for what is pending: what is out is not live, what is not out is live if it is
in the solution, and what is not stale is live as it is there. -/
def View.Shows (V : View S) (cs : ConstraintSet S k) (s : S) (p : Pending) : Prop :=
  ∀ cl members, cs.Reads cl members → ∀ i,
    ((cl, i) ∈ p.out → V cl members i = none) ∧
    ((cl, i) ∉ p.out → (V cl members i = none ↔ (members s)[i]? = none) ∧
      ((cl, i) ∉ p.stale → V cl members i = (members s)[i]?))

namespace View.Shows

variable {V : View S} {cs : ConstraintSet S k} {s : S} {p p' : Pending}

/-- The view of a solution shows it. -/
theorem of (cs : ConstraintSet S k) (s : S) (hp : p.out = ∅) : (View.of s).Shows cs s p := by
  intro cl members hr i
  refine ⟨fun hout => ?_, fun _ => ⟨Iff.rfl, fun _ => rfl⟩⟩
  rw [hp] at hout
  exact hout.elim

/-- When nothing is pending what is read is as it is in the solution. -/
theorem eq_of (h : V.Shows cs s .none) {cl : SourceClass} {members : S → List Value}
    (hr : cs.Reads cl members) : V cl members = View.of s cl members := by
  funext i
  exact ((h cl members hr i).2 (Set.notMem_empty _)).2 (Set.notMem_empty _)

/-- The solution may change where members are stale or out. -/
theorem edit (h : V.Shows cs s p) {s' : S} (hout : p'.out = p.out)
    (hs : ∀ cl members, cs.Reads cl members → ∀ i, (cl, i) ∉ p.out →
      ((members s')[i]? = none ↔ (members s)[i]? = none) ∧
        ((cl, i) ∉ p'.stale → (cl, i) ∉ p.stale ∧ (members s')[i]? = (members s)[i]?)) :
    V.Shows cs s' p' := by
  intro cl members hr i
  obtain ⟨habsent, hlive⟩ := h cl members hr i
  rw [hout]
  refine ⟨habsent, fun hi => ?_⟩
  obtain ⟨hrange, hsame⟩ := hs cl members hr i hi
  refine ⟨(hlive hi).1.trans hrange.symm, fun hstale => ?_⟩
  obtain ⟨hstale, heq⟩ := hsame hstale
  rw [(hlive hi).2 hstale, heq]

variable [PlanningSolution S k]

/-- What is pending beyond the end of a class does not matter, and more may be stale. -/
theorem weaken (h : V.Shows cs s p)
    (hsize : ∀ cl members, cs.Reads cl members → (members s).length = PlanningSolution.size s cl)
    (hp : ∀ z : MemberRef, z.2 < PlanningSolution.size s z.1 →
      (z ∈ p'.out ↔ z ∈ p.out) ∧ (z ∈ p.stale → z ∉ p.out → z ∈ p'.stale)) : V.Shows cs s p' := by
  intro cl members hr i
  obtain ⟨habsent, hlive⟩ := h cl members hr i
  by_cases hi : i < PlanningSolution.size s cl
  · obtain ⟨hout, hstale⟩ := hp (cl, i) hi
    rw [hout]
    refine ⟨habsent, fun hi => ⟨(hlive hi).1, fun hns => (hlive hi).2 fun hs => hns (hstale hs hi)⟩⟩
  · have hnone : (members s)[i]? = none := by
      rw [List.getElem?_eq_none_iff, hsize cl members hr]
      omega
    have hV : V cl members i = none := by
      by_cases hi : (cl, i) ∈ p.out
      · exact habsent hi
      · exact (hlive hi).1.2 hnone
    rw [hV, hnone]
    exact ⟨fun _ => rfl, fun _ => ⟨Iff.rfl, fun _ => rfl⟩⟩

/-- An event that is allowed is true of the view. -/
theorem admits (h : V.Shows cs s p)
    (hsize : ∀ cl members, cs.Reads cl members → (members s).length = PlanningSolution.size s cl)
    {change : Change} {z : MemberRef} (ha : p.Allows s change z) :
    ∀ c ∈ cs, c.node.Admits V s ⟨change, z.1, z.2⟩ := by
  intro c hc members hr
  obtain ⟨habsent, hlive⟩ := h z.1 members ⟨c, hc, hr⟩ z.2
  have hin : z.2 < PlanningSolution.size s z.1 → (members s)[z.2]? ≠ none := by
    rw [← hsize z.1 members ⟨c, hc, hr⟩]
    intro hlt hnone
    exact absurd (List.getElem?_eq_none_iff.1 hnone) (Nat.not_le.2 hlt)
  cases change with
  | insert => exact ⟨habsent ha.1, hin ha.2⟩
  | update => exact (hlive ha).1
  | retract => exact fun hnone => hin ha.2 ((hlive ha.1).1.1 hnone)

/-- After an event that is allowed its member is no longer pending in that way. -/
theorem after (h : V.Shows cs s p) {change : Change} {z : MemberRef} (ha : p.Allows s change z) :
    (V.after s ⟨change, z.1, z.2⟩).Shows cs s (p.after change {z}) := by
  intro cl members hr i
  obtain ⟨habsent, hlive⟩ := h cl members hr i
  by_cases hz : (cl, i) = z
  · subst hz
    have hV : V.after s ⟨change, cl, i⟩ cl members i =
        if change = .retract then none else (members s)[i]? := by
      simp [View.after]
    rw [hV]
    cases change with
    | insert => exact ⟨fun hout => absurd rfl hout.2, fun _ => by simp⟩
    | update => exact ⟨fun hout => absurd hout ha, fun _ => by simp⟩
    | retract => exact ⟨fun _ => rfl, fun hout => absurd (Or.inr rfl) hout⟩
  · have hV : V.after s ⟨change, z.1, z.2⟩ cl members i = V cl members i := by
      unfold View.after
      split
      · rename_i hcl
        refine Function.update_of_ne ?_ _ _
        rintro rfl
        exact hz (Prod.ext hcl rfl)
      · rfl
    have hp : ((cl, i) ∈ (p.after change {z}).out ↔ (cl, i) ∈ p.out) ∧
        ((cl, i) ∈ (p.after change {z}).stale ↔ (cl, i) ∈ p.stale) := by
      cases change <;> simp [Pending.after, hz]
    rw [hV, hp.1, hp.2]
    exact ⟨habsent, hlive⟩

end View.Shows

end Planning

/-!
## Directors that score incrementally

A director that scores incrementally follows its working solution but for what is pending: either it has not
loaded its constraints, or they are in step with a view that shows the solution and the score it keeps is their
total. Each operation of the director settles what it announces.
-/

namespace Planning

open Checked

variable {S : Type} {k : ScoreKind}

/-- Constraint sets with the same rules read the same. -/
theorem ConstraintSet.reads_of_reset {cs cs' : ConstraintSet S k} (h : cs'.reset = cs.reset)
    (cl : SourceClass) (members : S → List Value) : Reads cs' cl members ↔ Reads cs cl members := by
  rw [← reads_reset cs', h, reads_reset]

/-- A view shows a solution to all constraint sets with the same rules. -/
theorem View.Shows.of_reset {V : View S} {cs cs' : ConstraintSet S k} {s : S} {p : Pending}
    (h : V.Shows cs s p) (hreset : cs'.reset = cs.reset) : V.Shows cs' s p :=
  fun cl members hr => h cl members ((ConstraintSet.reads_of_reset hreset cl members).1 hr)

/-- Constraints that are not loaded are without matches; those that are loaded are in step with a view that
shows the solution but for what is pending, and their total is kept. -/
structure LiveScoring.Follows (live : LiveScoring S k) (cs : ConstraintSet S k) (s : S) (p : Pending) :
    Prop where
  /-- The rules are kept. -/
  reset : live.constraints.reset = cs.reset
  /-- Constraints that are not loaded have no matches. -/
  unloaded : live.loaded = false → live.constraints = cs.reset
  /-- Constraints that are loaded are in step. -/
  loaded : live.loaded = true → ∃ V : View S, V.Shows cs s p ∧ live.constraints.InStep V ∧
    live.cached.vector = live.constraints.total

/-- A director scores by constraints that follow its working solution. -/
def Director.Follows (dir : Director S k) (cs : ConstraintSet S k) (p : Pending) : Prop :=
  ∃ live, dir.scoring = .incremental live ∧ live.Follows cs dir.solution p

variable [PlanningSolution S k]

/-- Only members that are reported differ, and no member comes or goes. -/
def Reported (cs : ConstraintSet S k) (s s' : S) (xs : List EntityRef) : Prop :=
  (∀ cl, PlanningSolution.size s' cl = PlanningSolution.size s cl) ∧
    ∀ cl members, cs.Reads cl members → ∀ i, (members s')[i]? ≠ (members s)[i]? →
      ∃ x ∈ xs, (cl, i) = (SourceClass.entity x.1, x.2)

theorem Reported.chains (cs : ConstraintSet S k) : ShadowCascade.Chains (Reported cs) where
  refl s := ⟨fun _ => rfl, fun _ _ _ _ h => absurd rfl h⟩
  trans := by
    intro s₁ s₂ s₃ xs ys h h'
    refine ⟨fun cl => (h'.1 cl).trans (h.1 cl), fun cl members hr i hne => ?_⟩
    by_cases hi : (members s₂)[i]? = (members s₁)[i]?
    · obtain ⟨x, hx, heq⟩ := h'.2 cl members hr i fun h => hne (h.trans hi)
      exact ⟨x, List.mem_append_right _ hx, heq⟩
    · obtain ⟨x, hx, heq⟩ := h.2 cl members hr i hi
      exact ⟨x, List.mem_append_left _ hx, heq⟩
  mono h hsub := ⟨h.1, fun cl members hr i hne => by
    obtain ⟨x, hx, heq⟩ := h.2 cl members hr i hne
    exact ⟨x, hsub hx, heq⟩⟩

/-- What a director relies on. -/
structure Contract (cs : ConstraintSet S k) (shadows : ShadowCascade S) : Prop where
  /-- The constraints digest whatever happens, in whatever order it happens. -/
  sound : cs.Sound
  /-- A source reads all members of its class. -/
  sized : ∀ cl members, cs.Reads cl members → ∀ s, (members s).length = PlanningSolution.size s cl
  /-- No source reads the stored score. -/
  scored : ∀ cl members, cs.Reads cl members → ∀ s (score : Score k),
    members (PlanningSolution.withScore s score) = members s
  /-- Listeners change only the entities that they report. -/
  reported : ∀ e ∈ shadows, ∀ s x s' changed, e.listener.update s x = .ok (s', changed) →
    Reported cs s s' changed

/-- The stored score does not show. -/
theorem Contract.shows_withScore {cs : ConstraintSet S k} {shadows : ShadowCascade S}
    (hc : Contract cs shadows) {V : View S} {s : S} {p : Pending} (h : V.Shows cs s p) (score : Score k) :
    V.Shows cs (PlanningSolution.withScore s score) p := by
  refine h.edit rfl fun cl members hr i _ => ?_
  rw [hc.scored cl members hr]
  exact ⟨Iff.rfl, fun hs => ⟨hs, rfl⟩⟩

namespace Director

variable {dir dir' : Director S k} {cs : ConstraintSet S k} {shadows : ShadowCascade S} {p p' : Pending}

/-- What is pending beyond the end of a class does not matter, and more may be stale. -/
theorem Follows.weaken (hc : Contract cs shadows) (h : dir.Follows cs p)
    (hp : ∀ z : MemberRef, z.2 < PlanningSolution.size dir.solution z.1 →
      (z ∈ p'.out ↔ z ∈ p.out) ∧ (z ∈ p.stale → z ∉ p.out → z ∈ p'.stale)) : dir.Follows cs p' := by
  obtain ⟨live, hlive, h⟩ := h
  refine ⟨live, hlive, h.reset, h.unloaded, fun hl => ?_⟩
  obtain ⟨V, hV, hin, hcached⟩ := h.loaded hl
  exact ⟨V, hV.weaken (fun cl members hr => hc.sized cl members hr _) hp, hin, hcached⟩

/-- An event that is allowed settles what it announces. -/
theorem Follows.emit (hc : Contract cs shadows) (h : dir.Follows cs p) {c : Change} {z : MemberRef}
    (ha : p.Allows dir.solution c z) (hok : dir.emit ⟨c, z.1, z.2⟩ = .ok dir') :
    dir'.Follows cs (p.after c {z}) ∧ dir' = { dir with scoring := dir'.scoring } := by
  obtain ⟨live, hlive, h⟩ := h
  simp only [Director.emit, hlive] at hok
  split at hok
  · rename_i hl
    simp only [bind_eq_ok_iff, pure_eq_ok_iff] at hok
    obtain ⟨⟨cs', sum⟩, hevent, cached, hadd, rfl⟩ := hok
    obtain ⟨V, hV, hin, hcached⟩ := h.loaded hl
    have hsound : live.constraints.Sound := by
      rw [← ConstraintSet.sound_reset, h.reset, ConstraintSet.sound_reset]
      exact hc.sound
    have hadmits := (hV.of_reset h.reset).admits
      (fun cl members hr => hc.sized cl members ((ConstraintSet.reads_of_reset h.reset _ _).1 hr) _) ha
    obtain ⟨hin', hreset, htotal⟩ := hin.onEvent hsound hadmits hevent
    refine ⟨⟨_, rfl, hreset.trans h.reset, fun hf => absurd (hl.symm.trans hf) nofun, fun _ => ?_⟩, rfl⟩
    refine ⟨_, hV.after ha, hin', ?_⟩
    rw [Score.vector_of_add hadd, hcached, ← htotal, Score.vector_zero, add_zero]
  · rename_i hl
    cases hok
    exact ⟨⟨live, hlive, h.reset, h.unloaded, fun h => absurd h hl⟩, rfl⟩

/-- Events of one kind that are allowed settle what they announce. -/
theorem Follows.emit_all (hc : Contract cs shadows) (h : dir.Follows cs p) {change : Change}
    {zs : List MemberRef} (hzs : change = .update ∨ zs.Nodup)
    (ha : ∀ z ∈ zs, p.Allows dir.solution change z)
    (hok : zs.foldlM (fun dir z => dir.emit ⟨change, z.1, z.2⟩) dir = .ok dir') :
    dir'.Follows cs (p.after change {z | z ∈ zs}) ∧ dir' = { dir with scoring := dir'.scoring } := by
  induction zs generalizing dir p with
  | nil =>
    cases hok
    refine ⟨?_, rfl⟩
    convert h
    cases change <;> simp [Pending.after]
  | cons z zs ih =>
    rw [List.foldlM_cons] at hok
    obtain ⟨dir₁, h1, hok⟩ := bind_eq_ok_iff.1 hok
    obtain ⟨ha₁, has⟩ := List.forall_mem_cons.1 ha
    obtain ⟨h₁, heq₁⟩ := h.emit hc ha₁ h1
    have hsolution : dir₁.solution = dir.solution := by rw [heq₁]
    obtain ⟨h', heq'⟩ := ih h₁ (hzs.imp_right fun hnd => (List.nodup_cons.1 hnd).2) (fun w hw => by
      rw [hsolution]
      exact (has w hw).after (hzs.imp_right fun hnd => by
        rintro rfl
        exact (List.nodup_cons.1 hnd).1 hw)) hok
    rw [Pending.after_after] at h'
    refine ⟨?_, by rw [heq', heq₁]⟩
    convert h' using 2
    ext w
    simp

/-- The events of a range settle it. -/
theorem Follows.emitRange (hc : Contract cs shadows) (h : dir.Follows cs p) {change : Change}
    {cl : SourceClass} {i n : Nat} (ha : ∀ z ∈ MemberRef.between cl i n, p.Allows dir.solution change z)
    (hok : dir.emitRange change cl i n = .ok dir') :
    dir'.Follows cs (p.after change (MemberRef.between cl i n)) ∧
      dir' = { dir with scoring := dir'.scoring } := by
  let zs : List MemberRef := (List.range' i (n - i)).map fun j => (cl, j)
  have hmem : {z | z ∈ zs} = MemberRef.between cl i n := by
    ext ⟨cl', j⟩
    simp only [zs, MemberRef.mem_between, Set.mem_ofPred_eq, List.mem_map, List.mem_range'_1, Prod.mk.injEq]
    constructor
    · rintro ⟨j, hj, rfl, rfl⟩
      exact ⟨rfl, hj.1, by omega⟩
    · rintro ⟨rfl, hi, hn⟩
      exact ⟨j, ⟨hi, by omega⟩, rfl, rfl⟩
  have hnodup : zs.Nodup := List.Nodup.map (fun a b h => (Prod.mk.inj h).2) List.nodup_range'
  rw [← hmem]
  refine h.emit_all hc (.inr hnodup) (fun z hz => ha z (hmem ▸ hz)) ?_
  rw [List.foldlM_map]
  exact hok

/-- Members that are taken out from a position on are out. -/
theorem Follows.opened (hc : Contract cs shadows) (h : dir.Follows cs p) {cl : SourceClass} {i : Nat}
    (hin : ∀ j, (cl, j) ∉ p.out)
    (hok : dir.emitRange .retract cl i (PlanningSolution.size dir.solution cl) = .ok dir') :
    dir'.Follows cs (p.opened cl i) ∧ dir' = { dir with scoring := dir'.scoring } := by
  have ha : ∀ z ∈ MemberRef.between cl i (PlanningSolution.size dir.solution cl),
      p.Allows dir.solution .retract z := by
    rintro ⟨cl, j⟩ ⟨rfl, -, hj⟩
    exact ⟨hin j, hj⟩
  obtain ⟨h', heq⟩ := h.emitRange hc ha hok
  refine ⟨h'.weaken hc fun z hz => ⟨?_, fun hs _ => hs⟩, heq⟩
  have hsolution : dir'.solution = dir.solution := by rw [heq]
  rw [hsolution] at hz
  simp only [Pending.after, Pending.opened, Set.mem_union, MemberRef.mem_tail, MemberRef.mem_between]
  grind

/-- Members that come back from a position on are neither out nor stale. -/
theorem Follows.closed (hc : Contract cs shadows) (h : dir.Follows cs p) {cl : SourceClass} {i : Nat}
    (hin : ∀ j, j < PlanningSolution.size dir.solution cl → ((cl, j) ∈ p.out ↔ i ≤ j))
    (hok : dir.emitRange .insert cl i (PlanningSolution.size dir.solution cl) = .ok dir') :
    dir'.Follows cs (p.closed cl i) ∧ dir' = { dir with scoring := dir'.scoring } := by
  have ha : ∀ z ∈ MemberRef.between cl i (PlanningSolution.size dir.solution cl),
      p.Allows dir.solution .insert z := by
    rintro ⟨cl, j⟩ ⟨rfl, hi, hj⟩
    exact ⟨(hin j hj).2 hi, hj⟩
  obtain ⟨h', heq⟩ := h.emitRange hc ha hok
  refine ⟨h'.weaken hc fun z hz => ?_, heq⟩
  have hsolution : dir'.solution = dir.solution := by rw [heq]
  rw [hsolution] at hz
  simp only [Pending.after, Pending.closed, Set.mem_sdiff, MemberRef.mem_tail, MemberRef.mem_between]
  grind

omit [PlanningSolution S k] in
/-- A director follows a solution that changed where members are stale or out. -/
theorem Follows.moved (h : dir.Follows cs p) {s' : S} (hout : p'.out = p.out)
    (hs : ∀ cl members, cs.Reads cl members → ∀ i, (cl, i) ∉ p.out →
      ((members s')[i]? = none ↔ (members dir.solution)[i]? = none) ∧
        ((cl, i) ∉ p'.stale → (cl, i) ∉ p.stale ∧ (members s')[i]? = (members dir.solution)[i]?)) :
    { dir with solution := s' }.Follows cs p' := by
  obtain ⟨live, hlive, h⟩ := h
  refine ⟨live, hlive, h.reset, h.unloaded, fun hl => ?_⟩
  obtain ⟨V, hV, hin⟩ := h.loaded hl
  exact ⟨V, hV.edit hout hs, hin⟩

/-- What follows from a change is announced, but for the members that are left to the caller. -/
theorem Follows.cascade (hc : Contract cs shadows) (hshadows : dir.shadows = shadows)
    (h : dir.Follows cs p) {x : EntityRef} {index : Option Nat} {i n : Nat}
    (hout : shadows = [] ∨ ∀ y : EntityRef, (.entity y.1, y.2) ∉ MemberRef.between (.entity x.1) i n →
      (.entity y.1, y.2) ∉ p.out)
    (hok : dir.cascade x index i n = .ok dir') :
    dir'.Follows cs ⟨p.stale ∪ MemberRef.between (.entity x.1) i n, p.out⟩ ∧
      (∀ cl, PlanningSolution.size dir'.solution cl = PlanningSolution.size dir.solution cl) ∧
      dir' = { dir with solution := dir'.solution, scoring := dir'.scoring } := by
  obtain ⟨⟨s', changed⟩, hcascade, hok⟩ := bind_eq_ok_iff.1 hok
  rw [hshadows] at hcascade
  have hreported := ShadowCascade.cascade_induction (Reported.chains cs) hc.reported hcascade
  have hnone : shadows = [] → changed = [] := by
    rintro rfl
    cases hcascade
    exact List.eq_nil_iff_forall_not_mem.2 fun y hy => List.not_mem_nil (EntityRef.mem_sorted.1 hy)
  -- Until they are announced, the members that listeners reported are stale.
  let place : EntityRef → MemberRef := fun y => (.entity y.1, y.2)
  have hskip : ∀ y : EntityRef, (!(y.1 == x.1 && decide (i ≤ y.2) && decide (y.2 < n))) = true ↔
      place y ∉ MemberRef.between (.entity x.1) i n := by
    intro y
    simp only [place, Bool.not_and, Bool.or_eq_true, Bool.not_eq_eq_eq_not, Bool.not_true,
      beq_eq_false_iff_ne, decide_eq_false_iff_not, MemberRef.mem_between, SourceClass.entity.injEq]
    omega
  have hmoved : { dir with solution := s' }.Follows cs ⟨p.stale ∪ {z | ∃ y ∈ changed, z = place y}, p.out⟩ := by
    refine h.moved rfl fun cl members hr j _ => ⟨?_, fun hstale => ?_⟩
    · rw [List.getElem?_eq_none_iff, List.getElem?_eq_none_iff, hc.sized cl members hr,
        hc.sized cl members hr, hreported.1]
    · refine ⟨fun hs => hstale (.inl hs), ?_⟩
      by_contra hne
      exact hstale (.inr (hreported.2 cl members hr j hne))
  have ha : ∀ z ∈ (changed.filter fun y =>
      !(y.1 == x.1 && decide (i ≤ y.2) && decide (y.2 < n))).map place, z ∉ p.out := by
    intro z hz
    obtain ⟨y, hy, rfl⟩ := List.mem_map.1 hz
    obtain ⟨hy, hy'⟩ := List.mem_filter.1 hy
    rcases hout with hempty | hout
    · rw [hnone hempty] at hy
      exact absurd hy List.not_mem_nil
    · exact hout y ((hskip y).1 hy')
  obtain ⟨h', heq⟩ := hmoved.emit_all hc (.inl rfl) ha (by rw [List.foldlM_map]; exact hok)
  refine ⟨h'.weaken hc fun z _ => ⟨Iff.rfl, fun hs _ => ?_⟩, fun cl => by rw [heq, hreported.1],
    by rw [heq]⟩
  obtain ⟨hs | ⟨y, hy, rfl⟩, hannounced⟩ := hs
  · exact .inl hs
  · right
    by_contra hne
    exact hannounced (List.mem_map.2 ⟨y, List.mem_filter.2 ⟨hy, (hskip y).2 hne⟩, rfl⟩)

omit [PlanningSolution S k] in
/-- What a director follows is a matter of its solution and its constraints. -/
theorem Follows.congr (h : dir.Follows cs p) (hsolution : dir'.solution = dir.solution)
    (hscoring : dir'.scoring = dir.scoring) : dir'.Follows cs p := by
  obtain ⟨live, hlive, h⟩ := h
  exact ⟨live, hscoring.trans hlive, by rw [hsolution]; exact h⟩

omit [PlanningSolution S k] in
/-- There is no known score to forget. -/
theorem Follows.forget_eq (h : dir.Follows cs p) : dir.forget = dir := by
  obtain ⟨live, hlive, -⟩ := h
  simp only [Director.forget, hlive]

omit [PlanningSolution S k] in
/-- A solution may be edited where members become stale or are out. -/
theorem Follows.edit (h : dir.Follows cs p) {f : S → Checked S} (hok : dir.edit f = .ok dir')
    (hout : p'.out = p.out)
    (hs : ∀ cl members, cs.Reads cl members → ∀ i, (cl, i) ∉ p.out →
      ((members dir'.solution)[i]? = none ↔ (members dir.solution)[i]? = none) ∧
        ((cl, i) ∉ p'.stale → (cl, i) ∉ p.stale ∧
          (members dir'.solution)[i]? = (members dir.solution)[i]?)) :
    dir'.Follows cs p' ∧ dir'.shadows = dir.shadows := by
  simp only [Director.edit, h.forget_eq, bind_eq_ok_iff, pure_eq_ok_iff] at hok
  obtain ⟨s', hf, rfl⟩ := hok
  exact ⟨h.moved hout hs, rfl⟩

/-- The announcement that an entity changed settles it. -/
theorem Follows.afterVariableChanged (hc : Contract cs shadows) (hshadows : dir.shadows = shadows)
    (h : dir.Follows cs p) {x : EntityRef} {name : String} (hx : (.entity x.1, x.2) ∉ p.out)
    (hout : shadows = [] ∨ ∀ y : EntityRef, (.entity y.1, y.2) ∉ p.out)
    (hok : dir.afterVariableChanged x name = .ok dir') :
    dir'.Follows cs ⟨p.stale \ {(.entity x.1, x.2)}, p.out⟩ ∧ dir'.shadows = dir.shadows := by
  simp only [Director.afterVariableChanged, bind_eq_ok_iff, pure_eq_ok_iff] at hok
  obtain ⟨dir₁, h1, dir₂, h2, rfl⟩ := hok
  obtain ⟨h₁, -, heq₁⟩ := h.cascade hc hshadows (hout.imp_right fun hout y _ => hout y) h1
  obtain ⟨h₂, heq₂⟩ := h₁.emit hc (c := .update) hx h2
  rw [h₂.forget_eq]
  refine ⟨?_, by rw [Director.track, heq₂, heq₁]⟩
  refine Follows.congr (h₂.weaken hc fun z _ => ⟨Iff.rfl, fun hs _ => ?_⟩) rfl rfl
  obtain ⟨hs | hs, hz⟩ := hs
  · exact ⟨hs, hz⟩
  · obtain ⟨hcl, hle, hlt⟩ := hs
    exact absurd (Prod.ext hcl (by omega)) hz

/-- The announcement that a fact changed settles it. -/
theorem Follows.afterFactChanged (hc : Contract cs shadows) (h : dir.Follows cs p) {d i : Nat}
    (hi : (.fact d, i) ∉ p.out) (hok : dir.afterFactChanged d i = .ok dir') :
    dir'.Follows cs ⟨p.stale \ {(.fact d, i)}, p.out⟩ ∧ dir'.shadows = dir.shadows := by
  simp only [Director.afterFactChanged, bind_eq_ok_iff, pure_eq_ok_iff] at hok
  obtain ⟨dir₁, h1, rfl⟩ := hok
  obtain ⟨h₁, heq⟩ := h.emit hc (c := .update) (z := (.fact d, i)) hi h1
  rw [h₁.forget_eq]
  exact ⟨h₁, by rw [heq]⟩

/-- Before an entity comes or goes those from its position on go. -/
theorem Follows.beforeEntityMoved (hc : Contract cs shadows) (h : dir.Follows cs p) {x : EntityRef}
    (hin : ∀ j, (.entity x.1, j) ∉ p.out) (hok : dir.beforeEntityMoved x = .ok dir') :
    dir'.Follows cs (p.opened (.entity x.1) x.2) ∧ dir'.shadows = dir.shadows := by
  simp only [Director.beforeEntityMoved, bind_eq_ok_iff, pure_eq_ok_iff] at hok
  obtain ⟨dir₁, h1, rfl⟩ := hok
  obtain ⟨h₁, heq⟩ := h.opened hc hin h1
  rw [h₁.forget_eq]
  exact ⟨h₁, by rw [heq]⟩

/-- Before a fact comes or goes those from its position on go. -/
theorem Follows.beforeFactMoved (hc : Contract cs shadows) (h : dir.Follows cs p) {d i : Nat}
    (hin : ∀ j, (.fact d, j) ∉ p.out) (hok : dir.beforeFactMoved d i = .ok dir') :
    dir'.Follows cs (p.opened (.fact d) i) ∧ dir'.shadows = dir.shadows := by
  simp only [Director.beforeFactMoved, bind_eq_ok_iff, pure_eq_ok_iff] at hok
  obtain ⟨dir₁, h1, rfl⟩ := hok
  obtain ⟨h₁, heq⟩ := h.opened hc hin h1
  rw [h₁.forget_eq]
  exact ⟨h₁, by rw [heq]⟩

/-- After a fact came or went those from its position on come. -/
theorem Follows.afterFactMoved (hc : Contract cs shadows) (h : dir.Follows cs p) {d i : Nat}
    (hin : ∀ j, (.fact d, j) ∈ p.out ↔ i ≤ j) (hok : dir.afterFactMoved d i = .ok dir') :
    dir'.Follows cs (p.closed (.fact d) i) ∧ dir'.shadows = dir.shadows := by
  simp only [Director.afterFactMoved, bind_eq_ok_iff, pure_eq_ok_iff] at hok
  obtain ⟨dir₁, h1, rfl⟩ := hok
  obtain ⟨h₁, heq⟩ := h.closed hc (fun j _ => hin j) h1
  rw [h₁.forget_eq]
  exact ⟨h₁, by rw [heq]⟩

/-- Cascades for entities of a class whose members are out leave at most these stale. -/
theorem Follows.cascade_within (hc : Contract cs shadows) (hshadows : dir.shadows = shadows)
    {x : EntityRef} {i n : Nat} (hn : PlanningSolution.size dir.solution (.entity x.1) = n)
    (h : dir.Follows cs
      ⟨p.stale ∪ MemberRef.between (.entity x.1) i n, p.out \ MemberRef.tail (.entity x.1) n⟩)
    (hin : ∀ j, (.entity x.1, j) ∈ p.out ↔ i ≤ j)
    (hout : shadows = [] ∨ ∀ y : EntityRef, y.1 ≠ x.1 → (.entity y.1, y.2) ∉ p.out)
    {index : Option Nat} (hok : dir.cascade x index i n = .ok dir') :
    dir'.Follows cs
        ⟨p.stale ∪ MemberRef.between (.entity x.1) i n, p.out \ MemberRef.tail (.entity x.1) n⟩ ∧
      PlanningSolution.size dir'.solution (.entity x.1) = n ∧ dir'.shadows = shadows := by
  have hfar : shadows = [] ∨ ∀ y : EntityRef,
      (.entity y.1, y.2) ∉ MemberRef.between (.entity x.1) i n →
        (.entity y.1, y.2) ∉ p.out \ MemberRef.tail (.entity x.1) n := by
    refine hout.imp_right fun hout y hy hmem => ?_
    by_cases hclass : y.1 = x.1
    · rw [hclass] at hy hmem
      have hi := (hin y.2).1 hmem.1
      exact hy ⟨rfl, hi, Nat.lt_of_not_le fun hle => hmem.2 ⟨rfl, hle⟩⟩
    · exact hout y hclass hmem.1
  obtain ⟨h', hsize, heq⟩ := h.cascade hc hshadows hfar hok
  refine ⟨h'.weaken hc fun z _ => ⟨Iff.rfl, fun hs _ => ?_⟩, (hsize _).trans hn, by rw [heq, hshadows]⟩
  exact hs.elim id .inr

/-- A class is closed after its cascades. -/
theorem Follows.closed_within (hc : Contract cs shadows) {cl : SourceClass} {i n : Nat}
    (hn : PlanningSolution.size dir.solution cl = n)
    (h : dir.Follows cs ⟨p.stale ∪ MemberRef.between cl i n, p.out \ MemberRef.tail cl n⟩)
    (hin : ∀ j, (cl, j) ∈ p.out ↔ i ≤ j) (hok : dir.emitRange .insert cl i n = .ok dir') :
    dir'.Follows cs (p.closed cl i) ∧ dir' = { dir with scoring := dir'.scoring } := by
  subst hn
  have hin' : ∀ j, j < PlanningSolution.size dir.solution cl →
      ((cl, j) ∈ p.out \ MemberRef.tail cl (PlanningSolution.size dir.solution cl) ↔ i ≤ j) := by
    intro j hj
    rw [Set.mem_sdiff, hin]
    exact and_iff_left fun hfar => absurd hfar.2 (Nat.not_le.2 hj)
  obtain ⟨h', heq⟩ := h.closed hc hin' hok
  have hsolution : dir'.solution = dir.solution := by rw [heq]
  refine ⟨h'.weaken hc fun z hz => ?_, heq⟩
  rw [hsolution] at hz
  simp only [Pending.closed, Set.mem_sdiff, Set.mem_union, MemberRef.mem_tail, MemberRef.mem_between]
  grind

/-- The members of a class that are out may be counted up to its end, and some of them may be stale. -/
theorem Follows.within (hc : Contract cs shadows) (h : dir.Follows cs p) {cl : SourceClass} {i n : Nat}
    (hn : PlanningSolution.size dir.solution cl = n) :
    dir.Follows cs ⟨p.stale ∪ MemberRef.between cl i n, p.out \ MemberRef.tail cl n⟩ := by
  refine h.weaken hc fun z hz => ⟨?_, fun hs _ => .inl hs⟩
  rw [Set.mem_sdiff]
  refine and_iff_left fun hfar => ?_
  obtain ⟨hcl, hle⟩ := hfar
  rw [hcl, hn] at hz
  exact absurd hle (Nat.not_le.2 hz)

/-- After an entity came those from its position on come. -/
theorem Follows.afterEntityAdded (hc : Contract cs shadows) (hshadows : dir.shadows = shadows)
    (h : dir.Follows cs p) {x : EntityRef} (hin : ∀ j, (.entity x.1, j) ∈ p.out ↔ x.2 ≤ j)
    (hout : shadows = [] ∨ ∀ y : EntityRef, y.1 ≠ x.1 → (.entity y.1, y.2) ∉ p.out)
    (hok : dir.afterEntityAdded x = .ok dir') :
    dir'.Follows cs (p.closed (.entity x.1) x.2) ∧ dir'.shadows = dir.shadows := by
  simp only [Director.afterEntityAdded, bind_eq_ok_iff, pure_eq_ok_iff] at hok
  obtain ⟨dir₁, h1, dir₂, h2, rfl⟩ := hok
  obtain ⟨h₁, hn₁, hs₁⟩ := (h.within hc rfl).cascade_within hc hshadows rfl hin hout h1
  obtain ⟨h₂, heq₂⟩ := h₁.closed_within hc hn₁ hin h2
  rw [h₂.forget_eq]
  exact ⟨h₂, by rw [heq₂, hs₁, hshadows]⟩

/-- After an entity went those from its position on come. -/
theorem Follows.afterEntityRemoved (hc : Contract cs shadows) (hshadows : dir.shadows = shadows)
    (h : dir.Follows cs p) {x : EntityRef} (hin : ∀ j, (.entity x.1, j) ∈ p.out ↔ x.2 ≤ j)
    (hout : shadows = [] ∨ ∀ y : EntityRef, y.1 ≠ x.1 → (.entity y.1, y.2) ∉ p.out)
    (hok : dir.afterEntityRemoved x = .ok dir') :
    dir'.Follows cs (p.closed (.entity x.1) x.2) ∧ dir'.shadows = dir.shadows := by
  simp only [Director.afterEntityRemoved, bind_eq_ok_iff, pure_eq_ok_iff] at hok
  obtain ⟨dir₁, h1, dir₂, h2, rfl⟩ := hok
  have hcascades : ∀ (js : List Nat) (dir dir' : Director S k) {n : Nat},
      dir.Follows cs ⟨p.stale ∪ MemberRef.between (.entity x.1) x.2 n,
        p.out \ MemberRef.tail (.entity x.1) n⟩ →
      PlanningSolution.size dir.solution (.entity x.1) = n → dir.shadows = shadows →
      js.foldlM (fun dir i => dir.cascade (x.1, i) none x.2 n) dir = .ok dir' →
      dir'.Follows cs ⟨p.stale ∪ MemberRef.between (.entity x.1) x.2 n,
          p.out \ MemberRef.tail (.entity x.1) n⟩ ∧
        PlanningSolution.size dir'.solution (.entity x.1) = n ∧ dir'.shadows = shadows := by
    intro js
    induction js with
    | nil =>
      intro dir dir' n h hn hs hok
      cases hok
      exact ⟨h, hn, hs⟩
    | cons j js ih =>
      intro dir dir' n h hn hs hok
      rw [List.foldlM_cons] at hok
      obtain ⟨dir₁, h1, hok⟩ := bind_eq_ok_iff.1 hok
      obtain ⟨h₁, hn₁, hs₁⟩ := h.cascade_within (x := (x.1, j)) hc hs hn hin hout h1
      exact ih dir₁ dir' h₁ hn₁ hs₁ hok
  obtain ⟨h₁, hn₁, hs₁⟩ := hcascades _ _ _ (h.within hc rfl) rfl hshadows h1
  obtain ⟨h₂, heq₂⟩ := h₁.closed_within hc hn₁ hin h2
  rw [h₂.forget_eq]
  exact ⟨h₂, by rw [heq₂, hs₁, hshadows]⟩

omit [PlanningSolution S k] in
/-- Constraints that are not loaded follow any solution. -/
theorem Follows.resetScoring (h : dir.Follows cs p) (s : S) (p' : Pending) :
    { dir.resetScoring with solution := s }.Follows cs p' := by
  obtain ⟨live, hlive, h⟩ := h
  simp only [Director.resetScoring, hlive]
  refine ⟨_, rfl, ?_, fun _ => h.reset, nofun⟩
  change live.constraints.reset.reset = cs.reset
  rw [h.reset, ConstraintSet.reset_reset]

end Director

end Planning
