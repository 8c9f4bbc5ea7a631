import Mathlib.Algebra.BigOperators.Group.Finset.Basic
import Mathlib.Algebra.BigOperators.Group.Finset.Piecewise
import Mathlib.Algebra.Order.Group.Multiset
import Planning.Move.List
import Planning.Proofs.Move.Content
import Planning.Proofs.Sequence

/-!
# Moves of list variables taken back

A move of a list variable is made of one or two edits of lists. What undoes it edits the lists in turn, at the
positions where the move left the elements. A move writes the lists of its entities and nothing else, and keeps
the elements of all lists but for one that it assigns.
-/

namespace Planning

open Checked

variable {S B L : Type} {V : B → Type} {W : L → Type} [DecidableEq B] [DecidableEq L]
variable {g : Genuine S V W} {l : L} {s s' t : S} {e : Nat}

namespace Genuine

section Written

variable {w : List (W l)}

omit [DecidableEq B] in
/-- A list that was written is read. -/
theorem list_of_setList (h : g.content s' = (g.content s).setList l e w) : (g.list l).list s' e = w :=
  (congrArg (fun c => c.lists l e) h).trans (Content.lists_setList_self ..)

omit [DecidableEq B] in
/-- The lists of other entities are not written. -/
theorem list_of_setList_of_ne (h : g.content s' = (g.content s).setList l e w) {d : Nat} (hd : d ≠ e) :
    (g.list l).list s' d = (g.list l).list s d :=
  (congrArg (fun c => c.lists l d) h).trans (Content.lists_setList_of_ne _ hd _)

omit [DecidableEq B] in
/-- Writing a list changes no number of entities. -/
theorem count_of_setList (h : g.content s' = (g.content s).setList l e w) :
    (g.list l).count s' = (g.list l).count s :=
  congrArg (fun c => c.listCount l) h

end Written

namespace Lawful

/-- An edited list of an entity that exists is written. -/
theorem edit_eq_ok (hg : g.Lawful) (he : e < (g.list l).count s) {f : List (W l) → Checked (List (W l))}
    (h : (g.list l).edit s e f = .ok s') :
    ∃ w, f ((g.list l).list s e) = .ok w ∧ g.content s' = (g.content s).setList l e w := by
  obtain ⟨w, hw, hset⟩ := bind_eq_ok_iff.1 h
  obtain ⟨s'', hset', hcontent⟩ := hg.set_list l s e w he
  rw [hset] at hset'
  cases hset'
  exact ⟨w, hw, hcontent⟩

/-- An edit that succeeds can be made. -/
theorem edit_ok (hg : g.Lawful) (he : e < (g.list l).count s) {f : List (W l) → Checked (List (W l))}
    {w : List (W l)} (hw : f ((g.list l).list s e) = .ok w) :
    ∃ s', (g.list l).edit s e f = .ok s' ∧ g.content s' = (g.content s).setList l e w := by
  obtain ⟨s', hset, hcontent⟩ := hg.set_list l s e w he
  exact ⟨s', bind_eq_ok_iff.2 ⟨w, hw, hset⟩, hcontent⟩

/-- An edit is taken back by one that gives the list before it. -/
theorem edit_back (hg : g.Lawful) (he : e < (g.list l).count s)
    {f r : List (W l) → Checked (List (W l))} (h : (g.list l).edit s e f = .ok s')
    (hf : ∀ w, f ((g.list l).list s e) = .ok w → r w = .ok ((g.list l).list s e))
    (ht : g.content t = g.content s') :
    ∃ u, (g.list l).edit t e r = .ok u ∧ g.content u = g.content s := by
  obtain ⟨w, hw, hs'⟩ := hg.edit_eq_ok he h
  rw [hs'] at ht
  have hlist : r ((g.list l).list t e) = .ok ((g.list l).list s e) := by
    rw [list_of_setList ht]
    exact hf w hw
  obtain ⟨u, hu, hback⟩ := hg.edit_ok ((count_of_setList ht).symm ▸ he) hlist
  refine ⟨u, hu, ?_⟩
  rw [hback, ht, Content.setList_setList]
  exact Content.setList_lists ..

end Lawful

end Genuine

namespace ListMove

open Genuine

variable {a i b j n : Nat}

/-- An element that went to another position goes back. -/
theorem transfer_back (hg : g.Lawful) (ha : a < (g.list l).count s) (hb : b < (g.list l).count s)
    (h : transfer (g.list l) s a i b j = .ok s') (ht : g.content t = g.content s') :
    ∃ u, transfer (g.list l) t b j a i = .ok u ∧ g.content u = g.content s := by
  obtain ⟨v, hv, h⟩ := bind_eq_ok_iff.1 h
  obtain ⟨s₁, h₁, h₂⟩ := bind_eq_ok_iff.1 h
  rw [member_eq_ok_iff] at hv
  obtain ⟨w₁, hw₁, hs₁⟩ := hg.edit_eq_ok ha h₁
  have hb₁ : b < (g.list l).count s₁ := (count_of_setList hs₁).symm ▸ hb
  obtain ⟨w₂, hw₂, hs'⟩ := hg.edit_eq_ok hb₁ h₂
  have hmember : member ((g.list l).list t b) j = .ok v := by
    rw [list_of_setList (ht.trans hs'), member_eq_ok_iff]
    exact getElem?_of_insertAt hw₂
  obtain ⟨u₁, hu₁, hc₁⟩ := hg.edit_back hb₁ h₂ (fun _ => removeAt_of_insertAt) ht
  obtain ⟨u, hu, hc⟩ := hg.edit_back ha h₁ (fun _ hw => insertAt_of_removeAt hw hv) hc₁
  exact ⟨u, bind_eq_ok_iff.2 ⟨v, hmember, bind_eq_ok_iff.2 ⟨u₁, hu₁, hu⟩⟩, hc⟩

/-- A sublist that went to another position goes back. -/
theorem transferAll_back (hg : g.Lawful) (ha : a < (g.list l).count s) (hb : b < (g.list l).count s)
    (h : transferAll (g.list l) s a i j b n = .ok s') (ht : g.content t = g.content s') :
    ∃ u, transferAll (g.list l) t b n (n + (j - i)) a i = .ok u ∧ g.content u = g.content s := by
  obtain ⟨⟨part, rest⟩, hcut, h⟩ := bind_eq_ok_iff.1 h
  obtain ⟨s₁, h₁, h₂⟩ := bind_eq_ok_iff.1 h
  -- What stays of the first list is written as an edit that does not look at the list.
  have h₁ : (g.list l).edit s a (fun _ => .ok rest) = .ok s₁ := h₁
  obtain ⟨w₁, hw₁, hs₁⟩ := hg.edit_eq_ok ha h₁
  have hb₁ : b < (g.list l).count s₁ := (count_of_setList hs₁).symm ▸ hb
  obtain ⟨w₂, hw₂, hs'⟩ := hg.edit_eq_ok hb₁ h₂
  have hcut' : cutAt ((g.list l).list t b) n (n + (j - i)) = .ok (part, (g.list l).list s₁ b) := by
    rw [list_of_setList (ht.trans hs'), ← (length_of_cutAt hcut).1]
    exact cutAt_of_insertAllAt hw₂
  obtain ⟨u₁, hu₁, hc₁⟩ := hg.edit_back hb₁ h₂ (r := fun _ => .ok ((g.list l).list s₁ b))
    (fun _ _ => rfl) ht
  obtain ⟨u, hu, hc⟩ := hg.edit_back ha h₁ (r := fun l => insertAllAt l i part) (by
    intro w hw
    cases hw
    exact insertAllAt_of_cutAt hcut) hc₁
  exact ⟨u, bind_eq_ok_iff.2 ⟨_, hcut', bind_eq_ok_iff.2 ⟨u₁, hu₁, hu⟩⟩, hc⟩

/-- Elements that were exchanged are exchanged again. -/
theorem exchange_back (hg : g.Lawful) (ha : a < (g.list l).count s) (hb : b < (g.list l).count s)
    {v w : W l} (hv : ((g.list l).list s a)[i]? = some v) (hw : ((g.list l).list s b)[j]? = some w)
    (h : exchange (g.list l) s a i b j v w = .ok s') (ht : g.content t = g.content s') :
    ∃ u, exchange (g.list l) t a i b j w v = .ok u ∧ g.content u = g.content s := by
  unfold exchange at h ⊢
  by_cases hab : a = b
  · rw [if_pos hab] at h ⊢
    exact hg.edit_back ha h (fun _ => swapAt_of_swapAt) ht
  · rw [if_neg hab] at h ⊢
    obtain ⟨s₁, h₁, h₂⟩ := bind_eq_ok_iff.1 h
    obtain ⟨w₁, hw₁, hs₁⟩ := hg.edit_eq_ok ha h₁
    have hb₁ : b < (g.list l).count s₁ := (count_of_setList hs₁).symm ▸ hb
    obtain ⟨w₂, hw₂, hs'⟩ := hg.edit_eq_ok hb₁ h₂
    rw [list_of_setList_of_ne hs₁ (Ne.symm hab)] at hw₂
    -- The lists are written back in the order in which they were written, as if it were the other one.
    obtain ⟨r₁, hr₁, hcr₁⟩ := hg.edit_ok hb (f := fun l => replaceAt l j v) hw₂
    have har₁ : a < (g.list l).count r₁ := (count_of_setList hcr₁).symm ▸ ha
    rw [← list_of_setList_of_ne hcr₁ hab] at hw₁
    obtain ⟨r, hr, hcr⟩ := hg.edit_ok har₁ (f := fun l => replaceAt l i w) hw₁
    have hcontent : g.content t = g.content r := by
      rw [ht, hs', hs₁, hcr, hcr₁, Content.setList_comm _ hab]
    have hv' : ((g.list l).list r₁ a)[i]? = some v := by rwa [list_of_setList_of_ne hcr₁ hab]
    obtain ⟨u₁, hu₁, hc₁⟩ := hg.edit_back har₁ hr (fun _ hw => replaceAt_of_replaceAt hw hv') hcontent
    obtain ⟨u, hu, hc⟩ := hg.edit_back hb hr₁ (fun _ h => replaceAt_of_replaceAt h hw) hc₁
    exact ⟨u, bind_eq_ok_iff.2 ⟨u₁, hu₁, hu⟩, hc⟩

/-- Two entities, or one if they are the same, are the two. -/
theorem mem_oneOrTwo {d : Nat} : d ∈ oneOrTwo a b ↔ d = a ∨ d = b := by
  unfold oneOrTwo
  split
  · rename_i hab
    rw [List.mem_singleton, ← hab, or_self]
  · rw [List.mem_cons, List.mem_singleton]

section Planned

variable [PlanningValue (W l)] [DecidableEq (W l)] {m : ListMove (W l)} {edit : Edit S}

omit [DecidableEq B] [DecidableEq L] in
/-- The entities of a move that is planned exist. -/
theorem lt_of_check {u : Unit} (h : m.check (g.list l) s = .ok u) :
    ∀ d ∈ m.entities, d < (g.list l).count s := by
  have htwo : ∀ {a b}, a < (g.list l).count s → b < (g.list l).count s →
      ∀ d ∈ oneOrTwo a b, d < (g.list l).count s := by
    intro a b ha hb d hd
    rcases mem_oneOrTwo.1 hd with rfl | rfl
    · exact ha
    · exact hb
  cases m with
  | change a i b j =>
    obtain ⟨_, ha, h⟩ := bind_eq_ok_iff.1 h
    obtain ⟨_, hb, -⟩ := bind_eq_ok_iff.1 h
    exact htwo (lt_of_checkMovable ha) (lt_of_checkMovable hb)
  | swap a i b j =>
    obtain ⟨_, ha, h⟩ := bind_eq_ok_iff.1 h
    obtain ⟨_, -, h⟩ := bind_eq_ok_iff.1 h
    obtain ⟨_, hb, -⟩ := bind_eq_ok_iff.1 h
    exact htwo (lt_of_checkMovable ha) (lt_of_checkMovable hb)
  | reverse e i j =>
    obtain ⟨_, he, -⟩ := bind_eq_ok_iff.1 h
    exact List.forall_mem_singleton.2 (lt_of_checkMovable he)
  | sublistChange a i j b n =>
    obtain ⟨_, ha, h⟩ := bind_eq_ok_iff.1 h
    obtain ⟨_, hb, -⟩ := bind_eq_ok_iff.1 h
    exact htwo (lt_of_checkMovable ha) (lt_of_checkMovable hb)
  | assign v e i =>
    obtain ⟨_, he, -⟩ := bind_eq_ok_iff.1 h
    exact List.forall_mem_singleton.2 (lt_of_checkMovable he)

/-- A move that is planned is taken back. -/
theorem reversible (hg : g.Lawful) (h : m.plan (g.list l) s = .ok edit) : g.Reversible s edit := by
  obtain ⟨_, hcheck, hpure⟩ := bind_eq_ok_iff.1 h
  cases hpure
  have hlt := lt_of_check hcheck
  intro s' happly t ht
  cases m with
  | change a i b j =>
    exact transfer_back hg (hlt a (mem_oneOrTwo.2 (.inl rfl))) (hlt b (mem_oneOrTwo.2 (.inr rfl))) happly ht
  | swap a i b j =>
    obtain ⟨v, hv, happly⟩ := bind_eq_ok_iff.1 happly
    obtain ⟨w, hw, happly⟩ := bind_eq_ok_iff.1 happly
    obtain ⟨u, hu, hback⟩ := exchange_back hg (hlt a (mem_oneOrTwo.2 (.inl rfl)))
      (hlt b (mem_oneOrTwo.2 (.inr rfl))) (member_eq_ok_iff.1 hv) (member_eq_ok_iff.1 hw) happly ht
    exact ⟨u, bind_eq_ok_iff.2 ⟨w, hw, bind_eq_ok_iff.2 ⟨v, hv, hu⟩⟩, hback⟩
  | reverse e i j =>
    have happly : (g.list l).edit s e (fun l => reverseAt l i j) = .ok s' := happly
    exact hg.edit_back (hlt e (List.mem_singleton_self e)) happly (fun _ => reverseAt_of_reverseAt) ht
  | sublistChange a i j b n =>
    exact transferAll_back hg (hlt a (mem_oneOrTwo.2 (.inl rfl))) (hlt b (mem_oneOrTwo.2 (.inr rfl))) happly ht
  | assign v e i =>
    have happly : (g.list l).edit s e (fun l => insertAt l i v) = .ok s' := happly
    exact hg.edit_back (hlt e (List.mem_singleton_self e)) happly (fun _ => removeAt_of_insertAt) ht

end Planned

section Frame

variable {V : Type} {x : ListVariable S V} {m : ListMove V} {R : S → S → Prop}

/-- Two lists are written when elements move between them. -/
theorem transfer_rel (hR : ∀ ⦃r s t⦄, R r s → R s t → R r t)
    (ha : ∀ s w s', x.set s a w = .ok s' → R s s') (hb : ∀ s w s', x.set s b w = .ok s' → R s s')
    (h : transfer x s a i b j = .ok s') : R s s' := by
  obtain ⟨v, -, h⟩ := bind_eq_ok_iff.1 h
  obtain ⟨s₁, h₁, h₂⟩ := bind_eq_ok_iff.1 h
  obtain ⟨w₁, -, h₁⟩ := bind_eq_ok_iff.1 h₁
  obtain ⟨w₂, -, h₂⟩ := bind_eq_ok_iff.1 h₂
  exact hR (ha _ _ _ h₁) (hb _ _ _ h₂)

/-- Two lists are written when a sublist moves between them. -/
theorem transferAll_rel (hR : ∀ ⦃r s t⦄, R r s → R s t → R r t)
    (ha : ∀ s w s', x.set s a w = .ok s' → R s s') (hb : ∀ s w s', x.set s b w = .ok s' → R s s')
    (h : transferAll x s a i j b n = .ok s') : R s s' := by
  obtain ⟨⟨part, rest⟩, -, h⟩ := bind_eq_ok_iff.1 h
  obtain ⟨s₁, h₁, h₂⟩ := bind_eq_ok_iff.1 h
  obtain ⟨w₂, -, h₂⟩ := bind_eq_ok_iff.1 h₂
  exact hR (ha _ _ _ h₁) (hb _ _ _ h₂)

/-- One list or two are written when elements are exchanged. -/
theorem exchange_rel (hR : ∀ ⦃r s t⦄, R r s → R s t → R r t)
    (ha : ∀ s w s', x.set s a w = .ok s' → R s s') (hb : ∀ s w s', x.set s b w = .ok s' → R s s')
    {v w : V} (h : exchange x s a i b j v w = .ok s') : R s s' := by
  unfold exchange at h
  split at h
  · obtain ⟨w₁, -, h⟩ := bind_eq_ok_iff.1 h
    exact ha _ _ _ h
  · obtain ⟨s₁, h₁, h₂⟩ := bind_eq_ok_iff.1 h
    obtain ⟨w₁, -, h₁⟩ := bind_eq_ok_iff.1 h₁
    obtain ⟨w₂, -, h₂⟩ := bind_eq_ok_iff.1 h₂
    exact hR (ha _ _ _ h₁) (hb _ _ _ h₂)

/-- What writing the lists of its entities does a move does. -/
theorem apply_rel (hR : ∀ ⦃r s t⦄, R r s → R s t → R r t)
    (hset : ∀ d ∈ m.entities, ∀ s w s', x.set s d w = .ok s' → R s s')
    (h : m.apply x s = .ok s') : R s s' := by
  cases m with
  | change a i b j =>
    exact transfer_rel hR (hset a (mem_oneOrTwo.2 (.inl rfl))) (hset b (mem_oneOrTwo.2 (.inr rfl))) h
  | swap a i b j =>
    obtain ⟨v, -, h⟩ := bind_eq_ok_iff.1 h
    obtain ⟨w, -, h⟩ := bind_eq_ok_iff.1 h
    exact exchange_rel hR (hset a (mem_oneOrTwo.2 (.inl rfl))) (hset b (mem_oneOrTwo.2 (.inr rfl))) h
  | reverse e i j =>
    obtain ⟨w, -, h⟩ := bind_eq_ok_iff.1 h
    exact hset e (List.mem_singleton_self e) _ _ _ h
  | sublistChange a i j b n =>
    exact transferAll_rel hR (hset a (mem_oneOrTwo.2 (.inl rfl))) (hset b (mem_oneOrTwo.2 (.inr rfl))) h
  | assign v e i =>
    obtain ⟨w, -, h⟩ := bind_eq_ok_iff.1 h
    exact hset e (List.mem_singleton_self e) _ _ _ h

/-- What writing the lists of its entities does undoing a move does. -/
theorem undo_rel (hR : ∀ ⦃r s t⦄, R r s → R s t → R r t)
    (hset : ∀ d ∈ m.entities, ∀ s w s', x.set s d w = .ok s' → R s s')
    {old : S} (h : m.undo x old s = .ok s') : R s s' := by
  cases m with
  | change a i b j =>
    exact transfer_rel hR (hset b (mem_oneOrTwo.2 (.inr rfl))) (hset a (mem_oneOrTwo.2 (.inl rfl))) h
  | swap a i b j =>
    obtain ⟨v, -, h⟩ := bind_eq_ok_iff.1 h
    obtain ⟨w, -, h⟩ := bind_eq_ok_iff.1 h
    exact exchange_rel hR (hset a (mem_oneOrTwo.2 (.inl rfl))) (hset b (mem_oneOrTwo.2 (.inr rfl))) h
  | reverse e i j =>
    obtain ⟨w, -, h⟩ := bind_eq_ok_iff.1 h
    exact hset e (List.mem_singleton_self e) _ _ _ h
  | sublistChange a i j b n =>
    exact transferAll_rel hR (hset b (mem_oneOrTwo.2 (.inr rfl))) (hset a (mem_oneOrTwo.2 (.inl rfl))) h
  | assign v e i =>
    obtain ⟨w, -, h⟩ := bind_eq_ok_iff.1 h
    exact hset e (List.mem_singleton_self e) _ _ _ h

end Frame

end ListMove

/-- The elements of all lists, with their multiplicities. -/
def ListVariable.elements {V : Type} (x : ListVariable S V) (s : S) : Multiset V :=
  ∑ e ∈ Finset.range (x.count s), (x.list s e : Multiset V)

omit [DecidableEq B] in
/-- When a list is written, what leaves it and what comes to it leave and come to all elements. -/
theorem Genuine.elements_of_setList {w : List (W l)} (he : e < (g.list l).count s)
    (h : g.content s' = (g.content s).setList l e w) (gone new : List (W l))
    (hperm : (gone ++ w).Perm (new ++ (g.list l).list s e)) :
    (g.list l).elements s' + gone = (g.list l).elements s + new := by
  let others : Multiset (W l) := ∑ d ∈ (Finset.range ((g.list l).count s)).erase e, ((g.list l).list s d)
  have hbefore : (g.list l).elements s = (g.list l).list s e + others :=
    (Finset.add_sum_erase _ _ (Finset.mem_range.2 he)).symm
  have hafter : (g.list l).elements s' = w + others := by
    unfold ListVariable.elements
    rw [count_of_setList h, ← Finset.add_sum_erase _ _ (Finset.mem_range.2 he), list_of_setList h]
    refine congrArg _ (Finset.sum_congr rfl fun d hd => ?_)
    rw [list_of_setList_of_ne h (Finset.ne_of_mem_erase hd)]
  have hlists : (gone : Multiset (W l)) + w = new + (g.list l).list s e := by
    rw [Multiset.coe_add, Multiset.coe_add, Multiset.coe_eq_coe]
    exact hperm
  calc (g.list l).elements s' + gone = gone + w + others := by rw [hafter, add_comm, add_assoc]
    _ = (g.list l).elements s + new := by rw [hlists, hbefore, add_assoc, add_comm]

namespace ListMove

open Genuine

variable {a i b j n : Nat}

/-- The elements that a move puts into a list for the first time. -/
def added {V : Type} : ListMove V → List V
  | assign v _ _ => [v]
  | _ => []

/-- An element that goes to another position stays an element. -/
theorem elements_transfer (hg : g.Lawful) (ha : a < (g.list l).count s) (hb : b < (g.list l).count s)
    (h : transfer (g.list l) s a i b j = .ok s') : (g.list l).elements s' = (g.list l).elements s := by
  obtain ⟨v, hv, h⟩ := bind_eq_ok_iff.1 h
  obtain ⟨s₁, h₁, h₂⟩ := bind_eq_ok_iff.1 h
  rw [member_eq_ok_iff] at hv
  obtain ⟨w₁, hw₁, hs₁⟩ := hg.edit_eq_ok ha h₁
  obtain ⟨w₂, hw₂, hs'⟩ := hg.edit_eq_ok ((count_of_setList hs₁).symm ▸ hb) h₂
  have hout := elements_of_setList ha hs₁ [v] [] (perm_of_removeAt hw₁ hv).symm
  have hin := elements_of_setList ((count_of_setList hs₁).symm ▸ hb) hs' [] [v] (perm_of_insertAt hw₂)
  simp only [Multiset.coe_nil, add_zero] at hout hin
  rw [hin, hout]

/-- A sublist that goes to another position keeps the elements. -/
theorem elements_transferAll (hg : g.Lawful) (ha : a < (g.list l).count s) (hb : b < (g.list l).count s)
    (h : transferAll (g.list l) s a i j b n = .ok s') :
    (g.list l).elements s' = (g.list l).elements s := by
  obtain ⟨⟨part, rest⟩, hcut, h⟩ := bind_eq_ok_iff.1 h
  obtain ⟨s₁, h₁, h₂⟩ := bind_eq_ok_iff.1 h
  obtain ⟨w₁, hw₁, hs₁⟩ := hg.edit_eq_ok ha (f := fun _ => .ok rest) h₁
  cases hw₁
  obtain ⟨w₂, hw₂, hs'⟩ := hg.edit_eq_ok ((count_of_setList hs₁).symm ▸ hb) h₂
  have hout := elements_of_setList ha hs₁ part [] (perm_of_cutAt hcut).symm
  have hin := elements_of_setList ((count_of_setList hs₁).symm ▸ hb) hs' [] part
    (perm_of_insertAllAt hw₂)
  simp only [Multiset.coe_nil, add_zero] at hout hin
  rw [hin, hout]

/-- Elements that are exchanged stay elements. -/
theorem elements_exchange (hg : g.Lawful) (ha : a < (g.list l).count s) (hb : b < (g.list l).count s)
    {v w : W l} (hv : ((g.list l).list s a)[i]? = some v) (hw : ((g.list l).list s b)[j]? = some w)
    (h : exchange (g.list l) s a i b j v w = .ok s') :
    (g.list l).elements s' = (g.list l).elements s := by
  unfold exchange at h
  split at h
  · obtain ⟨w₁, hw₁, hs'⟩ := hg.edit_eq_ok ha h
    have hsame := elements_of_setList ha hs' [] [] (perm_of_swapAt hw₁)
    simpa only [Multiset.coe_nil, add_zero] using hsame
  · rename_i hab
    obtain ⟨s₁, h₁, h₂⟩ := bind_eq_ok_iff.1 h
    obtain ⟨w₁, hw₁, hs₁⟩ := hg.edit_eq_ok ha h₁
    have hb₁ : b < (g.list l).count s₁ := (count_of_setList hs₁).symm ▸ hb
    obtain ⟨w₂, hw₂, hs'⟩ := hg.edit_eq_ok hb₁ h₂
    have hw' : ((g.list l).list s₁ b)[j]? = some w := by rwa [list_of_setList_of_ne hs₁ (Ne.symm hab)]
    have hout := elements_of_setList ha hs₁ [v] [w] (perm_of_replaceAt hw₁ hv)
    have hin := elements_of_setList hb₁ hs' [w] [v] (perm_of_replaceAt hw₂ hw')
    exact add_right_cancel (hin.trans hout)

/-- A move keeps the elements of all lists but for one that it assigns. -/
theorem elements_apply [PlanningValue (W l)] [DecidableEq (W l)] (hg : g.Lawful) {m : ListMove (W l)} {u : Unit}
    (hcheck : m.check (g.list l) s = .ok u) (h : m.apply (g.list l) s = .ok s') :
    (g.list l).elements s' = (g.list l).elements s + m.added := by
  have hlt := lt_of_check hcheck
  have hnone : (g.list l).elements s + (([] : List (W l)) : Multiset (W l)) = (g.list l).elements s := add_zero _
  cases m with
  | change a i b j =>
    exact (elements_transfer hg (hlt a (mem_oneOrTwo.2 (.inl rfl))) (hlt b (mem_oneOrTwo.2 (.inr rfl))) h).trans
      hnone.symm
  | swap a i b j =>
    obtain ⟨v, hv, h⟩ := bind_eq_ok_iff.1 h
    obtain ⟨w, hw, h⟩ := bind_eq_ok_iff.1 h
    exact (elements_exchange hg (hlt a (mem_oneOrTwo.2 (.inl rfl))) (hlt b (mem_oneOrTwo.2 (.inr rfl)))
      (member_eq_ok_iff.1 hv) (member_eq_ok_iff.1 hw) h).trans hnone.symm
  | reverse e i j =>
    have he := hlt e (List.mem_singleton_self e)
    have h : (g.list l).edit s e (fun l => reverseAt l i j) = .ok s' := h
    obtain ⟨w, hw, hs'⟩ := hg.edit_eq_ok he h
    exact (add_zero _).symm.trans (elements_of_setList he hs' [] [] (perm_of_reverseAt hw))
  | sublistChange a i j b n =>
    exact (elements_transferAll hg (hlt a (mem_oneOrTwo.2 (.inl rfl))) (hlt b (mem_oneOrTwo.2 (.inr rfl)))
      h).trans hnone.symm
  | assign v e i =>
    have he := hlt e (List.mem_singleton_self e)
    have h : (g.list l).edit s e (fun l => insertAt l i v) = .ok s' := h
    obtain ⟨w, hw, hs'⟩ := hg.edit_eq_ok he h
    exact (add_zero _).symm.trans (elements_of_setList he hs' [] [v] (perm_of_insertAt hw))

end ListMove

end Planning
