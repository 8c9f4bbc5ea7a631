import Planning.Dynamic.Problem
import Planning.Proofs.Move.Alike
import Planning.Proofs.Problems.Timetable

/-!
# Signatures of moves

A signature says of which kind a move is, what it changes, and what was there before and is there after. When the
signature of a second move of a variable reverses that of the first, the second is the way back of the first, and
making it gives back what the variables held. The way back of a move has the reversed signature. A signature does not
say which variable of its entities is changed: the signatures of moves of different variables of a class may reverse
each other although neither move undoes the other.
-/

namespace Planning

open Checked

namespace MoveSignature

/-- A signature reverses another one if it leads from its end to its start. -/
theorem reverses_iff {x y : MoveSignature} : x.reverses y = true ↔
    x.entityClass = y.entityClass ∧ x.entities = y.entities ∧ x.before = y.after ∧ x.after = y.before := by
  simp [reverses, and_assoc]

/-- A signature touches another one if both are of one class of entities and share an entity. -/
theorem touches_iff {x y : MoveSignature} : x.touches y = true ↔
    x.entityClass = y.entityClass ∧ ∃ e ∈ x.entities, e ∈ y.entities := by
  simp [touches]

variable {c : Nat} {es es' : List Nat} {before after : Value}

/-- A signature names the entities that it was given. -/
theorem mem_ofEntities {e : Nat} : e ∈ (ofEntities c es before after).entities ↔ e ∈ es :=
  mem_eraseReps.trans List.mem_mergeSort

/-- In which order a signature is given its entities does not matter. -/
theorem ofEntities_perm (h : es.Perm es') : ofEntities c es before after = ofEntities c es' before after := by
  have hsorted : ∀ l : List Nat, (l.mergeSort fun a b => decide (a ≤ b)).Pairwise (· ≤ ·) := by
    intro l
    have hpairwise := @List.pairwise_mergeSort _ (fun a b : Nat => decide (a ≤ b))
      (by intros; simp_all; omega) (by intros; simp_all; omega) l
    simpa only [decide_eq_true_eq] using hpairwise
  have heq := List.Perm.eq_of_pairwise (fun _ _ _ _ => Nat.le_antisymm) (hsorted es) (hsorted es')
    ((List.mergeSort_perm es _).trans (h.trans (List.mergeSort_perm es' _).symm))
  rw [ofEntities, heq, ofEntities]

end MoveSignature

/-- Values that may be missing are told apart. -/
theorem optionValue_injective {V : Type} [PlanningValue V] {v w : Option V} (h : optionValue v = optionValue w) :
    v = w := by
  cases v with
  | none => cases w <;> simp_all [optionValue]
  | some v =>
    cases w with
    | none => simp [optionValue] at h
    | some w => exact congrArg some (PlanningValue.toValue_injective v w (by simpa [optionValue] using h))

/-- Segments are told apart by their elements. -/
theorem ListMove.elements_injective {V : Type} [PlanningValue V] {l m : List V} (h : elements l = elements m) :
    l = m :=
  List.map_injective_iff.2 (fun v w => PlanningValue.toValue_injective v w) (Value.list.inj h)

namespace BasicMove

variable {V : Type}

/-- The move that undoes a move made in a solution. -/
def inverse {S : Type} (x : BasicVariable S V) (s : S) : BasicMove V → BasicMove V
  | change e _ => change e (x.get? s e)
  | swap i j => swap i j

/-- The same move with a swap written the other way. -/
def turned : BasicMove V → BasicMove V
  | change e v => change e v
  | swap i j => swap j i

end BasicMove

namespace ListMove

variable {V : Type}

/-- The move that undoes a move; nothing takes an element out of all lists. -/
def inverse? : ListMove V → Option (ListMove V)
  | change a i b j => some (change b j a i)
  | swap a i b j => some (swap a i b j)
  | reverse e i j => some (reverse e i j)
  | sublistChange a i j b n => some (sublistChange b n (n + (j - i)) a i)
  | assign .. => none

/-- The same move with a swap written the other way. -/
def turned : ListMove V → ListMove V
  | swap a i b j => swap b j a i
  | m => m

/-- The word for the kind of a move in its signature. -/
def kind : ListMove V → String
  | change .. => "list_change"
  | swap .. => "list_swap"
  | reverse .. => "list_reverse"
  | sublistChange .. => "sublist_change"
  | assign .. => "list_assign"

end ListMove

namespace BasicMove

variable {S V : Type} [PlanningValue V] {x : BasicVariable S V} {s t : S} {m₁ m₂ : BasicMove V}

/-- A signature names the entities of its move. -/
theorem mem_entities_signature {m : BasicMove V} {e : Nat} : e ∈ (m.signature x s).entities ↔ e ∈ m.entities := by
  cases m <;> exact MoveSignature.mem_ofEntities

/-- A move of a value whose signature reverses that of another one is what undoes the other one. -/
theorem eq_inverse_of_reverses (h : (m₂.signature x t).reverses (m₁.signature x s) = true) :
    m₂ = m₁.inverse x s ∨ m₂ = (m₁.inverse x s).turned := by
  obtain ⟨-, hentities, hbefore, hafter⟩ := MoveSignature.reverses_iff.1 h
  cases m₁ with
  | change e v =>
    cases m₂ with
    | change e' v' =>
      simp only [signature, MoveSignature.ofEntities, entityState, Value.list.injEq, List.cons.injEq, Value.int.injEq,
        Int.natCast_inj, true_and, and_true] at hafter
      obtain ⟨rfl, hv⟩ := hafter
      exact .inl (congrArg _ (optionValue_injective hv))
    | swap i j => simp [signature, MoveSignature.ofEntities, entityState, pairState] at hbefore
  | swap i j =>
    cases m₂ with
    | change e' v' => simp [signature, MoveSignature.ofEntities, entityState, pairState] at hbefore
    | swap i' j' =>
      have hmem : ∀ e, (e = i' ∨ e = j') ↔ (e = i ∨ e = j) := by
        intro e
        have hiff := mem_entities_signature (x := x) (s := t) (m := swap i' j') (e := e)
        rw [hentities, mem_entities_signature] at hiff
        simpa [entities] using hiff.symm
      simp only [inverse, turned, BasicMove.swap.injEq]
      have := hmem i
      have := hmem j
      have := hmem i'
      have := hmem j'
      omega

/-- What undoes a move has the reversed signature once the move is made. -/
theorem reverses_inverse {m : BasicMove V} (hleft : ∀ y ∈ m.result x s, x.get? t y.1 = y.2) :
    ((m.inverse x s).signature x t).reverses (m.signature x s) = true := by
  refine MoveSignature.reverses_iff.2 ?_
  cases m with
  | change e v =>
    refine ⟨rfl, rfl, ?_, rfl⟩
    simp [inverse, signature, MoveSignature.ofEntities, hleft (e, v) (List.mem_singleton_self _)]
  | swap i j =>
    have hi : x.get? t i = x.get? s j := hleft (i, _) (by simp [result])
    have hj : x.get? t j = x.get? s i := hleft (j, _) (by simp [result])
    have hboth : x.get? t (min i j) = x.get? s (max i j) ∧ x.get? t (max i j) = x.get? s (min i j) := by
      rcases Nat.le_total i j with hij | hij
      · rw [Nat.min_eq_left hij, Nat.max_eq_right hij]
        exact ⟨hi, hj⟩
      · rw [Nat.min_eq_right hij, Nat.max_eq_left hij]
        exact ⟨hj, hi⟩
    simp [inverse, signature, MoveSignature.ofEntities, hboth]

end BasicMove

namespace ListMove

variable {S V : Type} [PlanningValue V] {x : ListVariable S V} {s t : S} {m₁ m₂ : ListMove V} {a i b j e n : Nat}

/-- A signature names the entities of its move. -/
theorem mem_entities_signature {m : ListMove V} {e : Nat} : e ∈ (m.signature x s).entities ↔ e ∈ m.entities := by
  cases m with
  | swap a i b j =>
    unfold signature
    dsimp only
    split <;> exact MoveSignature.mem_ofEntities.trans (by simp [entities, mem_oneOrTwo])
  | _ => exact MoveSignature.mem_ofEntities.trans (by simp [entities, mem_oneOrTwo])

/-- Both states of a signature start with the kind of its move. -/
theorem exists_states_signature (m : ListMove V) :
    ∃ before after, (m.signature x s).before = .list (.text m.kind :: before) ∧
      (m.signature x s).after = .list (.text m.kind :: after) := by
  cases m with
  | swap a i b j =>
    unfold signature
    dsimp only
    split <;> exact ⟨_, _, rfl, rfl⟩
  | _ => exact ⟨_, _, rfl, rfl⟩

/-- Moves whose signatures reverse each other are of one kind. -/
theorem kind_eq_of_reverses (h : (m₂.signature x t).reverses (m₁.signature x s) = true) : m₂.kind = m₁.kind := by
  obtain ⟨-, -, hbefore, -⟩ := MoveSignature.reverses_iff.1 h
  obtain ⟨_, _, h₂, -⟩ := exists_states_signature (x := x) (s := t) m₂
  obtain ⟨_, _, -, h₁⟩ := exists_states_signature (x := x) (s := s) m₁
  rw [h₂, h₁] at hbefore
  simp at hbefore
  exact hbefore.1

/-- The states of a swap name its positions, the lesser one first. -/
theorem exists_states_swap (a i b j : Nat) : ∃ (p q : Nat × Nat) (v w : Option V),
    ((swap a i b j).signature x s).before = exchangeState p q v w ∧
      ((swap a i b j).signature x s).after = exchangeState p q w v ∧
        (p = (a, i) ∧ q = (b, j) ∨ p = (b, j) ∧ q = (a, i)) := by
  unfold signature
  dsimp only
  split
  · exact ⟨_, _, _, _, rfl, rfl, .inr ⟨rfl, rfl⟩⟩
  · exact ⟨_, _, _, _, rfl, rfl, .inl ⟨rfl, rfl⟩⟩

variable [DecidableEq V]

/-- A move of a list whose signature reverses that of another one is what undoes the other one. -/
theorem eq_inverse_of_reverses (hdoable₁ : m₁.isDoable x s = true) (hdoable₂ : m₂.isDoable x t = true)
    (h : (m₂.signature x t).reverses (m₁.signature x s) = true) :
    ∃ m, m₁.inverse? = some m ∧ (m₂ = m ∨ m₂ = m.turned) := by
  have hkind := kind_eq_of_reverses h
  obtain ⟨-, hentities, hbefore, hafter⟩ := MoveSignature.reverses_iff.1 h
  cases m₁ with
  | change a i b j =>
    cases m₂ with
    | change a' i' b' j' =>
      simp only [signature, MoveSignature.ofEntities, positionState, Value.list.injEq, List.cons.injEq,
        Value.int.injEq, Int.natCast_inj, true_and] at hbefore hafter
      obtain ⟨rfl, rfl, -⟩ := hbefore
      obtain ⟨rfl, rfl, -⟩ := hafter
      exact ⟨_, rfl, .inl rfl⟩
    | _ => simp [kind] at hkind
  | swap a i b j =>
    cases m₂ with
    | swap a' i' b' j' =>
      refine ⟨_, rfl, ?_⟩
      -- Both signatures name the lesser position first, whichever of the two the move names first.
      obtain ⟨p, q, v, w, -, hafter₁, hpositions₁⟩ := exists_states_swap (x := x) (s := s) a i b j
      obtain ⟨p', q', v', w', hbefore₂, -, hpositions₂⟩ := exists_states_swap (x := x) (s := t) a' i' b' j'
      rw [hbefore₂, hafter₁] at hbefore
      simp only [exchangeState, Value.list.injEq, List.cons.injEq, Value.int.injEq, Int.natCast_inj] at hbefore
      simp only [turned, ListMove.swap.injEq]
      grind
    | _ => simp [kind] at hkind
  | reverse e i j =>
    cases m₂ with
    | reverse e' i' j' =>
      have he : e' = e := by
        have hiff := mem_entities_signature (x := x) (s := t) (m := reverse e' i' j') (e := e')
        rw [hentities, mem_entities_signature] at hiff
        simpa [entities] using hiff
      subst he
      simp only [signature, MoveSignature.ofEntities, Value.list.injEq, List.cons.injEq, Value.int.injEq,
        Int.natCast_inj, true_and, and_true] at hbefore
      obtain ⟨rfl, hpart⟩ := hbefore
      obtain ⟨-, hij, hj⟩ := isDoable_reverse_iff.1 hdoable₁
      obtain ⟨-, hij', hj'⟩ := isDoable_reverse_iff.1 hdoable₂
      have hlength := congrArg List.length (elements_injective hpart)
      rw [List.length_reverse, length_segment (by omega) hj, length_segment (by omega) hj'] at hlength
      obtain rfl : j' = j := by omega
      exact ⟨_, rfl, .inl rfl⟩
    | _ => simp [kind] at hkind
  | sublistChange a i j b n =>
    cases m₂ with
    | sublistChange a' i' j' b' n' =>
      simp only [signature, MoveSignature.ofEntities, Value.list.injEq, List.cons.injEq, Value.int.injEq,
        Int.natCast_inj, true_and, and_true] at hbefore hafter
      obtain ⟨rfl, rfl, hpart⟩ := hbefore
      obtain ⟨rfl, rfl, -⟩ := hafter
      obtain ⟨-, -, hij, hj, -⟩ := isDoable_sublistChange_iff.1 hdoable₁
      obtain ⟨-, -, hij', hj', -⟩ := isDoable_sublistChange_iff.1 hdoable₂
      have hlength := congrArg List.length (elements_injective hpart)
      rw [length_segment hij.le hj, length_segment hij'.le hj'] at hlength
      obtain rfl : j' = i' + (j - n') := by omega
      exact ⟨_, rfl, .inl rfl⟩
    | _ => simp [kind] at hkind
  | assign v e i =>
    cases m₂ with
    | assign v' e' i' => simp [signature, MoveSignature.ofEntities, positionState] at hbefore
    | _ => simp [kind] at hkind

end ListMove

variable {S B L : Type} {V : B → Type} {W : L → Type} [DecidableEq B] [DecidableEq L]
variable {g : Genuine S V W} {s s' t : S}

namespace ListMove

open Genuine

variable {l : L} {a i b j e n : Nat}

/-- An element that went to another position is there. -/
theorem getElem?_of_transfer (hg : g.Lawful) (ha : a < (g.list l).count s) (hb : b < (g.list l).count s)
    (h : transfer (g.list l) s a i b j = .ok s') : ((g.list l).list s' b)[j]? = ((g.list l).list s a)[i]? := by
  obtain ⟨v, hv, h⟩ := bind_eq_ok_iff.1 h
  obtain ⟨s₁, h₁, h₂⟩ := bind_eq_ok_iff.1 h
  obtain ⟨_, -, hs₁⟩ := hg.edit_eq_ok ha h₁
  obtain ⟨_, hw₂, hs'⟩ := hg.edit_eq_ok ((count_of_setList hs₁).symm ▸ hb) h₂
  rw [list_of_setList hs', getElem?_of_insertAt hw₂, member_eq_ok_iff.1 hv]

/-- A sublist that went to another position is there. -/
theorem segment_of_transferAll (hg : g.Lawful) (ha : a < (g.list l).count s) (hb : b < (g.list l).count s)
    (h : transferAll (g.list l) s a i j b n = .ok s') :
    segment ((g.list l).list s' b) n (n + (j - i)) = segment ((g.list l).list s a) i j := by
  obtain ⟨⟨part, rest⟩, hcut, h⟩ := bind_eq_ok_iff.1 h
  obtain ⟨s₁, h₁, h₂⟩ := bind_eq_ok_iff.1 h
  obtain ⟨_, -, hs₁⟩ := hg.edit_eq_ok ha (f := fun _ => .ok rest) h₁
  obtain ⟨_, hw₂, hs'⟩ := hg.edit_eq_ok ((count_of_setList hs₁).symm ▸ hb) h₂
  rw [list_of_setList hs', ← (length_of_cutAt hcut).1, segment_of_cutAt (cutAt_of_insertAllAt hw₂),
    segment_of_cutAt hcut]

/-- Elements that were exchanged are where the other one was. -/
theorem getElem?_of_exchange (hg : g.Lawful) (ha : a < (g.list l).count s) (hb : b < (g.list l).count s) {v w : W l}
    (hv : ((g.list l).list s a)[i]? = some v) (hw : ((g.list l).list s b)[j]? = some w)
    (h : exchange (g.list l) s a i b j v w = .ok s') :
    ((g.list l).list s' a)[i]? = some w ∧ ((g.list l).list s' b)[j]? = some v := by
  unfold exchange at h
  by_cases hab : a = b
  · subst hab
    rw [if_pos rfl] at h
    obtain ⟨_, hswap, hs'⟩ := hg.edit_eq_ok ha h
    obtain ⟨hi, hj⟩ := getElem?_of_swapAt hswap
    rw [list_of_setList hs']
    exact ⟨hi.trans hw, hj.trans hv⟩
  · rw [if_neg hab] at h
    obtain ⟨s₁, h₁, h₂⟩ := bind_eq_ok_iff.1 h
    obtain ⟨_, hw₁, hs₁⟩ := hg.edit_eq_ok ha h₁
    obtain ⟨_, hw₂, hs'⟩ := hg.edit_eq_ok ((count_of_setList hs₁).symm ▸ hb) h₂
    obtain ⟨hi, rfl⟩ := replaceAt_eq_ok_iff.1 hw₁
    obtain ⟨hj, rfl⟩ := replaceAt_eq_ok_iff.1 hw₂
    rw [list_of_setList_of_ne hs' hab, list_of_setList hs₁, list_of_setList hs']
    exact ⟨List.getElem?_set_self hi, List.getElem?_set_self hj⟩

/-- Elements are exchanged whichever of them is named first. -/
theorem exchange_comm (hg : g.Lawful) (ha : a < (g.list l).count s) (hb : b < (g.list l).count s) {v w : W l}
    (h : exchange (g.list l) s a i b j v w = .ok s') :
    ∃ u, exchange (g.list l) s b j a i w v = .ok u ∧ g.content u = g.content s' := by
  unfold exchange at h ⊢
  by_cases hab : a = b
  · subst hab
    rw [if_pos rfl] at h ⊢
    obtain ⟨w₁, hw₁, hs'⟩ := hg.edit_eq_ok ha h
    obtain ⟨u, hu, hc⟩ := hg.edit_ok ha (f := fun l => swapAt l j i) (swapAt_comm hw₁)
    exact ⟨u, hu, hc.trans hs'.symm⟩
  · rw [if_neg hab] at h
    rw [if_neg (Ne.symm hab)]
    obtain ⟨s₁, h₁, h₂⟩ := bind_eq_ok_iff.1 h
    obtain ⟨w₁, hw₁, hs₁⟩ := hg.edit_eq_ok ha h₁
    obtain ⟨w₂, hw₂, hs'⟩ := hg.edit_eq_ok ((count_of_setList hs₁).symm ▸ hb) h₂
    rw [list_of_setList_of_ne hs₁ (Ne.symm hab)] at hw₂
    obtain ⟨r, hr, hcr⟩ := hg.edit_ok hb (f := fun l => replaceAt l j v) hw₂
    rw [← list_of_setList_of_ne hcr hab] at hw₁
    obtain ⟨u, hu, hcu⟩ := hg.edit_ok ((count_of_setList hcr).symm ▸ ha) (f := fun l => replaceAt l i w) hw₁
    refine ⟨u, bind_eq_ok_iff.2 ⟨r, hr, hu⟩, ?_⟩
    rw [hcu, hcr, hs', hs₁, Content.setList_comm _ hab]

variable [∀ l, PlanningValue (W l)] [∀ l, DecidableEq (W l)] {m m' : ListMove (W l)} {u : Unit}

/-- A move that was made is undone by making its inverse. -/
theorem apply_inverse (hg : g.Lawful) (hcheck : m.check (g.list l) s = .ok u) (h : m.apply (g.list l) s = .ok s')
    (ht : g.content t = g.content s') (hm' : m.inverse? = some m') :
    ∃ r, m'.apply (g.list l) t = .ok r ∧ g.content r = g.content s := by
  have hlt := lt_of_check hcheck
  obtain ⟨r, hr, hback⟩ := reversible hg (bind_eq_ok_iff.2 ⟨u, hcheck, rfl⟩) s' h t ht
  refine ⟨r, ?_, hback⟩
  cases m with
  | change a i b j =>
    cases hm'
    exact hr
  | swap a i b j =>
    cases hm'
    obtain ⟨v, hv, h⟩ := bind_eq_ok_iff.1 h
    obtain ⟨w, hw, h⟩ := bind_eq_ok_iff.1 h
    obtain ⟨hi, hj⟩ := getElem?_of_exchange hg (hlt a (mem_oneOrTwo.2 (.inl rfl)))
      (hlt b (mem_oneOrTwo.2 (.inr rfl))) (member_eq_ok_iff.1 hv) (member_eq_ok_iff.1 hw) h
    have hlists : (g.list l).list t = (g.list l).list s' := congrArg (fun c => c.lists l) ht
    obtain ⟨w', hw', hr⟩ := bind_eq_ok_iff.1 hr
    obtain ⟨v', hv', hr⟩ := bind_eq_ok_iff.1 hr
    rw [hw] at hw'
    rw [hv] at hv'
    cases hw'
    cases hv'
    rw [← hlists] at hi hj
    exact bind_eq_ok_iff.2 ⟨w, member_eq_ok_iff.2 hi, bind_eq_ok_iff.2 ⟨v, member_eq_ok_iff.2 hj, hr⟩⟩
  | reverse e i j =>
    cases hm'
    exact hr
  | sublistChange a i j b n =>
    cases hm'
    exact hr
  | assign v e i => cases hm'

omit [∀ l, PlanningValue (W l)] [∀ l, DecidableEq (W l)] in
/-- A swap does the same whichever way it is written. -/
theorem apply_turned (hg : g.Lawful) (hlt : ∀ d ∈ m.turned.entities, d < (g.list l).count s)
    (h : m.apply (g.list l) s = .ok s') :
    ∃ r, m.turned.apply (g.list l) s = .ok r ∧ g.content r = g.content s' := by
  cases m with
  | swap a i b j =>
    obtain ⟨v, hv, h⟩ := bind_eq_ok_iff.1 h
    obtain ⟨w, hw, h⟩ := bind_eq_ok_iff.1 h
    obtain ⟨r, hr, hcontent⟩ := exchange_comm hg (hlt a (mem_oneOrTwo.2 (.inr rfl)))
      (hlt b (mem_oneOrTwo.2 (.inl rfl))) h
    exact ⟨r, bind_eq_ok_iff.2 ⟨w, hw, bind_eq_ok_iff.2 ⟨v, hv, hr⟩⟩, hcontent⟩
  | _ => exact ⟨s', h, rfl⟩

/-- The inverse of a move has the reversed signature once the move is made. -/
theorem reverses_inverse (hg : g.Lawful) (hcheck : m.check (g.list l) s = .ok u)
    (h : m.apply (g.list l) s = .ok s') (ht : g.content t = g.content s') (hm' : m.inverse? = some m') :
    (m'.signature (g.list l) t).reverses (m.signature (g.list l) s) = true := by
  have hlt := lt_of_check hcheck
  have hlists : (g.list l).list t = (g.list l).list s' := congrArg (fun c => c.lists l) ht
  refine MoveSignature.reverses_iff.2 ?_
  cases m with
  | change a i b j =>
    cases hm'
    have hmoved := getElem?_of_transfer hg (hlt a (mem_oneOrTwo.2 (.inl rfl)))
      (hlt b (mem_oneOrTwo.2 (.inr rfl))) h
    simp only [signature, hlists, hmoved]
    rw [MoveSignature.ofEntities_perm (List.Perm.swap a b [])]
    exact ⟨rfl, rfl, rfl, rfl⟩
  | swap a i b j =>
    cases hm'
    obtain ⟨v, hv, h⟩ := bind_eq_ok_iff.1 h
    obtain ⟨w, hw, h⟩ := bind_eq_ok_iff.1 h
    rw [member_eq_ok_iff] at hv hw
    obtain ⟨hi, hj⟩ := getElem?_of_exchange hg (hlt a (mem_oneOrTwo.2 (.inl rfl)))
      (hlt b (mem_oneOrTwo.2 (.inr rfl))) hv hw h
    simp only [signature, hlists, hv, hw, hi, hj]
    split <;> exact ⟨rfl, rfl, rfl, rfl⟩
  | reverse e i j =>
    cases hm'
    have he := hlt e (List.mem_singleton_self e)
    obtain ⟨_, hreverse, hs'⟩ := hg.edit_eq_ok (f := fun l => reverseAt l i j) he h
    have hsegment := segment_of_reverseAt hreverse
    simp only [signature, hlists, list_of_setList hs', hsegment, List.reverse_reverse]
    exact ⟨rfl, rfl, rfl, rfl⟩
  | sublistChange a i j b n =>
    cases hm'
    have hsegment := segment_of_transferAll hg (hlt a (mem_oneOrTwo.2 (.inl rfl)))
      (hlt b (mem_oneOrTwo.2 (.inr rfl))) h
    simp only [signature, hlists, hsegment]
    rw [MoveSignature.ofEntities_perm (List.Perm.swap a b [])]
    exact ⟨rfl, rfl, rfl, rfl⟩
  | assign v e i => cases hm'

end ListMove

namespace BasicMove

variable {b : B} {m : BasicMove (V b)}

/-- Entities have the values that a move gave them. -/
theorem get?_of_assignAll (hg : g.Lawful) (hlt : ∀ y ∈ m.result (g.basic b) s, y.1 < (g.basic b).count s)
    (ht : g.content t = g.content (assignAll (g.basic b) s (m.result (g.basic b) s))) :
    ∀ y ∈ m.result (g.basic b) s, (g.basic b).get? t y.1 = y.2 := by
  rw [content_assignAll hg hlt] at ht
  have hvalues : (g.basic b).get? t = ((m.result (g.basic b) s).foldl (fun c y => c.setValue b y.1 y.2)
      (g.content s)).values b := congrArg (fun c => c.values b) ht
  intro y hy
  rw [hvalues]
  cases m with
  | change e v =>
    cases List.mem_singleton.1 hy
    simp [result, Content.setValue]
  | swap i j =>
    simp only [result, List.mem_cons, List.not_mem_nil, or_false] at hy
    by_cases hij : i = j
    · subst hij
      rcases hy with rfl | rfl <;> simp [result, Content.setValue]
    · rcases hy with rfl | rfl <;> simp [result, Content.setValue, hij]

omit [DecidableEq L] in
/-- The values that entities had before a move undo it in any order. -/
theorem foldl_result_inverse (hleft : ∀ y ∈ m.result (g.basic b) s, (g.basic b).get? t y.1 = y.2)
    {m' : BasicMove (V b)} (hm' : m' = m.inverse (g.basic b) s ∨ m' = (m.inverse (g.basic b) s).turned) :
    (m'.result (g.basic b) t).foldl (fun c y => c.setValue b y.1 y.2)
      ((m.result (g.basic b) s).foldl (fun c y => c.setValue b y.1 y.2) (g.content s)) = g.content s := by
  have hback := foldl_setValue_back (g := g) m s
  cases m with
  | change e v =>
    obtain rfl : m' = change e ((g.basic b).get? s e) := hm'.elim id id
    exact hback
  | swap i j =>
    have hi : (g.basic b).get? t i = (g.basic b).get? s j := hleft (i, _) (by simp [result])
    have hj : (g.basic b).get? t j = (g.basic b).get? s i := hleft (j, _) (by simp [result])
    rcases hm' with rfl | rfl
    · simpa only [inverse, result, entities, List.map_cons, List.map_nil, hi, hj] using hback
    · by_cases hij : i = j
      · subst hij
        simpa only [inverse, turned, result, entities, List.map_cons, List.map_nil, hi, hj] using hback
      · simp only [entities, List.map_cons, List.map_nil, List.foldl_cons, List.foldl_nil] at hback
        rw [Content.setValue_comm _ hij] at hback
        simpa only [inverse, turned, result, List.foldl_cons, List.foldl_nil, hi, hj] using hback

omit [DecidableEq B] [DecidableEq L] in
/-- What undoes a move gives entities the values that they had. -/
theorem eq_of_mem_result_inverse (hleft : ∀ y ∈ m.result (g.basic b) s, (g.basic b).get? t y.1 = y.2)
    {m' : BasicMove (V b)} (hm' : m' = m.inverse (g.basic b) s ∨ m' = (m.inverse (g.basic b) s).turned) :
    ∀ y ∈ m'.result (g.basic b) t, y.1 ∈ m'.entities ∧ y.2 = (g.basic b).get? s y.1 := by
  intro y hy
  cases m with
  | change e v =>
    obtain rfl : m' = change e ((g.basic b).get? s e) := hm'.elim id id
    cases List.mem_singleton.1 hy
    exact ⟨List.mem_singleton_self e, rfl⟩
  | swap i j =>
    have hi : (g.basic b).get? t i = (g.basic b).get? s j := hleft (i, _) (by simp [result])
    have hj : (g.basic b).get? t j = (g.basic b).get? s i := hleft (j, _) (by simp [result])
    rcases hm' with rfl | rfl <;>
      · simp only [inverse, turned, result, List.mem_cons, List.not_mem_nil, or_false] at hy
        rcases hy with rfl | rfl <;> simp [inverse, turned, entities, hi, hj]

variable [∀ b, PlanningValue (V b)] [∀ b, DecidableEq (V b)]

omit [DecidableEq B] [DecidableEq L] in
/-- A move that says it is doable can be made when the values that it gives are in range. -/
theorem exists_check (hdoable : m.isDoable (g.basic b) s = true)
    (hlegal : ∀ y ∈ m.result (g.basic b) s, Legal (g.basic b) s y.1 y.2) :
    ∃ u, m.check (g.basic b) s = .ok u := by
  cases m with
  | change e v => exact check_change hdoable (hlegal (e, v) (List.mem_singleton_self _))
  | swap i j =>
    exact (check_swap_iff hdoable).2 ⟨hlegal (i, _) List.mem_cons_self,
      hlegal (j, _) (List.mem_cons_of_mem _ (List.mem_singleton_self _))⟩

end BasicMove

/-- A move that says it is doable is made, and nothing speaks against it. -/
structure Move.Makes (m : Move S) (s s' : S) : Prop where
  /-- It says it is doable. -/
  doable : m.isDoable s = true
  /-- It can be planned, and its edit is made. -/
  made : ∃ e, m.plan s = .ok e ∧ e.apply s = .ok s'

/-- A move of a value that is made passes its checks and gives entities its values. -/
theorem BasicMove.of_makes {U : Type} [PlanningValue U] [DecidableEq U] {x : BasicVariable S U} {m : BasicMove U}
    (h : (m.toMove x).Makes s s') : (∃ u, m.check x s = .ok u) ∧ assignAll x s (m.result x s) = s' := by
  obtain ⟨e, hplan, happly⟩ := h.made
  obtain ⟨u, hcheck, hpure⟩ := bind_eq_ok_iff.1 hplan
  cases hpure
  cases happly
  exact ⟨⟨u, hcheck⟩, rfl⟩

/-- A move of a list that is made passes its checks and is applied. -/
theorem ListMove.of_makes {U : Type} [PlanningValue U] [DecidableEq U] {x : ListVariable S U} {m : ListMove U}
    (h : (m.toMove x).Makes s s') : (∃ u, m.check x s = .ok u) ∧ m.apply x s = .ok s' := by
  obtain ⟨e, hplan, happly⟩ := h.made
  obtain ⟨u, hcheck, hpure⟩ := bind_eq_ok_iff.1 hplan
  cases hpure
  exact ⟨⟨u, hcheck⟩, happly⟩

variable [∀ b, PlanningValue (V b)] [∀ b, DecidableEq (V b)] [∀ l, PlanningValue (W l)] [∀ l, DecidableEq (W l)]

namespace Genuine

/-- The moves of one genuine variable. -/
inductive MovesOf (g : Genuine S V W) : B ⊕ L → Move S → Prop where
  /-- A move of a variable that holds a value. -/
  | basic (b : B) (m : BasicMove (V b)) : g.MovesOf (.inl b) (m.toMove (g.basic b))
  /-- A move of a variable that holds a list. -/
  | list (l : L) (m : ListMove (W l)) : g.MovesOf (.inr l) (m.toMove (g.list l))

omit [DecidableEq B] [DecidableEq L] in
/-- A move of one genuine variable is a move of a genuine variable. -/
theorem MovesOf.moves {x : B ⊕ L} {m : Move S} (h : g.MovesOf x m) : g.Moves m := by
  cases h with
  | basic b m => exact .basic b m
  | list l m => exact .list l m

/-- The index of the class of the entities that have a variable. -/
def classOf (g : Genuine S V W) : B ⊕ L → Nat
  | .inl b => (g.basic b).entityClass
  | .inr l => (g.list l).entityClass

variable {m₁ m₂ : Move S}

omit [DecidableEq B] [DecidableEq L] in
/-- A signature names the class of the variable. -/
theorem MovesOf.entityClass_signature {x : B ⊕ L} (h : g.MovesOf x m₁) :
    (m₁.signature s).entityClass = g.classOf x := by
  cases h with
  | basic b m => cases m <;> rfl
  | list l m =>
    cases m with
    | swap a i b j =>
      change ((ListMove.swap a i b j).signature (g.list l) s).entityClass = (g.list l).entityClass
      unfold ListMove.signature
      dsimp only
      split <;> rfl
    | _ => rfl

omit [DecidableEq B] [DecidableEq L] in
/-- A signature names the class and the entities of its move. -/
theorem Moves.mem_signature {m : Move S} (hm : g.Moves m) (s : S) :
    (m.signature s).entityClass = m.entityClass ∧ ∀ e, e ∈ (m.signature s).entities ↔ e ∈ m.entities := by
  cases hm with
  | basic b m => exact ⟨(MovesOf.basic b m).entityClass_signature, fun _ => BasicMove.mem_entities_signature⟩
  | list l m => exact ⟨(MovesOf.list l m).entityClass_signature, fun _ => ListMove.mem_entities_signature⟩

omit [∀ l, PlanningValue (W l)] [∀ l, DecidableEq (W l)] in
/-- A move of a value that was made is undone by a move that reverses it, unless a value that there was is not in
range. -/
theorem undoes_basic (hg : g.Lawful) {b : B} {m m' : BasicMove (V b)}
    (h : (m.toMove (g.basic b)).Makes s s') (ht : g.content t = g.content s')
    (hdoable : m'.isDoable (g.basic b) t = true)
    (hreverses : (m'.signature (g.basic b) t).reverses (m.signature (g.basic b) s) = true) :
    (∃ u, (m'.toMove (g.basic b)).Makes t u ∧ g.content u = g.content s) ∨
      ∃ e ∈ m'.entities, ¬ BasicMove.Legal (g.basic b) t e ((g.basic b).get? s e) := by
  obtain ⟨⟨u, hcheck⟩, rfl⟩ := BasicMove.of_makes h
  have hlt := BasicMove.lt_of_mem_result hcheck
  have hleft := BasicMove.get?_of_assignAll hg hlt ht
  have hinverse := BasicMove.eq_inverse_of_reverses hreverses
  by_cases hlegal : ∀ e ∈ m'.entities, BasicMove.Legal (g.basic b) t e ((g.basic b).get? s e)
  · have hgiven := BasicMove.eq_of_mem_result_inverse hleft hinverse
    obtain ⟨u', hcheck'⟩ := BasicMove.exists_check hdoable fun y hy => by
      rw [(hgiven y hy).2]
      exact hlegal _ (hgiven y hy).1
    refine .inl ⟨_, ⟨hdoable, _, bind_eq_ok_iff.2 ⟨u', hcheck', rfl⟩, rfl⟩, ?_⟩
    rw [BasicMove.content_assignAll hg (BasicMove.lt_of_mem_result hcheck'), ht, BasicMove.content_assignAll hg hlt]
    exact BasicMove.foldl_result_inverse hleft hinverse
  · push Not at hlegal
    exact .inr hlegal

omit [∀ b, PlanningValue (V b)] [∀ b, DecidableEq (V b)] in
/-- A move of a list that was made is undone by a move that reverses it. -/
theorem undoes_list (hg : g.Lawful) {l : L} {m m' : ListMove (W l)} (h : (m.toMove (g.list l)).Makes s s')
    (ht : g.content t = g.content s') (hdoable : m'.isDoable (g.list l) t = true)
    (hreverses : (m'.signature (g.list l) t).reverses (m.signature (g.list l) s) = true) :
    ∃ u, (m'.toMove (g.list l)).Makes t u ∧ g.content u = g.content s := by
  obtain ⟨⟨u, hcheck⟩, happly⟩ := ListMove.of_makes h
  obtain ⟨m'', hm'', hm'⟩ := ListMove.eq_inverse_of_reverses h.doable hdoable hreverses
  obtain ⟨r, hr, hcontent⟩ := ListMove.apply_inverse hg hcheck happly ht hm''
  obtain ⟨u', hcheck'⟩ := exists_of_succeeds (Bool.and_eq_true_iff.1 hdoable).1
  have hplan' : m'.plan (g.list l) t = .ok _ := bind_eq_ok_iff.2 ⟨u', hcheck', rfl⟩
  rcases hm' with rfl | rfl
  · exact ⟨r, ⟨hdoable, _, hplan', hr⟩, hcontent⟩
  · obtain ⟨r', hr', hcontent'⟩ := ListMove.apply_turned hg (ListMove.lt_of_check hcheck') hr
    exact ⟨r', ⟨hdoable, _, hplan', hr'⟩, hcontent'.trans hcontent⟩

variable {T : Type} {k : ScoreKind} [PlanningSolution S k] {facts : S → T} {shadows : ShadowCascade S}

omit [DecidableEq B] [DecidableEq L] in
/-- A move of a genuine variable that is made changes no facts. -/
theorem Moves.facts_makes (hgov : g.Governed facts shadows) {m : Move S} (hm : g.Moves m) (h : m.Makes s s') :
    facts s' = facts s := by
  obtain ⟨e, hplan, happly⟩ := h.made
  exact (hm.facts_eq hgov hplan).1 _ _ happly

/-- Signatures recognise what undoes a move. A move is made, and another one says it is doable afterwards. If its
signature reverses that of the first, and it is a move of the same variable whenever it is one of the same class, then
making it gives back what the variables held and the facts, unless a value that there was is not in range. And what
undoes a move has the reversed signature. -/
theorem undoes_of_reverses (hg : g.Lawful) (hgov : g.Governed facts shadows) (ht : g.Alike facts t s') :
    (∀ x₁ x₂ m₁ m₂, g.MovesOf x₁ m₁ → g.MovesOf x₂ m₂ → (g.classOf x₁ = g.classOf x₂ → x₁ = x₂) → m₁.Makes s s' →
      m₂.isDoable t = true → (m₂.signature t).reverses (m₁.signature s) = true →
        (∃ u, m₂.Makes t u ∧ g.Alike facts u s) ∨
          ∃ b, x₂ = .inl b ∧ ∃ e ∈ m₂.entities, ¬ BasicMove.Legal (g.basic b) t e ((g.basic b).get? s e)) ∧
    (∀ b (m : BasicMove (V b)), (m.toMove (g.basic b)).Makes s s' →
      ((m.inverse (g.basic b) s).signature (g.basic b) t).reverses (m.signature (g.basic b) s) = true) ∧
    ∀ l (m m' : ListMove (W l)), m.inverse? = some m' → (m.toMove (g.list l)).Makes s s' →
      (m'.signature (g.list l) t).reverses (m.signature (g.list l) s) = true := by
  refine ⟨fun x₁ x₂ m₁ m₂ h₁ h₂ hclass hmakes hdoable hreverses => ?_, fun b m hmakes => ?_,
    fun l m m' hm' hmakes => ?_⟩
  · have hsame := (MoveSignature.reverses_iff.1 hreverses).1
    rw [h₁.entityClass_signature, h₂.entityClass_signature] at hsame
    obtain rfl := hclass hsame.symm
    have hfacts : ∀ u, m₂.Makes t u → facts u = facts s := fun u hu =>
      (h₂.moves.facts_makes hgov hu).trans (ht.facts.trans (h₁.moves.facts_makes hgov hmakes))
    cases h₁ with
    | basic b m =>
      cases h₂ with
      | basic _ m' =>
        refine (undoes_basic hg hmakes ht.content hdoable hreverses).imp ?_ fun h => ⟨b, rfl, h⟩
        exact fun ⟨u, hu, hcontent⟩ => ⟨u, hu, hcontent, hfacts u hu⟩
    | list l m =>
      cases h₂ with
      | list _ m' =>
        obtain ⟨u, hu, hcontent⟩ := undoes_list hg hmakes ht.content hdoable hreverses
        exact .inl ⟨u, hu, hcontent, hfacts u hu⟩
  · obtain ⟨⟨u, hcheck⟩, rfl⟩ := BasicMove.of_makes hmakes
    exact BasicMove.reverses_inverse (BasicMove.get?_of_assignAll hg (BasicMove.lt_of_mem_result hcheck) ht.content)
  · obtain ⟨⟨u, hcheck⟩, happly⟩ := ListMove.of_makes hmakes
    exact ListMove.reverses_inverse hg hcheck happly ht.content hm'

end Genuine

/-- A lesson gets another room and then its room back. -/
theorem Timetable.undoes_halfGiven : ∃ t : Timetable, (roomMove (.change 0 (some 1))).Makes halfGiven t ∧
    ((roomMove (.change 0 (some 0))).signature t).reverses ((roomMove (.change 0 (some 1))).signature halfGiven) =
      true ∧ ∃ u, (roomMove (.change 0 (some 0))).Makes t u ∧ givenRooms.Alike bare u halfGiven := by
  have hmakes : (roomMove (.change 0 (some 1))).Makes halfGiven (halfGiven.setRoom 0 (some 1)) :=
    ⟨by decide, _, rfl, rfl⟩
  have hreverses : ((roomMove (.change 0 (some 0))).signature (halfGiven.setRoom 0 (some 1))).reverses
      ((roomMove (.change 0 (some 1))).signature halfGiven) = true :=
    MoveSignature.reverses_iff.2 ⟨rfl, rfl, rfl, rfl⟩
  refine ⟨_, hmakes, hreverses, ?_⟩
  rcases (Genuine.undoes_of_reverses lawful_givenRooms regular_givenRooms.governed (.refl _)).1 (.inl ()) (.inl ()) _ _ (.basic () _) (.basic () _)
    (fun _ => rfl) hmakes (by decide) hreverses with hback | ⟨b, -, e, he, hlegal⟩
  · exact hback
  · obtain rfl : e = 0 := List.mem_singleton.1 he
    exact (hlegal (by exact rfl)).elim

namespace DynamicSolution

/-- The variable of the entities of the first class that one of their elements holds. -/
def elementVariable (range : ValueRange DynamicSolution Value) (i : Nat) : BasicVariable DynamicSolution Value where
  entityClass := 0
  name := elementName i
  count s := (s.members (.entity 0)).length
  get? s e :=
    match (s.members (.entity 0))[e]? with
    | none => none
    | some entity => if entity.at? i = .null then none else some (entity.at? i)
  set s e v := s.setVariable 0 e i (v.getD .null)
  range := range

example (range : ValueRange DynamicSolution Value) : variableOf range = elementVariable range 1 := rfl

/-- Two variables of the entities of the first class, each of which is one or two. -/
def twoElements : Genuine DynamicSolution (fun _ : Bool => Value) (fun _ : Empty => Value) where
  basic second := elementVariable (.fixed [.int 1, .int 2]) (if second then 2 else 1)
  list l := l.elim

/-- One entity with its two variables. -/
def withElements (v w : Int) : DynamicSolution where
  entities := [[.list [.int 0, .int v, .int w]]]
  facts := []

/-- A variable of the entity gets a value. -/
abbrev give (second : Bool) (v : Int) : Move DynamicSolution :=
  (BasicMove.change 0 (some (.int v))).toMove (twoElements.basic second)

/-- Where entities have two variables, a move of one of them may have the signature that reverses a move of the other
one and not undo it. -/
theorem exists_reverses_of_other : ∃ (m₁ m₂ : Move DynamicSolution) (s s' u : DynamicSolution),
    twoElements.MovesOf (.inl false) m₁ ∧ twoElements.MovesOf (.inl true) m₂ ∧ m₁.Makes s s' ∧ m₂.Makes s' u ∧
      (m₂.signature s').reverses (m₁.signature s) = true ∧ twoElements.content u ≠ twoElements.content s := by
  have hfirst : (give false 2).Makes (withElements 1 2) (withElements 2 2) := ⟨by decide, _, rfl, rfl⟩
  have hsecond : (give true 1).Makes (withElements 2 2) (withElements 2 1) := ⟨by decide, _, rfl, rfl⟩
  have hreverses : ((give true 1).signature (withElements 2 2)).reverses ((give false 2).signature (withElements 1 2)) =
      true :=
    MoveSignature.reverses_iff.2 ⟨rfl, rfl, by decide, by decide⟩
  refine ⟨_, _, _, _, _, .basic false _, .basic true _, hfirst, hsecond, hreverses, fun h => ?_⟩
  have hvalue := congrFun (congrFun (congrArg Content.values h) false) 0
  exact absurd hvalue (by decide)

end DynamicSolution

end Planning
