import Mathlib.Data.List.Basic
import Planning.Proofs.Checked
import Planning.Sequence

/-!
# Edits of sequences taken back

An edit of a sequence at a position is taken back by another one at a position that is known beforehand. Edits
that only move members keep them up to their order.
-/

namespace Planning

open Checked

variable {α : Type} {l m part rest : List α} {i j n : Nat} {a b : α}

theorem insertAt_eq_ok_iff : insertAt l i a = .ok m ↔ i ≤ l.length ∧ m = l.take i ++ a :: l.drop i :=
  ite_eq_ok_iff

/-- A member is put before a position of the sequence, or behind its end. -/
theorem insertAt_of_le (h : i ≤ l.length) (a : α) : insertAt l i a = .ok (l.insertIdx i a) := by
  refine insertAt_eq_ok_iff.2 ⟨h, ?_⟩
  induction l generalizing i with
  | nil =>
    obtain rfl := Nat.le_zero.1 h
    rfl
  | cons b l ih =>
    cases i with
    | zero => rfl
    | succ i =>
      rw [List.insertIdx_succ_cons, ih (Nat.le_of_succ_le_succ h)]
      rfl

theorem insertAllAt_eq_ok_iff :
    insertAllAt l i part = .ok m ↔ i ≤ l.length ∧ m = l.take i ++ part ++ l.drop i :=
  ite_eq_ok_iff

theorem removeAt_eq_ok_iff : removeAt l i = .ok m ↔ i < l.length ∧ m = l.eraseIdx i := ite_eq_ok_iff

theorem replaceAt_eq_ok_iff : replaceAt l i a = .ok m ↔ i < l.length ∧ m = l.set i a := ite_eq_ok_iff

theorem cutAt_eq_ok_iff : cutAt l i j = .ok (part, rest) ↔
    (i ≤ j ∧ j ≤ l.length) ∧ part = (l.take j).drop i ∧ rest = l.take i ++ l.drop j :=
  ite_eq_ok_iff.trans (and_congr_right fun _ => Prod.mk.injEq ..▸ Iff.rfl)

theorem swapAt_eq_ok_iff : swapAt l i j = .ok m ↔
    ∃ a b, l[i]? = some a ∧ l[j]? = some b ∧ m = (l.set i b).set j a := by
  simp only [swapAt, bind_eq_ok_iff, member_eq_ok_iff, replaceAt_eq_ok_iff]
  constructor
  · rintro ⟨b, hb, l', ⟨-, rfl⟩, a, ha, -, rfl⟩
    exact ⟨a, b, ha, hb, rfl⟩
  · rintro ⟨a, b, ha, hb, rfl⟩
    obtain ⟨hi, -⟩ := List.getElem?_eq_some_iff.1 ha
    obtain ⟨hj, -⟩ := List.getElem?_eq_some_iff.1 hb
    exact ⟨b, hb, _, ⟨hi, rfl⟩, a, ha, by rwa [List.length_set], rfl⟩

/-- A member that was put in is taken out again. -/
theorem removeAt_of_insertAt (h : insertAt l i a = .ok m) : removeAt m i = .ok l := by
  have hback := removeAt_insertAt (insertAt_eq_ok_iff.1 h).1 (a := a)
  obtain ⟨m', hm', hback⟩ := bind_eq_ok_iff.1 hback
  rw [h] at hm'
  cases hm'
  exact hback

/-- A member that was put in is at its index. -/
theorem getElem?_of_insertAt (h : insertAt l i a = .ok m) : m[i]? = some a := by
  obtain ⟨hi, rfl⟩ := insertAt_eq_ok_iff.1 h
  rw [List.getElem?_append_right (by simp [hi])]
  simp [hi]

/-- After a member was taken out those behind it move up. -/
theorem getElem?_of_removeAt (h : removeAt l i = .ok m) (j : Nat) :
    m[j]? = if j < i then l[j]? else l[j + 1]? := by
  rw [(removeAt_eq_ok_iff.1 h).2, List.getElem?_eraseIdx]

/-- After a member was put in those behind it move down. -/
theorem getElem?_of_insertAt_of_ne (h : insertAt l i a = .ok m) {j : Nat} (hj : j ≠ i) :
    m[j]? = if j < i then l[j]? else l[j - 1]? := by
  have hback := getElem?_of_removeAt (removeAt_of_insertAt h)
  rcases Nat.lt_or_gt_of_ne hj with hlt | hgt
  · rw [if_pos hlt, hback j, if_pos hlt]
  · rw [if_neg (by omega), hback (j - 1), if_neg (by omega), Nat.sub_add_cancel (by omega)]

/-- A member that was taken out is put in again. -/
theorem insertAt_of_removeAt (h : removeAt l i = .ok m) (ha : l[i]? = some a) : insertAt m i a = .ok l := by
  obtain ⟨hi, rfl⟩ := removeAt_eq_ok_iff.1 h
  obtain ⟨-, rfl⟩ := List.getElem?_eq_some_iff.1 ha
  have hlen : (l.take i).length = i := by
    rw [List.length_take]
    omega
  refine insertAt_eq_ok_iff.2 ⟨by rw [List.length_eraseIdx_of_lt hi]; omega, ?_⟩
  rw [List.eraseIdx_eq_take_drop_succ, List.take_left' hlen, List.drop_left' hlen, List.getElem_cons_drop,
    List.take_append_drop]

/-- The number of members that are cut out and the number of those that stay. -/
theorem length_of_cutAt (h : cutAt l i j = .ok (part, rest)) :
    part.length = j - i ∧ rest.length = l.length - (j - i) := by
  obtain ⟨⟨hij, hj⟩, rfl, rfl⟩ := cutAt_eq_ok_iff.1 h
  constructor
  · rw [List.length_drop, List.length_take]
    omega
  · rw [List.length_append, List.length_take, List.length_drop]
    omega

/-- Members that were cut out are put in again. -/
theorem insertAllAt_of_cutAt (h : cutAt l i j = .ok (part, rest)) : insertAllAt rest i part = .ok l := by
  obtain ⟨⟨hij, hj⟩, rfl, rfl⟩ := cutAt_eq_ok_iff.1 h
  have hlen : (l.take i).length = i := by
    rw [List.length_take]
    omega
  have hhead : l.take i ++ (l.take j).drop i = l.take j := by
    rw [← List.take_append_drop i (l.take j), List.take_take, Nat.min_eq_left hij, List.drop_left' hlen]
  refine insertAllAt_eq_ok_iff.2 ⟨by rw [List.length_append]; omega, ?_⟩
  rw [List.take_left' hlen, List.drop_left' hlen, hhead, List.take_append_drop]

/-- The segment that is cut out is the one between its ends. -/
theorem segment_of_cutAt (h : cutAt l i j = .ok (part, rest)) : segment l i j = part := by
  obtain ⟨hij, rfl, -⟩ := cutAt_eq_ok_iff.1 h
  exact if_pos hij

/-- A segment is as long as its ends are apart. -/
theorem length_segment (hij : i ≤ j) (hj : j ≤ l.length) : (segment l i j).length = j - i := by
  rw [segment, if_pos ⟨hij, hj⟩, List.length_drop, List.length_take]
  omega

/-- Members that were put in are cut out again. -/
theorem cutAt_of_insertAllAt (h : insertAllAt l n part = .ok m) :
    cutAt m n (n + part.length) = .ok (part, l) := by
  obtain ⟨hn, rfl⟩ := insertAllAt_eq_ok_iff.1 h
  have hlen : (l.take n).length = n := by
    rw [List.length_take]
    omega
  have hlen' : (l.take n ++ part).length = n + part.length := by rw [List.length_append, hlen]
  refine cutAt_eq_ok_iff.2 ⟨⟨by omega, by rw [List.length_append, hlen']; omega⟩, ?_, ?_⟩
  · rw [List.take_left' hlen', List.drop_left' hlen]
  · rw [List.drop_left' hlen', List.append_assoc, List.take_left' hlen, List.take_append_drop]

/-- Members that are cut out are those from the start on. -/
theorem getElem?_of_cutAt (h : cutAt l i j = .ok (part, rest)) {d : Nat} (hd : d < j - i) :
    part[d]? = l[i + d]? := by
  obtain ⟨-, rfl, -⟩ := cutAt_eq_ok_iff.1 h
  rw [List.getElem?_drop, List.getElem?_take, if_pos (by omega)]

/-- Members that were put in are at their indices. -/
theorem getElem?_of_insertAllAt (h : insertAllAt l n part = .ok m) {d : Nat} (hd : d < part.length) :
    m[n + d]? = part[d]? := by
  have hpart := getElem?_of_cutAt (cutAt_of_insertAllAt h) (d := d) (by omega)
  exact hpart.symm

/-- A reversed segment starts with the member that it ended with. -/
theorem getElem?_of_reverseAt (h : reverseAt l i j = .ok m) (hij : i < j) : m[i]? = l[j - 1]? := by
  obtain ⟨⟨part, rest⟩, hcut, hput⟩ := bind_eq_ok_iff.1 h
  have hlength := (length_of_cutAt hcut).1
  have hfirst := getElem?_of_insertAllAt hput (d := 0) (by rw [List.length_reverse]; omega)
  rw [Nat.add_zero, List.getElem?_reverse (by omega)] at hfirst
  rw [hfirst, hlength, getElem?_of_cutAt hcut (by omega)]
  congr 1
  omega

/-- A segment that was reversed is reversed again. -/
theorem reverseAt_of_reverseAt (h : reverseAt l i j = .ok m) : reverseAt m i j = .ok l := by
  obtain ⟨⟨part, rest⟩, hcut, hput⟩ := bind_eq_ok_iff.1 h
  have hagain := cutAt_of_insertAllAt hput
  obtain ⟨⟨hij, -⟩, -, -⟩ := cutAt_eq_ok_iff.1 hcut
  rw [List.length_reverse, (length_of_cutAt hcut).1, Nat.add_sub_cancel' hij] at hagain
  refine bind_eq_ok_iff.2 ⟨_, hagain, ?_⟩
  change insertAllAt rest i part.reverse.reverse = .ok l
  rw [List.reverse_reverse]
  exact insertAllAt_of_cutAt hcut

/-- A segment that was reversed is there in reverse order. -/
theorem segment_of_reverseAt (h : reverseAt l i j = .ok m) : segment m i j = (segment l i j).reverse := by
  obtain ⟨⟨part, rest⟩, hcut, hput⟩ := bind_eq_ok_iff.1 h
  obtain ⟨⟨hij, -⟩, -, -⟩ := cutAt_eq_ok_iff.1 hcut
  have hagain := cutAt_of_insertAllAt hput
  rw [List.length_reverse, (length_of_cutAt hcut).1, Nat.add_sub_cancel' hij] at hagain
  rw [segment_of_cutAt hagain, segment_of_cutAt hcut]

/-- A member that was replaced is put back. -/
theorem replaceAt_of_replaceAt (h : replaceAt l i b = .ok m) (ha : l[i]? = some a) :
    replaceAt m i a = .ok l := by
  obtain ⟨hi, rfl⟩ := replaceAt_eq_ok_iff.1 h
  obtain ⟨-, rfl⟩ := List.getElem?_eq_some_iff.1 ha
  refine replaceAt_eq_ok_iff.2 ⟨by rwa [List.length_set], ?_⟩
  rw [List.set_set, List.set_getElem_self]

/-- Members that were exchanged are exchanged again. -/
theorem swapAt_of_swapAt (h : swapAt l i j = .ok m) : swapAt m i j = .ok l := by
  obtain ⟨a, b, ha, hb, rfl⟩ := swapAt_eq_ok_iff.1 h
  obtain ⟨hi, rfl⟩ := List.getElem?_eq_some_iff.1 ha
  obtain ⟨hj, rfl⟩ := List.getElem?_eq_some_iff.1 hb
  refine swapAt_eq_ok_iff.2 ⟨l[j], l[i], ?_, by simp [hj], ?_⟩
  · by_cases hij : i = j
    · subst hij
      simp [hi]
    · simp [Ne.symm hij, hi]
  · refine List.ext_getElem? fun n => ?_
    simp only [List.getElem?_set, List.length_set]
    grind

/-- Two members are exchanged whichever of them is named first. -/
theorem swapAt_comm (h : swapAt l i j = .ok m) : swapAt l j i = .ok m := by
  obtain ⟨a, b, ha, hb, rfl⟩ := swapAt_eq_ok_iff.1 h
  refine swapAt_eq_ok_iff.2 ⟨b, a, hb, ha, ?_⟩
  by_cases hij : i = j
  · subst hij
    rw [ha] at hb
    cases hb
    rfl
  · rw [List.set_comm _ _ hij]

/-- After an exchange each of two members is where the other one was. -/
theorem getElem?_of_swapAt (h : swapAt l i j = .ok m) : m[i]? = l[j]? ∧ m[j]? = l[i]? := by
  obtain ⟨a, b, ha, hb, rfl⟩ := swapAt_eq_ok_iff.1 h
  obtain ⟨hi, -⟩ := List.getElem?_eq_some_iff.1 ha
  obtain ⟨hj, -⟩ := List.getElem?_eq_some_iff.1 hb
  simp only [List.getElem?_set, List.length_set]
  grind

variable {l' : List α}

/-- A member that was put in is one more. -/
theorem perm_of_insertAt (h : insertAt l i a = .ok m) : m.Perm (a :: l) := by
  obtain ⟨-, rfl⟩ := insertAt_eq_ok_iff.1 h
  exact List.perm_middle.trans (.cons a (.of_eq (List.take_append_drop i l)))

/-- A member that was taken out is one less. -/
theorem perm_of_removeAt (h : removeAt l i = .ok m) (ha : l[i]? = some a) : l.Perm (a :: m) :=
  perm_of_insertAt (insertAt_of_removeAt h ha)

/-- Members that were put in are more by them. -/
theorem perm_of_insertAllAt (h : insertAllAt l i part = .ok m) : m.Perm (part ++ l) := by
  obtain ⟨-, rfl⟩ := insertAllAt_eq_ok_iff.1 h
  refine (List.perm_append_comm.append_right _).trans ?_
  rw [List.append_assoc, List.take_append_drop]

/-- Members that were cut out are less by them. -/
theorem perm_of_cutAt (h : cutAt l i j = .ok (part, rest)) : l.Perm (part ++ rest) :=
  perm_of_insertAllAt (insertAllAt_of_cutAt h)

/-- Reversing a segment keeps the members. -/
theorem perm_of_reverseAt (h : reverseAt l i j = .ok m) : m.Perm l := by
  obtain ⟨⟨part, rest⟩, hcut, hput⟩ := bind_eq_ok_iff.1 h
  exact (perm_of_insertAllAt hput).trans
    ((part.reverse_perm.append_right rest).trans (perm_of_cutAt hcut).symm)

/-- A member that was replaced is one less and its replacement one more. -/
theorem perm_of_replaceAt (h : replaceAt l i b = .ok m) (ha : l[i]? = some a) : (a :: m).Perm (b :: l) := by
  obtain ⟨hi, rfl⟩ := replaceAt_eq_ok_iff.1 h
  have hl : l.Perm (a :: (l.take i ++ l.drop (i + 1))) := by
    rw [← List.eraseIdx_eq_take_drop_succ]
    exact perm_of_removeAt (removeAt_eq_ok_iff.2 ⟨hi, rfl⟩) ha
  rw [List.set_eq_take_append_cons_drop, if_pos hi]
  calc List.Perm (a :: (l.take i ++ b :: l.drop (i + 1))) (a :: b :: (l.take i ++ l.drop (i + 1))) :=
        List.perm_middle.cons _
    List.Perm _ (b :: a :: (l.take i ++ l.drop (i + 1))) := .swap ..
    List.Perm _ (b :: l) := hl.symm.cons _

/-- Exchanging two members keeps the members. -/
theorem perm_of_swapAt (h : swapAt l i j = .ok m) : m.Perm l := by
  obtain ⟨b, hb, h⟩ := bind_eq_ok_iff.1 h
  obtain ⟨l', hput, h⟩ := bind_eq_ok_iff.1 h
  obtain ⟨a, ha, hput'⟩ := bind_eq_ok_iff.1 h
  rw [member_eq_ok_iff] at ha hb
  have hb' : l'[j]? = some b := by
    obtain ⟨hi, rfl⟩ := replaceAt_eq_ok_iff.1 hput
    rw [List.getElem?_set]
    split
    · rfl
    · exact hb
  have hback : (b :: m).Perm (b :: l) := (perm_of_replaceAt hput' hb').trans (perm_of_replaceAt hput ha)
  exact hback.cons_inv

end Planning
