import Planning.Problems.Queens
import Planning.Proofs.Constraint.Set
import Planning.Proofs.Director.Incremental

/-!
# Directors of boards of queens

The constraints on queens read the queens alone, pair by pair, and a change of a row shows in its queen alone.
Directors of boards can rely on both.
-/

namespace Planning.QueensBoard

open Checked

/-- A conflict reads the queens and nothing else. -/
theorem reads_conflict {name : String} {f : Int → Int → Int} {cl : SourceClass}
    {ms : QueensBoard → List Value} (h : (conflict name f).node.Reads cl ms) :
    cl = .entity 0 ∧ ms = members := by
  rcases h with ⟨rfl, rfl⟩ | ⟨rfl, rfl⟩
  · exact ⟨rfl, rfl⟩
  · exact ⟨rfl, rfl⟩

/-- The pairs of a conflict are sound. -/
theorem sound_conflict (name : String) (f : Int → Int → Int) : (conflict name f).node.Sound :=
  Stream.sound_filter (Stream.sound_forEachUniquePair _ _ _) _

/-- The constraints read the queens and nothing else. -/
theorem reads_constraints {cl : SourceClass} {ms : QueensBoard → List Value}
    (h : constraints.Reads cl ms) : cl = .entity 0 ∧ ms = members := by
  obtain ⟨c, hc, hr⟩ := h
  simp only [constraints, List.mem_cons, List.not_mem_nil, or_false] at hc
  rcases hc with rfl | rfl | rfl
  · exact reads_conflict hr
  · exact reads_conflict hr
  · exact reads_conflict hr

/-- A change of a row shows in no other queen. -/
theorem getElem?_members_setRow (b : QueensBoard) (i : Nat) (r : Option Int) (j : Nat) :
    (members (b.setRow i r))[j]? = if j = i then (b.queens[j]?.map fun q => { q with row := r }.toValue)
      else (members b)[j]? := by
  simp only [members, setRow, List.getElem?_map, List.getElem?_modify]
  split
  · rename_i hij
    rw [if_pos hij.symm]
    cases b.queens[j]? <;> rfl
  · rename_i hij
    rw [if_neg (Ne.symm hij)]
    cases b.queens[j]? <;> rfl

/-- A director of a board can rely on its constraints. -/
theorem contract : Contract constraints [] where
  sound c hc := by
    have hpairs : ∀ name f, (conflict name f).node.Calm ∧ (conflict name f).node.OrderFree :=
      fun name f => ⟨(sound_conflict name f).calm, (sound_conflict name f).orderFree⟩
    simp only [constraints, List.mem_cons, List.not_mem_nil, or_false] at hc
    rcases hc with rfl | rfl | rfl
    · exact hpairs _ _
    · exact hpairs _ _
    · exact hpairs _ _
  sized cl ms hr s := by
    obtain ⟨rfl, rfl⟩ := reads_constraints hr
    exact List.length_map _
  scored cl ms hr s score := by
    obtain ⟨rfl, rfl⟩ := reads_constraints hr
    rfl
  reported e he := absurd he List.not_mem_nil

end Planning.QueensBoard
