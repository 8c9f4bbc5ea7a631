import Planning.Proofs.Director.Revision
import Planning.Proofs.Problems.Timetable

/-!
# Scores of timetables

The constraints on lessons look a room up by its number, and the full calculation by its index. They agree where the
number of each room is its index, in whatever way the timetable came about.
-/

namespace Planning.Timetable

open Checked

variable {t t' : Timetable}

/-- Lessons and rooms come and go at any position, and lessons are given rooms. -/
inductive Amends : Timetable → Amendment Timetable → Prop where
  /-- A lesson comes. -/
  | lessonAdded (t : Timetable) (i : Nat) (l : Lesson) :
    Amends t (.comes (0, i) (lessonCollection.edit fun ls => insertAt ls i l))
  /-- A lesson goes. -/
  | lessonRemoved (t : Timetable) (i : Nat) :
    Amends t (.goes (0, i) (lessonCollection.edit fun ls => removeAt ls i))
  /-- A room comes. -/
  | roomAdded (t : Timetable) (i : Nat) (r : Room) :
    Amends t (.fact 0 i (roomCollection.edit fun rs => insertAt rs i r))
  /-- A room goes. -/
  | roomRemoved (t : Timetable) (i : Nat) : Amends t (.fact 0 i (roomCollection.edit fun rs => removeAt rs i))
  /-- A lesson is given a room, or none. -/
  | roomGiven (t : Timetable) (i : Nat) (name : String) (r : Option Nat) :
    Amends t (.varies (0, i) name fun t => .ok (t.setRoom i r))

/-- The constraints read the lessons and the rooms and nothing else. -/
theorem reads_constraints {cl : SourceClass} {ms : Timetable → List Value} (h : constraints.Reads cl ms) :
    cl = .entity 0 ∧ ms = lessonMembers ∨ cl = .fact 0 ∧ ms = roomMembers := by
  obtain ⟨c, hc, hr⟩ := h
  simp only [constraints, List.mem_cons, List.not_mem_nil, or_false] at hc
  rcases hc with rfl | rfl | rfl
  · rcases hr with ⟨rfl, rfl⟩ | ⟨rfl, rfl⟩ <;> exact .inl ⟨rfl, rfl⟩
  · rcases hr with ⟨rfl, rfl⟩ | ⟨rfl, rfl⟩
    · exact .inl ⟨rfl, rfl⟩
    · exact .inr ⟨rfl, rfl⟩
  · rcases hr with ⟨rfl, rfl⟩ | ⟨rfl, rfl⟩ <;> exact .inl ⟨rfl, rfl⟩

/-- A director of a timetable can rely on its constraints. -/
theorem contract : Contract constraints [] where
  sound c hc := by
    suffices h : c.node.Sound from ⟨h.calm, h.orderFree⟩
    simp only [constraints, List.mem_cons, List.not_mem_nil, or_false] at hc
    rcases hc with rfl | rfl | rfl
    · exact Stream.sound_filter (Stream.sound_forEachUniquePair _ _ _) _
    · exact Stream.sound_filter (Stream.sound_join (Stream.sound_forEach _ _) (Node.sound_source _ _) _) _
    · exact Stream.sound_filter (Stream.sound_forEachUniquePair _ _ _) _
  sized cl ms hr s := by
    rcases reads_constraints hr with ⟨rfl, rfl⟩ | ⟨rfl, rfl⟩ <;> exact List.length_map _
  scored cl ms hr s score := by
    rcases reads_constraints hr with ⟨rfl, rfl⟩ | ⟨rfl, rfl⟩ <;> rfl
  reported e he := absurd he List.not_mem_nil

/-- The constraints read the lessons one by one. -/
theorem lists_lessons : lessonCollection.Lists constraints (.entity 0) where
  members _ _ := rfl
  own ms hr := by
    obtain ⟨-, rfl⟩ := (reads_constraints hr).resolve_right fun h => nomatch h.1
    exact ⟨Lesson.toValue, fun _ => rfl⟩
  other cl' ms hr hcl := by
    obtain ⟨-, rfl⟩ := (reads_constraints hr).resolve_left fun h => hcl h.1
    exact fun _ _ => rfl

/-- The constraints read the rooms one by one. -/
theorem lists_rooms : roomCollection.Lists constraints (.fact 0) where
  members _ _ := rfl
  own ms hr := by
    obtain ⟨-, rfl⟩ := (reads_constraints hr).resolve_left fun h => nomatch h.1
    exact ⟨Room.toValue, fun _ => rfl⟩
  other cl' ms hr hcl := by
    obtain ⟨-, rfl⟩ := (reads_constraints hr).resolve_right fun h => hcl h.1
    exact fun _ _ => rfl

/-- A room that is given shows in its lesson. -/
theorem reported_setRoom (t : Timetable) (i : Nat) (r : Option Nat) :
    Reported constraints t (t.setRoom i r) [(0, i)] := by
  refine ⟨fun cl => ?_, fun cl ms hr j hne => ?_⟩
  · cases cl with
    | entity d => exact List.length_modify ..
    | fact d => rfl
  · rcases reads_constraints hr with ⟨rfl, rfl⟩ | ⟨rfl, rfl⟩
    · refine ⟨(0, i), List.mem_singleton_self _, ?_⟩
      by_contra hji
      have hji : i ≠ j := fun heq => hji (by rw [heq])
      simp only [lessonMembers, setRoom, List.getElem?_map, List.getElem?_modify, if_neg hji, id_map'] at hne
      exact hne rfl
    · exact absurd rfl hne

/-- Amendments of timetables announce what they change. -/
theorem sound_of_amends {a : Amendment Timetable} (h : Amends t a) : a.Sound constraints t := by
  cases h with
  | lessonAdded i l => exact fun s' hs' => lists_lessons.keeps_insertAt hs'
  | lessonRemoved i => exact fun s' hs' => lists_lessons.keeps_removeAt hs'
  | roomAdded i r => exact fun s' hs' => lists_rooms.keeps_insertAt hs'
  | roomRemoved i => exact fun s' hs' => lists_rooms.keeps_removeAt hs'
  | roomGiven i name r =>
    intro s' hs'
    cases hs'
    exact reported_setRoom t i r

/-- The places that the room of a lesson lacks. -/
def shortfall (rooms : List Room) (a : Lesson) : Int :=
  match a.room.bind fun r => rooms[r]? with
  | none => 0
  | some room => max (a.students - room.capacity) 0

theorem lacking_eq_ok_iff {rooms : List Room} {a : Lesson} {n : Int} : lacking rooms a = .ok n ↔
    n = shortfall rooms a ∧ ∀ room, (a.room.bind fun r => rooms[r]?) = some room →
      InBounds (a.students - room.capacity) := by
  unfold lacking shortfall
  cases a.room.bind fun r => rooms[r]? with
  | none =>
    rw [pure_eq_ok_iff]
    exact ⟨fun h => ⟨h.symm, nofun⟩, fun h => h.1.symm⟩
  | some room =>
    simp only [bind_eq_ok_iff, pure_eq_ok_iff, bounded_eq_ok_iff, Option.some.injEq, forall_eq']
    constructor
    · rintro ⟨_, ⟨hin, rfl⟩, rfl⟩
      exact ⟨rfl, hin⟩
    · rintro ⟨rfl, hin⟩
      exact ⟨_, ⟨hin, rfl⟩, rfl⟩

/-- The costs of a lesson and of its pairs with the others come first. -/
theorem costs_cons {rooms : List Room} {a : Lesson} {ls : List Lesson} {hard soft : Int} :
    costs rooms (a :: ls) (hard, soft) = (do
      let hard ← bounded (hard - (← lacking rooms a))
      let hard ← bounded (hard - ((ls.map (pairCosts a)).map Prod.fst).sum)
      costs rooms ls (hard, ← bounded (soft - ((ls.map (pairCosts a)).map Prod.snd).sum))) := rfl

/-- The costs that are calculated are those of the lessons and of their pairs. -/
theorem costs_eq {rooms : List Room} {ls : List Lesson} {total total' : Int × Int}
    (h : costs rooms ls total = .ok total') :
    total' = (total.1 - (ls.map (shortfall rooms)).sum - pairSum (fun a b => (pairCosts a b).1) ls,
        total.2 - pairSum (fun a b => (pairCosts a b).2) ls) ∧
      ∀ a ∈ ls, ∃ n, lacking rooms a = .ok n := by
  induction ls generalizing total with
  | nil =>
    cases h
    exact ⟨by simp, nofun⟩
  | cons a ls ih =>
    obtain ⟨hard, soft⟩ := total
    simp only [costs_cons, bind_eq_ok_iff, bounded_eq_ok_iff] at h
    obtain ⟨n, hn, _, ⟨-, rfl⟩, _, ⟨-, rfl⟩, _, ⟨-, rfl⟩, h⟩ := h
    obtain ⟨rfl, hrest⟩ := ih h
    refine ⟨?_, List.forall_mem_cons.2 ⟨⟨n, hn⟩, hrest⟩⟩
    rw [(lacking_eq_ok_iff.1 hn).1, List.map_cons, List.sum_cons, pairSum_cons, pairSum_cons, List.map_map,
      List.map_map, Prod.mk.injEq]
    refine ⟨?_, ?_⟩ <;> simp only [Function.comp_def] <;> omega

/-- The value of a lesson tells its room. -/
theorem toValue_at_four (a : Lesson) : a.toValue.at? 4 = Value.ofOption (a.room.map .ofNat) := rfl

theorem ofOption_room_inj {r r' : Option Nat} :
    Value.ofOption (r.map .ofNat) = Value.ofOption (r'.map .ofNat) ↔ r = r' := by
  cases r <;> cases r' <;> simp [Value.ofOption, Value.ofNat]

theorem isPlaced_toValue (a : Lesson) : isPlaced a.toValue = a.room.isSome := by
  unfold isPlaced
  rw [toValue_at_four]
  cases a.room <;> simp [Value.ofOption, Value.ofNat]

/-- Conflicts of rooms count the pairs of lessons that have one room at one time. -/
theorem count_roomConflict (t : Timetable) :
    roomConflict.count t = pairSum (fun a b => (pairCosts a b).1) t.lessons := by
  refine (Stream.sum_forEachUniquePair (.entity 0) lessonMembers _ _ t _).trans ?_
  rw [lessonMembers, pairSum_map]
  refine congrArg₂ _ (funext₂ fun a b => ?_) rfl
  have hweigher : roomConflict.weigher = Stream.once := rfl
  have hplaced : isPlaced ((Value.pair a.toValue b.toValue).at? 0) = a.room.isSome := isPlaced_toValue a
  have htime : ∀ l : Lesson, l.toValue.at? 3 = .int l.timeslot := fun _ => rfl
  rw [hplaced, hweigher]
  simp only [Joiner.equal, Joiner.matching_keys_iff, toValue_at_four, htime, Value.pair, Except.ok.injEq,
    Value.list.injEq, List.cons.injEq, Value.int.injEq, Nat.cast_inj, ofOption_room_inj, and_true, Stream.once, Except.toOption, Option.getD_some, pairCosts]
  cases ha : a.room with
  | none => simp
  | some r =>
    cases hb : b.room with
    | none => simp
    | some r' => simp [and_comm]

/-- Moving teachers count the pairs of lessons of one teacher in two rooms. -/
theorem count_teacherStability (t : Timetable) :
    teacherStability.count t = pairSum (fun a b => (pairCosts a b).2) t.lessons := by
  refine (Stream.sum_forEachUniquePair (.entity 0) lessonMembers _ _ t _).trans ?_
  rw [lessonMembers, pairSum_map]
  refine congrArg₂ _ (funext₂ fun a b => ?_) rfl
  have hweigher : teacherStability.weigher = Stream.once := rfl
  have hfirst : (Value.pair a.toValue b.toValue).at? 0 = a.toValue := rfl
  have hsecond : (Value.pair a.toValue b.toValue).at? 1 = b.toValue := rfl
  have hteacher : ∀ l : Lesson, l.toValue.at? 1 = .text l.teacher := fun _ => rfl
  rw [hfirst, hsecond, isPlaced_toValue, isPlaced_toValue, hweigher]
  simp only [Joiner.equal, Joiner.matching_keys_iff, toValue_at_four, hteacher, Except.ok.injEq, Value.text.injEq,
    Stream.once, Except.toOption, Option.getD_some, pairCosts, Bool.and_eq_true, bne_iff_ne, ne_eq, ofOption_room_inj]
  cases ha : a.room with
  | none => simp
  | some r =>
    cases hb : b.room with
    | none => simp
    | some r' => simp

/-- The number of each room is its index. -/
def Numbered (t : Timetable) : Prop := ∀ (i : Nat) (r : Room), t.rooms[i]? = some r → r.id = i

/-- Where the number of each room is its index capacities count the places that rooms lack. -/
theorem count_roomCapacity (ht : t.Numbered) (hok : ∀ a ∈ t.lessons, ∃ n, lacking t.rooms a = .ok n) :
    roomCapacity.count t = (t.lessons.map (shortfall t.rooms)).sum := by
  refine (Stream.sum_join (.fact 0) roomMembers _ _ t (Stream.forEach (.entity 0) lessonMembers) _ rfl).trans ?_
  rw [lessonMembers, List.map_map]
  refine congrArg List.sum (List.map_congr_left fun a ha => ?_)
  obtain ⟨n, hn⟩ := hok a ha
  have hbounds := (lacking_eq_ok_iff.1 hn).2
  -- A room costs a lesson something if its number is the index of the room of the lesson.
  have hroom : ∀ room : Room,
      (if (Joiner.keys .equal (fun v => .ok (v.at? 4)) fun v => .ok (v.at? 0)).matching a.toValue room.toValue =
          .ok true ∧ (.ok (decide (0 < a.students - room.capacity)) : Checked Bool) = .ok true then
        ((bounded (a.students - room.capacity)).toOption.getD 0) else 0) =
      if a.room = some room.id ∧ 0 < a.students - room.capacity then
        (bounded (a.students - room.capacity)).toOption.getD 0 else 0 := by
    intro room
    have hnumber : room.toValue.at? 0 = .int room.id := rfl
    simp only [Joiner.matching_keys_iff, toValue_at_four, hnumber, Except.ok.injEq, decide_eq_true_eq]
    cases a.room with
    | none => simp [Value.ofOption]
    | some r => simp [Value.ofOption, Value.ofNat]
  rw [roomMembers, Function.comp_apply, List.map_map]
  refine (congrArg List.sum (List.map_congr_left fun room _ => hroom room)).trans ?_
  unfold shortfall
  cases hr : a.room with
  | none => simp
  | some r =>
    rw [sum_map_eq_of_place (i := r) fun j room hj hne => by
      rw [if_neg fun h => hne ?_]
      exact (ht j room hj).symm.trans (Option.some.inj h.1).symm]
    rw [hr, Option.bind_some] at hbounds
    rw [Option.bind_some]
    cases hget : t.rooms[r]? with
    | none => rfl
    | some room =>
      rw [Option.map_some, Option.getD_some, ht r room hget]
      have hbounded : bounded (a.students - room.capacity) = .ok (a.students - room.capacity) :=
        bounded_eq_ok_iff.2 ⟨hbounds room hget, rfl⟩
      rw [hbounded]
      simp only [true_and, Except.toOption, Option.getD_some]
      split_ifs <;> omega

/-- Where the number of each room is its index the score of a timetable is what the constraints are worth. -/
theorem vector_calculate (ht : t.Numbered) {score : Score .hardSoft} (h : calculate t = .ok score) :
    score.vector = constraints.worth t := by
  obtain ⟨⟨hard, soft⟩, hcosts, hscore⟩ := bind_eq_ok_iff.1 h
  obtain ⟨heq, hok⟩ := costs_eq hcosts
  obtain ⟨rfl, rfl⟩ := Prod.mk.inj heq
  simp only [ConstraintSet.worth, constraints, List.map_cons, List.map_nil, List.sum_cons, List.sum_nil]
  rw [Score.vector_of_ofList hscore, Constraint.worth_of_penalty rfl (by decide) rfl,
    Constraint.worth_of_penalty rfl (by decide) rfl, Constraint.worth_of_penalty rfl (by decide) rfl,
    count_roomConflict, count_roomCapacity ht hok, count_teacherStability]
  funext i
  rcases i with - | - | i
  · simp only [Pi.add_apply, Pi.single_eq_same, Pi.single_eq_of_ne (zero_ne_one' Nat), Pi.zero_apply,
      List.getD_cons_zero]
    omega
  · simp only [zero_add, Pi.add_apply, Pi.single_eq_same, Pi.single_eq_of_ne (zero_ne_one' Nat).symm, Pi.zero_apply,
      List.getD_cons_succ, List.getD_cons_zero]
    omega
  · simp

end Planning.Timetable
