import Planning.Console.Line
import Planning.Proofs.Score.Text

/-!
# The colours of scores

A console shows a score in the colour that the signs in its text tell: red where the text starts with one, yellow where
there is one further on, green where there is none. A text has a sign just where a level is negative, and it starts with
its one hard level, unless the levels stand in brackets. So red is infeasible, yellow is feasible with a level below
zero, and green has none; only scores with bracketed levels are yellow where they are infeasible.
-/

/-! ## Signs in texts -/

namespace Planning.Text

variable {n : Int}

/-- Just a negative number has a sign. -/
theorem minus_mem_integer_iff : '-' ∈ integer n ↔ n < 0 := by
  have hdigits : '-' ∉ Nat.toDigits 10 n.natAbs := fun h => by
    have hdigit := Nat.isDigit_of_mem_toDigits (by decide) (by decide) h
    revert hdigit
    decide
  unfold integer
  split <;> simp_all

/-- The sign of a negative number stands in front. -/
theorem head?_integer_append_iff (rest : List Char) : (integer n ++ rest).head? = some '-' ↔ n < 0 := by
  by_cases hn : n < 0
  · simp [integer, hn]
  · cases hcs : integer n with
    | nil => simp [integer, hn, Nat.toDigits_ne_nil] at hcs
    | cons c cs =>
      -- The first digit is not a sign.
      have hc : c ≠ '-' := fun hc => hn (minus_mem_integer_iff.1 (by simp [hcs, hc]))
      simp [hc, hn]

/-- Parts with slashes between them have a sign where one of them has. -/
theorem minus_mem_intercalate_iff {parts : List (List Char)} :
    '-' ∈ List.intercalate ['/'] parts ↔ ∃ part ∈ parts, '-' ∈ part := by
  constructor
  · intro h
    rcases mem_of_mem_intercalate h with hslash | hpart
    · cases List.mem_singleton.1 hslash
    · exact hpart
  · intro h
    induction parts with
    | nil => simp at h
    | cons part parts ih =>
      cases parts with
      | nil => simpa using h
      | cons next parts =>
        rw [List.intercalate_cons_cons, List.append_assoc, List.mem_append, List.mem_append]
        rcases (List.exists_mem_cons_iff _ _ _).1 h with hpart | hrest
        · exact .inl hpart
        · exact .inr (.inr (ih hrest))

end Planning.Text

namespace Planning

/-- The levels of scores of the kind stand in brackets. -/
def ScoreKind.Bracketed : ScoreKind → Prop
  | .bendable _ _ => True
  | _ => False

namespace Score

open Text

variable {k : ScoreKind}

/-- Numbers with slashes between them have a sign where one of them is negative. -/
theorem minus_mem_slashed_iff {ns : List Int} : '-' ∈ slashed ns ↔ ∃ n ∈ ns, n < 0 := by
  simp [slashed, minus_mem_intercalate_iff, minus_mem_integer_iff]

/-- Named levels have a sign where one of their numbers is negative. -/
theorem minus_mem_named_iff {levels : List ScoreLevel} {ns : List Int} (hlength : ns.length = levels.length) :
    '-' ∈ List.intercalate ['/'] (List.zipWith namedLevel levels ns) ↔ ∃ n ∈ ns, n < 0 := by
  have hword : ∀ l : ScoreLevel, '-' ∉ l.word.toList := fun l => by cases l <;> decide
  rw [minus_mem_intercalate_iff]
  induction levels generalizing ns with
  | nil => simp [List.eq_nil_of_length_eq_zero hlength]
  | cons l levels ih =>
    cases ns with
    | nil => cases hlength
    | cons n ns =>
      simp [ih (Nat.succ.inj hlength), namedLevel, hword, minus_mem_integer_iff]

/-- The text of a score has a sign where a level is negative. -/
theorem minus_mem_chars_iff (a : Score k) : '-' ∈ a.chars ↔ ∃ n ∈ a.toList, n < 0 := by
  cases k with
  | simple => exact minus_mem_slashed_iff
  | hardSoft => exact minus_mem_named_iff a.length_toList
  | hardMediumSoft => exact minus_mem_named_iff a.length_toList
  | bendable h s =>
    have hsplit : a.hardLevels ++ a.softLevels = a.toList := List.take_append_drop _ _
    rw [← hsplit]
    simp [chars, minus_mem_slashed_iff, or_and_right, exists_or]

/-- Named levels start with the first number. -/
theorem exists_named_eq (l : ScoreLevel) (levels : List ScoreLevel) (n : Int) (ns : List Int) :
    ∃ rest, List.intercalate ['/'] (List.zipWith namedLevel (l :: levels) (n :: ns)) = integer n ++ rest := by
  rw [List.zipWith_cons_cons]
  cases List.zipWith namedLevel levels ns with
  | nil => exact ⟨l.word.toList, List.intercalate_singleton⟩
  | cons part parts => exact ⟨_, by rw [List.intercalate_cons_cons, namedLevel, List.append_assoc, List.append_assoc]⟩

/-- Without brackets a text starts with the one hard level. -/
theorem exists_chars_eq (hk : ¬ k.Bracketed) (a : Score k) :
    ∃ n rest, a.hardLevels = [n] ∧ a.chars = integer n ++ rest := by
  cases k with
  | simple =>
    obtain ⟨n, hn⟩ := List.length_eq_one_iff.1 a.length_toList
    exact ⟨n, [], by rw [hardLevels, hn]; rfl, by simp [chars, slashed, hn]⟩
  | hardSoft =>
    obtain ⟨n, ns, hns⟩ := List.exists_cons_of_length_eq_add_one a.length_toList
    obtain ⟨rest, hrest⟩ := exists_named_eq .hard [.soft] n ns
    have hchars : a.chars = List.intercalate ['/'] (List.zipWith namedLevel [.hard, .soft] a.toList) := rfl
    exact ⟨n, rest, by rw [hardLevels, hns]; rfl, by rw [hchars, hns, hrest]⟩
  | hardMediumSoft =>
    obtain ⟨n, ns, hns⟩ := List.exists_cons_of_length_eq_add_one a.length_toList
    obtain ⟨rest, hrest⟩ := exists_named_eq .hard [.medium, .soft] n ns
    have hchars : a.chars = List.intercalate ['/'] (List.zipWith namedLevel [.hard, .medium, .soft] a.toList) := rfl
    exact ⟨n, rest, by rw [hardLevels, hns]; rfl, by rw [hchars, hns, hrest]⟩
  | bendable h s => exact absurd trivial hk

/-- The text of a score starts with a sign where the score is infeasible, unless the levels stand in brackets. -/
theorem head?_chars_iff (a : Score k) : a.chars.head? = some '-' ↔ ¬ a.Feasible ∧ ¬ k.Bracketed := by
  by_cases hk : k.Bracketed
  · cases k with
    | bendable h s => simp [chars, hk]
    | _ => cases hk
  · obtain ⟨n, rest, hhard, hchars⟩ := a.exists_chars_eq hk
    rw [hchars, head?_integer_append_iff, Feasible, hhard]
    simp [hk]

end Score

end Planning

/-!
## Colours

The fourth character of a painted text tells the colours of scores apart.
-/

namespace Planning.Console

variable {k : ScoreKind} {s : String}

/-- A painted text starts with the code of its colour. -/
theorem getElem?_paint (c : Colour) (s : String) : (paint c s).toList[3]? = (switch c.code).toList[3]? := by
  have hlength : 3 < (switch c.code).toList.length := by cases c <;> decide
  rw [paint, String.toList_append, String.toList_append, List.append_assoc, List.getElem?_append_left hlength]

/-- A bold text starts with the code of what is bold. -/
theorem getElem?_paintBold (c : Colour) (s : String) : (paintBold c s).toList[3]? = (switch 1).toList[3]? := by
  have hlength : 3 < (switch 1).toList.length := by decide
  rw [paintBold, String.toList_append, String.toList_append, List.append_assoc, List.getElem?_append_left hlength]

/-- The same text is not red and yellow. -/
theorem red_ne_yellow : paint .brightRed s ≠ paint .brightYellow s := fun h => by
  have hcode := congrArg (fun t => t.toList[3]?) h
  simp only [getElem?_paint] at hcode
  revert hcode
  decide

/-- The same text is not painted in a colour that scores have below zero and in bold. -/
theorem paint_ne_bold {c : Colour} (hc : c = .brightRed ∨ c = .brightYellow) :
    paint c s ≠ paintBold .brightGreen s := fun h => by
  have hcode := congrArg (fun t => t.toList[3]?) h
  simp only [getElem?_paint, getElem?_paintBold] at hcode
  revert hcode
  rcases hc with rfl | rfl <;> decide

/-- A text starts with a minus sign when that is its first character. -/
theorem startsWith_minus_iff : s.startsWith "-" = true ↔ s.toList.head? = some '-' := by
  rw [String.startsWith_string_iff]
  cases s.toList <;> simp [eq_comm]

/-- A text with a sign in front is red. -/
theorem scoreText_red (h : s.toList.head? = some '-') : scoreText s = paint .brightRed s := by
  rw [scoreText, if_pos (startsWith_minus_iff.2 h)]

/-- A text with a sign further on is yellow. -/
theorem scoreText_yellow (h : s.toList.head? ≠ some '-') (hminus : '-' ∈ s.toList) :
    scoreText s = paint .brightYellow s := by
  rw [scoreText, if_neg (fun hstarts => h (startsWith_minus_iff.1 hstarts)), if_pos (List.contains_iff_mem.2 hminus)]

/-- A text without a sign is green. -/
theorem scoreText_green (hminus : '-' ∉ s.toList) : scoreText s = paintBold .brightGreen s := by
  have h : s.toList.head? ≠ some '-' := fun h => hminus (List.mem_of_mem_head? h)
  rw [scoreText, if_neg (fun hstarts => h (startsWith_minus_iff.1 hstarts)),
    if_neg (fun hcontains => hminus (List.contains_iff_mem.1 hcontains))]

/-- The signs of a text tell its colour, and the colour tells the signs. -/
theorem scoreText_eq_iff (s : String) :
    (scoreText s = paint .brightRed s ↔ s.toList.head? = some '-') ∧
    (scoreText s = paint .brightYellow s ↔ s.toList.head? ≠ some '-' ∧ '-' ∈ s.toList) ∧
    (scoreText s = paintBold .brightGreen s ↔ '-' ∉ s.toList) := by
  by_cases hhead : s.toList.head? = some '-'
  · have hmem : '-' ∈ s.toList := List.mem_of_mem_head? hhead
    simp [scoreText_red hhead, hhead, hmem, red_ne_yellow, paint_ne_bold]
  · by_cases hmem : '-' ∈ s.toList
    · simp [scoreText_yellow hhead hmem, hhead, hmem, red_ne_yellow.symm, paint_ne_bold]
    · simp [scoreText_green hmem, hhead, hmem, (paint_ne_bold _).symm]

/-- A score is shown red just where it is infeasible and its levels do not stand in brackets, yellow just where some
level is negative and it is not shown red, and green just where no level is negative. -/
theorem colour_of_score (a : Score k) :
    (scoreText a.text = paint .brightRed a.text ↔ ¬ a.Feasible ∧ ¬ k.Bracketed) ∧
    (scoreText a.text = paint .brightYellow a.text ↔ (∃ n ∈ a.toList, n < 0) ∧ (a.Feasible ∨ k.Bracketed)) ∧
    (scoreText a.text = paintBold .brightGreen a.text ↔ ∀ n ∈ a.toList, 0 ≤ n) := by
  have htext : a.text.toList = a.chars := String.toList_ofList
  have hhead : a.text.toList.head? = some '-' ↔ ¬ a.Feasible ∧ ¬ k.Bracketed := by rw [htext, a.head?_chars_iff]
  have hmem : '-' ∈ a.text.toList ↔ ∃ n ∈ a.toList, n < 0 := by rw [htext, a.minus_mem_chars_iff]
  obtain ⟨hred, hyellow, hgreen⟩ := scoreText_eq_iff a.text
  refine ⟨hred.trans hhead, ?_, ?_⟩
  · rw [hyellow, ne_eq, hhead, hmem, not_and_or, not_not, not_not, and_comm]
  · rw [hgreen, hmem]
    simp only [not_exists, not_and, Int.not_lt]

/-- An infeasible score with bracketed levels is shown yellow, not red. -/
theorem exists_infeasible_yellow : ∃ a : Score (.bendable 1 1), a.text = "[-1]hard/[0]soft" ∧ ¬ a.Feasible ∧
    scoreText a.text = paint .brightYellow a.text ∧ scoreText a.text ≠ paint .brightRed a.text := by
  have hyellow : ∀ a : Score (.bendable 1 1), a.text = "[-1]hard/[0]soft" →
      scoreText a.text = paint .brightYellow a.text := fun a htext =>
    scoreText_yellow (by rw [htext]; decide) (by rw [htext]; decide)
  refine ⟨⟨[⟨-1, by decide⟩, .zero], rfl⟩, by decide, by decide, hyellow _ (by decide), fun hred => ?_⟩
  exact red_ne_yellow (hred.symm.trans (hyellow _ (by decide)))

end Planning.Console
