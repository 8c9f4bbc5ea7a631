import Mathlib.Data.List.TakeWhile
import Planning.Proofs.Score.Order
import Planning.Score.Text
import Planning.Text.Integer

/-!
# The texts of numbers and scores

A text may be padded with blanks, which trimming takes away again, and which do not matter to the trimmed parts
between slashes. Just the decimal numbers in bounds, with or without a sign, are read as integers.
-/

namespace Planning.Text

/-- A text with blanks before and after. -/
def Padded (core cs : List Char) : Prop :=
  ∃ before after, (∀ c ∈ before, isBlank c = true) ∧ (∀ c ∈ after, isBlank c = true) ∧ cs = before ++ core ++ after

variable {p q cs ds : List Char} {n : Int} {c : Char}

theorem Padded.refl (cs : List Char) : Padded cs cs :=
  ⟨[], [], List.forall_mem_nil _, List.forall_mem_nil _, by simp⟩

/-- Every text is its trimmed text with blanks around. -/
theorem padded_trim (cs : List Char) : Padded (trim cs) cs := by
  refine ⟨cs.takeWhile isBlank, ((cs.dropWhile isBlank).reverse.takeWhile isBlank).reverse,
    fun c hc => List.mem_takeWhile_imp hc, fun c hc => List.mem_takeWhile_imp (List.mem_reverse.1 hc), ?_⟩
  rw [trim, List.append_assoc, ← List.reverse_append, List.takeWhile_append_dropWhile, List.reverse_reverse,
    List.takeWhile_append_dropWhile]

/-- Blanks before a text are trimmed. -/
theorem trim_append_left (hp : ∀ c ∈ p, isBlank c = true) (q : List Char) : trim (p ++ q) = trim q := by
  rw [trim, List.dropWhile_append_of_pos hp, trim]

/-- Blanks after a text are trimmed. -/
theorem trim_append_right (p : List Char) (hq : ∀ c ∈ q, isBlank c = true) : trim (p ++ q) = trim p := by
  have hq' : ∀ c ∈ q.reverse, isBlank c = true := fun c hc => hq c (List.mem_reverse.1 hc)
  rw [trim, trim, List.dropWhile_append]
  split
  · rename_i hempty
    rw [List.isEmpty_iff.1 hempty, List.dropWhile_eq_nil_iff.2 hq]
  · rw [List.reverse_append, List.dropWhile_append_of_pos hq']

/-- Padding is trimmed. -/
theorem Padded.trim_eq (h : Padded p q) : trim q = trim p := by
  obtain ⟨before, after, hbefore, hafter, rfl⟩ := h
  rw [trim_append_right _ hafter, trim_append_left hbefore]

/-- A text without blanks is already trimmed. -/
theorem trim_eq_self_of_forall (h : ∀ c ∈ cs, isBlank c = false) : trim cs = cs :=
  trim_eq_self (fun c hc => h c (List.mem_of_mem_head? hc)) fun c hc => h c (List.mem_of_mem_getLast? hc)

/-- Nothing is left of a text when it is blank. -/
theorem trim_eq_nil_iff : trim cs = [] ↔ ∀ c ∈ cs, isBlank c = true := by
  constructor
  · intro h
    obtain ⟨before, after, hbefore, hafter, hcs⟩ := padded_trim cs
    rw [hcs, h]
    simpa [or_imp, forall_and] using ⟨hbefore, hafter⟩
  · intro h
    have hnil := trim_append_left h []
    rwa [List.append_nil] at hnil

/-- The characters of parts put together are those of the parts and of what stands between them. -/
theorem mem_of_mem_intercalate {sep : List Char} {parts : List (List Char)}
    (h : c ∈ List.intercalate sep parts) : c ∈ sep ∨ ∃ part ∈ parts, c ∈ part := by
  induction parts with
  | nil => simp at h
  | cons part parts ih =>
    cases parts with
    | nil => exact .inr ⟨part, by simp, by simpa using h⟩
    | cons next parts =>
      rw [List.intercalate_cons_cons, List.append_assoc, List.mem_append, List.mem_append] at h
      rcases h with h | h | h
      · exact .inr ⟨part, by simp, h⟩
      · exact .inl h
      · exact (ih h).imp_right fun ⟨x, hx, hc⟩ => ⟨x, List.mem_cons_of_mem _ hx, hc⟩

/-- A slash is not blank. -/
theorem not_mem_slash (h : ∀ c ∈ cs, isBlank c = true) : '/' ∉ cs := fun hmem => by
  have hslash := h _ hmem
  revert hslash
  decide

/-- Blanks before a text do not matter to its trimmed parts. -/
theorem map_trim_splitOn_append_left (hp : ∀ c ∈ p, isBlank c = true) (q : List Char) :
    ((p ++ q).splitOn '/').map trim = (q.splitOn '/').map trim := by
  by_cases hq : '/' ∈ q
  · obtain ⟨first, rest, rfl, hfirst⟩ := List.eq_append_cons_of_mem hq
    rw [← List.append_assoc, List.splitOn_append_cons_self, List.splitOn_append_cons_self,
      List.splitOn_eq_singleton hfirst, List.splitOn_eq_singleton (by simp [not_mem_slash hp, hfirst])]
    simp [trim_append_left hp]
  · rw [List.splitOn_eq_singleton hq, List.splitOn_eq_singleton (by simp [not_mem_slash hp, hq])]
    simp [trim_append_left hp]

/-- Blanks after a text do not matter to its trimmed parts. -/
theorem map_trim_splitOn_append_right (p : List Char) (hq : ∀ c ∈ q, isBlank c = true) :
    ((p ++ q).splitOn '/').map trim = (p.splitOn '/').map trim := by
  by_cases hp : '/' ∈ p
  · obtain ⟨first, rest, rfl, hfirst⟩ := List.eq_append_cons_of_mem hp
    rw [List.append_assoc, List.cons_append, List.splitOn_append_cons_self, List.splitOn_append_cons_self,
      List.map_append, List.map_append, map_trim_splitOn_append_right rest hq]
  · rw [List.splitOn_eq_singleton hp, List.splitOn_eq_singleton (by simp [not_mem_slash hq, hp])]
    simp [trim_append_right p hq]
termination_by p.length

/-- Padding does not matter to the trimmed parts of a text. -/
theorem Padded.map_trim_splitOn (h : Padded p q) : (q.splitOn '/').map trim = (p.splitOn '/').map trim := by
  obtain ⟨before, after, hbefore, hafter, rfl⟩ := h
  rw [map_trim_splitOn_append_right _ hafter, map_trim_splitOn_append_left hbefore]

/-- A decimal number in bounds, which may have a sign. -/
def Numeral (cs : List Char) (n : Int) : Prop :=
  InBounds n ∧ ∃ ds, ds ≠ [] ∧ (∀ c ∈ ds, c.isDigit = true) ∧
    ((cs = ds ∨ cs = '+' :: ds) ∧ n = Nat.ofDigitChars 10 ds 0 ∨
      cs = '-' :: ds ∧ n = -(Nat.ofDigitChars 10 ds 0 : Int))

/-- A decimal number is made of digits and signs. -/
theorem Numeral.mem (h : Numeral cs n) (hc : c ∈ cs) : c.isDigit = true ∨ c = '+' ∨ c = '-' := by
  obtain ⟨-, ds, -, hds, ⟨rfl | rfl, -⟩ | ⟨rfl, -⟩⟩ := h
  · exact .inl (hds c hc)
  · rcases List.mem_cons.1 hc with hc | hc
    · exact .inr (.inl hc)
    · exact .inl (hds c hc)
  · rcases List.mem_cons.1 hc with hc | hc
    · exact .inr (.inr hc)
    · exact .inl (hds c hc)

/-- A decimal number is not empty. -/
theorem Numeral.ne_nil (h : Numeral cs n) : cs ≠ [] := by
  obtain ⟨-, ds, hne, -, ⟨rfl | rfl, -⟩ | ⟨rfl, -⟩⟩ := h
  · exact hne
  · exact List.cons_ne_nil _ _
  · exact List.cons_ne_nil _ _

/-- Digits are not blank. -/
theorem isBlank_eq_false_of_isDigit (h : c.isDigit = true) : isBlank c = false := by
  have hc : 48 ≤ c.toNat ∧ c.toNat ≤ 57 := by
    simpa [Char.isDigit, UInt32.le_iff_toNat_le] using h
  simp only [isBlank, blankRanges, List.any_cons, List.any_nil, Bool.or_false, Bool.or_eq_false_iff,
    Bool.and_eq_false_iff, decide_eq_false_iff_not]
  omega

/-- A decimal number has no blanks. -/
theorem Numeral.not_blank (h : Numeral cs n) (hc : c ∈ cs) : isBlank c = false := by
  rcases h.mem hc with hc | rfl | rfl
  · exact isBlank_eq_false_of_isDigit hc
  · decide
  · decide

/-- The number that digits stand for after a sign. -/
def signed (negative : Bool) (a : Nat) : Int := if negative then -a else a

/-- Digits that are read stand for the number they are read as, which is in bounds. -/
theorem readDigits_sound {negative : Bool} {a : Nat} (h : readDigits negative (signed negative a) cs = .ok n)
    (ha : InBounds (signed negative a)) :
    (∀ c ∈ cs, c.isDigit = true) ∧ InBounds n ∧ n = signed negative (Nat.ofDigitChars 10 cs a) := by
  induction cs generalizing a with
  | nil =>
    cases h
    exact ⟨List.forall_mem_nil _, ha, rfl⟩
  | cons c cs ih =>
    have hnext : (if negative then signed negative a * 10 - digitValue c else signed negative a * 10 + digitValue c) =
        signed negative (10 * a + (c.toNat - '0'.toNat)) := by
      cases negative <;> simp only [signed, digitValue] <;> split <;> omega
    simp only [readDigits, hnext] at h
    split at h
    · rename_i hc
      split at h
      · rename_i hb
        obtain ⟨hcs, hn, hval⟩ := ih h hb
        refine ⟨List.forall_mem_cons.2 ⟨hc, hcs⟩, hn, ?_⟩
        rw [hval, Nat.ofDigitChars_cons]
      · cases h
    · cases h

/-- Digits in bounds are read after a sign. -/
theorem readDigits_complete (negative : Bool) (hds : ∀ c ∈ ds, c.isDigit = true)
    (hb : InBounds (signed negative (Nat.ofDigitChars 10 ds 0))) :
    readDigits negative 0 ds = .ok (signed negative (Nat.ofDigitChars 10 ds 0)) := by
  have h := readDigits_eq_ok_of_inBounds negative ds hds 0 hb
  rwa [show (if negative then -((0 : Nat) : Int) else (0 : Nat)) = 0 by cases negative <;> rfl] at h

/-- Just the decimal numbers in bounds are read as integers. -/
theorem readInteger_eq_ok_iff : readInteger cs = .ok n ↔ Numeral cs n := by
  have hzero : ∀ negative, InBounds (signed negative 0) := by decide
  constructor
  · intro h
    unfold readInteger at h
    split at h
    · cases h
    · cases h
    · cases h
    · rename_i ds hne
      obtain ⟨hds, hn, hval⟩ := readDigits_sound h (hzero true)
      exact ⟨hn, ds, fun hnil => hne (hnil ▸ rfl), hds, .inr ⟨rfl, hval⟩⟩
    · rename_i ds hne
      obtain ⟨hds, hn, hval⟩ := readDigits_sound h (hzero false)
      exact ⟨hn, ds, fun hnil => hne (hnil ▸ rfl), hds, .inl ⟨.inr rfl, hval⟩⟩
    · rename_i hne _ _ _ _
      obtain ⟨hds, hn, hval⟩ := readDigits_sound h (hzero false)
      exact ⟨hn, cs, hne, hds, .inl ⟨.inl rfl, hval⟩⟩
  · rintro ⟨hn, ds, hne, hds, ⟨rfl | rfl, rfl⟩ | ⟨rfl, rfl⟩⟩
    · have hread := readDigits_complete false hds hn
      unfold readInteger
      split
      · exact absurd rfl hne
      · exact absurd (hds '-' (by simp)) (by decide)
      · exact absurd (hds '+' (by simp)) (by decide)
      · exact absurd (hds '-' (by simp)) (by decide)
      · exact absurd (hds '+' (by simp)) (by decide)
      · exact hread
    · have hread := readDigits_complete false hds hn
      cases ds with
      | nil => exact absurd rfl hne
      | cons d ds => exact hread
    · have hread := readDigits_complete true hds hn
      cases ds with
      | nil => exact absurd rfl hne
      | cons d ds => exact hread

/-- The decimal text of a number in bounds. -/
theorem numeral_integer (h : InBounds n) : Numeral (integer n) n := readInteger_eq_ok_iff.1 (readInteger_integer h)

end Planning.Text

/-!
## The texts of scores

The texts that spell a score are given by a grammar that knows nothing of reading: decimal numbers followed by the
names of their levels with slashes between them, or two bracketed lists of numbers. Just these texts are read, as
the scores that they spell, and the text that is written of a score is one of them.
-/

namespace Planning.Score

open Checked Text

/-- A level: a number followed by a word, with blanks around. -/
def SpellsLevel (word cs : List Char) (n : Int) : Prop := ∃ digits, Numeral digits n ∧ Padded (digits ++ word) cs

/-- What stands between brackets: nothing but blanks, or numbers with slashes between them. -/
def SpellsList (cs : List Char) (ns : List Int) : Prop :=
  ns = [] ∧ (∀ c ∈ cs, isBlank c = true) ∨
    ns ≠ [] ∧ ∃ parts, cs = List.intercalate ['/'] parts ∧ List.Forall₂ (SpellsLevel []) parts ns

/-- A named part for each level, with slashes between them. -/
def SpellsParts (levels : List ScoreLevel) (cs : List Char) (ns : List Int) : Prop :=
  ns.length = levels.length ∧ ∃ parts, cs = List.intercalate ['/'] parts ∧
    List.Forall₂ (fun part x => SpellsLevel x.1.word.toList part x.2) parts (levels.zip ns)

/-- The texts of a kind of score and the levels that they spell. -/
def Spells : ScoreKind → List Char → List Int → Prop
  | .simple, cs, ns => ∃ n, ns = [n] ∧ Numeral cs n
  | .hardSoft, cs, ns => SpellsParts [.hard, .soft] cs ns
  | .hardMediumSoft, cs, ns => SpellsParts [.hard, .medium, .soft] cs ns
  | .bendable h s, cs, ns => ∃ hard soft before after, ns = hard ++ soft ∧ hard.length = h ∧ soft.length = s ∧
      SpellsList before hard ∧ SpellsList after soft ∧
      cs = '[' :: before ++ "]hard/[".toList ++ after ++ "]soft".toList

variable {k : ScoreKind} {word cs : List Char} {n : Int} {ns : List Int} {l : ScoreLevel} {c : Char}

/-- The name of a level has neither blanks nor slashes. -/
theorem plain_word (l : ScoreLevel) : ∀ c ∈ l.word.toList, isBlank c = false ∧ c ≠ '/' := by
  cases l <;> simp [ScoreLevel.word, isBlank, blankRanges]

/-- A level is spelled by the trimmed text. -/
theorem spellsLevel_iff (hword : ∀ c ∈ word, isBlank c = false ∧ c ≠ '/') :
    SpellsLevel word cs n ↔ ∃ digits, trim cs = digits ++ word ∧ Numeral digits n := by
  constructor
  · rintro ⟨digits, hdigits, hcs⟩
    refine ⟨digits, ?_, hdigits⟩
    rw [hcs.trim_eq]
    refine trim_eq_self_of_forall fun c hc => ?_
    rcases List.mem_append.1 hc with hc | hc
    · exact hdigits.not_blank hc
    · exact (hword c hc).1
  · rintro ⟨digits, hcs, hdigits⟩
    exact ⟨digits, hdigits, hcs ▸ padded_trim cs⟩

/-- A level in a list is spelled by the trimmed text. -/
theorem spellsLevel_nil_iff : SpellsLevel [] cs n ↔ Numeral (trim cs) n := by
  rw [spellsLevel_iff (List.forall_mem_nil _)]
  simp

/-- The characters of a level. -/
theorem SpellsLevel.mem (h : SpellsLevel word cs n) (hc : c ∈ cs) :
    isBlank c = true ∨ c.isDigit = true ∨ c = '+' ∨ c = '-' ∨ c ∈ word := by
  obtain ⟨digits, hdigits, before, after, hbefore, hafter, rfl⟩ := h
  simp only [List.mem_append] at hc
  rcases hc with (hc | hc | hc) | hc
  · exact .inl (hbefore c hc)
  · rcases hdigits.mem hc with h | h | h <;> simp [h]
  · simp [hc]
  · exact .inl (hafter c hc)

/-- A level has no slash. -/
theorem SpellsLevel.not_mem_slash (hword : ∀ c ∈ word, isBlank c = false ∧ c ≠ '/') (h : SpellsLevel word cs n) :
    '/' ∉ cs := fun hmem => by
  rcases h.mem hmem with h | h | h | h | h
  · exact absurd h (by decide)
  · exact absurd h (by decide)
  · exact absurd h (by decide)
  · exact absurd h (by decide)
  · exact (hword _ h).2 rfl

/-- The parts of a text with slashes are the ones put together. -/
theorem splitOn_parts {ι : Type} {R : List Char → ι → Prop} {parts : List (List Char)} {xs : List ι}
    (hR : ∀ part x, R part x → '/' ∉ part) (hne : xs ≠ []) (h : List.Forall₂ R parts xs) :
    (List.intercalate ['/'] parts).splitOn '/' = parts := by
  refine List.splitOn_intercalate '/' ?_ ?_
  · exact ((List.forall₂_and_left _ _).1 (h.imp fun part x hx => ⟨hR part x hx, hx⟩)).1
  · rintro rfl
    cases h
    exact hne rfl

theorem readLevel_eq_ok_iff {shown : List Char} : readLevel l shown cs = .ok n ↔ Numeral cs n := by
  rw [← readInteger_eq_ok_iff, readLevel]
  split
  · rename_i m hm
    rw [hm, Except.ok.injEq, Except.ok.injEq]
  · rename_i e he
    rw [he]
    exact ⟨nofun, nofun⟩

/-- Parts are read when each spells the level in its place. -/
theorem readNamed_eq_ok_iff {text : List Char} {levels : List ScoreLevel} {parts : List (List Char)} :
    readNamed k text levels parts = .ok ns ↔ ns.length = levels.length ∧
      List.Forall₂ (fun part x => SpellsLevel x.1.word.toList part x.2) parts (levels.zip ns) := by
  induction levels generalizing parts ns with
  | nil =>
    cases parts with
    | nil => cases ns <;> simp [readNamed]
    | cons part parts => simp [readNamed]
  | cons l levels ih =>
    cases parts with
    | nil => cases ns <;> simp [readNamed]
    | cons part parts =>
      cases ns with
      | nil =>
        refine ⟨fun h => ?_, fun h => absurd h.1 (Nat.zero_ne_add_one _)⟩
        rw [readNamed] at h
        split at h
        · cases h
        · simp only [bind_eq_ok_iff, pure_eq_ok_iff] at h
          obtain ⟨_, _, _, _, h⟩ := h
          cases h
      | cons n ns =>
        -- The first part is the digits of its level and the name, and the others are read after it.
        have hfirst : readNamed k text (l :: levels) (part :: parts) = .ok (n :: ns) ↔
            SpellsLevel l.word.toList part n ∧ readNamed k text levels parts = .ok ns := by
          rw [readNamed, spellsLevel_iff (plain_word l)]
          constructor
          · intro h
            split at h
            · cases h
            · rename_i digits hdigits
              simp only [bind_eq_ok_iff, pure_eq_ok_iff, List.cons.injEq, readLevel_eq_ok_iff] at h
              obtain ⟨m, hm, ms, hms, rfl, rfl⟩ := h
              exact ⟨⟨digits, (List.isSuffixOf?_eq_some_iff_append_eq.1 hdigits).symm, hm⟩, hms⟩
          · rintro ⟨⟨digits, hcs, hdigits⟩, hrest⟩
            rw [hcs, List.isSuffixOf?_eq_some_iff_append_eq.2 rfl]
            simp only [bind_eq_ok_iff, pure_eq_ok_iff, readLevel_eq_ok_iff]
            exact ⟨n, hdigits, ns, hrest, rfl⟩
        rw [hfirst, ih, List.zip_cons_cons, List.forall₂_cons, List.length_cons, List.length_cons,
          Nat.add_right_cancel_iff]
        exact and_left_comm

/-- What parts spell depends on their trimmed texts alone. -/
theorem forall₂_spellsLevel_congr {ps qs : List (List Char)} {xs : List (ScoreLevel × Int)}
    (h : ps.map trim = qs.map trim) :
    List.Forall₂ (fun part x => SpellsLevel x.1.word.toList part x.2) ps xs ↔
      List.Forall₂ (fun part x => SpellsLevel x.1.word.toList part x.2) qs xs := by
  simp only [spellsLevel_iff (plain_word _)]
  rw [← List.forall₂_map_left_iff (R := fun part (x : ScoreLevel × Int) =>
    ∃ digits, part = digits ++ x.1.word.toList ∧ Numeral digits x.2), h, List.forall₂_map_left_iff]

/-- Named levels with slashes between them are read, with blanks around. -/
theorem readNamed_trim_eq_ok_iff {levels : List ScoreLevel} (hlevels : levels ≠ []) :
    readNamed k (trim cs) levels ((trim cs).splitOn '/') = .ok ns ↔
      ∃ core, Padded core cs ∧ SpellsParts levels core ns := by
  rw [readNamed_eq_ok_iff]
  constructor
  · rintro ⟨hlength, hparts⟩
    exact ⟨trim cs, padded_trim cs, hlength, _, (List.intercalate_splitOn '/').symm, hparts⟩
  · rintro ⟨core, hcore, hlength, parts, rfl, hparts⟩
    have hne : levels.zip ns ≠ [] := by
      intro hnil
      have hzip := congrArg List.length hnil
      rw [List.length_zip, hlength, Nat.min_self] at hzip
      exact hlevels (List.length_eq_zero_iff.1 hzip)
    have htrim : ((trim cs).splitOn '/').map trim = parts.map trim := by
      rw [← (padded_trim cs).map_trim_splitOn, hcore.map_trim_splitOn,
        splitOn_parts (fun part x hx => hx.not_mem_slash (plain_word x.1)) hne hparts]
    exact ⟨hlength, (forall₂_spellsLevel_congr htrim).2 hparts⟩

/-- What stands in brackets before the name of a level. -/
theorem insideBrackets?_eq_some_iff {part inner : List Char} :
    insideBrackets? l part = some inner ↔ part = '[' :: inner ++ ']' :: l.word.toList := by
  simp only [insideBrackets?, Option.bind_eq_bind, Option.bind_eq_some_iff, List.isSuffixOf?_eq_some_iff_append_eq,
    List.isPrefixOf?_eq_some_iff_append_eq]
  constructor
  · rintro ⟨_, rfl, _, rfl, rfl⟩
    simp
  · rintro rfl
    exact ⟨'[' :: inner ++ [']'], by simp, inner ++ [']'], by simp, rfl⟩

/-- The parts of a list between brackets, of which a blank one has none. -/
def listParts (cs : List Char) : List (List Char) := if (trim cs).isEmpty then [] else cs.splitOn '/'

/-- A list between brackets is spelled by its parts. -/
theorem spellsList_iff : SpellsList cs ns ↔ List.Forall₂ (SpellsLevel []) (listParts cs) ns := by
  have hparts : ∀ {parts ms}, ms ≠ [] → List.Forall₂ (SpellsLevel []) parts ms →
      (List.intercalate ['/'] parts).splitOn '/' = parts := fun hne h =>
    splitOn_parts (fun _ _ hx => hx.not_mem_slash (List.forall_mem_nil _)) hne h
  rw [listParts]
  split
  · rename_i hempty
    have hnil : trim cs = [] := List.isEmpty_iff.1 hempty
    rw [List.forall₂_nil_left_iff]
    constructor
    · rintro (⟨hns, -⟩ | ⟨hne, parts, rfl, h⟩)
      · exact hns
      · -- A blank text has one part, which is no number.
        have hone := hparts hne h
        rw [List.splitOn_eq_singleton (Text.not_mem_slash (trim_eq_nil_iff.1 hnil))] at hone
        rw [← hone] at h
        obtain ⟨n, ms, hn, -, rfl⟩ := List.forall₂_cons_left_iff.1 h
        exact absurd hnil (spellsLevel_nil_iff.1 hn).ne_nil
    · exact fun hns => .inl ⟨hns, trim_eq_nil_iff.1 hnil⟩
  · rename_i hempty
    have hne : trim cs ≠ [] := fun h => hempty (List.isEmpty_iff.2 h)
    constructor
    · rintro (⟨-, hblank⟩ | ⟨hns, parts, rfl, h⟩)
      · exact absurd (trim_eq_nil_iff.2 hblank) hne
      · rwa [hparts hns h]
    · intro h
      refine .inr ⟨?_, _, (List.intercalate_splitOn '/').symm, h⟩
      rintro rfl
      exact List.splitOn_ne_nil '/' cs (List.forall₂_nil_right_iff.1 h)

/-- The list in the brackets of a part is read when it spells as many levels as it should. -/
theorem readBracketed_inside {expected : Nat} {part inner : List Char}
    (hinner : insideBrackets? l part = some inner) :
    readBracketed l expected part = .ok ns ↔ ns.length = expected ∧ SpellsList inner ns := by
  have hread : readBracketed l expected part = .ok ns ↔
      (listParts inner).length = expected ∧ List.Forall₂ (SpellsLevel []) (listParts inner) ns := by
    have hlevels : (listParts inner).mapM (fun digits => readLevel l digits (trim digits)) = .ok ns ↔
        List.Forall₂ (SpellsLevel []) (listParts inner) ns := by
      simp only [mapM_eq_ok_iff, readLevel_eq_ok_iff, ← spellsLevel_nil_iff]
    rw [← hlevels, readBracketed, hinner]
    change (if (listParts inner).length ≠ expected then _ else _) = _ ↔ _
    split
    · rename_i hne
      exact ⟨nofun, fun h => absurd h.1 hne⟩
    · rename_i heq
      exact ⟨fun h => ⟨not_not.1 heq, h⟩, And.right⟩
  rw [hread, ← spellsList_iff]
  constructor
  · rintro ⟨rfl, h⟩
    exact ⟨(spellsList_iff.1 h).length_eq.symm, h⟩
  · rintro ⟨rfl, h⟩
    exact ⟨(spellsList_iff.1 h).length_eq, h⟩

/-- A bracketed part is read when its list spells as many levels as it should. -/
theorem readBracketed_eq_ok_iff {expected : Nat} {part : List Char} :
    readBracketed l expected part = .ok ns ↔
      ns.length = expected ∧ ∃ inner, SpellsList inner ns ∧ part = '[' :: inner ++ ']' :: l.word.toList := by
  simp only [← insideBrackets?_eq_some_iff]
  cases hinner : insideBrackets? l part with
  | none => simp [readBracketed, hinner]
  | some inner => simp [readBracketed_inside hinner]

/-- A list between brackets has no letter. -/
theorem SpellsList.not_mem_letter (h : SpellsList cs ns) : 'h' ∉ cs := by
  rcases h with ⟨-, hblank⟩ | ⟨-, parts, rfl, h⟩
  · intro hmem
    exact absurd (hblank _ hmem) (by decide)
  · have hparts : ∀ part ∈ parts, 'h' ∉ part := by
      refine ((List.forall₂_and_left _ _).1 (h.imp fun part n hn => ⟨fun hmem => ?_, hn⟩)).1
      rcases hn.mem hmem with h | h | h | h | h <;> exact absurd h (by decide)
    intro hmem
    rcases mem_of_mem_intercalate hmem with hsep | ⟨part, hpart, hmem⟩
    · exact absurd hsep (by decide)
    · exact hparts part hpart hmem

/-- A text is cut where a word stands whose first letter does not stand before. -/
theorem cutAt?_append {before : List Char} (h : c ∉ before) (word after : List Char) :
    cutAt? (c :: word) (before ++ c :: word ++ after) = some (before, after) := by
  induction before with
  | nil =>
    rw [List.nil_append, List.cons_append, cutAt?, ← List.cons_append,
      List.isPrefixOf?_eq_some_iff_append_eq.2 rfl]
  | cons b before ih =>
    obtain ⟨hb, hbefore⟩ := not_or.1 (List.mem_cons.not.1 h)
    have hnone : (c :: word).isPrefixOf? (b :: (before ++ c :: word ++ after)) = none := by
      rw [List.isPrefixOf?, if_neg (by simpa using hb)]
    rw [List.cons_append, List.cons_append, cutAt?, hnone, ih hbefore]
    rfl

/-- A text that is cut is put together again. -/
theorem append_of_cutAt? {before after : List Char} (h : cutAt? word cs = some (before, after)) :
    cs = before ++ word ++ after := by
  induction cs generalizing before with
  | nil =>
    obtain ⟨rest, hrest, heq⟩ := Option.map_eq_some_iff.1 h
    cases heq
    exact (List.isPrefixOf?_eq_some_iff_append_eq.1 hrest).symm
  | cons b cs ih =>
    rw [cutAt?] at h
    split at h
    · rename_i rest hrest
      cases h
      exact (List.isPrefixOf?_eq_some_iff_append_eq.1 hrest).symm
    · obtain ⟨⟨first, last⟩, hcut, heq⟩ := Option.map_eq_some_iff.1 h
      cases heq
      rw [ih hcut]
      rfl

/-- Two bracketed lists are read from what precedes and what follows the first slash after a hard part. -/
theorem readNumbers_cut {h s : Nat} {text : List Char} :
    readNumbers (.bendable h s) text = .ok ns ↔
      ∃ before after, cutAt? "hard/".toList text = some (before, after) ∧
        ∃ hard, readBracketed .hard h (before ++ "hard".toList) = .ok hard ∧
          ∃ soft, readBracketed .soft s after = .ok soft ∧ hard ++ soft = ns := by
  rw [readNumbers]
  cases cutAt? "hard/".toList text with
  | none => simp
  | some parts =>
    simp only [bind_eq_ok_iff, pure_eq_ok_iff]
    constructor
    · exact fun h => ⟨parts.1, parts.2, rfl, h⟩
    · rintro ⟨_, _, heq, h⟩
      cases heq
      exact h

/-- Two bracketed lists are read, with blanks around. -/
theorem readNumbers_bendable_eq_ok_iff {h s : Nat} :
    readNumbers (.bendable h s) (trim cs) = .ok ns ↔ ∃ core, Padded core cs ∧ Spells (.bendable h s) core ns := by
  rw [readNumbers_cut]
  constructor
  · rintro ⟨first, last, hcut, hard, hhard, soft, hsoft, rfl⟩
    obtain ⟨rfl, before, hbefore, hfirst⟩ := readBracketed_eq_ok_iff.1 hhard
    obtain ⟨rfl, after, hafter, rfl⟩ := readBracketed_eq_ok_iff.1 hsoft
    obtain rfl : first = '[' :: before ++ [']'] :=
      List.append_cancel_right (hfirst.trans (by simp [ScoreLevel.word]))
    refine ⟨trim cs, padded_trim cs, hard, soft, before, after, rfl, rfl, rfl, hbefore, hafter, ?_⟩
    rw [append_of_cutAt? hcut]
    simp [ScoreLevel.word]
  · rintro ⟨core, hcore, hard, soft, before, after, rfl, rfl, rfl, hbefore, hafter, rfl⟩
    have htight : trim cs = '[' :: before ++ "]hard/[".toList ++ after ++ "]soft".toList := by
      rw [hcore.trim_eq]
      refine trim_eq_self ?_ ?_
      · simp [isBlank, blankRanges]
      · intro c hc
        rw [List.getLast?_append] at hc
        cases hc
        decide
    have hletter : 'h' ∉ '[' :: before ++ [']'] := by simp [hbefore.not_mem_letter]
    have hcut := cutAt?_append hletter "ard/".toList ('[' :: after ++ "]soft".toList)
    refine ⟨'[' :: before ++ [']'], '[' :: after ++ "]soft".toList, ?_, hard,
      readBracketed_eq_ok_iff.2 ⟨rfl, before, hbefore, ?_⟩, soft,
      readBracketed_eq_ok_iff.2 ⟨rfl, after, hafter, rfl⟩, rfl⟩
    · rw [htight, ← hcut]
      simp
    · simp [ScoreLevel.word]

/-- The texts from which levels are read spell them, with blanks around. -/
theorem readNumbers_trim_eq_ok_iff :
    readNumbers k (trim cs) = .ok ns ↔ ∃ core, Padded core cs ∧ Spells k core ns := by
  cases k with
  | simple =>
    have hread : readNumbers .simple (trim cs) = .ok ns ↔ ∃ n, ns = [n] ∧ SpellsLevel [] cs n := by
      simp only [spellsLevel_nil_iff, ← readInteger_eq_ok_iff]
      rw [readNumbers]
      split
      · rename_i n hn
        simp [hn, eq_comm]
      · rename_i e he
        simp [he]
    rw [hread]
    constructor
    · rintro ⟨n, rfl, digits, hdigits, hcs⟩
      rw [List.append_nil] at hcs
      exact ⟨digits, hcs, n, rfl, hdigits⟩
    · rintro ⟨core, hcore, n, rfl, hdigits⟩
      exact ⟨n, rfl, core, hdigits, by rwa [List.append_nil]⟩
  | hardSoft => exact readNamed_trim_eq_ok_iff (List.cons_ne_nil _ _)
  | hardMediumSoft => exact readNamed_trim_eq_ok_iff (List.cons_ne_nil _ _)
  | bendable h s => exact readNumbers_bendable_eq_ok_iff

/-- What is read. -/
theorem parse_eq_ok_iff {s : String} {a : Score k} :
    parse k s = .ok a ↔ ∃ core, Padded core s.toList ∧ Spells k core a.toList := by
  rw [← readNumbers_trim_eq_ok_iff, parse, ofChars]
  simp only [bind_eq_ok_iff]
  constructor
  · rintro ⟨ns, hns, h⟩
    split at h
    · rename_i b hb
      cases h
      rwa [ofList_eq_ok_iff.1 hb]
    · cases h
  · intro h
    refine ⟨a.toList, h, ?_⟩
    rw [ofList_eq_ok_iff.2 rfl]

/-- Numbers with slashes between them spell a list. -/
theorem spellsList_slashed (h : ∀ n ∈ ns, InBounds n) : SpellsList (slashed ns) ns := by
  by_cases hne : ns = []
  · subst hne
    exact .inl ⟨rfl, List.forall_mem_nil _⟩
  · refine .inr ⟨hne, ns.map integer, rfl, ?_⟩
    rw [List.forall₂_map_left_iff, List.forall₂_same]
    exact fun n hn => ⟨integer n, numeral_integer (h n hn), by rw [List.append_nil]; exact .refl _⟩

/-- Named levels with slashes between them spell the parts. -/
theorem spellsParts_named {levels : List ScoreLevel} (hlength : ns.length = levels.length)
    (h : ∀ n ∈ ns, InBounds n) :
    SpellsParts levels (List.intercalate ['/'] (List.zipWith namedLevel levels ns)) ns := by
  refine ⟨hlength, _, rfl, ?_⟩
  rw [← List.map_uncurry_zip_eq_zipWith, List.forall₂_map_left_iff, List.forall₂_same]
  exact fun x hx => ⟨integer x.2, numeral_integer (h _ (List.of_mem_zip hx).2), .refl _⟩

/-- The text of a score spells it. -/
theorem spells_chars (a : Score k) : Spells k a.chars a.toList := by
  have hbounds : ∀ n ∈ a.toList, InBounds n := fun n hn => inBounds_of_mem hn
  cases k with
  | simple =>
    obtain ⟨n, hn⟩ := List.length_eq_one_iff.1 a.length_toList
    refine ⟨n, hn, ?_⟩
    have hchars : a.chars = integer n := by
      simp [chars, slashed, hn]
    rw [hchars]
    exact numeral_integer (hbounds n (by simp [hn]))
  | hardSoft => exact spellsParts_named a.length_toList hbounds
  | hardMediumSoft => exact spellsParts_named a.length_toList hbounds
  | bendable h s =>
    have hsize : a.toList.length = h + s := by simp
    refine ⟨a.hardLevels, a.softLevels, slashed a.hardLevels, slashed a.softLevels,
      (List.take_append_drop _ _).symm, ?_, ?_, spellsList_slashed fun n hn => hbounds n (List.mem_of_mem_take hn),
      spellsList_slashed fun n hn => hbounds n (List.mem_of_mem_drop hn), ?_⟩
    · rw [hardLevels, List.length_take, hsize]
      exact Nat.min_eq_left (Nat.le_add_right h s)
    · rw [softLevels, List.length_drop, hsize]
      exact Nat.add_sub_cancel_left h s
    · simp [chars]

/-- Reading gives back the score whose text it is, with any blanks around, and nothing but the texts that spell a score
is read: any other text is an error. -/
theorem parse_text (k : ScoreKind) :
    (∀ (a : Score k) (s : String), Padded a.text.toList s.toList → parse k s = .ok a) ∧
    (∀ (a : Score k) (s : String), parse k s = .ok a → ∃ core, Padded core s.toList ∧ Spells k core a.toList) ∧
    ∀ s : String, (∀ core ns, Padded core s.toList → ¬ Spells k core ns) → ∃ e, parse k s = .error e := by
  refine ⟨fun a s hs => ?_, fun a s h => parse_eq_ok_iff.1 h, fun s hs => ?_⟩
  · rw [text, String.toList_ofList] at hs
    exact parse_eq_ok_iff.2 ⟨_, hs, spells_chars a⟩
  · cases h : parse k s with
    | error e => exact ⟨e, rfl⟩
    | ok a =>
      obtain ⟨core, hcore, hspells⟩ := parse_eq_ok_iff.1 h
      exact absurd hspells (hs core _ hcore)

end Planning.Score
