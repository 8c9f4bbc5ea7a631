import Planning.Fault

/-!
# Blank characters

A character is blank when it has the `White_Space` property of the Unicode character database. Texts are
trimmed of blank characters before numbers and scores are read from them.
-/

namespace Planning.Text

/-- The closed ranges of code points with the `White_Space` property. -/
def blankRanges : List (Nat × Nat) :=
  [(0x9, 0xD), (0x20, 0x20), (0x85, 0x85), (0xA0, 0xA0), (0x1680, 0x1680), (0x2000, 0x200A),
   (0x2028, 0x2029), (0x202F, 0x202F), (0x205F, 0x205F), (0x3000, 0x3000)]

/-- The character is blank. -/
def isBlank (c : Char) : Bool :=
  blankRanges.any fun r => decide (r.1 ≤ c.toNat) && decide (c.toNat ≤ r.2)

theorem isBlank_of_isWhitespace {c : Char} (h : c.isWhitespace = true) : isBlank c = true := by
  have h' : c = ' ' ∨ c = '\t' ∨ c = '\r' ∨ c = '\n' := by
    simpa [Char.isWhitespace, or_assoc] using h
  rcases h' with rfl | rfl | rfl | rfl <;> decide

/-- The text without the blank characters at its start and at its end. -/
def trim (cs : List Char) : List Char :=
  ((cs.dropWhile isBlank).reverse.dropWhile isBlank).reverse

/-- A text that starts and ends with characters that are not blank is already trimmed. -/
theorem trim_eq_self {cs : List Char} (hs : ∀ c ∈ cs.head?, isBlank c = false)
    (he : ∀ c ∈ cs.getLast?, isBlank c = false) : trim cs = cs := by
  have h1 : cs.dropWhile isBlank = cs := by
    cases cs with
    | nil => rfl
    | cons c cs => simp [hs c rfl]
  have h2 : cs.reverse.dropWhile isBlank = cs.reverse := by
    cases h : cs.reverse with
    | nil => rfl
    | cons c rest =>
      have : c ∈ cs.getLast? := by
        rw [← List.head?_reverse, h]; rfl
      simp [he c this]
  rw [trim, h1, h2, List.reverse_reverse]

end Planning.Text

/-!
# Integers as text

An integer is written in decimal with a leading minus sign if it is negative. It is read from an optional
sign and decimal digits, from left to right, and only if it stays in bounds; `readInteger_integer` says
that reading gives back what was written.
-/

namespace Planning.Text

/-- The decimal text of an integer. -/
def integer (n : Int) : List Char :=
  if n < 0 then '-' :: Nat.toDigits 10 n.natAbs else Nat.toDigits 10 n.natAbs

/-- Why a text is no integer. -/
inductive IntegerError where
  /-- The text is empty. -/
  | empty
  /-- A character is no digit, or there is only a sign. -/
  | invalidDigit
  /-- The number exceeds the greatest one. -/
  | tooLarge
  /-- The number is below the least one. -/
  | tooSmall
deriving DecidableEq, Repr

/-- The wording of the cause. -/
def IntegerError.message : IntegerError → String
  | empty => "cannot parse integer from empty string"
  | invalidDigit => "invalid digit found in string"
  | tooLarge => "number too large to fit in target type"
  | tooSmall => "number too small to fit in target type"

/-- The value of a decimal digit. -/
def digitValue (c : Char) : Nat := c.toNat - '0'.toNat

/-- Digits read from left to right onto a number that grows away from zero. -/
def readDigits (negative : Bool) : Int → List Char → Except IntegerError Int
  | n, [] => .ok n
  | n, c :: cs =>
    if c.isDigit then
      let next := if negative then n * 10 - digitValue c else n * 10 + digitValue c
      if InBounds next then readDigits negative next cs
      else .error (if negative then .tooSmall else .tooLarge)
    else .error .invalidDigit

/-- The integer that a text denotes. -/
def readInteger : List Char → Except IntegerError Int
  | [] => .error .empty
  | ['-'] => .error .invalidDigit
  | ['+'] => .error .invalidDigit
  | '-' :: cs => readDigits true 0 cs
  | '+' :: cs => readDigits false 0 cs
  | cs => readDigits false 0 cs

/-- The number of decimal digits. -/
def readCount : List Char → Option Nat
  | [] => none
  | cs =>
    let n := Nat.ofDigitChars 10 cs 0
    if cs.all Char.isDigit && decide (n ≤ maxCount) then some n else none

/-- The natural number that a text denotes; it may have a plus sign. -/
def count? (s : String) : Option Nat :=
  match s.toList with
  | '+' :: cs => readCount cs
  | cs => readCount cs

theorem readDigits_eq_ok_of_inBounds (negative : Bool) (cs : List Char)
    (hd : ∀ c ∈ cs, c.isDigit = true) (a : Nat)
    (hb : InBounds (if negative then -(Nat.ofDigitChars 10 cs a : Int)
      else (Nat.ofDigitChars 10 cs a : Int))) :
    readDigits negative (if negative then -(a : Int) else a) cs =
      .ok (if negative then -(Nat.ofDigitChars 10 cs a : Int) else Nat.ofDigitChars 10 cs a) := by
  induction cs generalizing a with
  | nil => simp [readDigits]
  | cons c cs ih =>
    have hc : c.isDigit = true := hd c (by simp)
    rw [Nat.ofDigitChars_cons] at hb ⊢
    have hle : ∀ (l : List Char) (m : Nat), m ≤ Nat.ofDigitChars 10 l m := by
      intro l
      induction l with
      | nil => intro m; simp
      | cons d l ihl =>
        intro m
        rw [Nat.ofDigitChars_cons]
        exact Nat.le_trans (by omega) (ihl _)
    have hstep := hle cs (10 * a + (c.toNat - '0'.toNat))
    have ih' := ih (fun d hd' => hd d (by simp [hd'])) (10 * a + (c.toNat - '0'.toNat)) hb
    simp only [readDigits, hc, if_true, digitValue]
    cases negative with
    | true =>
      simp only [if_true] at hb ih' ⊢
      have he : -(a : Int) * 10 - ((c.toNat - '0'.toNat : Nat) : Int) =
          -((10 * a + (c.toNat - '0'.toNat) : Nat) : Int) := by omega
      rw [he, if_pos, ih']
      unfold InBounds minBound maxBound at *
      omega
    | false =>
      simp only [Bool.false_eq_true, if_false] at hb ih' ⊢
      have he : (a : Int) * 10 + ((c.toNat - '0'.toNat : Nat) : Int) =
          ((10 * a + (c.toNat - '0'.toNat) : Nat) : Int) := by omega
      rw [he, if_pos, ih']
      unfold InBounds minBound maxBound at *
      omega

/-- Reading the decimal text of a number in bounds gives the number. -/
theorem readInteger_integer {n : Int} (h : InBounds n) : readInteger (integer n) = .ok n := by
  have hdig : ∀ c ∈ Nat.toDigits 10 n.natAbs, c.isDigit = true :=
    fun c hc => Nat.isDigit_of_mem_toDigits (by decide) (by decide) hc
  have hne : Nat.toDigits 10 n.natAbs ≠ [] := Nat.toDigits_ne_nil
  have hof : Nat.ofDigitChars 10 (Nat.toDigits 10 n.natAbs) 0 = n.natAbs :=
    Nat.ofDigitChars_ten_toDigits
  unfold integer
  by_cases hn : n < 0
  · rw [if_pos hn]
    have key := readDigits_eq_ok_of_inBounds true (Nat.toDigits 10 n.natAbs) hdig 0
      (by rw [hof]; simpa [Int.ofNat_natAbs_of_nonpos (Int.le_of_lt hn)] using h)
    rw [hof] at key
    have hrd : readInteger ('-' :: Nat.toDigits 10 n.natAbs) =
        readDigits true 0 (Nat.toDigits 10 n.natAbs) := by
      cases hds : Nat.toDigits 10 n.natAbs with
      | nil => exact absurd hds hne
      | cons c cs => rfl
    rw [hrd]
    simp only [if_true] at key
    have : -((0 : Nat) : Int) = 0 := rfl
    rw [this] at key
    rw [key]
    congr 1
    omega
  · rw [if_neg hn]
    have key := readDigits_eq_ok_of_inBounds false (Nat.toDigits 10 n.natAbs) hdig 0
      (by
        rw [hof]
        have : (n.natAbs : Int) = n := by omega
        simpa [this] using h)
    rw [hof] at key
    have hrd : readInteger (Nat.toDigits 10 n.natAbs) =
        readDigits false 0 (Nat.toDigits 10 n.natAbs) := by
      cases hds : Nat.toDigits 10 n.natAbs with
      | nil => exact absurd hds hne
      | cons c cs =>
        have hc : c.isDigit = true := hdig c (by simp [hds])
        have h1 : c ≠ '-' := by rintro rfl; exact absurd hc (by decide)
        have h2 : c ≠ '+' := by rintro rfl; exact absurd hc (by decide)
        unfold readInteger
        split <;> simp_all
    rw [hrd]
    simp only [Bool.false_eq_true, if_false] at key
    have : ((0 : Nat) : Int) = 0 := rfl
    rw [this] at key
    rw [key]
    congr 1
    omega

end Planning.Text
