/-!
# Decimals

A real number is written with as few digits as tell it from the others.
-/

/-!
## Shortest decimals

A number in double precision stands for all reals that round to it. `shortest` gives the decimal with the
fewest digits among them, and of several the one nearest to the number. All comparisons are made on whole
numbers, so nothing is rounded on the way.
-/

namespace Planning

/-- Digits and the power of ten by which they are scaled. -/
structure Decimal where
  /-- The digits as a number. -/
  digits : Nat
  /-- The power of ten. -/
  exponent : Int
deriving DecidableEq, Repr

namespace Decimal

/-- The reals that round to a positive number, on a common denominator. -/
structure Rounding where
  /-- The number. -/
  value : Nat
  /-- The lower end. -/
  low : Nat
  /-- The upper end. -/
  high : Nat
  /-- The common denominator. -/
  unit : Nat
  /-- The ends round to the number as well. -/
  closed : Bool

namespace Rounding

/-- The reals that round to the number with these bits below the sign. The gap below a power of two is half
the gap above it. -/
def ofBits (bits : Nat) : Rounding :=
  let fraction := bits % Nat.pow 2 52
  let scale := bits / Nat.pow 2 52
  let m := if scale = 0 then fraction else Nat.pow 2 52 + fraction
  let below := if fraction = 0 ∧ 1 < scale then 1 else 2
  let up := Nat.pow 2 (max scale 1 - 1075)
  { value := 4 * m * up
    low := (4 * m - below) * up
    high := (4 * m + 2) * up
    unit := 4 * Nat.pow 2 (1075 - max scale 1)
    closed := m % 2 == 0 }

/-- The real `n / d` rounds to the number. -/
def holds (r : Rounding) (n d : Nat) : Bool :=
  let low := r.low * d
  let high := r.high * d
  let x := n * r.unit
  if r.closed then decide (low ≤ x) && decide (x ≤ high) else decide (low < x) && decide (x < high)

/-- The number is below a power of ten. -/
def isBelow (r : Rounding) (power : Int) : Bool :=
  decide (r.value * Nat.pow 10 (-power).toNat < r.unit * Nat.pow 10 power.toNat)

/-- The least power of ten, from a start on, that is above the number. -/
def magnitude (r : Rounding) (start : Int) : Nat → Int
  | 0 => start
  | fuel + 1 => if r.isBelow start then start else r.magnitude (start + 1) fuel

/-- The nearer of the two neighbours of the number on the grid of a power of ten, if it rounds to it. -/
def onGrid (r : Rounding) (power : Int) : Option Decimal :=
  let up := Nat.pow 10 power.toNat
  let down := Nat.pow 10 (-power).toNat
  let n := r.value * down
  let d := r.unit * up
  let a := n / d
  let first := if 2 * (n - a * d) ≤ d then a else a + 1
  let second := if first = a then a + 1 else a
  if r.holds (first * up) down then some ⟨first, power⟩
  else if r.holds (second * up) down then some ⟨second, power⟩
  else none

/-- The first grid with a decimal that rounds to the number, the widest first. -/
def firstGrid (r : Rounding) (power : Int) : Nat → Decimal
  | 0 => ⟨0, 0⟩
  | fuel + 1 =>
    match r.onGrid power with
    | some d => d
    | none => r.firstGrid (power - 1) fuel

end Rounding

/-- The digits without zeros at their end. -/
def strip (d : Decimal) : Nat → Decimal
  | 0 => d
  | fuel + 1 =>
    if d.digits ≠ 0 ∧ d.digits % 10 = 0 then strip ⟨d.digits / 10, d.exponent + 1⟩ fuel else d

/-- The shortest decimal of the positive number with these bits. -/
def shortest (bits : Nat) : Decimal :=
  let r := Rounding.ofBits bits
  (r.firstGrid (r.magnitude (-330) 650 - 1) 18).strip 20

end Decimal

end Planning

/-!
## Real numbers as text

A real number is written with its shortest digits. The plain text is always positional and has no point
when nothing follows it; the exact text always has a point, and very large and very small numbers have an
exponent.
-/

namespace Planning.Decimal

/-- The digits as characters. -/
def digitText (d : Decimal) : List Char := Nat.toDigits 10 d.digits

/-- The number of digits before the point. -/
def pointAt (d : Decimal) : Int := d.digitText.length + d.exponent

/-- The digits before the point and those behind it. -/
def positional (d : Decimal) : List Char × List Char :=
  let cs := d.digitText
  if 0 ≤ d.exponent then (cs ++ List.replicate d.exponent.toNat '0', [])
  else if 0 < d.pointAt then cs.splitAt d.pointAt.toNat
  else (['0'], List.replicate (-d.pointAt).toNat '0' ++ cs)

/-- The positional text. -/
def plain (d : Decimal) : String :=
  match d.positional with
  | (whole, []) => String.ofList whole
  | (whole, fraction) => String.ofList (whole ++ '.' :: fraction)

/-- The text with an exponent, a point after the first of several digits. -/
def scientific (d : Decimal) : String :=
  let mantissa :=
    match d.digitText with
    | [] => []
    | [c] => [c]
    | c :: cs => c :: '.' :: cs
  String.ofList mantissa ++ s!"e{d.pointAt - 1}"

/-- The exact text: an exponent below one ten-thousandth and from ten to the sixteenth on. -/
def exact (d : Decimal) : String :=
  if d.digits ≠ 0 ∧ (d.pointAt < -3 ∨ 16 < d.pointAt) then d.scientific
  else
    match d.positional with
    | (whole, []) => String.ofList whole ++ ".0"
    | _ => d.plain

/-- The text of a real number, given that of a decimal. -/
def ofReal (text : Decimal → String) (x : Float) : String :=
  let bits := x.toBits.toNat
  let magnitude := bits % Nat.pow 2 63
  if x.isNaN then "NaN"
  else
    let sign := if bits / Nat.pow 2 63 = 1 then "-" else ""
    let body :=
      if magnitude = 2047 * Nat.pow 2 52 then "inf"
      else if magnitude = 0 then text ⟨0, 0⟩
      else text (shortest magnitude)
    sign ++ body

/-- The plain text of a real number. -/
def plainText (x : Float) : String := ofReal plain x

/-- The exact text of a real number. -/
def exactText (x : Float) : String := ofReal exact x

end Planning.Decimal

/-!
## Decimals with fixed places

A number is rounded to the nearest decimal with a fixed number of places, and of two that are equally near
to the one with an even last digit.
-/

namespace Planning.Decimal

/-- The whole number nearest to `n / d`, of two the even one. -/
def nearest (n d : Nat) : Nat :=
  let q := n / d
  let rest := n % d
  if 2 * rest < d then q
  else if d < 2 * rest then q + 1
  else q + q % 2

/-- The nearest whole number is at most a half away. -/
theorem nearest_bounds (n d : Nat) (h : 0 < d) :
    2 * (nearest n d) * d ≤ 2 * n + d ∧ 2 * n ≤ 2 * (nearest n d) * d + d := by
  have hn := Nat.div_add_mod n d
  have hlt := Nat.mod_lt n h
  have hq : 2 * (n / d) * d = 2 * (d * (n / d)) := by rw [Nat.mul_assoc, Nat.mul_comm d]
  have hs : 2 * (n / d + 1) * d = 2 * (d * (n / d)) + 2 * d := by
    rw [Nat.mul_add, Nat.add_mul, hq]
  unfold nearest
  dsimp only
  split
  · omega
  · split
    · omega
    · rcases Nat.mod_two_eq_zero_or_one (n / d) with h0 | h0 <;> rw [h0]
      · rw [Nat.add_zero]
        omega
      · omega

/-- The text of a non-negative number with two places. -/
def hundredths (x : Float) : String :=
  let r := Rounding.ofBits (x.toBits.toNat % Nat.pow 2 63)
  let n := nearest (r.value * 100) r.unit
  s!"{n / 100}.{n % 100 / 10}{n % 10}"

end Planning.Decimal
