import Planning.Fault

/-!
# Dynamic values

The tuples that flow through a constraint graph, the keys that group and join them and the fields of a
dynamic entity are values: null, truth values, integers, real numbers, texts and lists of values. Values
are totally ordered, first by sort in the order just given and then within the sort; lists are compared
element by element. `compare_eq_eq_iff` says that only equal values compare as equal.
-/

namespace Planning

/-- A dynamic value. A real number is given by its bits. -/
inductive Value where
  /-- No value. -/
  | null
  /-- A truth value. -/
  | bool (b : Bool)
  /-- An integer. -/
  | int (n : Int)
  /-- A real number in double precision. -/
  | real (bits : UInt64)
  /-- A text. -/
  | text (s : String)
  /-- A list of values. -/
  | list (vs : List Value)
deriving Repr, Inhabited

namespace Value

/-- The place of the sort of a value in the order of sorts. -/
def sort : Value → Nat
  | null => 0
  | bool _ => 1
  | int _ => 2
  | real _ => 3
  | text _ => 4
  | list _ => 5

/-- The number whose order is the order of real numbers: negative ones are mirrored. -/
def realKey (bits : UInt64) : Int :=
  if bits < 0x8000000000000000 then (bits.toNat : Int) else 0x7FFFFFFFFFFFFFFF - (bits.toNat : Int)

theorem realKey_inj {a b : UInt64} (h : realKey a = realKey b) : a = b := by
  unfold realKey at h
  have ha := a.toNat_lt
  have hb := b.toNat_lt
  simp only [UInt64.lt_iff_toNat_lt] at h
  have : (0x8000000000000000 : UInt64).toNat = 9223372036854775808 := rfl
  rw [this] at h
  apply UInt64.toNat_inj.1
  split at h <;> split at h <;> omega

mutual

/-- The order of values. -/
def cmp : Value → Value → Ordering
  | bool a, bool b => compare a b
  | int a, int b => compare a b
  | real a, real b => compare (realKey a) (realKey b)
  | text a, text b => compare a b
  | list as, list bs => cmpList as bs
  | a, b => compare a.sort b.sort

/-- The order of lists of values. -/
def cmpList : List Value → List Value → Ordering
  | [], [] => .eq
  | [], _ :: _ => .lt
  | _ :: _, [] => .gt
  | a :: as, b :: bs => (cmp a b).then (cmpList as bs)

end

instance : Ord Value := ⟨cmp⟩

instance : LT Value := ltOfOrd
instance : LE Value := leOfOrd

mutual

theorem cmp_eq_eq : (a b : Value) → (cmp a b = .eq ↔ a = b)
  | null, b => by cases b <;> simp [cmp, sort, compare, compareOfLessAndEq]
  | bool a, b => by cases b <;> simp [cmp, sort]
  | int a, b => by cases b <;> simp [cmp, sort]
  | real a, b => by
    cases b
    case real b =>
      simp only [cmp, Std.LawfulEqCmp.compare_eq_iff_eq, real.injEq]
      exact ⟨realKey_inj, fun h => h ▸ rfl⟩
    all_goals simp [cmp, sort]
  | text a, b => by cases b <;> simp [cmp, sort]
  | list as, b => by
    cases b
    case list bs =>
      simp only [cmp, list.injEq]
      exact cmpList_eq_eq as bs
    all_goals simp [cmp, sort]

theorem cmpList_eq_eq : (as bs : List Value) → (cmpList as bs = .eq ↔ as = bs)
  | [], [] => by simp [cmpList]
  | [], b :: bs => by simp [cmpList]
  | a :: as, [] => by simp [cmpList]
  | a :: as, b :: bs => by
    simp only [cmpList, Ordering.then_eq_eq, List.cons.injEq]
    exact and_congr (cmp_eq_eq a b) (cmpList_eq_eq as bs)

end

/-- Only equal values compare as equal. -/
theorem compare_eq_eq_iff {a b : Value} : compare a b = .eq ↔ a = b := cmp_eq_eq a b

instance : DecidableEq Value := fun a b =>
  decidable_of_iff (compare a b = .eq) compare_eq_eq_iff

/-- The integer that a value counts for: an integer itself, a truth value 0 or 1, a list its length, and
anything else 0. -/
def toInt : Value → Int
  | int n => n
  | bool b => if b then 1 else 0
  | list vs => vs.length
  | _ => 0

/-- A value holds unless it is null, false or the integer 0. -/
def holds : Value → Bool
  | null => false
  | bool b => b
  | int n => n ≠ 0
  | _ => true

/-- The element of a list at an index, and null where there is none. -/
def at? (v : Value) (i : Nat) : Value :=
  match v with
  | list vs => vs[i]?.getD null
  | _ => null

/-- The elements of a list; other values have none. -/
def items : Value → List Value
  | list vs => vs
  | _ => []

/-- The pair of two values as a list. -/
def pair (a b : Value) : Value := list [a, b]

/-- The value of an optional one, null if there is none. -/
def ofOption : Option Value → Value
  | some v => v
  | none => null

/-- The integer of a number of things. -/
def ofNat (n : Nat) : Value := int n

end Value

end Planning
