import Planning.Fault

/-!
# Scores

A score is a fixed number of integer levels, the most significant first. Its kind says how many levels
there are and which of them are hard. Scores are compared level by level, added level by level, and are
feasible when no hard level is negative. Every level fits 64 signed bits, so each arithmetic operation
either has an exact result or faults.
-/

namespace Planning

/-- What a level of a score stands for. -/
inductive ScoreLevel where
  /-- Broken hard constraints make a solution infeasible. -/
  | hard
  /-- Counts more than every soft level. -/
  | medium
  /-- Ranks feasible solutions. -/
  | soft
deriving DecidableEq, Repr

/-- The name of a level class. -/
def ScoreLevel.name : ScoreLevel → String
  | .hard => "Hard"
  | .medium => "Medium"
  | .soft => "Soft"

/-- The shape of a score. -/
inductive ScoreKind where
  /-- One hard level. -/
  | simple
  /-- One hard level above one soft level. -/
  | hardSoft
  /-- Hard above medium above soft. -/
  | hardMediumSoft
  /-- Any number of hard levels above any number of soft levels. -/
  | bendable (hard soft : Nat)
deriving DecidableEq, Repr

namespace ScoreKind

/-- The class of each level, most significant first. -/
def labels : ScoreKind → List ScoreLevel
  | simple => [.hard]
  | hardSoft => [.hard, .soft]
  | hardMediumSoft => [.hard, .medium, .soft]
  | bendable h s => List.replicate h .hard ++ List.replicate s .soft

/-- The number of levels. -/
def size (k : ScoreKind) : Nat := k.labels.length

/-- The number of leading hard levels. -/
def hardSize : ScoreKind → Nat
  | bendable h _ => h
  | _ => 1

@[simp] theorem size_bendable (h s : Nat) : (bendable h s).size = h + s := by
  simp [size, labels]

theorem hardSize_le_size (k : ScoreKind) : k.hardSize ≤ k.size := by
  cases k <;> simp [hardSize, size, labels]

/-- The name of the kind as messages give it. -/
def typeName : ScoreKind → String
  | simple => "SimpleScore"
  | hardSoft => "HardSoftScore"
  | hardMediumSoft => "HardMediumSoftScore"
  | bendable h s => s!"BendableScore<{h}, {s}>"

/-- The class of the level at an index; asking beyond the last level breaks the contract. -/
def label (k : ScoreKind) (i : Nat) : Checked ScoreLevel :=
  match k.labels[i]? with
  | some l => .ok l
  | none => .error (.broken s!"{k.typeName} has {k.size} levels, got index {i}")

end ScoreKind

/-- A level: an integer that fits 64 signed bits. -/
structure Level where
  /-- The number. -/
  val : Int
  /-- The number is in bounds. -/
  inBounds : InBounds val
deriving DecidableEq

namespace Level

@[ext] theorem ext {a b : Level} (h : a.val = b.val) : a = b := by
  cases a; cases b; simp_all

/-- The level of a number, if it is in bounds. -/
def ofInt (n : Int) : Checked Level :=
  if h : InBounds n then .ok ⟨n, h⟩ else .error .overflow

theorem ofInt_eq_ok_iff {n : Int} {a : Level} : ofInt n = .ok a ↔ a.val = n := by
  unfold ofInt
  split
  · constructor
    · intro h; cases h; rfl
    · intro h; subst h; rfl
  · rename_i h
    constructor
    · intro h'; cases h'
    · intro h'; subst h'; exact absurd a.inBounds h

/-- The level zero. -/
def zero : Level := ⟨0, by decide⟩

/-- The level one. -/
def one : Level := ⟨1, by decide⟩

/-- The level nearest to a number: numbers beyond the bounds go to the bound. -/
def clamp (n : Int) : Level :=
  if h : InBounds n then ⟨n, h⟩
  else if n < 0 then ⟨minBound, by decide⟩ else ⟨maxBound, by decide⟩

instance : Inhabited Level := ⟨zero⟩

end Level

/-- A score of a kind. -/
structure Score (k : ScoreKind) where
  /-- The levels, most significant first. -/
  levels : List Level
  /-- There are as many levels as the kind has. -/
  length_levels : levels.length = k.size
deriving DecidableEq

namespace Score

variable {k : ScoreKind}

@[ext] theorem ext {a b : Score k} (h : a.levels = b.levels) : a = b := by
  cases a; cases b; simp_all

/-- The level numbers, most significant first. -/
def toList (a : Score k) : List Int := a.levels.map Level.val

@[simp] theorem length_toList (a : Score k) : a.toList.length = k.size := by
  simp [toList, a.length_levels]

theorem toList_inj {a b : Score k} : a.toList = b.toList ↔ a = b := by
  constructor
  · intro h
    refine ext ?_
    exact (List.map_inj_right fun _ _ h => Level.ext h).1 h
  · rintro rfl; rfl

/-- The score with the given levels, if there are as many as the kind has. -/
def ofLevels? (k : ScoreKind) (levels : List Level) : Option (Score k) :=
  if h : levels.length = k.size then some ⟨levels, h⟩ else none

/-- The message for a wrong number of levels. -/
def wrongCount (k : ScoreKind) (got : Nat) : String :=
  match k with
  | .bendable _ _ => s!"{k.typeName} requires exactly {k.size} levels"
  | _ => s!"{k.typeName} requires exactly {k.size} levels, got {got}"

/-- The score with the given level numbers; a wrong number of levels breaks the contract. -/
def ofList (k : ScoreKind) (numbers : List Int) : Checked (Score k) := do
  if numbers.length ≠ k.size then throw (.broken (wrongCount k numbers.length))
  let levels ← numbers.mapM Level.ofInt
  if h : levels.length = k.size then return ⟨levels, h⟩
  else throw .outOfRange

/-- The score whose levels are all zero. -/
def zero : Score k := ⟨List.replicate k.size .zero, by simp⟩

instance : Inhabited (Score k) := ⟨zero⟩

/-- The score that is one at an index and zero elsewhere. -/
def unit (i : Nat) : Score k := ⟨(List.replicate k.size Level.zero).set i .one, by simp⟩

/-- The score that is one at a hard level and zero elsewhere. -/
def oneHard (h s i : Nat) : Checked (Score (.bendable h s)) :=
  if i < h then .ok (unit i) else .error .outOfRange

/-- The score that is one at a soft level and zero elsewhere. -/
def oneSoft (h s i : Nat) : Checked (Score (.bendable h s)) :=
  if i < s then .ok (unit (h + i)) else .error .outOfRange

/-- The levels of a list of numbers, if all of them are in bounds. -/
def levelsOf : List Int → Checked (List Level)
  | [] => .ok []
  | n :: ns => do
    let a ← Level.ofInt n
    let rest ← levelsOf ns
    return a :: rest

theorem levelsOf_eq_ok_iff {ns : List Int} {ls : List Level} :
    levelsOf ns = .ok ls ↔ ls.map Level.val = ns := by
  induction ns generalizing ls with
  | nil => cases ls <;> simp [levelsOf]
  | cons n ns ih =>
    simp only [levelsOf, bind, Except.bind, pure, Except.pure]
    cases ha : Level.ofInt n with
    | error f =>
      simp only [reduceCtorEq, false_iff]
      cases ls with
      | nil => simp
      | cons a rest =>
        intro h
        have : a.val = n := (List.cons.inj (by simpa using h)).1
        rw [Level.ofInt_eq_ok_iff.2 this] at ha
        cases ha
    | ok a =>
      have ha' := Level.ofInt_eq_ok_iff.1 ha
      cases hr : levelsOf ns with
      | error f =>
        simp only [reduceCtorEq, false_iff]
        cases ls with
        | nil => simp
        | cons b rest =>
          intro h
          have : rest.map Level.val = ns := (List.cons.inj (by simpa using h)).2
          rw [ih.2 this] at hr
          cases hr
      | ok rest =>
        have hr' := ih.1 hr
        simp only [Except.ok.injEq]
        constructor
        · rintro rfl; simp [ha', hr']
        · intro h
          cases ls with
          | nil => simp at h
          | cons b rest' =>
            simp only [List.map_cons, List.cons.injEq] at h
            have hb : a = b := Level.ext (by rw [ha', h.1])
            have := ih.2 h.2
            rw [hr] at this
            cases this
            rw [hb]

theorem length_levelsOf {ns : List Int} {ls : List Level} (h : levelsOf ns = .ok ls) :
    ls.length = ns.length := by
  rw [← levelsOf_eq_ok_iff.1 h, List.length_map]

/-- The score of level numbers that are as many as the kind has, unless one is out of bounds. -/
def ofNumbers (ns : List Int) (h : ns.length = k.size) : Checked (Score k) :=
  match hl : levelsOf ns with
  | .ok ls => .ok ⟨ls, by rw [length_levelsOf hl, h]⟩
  | .error f => .error f

theorem ofNumbers_eq_ok_iff {ns : List Int} {h : ns.length = k.size} {a : Score k} :
    ofNumbers ns h = .ok a ↔ a.toList = ns := by
  unfold ofNumbers
  split
  · rename_i ls hl
    have hv := levelsOf_eq_ok_iff.1 hl
    constructor
    · intro h'; cases h'; exact hv
    · intro h'
      congr 1
      refine toList_inj.1 ?_
      rw [h']; exact hv
  · rename_i f hl
    constructor
    · intro h'; cases h'
    · intro h'
      rw [levelsOf_eq_ok_iff.2 h'] at hl
      cases hl

/-- The sum, level by level. -/
def add (a b : Score k) : Checked (Score k) :=
  ofNumbers (List.zipWith (· + ·) a.toList b.toList) (by simp)

/-- The difference, level by level. -/
def sub (a b : Score k) : Checked (Score k) :=
  ofNumbers (List.zipWith (· - ·) a.toList b.toList) (by simp)

/-- The negation of every level. -/
def neg (a : Score k) : Checked (Score k) :=
  ofNumbers (a.toList.map (- ·)) (by simp)

/-- The absolute value of every level. -/
def abs (a : Score k) : Checked (Score k) :=
  ofNumbers (a.toList.map fun n => (n.natAbs : Int)) (by simp)

/-- Every level times an integer factor. -/
def scale (a : Score k) (factor : Int) : Checked (Score k) :=
  ofNumbers (a.toList.map (· * factor)) (by simp)

theorem add_eq_ok_iff {a b c : Score k} :
    a.add b = .ok c ↔ c.toList = List.zipWith (· + ·) a.toList b.toList := ofNumbers_eq_ok_iff

theorem sub_eq_ok_iff {a b c : Score k} :
    a.sub b = .ok c ↔ c.toList = List.zipWith (· - ·) a.toList b.toList := ofNumbers_eq_ok_iff

theorem neg_eq_ok_iff {a c : Score k} :
    a.neg = .ok c ↔ c.toList = a.toList.map (- ·) := ofNumbers_eq_ok_iff

theorem scale_eq_ok_iff {a c : Score k} {f : Int} :
    a.scale f = .ok c ↔ c.toList = a.toList.map (· * f) := ofNumbers_eq_ok_iff

/-- The level nearest to a real number: the nearest integer, a half going away from zero, numbers
beyond the bounds going to the bound, and an undefined number going to zero. -/
def roundLevel (x : Float) : Level := Level.clamp x.round.toInt64.toInt

/-- Every level times a real factor, each rounded. -/
def multiply (a : Score k) (factor : Float) : Score k :=
  ⟨a.levels.map fun l => roundLevel ((Int64.ofInt l.val).toFloat * factor), by
    simp [a.length_levels]⟩

/-- Every level divided by a real number, each rounded. -/
def divide (a : Score k) (divisor : Float) : Score k :=
  ⟨a.levels.map fun l => roundLevel ((Int64.ofInt l.val).toFloat / divisor), by
    simp [a.length_levels]⟩

/-- Level numbers compared by the first that differs. -/
def compareNumbers : List Int → List Int → Ordering
  | [], [] => .eq
  | [], _ :: _ => .lt
  | _ :: _, [] => .gt
  | a :: as, b :: bs => (compare a b).then (compareNumbers as bs)

instance : Ord (Score k) := ⟨fun a b => compareNumbers a.toList b.toList⟩

instance : LT (Score k) := ltOfOrd
instance : LE (Score k) := leOfOrd

/-- A score is better than another. -/
def beats (a b : Score k) : Bool := compare a b == .gt

/-- A score is no worse than another. -/
def reaches (a b : Score k) : Bool := compare a b != .lt

/-- The greater of two scores, the second when they are equal. -/
def max (a b : Score k) : Score k := if compare a b = .gt then a else b

/-- The hard levels. -/
def hardLevels (a : Score k) : List Int := a.toList.take k.hardSize

/-- The levels below the hard ones. -/
def softLevels (a : Score k) : List Int := a.toList.drop k.hardSize

/-- A score is feasible when no hard level is negative. -/
def Feasible (a : Score k) : Prop := ∀ n ∈ a.hardLevels, 0 ≤ n

instance (a : Score k) : Decidable a.Feasible :=
  inferInstanceAs (Decidable (∀ n ∈ a.hardLevels, 0 ≤ n))

/-- A score has hard impact when some hard level is not zero. -/
def HasHardImpact (a : Score k) : Prop := ∃ n ∈ a.hardLevels, n ≠ 0

instance (a : Score k) : Decidable a.HasHardImpact :=
  inferInstanceAs (Decidable (∃ n ∈ a.hardLevels, n ≠ 0))

end Score

end Planning
