import Planning.Fault

/-!
# Random numbers

A generator turns a seed into a stream of words, a block of sixteen at a time. From the words come numbers below a
bound, real numbers between zero and one, and shuffled lists.
-/

/-!
## Key stream blocks

A block is sixteen words made from a key and a counter: four rounds, each of which mixes the columns and the
diagonals of a square of words twice, and the words of the start added at the end.
-/

namespace Planning.Random

/-- Sixteen words, read as a square of four rows. -/
abbrev Square := Vector UInt32 16

/-- A word rotated to the left. -/
def rotate (x : UInt32) (n : UInt32) : UInt32 := (x <<< n) ||| (x >>> (32 - n))

/-- Four words of the square are mixed. -/
def quarter (s : Square) (a b c d : Fin 16) : Square :=
  let s := s.set a (s[a] + s[b])
  let s := s.set d (rotate (s[d] ^^^ s[a]) 16)
  let s := s.set c (s[c] + s[d])
  let s := s.set b (rotate (s[b] ^^^ s[c]) 12)
  let s := s.set a (s[a] + s[b])
  let s := s.set d (rotate (s[d] ^^^ s[a]) 8)
  let s := s.set c (s[c] + s[d])
  s.set b (rotate (s[b] ^^^ s[c]) 7)

/-- The columns are mixed, then the diagonals. -/
def doubleRound (s : Square) : Square :=
  let s := quarter s 0 4 8 12
  let s := quarter s 1 5 9 13
  let s := quarter s 2 6 10 14
  let s := quarter s 3 7 11 15
  let s := quarter s 0 5 10 15
  let s := quarter s 1 6 11 12
  let s := quarter s 2 7 8 13
  quarter s 3 4 9 14

/-- The square that a block starts from: four constants, the key, the counter and zeros. -/
def start (key : Vector UInt32 8) (counter : UInt64) : Square :=
  (#v[0x61707865, 0x3320646e, 0x79622d32, 0x6b206574] : Vector UInt32 4) ++ key ++
    (#v[counter.toUInt32, (counter >>> 32).toUInt32, 0, 0] : Vector UInt32 4)

/-- The block of a key at a counter. -/
def block (key : Vector UInt32 8) (counter : UInt64) : Square :=
  let s := start key counter
  let t := doubleRound (doubleRound (doubleRound (doubleRound s)))
  t.zipWith (· + ·) s

end Planning.Random

/-!
## Random numbers

A generator turns a seed into a stream of words. From the words come numbers below a bound, real numbers
between zero and one, and shuffled lists; each draw takes words from the stream in order, so a run with one
seed is always the same.
-/

namespace Planning

/-- A stream of words: what is left of the current block, and what makes the next ones. -/
structure Generator where
  /-- The key of all blocks. -/
  key : Vector UInt32 8
  /-- The counter of the next block. -/
  counter : UInt64 := 0
  /-- The words of the current block that were not drawn yet. -/
  pending : List UInt32 := []

namespace Generator

/-- One step of the sequence that spreads a seed. -/
def spread (state : UInt64) : UInt64 := state * 6364136223846793005 + 11634580027462260723

/-- The word of a state of that sequence. -/
def spreadWord (state : UInt64) : UInt32 :=
  let x := (((state >>> 18) ^^^ state) >>> 27).toUInt32
  let n := (state >>> 59).toUInt32
  if n = 0 then x else (x >>> n) ||| (x <<< (32 - n))

/-- The words spread from a seed. -/
def spreadWords (state : UInt64) : Nat → List UInt32
  | 0 => []
  | n + 1 => spreadWord (spread state) :: spreadWords (spread state) n

theorem length_spreadWords (state : UInt64) (n : Nat) : (spreadWords state n).length = n := by
  induction n generalizing state with
  | zero => rfl
  | succ n ih => simp [spreadWords, ih]

/-- The generator of a seed. -/
def ofSeed (seed : UInt64) : Generator where
  key := ⟨(spreadWords seed 8).toArray, by simp [length_spreadWords]⟩

/-- A computation that draws from the stream. -/
abbrev Draw := StateT Generator Checked

/-- The next word. -/
def word : Draw UInt32 := fun g =>
  match g.pending with
  | w :: ws => .ok (w, { g with pending := ws })
  | [] =>
    let b := (Random.block g.key g.counter).toList
    .ok (b.headD 0, { g with counter := g.counter + 1, pending := b.drop 1 })

/-- The next two words, the lower half first. -/
def doubleWord : Draw UInt64 := do
  let low ← word
  let high ← word
  return low.toUInt64 ||| (high.toUInt64 <<< 32)

/-- A number below a bound that fits a word. A word is scaled to the bound; where the part that is cut off
could tip the result, a second word decides. -/
def below (n : Nat) : Draw Nat := do
  let m := (← word).toNat * n
  let result := m / Nat.pow 2 32
  let low := m % Nat.pow 2 32
  if (Nat.pow 2 32 - n) % Nat.pow 2 32 < low then
    let next := (← word).toNat * n / Nat.pow 2 32
    return if Nat.pow 2 32 ≤ low + next then result + 1 else result
  else return result

/-- A real number from zero up to one. -/
def unitReal : Draw Float := do
  let x ← doubleWord
  return (x >>> 11).toNat.toFloat.scaleB (-53)

/-- The product of as many numbers from a start on as fit a word, and their count. -/
def chunkBound (product next count : Nat) : Nat → Nat × Nat
  | 0 => (product, count)
  | fuel + 1 =>
    if product * next < Nat.pow 2 32 then chunkBound (product * next) (next + 1) (count + 1) fuel
    else (product, count)

/-- Indices that are still to be taken from one drawn number. -/
structure Chunk where
  /-- What is left of the number. -/
  value : Nat := 0
  /-- How many indices are left in it. -/
  left : Nat := 0

/-- An index up to and including a position. -/
def nextIndex (position : Nat) (c : Chunk) : Draw (Nat × Chunk) := do
  let n := position + 1
  let c ←
    if c.left = 0 then
      let (bound, count) := chunkBound n (n + 1) 1 32
      pure ⟨← below bound, count⟩
    else pure c
  if c.left = 1 then return (c.value, ⟨c.value, 0⟩)
  return (c.value % n, ⟨c.value / n, c.left - 1⟩)

/-- Each place from a position on is exchanged with a random one up to it. -/
def shuffleFrom {α : Type} (position : Nat) (c : Chunk) (xs : Array α) : Nat → Draw (Array α)
  | 0 => return xs
  | fuel + 1 => do
    let (i, c) ← nextIndex position c
    shuffleFrom (position + 1) c (xs.swapIfInBounds position i) fuel

/-- The members in random order. -/
def shuffle {α : Type} (l : List α) : Draw (List α) := do
  if l.length ≤ 1 then return l
  return (← shuffleFrom 1 {} l.toArray (l.length - 1)).toList

end Generator

end Planning
