import Planning.Fault

/-!
# Documents

A document is the tree of data that a settings file or an exchanged record denotes, whatever notation it was
written in: null, truth values, integers, real numbers, texts, lists and tables with named entries in the
order in which they were written. Some notations keep apart the integers that have a sign, and some have
tables whose keys are not all names.
-/

namespace Planning

/-- A tree of data. -/
inductive Document where
  /-- Nothing. -/
  | null
  /-- A truth value. -/
  | bool (b : Bool)
  /-- An integer. -/
  | integer (n : Int)
  /-- An integer that is written with a sign, or in a notation where every integer has one. -/
  | signed (n : Int)
  /-- A real number in double precision. -/
  | real (x : Float)
  /-- A text. -/
  | text (s : String)
  /-- A list. -/
  | list (items : List Document)
  /-- A table of named entries. -/
  | table (entries : List (String × Document))
  /-- A table whose keys are any documents. -/
  | keyed (entries : List (Document × Document))
deriving Inhabited

namespace Document

/-- The entry of a table with a name. -/
def lookup? (d : Document) (name : String) : Option Document :=
  match d with
  | table entries => entries.lookup name
  | _ => none

/-- The integer of a document that is one in bounds. -/
def integer? : Document → Option Int
  | integer n => if InBounds n then some n else none
  | signed n => if InBounds n then some n else none
  | _ => none

/-- The entry of a table with a name, null if there is none. -/
def get (d : Document) (name : String) : Document := (d.lookup? name).getD null

/-- The items of a list; other documents have none. -/
def items : Document → List Document
  | list items => items
  | _ => []

/-- The item of a list at an index, null if there is none. -/
def item (d : Document) (i : Nat) : Document := d.items[i]?.getD null

/-- A document as an integer; what is no number counts as zero. -/
def asInt : Document → Int
  | integer n => n
  | signed n => n
  | bool b => if b then 1 else 0
  | _ => 0

/-- A document as a natural number. -/
def asNat (d : Document) : Nat := d.asInt.toNat

/-- A document as a text; what is no text counts as empty. -/
def asText : Document → String
  | text s => s
  | _ => ""

/-- A document as a truth value; what is none counts as false. -/
def asBool : Document → Bool
  | bool b => b
  | _ => false

/-- A document as a real number; what is no number counts as zero. -/
def asReal : Document → Float
  | real x => x
  | integer n => if n < 0 then -(Float.ofNat n.natAbs) else Float.ofNat n.natAbs
  | signed n => if n < 0 then -(Float.ofNat n.natAbs) else Float.ofNat n.natAbs
  | _ => 0

/-- A part of a document that may be null. -/
def optional {α : Type} (f : Document → α) : Document → Option α
  | null => none
  | d => some (f d)

/-- The document of a part that may be missing. -/
def ofOption {α : Type} (f : α → Document) : Option α → Document
  | some a => f a
  | none => null

/-- The document of a natural number. -/
def nat (n : Nat) : Document := integer n

mutual

/-- The number of levels of a document. -/
def depth : Document → Nat
  | list items => depthOfItems items + 1
  | table entries => depthOfEntries entries + 1
  | keyed entries => depthOfPairs entries + 1
  | _ => 1

/-- The greatest number of levels of an item. -/
def depthOfItems : List Document → Nat
  | [] => 0
  | d :: ds => max (depth d) (depthOfItems ds)

/-- The greatest number of levels of an entry. -/
def depthOfEntries : List (String × Document) → Nat
  | [] => 0
  | (_, d) :: es => max (depth d) (depthOfEntries es)

/-- The greatest number of levels of a value with a key. -/
def depthOfPairs : List (Document × Document) → Nat
  | [] => 0
  | (_, d) :: es => max (depth d) (depthOfPairs es)

end

/-- The document of a list of texts. -/
def texts (l : List String) : Document := list (l.map text)

/-- The document of a list of natural numbers. -/
def nats (l : List Nat) : Document := list (l.map nat)

end Document

end Planning

/-!
## Readers

A reader takes a part from the front of a text and leaves the rest. Numbers are read from their digits.
-/

namespace Planning.Document

/-- A reader of a part of a text: what it denotes, and the rest of the text. -/
abbrev Reader (α : Type) := List Char → Option (α × List Char)

/-- The number that a hexadecimal digit denotes. -/
def hexValue? (c : Char) : Option Nat :=
  if '0' ≤ c ∧ c ≤ '9' then some (c.toNat - '0'.toNat)
  else if 'a' ≤ c ∧ c ≤ 'f' then some (c.toNat - 'a'.toNat + 10)
  else if 'A' ≤ c ∧ c ≤ 'F' then some (c.toNat - 'A'.toNat + 10)
  else none

/-- The number that decimal digits denote. -/
def digitsValue (cs : List Char) : Nat := cs.foldl (fun n c => n * 10 + (c.toNat - '0'.toNat)) 0

/-- The real number of digits with an exponent of ten. What lies far beyond all numbers in double precision,
or far below them, is not written out. -/
def scientific (digits : Nat) (exponent : Int) : Float :=
  let size := (Nat.toDigits 10 digits).length
  if digits = 0 ∨ exponent + size < -400 then 0
  else if 400 < exponent + size then 1 / 0
  else Float.ofScientific digits (decide (exponent < 0)) exponent.natAbs

/-- The character with a number, if there is one. -/
def charOf? (n : Nat) : Option Char := if n.isValidChar then some (Char.ofNat n) else none

/-- As many hexadecimal digits as are asked for, as a number. -/
def readHex (size : Nat) : Reader Nat := fun cs => do
  if cs.length < size then none
  let digits ← (cs.take size).mapM hexValue?
  return (digits.foldl (fun n x => n * 16 + x) 0, cs.drop size)

end Planning.Document
