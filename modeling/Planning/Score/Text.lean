import Planning.Score.Basic
import Planning.Text.Integer

/-!
# Scores as text

A score with named levels is written as its levels, each followed by its name, with slashes between
them: `-1hard/5soft`. A score with any number of levels is written as two bracketed lists:
`[0/3]hard/[-2]soft`. A simple score is its number. Reading accepts blanks around the whole text, around
each named level and around each bracketed level.
-/

namespace Planning

/-- The word that follows a level in text. -/
def ScoreLevel.word : ScoreLevel → String
  | .hard => "hard"
  | .medium => "medium"
  | .soft => "soft"

namespace Score

variable {k : ScoreKind}

/-- Level numbers with slashes between them. -/
def slashed (ns : List Int) : List Char :=
  List.intercalate ['/'] (ns.map Text.integer)

/-- A level with its name. -/
def namedLevel (l : ScoreLevel) (n : Int) : List Char := Text.integer n ++ l.word.toList

/-- The characters of the text of a score. -/
def chars (a : Score k) : List Char :=
  match k with
  | .simple => slashed a.toList
  | .bendable _ _ =>
    ['['] ++ slashed a.hardLevels ++ [']'] ++ "hard".toList ++ ['/'] ++
      ['['] ++ slashed a.softLevels ++ [']'] ++ "soft".toList
  | k => List.intercalate ['/'] (List.zipWith namedLevel k.labels a.toList)

/-- The text of a score. -/
def text (a : Score k) : String := String.ofList a.chars

/-- The text of a list of numbers in square brackets. -/
def bracketed (ns : List Int) : String :=
  "[" ++ String.intercalate ", " (ns.map fun n => String.ofList (Text.integer n)) ++ "]"

/-- The text that names the kind of the score and its levels. -/
def debugText (a : Score k) : String :=
  match k with
  | .bendable _ _ =>
    s!"BendableScore(hard: {bracketed a.hardLevels}, soft: {bracketed a.softLevels})"
  | k => k.typeName ++ "(" ++
    String.intercalate ", " (a.toList.map fun n => String.ofList (Text.integer n)) ++ ")"

/-- Why a text is no score. -/
inductive ParseError where
  /-- The text of a simple score is no number. -/
  | number (text : List Char) (cause : Text.IntegerError)
  /-- The number of parts is wrong. -/
  | parts (kind : ScoreKind) (text : List Char)
  /-- A part lacks the name of its level. -/
  | unnamed (level : ScoreLevel) (part : List Char)
  /-- A level is no number. -/
  | levelNumber (level : ScoreLevel) (digits : List Char) (cause : Text.IntegerError)
  /-- There is no hard part before a soft part. -/
  | layout (text : List Char)
  /-- A part is not a bracketed list followed by the name of its level. -/
  | brackets (level : ScoreLevel) (part : List Char)
  /-- A bracketed list has the wrong number of levels. -/
  | count (level : ScoreLevel) (expected got : Nat)
deriving DecidableEq, Repr

/-- The wording of the cause. -/
def ParseError.reason : ParseError → String
  | number text cause =>
    s!"invalid SimpleScore '{String.ofList text}': {cause.message}"
  | parts kind text =>
    s!"invalid {kind.typeName} '{String.ofList text}': expected {kind.size} parts separated by '/'"
  | unnamed level part =>
    s!"{level.word} part '{String.ofList part}' must end with '{level.word}'"
  | levelNumber level digits cause =>
    s!"invalid {level.word} level '{String.ofList digits}': {cause.message}"
  | layout text =>
    s!"invalid BendableScore '{String.ofList text}': expected '[..]hard/[..]soft'"
  | brackets level part =>
    s!"expected '[..]{level.word}', got '{String.ofList part}'"
  | count level expected got =>
    s!"expected {expected} {level.word} levels, got {got}"

/-- The message of the error. -/
def ParseError.message (e : ParseError) : String := s!"score parse error: {e.reason}"

/-- The number of a level, or the error of a text that is none. -/
def readLevel (level : ScoreLevel) (shown digits : List Char) : Except ParseError Int :=
  match Text.readInteger digits with
  | .ok n => .ok n
  | .error cause => .error (.levelNumber level shown cause)

/-- The numbers of named parts, one for each level of the kind. -/
def readNamed (kind : ScoreKind) (text : List Char) :
    List ScoreLevel → List (List Char) → Except ParseError (List Int)
  | [], [] => .ok []
  | [], _ :: _ => .error (.parts kind text)
  | _ :: _, [] => .error (.parts kind text)
  | level :: levels, part :: parts => do
    let part := Text.trim part
    match level.word.toList.isSuffixOf? part with
    | none => .error (.unnamed level part)
    | some digits =>
      let n ← readLevel level digits digits
      let rest ← readNamed kind text levels parts
      return n :: rest

/-- What stands between the brackets of a part that ends with the name of its level. -/
def insideBrackets? (level : ScoreLevel) (part : List Char) : Option (List Char) := do
  let bracketed ← level.word.toList.isSuffixOf? part
  let opened ← ['['].isPrefixOf? bracketed
  [']'].isSuffixOf? opened

/-- The numbers of a bracketed part with a given number of levels. -/
def readBracketed (level : ScoreLevel) (expected : Nat) (part : List Char) :
    Except ParseError (List Int) := do
  match insideBrackets? level part with
  | none => .error (.brackets level part)
  | some inner =>
    let raw := if (Text.trim inner).isEmpty then [] else inner.splitOn '/'
    if raw.length ≠ expected then throw (.count level expected raw.length)
    raw.mapM fun digits => readLevel level digits (Text.trim digits)

/-- What precedes the first occurrence of a word, and what follows it. -/
def cutAt? (word : List Char) : List Char → Option (List Char × List Char)
  | [] => (word.isPrefixOf? []).map fun rest => ([], rest)
  | c :: cs =>
    match word.isPrefixOf? (c :: cs) with
    | some rest => some ([], rest)
    | none => (cutAt? word cs).map fun parts => (c :: parts.1, parts.2)

/-- The level numbers that a trimmed text of a score denotes. -/
def readNumbers (kind : ScoreKind) (text : List Char) : Except ParseError (List Int) :=
  match kind with
  | .simple =>
    match Text.readInteger text with
    | .ok n => .ok [n]
    | .error cause => .error (.number text cause)
  | .bendable h s => do
    match cutAt? "hard/".toList text with
    | none => .error (.layout text)
    | some (before, after) =>
      let hard ← readBracketed .hard h (before ++ "hard".toList)
      let soft ← readBracketed .soft s after
      return hard ++ soft
  | kind => readNamed kind text kind.labels (text.splitOn '/')

/-- The score that characters denote. -/
def ofChars (kind : ScoreKind) (cs : List Char) : Except ParseError (Score kind) := do
  let text := Text.trim cs
  let numbers ← readNumbers kind text
  match ofList kind numbers with
  | .ok a => .ok a
  | .error _ => .error (.parts kind text)

/-- The score that a text denotes. -/
def parse (kind : ScoreKind) (s : String) : Except ParseError (Score kind) := ofChars kind s.toList

end Score

end Planning
