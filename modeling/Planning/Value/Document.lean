import Planning.Document.Json

/-!
# Values as documents

Every value has a document. A real number is the record of its sixteen hexadecimal digits; other tables
stand for no value and read as null.
-/

namespace Planning

/-- The document of a real number by its bits. -/
def Document.ofBits (bits : UInt64) : Document :=
  .table [("f64", .text (String.ofList (Value.hexDigits 16 bits.toNat)))]

/-- The number that hexadecimal digits denote; other characters count as zero. -/
def Document.bitsOf (s : String) : UInt64 :=
  (s.toList.foldl (fun n c => n * 16 + (Document.hexValue? c).getD 0) 0).toUInt64

namespace Value

mutual

/-- The value of a document. -/
def ofDocument : Document → Value
  | .null => null
  | .bool b => bool b
  | .integer n => int n
  | .signed n => int n
  | .real x => real x.toBits
  | .text s => text s
  | .list items => list (ofDocuments items)
  | .table [(_, .text s)] => real (Document.bitsOf s)
  | .table _ => null
  | .keyed _ => null

/-- The values of documents. -/
def ofDocuments : List Document → List Value
  | [] => []
  | d :: ds => ofDocument d :: ofDocuments ds

end

mutual

/-- The document of a value. -/
def toDocument : Value → Document
  | null => .null
  | bool b => .bool b
  | int n => .integer n
  | real bits => .ofBits bits
  | text s => .text s
  | list vs => .list (toDocuments vs)

/-- The documents of values. -/
def toDocuments : List Value → List Document
  | [] => []
  | v :: vs => toDocument v :: toDocuments vs

end

end Value

end Planning
