import WordMachine.Double.Shortest
import WordMachine.Instruction.Argument
import WordMachine.Json.Basic
import WordMachine.Text.Quoted

/-!
Values that stand where another kind of value is called for. Of arrays and records only the wording
is kept, since nothing but messages can come of them.
-/
namespace WordMachine

namespace Json

mutual

/-- The wording of a value in messages, texts in quotes. -/
def wording : Json → String
  | .null => "None"
  | .bool b => if b then "True" else "False"
  | .int n => toString n
  | .decimal negative m e => (Double.nearest negative m e).text
  | .infinity negative => (Double.infinite negative).text
  | .nan => Double.nan.text
  | .str s => Text.quoted s
  | .arr items => "[" ++ ", ".intercalate (wordingItems items) ++ "]"
  | .obj fields => "\x7b" ++ ", ".intercalate (wordingFields fields) ++ "\x7d"

def wordingItems : List Json → List String
  | [] => []
  | v :: vs => wording v :: wordingItems vs

def wordingFields : List (String × Json) → List String
  | [] => []
  | (k, v) :: fs => (Text.quoted k ++ ": " ++ wording v) :: wordingFields fs

end

end Json

inductive Scalar
  | null
  | bool (b : Bool)
  | int (n : Int)
  | real (x : Double)
  | text (s : String)
  | list (wording : String)
  | record (wording : String)
  /-- An operand or address. -/
  | argument (a : Argument)
deriving DecidableEq

namespace Scalar

def ofJson : Json → Scalar
  | .null => .null
  | .bool b => .bool b
  | .int n => .int n
  | .decimal negative m e => .real (Double.nearest negative m e)
  | .infinity negative => .real (.infinite negative)
  | .nan => .real .nan
  | .str s => .text s
  | .arr items => .list (Json.wording (.arr items))
  | .obj fields => .record (Json.wording (.obj fields))

def quoted : Scalar → String
  | .null => "None"
  | .bool b => if b then "True" else "False"
  | .int n => toString n
  | .real x => x.text
  | .text s => Text.quoted s
  | .list wording => wording
  | .record wording => wording
  | .argument a => a.describe

/-- The wording of a value, a text as it is and an argument by its content. -/
def plain : Scalar → String
  | .text s => s
  | .argument a => a.plain
  | v => v.quoted

/-- The numbers that the wording holds, those within arrays and records left out. -/
def numbers : Scalar → List Int
  | .int n => [n]
  | .argument a => a.numbers
  | _ => []

/-- Arrays and records cannot be looked up. -/
def isCompound : Scalar → Bool
  | .list _ | .record _ => true
  | _ => false

end Scalar

/-- A field of an instruction: what its place calls for, a value of another kind, or nothing. -/
inductive Field (α : Type)
  | known (a : α)
  | other (v : Scalar)
  /-- Nothing, where an instruction of the given kind has a field of the given name. -/
  | absent (kind name : String)
deriving DecidableEq

namespace Field

@[match_pattern] def null {α : Type} : Field α := .other .null

def ofOption {α : Type} : Option α → Field α
  | some a => .known a
  | none => .null

def isNull {α : Type} : Field α → Bool
  | .null => true
  | _ => false

/-- An integer as it is; anything else is kept as another value. -/
def integer : Json → Field Int
  | .int n => .known n
  | v => .other (.ofJson v)

def string : Json → Field String
  | .str s => .known s
  | v => .other (.ofJson v)

def indexText : Field Int → String
  | .known n => toString n
  | .other v => v.plain
  | .absent .. => ""

def nameText : Field String → String
  | .known s => s
  | .other v => v.plain
  | .absent .. => ""

def numbers {α : Type} (own : α → List Int) : Field α → List Int
  | .known a => own a
  | .other v => v.numbers
  | .absent .. => []

/-- The integer that a field is equal to. Truth values are equal to 0 and 1. -/
def toInt? : Field Int → Option Int
  | .known n => some n
  | .other (.bool b) => some b.toNat
  | .other (.real x) => x.toInt?
  | _ => none

/-- One more; what is no integer stays as it is. -/
def succ : Field Int → Field Int
  | .known n => .known (n + 1)
  | .other (.bool b) => .known (b.toNat + 1)
  | f => f

def Known {α : Type} (f : Field α) : Prop := ∃ a, f = .known a

end Field
end WordMachine
