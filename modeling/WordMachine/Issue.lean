import WordMachine.Instruction.Valid

/-! Issues found in data: what is wrong, and where. -/
namespace WordMachine

/-- One step from a value into a part of it. -/
inductive Key
  | field (name : String)
  | index (i : Nat)
deriving DecidableEq

/-- Why a value of well-typed parts is refused as a whole. -/
inductive Rejection
  | word (e : Word.Error)
  | shape (d : Defect)
deriving DecidableEq

def Rejection.message : Rejection → String
  | .word e => e.message
  | .shape d => d.message

namespace Issue

inductive Cause
  /-- A required field is not there. -/
  | missing
  | notString
  | notArray
  | notInteger
  /-- A text that does not spell an integer. -/
  | notIntegerText
  /-- A number with a fraction where an integer is called for. -/
  | fractional
  | infinite
  /-- A number or text too large to be taken for an integer. -/
  | tooLarge
  /-- A text that is none of the names allowed. -/
  | notNamed
  /-- A record is called for. -/
  | notRecord
  /-- A record with a tag is called for. -/
  | notTagged
  /-- A record with a tag is called for in a text. -/
  | notTaggedText
  | tagMissing
  | tagUnknown
  /-- A text that is not JSON. -/
  | notJson
  | rejected (reason : Rejection)
deriving DecidableEq

end Issue

structure Issue where
  path : List Key
  cause : Issue.Cause
deriving DecidableEq

/-- A word that there is no room for, which ends all checking. -/
def Issue.fatal? (i : Issue) : Option Word.Error :=
  match i.cause with
  | .rejected (.word (.tooWide w)) => some (.tooWide w)
  | _ => none

end WordMachine
