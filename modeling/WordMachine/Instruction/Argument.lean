import WordMachine.Word.Text

/-! Arguments of instructions: operands and addresses. -/
namespace WordMachine

/-- What an instruction works on. Registers and immediates are operands; the other two are
addresses. -/
inductive Argument
  | reg (index : Int)
  | imm (value : Word)
  | absolute (index : Int)
  | indirect (reg : Int)
deriving DecidableEq

namespace Argument

def isOperand : Argument → Bool
  | .reg _ | .imm _ => true
  | _ => false

def isAddress (a : Argument) : Bool := !a.isOperand

def formName : Argument → String
  | .reg _ => "Reg"
  | .imm _ => "Imm"
  | .absolute _ => "Absolute"
  | .indirect _ => "Indirect"

/-- The tag and the content, each with its name. -/
def parts : Argument → List String
  | .reg i => ["kind='reg'", s!"index={i}"]
  | .imm v => ["kind='imm'", s!"value={v.describe}"]
  | .absolute i => ["kind='absolute'", s!"index={i}"]
  | .indirect i => ["kind='indirect'", s!"reg={i}"]

def describe (a : Argument) : String := a.formName ++ "(" ++ ", ".intercalate a.parts ++ ")"

def numbers : Argument → List Int
  | .reg i | .absolute i | .indirect i => [i]
  | .imm v => v.numbers

def plain (a : Argument) : String := " ".intercalate a.parts

end Argument
end WordMachine
