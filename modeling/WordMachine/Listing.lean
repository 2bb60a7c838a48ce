import WordMachine.Error

/-! The assembly listing of a program: a heading, then one line for each instruction. -/
namespace WordMachine

/-- A text that holds the given numbers in decimal, if none of them has too many digits. -/
def written (numbers : List Int) (text : String) : Except Error String :=
  if numbers.all Word.isShort then .ok text else .error (.word .digits)

namespace Argument

/-- An operand; one that is left out is a star. -/
def operandText (a : Field Argument) : Except Error String := do
  a.demand
  match a with
  | .null => return "*"
  | .known (.reg i) => written [i] s!"r{i}"
  | .known (.imm v) => written [v.value] s!"#{v.value}"
  | a => throw (.unlistedOperand a)

def addressText (a : Field Argument) : Except Error String := do
  a.demand
  match a with
  | .known (.absolute i) => written [i] s!"[{i}]"
  | .known (.indirect i) => written [i] s!"[r{i}]"
  | a => throw (.unlistedAddress a)

end Argument

namespace Field

def mnemonic {α : Type} [Named α] : Field α → Except Error String
  | .known a => .ok (Named.name a)
  | .other v => .error (.unlistedCode v)
  | .absent kind name => .error (.absentField kind name)

def indexListing (i : Field Int) : Except Error String := do
  i.demand
  written (i.numbers ([·])) i.indexText

end Field

def Condition.mnemonic : Condition → String
  | .zero => "JZ"
  | .notZero => "JNZ"
  | .carry => "JC"
  | .notCarry => "JNC"

namespace Instruction

def listing : Instruction → Except Error String
  | .alu opcode dest a b => do
    let dest ← dest.indexListing
    let first ← Argument.operandText a
    let args := s!"r{dest}, {first}"
    let args ← if b.isNull then pure args else do
      let second ← Argument.operandText b
      pure s!"{args}, {second}"
    let name ← opcode.mnemonic
    return s!"{name} {args}"
  | .load dest address => do
    let dest ← dest.indexListing
    let place ← Argument.addressText address
    return s!"LOAD r{dest}, {place}"
  | .store src address => do
    let src ← src.indexListing
    let place ← Argument.addressText address
    return s!"STORE r{src}, {place}"
  | .loadConst dest value => do
    let dest ← dest.indexListing
    match value with
    | .known v => written [v.value] s!"LDC r{dest}, #{v.value}"
    | .other (.argument (.imm v)) => return s!"LDC r{dest}, #{v.hex}"
    | .other v => throw (.noWord v .value)
    | .absent kind name => throw (.absentField kind name)
  | .moveReg dest src => do
    let dest ← dest.indexListing
    let src ← src.indexListing
    return s!"MOVR r{dest}, r{src}"
  | .content action digest address length => do
    let name ← action.mnemonic
    let digest ← digest.indexListing
    let place ← Argument.addressText address
    let length ← length.indexListing
    return s!"{name} r{digest}, {place}, r{length}"
  | .triple action s r o count out => do
    let s ← Argument.operandText s
    let r ← Argument.operandText r
    let o ← Argument.operandText o
    let name ← action.mnemonic
    let counter ← if count.isNull then pure "" else
      written (count.numbers ([·])) s!"r{count.indexText}, "
    let target ← if out.isNull then pure "" else do
      let place ← Argument.addressText out
      pure s!" -> {place}"
    return s!"DRS.{name} {counter}{s}, {r}, {o}{target}"
  | .applyRule rule reg => do
    rule.demand
    let name ← written (rule.numbers fun _ => []) rule.nameText
    let reg ← reg.indexListing
    return s!"RULE {name}, r{reg}"
  | .jumpIf condition target => do
    match condition with
    | .known c =>
      let target ← target.indexListing
      return s!"{c.mnemonic} {target}"
    | .other v => throw (if v.isCompound then .mistyped else .unlistedCondition v)
    | .absent kind name => throw (.absentField kind name)
  | .jump target => do
    let target ← target.indexListing
    return s!"JMP {target}"
  | .halt => return "HALT"
  | .foreign kind => .error (if kind.isCompound then .mistyped else .unlistedKind kind)

end Instruction

namespace Program

/-- The instruction at an index, which must be one that 64 bits can hold. -/
def get (p : Program) (index : Int) : Except Error Instruction :=
  if index < -(Word.card 63) ∨ Word.card 63 ≤ index then .error .indexSize
  else match p.at? index with
    | some i => .ok i
    | none => .error .programIndex

/-- An index of at least four digits. -/
def lineNumber (i : Nat) : String := String.ofList (padLeft '0' 4 (Nat.toDigits 10 i))

def heading (p : Program) : String :=
  let plural := if p.size = 1 then "" else "s"
  s!"; {p.name} ({p.size} instruction{plural})\n"

def lines (addresses : Bool) : Nat → List Instruction → Except Error (List String)
  | _, [] => .ok []
  | start, i :: rest => do
    let text ← i.listing
    let line := if addresses then s!"{lineNumber start}  {text}\n" else s!"{text}\n"
    return line :: (← lines addresses (start + 1) rest)

/-- A text that ends in exactly one line break. -/
def endedOnce (text : String) : String :=
  String.ofList ((text.toList.reverse.dropWhile (· = '\n')).reverse ++ ['\n'])

def listing (p : Program) (addresses : Bool) : Except Error String := do
  let body ← lines addresses 0 p.ops.toList
  return endedOnce (String.join (p.heading :: body))

end Program
end WordMachine
