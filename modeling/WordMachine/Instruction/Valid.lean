import WordMachine.Instruction.Basic

/-! The shape that an instruction must have before it counts as part of a program. -/
namespace WordMachine

/-- What is wrong with an instruction whose fields are each of the right type. -/
inductive Defect
  | extraOperand (opcode : Opcode)
  | missingOperand (opcode : Opcode)
  | notImmediate
  | notRegister
  | incompleteTriple
  | extraResult
  | missingCount (action : TripleAction)
deriving DecidableEq

def Defect.message : Defect → String
  | .extraOperand op => Named.name op ++ " takes a single operand"
  | .missingOperand op => Named.name op ++ " requires two operands"
  | .notImmediate => "LOADK requires an immediate operand"
  | .notRegister => "MOV requires a register operand"
  | .incompleteTriple => "INSERT requires subject, relation and obj"
  | .extraResult => "INSERT takes no count_reg or out_address"
  | .missingCount action => Named.name action ++ " requires count_reg"

def aluDefect (opcode : Opcode) (a b : Field Argument) : Option Defect :=
  if opcode.isUnary && !b.isNull then some (.extraOperand opcode)
  else if !opcode.isUnary && b.isNull then some (.missingOperand opcode)
  else match opcode, a with
    | .loadk, .known (.imm _) => none
    | .loadk, _ => some .notImmediate
    | .mov, .known (.reg _) => none
    | .mov, _ => some .notRegister
    | _, _ => none

def tripleDefect (action : TripleAction) (subject relation object : Field Argument)
    (countReg : Field Int) (outAddress : Field Argument) : Option Defect :=
  match action with
  | .insert =>
    if subject.isNull || relation.isNull || object.isNull then some .incompleteTriple
    else if !countReg.isNull || !outAddress.isNull then some .extraResult
    else none
  | _ => if countReg.isNull then some (.missingCount action) else none

def Instruction.defect? : Instruction → Option Defect
  | .alu (.known opcode) _ a b => aluDefect opcode a b
  | .triple (.known action) s r o count out => tripleDefect action s r o count out
  | _ => none

def Field.Operand (a : Field Argument) : Prop := ∃ x, a = .known x ∧ x.isOperand = true

def Field.Address (a : Field Argument) : Prop := ∃ x, a = .known x ∧ x.isAddress = true

/-- Every field holds what its place calls for, and the instruction has no defect. -/
def Instruction.Valid (i : Instruction) : Prop :=
  i.defect? = none ∧
    match i with
    | .alu opcode dest a b =>
      opcode.Known ∧ dest.Known ∧ a.Operand ∧ (b = .null ∨ b.Operand)
    | .load dest address => dest.Known ∧ address.Address
    | .store src address => src.Known ∧ address.Address
    | .loadConst dest value => dest.Known ∧ value.Known
    | .moveReg dest src => dest.Known ∧ src.Known
    | .content action digest address length =>
      action.Known ∧ digest.Known ∧ address.Address ∧ length.Known
    | .triple action s r o count out =>
      action.Known ∧ (s = .null ∨ s.Operand) ∧ (r = .null ∨ r.Operand) ∧ (o = .null ∨ o.Operand) ∧
        (count = .null ∨ count.Known) ∧ (out = .null ∨ out.Address)
    | .applyRule rule reg => rule.Known ∧ reg.Known
    | .jumpIf condition target => condition.Known ∧ target.Known
    | .jump target => target.Known
    | .halt => True
    | .foreign _ => False

def Program.Valid (p : Program) : Prop := ∀ i ∈ p.ops, i.Valid

end WordMachine
