import WordMachine.Scalar

/-!
Instructions and programs. A field may hold a value of another kind than its place calls for, or
nothing: such instructions can be listed and run, and the machine fails on them.
-/
namespace WordMachine

class Named (α : Type) where
  all : List α
  name : α → String

def Named.ofName? {α : Type} [Named α] (text : String) : Option α :=
  (all : List α).find? fun a => name a = text

inductive Opcode
  | add | sub | and | or | xor | not | shl | shr | sar | rol | loadk | mov
deriving DecidableEq

instance : Named Opcode where
  all := [.add, .sub, .and, .or, .xor, .not, .shl, .shr, .sar, .rol, .loadk, .mov]
  name
    | .add => "ADD" | .sub => "SUB" | .and => "AND" | .or => "OR" | .xor => "XOR" | .not => "NOT"
    | .shl => "SHL" | .shr => "SHR" | .sar => "SAR" | .rol => "ROL"
    | .loadk => "LOADK" | .mov => "MOV"

def Opcode.isUnary : Opcode → Bool
  | .not | .loadk | .mov => true
  | _ => false

inductive Condition
  | zero | notZero | carry | notCarry
deriving DecidableEq

instance : Named Condition where
  all := [.zero, .notZero, .carry, .notCarry]
  name
    | .zero => "ZERO" | .notZero => "NOT_ZERO" | .carry => "CARRY" | .notCarry => "NOT_CARRY"

inductive ContentAction
  | enfold | unfold
deriving DecidableEq

instance : Named ContentAction where
  all := [.enfold, .unfold]
  name
    | .enfold => "ENFOLD" | .unfold => "UNFOLD"

inductive TripleAction
  | insert | queryExact | queryByBasin
deriving DecidableEq

instance : Named TripleAction where
  all := [.insert, .queryExact, .queryByBasin]
  name
    | .insert => "INSERT" | .queryExact => "QUERY_EXACT" | .queryByBasin => "QUERY_BY_BASIN"

namespace Field

variable {α : Type} [Named α]

def named : Json → Field α
  | .str s =>
    match Named.ofName? s with
    | some a => .known a
    | none => .other (.text s)
  | v => .other (.ofJson v)

end Field

def Field.argumentText : Field Argument → String
  | .known a => a.describe
  | .other v => v.quoted
  | .absent .. => ""

inductive Instruction
  /-- `dest ← opcode(a, b)` -/
  | alu (opcode : Field Opcode) (dest : Field Int) (a b : Field Argument)
  /-- `dest ← memory[address]` -/
  | load (dest : Field Int) (address : Field Argument)
  /-- `memory[address] ← src` -/
  | store (src : Field Int) (address : Field Argument)
  | loadConst (dest : Field Int) (value : Field Word)
  | moveReg (dest src : Field Int)
  /-- Folds a span of memory into a digest, or unfolds a digest into memory. -/
  | content (action : Field ContentAction) (digestReg : Field Int) (address : Field Argument)
      (lengthReg : Field Int)
  /-- Inserts a triple, or counts the triples that match and writes them to memory. -/
  | triple (action : Field TripleAction) (subject relation object : Field Argument)
      (countReg : Field Int) (outAddress : Field Argument)
  /-- `reg ← rule(reg)` -/
  | applyRule (rule : Field String) (reg : Field Int)
  | jumpIf (condition : Field Condition) (target : Field Int)
  | jump (target : Field Int)
  | halt
  /-- A kind that the machine does not know. -/
  | foreign (kind : Scalar)
deriving DecidableEq

def Instruction.kind : Instruction → String
  | .alu .. => "alu"
  | .load .. => "load"
  | .store .. => "store"
  | .loadConst .. => "load_const"
  | .moveReg .. => "move_reg"
  | .content .. => "content_store"
  | .triple .. => "drs"
  | .applyRule .. => "apply_rule"
  | .jumpIf .. => "jump_if"
  | .jump .. => "jump"
  | .halt => "halt"
  | .foreign kind => kind.plain

structure Program where
  name : String
  ops : Array Instruction
deriving DecidableEq

namespace Program

def defaultName : String := "main"

def size (p : Program) : Nat := p.ops.size

/-- The instruction at an index; a negative index counts from the end. -/
def at? (p : Program) (index : Int) : Option Instruction :=
  let i := if index < 0 then index + p.size else index
  if i < 0 then none else p.ops[i.toNat]?

end Program
end WordMachine
