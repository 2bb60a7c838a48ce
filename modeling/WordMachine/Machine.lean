import WordMachine.Memory
import WordMachine.Registers

/-!
The state of the machine: registers, flags, memory, program counter and tick. The counter is a
field, since an instruction that was not checked may send the program to a place that is not an
integer.
-/
namespace WordMachine

structure Machine where
  registers : RegisterFile
  flags : Flags
  memory : Memory
  pc : Field Int
  tick : Int
deriving DecidableEq

namespace Machine

/-- Puts a state together from parts of one width. -/
def ofParts (registers : RegisterFile) (memory : Memory) (pc : Field Int) (tick : Int) :
    Except Error Machine :=
  if memory.width = registers.width then .ok ⟨registers, ⟨false, false⟩, memory, pc, tick⟩
  else .error (.memoryWidth memory.width registers.width)

def zeros (memorySize width : Int) : Except Error Machine := do
  let file ← RegisterFile.zeros width
  let memory ← Memory.zeros memorySize width
  ofParts file memory (.known 0) 0

def setRegister (m : Machine) (index : Field Int) (v : Word) : Except Error Machine := do
  let registers ← m.registers.set index v
  return { m with registers }

def width (m : Machine) : Nat := m.registers.width

def resolveAddress (m : Machine) : Field Argument → Except Fault Nat
  | .known (.absolute i) => do
    m.memory.check i 1
    return i.toNat
  | .known (.indirect r) => do
    let v ← m.registers.read r
    m.memory.check v.value 1
    return v.value
  | a => .error (.malformedAddress a)

/-- Registers and memory are each of one width, and of the same, and the counter is an integer. -/
def WellFormed (m : Machine) : Prop :=
  m.registers.WellFormed ∧ m.memory.WellFormed ∧ m.memory.width = m.registers.width ∧ m.pc.Known

/-- Whether two states agree; counters agree if they are equal as integers. -/
def agrees (m n : Machine) : Bool :=
  decide ({ m with pc := n.pc } = n) &&
    (decide (m.pc = n.pc) || (m.pc.toInt?.isSome && decide (m.pc.toInt? = n.pc.toInt?)))

def text (m : Machine) : String :=
  s!"[tick {m.tick}] pc={m.pc.indexText} {m.registers.text} {m.flags.text}"

/-- A view of the state in plain numbers; only cells that are not zero are listed. -/
structure Snapshot where
  registers : List Nat
  flags : Flags
  pc : Field Int
  tick : Int
  memory : List (Nat × Nat)
deriving DecidableEq

def snapshot (m : Machine) : Snapshot :=
  ⟨m.registers.values.toList.map Word.value, m.flags, m.pc, m.tick, m.memory.nonzero⟩

end Machine
end WordMachine
