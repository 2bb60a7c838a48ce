import WordMachine.Checked
import WordMachine.Effect

/-!
Running programs. A step carries out one instruction; a run takes steps until the program ends,
halts or fails, or the limit on steps is reached.
-/
namespace WordMachine

structure Engine where
  machine : Machine
  services : Services
  /-- Instructions begun so far. -/
  steps : Nat

inductive Signal
  | next (op : Instruction)
  | halt
  | fault (f : Fault)
  | crash (e : Error)

def Signal.ofError : Error → Signal
  | .fault f => .fault f
  | e => .crash e

namespace Engine

def instruction? (p : Program) (index : Int) : Option Instruction :=
  if index < 0 then none else p.ops[index.toNat]?

/-- The instruction that the counter points at. A counter that is not an integer may lie within the
program but points at none. -/
def fetch (p : Program) (pc : Field Int) : Except Error Instruction :=
  match pc with
  | .known _ | .other (.bool _) =>
    match pc.toInt?.bind (instruction? p) with
    | some op => .ok op
    | none => .error (.fault (.counter pc p.size))
  | .other (.real x) =>
    .error (if x.within 0 p.size then .mistyped else .fault (.counter pc p.size))
  | _ => .error .mistyped

def execute (size : Nat) (op : Instruction) : Engine → Engine × Signal
  | ⟨machine, services, steps⟩ =>
    match Effect.ofInstruction size machine services op with
    | (services, .error e) => (⟨machine, services, steps⟩, .ofError e)
    | (services, .ok effect) =>
      match effect.commit machine with
      | (machine, some e) => (⟨machine, services, steps⟩, .ofError e)
      | (machine, none) =>
        (⟨machine, services, steps⟩, if effect.next.isSome then .next op else .halt)

def beginStep : Engine → Engine
  | ⟨⟨registers, flags, memory, pc, tick⟩, services, steps⟩ =>
    ⟨⟨registers, flags, memory, pc, tick + 1⟩, services, steps + 1⟩

/-- One step. A counter outside the program faults before the step is counted. -/
def step (p : Program) (e : Engine) : Engine × Signal :=
  match fetch p e.machine.pc with
  | .error err => (e, .ofError err)
  | .ok op => execute p.size op e.beginStep

end Engine

inductive Ending
  /-- By an instruction, or by reaching the end of the program. -/
  | halted (implicit : Bool)
  | faulted (f : Fault)
  | crashed (e : Error)
deriving DecidableEq

namespace Engine

variable {σ : Type}

/-- Runs for at most `left` more steps, showing every completed instruction to an observer. -/
def runFor (p : Program) (limit : Nat) (observe : σ → Machine → Instruction → σ) (left : Nat)
    (e : Engine) (acc : σ) : Engine × σ × Ending :=
  if e.machine.pc.toInt? = some (p.size : Int) then (e, acc, .halted true)
  else match left with
    | 0 =>
      let pc := e.machine.pc
      (e, acc, .faulted (.stepLimit limit pc))
    | left + 1 =>
      match step p e with
      | (e, .next op) =>
        let acc := observe acc e.machine op
        runFor p limit observe left e acc
      | (e, .halt) => (e, acc, .halted false)
      | (e, .fault f) => (e, acc, .faulted f)
      | (e, .crash err) => (e, acc, .crashed err)

/-- Runs until `limit` instructions have been begun in all. -/
def run (p : Program) (limit : Nat) (observe : σ → Machine → Instruction → σ) (e : Engine)
    (acc : σ) : Engine × σ × Ending :=
  let left := limit - e.steps
  runFor p limit observe left e acc

def defaultLimit : Int := 100000

def checkLimit (limit : Int) : Except Error Nat :=
  if limit ≤ 0 then .error (.stepLimit limit) else .ok limit.toNat

end Engine

/-- What is reported of an ending. A fault is reported by its wording, which may hold no number of
too many digits, and with the counter, which must then be a whole number. -/
def reportable (e : Engine) : Ending → Ending
  | .faulted f =>
    if f.isTellable then
      match (Checked.counter e.machine.pc).within (.field "pc") with
      | .ok _ => .faulted f
      | .bad issues => .crashed (.invalid issues)
    else .crashed (.word .digits)
  | ending => ending

def runProgram {σ : Type} (p : Program) (m : Machine) (s : Services) (limit : Int)
    (observe : σ → Machine → Instruction → σ) (acc : σ) : Except Error (Engine × σ × Ending) := do
  let limit ← Engine.checkLimit limit
  let (e, acc, ending) := Engine.run p limit observe ⟨m, s, 0⟩ acc
  return (e, acc, reportable e ending)

end WordMachine
