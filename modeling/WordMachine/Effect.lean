import WordMachine.Alu
import WordMachine.ContentStore
import WordMachine.Machine
import WordMachine.TripleStore

/-!
The effect of one instruction. An instruction first gives its effect as a value, which is then
carried out by writes that check again what they are given. The services are called on the way:
what a service has done stays done, also if the instruction fails after that.
-/
namespace WordMachine

/-- What a machine works with: stores and dynamics, each of which may be missing. -/
structure Services where
  content : Option ContentService := none
  triples : Option TripleService := none
  dynamics : Option Dynamics := none

structure Effect where
  /-- Where the program goes on; nowhere for a halt. -/
  next : Option (Field Int)
  /-- A word for a register. -/
  register : Option (Field Int × Word) := none
  flags : Option Flags := none
  /-- Words for consecutive cells from an address on. -/
  cells : Nat × List Word := (0, [])
  /-- Whether a missing word follows the cells, which stops the instruction there. -/
  gap : Bool := false

namespace Effect

def raise {α : Type} (f : Fault) : Except Error α := .error (.fault f)

def countWord (m : Machine) (count : Nat) : Except Error Word :=
  if count < Word.card m.width then do
    let w ← Word.ofInt count m.width
    return w
  else raise (.resultCount count m.width)

/-- Refuses a word from outside whose width is not the machine's. -/
def checkResult (m : Machine) (v : Word) : Except Error Unit :=
  if v.width = m.width then .ok () else raise (.resultWidth v m.width)

def ofAlu (m : Machine) (opcode : Field Opcode) (dest : Field Int) (a b : Field Argument) :
    Except Error Effect := do
  let _ ← RegisterFile.check dest
  opcode.demand
  a.demand
  let (value, flags) ← Alu.execute opcode m.registers m.flags a b
  return { next := some m.pc.succ, register := some (dest, value), flags := some flags }

def ofLoad (m : Machine) (dest : Field Int) (address : Field Argument) : Except Error Effect := do
  let _ ← RegisterFile.check dest
  address.demand
  let a ← m.resolveAddress address
  let v ← m.memory.read a
  return { next := some m.pc.succ, register := some (dest, v) }

def ofStore (m : Machine) (src : Field Int) (address : Field Argument) : Except Error Effect := do
  let v ← m.registers.get src
  address.demand
  let a ← m.resolveAddress address
  return { next := some m.pc.succ, cells := (a, [v]) }

def ofLoadConst (m : Machine) (dest : Field Int) (value : Field Word) : Except Error Effect := do
  let _ ← RegisterFile.check dest
  match value with
  | .known v =>
    if v.width = m.width then return { next := some m.pc.succ, register := some (dest, v) }
    else raise (.constantWidth v m.width)
  | .other v => throw (.noWord v .width)
  | .absent kind name => throw (.absentField kind name)

def ofMoveReg (m : Machine) (dest src : Field Int) : Except Error Effect := do
  let v ← m.registers.get src
  let _ ← RegisterFile.check dest
  return { next := some m.pc.succ, register := some (dest, v) }

def contentFault {α : Type} (f : StoreError → Fault) : Except Error α → Except Error α
  | .error (.store e) => raise (f e)
  | r => r

def enfoldSpan (m : Machine) (store : ContentService) (digestReg : Field Int)
    (address : Field Argument) (lengthReg : Field Int) : Except Error (Word × ContentService) := do
  let _ ← RegisterFile.check digestReg
  let length ← m.registers.get lengthReg
  address.demand
  let start ← m.resolveAddress address
  let chars ← m.memory.readSpan start length.value
  contentFault .enfold (store.enfold chars)

def ofDigest (m : Machine) (digestReg : Field Int) (key : Word) : Except Error Effect := do
  checkResult m key
  return { next := some m.pc.succ, register := some (digestReg, key) }

def ofUnfold (m : Machine) (store : ContentService) (digestReg : Field Int)
    (address : Field Argument) (lengthReg : Field Int) : Except Error Effect := do
  let key ← m.registers.get digestReg
  let _ ← RegisterFile.check lengthReg
  address.demand
  let start ← m.resolveAddress address
  let chars ← contentFault (.unfold key) (store.unfold key)
  let length ← countWord m chars.length
  chars.forM (checkResult m)
  m.memory.check start chars.length
  return { next := some m.pc.succ, register := some (lengthReg, length), cells := (start, chars) }

def ofContent (m : Machine) (s : Services) (action : Field ContentAction) (digestReg : Field Int)
    (address : Field Argument) (lengthReg : Field Int) : Services × Except Error Effect :=
  match s.content with
  | none => (s, raise .noContentStore)
  | some store =>
    if store.width ≠ m.width then (s, raise (.contentWidth store.width m.width))
    else match action with
      | .known .enfold =>
        match enfoldSpan m store digestReg address lengthReg with
        | .error e => (s, .error e)
        | .ok (key, store) => ({ s with content := some store }, ofDigest m digestReg key)
      | .known .unfold => (s, ofUnfold m store digestReg address lengthReg)
      | .other v => (s, raise (.unknownContentAction v))
      | .absent kind name => (s, .error (.absentField kind name))

/-- A refusal of the triple store as a fault; any other failure stays what it is. -/
def tripleFault {α : Type} (f : StoreError → Fault) : Except Error α → Except Error α
  | .error (.store e) => if e.isRefusal then raise (f e) else .error (.store e)
  | r => r

def resolveOptional (m : Machine) : Field Argument → Except Fault (Option Word)
  | .null => .ok none
  | a => some <$> Alu.resolve m.registers a

def resolveTriple (m : Machine) (subject relation object : Field Argument) :
    Except Fault Triple := do
  return ⟨← resolveOptional m subject, ← resolveOptional m relation, ← resolveOptional m object⟩

def basinOptional (d : Dynamics) : Option Word → Except Error (Option Word × Dynamics)
  | none => .ok (none, d)
  | some x => do
    let (basin, d) ← d.basinId x
    return (some basin, d)

def basinPattern (d : Dynamics) (t : Triple) : Except Error (Triple × Dynamics) := do
  let (s, d) ← basinOptional d t.subject
  let (r, d) ← basinOptional d t.relation
  let (o, d) ← basinOptional d t.object
  return (⟨s, r, o⟩, d)

/-- Counts the matches of a query and writes them to memory if an address is given. -/
def ofMatches (m : Machine) (countReg : Field Int) (found : List Triple)
    (outAddress : Field Argument) : Except Error Effect := do
  let count ← countWord m found.length
  match outAddress with
  | .null => return { next := some m.pc.succ, register := some (countReg, count) }
  | address =>
    let base ← m.resolveAddress address
    let words := found.flatMap Triple.components
    m.memory.check base words.length
    return { next := some m.pc.succ, register := some (countReg, count),
             cells := (base, (words.takeWhile Option.isSome).filterMap id),
             gap := words.any Option.isNone }

def ofQueryExact (m : Machine) (store : TripleService) (t : Triple) (countReg : Field Int)
    (outAddress : Field Argument) : Except Error Effect := do
  let _ ← RegisterFile.check countReg
  let found ← tripleFault .query (store.queryExact t >>= Triple.sort)
  ofMatches m countReg found outAddress

/-- The matches of a basin query in no order, once the count has a register. -/
def findByBasin (d : Dynamics) (store : TripleService) (pattern : Triple) (countReg : Field Int) :
    Except Error (List Triple × Dynamics) := do
  let _ ← RegisterFile.check countReg
  tripleFault .query (store.queryWith d pattern)

/-- One dynamics finds the basins of the pattern and those of the stored triples. -/
def ofQueryByBasin (m : Machine) (d : Dynamics) (store : TripleService) (t : Triple)
    (countReg : Field Int) (outAddress : Field Argument) : Dynamics × Except Error Effect :=
  match basinPattern d t with
  | .error e => (d, .error e)
  | .ok (pattern, d) =>
    match findByBasin d store pattern countReg with
    | .error e => (d, .error e)
    | .ok (found, d) =>
      (d, do
        let found ← Triple.sort found
        ofMatches m countReg found outAddress)

def ofTriple (m : Machine) (s : Services) (action : Field TripleAction)
    (subject relation object : Field Argument) (countReg : Field Int)
    (outAddress : Field Argument) : Services × Except Error Effect :=
  match s.triples with
  | none => (s, raise .noTripleStore)
  | some store =>
    match resolveTriple m subject relation object with
    | .error f => (s, raise f)
    | .ok t =>
      match action with
      | .known .insert =>
        match tripleFault .insert (store.insert t) with
        | .error e => (s, .error e)
        | .ok store => ({ s with triples := some store }, .ok { next := some m.pc.succ })
      | .known .queryExact => (s, ofQueryExact m store t countReg outAddress)
      | .known .queryByBasin =>
        match s.dynamics with
        | none => (s, raise .noBasins)
        | some d =>
          let (d, result) := ofQueryByBasin m d store t countReg outAddress
          ({ s with dynamics := some d }, result)
      | .other v => (s, raise (.unknownTripleAction v))
      | .absent kind name => (s, .error (.absentField kind name))

/-- The failed lookup of a rule, or one inside it, as a fault. -/
def ruleFault {α : Type} (name : String) : Except Error α → Except Error α
  | .error (.unknownRule _ _) | .error (.missingKey _) => raise (.unknownRule name)
  | r => r

def applyNamed (d : Dynamics) (rule : Field String) (x : Word) : Except Error Word :=
  match rule with
  | .known name => ruleFault name (d.applyRule name x)
  | .other v => if v.isCompound then .error .mistyped else raise (.unknownRule v.plain)
  | .absent kind name => .error (.absentField kind name)

def ofApplyRule (m : Machine) (dynamics : Option Dynamics) (rule : Field String)
    (reg : Field Int) : Except Error Effect :=
  match dynamics with
  | none => raise .noDynamics
  | some d => do
    let x ← m.registers.get reg
    let y ← applyNamed d rule x
    checkResult m y
    return { next := some m.pc.succ, register := some (reg, y) }

/-- Refuses a jump out of a program of the given size; its end is outside too. -/
def checkTarget (size : Nat) : Field Int → Except Error Unit
  | .known n => if 0 ≤ n ∧ n < size then .ok () else raise (.target (.known n) size)
  | .other (.bool b) =>
    if b.toNat < size then .ok () else raise (.target (.other (.bool b)) size)
  | .other (.real x) =>
    if x.within 0 size then .ok () else raise (.target (.other (.real x)) size)
  | .other _ => .error .mistyped
  | .absent kind name => .error (.absentField kind name)

def taken (flags : Flags) : Condition → Bool
  | .zero => flags.zero
  | .notZero => !flags.zero
  | .carry => flags.carry
  | .notCarry => !flags.carry

def ofJumpIf (size : Nat) (m : Machine) (condition : Field Condition) (target : Field Int) :
    Except Error Effect := do
  checkTarget size target
  match condition with
  | .known c => return { next := some (if taken m.flags c then target else m.pc.succ) }
  | .other v => raise (.unknownCondition v)
  | .absent kind name => throw (.absentField kind name)

def ofJump (size : Nat) (target : Field Int) : Except Error Effect := do
  checkTarget size target
  return { next := some target }

/-- The effect of an instruction of a program of the given size, or why it has none, and the
services after it. -/
def ofInstruction (size : Nat) (m : Machine) (s : Services) :
    Instruction → Services × Except Error Effect
  | .alu opcode dest a b => (s, ofAlu m opcode dest a b)
  | .load dest address => (s, ofLoad m dest address)
  | .store src address => (s, ofStore m src address)
  | .loadConst dest v => (s, ofLoadConst m dest v)
  | .moveReg dest src => (s, ofMoveReg m dest src)
  | .content action d address l => ofContent m s action d address l
  | .triple action sub r o count out => ofTriple m s action sub r o count out
  | .applyRule rule reg => (s, ofApplyRule m s.dynamics rule reg)
  | .jumpIf condition target => (s, ofJumpIf size m condition target)
  | .jump target => (s, ofJump size target)
  | .halt => (s, .ok { next := none })
  | .foreign kind => (s, if kind.isCompound then .error .mistyped else raise (.unknownKind kind))

def writeRegister (r : RegisterFile) : Option (Field Int × Word) → Except Error RegisterFile
  | none => .ok r
  | some (i, v) => r.set i v

/-- Carries an effect out: memory first, then the register, the flags and the counter. A write that
is refused stops it there. -/
def commit (e : Effect) : Machine → Machine × Option Error
  | ⟨registers, flags, memory, pc, tick⟩ =>
    match memory.writeSpan e.cells.1 e.cells.2 with
    | (memory, some err) => (⟨registers, flags, memory, pc, tick⟩, some err)
    | (memory, none) =>
      if e.gap then (⟨registers, flags, memory, pc, tick⟩, some (.noWord .null .width))
      else match writeRegister registers e.register with
        | .error err => (⟨registers, flags, memory, pc, tick⟩, some err)
        | .ok registers =>
          (⟨registers, e.flags.getD flags, memory, e.next.getD pc, tick⟩, none)

end Effect
end WordMachine
