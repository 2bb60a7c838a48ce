import WordMachine.Error

/-! Memory: cells of one width behind bounds checks. -/
namespace WordMachine

structure Memory where
  width : Nat
  cells : Array Word
deriving DecidableEq

namespace Memory

def defaultSize : Int := 4096

def zeros (size width : Int) : Except Error Memory :=
  if size ≤ 0 then .error (.memorySize size)
  else do
    let z ← Word.zero width
    return ⟨z.width, Array.replicate size.toNat z⟩

def size (m : Memory) : Nat := m.cells.size

/-- Refuses a span of cells that does not lie in memory. -/
def check (m : Memory) (address length : Int) : Except Fault Unit :=
  if address < 0 ∨ m.size < address + length then
    .error (if length = 1 then .address address m.size else .span address length m.size)
  else .ok ()

def read (m : Memory) (address : Int) : Except Fault Word :=
  if h : 0 ≤ address ∧ address.toNat < m.cells.size then .ok m.cells[address.toNat]
  else .error (.address address m.size)

/-- Replaces a cell that is known to exist; the value must have the width of the memory. -/
def put (m : Memory) (address : Nat) (v : Word) : Except Error Memory :=
  if v.width = m.width then .ok { m with cells := m.cells.setIfInBounds address v }
  else .error (.cellWidth v m.width)

def write (m : Memory) (address : Int) (v : Word) : Except Error Memory := do
  m.check address 1
  m.put address.toNat v

/-- Where a span ends. A negative end counts from the end of memory. -/
def spanEnd (m : Memory) (stop : Int) : Nat :=
  if stop < 0 then (stop + m.size).toNat else stop.toNat

def readSpan (m : Memory) (address length : Int) : Except Fault (List Word) := do
  m.check address length
  return (m.cells.extract address.toNat (m.spanEnd (address + length))).toList

/-- Writes values one after another, stopping at the first that is refused. -/
def writeAll (m : Memory) (address : Int) : List Word → Memory × Option Error
  | [] => (m, none)
  | v :: vs =>
    match m.write address v with
    | .ok m => writeAll m (address + 1) vs
    | .error e => (m, some e)

/-- Writes values to consecutive cells. The cells before a value of a wrong width stay written. -/
def writeSpan (m : Memory) (address : Int) (vs : List Word) : Memory × Option Error :=
  match m.check address vs.length with
  | .ok _ => m.writeAll address vs
  | .error f => (m, some (.fault f))

def WellFormed (m : Memory) : Prop := ∀ v ∈ m.cells, v.width = m.width

/-- The cells that are not zero, by ascending address. -/
def nonzero (m : Memory) : List (Nat × Nat) :=
  (m.cells.toList.mapIdx fun i v => (i, v.value)).filter fun c => c.2 ≠ 0

end Memory
end WordMachine
