import WordMachine.Error

/-! The register file: four words of one width, and the two status flags. -/
namespace WordMachine

structure Flags where
  zero : Bool := false
  carry : Bool := false
deriving DecidableEq

def Flags.text (f : Flags) : String := s!"Z={f.zero.toNat} C={f.carry.toNat}"

structure RegisterFile where
  width : Nat
  values : Vector Word 4
deriving DecidableEq

namespace RegisterFile

/-- A file of the given values, which must be four and of the given width. -/
def make (values : List Word) (width : Int) : Except Error RegisterFile :=
  if h : values.toArray.size = 4 then
    match values.find? (fun v => (v.width : Int) != width) with
    | some v => .error (.registerWidth v width)
    | none => .ok ⟨width.toNat, ⟨values.toArray, h⟩⟩
  else .error (.registerCount values.length)

def zeros (width : Int) : Except Error RegisterFile := do
  let z ← Word.zero width
  return ⟨z.width, Vector.replicate 4 z⟩

def slot (index : Int) : Except Fault (Fin 4) :=
  if h : 0 ≤ index ∧ index < 4 then .ok ⟨index.toNat, by omega⟩
  else .error (.registerIndex (.known index))

def read (r : RegisterFile) (index : Int) : Except Fault Word := do
  let i ← slot index
  return r.values[i]

/-- The register that a field denotes. Truth values count as 0 and 1. A number that is not an
integer may lie within the bounds but denotes no register. -/
def check : Field Int → Except Error (Option (Fin 4))
  | .known n => do
    let i ← slot n
    return some i
  | .other (.bool b) => .ok (some (if b then 1 else 0))
  | .other (.real x) =>
    if x.within 0 4 then .ok none else .error (.fault (.registerIndex (.other (.real x))))
  | .other _ => .error .mistyped
  | .absent kind name => .error (.absentField kind name)

def get (r : RegisterFile) (index : Field Int) : Except Error Word := do
  match ← check index with
  | some i => return r.values[i]
  | none => throw .mistyped

/-- Replaces one register; the value must have the width of the file. -/
def put (r : RegisterFile) (i : Option (Fin 4)) (v : Word) : Except Error RegisterFile :=
  if v.width = r.width then
    match i with
    | some i => .ok { r with values := r.values.set i v }
    | none => .error .mistyped
  else .error (.registerWidth v r.width)

def set (r : RegisterFile) (index : Field Int) (v : Word) : Except Error RegisterFile := do
  let i ← check index
  r.put i v

def WellFormed (r : RegisterFile) : Prop := ∀ i : Fin 4, r.values[i].width = r.width

def text (r : RegisterFile) : String :=
  " ".intercalate (r.values.toList.mapIdx fun i v => s!"r{i}={v.value}")

def describe (r : RegisterFile) : String := s!"RegisterFile({r.text})"

end RegisterFile
end WordMachine
