import WordMachine.Adder
import WordMachine.Registers

/-!
The arithmetic and logic unit. Addition and subtraction go through the ripple-carry adder and set
Carry to its carry out; the logical operations clear Carry; a shift sets it to the last bit shifted
out and a rotation to the bit that came round. LOADK and MOV leave the flags alone.
-/
namespace WordMachine.Alu

def resolve (r : RegisterFile) : Field Argument → Except Fault Word
  | .known (.reg i) => r.read i
  | .known (.imm v) => if v.width = r.width then .ok v else .error (.immediateWidth v r.width)
  | a => .error (.malformedOperand a)

/-- A shift by `k`, with the bit at `out` as carry; nothing is carried if the shift is zero. -/
def shift (f : Word → Nat → Word) (a : Word) (k out : Nat) (beyond : Bool) : Word × Bool :=
  if k = 0 then (a, false)
  else if a.width < k then (f a k, beyond)
  else (f a k, a.value.testBit out)

def rotate (a : Word) (k : Nat) : Word × Bool :=
  if k % a.width = 0 then (a, false)
  else
    let result := a.rotateLeft k
    (result, result.value.testBit 0)

def binary (opcode : Opcode) (a b : Word) : Except Word.Error (Word × Bool) :=
  match opcode with
  | .add => rippleAdd a b false
  | .sub => rippleAdd a b.not true
  | .and => do return (← a.and b, false)
  | .or => do return (← a.or b, false)
  | .xor => do return (← a.xor b, false)
  | .not => .ok (a.not, false)
  | .shl => .ok (shift Word.shiftLeft a b.value (a.width - b.value) false)
  | .shr => .ok (shift Word.shiftRight a b.value (b.value - 1) false)
  | .sar => .ok (shift Word.shiftRightArith a b.value (b.value - 1) a.msb)
  | .rol => .ok (rotate a b.value)
  | .loadk | .mov => .ok (a, false)

def withFlags (result : Word × Bool) : Word × Flags :=
  (result.1, ⟨decide (result.1.value = 0), result.2⟩)

def execute (opcode : Field Opcode) (r : RegisterFile) (flags : Flags) (a b : Field Argument) :
    Except Error (Word × Flags) := do
  let x ← resolve r a
  match opcode with
  | .known .loadk | .known .mov => return (x, flags)
  | .other v => throw (if v.isCompound then .mistyped else .fault (.unknownOpcode v))
  | .absent kind name => throw (.absentField kind name)
  | .known op =>
    match b with
    | .null =>
      if op = .not then return withFlags (x.not, false)
      else throw (.fault (.operandMissing op))
    | b =>
      let y ← resolve r b
      let result ← binary op x y
      return withFlags result

end WordMachine.Alu
