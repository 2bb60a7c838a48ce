import WordMachine.Word.Bitwise

/-!
Adders and multiplexers. The half and full adders work on all bit positions at once; the
ripple-carry adder passes one carry from the least significant bit upward.
-/
namespace WordMachine

def halfAdder (a b : Word) : Except Word.Error (Word × Word) := do
  let sum ← a.xor b
  let carry ← a.and b
  return (sum, carry)

def fullAdder (a b carryIn : Word) : Except Word.Error (Word × Word) := do
  let (part, c₁) ← halfAdder a b
  let (total, c₂) ← halfAdder part carryIn
  let carry ← c₁.or c₂
  return (total, carry)

def addBit (a b carry : Bool) : Bool × Bool :=
  (Bool.xor (Bool.xor a b) carry, (a && b) || (Bool.xor a b && carry))

/-- Adds pairs of bits from the least significant upward; the last carry comes out. -/
def addBits : List (Bool × Bool) → Bool → List Bool × Bool
  | [], carry => ([], carry)
  | (a, b) :: rest, carry =>
    let (s, c) := addBit a b carry
    let (sums, out) := addBits rest c
    (s :: sums, out)

theorem length_addBits (ps : List (Bool × Bool)) (carry : Bool) :
    (addBits ps carry).1.length = ps.length := by
  induction ps generalizing carry with
  | nil => rfl
  | cons p ps ih => simp [addBits, ih]

/-- Adds two words of one width and a carry, giving the sum and the carry out. -/
def rippleAdd (a b : Word) (carryIn : Bool) : Except Word.Error (Word × Bool) :=
  if h : a.width = b.width then
    let pairs := a.bits.zip b.bits
    let total := addBits pairs carryIn
    .ok (Word.ofBools total.1 (by simp [total, pairs, length_addBits, ← h, a.width_pos]), total.2)
  else .error (.mismatch a.width b.width)

def mux (select : Bool) (a b : Word) : Word := if select then a else b

/-- Routes `x` to the first output if selected, else to the second; the other output is zero. -/
def demux (select : Bool) (x : Word) : Word × Word :=
  if select then (x, x.wrap 0) else (x.wrap 0, x)

end WordMachine
