import WordMachine.Word.Basic

/-! Bitwise operations, shifts and rotation. Two words combine only at one width. -/
namespace WordMachine.Word

def sameWidth (x y : Word) : Except Error Unit :=
  if y.width = x.width then .ok () else .error (.mismatch x.width y.width)

def and (x y : Word) : Except Error Word := do
  sameWidth x y
  return x.wrap (x.value &&& y.value)

def or (x y : Word) : Except Error Word := do
  sameWidth x y
  return x.wrap (x.value ||| y.value)

def xor (x y : Word) : Except Error Word := do
  sameWidth x y
  return x.wrap (x.value ^^^ y.value)

def not (x : Word) : Word := x.wrap (x.mask - x.value)

/-- Logical shift left; bits pushed past the top are lost. -/
def shiftLeft (x : Word) (k : Nat) : Word :=
  if x.width ≤ k then x.wrap 0 else x.wrap (x.value <<< k)

/-- Logical shift right; zeros fill from the top. -/
def shiftRight (x : Word) (k : Nat) : Word :=
  if x.width ≤ k then x.wrap 0 else x.wrap (x.value >>> k)

/-- Arithmetic shift right, replicating the most significant bit. -/
def shiftRightArith (x : Word) (k : Nat) : Word :=
  if x.msb = false then x.shiftRight k
  else if x.width ≤ k then x.wrap x.mask
  else x.wrap ((x.value >>> k) ||| (x.mask ^^^ (x.mask >>> k)))

/-- A shift by a signed count, which must not be negative. -/
def shiftBy (shift : Word → Nat → Word) (x : Word) (k : Int) : Except Error Word :=
  if k < 0 then .error .negativeShift else .ok (shift x k.toNat)

def shl : Word → Int → Except Error Word := shiftBy shiftLeft
def shr : Word → Int → Except Error Word := shiftBy shiftRight
def sar : Word → Int → Except Error Word := shiftBy shiftRightArith

/-- Circular shift left by `k` modulo the width; a negative `k` turns right. -/
def rotateLeft (x : Word) (k : Int) : Word :=
  let s := (k % x.width).toNat
  if s = 0 then x else x.wrap ((x.value <<< s) ||| (x.value >>> (x.width - s)))

def rotateRight (x : Word) (k : Int) : Word := x.rotateLeft (-k)

@[simp] theorem width_not (x : Word) : x.not.width = x.width := rfl

@[simp] theorem width_shiftLeft (x : Word) (k : Nat) : (x.shiftLeft k).width = x.width := by
  unfold shiftLeft; split <;> rfl

@[simp] theorem width_shiftRight (x : Word) (k : Nat) : (x.shiftRight k).width = x.width := by
  unfold shiftRight; split <;> rfl

@[simp] theorem width_shiftRightArith (x : Word) (k : Nat) :
    (x.shiftRightArith k).width = x.width := by
  unfold shiftRightArith
  split
  · simp
  · split <;> rfl

@[simp] theorem width_rotateLeft (x : Word) (k : Int) : (x.rotateLeft k).width = x.width := by
  unfold rotateLeft; dsimp only; split <;> rfl

@[simp] theorem width_rotateRight (x : Word) (k : Int) : (x.rotateRight k).width = x.width :=
  width_rotateLeft x (-k)

theorem and_of_width {x y : Word} (h : y.width = x.width) :
    x.and y = .ok (x.wrap (x.value &&& y.value)) := by
  simp [and, sameWidth, h, bind, Except.bind, pure, Except.pure]

theorem or_of_width {x y : Word} (h : y.width = x.width) :
    x.or y = .ok (x.wrap (x.value ||| y.value)) := by
  simp [or, sameWidth, h, bind, Except.bind, pure, Except.pure]

theorem xor_of_width {x y : Word} (h : y.width = x.width) :
    x.xor y = .ok (x.wrap (x.value ^^^ y.value)) := by
  simp [xor, sameWidth, h, bind, Except.bind, pure, Except.pure]

end WordMachine.Word
