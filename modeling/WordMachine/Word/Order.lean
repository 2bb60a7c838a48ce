import WordMachine.Word.Bitwise

/-! The order of words of one width, and the least of several. -/
namespace WordMachine.Word

def lt (x y : Word) : Except Error Bool := do
  sameWidth x y
  return decide (x.value < y.value)

def le (x y : Word) : Except Error Bool := do
  sameWidth x y
  return decide (x.value ≤ y.value)

def least (x : Word) : List Word → Except Error Word
  | [] => .ok x
  | y :: ys => do
    let smaller ← y.lt x
    least (if smaller then y else x) ys

end WordMachine.Word
