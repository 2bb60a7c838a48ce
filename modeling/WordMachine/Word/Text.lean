import WordMachine.Word.Basic

/-! How words are written. -/
namespace WordMachine

/-- `text` with `fill` in front, up to a length of `size`. -/
def padLeft (fill : Char) (size : Nat) (text : List Char) : List Char :=
  List.replicate (size - text.length) fill ++ text

namespace Word

/-- The value, with the width where it is not the usual one. -/
def describe (x : Word) : String :=
  if x.width = defaultWidth then s!"IU({x.value})" else s!"IU({x.value}, width={x.width})"

def numbers (x : Word) : List Int := [x.value, x.width]

/-- Whether a number has no more digits than can be written. -/
def isShort (n : Int) : Bool := n.natAbs < Nat.pow 10 digitLimit

def describeChecked (x : Word) : Except Error String :=
  if x.value < Nat.pow 10 digitLimit then .ok x.describe else .error .digits

/-- Hexadecimal, with a digit for every four bits begun. -/
def hex (x : Word) : String :=
  "0x" ++ String.ofList (padLeft '0' ((x.width + 3) / 4) (Nat.toDigits 16 x.value))

end Word
end WordMachine
