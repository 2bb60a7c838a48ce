import WordMachine.Double.Basic
import WordMachine.Word.Text

/-!
Numbers in decimal with the fewest digits that read back as the same double. Of two such decimals
the one nearer to the number is taken.
-/
namespace WordMachine.Double

/-- The reals that round to a number, as multiples of `1 / scale`. Both ends belong to it or
none. -/
structure Interval where
  low : Nat
  value : Nat
  high : Nat
  scale : Nat
  closed : Bool

/-- The interval around `mantissa · 2 ^ exponent`. Below a power of two the numbers lie closer. -/
def Interval.around (mantissa : Nat) (exponent : Int) : Interval :=
  let up (n : Nat) : Nat := n <<< (exponent - 2).toNat
  let narrow := mantissa = 0x10000000000000 ∧ -1074 < exponent
  ⟨up (4 * mantissa - if narrow then 1 else 2), up (4 * mantissa), up (4 * mantissa + 2),
    1 <<< (2 - exponent).toNat, mantissa % 2 = 0⟩

def Interval.contains (i : Interval) (n d : Nat) : Bool :=
  let x := n * i.scale
  if i.closed then i.low * d ≤ x && x ≤ i.high * d else i.low * d < x && x < i.high * d

/-- How many digits stand before the point; fewer than none if zeros follow it. -/
def Interval.point (i : Interval) : Int :=
  let k : Int := (Nat.toDigits 10 i.value).length - (Nat.toDigits 10 i.scale).length
  if i.value * Nat.pow 10 (-k).toNat < Nat.pow 10 k.toNat * i.scale then k else k + 1

def Interval.decimal? (i : Interval) (size : Nat) : Option Nat :=
  let shift := i.point - size
  let up := Nat.pow 10 (-shift).toNat
  let down := Nat.pow 10 shift.toNat
  let below := i.value * up / (i.scale * down)
  let left := i.value * up - below * (i.scale * down)
  let right := (below + 1) * (i.scale * down) - i.value * up
  let hits (n : Nat) := i.contains (n * down) up
  match hits below, hits (below + 1) with
  | true, true => some (if left < right ∨ (left = right ∧ below % 2 = 0) then below else below + 1)
  | true, false => some below
  | false, true => some (below + 1)
  | false, false => none

def Interval.shortest (i : Interval) : List Char × Int :=
  let size := ((List.range 18).find? fun n => (i.decimal? n).isSome).getD 17
  let n := (i.decimal? size).getD 0
  let ds := Nat.toDigits 10 n
  let point := i.point + ds.length - size
  let trimmed := (ds.reverse.dropWhile (· = '0')).reverse
  (trimmed, point)

/-- An exponent with its sign and at least two digits. -/
def exponentText (e : Int) : String :=
  let sign := if e < 0 then "-" else "+"
  "e" ++ sign ++ String.ofList (padLeft '0' 2 (Nat.toDigits 10 e.natAbs))

/-- Digits with a point, or with an exponent where more than three zeros would follow the point or
more than sixteen digits stand before it. -/
def layout (digits : List Char) (point : Int) : String :=
  let zeros (n : Int) := List.replicate n.toNat '0'
  if -3 ≤ point ∧ point ≤ 16 then
    if point ≤ 0 then "0." ++ String.ofList (zeros (-point) ++ digits)
    else
      let whole := digits.take point.toNat ++ zeros (point - digits.length)
      let rest := digits.drop point.toNat
      String.ofList whole ++ "." ++ String.ofList (if rest.isEmpty then ['0'] else rest)
  else
    let rest := digits.drop 1
    String.ofList (digits.take 1) ++ (if rest.isEmpty then "" else "." ++ String.ofList rest)
      ++ exponentText (point - 1)

def text : Double → String
  | .nan => "nan"
  | .infinite negative => if negative then "-inf" else "inf"
  | .finite negative m e =>
    let sign := if negative then "-" else ""
    if m = 0 then sign ++ "0.0"
    else
      let (digits, point) := (Interval.around m e).shortest
      sign ++ layout digits point

end WordMachine.Double
