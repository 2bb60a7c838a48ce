import WordMachine.Text.Blank

/-!
Integers in text. A plain integer is a minus sign or none and digits without a zero in front. Other
texts are made plain first: blanks around are dropped, then a plus sign, zeros in front, a fraction
of zeros and single underscores.
-/
namespace WordMachine.Text

def plainLimit : Nat := 4300

inductive Reading
  | value (n : Int)
  /-- A text that begins like a plain integer of too many digits. -/
  | tooLong
  | unreadable
deriving DecidableEq

/-- Digits that do not start with a zero, unless it is the only one. -/
def plainDigits (cs : List Char) : Bool :=
  cs = ['0'] || (cs.all Char.isDigit && !cs.isEmpty && cs.head? ≠ some '0')

def readPlain (cs : List Char) : Reading :=
  let (negative, digits) := match cs with
    | '-' :: r => (true, r)
    | r => (false, r)
  if digits.head? ≠ some '0' ∧ plainLimit < (digits.takeWhile Char.isDigit).length then .tooLong
  else if !plainDigits digits then .unreadable
  else
    let n : Int := Nat.ofDigitChars 10 digits 0
    .value (if negative then -n else n)

/-- What follows zeros and underscores in front. Before a point the last of them is kept, and if
nothing else follows the last one is all that is left. -/
def dropZeros (last : Char) : List Char → Option (List Char)
  | [] => some [last]
  | c :: cs =>
    if c = '0' ∨ c = '_' then dropZeros c cs
    else if c = '-' ∨ c.isDigit then some (c :: cs)
    else if c = '.' then some (last :: c :: cs)
    else none

/-- A number without zeros in front; what starts with neither a digit nor a minus sign is none. -/
def withoutZeros : List Char → Option (List Char)
  | [] => none
  | c :: cs =>
    if c = '0' then dropZeros c cs
    else if c.isDigit then some (c :: cs)
    else none

/-- Drops a point with nothing but zeros after it. -/
def withoutFraction (cs : List Char) : List Char :=
  match cs.dropWhile (· ≠ '.') with
  | _ :: z :: zs => if (z :: zs).all (· = '0') then cs.takeWhile (· ≠ '.') else cs
  | _ => cs

def hasDouble : List Char → Bool
  | '_' :: '_' :: _ => true
  | _ :: cs => hasDouble cs
  | [] => false

/-- Drops underscores if each stands alone and within the text. -/
def withoutUnderscores (cs : List Char) : List Char :=
  if cs.head? = some '_' ∨ cs.getLast? = some '_' ∨ hasDouble cs then cs else cs.filter (· ≠ '_')

/-- The plain form of a trimmed text. A plus sign does not go with a minus sign. -/
def plain (cs : List Char) : Option (List Char) := do
  let body ← match cs with
    | '+' :: r => withoutZeros r
    | '-' :: r => (withoutZeros r).map ('-' :: ·)
    | r => withoutZeros r
  return withoutUnderscores (withoutFraction body)

def readInteger (s : String) : Reading :=
  match readPlain s.toList with
  | .unreadable =>
    match (plain (trimBlank s.toList)).map readPlain with
    | some (.value n) => .value n
    | _ => .unreadable
  | reading => reading

end WordMachine.Text
