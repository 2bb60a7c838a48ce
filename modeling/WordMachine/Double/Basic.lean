/-!
Double-precision numbers: a sign and `mantissa · 2 ^ exponent`, or one of the values that are not
finite.
-/
namespace WordMachine

inductive Double
  | nan
  | infinite (negative : Bool)
  | finite (negative : Bool) (mantissa : Nat) (exponent : Int)
deriving DecidableEq

namespace Double

def ofBits (negative : Bool) (bits : Nat) : Double :=
  let exponent := (bits >>> 52) % 0x800
  let fraction := bits % 0x10000000000000
  if exponent = 0x7FF then .infinite negative
  else if exponent = 0 then .finite negative fraction (-1074)
  else .finite negative (0x10000000000000 + fraction) (exponent - 1075)

/-- The double nearest to `mantissa · 10 ^ exponent`. Sizes beyond the range of doubles are decided
by the number of digits alone. -/
def nearest (negative : Bool) (mantissa : Nat) (exponent : Int) : Double :=
  let magnitude : Int := (Nat.toDigits 10 mantissa).length + exponent
  if mantissa = 0 ∨ magnitude < -330 then .finite negative 0 (-1074)
  else if 310 < magnitude then .infinite negative
  else
    let x := Float.ofScientific mantissa (decide (exponent < 0)) exponent.natAbs
    ofBits negative x.toBits.toNat

def signed (negative : Bool) (mantissa : Nat) : Int := if negative then -mantissa else mantissa

def toInt? : Double → Option Int
  | .finite negative m e =>
    if 0 ≤ e then some (signed negative (m <<< e.toNat))
    else
      let d := 1 <<< e.natAbs
      if m % d = 0 then some (signed negative (m / d)) else none
  | _ => none

/-- Whether `low ≤ x` and `x < high`. -/
def within (low high : Int) : Double → Bool
  | .finite negative m e =>
    let x := signed negative (m <<< e.toNat)
    let d : Int := (1 <<< (-e).toNat : Nat)
    decide (low * d ≤ x ∧ x < high * d)
  | _ => false

end Double
end WordMachine
