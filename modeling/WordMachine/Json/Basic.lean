/-! JSON values. A number written with a point or an exponent is kept apart from an integer. -/
namespace WordMachine

inductive Json
  | null
  | bool (b : Bool)
  | int (n : Int)
  /-- The number `mantissa · 10 ^ exponent`, or its negative. -/
  | decimal (negative : Bool) (mantissa : Nat) (exponent : Int)
  | infinity (negative : Bool)
  /-- The number that is none. -/
  | nan
  | str (s : String)
  | arr (items : List Json)
  | obj (fields : List (String × Json))
deriving Inhabited

namespace Json

/-- The value of a key; of a key given twice the last counts. -/
def get? (fields : List (String × Json)) (key : String) : Option Json := fields.reverse.lookup key

end Json
end WordMachine
