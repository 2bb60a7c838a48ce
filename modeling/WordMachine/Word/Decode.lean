import WordMachine.Checked
import WordMachine.Json.Writer

/-!
Words in data. A plain integer stands for a word of the usual width. How wide a word may be is a
limit of the reader, who may have room for all.
-/
namespace WordMachine.Word

/-- Whether there is room for words of a width, given the widest for which there is. -/
def fitsIn (room : Option Nat) (width : Int) : Bool := room.all fun widest => width ≤ widest

def usualRoom : Option Nat := some storedLimit

def ofIntChecked (room : Option Nat) (value width : Int) : Checked Word :=
  if fitsIn room width then
    match ofInt value width with
    | .ok x => .ok x
    | .error e => .fail (.rejected (.word e))
  else .fail (.rejected (.word (.tooWide width.toNat)))

def onesChecked (width : Int) : Except Error Word :=
  if fitsIn usualRoom width then ones width else .error (.tooWide width.toNat)

def ofFields (room : Option Nat) (fields : Checked.Fields) : Checked Word :=
  (Prod.mk <$> Checked.required fields "value" Checked.integer
    <*> Checked.orDefault fields "width" (defaultWidth : Int) Checked.integer).andThen
    fun (value, width) => ofIntChecked room value width

/-- A word written short: a value, or a value and a width. -/
def decodeShort (j : Json) : Checked Word :=
  let (value, width) := match j with
    | .arr [v, w] => (v, [("width", w)])
    | v => (v, [])
  ofFields usualRoom (match value with
    | .null => width
    | v => ("value", v) :: width)

def decode (room : Option Nat) : Json → Checked Word
  | .int n => ofFields room [("value", .int n)]
  | .obj fields => ofFields room fields
  | _ => .fail .notRecord

def toJson (x : Word) : Json := .obj [("value", .int x.value), ("width", .int x.width)]

end WordMachine.Word
