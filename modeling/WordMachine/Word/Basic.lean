/-! Words: bit patterns of a fixed width, read as unsigned numbers. -/
namespace WordMachine

def defaultWidth : Nat := 12

def Word.card (width : Nat) : Nat := Nat.pow 2 width

/-- A pattern of `width` bits, held as the number it spells in base two. -/
structure Word where
  width : Nat
  value : Nat
  width_pos : 0 < width
  value_lt : value < Word.card width
deriving DecidableEq

instance : Hashable Word := ⟨fun x => mixHash (hash x.width) (hash x.value)⟩

inductive Word.Error
  | width (got : Int)
  | range (value : Int) (width : Nat)
  /-- A width of more bits than there is room for. -/
  | tooWide (width : Nat)
  | mismatch (left right : Nat)
  | negativeShift
  | bitIndex (index : Int) (width : Nat)
  /-- A number of more digits than can be written. -/
  | digits
deriving DecidableEq

namespace Word

/-- The largest width of a word in data. -/
def storedLimit : Nat := 0x1000000000

/-- The largest width for which there could be room at all. -/
def widthLimit : Nat := 69175290276410818320

/-- How many digits a number may have in a message. -/
def digitLimit : Nat := 4300

def digitMessage : String :=
  s!"Exceeds the limit ({digitLimit} digits) for integer string conversion; " ++
    "use sys.set_int_max_str_digits() to increase the limit"

def Error.message : Error → String
  | .width got => s!"width must be positive, got {got}"
  | .range v w =>
    if card w ≤ Nat.pow 10 digitLimit then
      s!"value {v} out of range for a {w}-bit IU (0..{card w - 1})"
    else digitMessage
  | .tooWide w => if w ≤ widthLimit then "" else "too many digits in integer"
  | .mismatch left right => s!"width mismatch: {left}-bit vs {right}-bit IU"
  | .negativeShift => "negative shift count"
  | .bitIndex i w => s!"bit index {i} out of range (0..{w - 1})"
  | .digits => digitMessage

theorem ext_value {x y : Word} (hw : x.width = y.width) (hv : x.value = y.value) : x = y := by
  cases x
  cases y
  simp_all

theorem card_pos (width : Nat) : 0 < card width := Nat.two_pow_pos width

theorem card_succ (width : Nat) : card (width + 1) = 2 * card width := Nat.mul_comm _ _

/-- The low bits of `n`, at the width of `x`. -/
def wrap (x : Word) (n : Nat) : Word :=
  ⟨x.width, n % card x.width, x.width_pos, Nat.mod_lt _ (card_pos _)⟩

@[simp] theorem width_wrap (x : Word) (n : Nat) : (x.wrap n).width = x.width := rfl
@[simp] theorem value_wrap (x : Word) (n : Nat) : (x.wrap n).value = n % card x.width := rfl

/-- A word from a number and a width; both are checked, the width first. -/
def ofInt (value width : Int) : Except Error Word :=
  match width with
  | .ofNat (w + 1) =>
    match value with
    | .ofNat v =>
      if h : v < card (w + 1) then .ok ⟨w + 1, v, w.succ_pos, h⟩ else .error (.range v (w + 1))
    | v => .error (.range v (w + 1))
  | w => .error (.width w)

def zero (width : Int) : Except Error Word := ofInt 0 width

def ones (width : Int) : Except Error Word :=
  if width < 0 then .error .negativeShift else ofInt (card width.toNat - 1) width

/-- The number that a list of bits spells, the least significant bit first. -/
def bitsValue : List Bool → Nat
  | [] => 0
  | b :: bs => b.toNat + 2 * bitsValue bs

theorem bitsValue_lt (bs : List Bool) : bitsValue bs < card bs.length := by
  induction bs with
  | nil => exact card_pos 0
  | cons b bs ih =>
    have : b.toNat ≤ 1 := Bool.toNat_le b
    rw [List.length_cons, card_succ, bitsValue]
    omega

def ofBools (bs : List Bool) (h : 0 < bs.length) : Word :=
  ⟨bs.length, bitsValue bs, h, bitsValue_lt bs⟩

/-- A word from a list of numbers, of which only the parities count. -/
def ofBits (bits : List Int) : Except Error Word :=
  let bs := bits.map fun b => decide (b % 2 = 1)
  if h : 0 < bs.length then .ok (ofBools bs h) else .error (.width 0)

def mask (x : Word) : Nat := card x.width - 1

def msb (x : Word) : Bool := x.value.testBit (x.width - 1)

/-- The bit at an index, 0 being the least significant. -/
def bit (x : Word) (index : Int) : Except Error Bool :=
  if 0 ≤ index ∧ index < x.width then .ok (x.value.testBit index.toNat)
  else .error (.bitIndex index x.width)

/-- All bits, the least significant first. -/
def bits (x : Word) : List Bool := (List.range x.width).map x.value.testBit

@[simp] theorem length_bits (x : Word) : x.bits.length = x.width := by simp [bits]

end Word
end WordMachine
