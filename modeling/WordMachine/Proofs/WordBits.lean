import Mathlib.Algebra.Group.Int.Defs
import Mathlib.Algebra.Group.Nat.Defs
import WordMachine.Word.Bitwise

/-!
The bits of words. A word is known by the bits within its width, and a list of bits spells the
number whose bits they are.
-/
namespace WordMachine.Word

variable {x y : Word} {i : ℕ}

theorem card_eq_two_pow (width : ℕ) : card width = 2 ^ width := rfl

theorem testBit_of_width_le (x : Word) (h : x.width ≤ i) : x.value.testBit i = false := by
  apply Nat.testBit_lt_two_pow
  calc x.value < 2 ^ x.width := x.value_lt
    _ ≤ 2 ^ i := Nat.pow_le_pow_right (by omega) h

theorem ext_testBit (hw : x.width = y.width)
    (h : ∀ i < x.width, x.value.testBit i = y.value.testBit i) : x = y := by
  apply ext_value hw
  apply Nat.eq_of_testBit_eq
  intro i
  by_cases hi : i < x.width
  · exact h i hi
  · rw [x.testBit_of_width_le (by omega), y.testBit_of_width_le (by omega)]

@[simp] theorem testBit_mod_card (n width i : ℕ) :
    (n % card width).testBit i = (decide (i < width) && n.testBit i) :=
  Nat.testBit_mod_two_pow n width i

@[simp] theorem testBit_mask (x : Word) (i : ℕ) : x.mask.testBit i = decide (i < x.width) :=
  Nat.testBit_two_pow_sub_one x.width i

theorem wrap_of_lt (x : Word) {n : ℕ} (h : n < card x.width) : (x.wrap n).value = n :=
  Nat.mod_eq_of_lt h

@[simp] theorem wrap_value (x : Word) : x.wrap x.value = x :=
  ext_value rfl (x.wrap_of_lt x.value_lt)

theorem value_not (x : Word) : x.not.value = card x.width - 1 - x.value := by
  have hx := x.value_lt
  apply x.wrap_of_lt
  unfold mask
  omega

/-- A bit within the width is there to be read. -/
theorem bit_of_lt (x : Word) (h : i < x.width) : x.bit i = .ok (x.value.testBit i) := by
  unfold bit
  rw [if_pos (by omega), Int.toNat_natCast]

theorem testBit_bitsValue (bs : List Bool) (i : ℕ) :
    (bitsValue bs).testBit i = bs[i]?.getD false := by
  induction bs generalizing i with
  | nil => simp [bitsValue]
  | cons b bs ih =>
    have hb : b.toNat ≤ 1 := Bool.toNat_le b
    cases i with
    | zero =>
      have hmod : (b.toNat + 2 * bitsValue bs) % 2 = b.toNat := by omega
      rw [bitsValue, Nat.testBit_zero, hmod]
      cases b <;> rfl
    | succ i =>
      have hdiv : (b.toNat + 2 * bitsValue bs) / 2 = bitsValue bs := by omega
      rw [bitsValue, Nat.testBit_succ, hdiv, ih, List.getElem?_cons_succ]

/-- The bits of a word spell its value. -/
@[simp] theorem bitsValue_bits (x : Word) : bitsValue x.bits = x.value := by
  apply Nat.eq_of_testBit_eq
  intro i
  rw [testBit_bitsValue]
  by_cases hi : i < x.width
  · simp [bits, hi]
  · simp [bits, hi, x.testBit_of_width_le (Nat.le_of_not_lt hi)]

end WordMachine.Word
