import Mathlib.Order.BooleanAlgebra.Basic
import WordMachine.Proofs.Content
import WordMachine.Proofs.WordBits

/-!
The Boolean algebra of words. The words of one width are all the ways to set so many bits, and the
bitwise operations treat each bit alone, so what holds of bits holds of words. In the order of this
algebra a word is below another if its bits are among those of the other; the order of the numbers
is a different one.
-/
namespace WordMachine.Word

abbrev Sized (w : ℕ) := { x : Word // x.width = w }

namespace Sized

variable {w : ℕ}

def bitAt (x : Sized w) (i : Fin w) : Bool := x.val.value.testBit i

theorem bitAt_injective : Function.Injective (@bitAt w) := by
  rintro ⟨x, hx⟩ ⟨y, hy⟩ h
  refine Subtype.ext (ext_testBit (hx.trans hy.symm) fun i hi => ?_)
  exact congrFun h ⟨i, hx ▸ hi⟩

theorem eq_val_of_testBit {x : Word} {y : Sized w} (hx : x.width = w)
    (h : ∀ i : Fin w, x.value.testBit i = bitAt y i) : x = y.val := by
  have hbits : bitAt ⟨x, hx⟩ = bitAt y := funext h
  exact congrArg Subtype.val (bitAt_injective hbits)

/-- What lies beyond the width is cut off, and no bit within. -/
theorem wrap_eq_val {x y : Sized w} {n : ℕ} (h : ∀ i : Fin w, n.testBit i = bitAt y i) :
    x.val.wrap n = y.val := by
  refine eq_val_of_testBit x.prop fun i => ?_
  rw [value_wrap, testBit_mod_card, x.prop, h i]
  simp

section Algebra

variable [hw : Fact (0 < w)]

theorem length_ofFn_pos (f : Fin w → Bool) : 0 < (List.ofFn f).length := by
  rw [List.length_ofFn]
  exact hw.out

def ofFn (f : Fin w → Bool) : Sized w :=
  ⟨ofBools (List.ofFn f) (length_ofFn_pos f), List.length_ofFn⟩

theorem bitAt_ofFn (f : Fin w → Bool) : bitAt (ofFn f) = f := by
  funext i
  simp [bitAt, ofFn, ofBools, testBit_bitsValue]

theorem ofFn_bitAt (x : Sized w) : ofFn (bitAt x) = x := bitAt_injective (bitAt_ofFn (bitAt x))

/-- Words of one width have the algebra of their bits. -/
instance : BooleanAlgebra (Sized w) := Equiv.booleanAlgebra ⟨bitAt, ofFn, ofFn_bitAt, bitAt_ofFn⟩

variable (x y : Sized w) (i : Fin w)

@[simp] theorem bitAt_bot : bitAt (⊥ : Sized w) i = false := congrFun (bitAt_ofFn ⊥) i

@[simp] theorem bitAt_top : bitAt (⊤ : Sized w) i = true := congrFun (bitAt_ofFn ⊤) i

@[simp] theorem bitAt_inf : bitAt (x ⊓ y) i = (bitAt x i && bitAt y i) :=
  congrFun (bitAt_ofFn (bitAt x ⊓ bitAt y)) i

@[simp] theorem bitAt_sup : bitAt (x ⊔ y) i = (bitAt x i || bitAt y i) :=
  congrFun (bitAt_ofFn (bitAt x ⊔ bitAt y)) i

@[simp] theorem bitAt_compl : bitAt xᶜ i = !bitAt x i := congrFun (bitAt_ofFn (bitAt x)ᶜ) i

theorem zero_eq_bot : zero w = .ok (⊥ : Sized w).val := by
  have hok : ofInt (0 : ℕ) w = .ok _ := ofInt_eq_ok hw.out (card_pos w)
  rw [zero, ← Int.natCast_zero, hok]
  congr 1
  exact eq_val_of_testBit rfl fun i => by simp

theorem ones_eq_top : ones w = .ok (⊤ : Sized w).val := by
  have hpos := card_pos w
  have hcast : (card w : ℤ) - 1 = (card w - 1 : ℕ) := by omega
  have hok : ofInt (card w - 1 : ℕ) w = .ok _ := ofInt_eq_ok hw.out (by omega)
  rw [ones, if_neg (by omega), Int.toNat_natCast, hcast, hok]
  congr 1
  refine eq_val_of_testBit rfl fun i => ?_
  rw [bitAt_top]
  exact (Nat.testBit_two_pow_sub_one w i).trans (decide_eq_true i.isLt)

theorem and_eq_inf : x.val.and y.val = .ok (x ⊓ y).val := by
  rw [and_of_width (y.prop.trans x.prop.symm), wrap_eq_val fun i => ?_]
  rw [bitAt_inf, Nat.testBit_and]
  rfl

theorem or_eq_sup : x.val.or y.val = .ok (x ⊔ y).val := by
  rw [or_of_width (y.prop.trans x.prop.symm), wrap_eq_val fun i => ?_]
  rw [bitAt_sup, Nat.testBit_or]
  rfl

theorem xor_eq_sup_inf : x.val.xor y.val = .ok (x ⊓ yᶜ ⊔ xᶜ ⊓ y).val := by
  rw [xor_of_width (y.prop.trans x.prop.symm), wrap_eq_val fun i => ?_]
  rw [bitAt_sup, bitAt_inf, bitAt_inf, bitAt_compl, bitAt_compl, Nat.testBit_xor, bitAt, bitAt]
  cases x.val.value.testBit i <;> cases y.val.value.testBit i <;> rfl

theorem not_eq_compl : x.val.not = xᶜ.val := by
  refine eq_val_of_testBit x.prop fun i => ?_
  rw [bitAt_compl, value_not, Nat.sub_sub, Nat.add_comm, card_eq_two_pow,
    Nat.testBit_two_pow_sub_succ x.val.value_lt, x.prop]
  simp [bitAt]

end Algebra

end Sized

theorem natCast_value_not (x : Word) : (x.not.value : ℤ) = 2 ^ x.width - 1 - x.value := by
  have hlt := x.value_lt
  have hcard : (card x.width : ℤ) = 2 ^ x.width := by simp [card_eq_two_pow]
  rw [value_not, ← hcard]
  omega

/-- The complement among all integers is negative; cut to the width it is the complement of the
word. -/
theorem value_not_eq_emod (x : Word) : (x.not.value : ℤ) = ~~~(x.value : ℤ) % 2 ^ x.width := by
  have hneg : ~~~(x.value : ℤ) = -(x.value + 1) := Int.negSucc_eq x.value
  have hsum : ~~~(x.value : ℤ) + 2 ^ x.width = x.not.value := by
    rw [natCast_value_not, hneg]
    omega
  have hlt : (x.not.value : ℤ) < 2 ^ x.width := by
    rw [natCast_value_not]
    omega
  rw [← Int.add_emod_right, hsum, Int.emod_eq_of_lt (by omega) hlt]

theorem sameWidth_of_ne {x y : Word} (h : x.width ≠ y.width) :
    sameWidth x y = .error (.mismatch x.width y.width) := if_neg (Ne.symm h)

/-- The words of each width are a Boolean algebra: its bottom and top are the words of zeros and of
ones, and meet, join and complement are the bitwise operations, which always have a result there.
The exclusive or is what is in one word but not in the other, and the complement is worth what is
missing to the word of ones. Words of different widths have no result. -/
theorem words_boolean_algebra :
    (∀ w : ℕ, 0 < w → ∃ _ : BooleanAlgebra (Sized w),
      zero w = .ok (⊥ : Sized w).val ∧ ones w = .ok (⊤ : Sized w).val ∧
      ∀ x y : Sized w, x.val.and y.val = .ok (x ⊓ y).val ∧ x.val.or y.val = .ok (x ⊔ y).val ∧
        x.val.not = xᶜ.val ∧ x.val.xor y.val = .ok (x ⊓ yᶜ ⊔ xᶜ ⊓ y).val ∧
        (x.val.not.value : ℤ) = 2 ^ w - 1 - x.val.value ∧
        (x.val.not.value : ℤ) = ~~~(x.val.value : ℤ) % 2 ^ w) ∧
    ∀ x y : Word, x.width ≠ y.width →
      x.and y = .error (.mismatch x.width y.width) ∧ x.or y = .error (.mismatch x.width y.width) ∧
      x.xor y = .error (.mismatch x.width y.width) := by
  constructor
  · intro w hw
    have : Fact (0 < w) := ⟨hw⟩
    refine ⟨inferInstance, Sized.zero_eq_bot, Sized.ones_eq_top, fun x y => ?_⟩
    have hvalue := x.val.natCast_value_not
    have hcut := x.val.value_not_eq_emod
    rw [x.prop] at hvalue hcut
    exact ⟨x.and_eq_inf y, x.or_eq_sup y, x.not_eq_compl, x.xor_eq_sup_inf y, hvalue, hcut⟩
  · intro x y h
    refine ⟨?_, ?_, ?_⟩
    · rw [and, sameWidth_of_ne h]
      rfl
    · rw [or, sameWidth_of_ne h]
      rfl
    · rw [xor, sameWidth_of_ne h]
      rfl

/-- At three bits 5 and 6 satisfy the law for the complement of a meet, since every Boolean algebra
does; with a word of four bits 5 has no meet. -/
theorem words_boolean_algebra_narrow :
    let word (v : Fin 8) : Word := ⟨3, v, by decide, v.isLt⟩
    let wide : Word := ⟨4, 5, by decide, by decide⟩
    0 < 3 ∧ (∃ meet, (word 5).and (word 6) = .ok meet ∧
      (word 5).not.or (word 6).not = .ok meet.not) ∧
      (word 5).not.not = word 5 ∧ ((word 5).not.value : ℤ) = 2 ∧
      (word 5).width ≠ wide.width ∧ (word 5).and wide = .error (.mismatch 3 4) := by
  intro word wide
  obtain ⟨hsame, hdifferent⟩ := words_boolean_algebra
  obtain ⟨algebra, -, -, hops⟩ := hsame 3 (by decide)
  let x : Sized 3 := ⟨word 5, rfl⟩
  let y : Sized 3 := ⟨word 6, rfl⟩
  obtain ⟨hand, -, hnot, -, hvalue, -⟩ := hops x y
  -- the complement is the one of the algebra for every word, so its laws carry over
  have hnot' (z : Sized 3) : z.val.not = zᶜ.val := (hops z z).2.2.1
  have hor : xᶜ.val.or yᶜ.val = .ok (x ⊓ y).val.not := by
    rw [(hops xᶜ yᶜ).2.1, hnot', compl_inf]
  have hne : (word 5).width ≠ wide.width := by decide
  refine ⟨by decide, ⟨_, hand, ?_⟩, ?_, hvalue, hne, (hdifferent _ _ hne).1⟩
  · rwa [← hnot', ← hnot'] at hor
  · exact (congrArg Word.not hnot).trans ((hnot' xᶜ).trans (congrArg Subtype.val (compl_compl x)))

end WordMachine.Word
