import WordMachine.Proofs.Effects
import WordMachine.Proofs.WordBits

/-!
Shifts. A shift by some count is as many shifts by one, for every count: also where the count
reaches the width or goes beyond it. In integers a shift multiplies or divides by a power of two.
-/
namespace WordMachine

namespace Word

variable {i : ℕ}

theorem testBit_shiftLeft (x : Word) (k : ℕ) (hi : i < x.width) :
    (x.shiftLeft k).value.testBit i = (decide (k ≤ i) && x.value.testBit (i - k)) := by
  unfold shiftLeft
  split
  · have hk : ¬ k ≤ i := by omega
    simp [hk]
  · simp [hi, Nat.testBit_shiftLeft]

theorem testBit_shiftRight (x : Word) (k i : ℕ) :
    (x.shiftRight k).value.testBit i = x.value.testBit (k + i) := by
  unfold shiftRight
  split
  · simp [x.testBit_of_width_le (show x.width ≤ k + i by omega)]
  · by_cases hi : i < x.width
    · simp [hi]
    · simp [hi, x.testBit_of_width_le (show x.width ≤ k + i by omega)]

/-- The top bit stands for all that would come from above it. -/
theorem testBit_shiftRightArith (x : Word) (k : ℕ) (hi : i < x.width) :
    (x.shiftRightArith k).value.testBit i = x.value.testBit (min (k + i) (x.width - 1)) := by
  unfold shiftRightArith
  split
  next hmsb =>
    rw [testBit_shiftRight]
    by_cases hk : k + i < x.width
    · rw [Nat.min_eq_left (by omega)]
    · rw [Nat.min_eq_right (by omega), x.testBit_of_width_le (by omega)]
      exact hmsb.symm
  next hmsb =>
    have htop : x.value.testBit (x.width - 1) = true := eq_true_of_ne_false hmsb
    split
    next hk => simp [hi, htop, Nat.min_eq_right (show x.width - 1 ≤ k + i by omega)]
    next hk =>
      by_cases hki : k + i < x.width
      · simp [hi, hki, Nat.min_eq_left (show k + i ≤ x.width - 1 by omega)]
      · simp [hi, hki, htop, Nat.min_eq_right (show x.width - 1 ≤ k + i by omega)]

theorem value_shiftLeft (x : Word) (k : ℕ) :
    (x.shiftLeft k).value = x.value * 2 ^ k % 2 ^ x.width := by
  unfold shiftLeft
  split
  next hk =>
    have hdvd : 2 ^ x.width ∣ x.value * 2 ^ k := Nat.dvd_mul_left_of_dvd (Nat.pow_dvd_pow 2 hk) _
    rw [value_wrap, Nat.zero_mod, Nat.mod_eq_zero_of_dvd hdvd]
  next => rw [value_wrap, Nat.shiftLeft_eq, card_eq_two_pow]

theorem value_shiftRight (x : Word) (k : ℕ) : (x.shiftRight k).value = x.value / 2 ^ k := by
  apply Nat.eq_of_testBit_eq
  intro i
  rw [testBit_shiftRight, Nat.testBit_div_two_pow, Nat.add_comm]

/-- The number that a word stands for in two's complement. -/
def signed (x : Word) : ℤ := if x.msb then x.value - 2 ^ x.width else x.value

theorem signed_eq_toInt (x : Word) : x.signed = (BitVec.ofNat x.width x.value).toInt := by
  have hmsb : (BitVec.ofNat x.width x.value).msb = x.msb := by
    rw [BitVec.msb_eq_getLsbD_last, BitVec.getLsbD_ofNat,
      decide_eq_true (by have := x.width_pos; omega), Bool.true_and]
    rfl
  have hvalue : (BitVec.ofNat x.width x.value).toNat = x.value :=
    (BitVec.toNat_ofNat _ _).trans (Nat.mod_eq_of_lt x.value_lt)
  rw [BitVec.toInt_eq_msb_cond, hmsb, hvalue]
  unfold signed
  simp

theorem value_eq_signed_emod (x : Word) : (x.value : ℤ) = x.signed % 2 ^ x.width := by
  have hx : (x.value : ℤ) < 2 ^ x.width := by exact_mod_cast x.value_lt
  unfold signed
  split
  · rw [Int.sub_emod_right, Int.emod_eq_of_lt (Int.natCast_nonneg _) hx]
  · rw [Int.emod_eq_of_lt (Int.natCast_nonneg _) hx]

/-- An arithmetic shift divides the signed number. -/
theorem signed_shiftRightArith (x : Word) (k : ℕ) :
    (x.shiftRightArith k).signed = x.signed / 2 ^ k := by
  have hbits : BitVec.ofNat x.width (x.shiftRightArith k).value =
      (BitVec.ofNat x.width x.value).sshiftRight k := by
    apply BitVec.eq_of_getLsbD_eq
    intro i hi
    rw [BitVec.getLsbD_sshiftRight, BitVec.msb_eq_getLsbD_last, BitVec.getLsbD_ofNat,
      BitVec.getLsbD_ofNat, BitVec.getLsbD_ofNat, testBit_shiftRightArith x k hi]
    by_cases hk : k + i < x.width
    · simp [hi, hk, Nat.min_eq_left (show k + i ≤ x.width - 1 by omega)]
    · have htop : x.width - 1 < x.width := by omega
      simp [hi, hk, htop, Nat.min_eq_right (show x.width - 1 ≤ k + i by omega)]
  rw [signed_eq_toInt, signed_eq_toInt, width_shiftRightArith, hbits, BitVec.toInt_sshiftRight,
    Int.shiftRight_eq_div_pow]
  simp

end Word

namespace Alu

inductive Shift
  | left
  | right
  | arith

namespace Shift

def opcode : Shift → Opcode
  | left => .shl
  | right => .shr
  | arith => .sar

theorem opcode_setsFlags (s : Shift) : s.opcode ≠ .loadk ∧ s.opcode ≠ .mov := by
  cases s <;> simp [opcode]

def apply : Shift → Word → ℕ → Word
  | left => Word.shiftLeft
  | right => Word.shiftRight
  | arith => Word.shiftRightArith

def out : Shift → Word → Bool
  | left, x => x.msb
  | right, x => x.value.testBit 0
  | arith, x => x.value.testBit 0

/-- The number that a shift gives; division rounds down. -/
def number : Shift → Word → ℕ → ℤ
  | left, x, k => x.value * 2 ^ k % 2 ^ x.width
  | right, x, k => x.value / 2 ^ k
  | arith, x, k => x.signed / 2 ^ k % 2 ^ x.width

@[simp] theorem width_apply (s : Shift) (x : Word) (k : ℕ) : (s.apply x k).width = x.width := by
  cases s with
  | left => exact x.width_shiftLeft k
  | right => exact x.width_shiftRight k
  | arith => exact x.width_shiftRightArith k

@[simp] theorem apply_zero (s : Shift) (x : Word) : s.apply x 0 = x := by
  apply Word.ext_testBit (s.width_apply x 0)
  intro i hi
  rw [width_apply] at hi
  cases s with
  | left => simp [apply, Word.testBit_shiftLeft x 0 hi]
  | right => simp [apply, Word.testBit_shiftRight]
  | arith =>
    have htop : i ≤ x.width - 1 := by omega
    simp [apply, Word.testBit_shiftRightArith x 0 hi, Nat.min_eq_left htop]

/-- One more place is one more shift by one. -/
theorem apply_succ (s : Shift) (x : Word) (k : ℕ) :
    s.apply x (k + 1) = s.apply (s.apply x k) 1 := by
  apply Word.ext_testBit (by simp)
  intro i hi
  rw [width_apply] at hi
  cases s with
  | left =>
    have hi' : i < (x.shiftLeft k).width := by simpa using hi
    simp only [apply]
    rw [Word.testBit_shiftLeft x (k + 1) hi, Word.testBit_shiftLeft _ 1 hi',
      Word.testBit_shiftLeft x k (by omega), Nat.sub_sub, Nat.add_comm 1 k]
    cases i with
    | zero => simp
    | succ i => simp
  | right =>
    simp only [apply, Word.testBit_shiftRight]
    rw [Nat.add_assoc]
  | arith =>
    have hi' : i < (x.shiftRightArith k).width := by simpa using hi
    simp only [apply]
    rw [Word.testBit_shiftRightArith x (k + 1) hi, Word.testBit_shiftRightArith _ 1 hi',
      Word.width_shiftRightArith, Word.testBit_shiftRightArith x k (by omega)]
    congr 1
    omega

/-- The carry of a shift is the bit that the last of so many shifts by one pushes out, if the bit
that is looked at is that one. -/
theorem shift_eq {s : Shift} {x : Word} {k index : ℕ} {beyond : Bool}
    (hbeyond : x.width < k → beyond = s.out (s.apply x (k - 1)))
    (hindex : k ≠ 0 → k ≤ x.width → x.value.testBit index = s.out (s.apply x (k - 1))) :
    shift s.apply x k index beyond =
      (s.apply x k, decide (k ≠ 0) && s.out (s.apply x (k - 1))) := by
  unfold shift
  split
  next hk => simp [hk]
  next hk =>
    split
    next hlt => simp [hk, hbeyond hlt]
    next hle => simp [hk, hindex hk (by omega)]

theorem binary_eq (s : Shift) (x y : Word) :
    binary s.opcode x y =
      .ok (s.apply x y.value, decide (y.value ≠ 0) && s.out (s.apply x (y.value - 1))) := by
  have hpos := x.width_pos
  cases s with
  | left =>
    apply congrArg Except.ok
    apply shift_eq (s := left)
    · intro hk
      simp only [apply, out, Word.msb, Word.width_shiftLeft]
      rw [Word.testBit_shiftLeft x _ (by omega), decide_eq_false (by omega), Bool.false_and]
    · intro hk hle
      simp only [apply, out, Word.msb, Word.width_shiftLeft]
      rw [Word.testBit_shiftLeft x _ (by omega), decide_eq_true (by omega), Bool.true_and]
      congr 1
      omega
  | right =>
    apply congrArg Except.ok
    apply shift_eq (s := right)
    · intro hk
      simp only [apply, out, Word.testBit_shiftRight]
      rw [x.testBit_of_width_le (by omega)]
    · intro hk hle
      simp only [apply, out, Word.testBit_shiftRight, Nat.add_zero]
  | arith =>
    apply congrArg Except.ok
    apply shift_eq (s := arith)
    · intro hk
      simp only [apply, out]
      rw [Word.testBit_shiftRightArith x _ hpos, Nat.min_eq_right (by omega)]
      rfl
    · intro hk hle
      simp only [apply, out]
      rw [Word.testBit_shiftRightArith x _ hpos, Nat.min_eq_left (by omega), Nat.add_zero]

theorem value_apply (s : Shift) (x : Word) (k : ℕ) : ((s.apply x k).value : ℤ) = s.number x k := by
  cases s with
  | left =>
    simp only [apply, number]
    rw [x.value_shiftLeft k]
    simp
  | right =>
    simp only [apply, number]
    rw [x.value_shiftRight k]
    simp
  | arith =>
    simp only [apply, number]
    rw [Word.value_eq_signed_emod, x.signed_shiftRightArith k, Word.width_shiftRightArith]

end Shift

/-- An operation executed time after time, on its own result and with the same second word. -/
def executeTimes (opcode : Opcode) (r : RegisterFile) (y : Word) (start : Word × Flags) :
    ℕ → Except Error (Word × Flags)
  | 0 => .ok start
  | n + 1 => do
    let (x, flags) ← executeTimes opcode r y start n
    execute (.known opcode) r flags (.known (.imm x)) (.known (.imm y))

theorem Shift.executeTimes_eq (s : Shift) {r : RegisterFile} {x one : Word}
    (hx : x.width = r.width) (hw : one.width = r.width) (hone : one.value = 1) (n : ℕ) :
    executeTimes s.opcode r one (withFlags (x, false)) n =
      .ok (withFlags (s.apply x n, decide (n ≠ 0) && s.out (s.apply x (n - 1)))) := by
  induction n with
  | zero => simp [executeTimes]
  | succ n ih =>
    have hn : Denotes r (.known (.imm (s.apply x n))) (s.apply x n) := .imm (by simpa using hx)
    unfold executeTimes
    rw [ih, ok_bind]
    refine (hn.execute s.opcode_setsFlags (.imm hw) _ (s.binary_eq _ _)).trans ?_
    rw [hone, ← s.apply_succ]
    simp

/-- A shift by a count gives what as many shifts by one give, with the carry of the last of them,
and none if there is none. Zero tells whether the result is zero. In integers the result is the
number multiplied by a power of two, or divided by it and rounded down, in the range of the
words. -/
theorem shift_exact {r : RegisterFile} (hr : r.WellFormed) {a b : Field Argument} {x y : Word}
    (ha : Denotes r a x) (hb : Denotes r b y) (flags : Flags) (s : Shift) :
    ∃ result zero carry, execute (.known s.opcode) r flags a b = .ok (result, ⟨zero, carry⟩) ∧
      executeTimes s.opcode r (x.wrap 1) (x, ⟨decide (x.value = 0), false⟩) y.value =
        .ok (result, ⟨zero, carry⟩) ∧
      (y.value = 0 → carry = false) ∧ (zero = true ↔ result.value = 0) ∧
      result.width = r.width ∧ (result.value : ℤ) = s.number x y.value := by
  have hx : x.width = r.width := ha.width hr
  have hw : (x.wrap 1).width = r.width := hx
  have hone : (x.wrap 1).value = 1 := x.wrap_of_lt (Nat.one_lt_two_pow (Nat.ne_of_gt x.width_pos))
  refine ⟨_, _, _, ha.execute s.opcode_setsFlags hb flags (s.binary_eq x y),
    s.executeTimes_eq hx hw hone y.value, ?_, ?_, ?_, ?_⟩
  · intro hy
    simp [hy]
  · exact decide_eq_true_iff
  · simpa using hx
  · exact s.value_apply x y.value

/-- Three bits shifted by four, which a register holds: -3 divided by 16 and rounded down is -1,
and as a word it is 7. -/
theorem shift_exact_beyond_width :
    let word (v : Fin 8) : Word := ⟨3, v, by decide, v.isLt⟩
    let r : RegisterFile := ⟨3, Vector.replicate 4 (word 4)⟩
    r.WellFormed ∧ Denotes r (.known (.imm (word 5))) (word 5) ∧
    Denotes r (.known (.reg 2)) (word 4) ∧
      ∃ result zero carry,
        execute (.known .sar) r {} (.known (.imm (word 5))) (.known (.reg 2)) =
          .ok (result, ⟨zero, carry⟩) ∧
        executeTimes .sar r (word 1) (word 5, ⟨false, false⟩) 4 = .ok (result, ⟨zero, carry⟩) ∧
        zero ≠ true ∧ result.value = 7 := by
  intro word r
  have hr : r.WellFormed := by
    intro i
    simp [r, word]
  have ha : Denotes r (.known (.imm (word 5))) (word 5) := .imm rfl
  have hb : Denotes r (.known (.reg 2)) (word 4) := .reg 2
  obtain ⟨result, zero, carry, hok, htimes, -, hzero, -, hvalue⟩ := shift_exact hr ha hb {} .arith
  have hresult : result.value = 7 := Int.ofNat_inj.mp (hvalue.trans (by decide))
  refine ⟨hr, ha, hb, result, zero, carry, hok, htimes, ?_, hresult⟩
  rw [Ne, hzero, hresult]
  decide

end Alu
end WordMachine
