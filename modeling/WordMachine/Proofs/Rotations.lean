import WordMachine.Proofs.Effects
import WordMachine.Proofs.WordBits

/-!
Rotations. Turning a word moves every bit to another place, counted round the width. So turns add
up for all integer counts, and a turn to the right undoes the one to the left.
-/
namespace WordMachine

namespace Word

variable {i : ℕ}

/-- Counted round the width, every integer is a place in the word. -/
theorem emod_width (x : Word) (k : ℤ) : 0 ≤ k % x.width ∧ k % x.width < x.width := by
  have hw : (0 : ℤ) < x.width := Int.natCast_pos.mpr x.width_pos
  exact ⟨Int.emod_nonneg k (by omega), Int.emod_lt_of_pos k hw⟩

/-- Where the bit at a place was before a turn: below it, or round the end of the word. -/
theorem source_eq (x : Word) (k : ℤ) (hi : i < x.width) :
    ((i - k) % x.width).toNat =
      if (k % x.width).toNat ≤ i then i - (k % x.width).toNat else i + x.width -
        (k % x.width).toNat := by
  obtain ⟨hnonneg, hlt⟩ := x.emod_width k
  rw [← Int.sub_emod_emod]
  generalize k % (x.width : ℤ) = s at hnonneg hlt
  split
  next hle =>
    rw [Int.emod_eq_of_lt (by omega) (by omega)]
    omega
  next hgt =>
    rw [← Int.add_emod_right, Int.emod_eq_of_lt (by omega) (by omega)]
    omega

theorem testBit_rotateLeft (x : Word) (k : ℤ) (hi : i < x.width) :
    (x.rotateLeft k).value.testBit i = x.value.testBit ((i - k) % x.width).toNat := by
  have hlt : (k % x.width).toNat < x.width := by
    have := x.emod_width k
    omega
  rw [source_eq x k hi]
  unfold rotateLeft
  dsimp only
  generalize (k % x.width).toNat = s at hlt
  split
  next hs => simp [hs]
  next hs =>
    by_cases hsi : s ≤ i
    · simp [hi, hsi, x.testBit_of_width_le (show x.width ≤ x.width - s + i by omega)]
    · simp [hi, hsi, show x.width - s + i = i + x.width - s by omega]

/-- Only what is left of a count round the width matters. -/
theorem rotateLeft_congr {x : Word} {k l : ℤ} (h : k % x.width = l % x.width) :
    x.rotateLeft k = x.rotateLeft l := by
  unfold rotateLeft
  rw [h]

@[simp] theorem rotateLeft_zero (x : Word) : x.rotateLeft 0 = x := by simp [rotateLeft]

/-- Turns one after another are one turn. -/
theorem rotateLeft_rotateLeft (x : Word) (k l : ℤ) :
    (x.rotateLeft k).rotateLeft l = x.rotateLeft (k + l) := by
  apply ext_testBit (by simp)
  intro i hi
  simp only [width_rotateLeft] at hi
  -- The place of the bit before the second turn is a place of the word again.
  obtain ⟨hnonneg, hlt⟩ := x.emod_width (i - l)
  rw [testBit_rotateLeft x (k + l) hi, testBit_rotateLeft _ l (by simpa using hi),
    width_rotateLeft, testBit_rotateLeft x k (by omega), Int.toNat_of_nonneg hnonneg,
    Int.emod_sub_emod, Int.sub_sub, Int.add_comm k l]

@[simp] theorem rotateRight_rotateLeft (x : Word) (k : ℤ) :
    (x.rotateLeft k).rotateRight k = x := by
  rw [rotateRight, rotateLeft_rotateLeft, Int.add_right_neg, rotateLeft_zero]

theorem rotateLeft_value_eq_zero_iff (x : Word) (k : ℤ) :
    (x.rotateLeft k).value = 0 ↔ x.value = 0 := by
  have hturn {y : Word} (hy : y.value = 0) (l : ℤ) : (y.rotateLeft l).value = 0 := by
    unfold rotateLeft
    dsimp only
    split
    · exact hy
    · simp [hy]
  constructor
  · intro h
    rw [← x.rotateRight_rotateLeft k]
    exact hturn h (-k)
  · intro h
    exact hturn h k

end Word

namespace Alu

/-- The bit that comes round is the one that the turn has moved to the lowest place. -/
theorem rotate_eq (x : Word) (k : ℕ) :
    rotate x k = (x.rotateLeft k, decide (k % x.width ≠ 0) &&
      x.value.testBit (x.width - k % x.width)) := by
  have hk : ((k : ℤ) % x.width).toNat = k % x.width := by omega
  unfold rotate
  split
  next h =>
    have hturn : x.rotateLeft k = x := by simp [Word.rotateLeft, hk, h]
    simp [hturn, h]
  next h =>
    have hsource := Word.source_eq x k x.width_pos
    rw [hk, if_neg (by omega), Nat.zero_add] at hsource
    simp only [x.testBit_rotateLeft k x.width_pos, hsource]
    simp [h]

/-- The integers act on words by turning them: the bit at a place comes from as many places below,
counted round the width. A rotation in the unit is a turn by the count; Carry is the bit that came
round to the lowest place, if the turn moves anything, and Zero tells whether the word is zero. -/
theorem rotation_action (x : Word) :
    (∀ (k : ℤ) (i : ℕ), i < x.width →
      ∃ bit, (x.rotateLeft k).bit i = .ok bit ∧ x.bit ((i - k) % x.width) = .ok bit) ∧
    x.rotateLeft 0 = x ∧ (∀ k l : ℤ, (x.rotateLeft k).rotateLeft l = x.rotateLeft (k + l)) ∧
    (∀ k : ℤ, (x.rotateLeft k).rotateRight k = x) ∧
    ∀ (r : RegisterFile) (flags : Flags) (a b : Field Argument) (y : Word),
      r.WellFormed → Denotes r a x → Denotes r b y →
      ∃ zero carry, execute (.known .rol) r flags a b = .ok (x.rotateLeft y.value, ⟨zero, carry⟩) ∧
        (y.value % x.width ≠ 0 → x.bit (x.width - y.value % x.width) = .ok carry) ∧
        (y.value % x.width = 0 → carry = false) ∧ (zero = true ↔ x.value = 0) := by
  refine ⟨?_, x.rotateLeft_zero, x.rotateLeft_rotateLeft, x.rotateRight_rotateLeft, ?_⟩
  · intro k i hi
    obtain ⟨hnonneg, hlt⟩ := x.emod_width (i - k)
    refine ⟨_, (x.rotateLeft k).bit_of_lt (by simpa using hi), ?_⟩
    rw [x.testBit_rotateLeft k hi, ← x.bit_of_lt (by omega), Int.toNat_of_nonneg hnonneg]
  · intro r flags a b y hr ha hb
    have hbinary : binary .rol x y = .ok (rotate x y.value) := rfl
    rw [rotate_eq] at hbinary
    refine ⟨_, _, ha.execute (by simp) hb flags hbinary, ?_, ?_, ?_⟩
    · intro hy
      have hlt : y.value % x.width < x.width := Nat.mod_lt _ x.width_pos
      have hindex : (x.width - y.value % x.width : ℤ) = (x.width - y.value % x.width : ℕ) := by
        omega
      rw [hindex, x.bit_of_lt (by omega)]
      simp [hy]
    · intro hy
      simp [hy]
    · rw [decide_eq_true_iff]
      exact x.rotateLeft_value_eq_zero_iff y.value

/-- Three bits turned by four, which is a turn by one: the top bit comes round. -/
theorem rotation_action_beyond_width :
    let word (v : Fin 8) : Word := ⟨3, v, by decide, v.isLt⟩
    let r : RegisterFile := ⟨3, Vector.replicate 4 (word 6)⟩
    r.WellFormed ∧ Denotes r (.known (.reg 0)) (word 6) ∧
    Denotes r (.known (.imm (word 4))) (word 4) ∧
      (∃ bit, ((word 6).rotateLeft (-4)).bit 2 = .ok bit ∧ (word 6).bit ((2 - -4) % 3) = .ok bit) ∧
      ∃ zero carry, execute (.known .rol) r {} (.known (.reg 0)) (.known (.imm (word 4))) =
          .ok ((word 6).rotateLeft 4, ⟨zero, carry⟩) ∧
        (word 6).bit (3 - 4 % 3) = .ok carry ∧ zero ≠ true := by
  intro word r
  have hr : r.WellFormed := by
    intro i
    simp [r, word]
  have ha : Denotes r (.known (.reg 0)) (word 6) := .reg 0
  have hb : Denotes r (.known (.imm (word 4))) (word 4) := .imm rfl
  obtain ⟨hbits, -, -, -, hunit⟩ := rotation_action (word 6)
  obtain ⟨zero, carry, hok, hcarry, -, hzero⟩ := hunit r {} _ _ _ hr ha hb
  refine ⟨hr, ha, hb, hbits (-4) 2 (by decide), zero, carry, hok, hcarry (by decide), ?_⟩
  exact mt hzero.mp (by decide)

end Alu
end WordMachine
