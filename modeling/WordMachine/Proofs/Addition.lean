import WordMachine.Proofs.Effects
import WordMachine.Proofs.WordBits

/-!
Addition and subtraction. The bits that the ripple-carry adder gives, with its last carry on top,
spell the exact sum. Subtraction adds the complement and one, so its carry says that nothing was
borrowed.
-/
namespace WordMachine

theorem addBit_value (a b carry : Bool) :
    (addBit a b carry).1.toNat + 2 * (addBit a b carry).2.toNat =
      a.toNat + b.toNat + carry.toNat := by
  cases a <;> cases b <;> cases carry <;> rfl

/-- What the sums and the last carry are worth is what was added. -/
theorem addBits_value (ps : List (Bool × Bool)) (carry : Bool) :
    Word.bitsValue (addBits ps carry).1 + Word.card ps.length * (addBits ps carry).2.toNat =
      Word.bitsValue (ps.map Prod.fst) + Word.bitsValue (ps.map Prod.snd) + carry.toNat := by
  induction ps generalizing carry with
  | nil => simp [addBits, Word.bitsValue, Word.card]
  | cons p ps ih =>
    obtain ⟨a, b⟩ := p
    have hbit := addBit_value a b carry
    have hrest := ih (addBit a b carry).2
    simp only [addBits, Word.bitsValue, List.map_cons, List.length_cons, Word.card_succ,
      Nat.mul_assoc]
    omega

/-- Words of one width are added exactly: the sum and the carry out are worth what was added. -/
theorem rippleAdd_value {a b : Word} (h : a.width = b.width) (carry : Bool) :
    ∃ sum out, rippleAdd a b carry = .ok (sum, out) ∧ sum.width = a.width ∧
      sum.value + 2 ^ a.width * out.toNat = a.value + b.value + carry.toNat := by
  have hlen : (a.bits.zip b.bits).length = a.width := by simp [h]
  have hvalue := addBits_value (a.bits.zip b.bits) carry
  rw [List.map_fst_zip (by simp [h]), List.map_snd_zip (by simp [h]), hlen, Word.bitsValue_bits,
    Word.bitsValue_bits] at hvalue
  unfold rippleAdd
  rw [dif_pos h]
  exact ⟨_, _, rfl, (length_addBits _ _).trans hlen, hvalue⟩

/-- A total that is split into a rest and one carry is split by division. -/
theorem eq_mod_of_carry {rest modulus total : ℕ} {carry : Bool} (hrest : rest < modulus)
    (h : rest + modulus * carry.toNat = total) :
    rest = total % modulus ∧ carry = decide (modulus ≤ total) := by
  subst h
  cases carry with
  | false => simp [Nat.mod_eq_of_lt hrest, hrest]
  | true => simp [Nat.mod_eq_of_lt hrest]

theorem rippleAdd_eq {a b : Word} (h : a.width = b.width) (carry : Bool) :
    rippleAdd a b carry = .ok (a.wrap (a.value + b.value + carry.toNat),
      decide (Word.card a.width ≤ a.value + b.value + carry.toNat)) := by
  obtain ⟨sum, out, hok, hw, hvalue⟩ := rippleAdd_value h carry
  obtain ⟨hsum, hout⟩ := eq_mod_of_carry (hw ▸ sum.value_lt) hvalue
  rw [hok, hout, Word.ext_value (y := a.wrap (a.value + b.value + carry.toNat)) hw hsum]
  rfl

/-- A sum of two numbers below the modulus comes round to zero at most once. -/
theorem sum_mod_eq_zero_iff {m n modulus : ℕ} (hm : m < modulus) (hn : n < modulus) :
    (m + n) % modulus = 0 ↔ m + n = 0 ∨ m + n = modulus := by
  by_cases h : modulus ≤ m + n
  · rw [Nat.mod_eq_sub_mod h, Nat.mod_eq_of_lt (by omega)]
    omega
  · rw [Nat.mod_eq_of_lt (by omega)]
    omega

namespace Alu

section Binary
variable {x y : Word} (h : x.width = y.width)
include h

theorem binary_add :
    binary .add x y = .ok (x.wrap (x.value + y.value),
      decide (Word.card x.width ≤ x.value + y.value)) :=
  rippleAdd_eq h false

/-- The complement and one make up for the number that is taken away. -/
theorem binary_sub :
    binary .sub x y = .ok (x.wrap (x.value + (Word.card x.width - y.value)),
      decide (y.value ≤ x.value)) := by
  have hy := y.value_lt
  rw [← h] at hy
  have hnot : x.value + y.not.value + true.toNat = x.value + (Word.card x.width - y.value) := by
    rw [y.value_not, ← h, Bool.toNat_true]
    omega
  have hcarry : Word.card x.width ≤ x.value + (Word.card x.width - y.value) ↔
      y.value ≤ x.value := by omega
  unfold binary
  rw [rippleAdd_eq (a := x) (b := y.not) h, hnot]
  simp only [hcarry]

theorem value_sub :
    ((x.wrap (x.value + (Word.card x.width - y.value))).value : ℤ) =
      (x.value - y.value) % 2 ^ x.width := by
  have hy := y.value_lt
  rw [← h] at hy
  have hcast : ((x.value + (Word.card x.width - y.value) : ℕ) : ℤ) =
      (x.value - y.value : ℤ) + Word.card x.width := by
    omega
  rw [Word.value_wrap, Int.natCast_emod, hcast, Int.add_emod_right, Word.card_eq_two_pow]
  simp

theorem sub_eq_zero_iff :
    (x.wrap (x.value + (Word.card x.width - y.value))).value = 0 ↔ x = y := by
  have hx := x.value_lt
  have hy := y.value_lt
  rw [← h] at hy
  constructor
  · intro hzero
    apply Word.ext_value h
    rw [Word.value_wrap] at hzero
    by_cases hle : y.value ≤ x.value
    · rw [Nat.mod_eq_sub_mod (by omega), Nat.mod_eq_of_lt (by omega)] at hzero
      omega
    · rw [Nat.mod_eq_of_lt (by omega)] at hzero
      omega
  · rintro rfl
    rw [Word.value_wrap, Nat.add_sub_cancel' (Nat.le_of_lt hx), Nat.mod_self]

end Binary

/-- The adder is exact. So a sum or difference in the unit is the one of the numbers up to the
modulus, Carry tells that the sum reached it or that nothing was borrowed, and Zero that the
numbers cancel. -/
theorem addition_exact :
    (∀ (a b : Word) (carry : Bool), a.width = b.width →
      ∃ sum out, rippleAdd a b carry = .ok (sum, out) ∧ sum.width = a.width ∧
        sum.value + 2 ^ a.width * out.toNat = a.value + b.value + carry.toNat) ∧
    ∀ (r : RegisterFile) (flags : Flags) (a b : Field Argument) (x y : Word),
      r.WellFormed → Denotes r a x → Denotes r b y →
      (∃ sum zero carry, execute (.known .add) r flags a b = .ok (sum, ⟨zero, carry⟩) ∧
        sum.width = r.width ∧ sum.value = (x.value + y.value) % 2 ^ r.width ∧
        (carry = true ↔ 2 ^ r.width ≤ x.value + y.value) ∧
        (zero = true ↔ x.value + y.value = 0 ∨ x.value + y.value = 2 ^ r.width)) ∧
      ∃ difference zero carry, execute (.known .sub) r flags a b =
        .ok (difference, ⟨zero, carry⟩) ∧
        difference.width = r.width ∧ (difference.value : ℤ) = (x.value - y.value) % 2 ^ r.width ∧
        (carry = true ↔ y.value ≤ x.value) ∧ (zero = true ↔ x = y) := by
  refine ⟨fun a b carry h => rippleAdd_value h carry, ?_⟩
  intro r flags a b x y hr ha hb
  have hx : x.width = r.width := ha.width hr
  have hxy : x.width = y.width := hx.trans (hb.width hr).symm
  rw [← hx]
  constructor
  · refine ⟨_, _, _, ha.execute (by simp) hb flags (binary_add hxy), rfl, rfl, ?_, ?_⟩
    · exact decide_eq_true_iff
    · rw [decide_eq_true_iff]
      exact sum_mod_eq_zero_iff x.value_lt (hxy ▸ y.value_lt)
  · refine ⟨_, _, _, ha.execute (by simp) hb flags (binary_sub hxy), rfl, value_sub hxy, ?_, ?_⟩
    · exact decide_eq_true_iff
    · rw [decide_eq_true_iff]
      exact sub_eq_zero_iff hxy

/-- At four bits a register holding 9 and the immediate word 12: the sum 21 comes round to 5, and
the difference -3 to 13. -/
theorem addition_exact_mixed :
    let word (v : Fin 16) : Word := ⟨4, v, by decide, v.isLt⟩
    let r : RegisterFile := ⟨4, Vector.replicate 4 (word 9)⟩
    r.WellFormed ∧ Denotes r (.known (.reg 1)) (word 9) ∧
    Denotes r (.known (.imm (word 12))) (word 12) ∧
      (∃ sum out, rippleAdd (word 9) (word 12) true = .ok (sum, out) ∧
        sum.value + 16 * out.toNat = 22) ∧
      (∃ sum zero carry, execute (.known .add) r {} (.known (.reg 1)) (.known (.imm (word 12))) =
          .ok (sum, ⟨zero, carry⟩) ∧ sum.value = 5 ∧ carry = true ∧ zero ≠ true) ∧
      ∃ difference zero carry,
        execute (.known .sub) r {} (.known (.reg 1)) (.known (.imm (word 12))) =
          .ok (difference, ⟨zero, carry⟩) ∧ difference.value = 13 ∧ carry ≠ true ∧
          zero ≠ true := by
  intro word r
  have hr : r.WellFormed := by
    intro i
    simp [r, word]
  have ha : Denotes r (.known (.reg 1)) (word 9) := .reg 1
  have hb : Denotes r (.known (.imm (word 12))) (word 12) := .imm rfl
  obtain ⟨hadder, hunit⟩ := addition_exact
  obtain ⟨sum, out, hok, -, hvalue⟩ := hadder (word 9) (word 12) true rfl
  obtain ⟨⟨s, z, c, hadd, -, hs, hc, hz⟩, d, z', c', hsub, -, hd, hc', hz'⟩ :=
    hunit r {} _ _ _ _ hr ha hb
  refine ⟨hr, ha, hb, ⟨sum, out, hok, hvalue⟩, ⟨s, z, c, hadd, ?_, ?_, ?_⟩, d, z', c', hsub,
    ?_, ?_, ?_⟩
  · exact hs.trans (by decide)
  · exact hc.mpr (by decide)
  · exact mt hz.mp (by decide)
  · exact Int.ofNat_inj.mp (hd.trans (by decide))
  · exact mt hc'.mp (by decide)
  · exact mt hz'.mp (by decide)

end Alu
end WordMachine
