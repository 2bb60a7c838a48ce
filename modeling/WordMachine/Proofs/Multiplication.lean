import Mathlib.Data.Nat.Digits.Defs
import Mathlib.Data.Nat.ModEq
import Mathlib.Tactic.Ring
import WordMachine.Proofs.CountedRuns
import WordMachine.Proofs.Shifts

/-!
Multiplication by shifts and additions. The program looks at one bit of the second factor after
another, and adds the first factor, doubled as many times, where the bit is set.
-/
namespace WordMachine

/-- Multiplies the first two registers into the third. The last register holds the bit that is
looked at. -/
def Program.multiply (zero one : Word) : Program :=
  ⟨"multiply", #[
    .alu (.known .loadk) (.known 2) (.known (.imm zero)) .null,
    .alu (.known .and) (.known 3) (.known (.reg 1)) (.known (.imm one)),
    .jumpIf (.known .zero) (.known 4),
    .alu (.known .add) (.known 2) (.known (.reg 2)) (.known (.reg 0)),
    .alu (.known .shl) (.known 0) (.known (.reg 0)) (.known (.imm one)),
    .alu (.known .shr) (.known 1) (.known (.reg 1)) (.known (.imm one)),
    .jumpIf (.known .notZero) (.known 1),
    .halt]⟩

theorem Alu.execute_loadk {r : RegisterFile} (flags : Flags) {v : Word} (hv : v.width = r.width)
    (b : Field Argument) :
    execute (.known .loadk) r flags (.known (.imm v)) b = .ok (v, flags) := by
  unfold execute
  rw [(Denotes.imm hv).resolve]
  rfl

theorem Alu.binary_and {x y : Word} (h : x.width = y.width) :
    binary .and x y = .ok (x.wrap (x.value &&& y.value), false) := by
  unfold binary
  rw [Word.and_of_width h.symm]
  rfl

theorem Alu.Shift.exists_binary_one (s : Shift) (x : Word) {one : Word} (hone : one.value = 1) :
    ∃ carry, binary s.opcode x one = .ok (s.apply x 1, carry) := by
  have h := s.binary_eq x one
  rw [hone] at h
  exact ⟨_, h⟩

/-- What is left of the product after one round, with the doubled factor and the half of the
other. -/
theorem product_halved (a b c modulus : ℕ) :
    ((c + b % 2 * a) % modulus + a * 2 % modulus * (b / 2)) % modulus = (c + a * b) % modulus := by
  have hsplit : c + a * b = c + b % 2 * a + a * 2 * (b / 2) := by
    conv_lhs => rw [← Nat.div_add_mod b 2]
    ring
  rw [hsplit]
  exact (Nat.mod_modEq _ _).add ((Nat.mod_modEq _ _).mul_right _)

namespace Program

open Config

@[simp] theorem size_multiply (zero one : Word) : (multiply zero one).size = 8 := rfl

/-- How many instructions the rounds take: five for each binary digit, and one more for each that
is set. Zero takes a round too. -/
def multiplyRounds (b : ℕ) : ℕ := 5 * max 1 (Nat.digits 2 b).length + (Nat.digits 2 b).count 1

theorem multiplyRounds_last {b : ℕ} (h : b / 2 = 0) : multiplyRounds b = 5 + b % 2 := by
  obtain rfl | rfl : b = 0 ∨ b = 1 := by omega
  · simp [multiplyRounds]
  · simp [multiplyRounds]

theorem multiplyRounds_halved {b : ℕ} (h : b / 2 ≠ 0) :
    multiplyRounds b = 5 + b % 2 + multiplyRounds (b / 2) := by
  have hdigits : Nat.digits 2 b = b % 2 :: Nat.digits 2 (b / 2) :=
    Nat.digits_def' (by decide) (by omega)
  have hpos : 0 < (Nat.digits 2 (b / 2)).length :=
    List.length_pos_iff.mpr (Nat.digits_ne_nil_iff_ne_zero.mpr h)
  have hcount :
      (b % 2 :: Nat.digits 2 (b / 2)).count 1 = (Nat.digits 2 (b / 2)).count 1 + b % 2 := by
    rcases Nat.mod_two_eq_zero_or_one b with hbit | hbit <;> simp [hbit]
  unfold multiplyRounds
  rw [hdigits, hcount, List.length_cons]
  omega

section Round
variable (zero : Word) {one a b c : Word} (d : Word) (flags : Flags) (memory : Memory) {w : ℕ}
  (hone : one.width = w ∧ one.value = 1) (ha : a.width = w) (hb : b.width = w) (hc : c.width = w)

include hone hb in
/-- The lowest bit is looked at, and decides where to go on. -/
theorem multiply_test :
    ∃ d' flags', Runs (multiply zero one) 2 (.of w a b c d flags memory 1)
      (.of w a b c d' flags' memory (if b.value % 2 = 0 then 4 else 3)) := by
  have hand := Alu.binary_and (hb.trans hone.1.symm)
  rw [hone.2, Nat.and_one_is_mod] at hand
  have hbit : (b.wrap (b.value % 2)).value = b.value % 2 :=
    b.wrap_of_lt (Nat.lt_of_le_of_lt (Nat.mod_le _ _) b.value_lt)
  have hwidth : (b.wrap (b.value % 2)).width = w := hb
  generalize b.wrap (b.value % 2) = bit at hand hbit hwidth
  have htest : Leads (multiply zero one) (.of w a b c d flags memory 1)
      (.of w a b c bit ⟨decide (bit.value = 0), false⟩ memory 2) :=
    leads_binary (j := 3) rfl (by simp) (.reg 1) (.imm hone.1) hand hwidth
  have hjump : Leads (multiply zero one) (.of w a b c bit ⟨decide (bit.value = 0), false⟩ memory 2)
      (.of w a b c bit ⟨decide (bit.value = 0), false⟩ memory
        (if b.value % 2 = 0 then 4 else 3)) :=
    leads_jumpIf_zero rfl (by simp) (hbit ▸ rfl)
  exact ⟨_, _, .next htest (.next hjump (.refl _))⟩

include ha hc in
/-- Where the bit is set, the first factor is added. -/
theorem multiply_add :
    ∃ flags', Runs (multiply zero one) 1 (.of w a b c d flags memory 3)
      (.of w a b (c.wrap (c.value + a.value)) d flags' memory 4) := by
  have hadd := Alu.binary_add (hc.trans ha.symm)
  exact ⟨_, .next (leads_binary (j := 2) rfl (by simp) (.reg 2) (.reg 0) hadd hc) (.refl _)⟩

include hone ha hb in
/-- The factors are doubled and halved, and nothing left of the second one ends the rounds. -/
theorem multiply_shift :
    ∃ flags', Runs (multiply zero one) 3 (.of w a b c d flags memory 4)
      (.of w (a.shiftLeft 1) (b.shiftRight 1) c d flags' memory
        (if b.value / 2 = 0 then 7 else 1)) := by
  obtain ⟨carry, hleft⟩ := Alu.Shift.left.exists_binary_one a hone.2
  obtain ⟨carry', hright⟩ := Alu.Shift.right.exists_binary_one b hone.2
  have hdouble : Leads (multiply zero one) (.of w a b c d flags memory 4)
      (.of w (a.shiftLeft 1) b c d ⟨decide ((a.shiftLeft 1).value = 0), carry⟩ memory 5) :=
    leads_binary (j := 0) rfl (by simp) (.reg 0) (.imm hone.1) hleft
      ((a.width_shiftLeft 1).trans ha)
  have hhalve (flags : Flags) :
      Leads (multiply zero one) (.of w (a.shiftLeft 1) b c d flags memory 5)
        (.of w (a.shiftLeft 1) (b.shiftRight 1) c d
          ⟨decide ((b.shiftRight 1).value = 0), carry'⟩ memory 6) :=
    leads_binary (j := 1) rfl (by simp) (.reg 1) (.imm hone.1) hright
      ((b.width_shiftRight 1).trans hb)
  have hhalf : (b.shiftRight 1).value = b.value / 2 := b.value_shiftRight 1
  have hjump := leads_jumpIf_notZero (p := multiply zero one)
    (c := .of w (a.shiftLeft 1) (b.shiftRight 1) c d
      ⟨decide ((b.shiftRight 1).value = 0), carry'⟩ memory 6)
    (n := b.value / 2) rfl (by simp) (hhalf ▸ rfl)
  exact ⟨_, .next hdouble (.next (hhalve _) (.next hjump (.refl _)))⟩

include hone ha hb hc in
/-- One round adds the first factor if the lowest bit of the second is set, doubles the one and
halves the other. -/
theorem multiply_round :
    ∃ c' d' flags', c'.width = w ∧ c'.value = (c.value + b.value % 2 * a.value) % 2 ^ w ∧
      Runs (multiply zero one) (5 + b.value % 2) (.of w a b c d flags memory 1)
        (.of w (a.shiftLeft 1) (b.shiftRight 1) c' d' flags' memory
          (if b.value / 2 = 0 then 7 else 1)) := by
  obtain ⟨d', flags₁, htest⟩ := multiply_test zero d flags memory hone hb
  rcases Nat.mod_two_eq_zero_or_one b.value with hbit | hbit
  · obtain ⟨flags₂, hshift⟩ := multiply_shift zero d' flags₁ memory hone ha hb
    rw [if_pos hbit] at htest
    refine ⟨c, d', flags₂, hc, ?_, ?_⟩
    · rw [hbit, Nat.zero_mul, Nat.add_zero, Nat.mod_eq_of_lt (hc ▸ c.value_lt)]
    · rw [hbit]
      exact htest.trans hshift
  · obtain ⟨flags₂, hadd⟩ := multiply_add zero d' flags₁ memory ha hc
    obtain ⟨flags₃, hshift⟩ := multiply_shift zero d' flags₂ memory hone ha hb
    rw [if_neg (by omega)] at htest
    refine ⟨c.wrap (c.value + a.value), d', flags₃, hc, ?_, ?_⟩
    · rw [hbit, Nat.one_mul, Word.value_wrap, hc, Word.card_eq_two_pow]
    · rw [hbit]
      exact (htest.trans hadd).trans hshift

end Round

/-- The rounds leave the product added to what the third register held. -/
theorem multiply_loop (zero : Word) {one a b c : Word} (d : Word) (flags : Flags) (memory : Memory)
    {w : ℕ} (hone : one.width = w ∧ one.value = 1) (ha : a.width = w) (hb : b.width = w)
    (hc : c.width = w) :
    ∃ a' b' c' d' flags', b'.value = 0 ∧ c'.value = (c.value + a.value * b.value) % 2 ^ w ∧
      Runs (multiply zero one) (multiplyRounds b.value) (.of w a b c d flags memory 1)
        (.of w a' b' c' d' flags' memory 7) := by
  induction hn : b.value using Nat.strong_induction_on generalizing a b c d flags with
  | _ n ih =>
    obtain ⟨c', d', flags', hc', hvalue, hround⟩ :=
      multiply_round zero d flags memory hone ha hb hc
    have hhalf : (b.shiftRight 1).value = b.value / 2 := b.value_shiftRight 1
    rw [hn] at hround hhalf hvalue
    by_cases hlast : n / 2 = 0
    · rw [if_pos hlast] at hround
      rw [multiplyRounds_last hlast]
      refine ⟨_, _, c', d', flags', hhalf.trans hlast, ?_, hround⟩
      rw [hvalue, Nat.mul_comm a.value, Nat.mod_eq_of_lt (by omega : n < 2)]
    · rw [if_neg hlast] at hround
      obtain ⟨a'', b'', c'', d'', flags'', hzero, hproduct, hrest⟩ :=
        ih (n / 2) (by omega) d' flags' ((a.width_shiftLeft 1).trans ha)
          ((b.width_shiftRight 1).trans hb) hc'
          hhalf
      refine ⟨a'', b'', c'', d'', flags'', hzero, ?_, ?_⟩
      · rw [hproduct, hvalue, a.value_shiftLeft 1, ha, Nat.pow_one, product_halved]
      · rw [multiplyRounds_halved hlast]
        exact hround.trans hrest

end Program

/-- The program multiplies at every width: it halts with the product of the two numbers up to the
modulus, after a count of steps that depends on the bits of the second one only, and leaves the
memory as it was. -/
theorem runProgram_multiply {σ : Type} {m : Machine} (hm : m.WellFormed) (hpc : m.pc = .known 0)
    {a b : Word} (ha : m.registers.values.get 0 = a) (hb : m.registers.values.get 1 = b)
    {zero one : Word} (hzero : zero.width = m.width ∧ zero.value = 0)
    (hone : one.width = m.width ∧ one.value = 1) (services : Services) {limit : ℤ}
    (hlimit : (2 + 5 * max 1 (Nat.digits 2 b.value).length + (Nat.digits 2 b.value).count 1 : ℕ) ≤
      limit)
    (observe : σ → Machine → Instruction → σ) (acc : σ) :
    ∃ e seen, runProgram (.multiply zero one) m services limit observe acc =
      .ok (e, seen, .halted false) ∧
      e.steps = 2 + 5 * max 1 (Nat.digits 2 b.value).length + (Nat.digits 2 b.value).count 1 ∧
      e.machine.WellFormed ∧ e.machine.width = m.width ∧
      (e.machine.registers.values.get 2).value = a.value * b.value % 2 ^ m.width ∧
      (e.machine.registers.values.get 1).value = 0 ∧ e.machine.memory = m.memory := by
  have hwidth (i : Fin 4) : (m.registers.values.get i).width = m.width := hm.1 i
  have hstart := Config.machine_of 0 hpc
  rw [ha, hb] at hstart
  obtain ⟨a', b', c', d', flags', hleft, hproduct, hloop⟩ :=
    Program.multiply_loop zero (m.registers.values.get 3) m.flags m.memory hone (ha ▸ hwidth 0)
      (hb ▸ hwidth 1)
      hzero.1
  have hload : Config.Leads (.multiply zero one)
      (.of m.width a b (m.registers.values.get 2) (m.registers.values.get 3) m.flags m.memory 0)
      (.of m.width a b zero (m.registers.values.get 3) m.flags m.memory 1) :=
    Config.leads_alu (j := 2) rfl (Alu.execute_loadk _ hzero.1 .null) hzero.1
  have hruns := Config.Runs.next hload hloop
  have hshape := hruns.sameShape m.tick 0
  have hcount : Program.multiplyRounds b.value + 1 + 1 =
      2 + 5 * max 1 (Nat.digits 2 b.value).length + (Nat.digits 2 b.value).count 1 := by
    unfold Program.multiplyRounds
    omega
  have hroom : ((Program.multiplyRounds b.value + 1 : ℕ) : ℤ) + 1 ≤ limit := by omega
  obtain ⟨seen, hrun⟩ := hruns.runProgram_halts observe rfl services m.tick hroom acc
  rw [hstart] at hrun hshape
  rw [hzero.2, Nat.zero_add] at hproduct
  exact ⟨_, seen, hrun, hcount,
    ⟨hshape.registers hm.1, hm.2.1, hm.2.2.1.trans hshape.width.symm, _, rfl⟩,
    hshape.width, hproduct, hleft, rfl⟩

/-- Thirteen times thirteen is 169, which is 9 at four bits. Thirteen has four binary digits, three
of them set. -/
theorem runProgram_multiply_narrow :
    let word (v : Fin 16) : Word := ⟨4, v, by decide, v.isLt⟩
    let m : Machine :=
      ⟨⟨4, Vector.replicate 4 (word 13)⟩, ⟨true, true⟩, ⟨4, #[word 5]⟩, .known 0, 3⟩
    m.WellFormed ∧ ∃ e seen,
      runProgram (.multiply (word 0) (word 1)) m {} 25 (fun n _ _ => n + 1) 0 =
        .ok (e, seen, .halted false) ∧
      e.steps = 25 ∧ (e.machine.registers.values.get 2).value = 9 ∧
      (e.machine.registers.values.get 1).value = 0 ∧ e.machine.memory = ⟨4, #[word 5]⟩ := by
  intro word m
  have hm : m.WellFormed :=
    ⟨fun i => by simp [m, word], by simp [m, word, Memory.WellFormed], rfl, _, rfl⟩
  have hzero : (word 0).width = m.width ∧ (word 0).value = 0 := ⟨rfl, rfl⟩
  have hone : (word 1).width = m.width ∧ (word 1).value = 1 := ⟨rfl, rfl⟩
  have hdigits : Nat.digits 2 (word 13).value = [1, 0, 1, 1] := by decide
  have hlimit : (2 + 5 * max 1 (Nat.digits 2 (word 13).value).length +
      (Nat.digits 2 (word 13).value).count 1 : ℕ) ≤ (25 : ℤ) := by
    rw [hdigits]
    decide
  obtain ⟨e, seen, hrun, hsteps, -, -, hproduct, hleft, hmemory⟩ :=
    runProgram_multiply hm rfl rfl rfl hzero hone {} hlimit (fun n _ _ => n + 1) 0
  rw [show m.registers.values.get 1 = word 13 from rfl, hdigits] at hsteps
  exact ⟨hm, e, seen, hrun, hsteps, hproduct.trans (by decide), hleft, hmemory⟩

end WordMachine
