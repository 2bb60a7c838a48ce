import WordMachine.Proofs.Addition
import WordMachine.Proofs.Rotations
import WordMachine.Proofs.Steps

/-!
Rules that the arithmetic unit can do as well. Complement, increment, the two rotations and the
identity are operations of the unit on a single register. The rule works on the number as a whole,
and the unit with its adder and its own count of turns. They come to the same word, and look up the
register in the same way. Only the flags tell them apart, since a rule has none.
-/
namespace WordMachine

/-- The operation of the unit that does what a rule does, and its second operand, at a width. -/
inductive Rule.ByUnit (w : ℕ) : String → Opcode → Field Argument → Prop
  | complement : ByUnit w "complement" .not .null
  | increment {one : Word} (hw : one.width = w) (hv : one.value = 1) :
    ByUnit w "increment" .add (.known (.imm one))
  | rotl1 {one : Word} (hw : one.width = w) (hv : one.value = 1) :
    ByUnit w "rotl1" .rol (.known (.imm one))
  | rotr1 {turn : Word} (hw : turn.width = w) (hv : turn.value = w - 1) :
    ByUnit w "rotr1" .rol (.known (.imm turn))
  | identity : ByUnit w "identity" .mov .null

/-- A turn to the right by one is a turn to the left by all places but one. -/
theorem Word.rotateRight_one (x : Word) : x.rotateRight 1 = x.rotateLeft (x.width - 1 : ℕ) := by
  have hpos := x.width_pos
  apply rotateLeft_congr
  rw [← Int.add_emod_right]
  congr 1
  omega

/-- The unit gives what the rule gives. -/
theorem Rule.ByUnit.execute {r : RegisterFile} (hr : r.WellFormed) {name : String}
    {opcode : Opcode} {b : Field Argument} (h : ByUnit r.width name opcode b) (j : Fin 4)
    (flags : Flags) :
    ∃ rule y flags', RuleSet.builtin.get name = .ok rule ∧ rule.apply (r.values.get j) = .ok y ∧
      y.width = r.width ∧ Alu.execute (.known opcode) r flags (.known (.reg j)) b =
        .ok (y, flags') := by
  have hx : Alu.Denotes r (.known (.reg j)) (r.values.get j) := .reg j
  have hwidth : (r.values.get j).width = r.width := hr j
  generalize r.values.get j = x at hx hwidth
  cases h with
  | complement =>
    refine ⟨.complement, x.not, ⟨decide (x.not.value = 0), false⟩, rfl, rfl, hwidth, ?_⟩
    unfold Alu.execute
    rw [hx.resolve]
    rfl
  | @increment one hw hv =>
    have hadd := Alu.binary_add (hwidth.trans hw.symm)
    rw [hv] at hadd
    exact ⟨.increment, _, _, rfl, rfl, hwidth, hx.execute (by simp) (.imm hw) flags hadd⟩
  | @rotl1 one hw hv =>
    have hrol : Alu.binary .rol x one = .ok (Alu.rotate x one.value) := rfl
    rw [hv, Alu.rotate_eq] at hrol
    exact ⟨.rotl1, _, _, rfl, rfl, (x.width_rotateLeft 1).trans hwidth,
      hx.execute (by simp) (.imm hw) flags hrol⟩
  | @rotr1 turn hw hv =>
    have hrol : Alu.binary .rol x turn = .ok (Alu.rotate x turn.value) := rfl
    rw [hv, ← hwidth, Alu.rotate_eq, ← x.rotateRight_one] at hrol
    exact ⟨.rotr1, _, _, rfl, rfl, (x.width_rotateRight 1).trans hwidth,
      hx.execute (by simp) (.imm hw) flags hrol⟩
  | identity =>
    refine ⟨.identity, x, flags, rfl, rfl, hwidth, ?_⟩
    unfold Alu.execute
    rw [hx.resolve]
    rfl

/-- An index names one of the registers, or is refused. -/
theorem RegisterFile.check_cases (index : ℤ) :
    (∃ j : Fin 4, index = j ∧ check (.known index) = .ok (some j)) ∨
      ¬ (0 ≤ index ∧ index < 4) ∧
      check (.known index) = .error (.fault (.registerIndex (.known index))) := by
  by_cases h : 0 ≤ index ∧ index < 4
  · left
    have hslot : slot index = .ok ⟨index.toNat, by omega⟩ := dif_pos h
    refine ⟨⟨index.toNat, by omega⟩, (Int.toNat_of_nonneg h.1).symm, ?_⟩
    unfold check
    dsimp only
    rw [hslot]
    rfl
  · right
    have hslot : slot index = .error (.registerIndex (.known index)) := dif_neg h
    refine ⟨h, ?_⟩
    unfold check
    dsimp only
    rw [hslot]
    rfl

/-- The rules are there under their names, perhaps with others. -/
def Dynamics.HasBuiltins (d : Dynamics) : Prop :=
  ∀ {name : String} {r : Rule}, RuleSet.builtin.get name = .ok r → d.rules.get name = .ok r

namespace Effect

variable {m : Machine} {d : Dynamics} {name : String} {reg : ℤ}

theorem ofApplyRule_eq {j : Fin 4} {r : Rule} {y : Word}
    (hj : RegisterFile.check (.known reg) = .ok (some j)) (hr : d.rules.get name = .ok r)
    (hy : r.apply (m.registers.values.get j) = .ok y) (hw : y.width = m.width) :
    ofApplyRule m (some d) (.known name) (.known reg) =
      .ok { next := some m.pc.succ, register := some (.known reg, y) } := by
  have happly : applyNamed d (.known name) (m.registers.values.get j) = .ok y := by
    unfold applyNamed Dynamics.applyRule
    simp only [hr, ok_bind, hy]
    rfl
  have hcheck : checkResult m y = .ok () := if_pos hw
  unfold ofApplyRule
  simp only [RegisterFile.get_of_check hj, ok_bind, happly, hcheck]
  rfl

theorem ofApplyRule_error {err : Error} (hj : RegisterFile.check (.known reg) = .error err) :
    ofApplyRule m (some d) (.known name) (.known reg) = .error err := by
  unfold ofApplyRule RegisterFile.get
  rw [hj]
  rfl

theorem ofAlu_eq {j : Fin 4} {opcode : Opcode} {a : Argument} {b : Field Argument} {y : Word}
    {flags : Flags} (hj : RegisterFile.check (.known reg) = .ok (some j))
    (hy : Alu.execute (.known opcode) m.registers m.flags (.known a) b = .ok (y, flags)) :
    ofAlu m (.known opcode) (.known reg) (.known a) b =
      .ok { next := some m.pc.succ, register := some (.known reg, y), flags := some flags } := by
  unfold ofAlu
  simp only [hj, ok_bind, Field.demand, hy]
  rfl

theorem ofAlu_error {opcode : Field Opcode} {a b : Field Argument} {err : Error}
    (hj : RegisterFile.check (.known reg) = .error err) :
    ofAlu m opcode (.known reg) a b = .error err := by
  unfold ofAlu
  rw [hj]
  rfl

/-- Carries out an effect on one register. -/
theorem commit_register {j : Fin 4} {y : Word}
    (hj : RegisterFile.check (.known reg) = .ok (some j)) (hw : y.width = m.width)
    (next : Field Int) (flags : Option Flags) :
    commit { next := some next, register := some (.known reg, y), flags } m =
      (⟨{ m.registers with values := m.registers.values.set j y j.isLt }, flags.getD m.flags,
        m.memory, next, m.tick⟩, none) :=
  commit_eq (Nat.zero_le _) (by simp) rfl (RegisterFile.set_of_check hj hw)

end Effect

namespace Engine

/-- Applying one of the five rules to a register and executing its operation of the unit there
leave the same registers, memory, counter and tick, and the same services; the rule keeps the
flags. The index of the register decides alone, and in the same way, whether the two complete or
fault. -/
theorem step_rule_by_unit {p q : Program} {e : Engine} {d : Dynamics} {reg : ℤ} {name : String}
    {opcode : Opcode} {b : Field Argument} (he : e.machine.WellFormed)
    (hd : e.services.dynamics = some d) (hrules : d.HasBuiltins)
    (hunit : Rule.ByUnit e.machine.width name opcode b)
    (hp : fetch p e.machine.pc = .ok (.applyRule (.known name) (.known reg)))
    (hq : fetch q e.machine.pc = .ok (.alu (.known opcode) (.known reg) (.known (.reg reg)) b)) :
    ∃ e₁ s₁ e₂ s₂, e.step p = (e₁, s₁) ∧ e.step q = (e₂, s₂) ∧
      e₁.machine.registers = e₂.machine.registers ∧ e₁.machine.memory = e₂.machine.memory ∧
      e₁.machine.pc = e₂.machine.pc ∧ e₁.machine.tick = e₂.machine.tick ∧
      e₁.machine.flags = e.machine.flags ∧ e₁.services = e₂.services ∧ e₁.steps = e₂.steps ∧
      if 0 ≤ reg ∧ reg < 4 then
        s₁ = .next (.applyRule (.known name) (.known reg)) ∧
          s₂ = .next (.alu (.known opcode) (.known reg) (.known (.reg reg)) b)
      else ∃ f, f.kind = .decode ∧ s₁ = .fault f ∧ s₂ = .fault f := by
  rw [step_of_fetch hp, step_of_fetch hq]
  obtain ⟨⟨registers, flags, memory, pc, tick⟩, services, steps⟩ := e
  let m : Machine := ⟨registers, flags, memory, pc, tick + 1⟩
  have hrule : Effect.ofInstruction p.size m services (.applyRule (.known name) (.known reg)) =
      (services, Effect.ofApplyRule m (some d) (.known name) (.known reg)) := by
    rw [← hd]
    rfl
  rcases RegisterFile.check_cases reg with ⟨j, rfl, hj⟩ | ⟨hout, hj⟩
  · obtain ⟨r, y, flags', hr, hy, hw, hexecute⟩ := hunit.execute he.1 j flags
    rw [Effect.ofApplyRule_eq (m := m) hj (hrules hr) hy hw] at hrule
    have halu := congrArg (Prod.mk services) (Effect.ofAlu_eq (m := m) hj hexecute)
    have hcommit := Effect.commit_register (m := m) hj hw m.pc.succ
    refine ⟨_, _, _, _, execute_eq hrule (hcommit none), execute_eq halu (hcommit (some flags')),
      rfl, rfl, rfl, rfl, rfl, rfl, rfl, ?_⟩
    rw [if_pos ⟨Int.natCast_nonneg _, Int.ofNat_lt.mpr j.isLt⟩]
    exact ⟨rfl, rfl⟩
  · rw [Effect.ofApplyRule_error hj] at hrule
    have halu : Effect.ofInstruction q.size m services
        (.alu (.known opcode) (.known reg) (.known (.reg reg)) b) = (services, _) :=
      congrArg (Prod.mk services) (Effect.ofAlu_error hj)
    refine ⟨_, _, _, _, execute_failed hrule, execute_failed halu, rfl, rfl, rfl, rfl, rfl, rfl,
      rfl, ?_⟩
    rw [if_neg hout]
    exact ⟨_, rfl, rfl, rfl⟩

/-- Of one bit, a turn to the right is none for the unit, and moves nothing. Of two bits, a
register that is not there stops both. -/
theorem step_rule_by_unit_narrow :
    let bit (v : Fin 2) : Word := ⟨1, v, by decide, v.isLt⟩
    let word (v : Fin 4) : Word := ⟨2, v, by decide, v.isLt⟩
    let d : Dynamics := ⟨.builtin, "collatz", .collatz, ∅⟩
    let e : Engine :=
      ⟨⟨⟨1, Vector.replicate 4 (bit 1)⟩, {}, ⟨1, #[bit 0]⟩, .known 0, 5⟩, ⟨none, none, some d⟩, 0⟩
    let e' : Engine :=
      ⟨⟨⟨2, Vector.replicate 4 (word 3)⟩, {}, ⟨2, #[word 0]⟩, .known 0, 5⟩,
        ⟨none, none, some d⟩, 0⟩
    let byRule (name : String) (reg : ℤ) : Program :=
      ⟨"rule", #[.applyRule (.known name) (.known reg)]⟩
    let byUnit (opcode : Opcode) (reg : ℤ) (b : Word) : Program :=
      ⟨"unit", #[.alu (.known opcode) (.known reg) (.known (.reg reg)) (.known (.imm b))]⟩
    (∃ e₁ s₁ e₂ s₂, e.step (byRule "rotr1" 2) = (e₁, s₁) ∧
      e.step (byUnit .rol 2 (bit 0)) = (e₂, s₂) ∧
      e₁.machine.registers = e₂.machine.registers ∧ e₁.machine.tick = e₂.machine.tick ∧
      e₁.machine.flags = e.machine.flags) ∧
    ∃ e₁ s₁ e₂ s₂, e'.step (byRule "increment" 4) = (e₁, s₁) ∧
      e'.step (byUnit .add 4 (word 1)) = (e₂, s₂) ∧
      ∃ f, f.kind = .decode ∧ s₁ = .fault f ∧ s₂ = .fault f := by
  intro bit word d e e' byRule byUnit
  have he : e.machine.WellFormed :=
    ⟨fun i => by simp [e, bit], by simp [e, bit, Memory.WellFormed], rfl, _, rfl⟩
  have he' : e'.machine.WellFormed :=
    ⟨fun i => by simp [e', word], by simp [e', word, Memory.WellFormed], rfl, _, rfl⟩
  have hd : d.HasBuiltins := fun h => h
  have hrule (name : String) (reg : ℤ) :
      fetch (byRule name reg) (.known 0) = .ok (.applyRule (.known name) (.known reg)) := rfl
  have hunit (opcode : Opcode) (reg : ℤ) (b : Word) : fetch (byUnit opcode reg b) (.known 0) =
      .ok (.alu (.known opcode) (.known reg) (.known (.reg reg)) (.known (.imm b))) := rfl
  constructor
  · obtain ⟨e₁, s₁, e₂, s₂, h₁, h₂, hregisters, -, -, htick, hflags, -⟩ :=
      step_rule_by_unit he rfl hd (.rotr1 rfl rfl) (hrule "rotr1" 2) (hunit .rol 2 (bit 0))
    exact ⟨e₁, s₁, e₂, s₂, h₁, h₂, hregisters, htick, hflags⟩
  · obtain ⟨e₁, s₁, e₂, s₂, h₁, h₂, -, -, -, -, -, -, -, hsignals⟩ :=
      step_rule_by_unit he' rfl hd (.increment rfl rfl) (hrule "increment" 4)
        (hunit .add 4 (word 1))
    rw [if_neg (by decide)] at hsignals
    exact ⟨e₁, s₁, e₂, s₂, h₁, h₂, hsignals⟩

end Engine
end WordMachine
