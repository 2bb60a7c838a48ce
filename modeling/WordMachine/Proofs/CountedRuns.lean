import WordMachine.Proofs.LongerPrograms
import WordMachine.Proofs.RuleOperations
import WordMachine.Proofs.Sharing
import WordMachine.Proofs.UnnamedRegisters

/-!
Stretches of a run, with their instructions counted. A stretch leads from one configuration of the
machine to another, and stretches are put together by adding their counts. A stretch that comes to
a halt is a whole run. The instructions here are those that use no service.
-/
namespace WordMachine

theorem RegisterFile.check_fin (j : Fin 4) : check (.known j) = .ok (some j) := by
  rcases check_cases j with ⟨i, hi, hcheck⟩ | ⟨hout, -⟩
  · rw [hcheck, Fin.ext (Int.ofNat_inj.mp hi)]
  · exact absurd ⟨Int.natCast_nonneg _, Int.ofNat_lt.mpr j.isLt⟩ hout

def Memory.withCell (m : Memory) (cell : ℕ) (v : Word) : Memory :=
  { m with cells := m.cells.setIfInBounds cell v }

namespace Effect

variable {m : Machine} {address : Field Argument} {cell : ℕ} {j : Fin 4}

theorem ofLoad_eq (hp : m.PointsTo address cell) {v : Word} (hv : m.memory.cells[cell]? = some v) :
    ofLoad m (.known j) address =
      .ok { next := some m.pc.succ, register := some (.known j, v) } := by
  obtain ⟨hcell, hget⟩ := Array.getElem?_eq_some_iff.mp hv
  have hread : m.memory.read cell = .ok v := by
    unfold Memory.read
    rw [dif_pos ⟨Int.natCast_nonneg _, hcell⟩]
    exact congrArg Except.ok hget
  obtain ⟨a, rfl⟩ := hp.known
  unfold ofLoad
  simp only [RegisterFile.check_fin, hp.resolveAddress hcell, hread, Field.demand, lift_ok,
    ok_bind]
  rfl

theorem ofStore_eq (hp : m.PointsTo address cell) (hcell : cell < m.memory.size) :
    ofStore m (.known j) address =
      .ok { next := some m.pc.succ, cells := (cell, [m.registers.values.get j]) } := by
  obtain ⟨a, rfl⟩ := hp.known
  unfold ofStore
  simp only [RegisterFile.get_of_check (RegisterFile.check_fin j), hp.resolveAddress hcell,
    Field.demand, lift_ok, ok_bind]
  rfl

theorem ofJumpIf_eq {size target : ℕ} (ht : target < size) (condition : Condition) :
    ofJumpIf size m (.known condition) (.known target) =
      .ok { next := some (if taken m.flags condition then .known target else m.pc.succ) } := by
  have hcheck : checkTarget size (.known target) = .ok () := if_pos (by omega)
  unfold ofJumpIf
  simp only [hcheck, ok_bind]
  rfl

/-- Carries out an effect on one cell. -/
theorem commit_cell {v : Word} (hcell : cell < m.memory.size) (hw : v.width = m.memory.width)
    (next : Field Int) :
    commit { next := some next, cells := (cell, [v]) } m =
      ({ m with memory := m.memory.withCell cell v, pc := next }, none) := by
  have hwrite : m.memory.write cell v = .ok (m.memory.withCell cell v) := by
    unfold Memory.write
    rw [m.memory.check_of_le (by omega) (by omega), lift_ok, ok_bind, Memory.put, if_pos hw]
    rfl
  have hall : m.memory.writeAll cell [v] = (m.memory.withCell cell v, none) :=
    Memory.writeAll_cons_of_ok hwrite []
  have hcells : ({ next := some next, cells := (cell, [v]) } : Effect).commit m = _ :=
    commit_eq hcell (by simpa using hw) rfl rfl
  rw [hcells, hall]
  rfl

end Effect

/-- What a program works on: the machine at a place of the program, without its tick. -/
structure Config where
  registers : RegisterFile
  flags : Flags
  memory : Memory
  place : ℕ

namespace Config

variable {p : Program} {c c' : Config}

def machine (c : Config) (tick : ℤ) : Machine :=
  ⟨c.registers, c.flags, c.memory, .known c.place, tick⟩

def of (width : ℕ) (a b c d : Word) (flags : Flags) (memory : Memory) (place : ℕ) : Config :=
  ⟨⟨width, #v[a, b, c, d]⟩, flags, memory, place⟩

def load (c : Config) (j : Fin 4) (v : Word) (flags : Flags) : Config :=
  { c with registers := c.registers.withRegister j v, flags, place := c.place + 1 }

def store (c : Config) (cell : ℕ) (v : Word) : Config :=
  { c with memory := c.memory.withCell cell v, place := c.place + 1 }

/-- One completed instruction, which counts as a step and as a tick, whatever was counted
before. -/
def Leads (p : Program) (c c' : Config) : Prop :=
  ∀ services steps tick, ∃ op,
    Engine.step p ⟨c.machine tick, services, steps⟩ =
      (⟨c'.machine (tick + 1), services, steps + 1⟩, .next op)

inductive Runs (p : Program) : ℕ → Config → Config → Prop
  | refl (c : Config) : Runs p 0 c c
  | next {k : ℕ} {c c₁ c₂ : Config} (h : Leads p c c₁) (hrest : Runs p k c₁ c₂) :
    Runs p (k + 1) c c₂

/-- A machine at a place of the program is a configuration with its registers written out. -/
theorem machine_of {m : Machine} (place : ℕ) (hpc : m.pc = .known place) :
    (of m.width (m.registers.values.get 0) (m.registers.values.get 1) (m.registers.values.get 2)
      (m.registers.values.get 3) m.flags m.memory place).machine m.tick = m := by
  obtain ⟨⟨width, values⟩, flags, memory, pc, tick⟩ := m
  obtain rfl : pc = .known place := hpc
  have hvalues : #v[values.get 0, values.get 1, values.get 2, values.get 3] = values := by
    apply Vector.ext
    intro i hi
    obtain rfl | rfl | rfl | rfl : i = 0 ∨ i = 1 ∨ i = 2 ∨ i = 3 := by omega
    all_goals rfl
  unfold of machine
  dsimp only
  rw [hvalues]
  rfl

theorem fetch_place {n : ℕ} {op : Instruction} (h : p.ops[n]? = some op) :
    Engine.fetch p (.known n) = .ok op := by
  have hfound : Engine.instruction? p n = some op := by
    unfold Engine.instruction?
    rw [if_neg (by omega), Int.toNat_natCast, h]
  simp only [Engine.fetch, Field.toInt?, Option.bind_some, hfound]

/-- An instruction leads where its effect does, if it completes without a service. -/
theorem leads_of_effect {op : Instruction} (hop : p.ops[c.place]? = some op)
    (h : ∀ services tick, ∃ effect,
      Effect.ofInstruction p.size (c.machine tick) services op = (services, .ok effect) ∧
        effect.next.isSome = true ∧ effect.commit (c.machine tick) = (c'.machine tick, none)) :
    Leads p c c' := by
  intro services steps tick
  refine ⟨op, ?_⟩
  obtain ⟨effect, heffect, hnext, hcommit⟩ := h services (tick + 1)
  have hexecute :=
    Engine.execute_eq (e := ⟨c.machine (tick + 1), services, steps + 1⟩) heffect hcommit
  rw [if_pos hnext] at hexecute
  exact (Engine.step_of_fetch (fetch_place hop)).trans hexecute

theorem leads_alu {opcode : Opcode} {j : Fin 4} {a : Argument} {b : Field Argument} {v : Word}
    {flags : Flags} (hop : p.ops[c.place]? = some (.alu (.known opcode) (.known j) (.known a) b))
    (hv : Alu.execute (.known opcode) c.registers c.flags (.known a) b = .ok (v, flags))
    (hw : v.width = c.registers.width) : Leads p c (c.load j v flags) := by
  have hj := RegisterFile.check_fin j
  apply leads_of_effect hop
  intro services tick
  have heffect := Effect.ofAlu_eq (m := c.machine tick) hj hv
  exact ⟨_, congrArg (Prod.mk services) heffect, rfl, Effect.commit_register hj hw _ _⟩

/-- An operation on two words. -/
theorem leads_binary {opcode : Opcode} {j : Fin 4} {a b : Argument} {x y v : Word} {carry : Bool}
    (hop : p.ops[c.place]? = some (.alu (.known opcode) (.known j) (.known a) (.known b)))
    (hsets : opcode ≠ .loadk ∧ opcode ≠ .mov) (ha : Alu.Denotes c.registers (.known a) x)
    (hb : Alu.Denotes c.registers (.known b) y) (hv : Alu.binary opcode x y = .ok (v, carry))
    (hw : v.width = c.registers.width) : Leads p c (c.load j v ⟨decide (v.value = 0), carry⟩) :=
  leads_alu hop (ha.execute hsets hb c.flags hv) hw

theorem leads_jumpIf {condition : Condition} {target : ℕ}
    (hop : p.ops[c.place]? = some (.jumpIf (.known condition) (.known target)))
    (ht : target < p.size) :
    Leads p c
      { c with place := if Effect.taken c.flags condition then target else c.place + 1 } := by
  apply leads_of_effect hop
  intro services tick
  have heffect := Effect.ofJumpIf_eq (m := c.machine tick) ht condition
  refine ⟨_, congrArg (Prod.mk services) heffect, rfl, ?_⟩
  rw [Effect.commit_eq (Nat.zero_le _) (by simp) rfl rfl]
  unfold machine
  split <;> rfl

/-- The jump is taken if the number that Zero tells of is zero. -/
theorem leads_jumpIf_zero {target n : ℕ}
    (hop : p.ops[c.place]? = some (.jumpIf (.known .zero) (.known target))) (ht : target < p.size)
    (hzero : c.flags.zero = decide (n = 0)) :
    Leads p c { c with place := if n = 0 then target else c.place + 1 } := by
  have hjump := leads_jumpIf hop ht
  simp only [Effect.taken, hzero, decide_eq_true_eq] at hjump
  exact hjump

/-- The jump is taken unless the number that Zero tells of is zero. -/
theorem leads_jumpIf_notZero {target n : ℕ}
    (hop : p.ops[c.place]? = some (.jumpIf (.known .notZero) (.known target)))
    (ht : target < p.size) (hzero : c.flags.zero = decide (n = 0)) :
    Leads p c { c with place := if n = 0 then c.place + 1 else target } := by
  have hjump := leads_jumpIf hop ht
  simp only [Effect.taken, hzero, Bool.not_eq_true', decide_eq_false_iff_not, ite_not] at hjump
  exact hjump

theorem leads_load {i j : Fin 4} {v : Word}
    (hop : p.ops[c.place]? = some (.load (.known j) (.known (.indirect i))))
    (hv : c.memory.cells[(c.registers.values.get i).value]? = some v)
    (hw : v.width = c.registers.width) :
    Leads p c (c.load j v c.flags) := by
  apply leads_of_effect hop
  intro services tick
  have heffect := Effect.ofLoad_eq (m := c.machine tick) (j := j) (Or.inr ⟨i, rfl, rfl⟩) hv
  exact ⟨_, congrArg (Prod.mk services) heffect, rfl,
    Effect.commit_register (RegisterFile.check_fin j) hw _ none⟩

theorem leads_store {i j : Fin 4}
    (hop : p.ops[c.place]? = some (.store (.known j) (.known (.indirect i))))
    (hcell : (c.registers.values.get i).value < c.memory.size)
    (hw : (c.registers.values.get j).width = c.memory.width) :
    Leads p c (c.store (c.registers.values.get i).value (c.registers.values.get j)) := by
  apply leads_of_effect hop
  intro services tick
  have heffect := Effect.ofStore_eq (m := c.machine tick) (j := j) (Or.inr ⟨i, rfl, rfl⟩) hcell
  exact ⟨_, congrArg (Prod.mk services) heffect, rfl, Effect.commit_cell hcell hw _⟩

theorem Runs.trans {k l : ℕ} {c₁ c₂ c₃ : Config} (h : Runs p k c₁ c₂) (h' : Runs p l c₂ c₃) :
    Runs p (k + l) c₁ c₃ := by
  induction h with
  | refl c => rwa [Nat.zero_add]
  | next hlead hrest ih =>
    rw [Nat.succ_add]
    exact .next hlead (ih h')

/-- A configuration that leads on is not at the end of the program. -/
theorem Leads.place_lt (h : Leads p c c') : c.place < p.size := by
  obtain ⟨op, hstep⟩ := h {} 0 0
  obtain ⟨op', effect, hfetch, -⟩ := Engine.step_done hstep (Or.inr ⟨op, rfl⟩)
  exact Int.ofNat_lt.mp (Engine.fetch_known hfetch).2.1

theorem Leads.sameShape (h : Leads p c c') (tick tick' : ℤ) :
    (c.machine tick).SameShape (c'.machine tick') := by
  obtain ⟨op, hstep⟩ := h {} 0 0
  obtain ⟨op', effect, -, -, hcommit, -⟩ := Engine.step_done hstep (Or.inr ⟨op, rfl⟩)
  have hshape := effect.commit_sameShape (c.machine (0 + 1))
  rw [show effect.commit (c.machine (0 + 1)) = (c'.machine (0 + 1), none) from hcommit] at hshape
  exact ⟨hshape.width, hshape.registers, hshape.memoryWidth, hshape.memorySize⟩

/-- A stretch keeps the shape of the machine. -/
theorem Runs.sameShape {k : ℕ} (h : Runs p k c c') (tick tick' : ℤ) :
    (c.machine tick).SameShape (c'.machine tick') := by
  induction h with
  | refl c => exact ⟨rfl, id, rfl, rfl⟩
  | next hlead hrest ih =>
    have hfirst := hlead.sameShape tick tick'
    exact ⟨ih.width.trans hfirst.width, fun hr => ih.registers (hfirst.registers hr),
      ih.memoryWidth.trans hfirst.memoryWidth, ih.memorySize.trans hfirst.memorySize⟩

section Run
variable {σ : Type} (observe : σ → Machine → Instruction → σ)

/-- A run goes through a stretch and on from its end. -/
theorem Runs.runFor_eq {k : ℕ} (h : Runs p k c c') (limit left : ℕ) (services : Services)
    (steps : ℕ) (tick : ℤ) (acc : σ) :
    ∃ seen, Engine.runFor p limit observe (k + left) ⟨c.machine tick, services, steps⟩ acc =
      Engine.runFor p limit observe left ⟨c'.machine (tick + k), services, steps + k⟩ seen := by
  induction h generalizing steps tick acc with
  | refl c => exact ⟨acc, by simp⟩
  | @next k c c₁ c₂ hlead hrest ih =>
    obtain ⟨op, hstep⟩ := hlead services steps tick
    have hpc : (c.machine tick).pc.toInt? ≠ some (p.size : ℤ) := by
      have hplace := hlead.place_lt
      simp only [machine, Field.toInt?, ne_eq, Option.some.injEq]
      omega
    obtain ⟨seen, hseen⟩ := ih (steps + 1) (tick + 1) (observe acc (c₁.machine (tick + 1)) op)
    refine ⟨seen, ?_⟩
    rw [Nat.succ_add, Engine.runFor_succ hpc, hstep]
    dsimp only
    have htick : tick + 1 + (k : ℤ) = tick + (k + 1 : ℕ) := by omega
    have hsteps : steps + 1 + k = steps + (k + 1) := by omega
    rw [hseen, htick, hsteps]

/-- A stretch that comes to a halt is a whole run, if the limit allows for it and for the halt. -/
theorem Runs.runProgram_halts {k : ℕ} (h : Runs p k c c') (hhalt : p.ops[c'.place]? = some .halt)
    (services : Services) (tick : ℤ) {limit : ℤ} (hlimit : k + 1 ≤ limit) (acc : σ) :
    ∃ seen, runProgram p (c.machine tick) services limit observe acc =
      .ok (⟨c'.machine (tick + k + 1), services, k + 1⟩, seen, .halted false) := by
  have hleft : limit.toNat = k + (limit.toNat - (k + 1) + 1) := by omega
  obtain ⟨seen, hseen⟩ :=
    h.runFor_eq observe limit.toNat (limit.toNat - (k + 1) + 1) services 0 tick acc
  have hpc : (c'.machine (tick + k)).pc.toInt? ≠ some (p.size : ℤ) := by
    have hplace : c'.place < p.size := (Array.getElem?_eq_some_iff.mp hhalt).1
    simp only [machine, Field.toInt?, ne_eq, Option.some.injEq]
    omega
  have hstep : Engine.step p ⟨c'.machine (tick + k), services, 0 + k⟩ =
      (⟨c'.machine (tick + k + 1), services, k + 1⟩, .halt) := by
    rw [Engine.step_of_fetch (fetch_place hhalt), Engine.execute_halt, Nat.zero_add]
    rfl
  rw [← hleft, Engine.runFor_succ hpc, hstep] at hseen
  refine ⟨seen, ?_⟩
  rw [runProgram_eq (by omega), hseen]
  rfl

end Run

end Config
end WordMachine
