import WordMachine.Proofs.ServiceEffects
import WordMachine.Run

/-!
Single steps, and a run as a sequence of them. A step begins an instruction, asks for its effect
and carries the effect out. A step that faults does so before anything is written, and so leaves
the machine and both stores as they were.
-/
namespace WordMachine

/-- Registers and memory keep their width and memory its size, and no register loses the width. -/
structure Machine.SameShape (m m' : Machine) : Prop where
  width : m'.width = m.width
  registers : m.registers.WellFormed → m'.registers.WellFormed
  memoryWidth : m'.memory.width = m.memory.width
  memorySize : m'.memory.size = m.memory.size

namespace Effect

variable {e : Effect} {m : Machine}

theorem writeRegister_keeps {r r' : RegisterFile} {reg : Option (Field Int × Word)}
    (h : writeRegister r reg = .ok r') : r'.width = r.width ∧ (r.WellFormed → r'.WellFormed) := by
  match reg with
  | none =>
    cases h
    exact ⟨rfl, id⟩
  | some (i, v) =>
    change r.set i v = .ok r' at h
    cases hj : RegisterFile.check i with
    | error err =>
      unfold RegisterFile.set at h
      rw [hj] at h
      cases h
    | ok j =>
      obtain ⟨hv, k, -, rfl⟩ := (r.set_settles v hj).of_ok h
      exact ⟨rfl, fun hr => hr.set hv k⟩

/-- A register that has been looked up refuses a word that is not proper, and not by a fault. -/
theorem writeRegister_error {r : RegisterFile} {reg : Option (Field Int × Word)} {err : Error}
    (h : ∀ {i v}, reg = some (i, v) → ∃ j, RegisterFile.check i = .ok j)
    (herr : writeRegister r reg = .error err) :
    err.isFault = false ∧ ¬ ∀ {i v}, reg = some (i, v) → i.Known ∧ v.width = r.width := by
  match reg with
  | none => cases herr
  | some (i, v) =>
    obtain ⟨j, hj⟩ := h rfl
    obtain ⟨hfault, hn⟩ := (r.set_settles v hj).of_error herr
    refine ⟨hfault, fun hp => ?_⟩
    obtain ⟨hi, hv⟩ := hp rfl
    obtain ⟨k, hk⟩ := (RegisterFile.check_settles i id).of_ok hj hi
    rw [hn hv] at hk
    cases hk

/-- Carrying out an effect keeps the shape, also where it stops half way. -/
theorem commit_sameShape (e : Effect) (m : Machine) : m.SameShape (e.commit m).1 := by
  obtain ⟨registers, flags, memory, pc, tick⟩ := m
  have hs : (memory.writeSpan e.cells.1 e.cells.2).1.width = memory.width ∧
      (memory.writeSpan e.cells.1 e.cells.2).1.size = memory.size := by
    unfold Memory.writeSpan
    split
    next =>
      obtain ⟨hw, hs, -⟩ := memory.writeAll_keeps e.cells.1 e.cells.2
      exact ⟨hw, hs⟩
    next => exact ⟨rfl, rfl⟩
  unfold commit
  dsimp only
  split
  next memory' err h =>
    rw [h] at hs
    exact ⟨rfl, id, hs.1, hs.2⟩
  next memory' h =>
    rw [h] at hs
    split
    next => exact ⟨rfl, id, hs.1, hs.2⟩
    next =>
      split
      next => exact ⟨rfl, id, hs.1, hs.2⟩
      next registers' hr =>
        obtain ⟨hw, hf⟩ := writeRegister_keeps hr
        exact ⟨hw, hf, hs.1, hs.2⟩

/-- An effect that fits is not refused by a fault. -/
theorem commit_ne_fault {m' : Machine} {err : Error} (hf : e.Fits m)
    (h : e.commit m = (m', some err)) : err.isFault = false := by
  obtain ⟨registers, flags, memory, pc, tick⟩ := m
  unfold commit at h
  dsimp only at h
  rw [memory.writeSpan_eq_writeAll hf.cells] at h
  split at h
  next memory' err' hw =>
    cases h
    obtain ⟨v, -, -, rfl⟩ := Memory.writeAll_error (Int.natCast_nonneg _)
      (Int.ofNat_le.mpr hf.cells) (congrArg Prod.snd hw)
    rfl
  next memory' hw =>
    split at h
    next =>
      cases h
      rfl
    next =>
      split at h
      next err' hr =>
        cases h
        exact (writeRegister_error hf.register hr).1
      next => cases h

/-- What an effect has written when it is carried out. -/
theorem commit_done {m' : Machine} (h : e.commit m = (m', none)) :
    ∃ registers memory, m.memory.writeSpan e.cells.1 e.cells.2 = (memory, none) ∧
      writeRegister m.registers e.register = .ok registers ∧
      m' = ⟨registers, e.flags.getD m.flags, memory, e.next.getD m.pc, m.tick⟩ := by
  obtain ⟨registers, flags, memory, pc, tick⟩ := m
  unfold commit at h
  dsimp only at h
  split at h
  next => cases h
  next memory' hw =>
    split at h
    next => cases h
    next =>
      split at h
      next => cases h
      next registers' hr =>
        cases h
        exact ⟨registers', memory', hw, hr, rfl⟩

/-- An effect that is carried out has had its register written. -/
theorem commit_registers {m' : Machine} (h : e.commit m = (m', none)) :
    writeRegister m.registers e.register = .ok m'.registers := by
  obtain ⟨registers, memory, -, hr, rfl⟩ := commit_done h
  exact hr

/-- An effect whose cells lie in memory, whose words have the width of the memory and whose
register can be written is carried out as a whole. -/
theorem commit_eq {registers : RegisterFile} (hb : e.cells.1 + e.cells.2.length ≤ m.memory.size)
    (hw : ∀ v ∈ e.cells.2, v.width = m.memory.width) (hg : e.gap = false)
    (hr : writeRegister m.registers e.register = .ok registers) :
    e.commit m = ({ m with
      registers, flags := e.flags.getD m.flags, memory :=
  (m.memory.writeAll e.cells.1 e.cells.2).1,
      pc := e.next.getD m.pc }, none) := by
  obtain ⟨_, flags, memory, pc, tick⟩ := m
  have hm :
      memory.writeAll e.cells.1 e.cells.2 = ((memory.writeAll e.cells.1 e.cells.2).1, none) :=
    Prod.ext rfl (Memory.writeAll_cells hb hw).1
  unfold commit
  dsimp only
  rw [memory.writeSpan_eq_writeAll hb, hm]
  simp only [hg, hr]
  rfl

/-- Where the words are refused, neither the register nor the flags nor the counter are written. -/
theorem commit_refused {memory : Memory} {err : Error}
    (h : m.memory.writeSpan e.cells.1 e.cells.2 = (memory, some err)) :
    e.commit m = ({ m with memory }, some err) := by
  obtain ⟨registers, flags, _, pc, tick⟩ := m
  unfold commit
  dsimp only at h ⊢
  rw [h]

/-- An effect whose cells lie in memory and whose register can be written is carried out as a
whole, or stops at the first word of another width. -/
theorem commit_cells {registers : RegisterFile} (hm : m.memory.width = m.width)
    (hroom : e.cells.1 + e.cells.2.length ≤ m.memory.size) (hgap : e.gap = false)
    (hregister : writeRegister m.registers e.register = .ok registers) :
    ((∀ v ∈ e.cells.2, v.width = m.width) ∧ ∃ memory,
      m.memory.Overlaid e.cells.1 e.cells.2 memory ∧
        e.commit m =
          ({ m with registers, flags := e.flags.getD m.flags, memory, pc := e.next.getD m.pc },
            none)) ∨
      ∃ before v after memory, e.cells.2 = before ++ v :: after ∧
        (∀ x ∈ before, x.width = m.width) ∧
        v.width ≠ m.width ∧ m.memory.Overlaid e.cells.1 before memory ∧
        e.commit m = ({ m with memory }, some (.cellWidth v m.width)) := by
  rw [← hm]
  rcases m.memory.writeAll_cases hroom with
    ⟨hwords, -, hover⟩ | ⟨before, v, after, hsplit, hbefore, hv, herr, hover⟩
  · exact Or.inl ⟨hwords, _, hover, commit_eq hroom hwords hgap hregister⟩
  · right
    refine ⟨before, v, after, _, hsplit, hbefore, hv, hover, commit_refused ?_⟩
    rw [m.memory.writeSpan_eq_writeAll hroom, ← herr]

end Effect

namespace Engine

/-- An instruction has no effect, or its effect is refused half way but not by a fault, or it is
carried out. -/
theorem execute_cases (size : Nat) (op : Instruction) (e : Engine) :
    (∃ err, (Effect.ofInstruction size e.machine e.services op).2 = .error err ∧
      e.execute size op =
        ({ e with services := (Effect.ofInstruction size e.machine e.services op).1 },
          .ofError err)) ∨
    ∃ effect, (Effect.ofInstruction size e.machine e.services op).2 = .ok effect ∧
      effect.Fits e.machine ∧
      ((∃ machine err, effect.commit e.machine = (machine, some err) ∧ err.isFault = false ∧
        e.execute size op =
          (⟨machine, (Effect.ofInstruction size e.machine e.services op).1, e.steps⟩,
            .ofError err)) ∨
      ∃ machine, effect.commit e.machine = (machine, none) ∧
        e.execute size op =
          (⟨machine, (Effect.ofInstruction size e.machine e.services op).1, e.steps⟩,
            if effect.next.isSome then .next op else .halt)) := by
  obtain ⟨machine, services, steps⟩ := e
  have hf := Effect.ofInstruction_settles size machine services op
  unfold execute
  dsimp only
  cases h : Effect.ofInstruction size machine services op with
  | mk services' r =>
    rw [h] at hf
    cases r with
    | error err => exact Or.inl ⟨err, rfl, rfl⟩
    | ok effect =>
      refine Or.inr ⟨effect, rfl, hf, ?_⟩
      dsimp only
      cases hc : effect.commit machine with
      | mk machine' o =>
        cases o with
        | some err => exact Or.inl ⟨machine', err, rfl, Effect.commit_ne_fault hf hc, rfl⟩
        | none => exact Or.inr ⟨machine', rfl, rfl⟩

theorem execute_services (size : Nat) (op : Instruction) (e : Engine) :
    (e.execute size op).1.services = (Effect.ofInstruction size e.machine e.services op).1 := by
  rcases execute_cases size op e with ⟨err, -, he⟩ |
    ⟨effect, -, -, ⟨m, err, -, -, he⟩ | ⟨m, -, he⟩⟩
  · rw [he]
  · rw [he]
  · rw [he]

theorem execute_eq {size : Nat} {op : Instruction} {e : Engine} {services : Services}
    {effect : Effect} {machine : Machine}
    (he : Effect.ofInstruction size e.machine e.services op = (services, .ok effect))
    (hc : effect.commit e.machine = (machine, none)) :
    e.execute size op =
      (⟨machine, services, e.steps⟩, if effect.next.isSome then .next op else .halt) := by
  obtain ⟨_, _, steps⟩ := e
  unfold execute
  dsimp only at he hc ⊢
  rw [he]
  dsimp only
  rw [hc]

theorem execute_failed {size : Nat} {op : Instruction} {e : Engine} {services : Services}
    {err : Error}
    (he : Effect.ofInstruction size e.machine e.services op = (services, .error err)) :
    e.execute size op = ({ e with services }, .ofError err) := by
  obtain ⟨_, _, steps⟩ := e
  unfold execute
  dsimp only at he ⊢
  rw [he]

theorem execute_refused {size : Nat} {op : Instruction} {e : Engine} {services : Services}
    {effect : Effect} {machine : Machine} {err : Error}
    (he : Effect.ofInstruction size e.machine e.services op = (services, .ok effect))
    (hc : effect.commit e.machine = (machine, some err)) :
    e.execute size op = (⟨machine, services, e.steps⟩, .ofError err) := by
  obtain ⟨_, _, steps⟩ := e
  unfold execute
  dsimp only at he hc ⊢
  rw [he]
  dsimp only
  rw [hc]

/-- Whatever an instruction does, the machine keeps its shape, and the services are what the
instruction makes of them. -/
theorem execute_keeps (size : Nat) (op : Instruction) (e : Engine) :
    e.machine.SameShape (e.execute size op).1.machine ∧
      (e.execute size op).1.services = (Effect.ofInstruction size e.machine e.services op).1 ∧
      (e.execute size op).1.steps = e.steps := by
  rcases execute_cases size op e with ⟨err, -, he⟩ |
    ⟨effect, -, -, ⟨m, err, hc, -, he⟩ | ⟨m, hc, he⟩⟩
  · rw [he]
    exact ⟨⟨rfl, id, rfl, rfl⟩, rfl, rfl⟩
  · have hs := effect.commit_sameShape e.machine
    rw [hc] at hs
    rw [he]
    exact ⟨hs, rfl, rfl⟩
  · have hs := effect.commit_sameShape e.machine
    rw [hc] at hs
    rw [he]
    exact ⟨hs, rfl, rfl⟩

theorem ofError_eq_fault {err : Error} {f : Fault} (h : Signal.ofError err = .fault f) :
    err = .fault f := by
  cases err with
  | fault g =>
    cases h
    rfl
  | _ => cases h

/-- An instruction that faults has had no effect. -/
theorem execute_fault {size : Nat} {op : Instruction} {e e' : Engine} {f : Fault}
    (h : e.execute size op = (e', .fault f)) :
    e' = { e with services := (Effect.ofInstruction size e.machine e.services op).1 } ∧
      (Effect.ofInstruction size e.machine e.services op).2 = .error (.fault f) := by
  rcases execute_cases size op e with
    ⟨err, herr, he⟩ | ⟨effect, -, -, ⟨machine, err, -, hn, he⟩ | ⟨machine, -, he⟩⟩
  · rw [he] at h
    obtain ⟨rfl, hs⟩ := Prod.mk.inj h
    obtain rfl := ofError_eq_fault hs
    exact ⟨rfl, herr⟩
  · rw [he] at h
    obtain rfl := ofError_eq_fault (Prod.mk.inj h).2
    cases hn
  · rw [he] at h
    have hs := (Prod.mk.inj h).2
    split at hs <;> cases hs

/-- An instruction that completes has had its effect carried out. -/
theorem execute_done {size : Nat} {op : Instruction} {e e' : Engine} {signal : Signal}
    (h : e.execute size op = (e', signal)) (hs : signal = .halt ∨ ∃ op, signal = .next op) :
    ∃ effect, (Effect.ofInstruction size e.machine e.services op).2 = .ok effect ∧
      effect.commit e.machine = (e'.machine, none) ∧ e'.steps = e.steps ∧
      signal = if effect.next.isSome then .next op else .halt := by
  have failed {err : Error} (he : signal = .ofError err) : False := by
    rcases hs with rfl | ⟨op, rfl⟩ <;> cases err <;> cases he
  rcases execute_cases size op e with
    ⟨err, -, he⟩ | ⟨effect, hok, -, ⟨machine, err, -, -, he⟩ | ⟨machine, hc, he⟩⟩
  · exact (failed (congrArg Prod.snd (h.symm.trans he))).elim
  · exact (failed (congrArg Prod.snd (h.symm.trans he))).elim
  · obtain ⟨rfl, rfl⟩ := Prod.mk.inj (h.symm.trans he)
    exact ⟨effect, hok, hc, rfl, rfl⟩

theorem mem_of_instruction? {p : Program} {index : Int} {op : Instruction}
    (h : instruction? p index = some op) : op ∈ p.ops := by
  unfold instruction? at h
  split at h
  · cases h
  · exact Array.mem_of_getElem? h

/-- Fetching fails by the counter lying outside the program, or else by its not being an
integer. -/
theorem fetch_settles (p : Program) (pc : Field Int) :
    Settles (fetch p pc) (· ∈ p.ops)
      fun err => err = .fault (.counter pc p.size) ∨ err.isFault = false ∧ ¬ pc.Known := by
  have found {op : Instruction} (h : pc.toInt?.bind (instruction? p) = some op) : op ∈ p.ops := by
    obtain ⟨index, -, hi⟩ := Option.bind_eq_some_iff.mp h
    exact mem_of_instruction? hi
  unfold fetch
  split
  next n =>
    split
    next op h => exact found h
    next => exact Or.inl rfl
  next b =>
    split
    next op h => exact found h
    next => exact Or.inl rfl
  next x =>
    split
    · exact Or.inr ⟨rfl, Field.not_known_other⟩
    · exact Or.inl rfl
  next hk hb hx =>
    refine Or.inr ⟨rfl, ?_⟩
    rintro ⟨n, rfl⟩
    exact hk n rfl

theorem step_of_fetch {p : Program} {e : Engine} {op : Instruction}
    (h : fetch p e.machine.pc = .ok op) : e.step p = e.beginStep.execute p.size op := by
  unfold step
  rw [h]

section Run
variable {σ : Type} {p : Program} {observe : σ → Machine → Instruction → σ}

theorem runFor_end {limit left : Nat} {e : Engine} {acc : σ}
    (h : e.machine.pc.toInt? = some (p.size : Int)) :
    runFor p limit observe left e acc = (e, acc, .halted true) := by
  unfold runFor
  rw [if_pos h]

theorem runFor_zero {limit : Nat} {e : Engine} {acc : σ}
    (h : e.machine.pc.toInt? ≠ some (p.size : Int)) :
    runFor p limit observe 0 e acc = (e, acc, .faulted (.stepLimit limit e.machine.pc)) := by
  unfold runFor
  rw [if_neg h]

theorem runFor_succ {limit left : Nat} {e : Engine} {acc : σ}
    (h : e.machine.pc.toInt? ≠ some (p.size : Int)) :
    runFor p limit observe (left + 1) e acc = match e.step p with
      | (e, .next op) => runFor p limit observe left e (observe acc e.machine op)
      | (e, .halt) => (e, acc, .halted false)
      | (e, .fault f) => (e, acc, .faulted f)
      | (e, .crash err) => (e, acc, .crashed err) := by
  rw [runFor]
  exact if_neg h

/-- The engine, and what the observer has seen, after some completed instructions. -/
inductive Reaches (p : Program) (observe : σ → Machine → Instruction → σ) (e : Engine) (acc : σ) :
    Engine → σ → Prop
  | start : Reaches p observe e acc e acc
  | next {e₁ e₂ : Engine} {seen : σ} {op : Instruction} (h : Reaches p observe e acc e₁ seen)
    (hstep : e₁.step p = (e₂, .next op)) : Reaches p observe e acc e₂ (observe seen e₂.machine op)

/-- How a run can end where it has come to: at the end of the program, by the limit, or in one more
step. -/
inductive Stops (p : Program) (limit : Nat) (e : Engine) : Engine → Ending → Prop
  | finished (h : e.machine.pc.toInt? = some (p.size : Int)) : Stops p limit e e (.halted true)
  | exhausted : Stops p limit e e (.faulted (.stepLimit limit e.machine.pc))
  | halt {e' : Engine} (h : e.step p = (e', .halt)) : Stops p limit e e' (.halted false)
  | fault {e' : Engine} {f : Fault} (h : e.step p = (e', .fault f)) :
    Stops p limit e e' (.faulted f)
  | crash {e' : Engine} {err : Error} (h : e.step p = (e', .crash err)) :
    Stops p limit e e' (.crashed err)

/-- A run goes on from instruction to instruction and then stops. -/
theorem runFor_stops (limit left : Nat) {e₀ e : Engine} {acc₀ acc : σ}
    (h : Reaches p observe e₀ acc₀ e acc) :
    ∃ e₁ e₂ seen ending, runFor p limit observe left e acc = (e₂, seen, ending) ∧
      Reaches p observe e₀ acc₀ e₁ seen ∧ Stops p limit e₁ e₂ ending := by
  induction left generalizing e acc with
  | zero =>
    by_cases hpc : e.machine.pc.toInt? = some (p.size : Int)
    · exact ⟨e, e, acc, _, runFor_end hpc, h, .finished hpc⟩
    · exact ⟨e, e, acc, _, runFor_zero hpc, h, .exhausted⟩
  | succ left ih =>
    by_cases hpc : e.machine.pc.toInt? = some (p.size : Int)
    · exact ⟨e, e, acc, _, runFor_end hpc, h, .finished hpc⟩
    · rw [runFor_succ hpc]
      cases he : e.step p with
      | mk e' signal =>
        cases signal with
        | next op => exact ih (h.next he)
        | halt => exact ⟨e, e', acc, _, rfl, h, .halt he⟩
        | fault f => exact ⟨e, e', acc, _, rfl, h, .fault he⟩
        | crash err => exact ⟨e, e', acc, _, rfl, h, .crash he⟩

end Run

/-- A step faults before it begins, by the counter, or in its instruction, which changes neither
the machine nor a store. -/
theorem step_fault_cases {p : Program} {e e' : Engine} {f : Fault}
    (h : e.step p = (e', .fault f)) :
    f = .counter e.machine.pc p.size ∧ e' = e ∨
      f.isOfRun = false ∧ ∃ services, e' = { e.beginStep with services } ∧
        services.content = e.services.content ∧ services.triples = e.services.triples := by
  unfold step at h
  split at h
  next err herr =>
    obtain ⟨rfl, hs⟩ := Prod.mk.inj h
    obtain rfl := ofError_eq_fault hs
    rcases (fetch_settles p _).of_error herr with hf | ⟨hf, -⟩
    · exact Or.inl ⟨Error.fault.inj hf, rfl⟩
    · cases hf
  next op _ =>
    obtain ⟨rfl, hf⟩ := execute_fault h
    have hrun := (Effect.ofInstruction_settles p.size _ _ op).of_error hf
    exact Or.inr ⟨hrun, _, rfl, Effect.ofInstruction_stores hf⟩

/-- A step that faults leaves registers, flags, memory, counter and both stores as they were. It
has been counted, unless the counter pointed outside the program. -/
theorem step_fault_atomic {p : Program} {e e' : Engine} {f : Fault}
    (h : e.step p = (e', .fault f)) :
    e'.machine.registers = e.machine.registers ∧ e'.machine.flags = e.machine.flags ∧
      e'.machine.memory = e.machine.memory ∧ e'.machine.pc = e.machine.pc ∧
      e'.services.content = e.services.content ∧ e'.services.triples = e.services.triples ∧
      if f = .counter e.machine.pc p.size then e'.machine.tick = e.machine.tick ∧
      e'.steps = e.steps
      else e'.machine.tick = e.machine.tick + 1 ∧ e'.steps = e.steps + 1 := by
  rcases step_fault_cases h with ⟨hf, rfl⟩ | ⟨hf, services, rfl, hc, ht⟩
  · rw [if_pos hf]
    exact ⟨rfl, rfl, rfl, rfl, rfl, rfl, rfl, rfl⟩
  · have hn : f ≠ .counter e.machine.pc p.size := by
      rintro rfl
      cases hf
    rw [if_neg hn]
    exact ⟨rfl, rfl, rfl, rfl, hc, ht, rfl, rfl⟩

/-- A query that finds one triple, with no room in memory for its three words. -/
theorem step_fault_atomic_query :
    let z : Word := ⟨4, 0, by decide, by decide⟩
    let services : Services := { triples := some (.store ⟨[⟨some z, some z, some z⟩], none⟩) }
    let e : Engine := ⟨⟨⟨4, Vector.replicate 4 z⟩, {}, ⟨4, #[z, z]⟩, .known 0, 0⟩, services, 0⟩
    let query : Instruction :=
      .triple (.known .queryExact) .null .null .null (.known 1) (.known (.absolute 0))
    ∃ e', e.step ⟨"main", #[query]⟩ = (e', .fault (.span 0 3 2)) ∧
      e'.machine.registers = e.machine.registers ∧ e'.machine.memory = e.machine.memory ∧
      e'.services.triples = services.triples ∧ e'.machine.tick = 1 ∧ e'.steps = 1 := by
  intro z services e query
  have h : e.step ⟨"main", #[query]⟩ =
      (⟨{ e.machine with tick := 1 }, services, 1⟩, .fault (.span 0 3 2)) := by
        with_unfolding_all rfl
  obtain ⟨hr, -, hm, -, -, ht, hcount⟩ := step_fault_atomic h
  rw [if_neg (by decide)] at hcount
  exact ⟨_, h, hr, hm, ht, hcount⟩

end Engine

theorem runProgram_eq {σ : Type} {p : Program} {m : Machine} {s : Services} {limit : Int}
    {observe : σ → Machine → Instruction → σ} {acc : σ} (h : 0 < limit) :
    runProgram p m s limit observe acc =
      .ok ((Engine.runFor p limit.toNat observe limit.toNat ⟨m, s, 0⟩ acc).1,
        (Engine.runFor p limit.toNat observe limit.toNat ⟨m, s, 0⟩ acc).2.1,
        reportable (Engine.runFor p limit.toNat observe limit.toNat ⟨m, s, 0⟩ acc).1
          (Engine.runFor p limit.toNat observe limit.toNat ⟨m, s, 0⟩ acc).2.2) := by
  unfold runProgram Engine.checkLimit
  rw [if_neg (Int.not_le.mpr h)]
  rfl

theorem limit_pos_of_runProgram {σ : Type} {p : Program} {m : Machine} {s : Services} {limit : Int}
    {observe : σ → Machine → Instruction → σ} {acc : σ} {out : Engine × σ × Ending}
    (h : runProgram p m s limit observe acc = .ok out) : 0 < limit := by
  refine Int.not_le.mp fun hl => ?_
  unfold runProgram Engine.checkLimit at h
  rw [if_pos hl] at h
  cases h

end WordMachine
