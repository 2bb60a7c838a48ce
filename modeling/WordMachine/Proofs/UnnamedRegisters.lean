import WordMachine.Proofs.Lockstep
import WordMachine.Proofs.Resume
import WordMachine.Proofs.Safety

/-!
Registers that a program does not name. An instruction reads and writes only the registers that
stand in its fields. So a register that is named nowhere in a program keeps its word through every
run, and no run depends on that word.
-/
namespace WordMachine

def Argument.registers : Argument → List Int
  | .reg i | .indirect i => [i]
  | .imm _ | .absolute _ => []

namespace Field

def registers (index : Field Int) : List Int := index.toInt?.toList

def argumentRegisters : Field Argument → List Int
  | .known a => a.registers
  | _ => []

end Field

namespace Instruction

/-- All registers that an instruction names, to be read or to be written. -/
def registers : Instruction → List Int
  | .alu _ dest a b => dest.registers ++ a.argumentRegisters ++ b.argumentRegisters
  | .load dest address => dest.registers ++ address.argumentRegisters
  | .store src address => src.registers ++ address.argumentRegisters
  | .loadConst dest _ => dest.registers
  | .moveReg dest src => dest.registers ++ src.registers
  | .content _ digestReg address lengthReg =>
    digestReg.registers ++ address.argumentRegisters ++ lengthReg.registers
  | .triple _ subject relation object countReg outAddress =>
    subject.argumentRegisters ++ relation.argumentRegisters ++ object.argumentRegisters ++
      countReg.registers ++ outAddress.argumentRegisters
  | .applyRule _ reg => reg.registers
  | .jumpIf .. | .jump _ | .halt | .foreign _ => []

/-- The field that names the register which an instruction writes. -/
def destination : Instruction → Option (Field Int)
  | .alu _ dest _ _ | .load dest _ | .loadConst dest _ | .moveReg dest _ => some dest
  | .content (.known .enfold) digestReg _ _ => some digestReg
  | .content (.known .unfold) _ _ lengthReg => some lengthReg
  | .triple (.known .queryExact) _ _ _ countReg _ |
    .triple (.known .queryByBasin) _ _ _ countReg _ =>
    some countReg
  | .applyRule _ reg => some reg
  | _ => none

theorem registers_of_destination {op : Instruction} {index : Field Int}
    (h : op.destination = some index) : index.registers ⊆ op.registers := by
  intro n hn
  unfold destination at h
  split at h <;> cases h <;> simp [registers, hn]

end Instruction

theorem RegisterFile.val_lt (k : Fin 4) : (k : Nat) < 4 := k.isLt

def RegisterFile.withRegister (r : RegisterFile) (k : Fin 4) (v : Word) : RegisterFile :=
  { r with values := r.values.set k v (val_lt k) }

def Machine.withRegister (m : Machine) (k : Fin 4) (v : Word) : Machine :=
  { m with registers := m.registers.withRegister k v }

def Engine.withRegister (e : Engine) (k : Fin 4) (v : Word) : Engine :=
  { e with machine := e.machine.withRegister k v }

variable {k : Fin 4} {v : Word}

namespace RegisterFile

variable {r : RegisterFile} {index : Field Int}

theorem toInt?_of_check {i : Fin 4} (h : check index = .ok (some i)) :
    index.toInt? = some (i : Int) := by
  unfold check at h
  split at h
  next n =>
    cases hs : slot n with
    | error f =>
      rw [hs] at h
      cases h
    | ok j =>
      rw [hs] at h
      cases h
      rw [(slot_settles n).of_ok hs]
      rfl
  next b => cases b <;> cases h <;> rfl
  next x => split at h <;> cases h
  next => cases h
  next => cases h

theorem ne_of_check {i : Fin 4} (h : check index = .ok (some i))
    (hk : (k : Int) ∉ index.registers) : (k : Nat) ≠ i := by
  intro heq
  apply hk
  simp [Field.registers, toInt?_of_check h, heq]

theorem get_withRegister (hk : (k : Int) ∉ index.registers) :
    (r.withRegister k v).get index = r.get index := by
  unfold get
  cases hc : check index with
  | error err => rfl
  | ok i =>
    cases i with
    | none => rfl
    | some i => exact congrArg Except.ok (Vector.getElem_set_ne k.isLt i.isLt (ne_of_check hc hk))

theorem read_withRegister {i : Int} (hk : (k : Int) ≠ i) :
    (r.withRegister k v).read i = r.read i := by
  unfold read
  cases hs : slot i with
  | error f => rfl
  | ok j =>
    have hne : (k : Nat) ≠ j := by
      have hj := (slot_settles i).of_ok hs
      omega
    exact congrArg Except.ok (Vector.getElem_set_ne k.isLt j.isLt hne)

theorem set_withRegister (hk : (k : Int) ∉ index.registers) (w : Word) :
    (r.withRegister k v).set index w = (r.set index w).map (·.withRegister k v) := by
  unfold set
  cases hc : check index with
  | error err => rfl
  | ok i =>
    change (r.withRegister k v).put i w = (r.put i w).map _
    unfold put
    by_cases hw : w.width = r.width
    · rw [if_pos hw, if_pos (show w.width = (r.withRegister k v).width from hw)]
      cases i with
      | none => rfl
      | some i =>
        have hcomm :
            (r.values.set k v k.isLt).set i w i.isLt = (r.values.set i w i.isLt).set k v k.isLt :=
          Vector.set_comm v w (ne_of_check hc hk)
        exact congrArg (fun values => Except.ok (RegisterFile.mk r.width values)) hcomm
    · rw [if_neg hw, if_neg (show ¬ w.width = (r.withRegister k v).width from hw)]
      rfl

/-- Putting back the word that is there changes nothing. -/
theorem withRegister_self (r : RegisterFile) (k : Fin 4) :
    r.withRegister k (r.values.get k) = r := by
  have hself : r.values.set k (r.values.get k) k.isLt = r.values := Vector.set_getElem_self k.isLt
  unfold withRegister
  rw [hself]

theorem get_values_withRegister (r : RegisterFile) (k : Fin 4) (v : Word) :
    (r.withRegister k v).values.get k = v :=
  Vector.getElem_set_self k.isLt

end RegisterFile

theorem Alu.resolve_withRegister {r : RegisterFile} {a : Field Argument}
    (hk : (k : Int) ∉ a.argumentRegisters) : resolve (r.withRegister k v) a = resolve r a := by
  unfold resolve
  split
  next i =>
    exact RegisterFile.read_withRegister
      (by simpa [Field.argumentRegisters, Argument.registers] using hk)
  next => rfl
  next => rfl

theorem Alu.execute_withRegister {r : RegisterFile} {a b : Field Argument}
    (ha : (k : Int) ∉ a.argumentRegisters) (hb : (k : Int) ∉ b.argumentRegisters)
    (opcode : Field Opcode) (flags : Flags) :
    execute opcode (r.withRegister k v) flags a b = execute opcode r flags a b := by
  unfold execute
  rw [resolve_withRegister ha]
  apply bind_congr
  intro x
  split
  next => rfl
  next => rfl
  next => rfl
  next => rfl
  next =>
    split
    next => rfl
    next => rw [resolve_withRegister hb]

namespace Machine

variable (m : Machine)

@[simp] theorem width_withRegister : (m.withRegister k v).width = m.width := rfl
@[simp] theorem flags_withRegister : (m.withRegister k v).flags = m.flags := rfl
@[simp] theorem memory_withRegister : (m.withRegister k v).memory = m.memory := rfl
@[simp] theorem pc_withRegister : (m.withRegister k v).pc = m.pc := rfl
@[simp] theorem registers_withRegister :
    (m.withRegister k v).registers = m.registers.withRegister k v := rfl

theorem resolveAddress_withRegister {address : Field Argument}
    (hk : (k : Int) ∉ address.argumentRegisters) :
    (m.withRegister k v).resolveAddress address = m.resolveAddress address := by
  unfold resolveAddress
  split
  next => rfl
  next i =>
    have hi : (k : Int) ≠ i := by simpa [Field.argumentRegisters, Argument.registers] using hk
    rw [registers_withRegister, RegisterFile.read_withRegister hi, memory_withRegister]
  next => rfl

end Machine

namespace Effect

variable (m : Machine) {dest src countReg digestReg lengthReg reg : Field Int}
  {a b address outAddress : Field Argument}

theorem ofAlu_withRegister (ha : (k : Int) ∉ a.argumentRegisters)
    (hb : (k : Int) ∉ b.argumentRegisters) (opcode : Field Opcode) :
    ofAlu (m.withRegister k v) opcode dest a b = ofAlu m opcode dest a b := by
  simp only [ofAlu, Machine.registers_withRegister, Machine.flags_withRegister,
    Machine.pc_withRegister, Alu.execute_withRegister ha hb]

theorem ofLoad_withRegister (ha : (k : Int) ∉ address.argumentRegisters) :
    ofLoad (m.withRegister k v) dest address = ofLoad m dest address := by
  simp only [ofLoad, m.resolveAddress_withRegister ha, Machine.memory_withRegister,
    Machine.pc_withRegister]

theorem ofStore_withRegister (hs : (k : Int) ∉ src.registers)
    (ha : (k : Int) ∉ address.argumentRegisters) :
    ofStore (m.withRegister k v) src address = ofStore m src address := by
  simp only [ofStore, Machine.registers_withRegister, RegisterFile.get_withRegister hs,
    m.resolveAddress_withRegister ha, Machine.pc_withRegister]

theorem ofMoveReg_withRegister (hs : (k : Int) ∉ src.registers) :
    ofMoveReg (m.withRegister k v) dest src = ofMoveReg m dest src := by
  simp only [ofMoveReg, Machine.registers_withRegister, RegisterFile.get_withRegister hs,
    Machine.pc_withRegister]

theorem ofContent_withRegister (s : Services) (action : Field ContentAction)
    (hd : (k : Int) ∉ digestReg.registers) (ha : (k : Int) ∉ address.argumentRegisters)
    (hl : (k : Int) ∉ lengthReg.registers) :
    ofContent (m.withRegister k v) s action digestReg address lengthReg =
      ofContent m s action digestReg address lengthReg := by
  have hfold (store : ContentService) :
      enfoldSpan (m.withRegister k v) store digestReg address lengthReg =
      enfoldSpan m store digestReg address lengthReg := by
    simp only [enfoldSpan, Machine.registers_withRegister, RegisterFile.get_withRegister hl,
      m.resolveAddress_withRegister ha, Machine.memory_withRegister]
  have hunfold (store : ContentService) :
      ofUnfold (m.withRegister k v) store digestReg address lengthReg =
      ofUnfold m store digestReg address lengthReg := by
    unfold ofUnfold
    rw [Machine.registers_withRegister, RegisterFile.get_withRegister hd,
      m.resolveAddress_withRegister ha]
    rfl
  unfold ofContent
  simp only [hfold, hunfold, Machine.width_withRegister]
  rfl

theorem resolveTriple_withRegister {subject relation object : Field Argument}
    (hs : (k : Int) ∉ subject.argumentRegisters) (hr : (k : Int) ∉ relation.argumentRegisters)
    (ho : (k : Int) ∉ object.argumentRegisters) :
    resolveTriple (m.withRegister k v) subject relation object =
      resolveTriple m subject relation object := by
  have hoptional {a : Field Argument} (ha : (k : Int) ∉ a.argumentRegisters) :
      resolveOptional (m.withRegister k v) a = resolveOptional m a := by
    unfold resolveOptional
    split
    · rfl
    · rw [Machine.registers_withRegister, Alu.resolve_withRegister ha]
  simp only [resolveTriple, hoptional hs, hoptional hr, hoptional ho]

theorem ofMatches_withRegister (found : List Triple)
    (ha : (k : Int) ∉ outAddress.argumentRegisters) :
    ofMatches (m.withRegister k v) countReg found outAddress =
      ofMatches m countReg found outAddress := by
  have hcount : countWord (m.withRegister k v) found.length = countWord m found.length := rfl
  unfold ofMatches
  rw [hcount]
  apply bind_congr
  intro count
  split
  · rfl
  · simp only [m.resolveAddress_withRegister ha, Machine.memory_withRegister,
      Machine.pc_withRegister]

theorem ofTriple_withRegister (s : Services) (action : Field TripleAction)
    {subject relation object : Field Argument} (hs : (k : Int) ∉ subject.argumentRegisters)
    (hr : (k : Int) ∉ relation.argumentRegisters) (ho : (k : Int) ∉ object.argumentRegisters)
    (ha : (k : Int) ∉ outAddress.argumentRegisters) :
    ofTriple (m.withRegister k v) s action subject relation object countReg outAddress =
      ofTriple m s action subject relation object countReg outAddress := by
  simp only [ofTriple, resolveTriple_withRegister m hs hr ho, ofQueryExact, ofQueryByBasin,
    ofMatches_withRegister m _ ha, Machine.pc_withRegister]

theorem ofApplyRule_withRegister (dynamics : Option Dynamics) (rule : Field String)
    (hr : (k : Int) ∉ reg.registers) :
    ofApplyRule (m.withRegister k v) dynamics rule reg = ofApplyRule m dynamics rule reg := by
  unfold ofApplyRule
  rw [Machine.registers_withRegister, RegisterFile.get_withRegister hr]
  rfl

/-- A register that an instruction does not name has no part in its effect. -/
theorem ofInstruction_withRegister (size : Nat) (s : Services) {op : Instruction}
    (hk : (k : Int) ∉ op.registers) :
    ofInstruction size (m.withRegister k v) s op = ofInstruction size m s op := by
  cases op with
  | alu opcode dest a b =>
    simp only [Instruction.registers, List.mem_append, not_or] at hk
    simp only [ofInstruction, ofAlu_withRegister m hk.1.2 hk.2]
  | load dest address =>
    simp only [Instruction.registers, List.mem_append, not_or] at hk
    simp only [ofInstruction, ofLoad_withRegister m hk.2]
  | store src address =>
    simp only [Instruction.registers, List.mem_append, not_or] at hk
    simp only [ofInstruction, ofStore_withRegister m hk.1 hk.2]
  | loadConst dest v => rfl
  | moveReg dest src =>
    simp only [Instruction.registers, List.mem_append, not_or] at hk
    simp only [ofInstruction, ofMoveReg_withRegister m hk.2]
  | content action digestReg address lengthReg =>
    simp only [Instruction.registers, List.mem_append, not_or] at hk
    exact ofContent_withRegister m s action hk.1.1 hk.1.2 hk.2
  | triple action subject relation object countReg outAddress =>
    simp only [Instruction.registers, List.mem_append, not_or] at hk
    exact ofTriple_withRegister m s action hk.1.1.1.1 hk.1.1.1.2 hk.1.1.2 hk.2
  | applyRule rule reg =>
    exact congrArg (Prod.mk s) (ofApplyRule_withRegister m s.dynamics rule hk)
  | jumpIf condition target => rfl
  | jump target => rfl
  | halt => rfl
  | foreign kind => rfl

/-- Where there is an effect, the register that it writes is the one that the field names. -/
abbrev Targets (dest : Option (Field Int)) (r : Except Error Effect) : Prop :=
  Settles r (fun e => e.register.map Prod.fst = dest) fun _ => True

theorem ofContent_targets (s : Services) (action : Field ContentAction) (digestReg : Field Int)
    (address : Field Argument) (lengthReg : Field Int) :
    Targets (Instruction.destination (.content action digestReg address lengthReg))
      (ofContent m s action digestReg address lengthReg).2 := by
  unfold ofContent
  split
  · trivial
  · split
    · trivial
    · split
      · split
        · trivial
        · exact .bind_value fun _ => .pure rfl
      · exact .bind_value fun _ => .bind_value fun _ => .bind_value fun _ => .bind_value fun _ =>
          .bind_value fun _ => .bind_value fun _ => .bind_value fun _ => .bind_value fun _ =>
            .pure rfl
      · trivial
      · trivial

theorem ofMatches_targets (countReg : Field Int) (found : List Triple)
    (outAddress : Field Argument) :
    Targets (some countReg) (ofMatches m countReg found outAddress) := by
  apply Settles.bind_value
  intro count
  split
  · exact .pure rfl
  · exact .bind_value fun _ => .bind_value fun _ => .pure rfl

theorem ofTriple_targets (s : Services) (action : Field TripleAction)
    (subject relation object : Field Argument) (countReg : Field Int)
    (outAddress : Field Argument) :
    Targets (Instruction.destination (.triple action subject relation object countReg outAddress))
      (ofTriple m s action subject relation object countReg outAddress).2 := by
  unfold ofTriple
  split
  · trivial
  · split
    · trivial
    · split
      · split
        · trivial
        · rfl
      · exact .bind_value fun _ => .bind_value fun found =>
          ofMatches_targets m countReg found outAddress
      · split
        · trivial
        · simp only [ofQueryByBasin]
          split
          · trivial
          · split
            · trivial
            · exact .bind_value fun found => ofMatches_targets m countReg found outAddress
      · trivial
      · trivial

/-- An effect writes the register that the instruction has as its destination, and no other. -/
theorem ofInstruction_targets (size : Nat) (s : Services) (op : Instruction) :
    Targets op.destination (ofInstruction size m s op).2 := by
  cases op with
  | alu opcode dest a b =>
    exact .bind_value fun _ => .bind_value fun _ => .bind_value fun _ => .bind_value fun _ =>
      .pure rfl
  | load dest address =>
    exact .bind_value fun _ => .bind_value fun _ => .bind_value fun _ => .bind_value fun _ =>
      .pure rfl
  | store src address =>
    exact .bind_value fun _ => .bind_value fun _ => .bind_value fun _ => .pure rfl
  | loadConst dest value =>
    apply Settles.bind_value
    intro i
    split
    · split
      · exact .pure rfl
      · trivial
    · trivial
    · trivial
  | moveReg dest src => exact .bind_value fun _ => .bind_value fun _ => .pure rfl
  | content action digestReg address lengthReg =>
    exact ofContent_targets m s action digestReg address lengthReg
  | triple action subject relation object countReg outAddress =>
    exact ofTriple_targets m s action subject relation object countReg outAddress
  | applyRule rule reg =>
    simp only [ofInstruction, ofApplyRule]
    split
    · trivial
    · exact .bind_value fun _ => .bind_value fun _ => .bind_value fun _ => .pure rfl
  | jumpIf condition target =>
    apply Settles.bind_value
    intro _
    split
    · exact .pure rfl
    · trivial
    · trivial
  | jump target => exact .bind_value fun _ => .pure rfl
  | halt => rfl
  | foreign kind =>
    simp only [ofInstruction]
    split <;> trivial

/-- An effect that leaves a register alone is carried out around it. -/
theorem commit_withRegister {e : Effect}
    (h : ∀ index w, e.register = some (index, w) → (k : Int) ∉ index.registers) :
    e.commit (m.withRegister k v) = ((e.commit m).1.withRegister k v, (e.commit m).2) := by
  obtain ⟨registers, flags, memory, pc, tick⟩ := m
  have hwrite : writeRegister (registers.withRegister k v) e.register =
      (writeRegister registers e.register).map (·.withRegister k v) := by
    cases hreg : e.register with
    | none => rfl
    | some target => exact RegisterFile.set_withRegister (h target.1 target.2 hreg) target.2
  simp only [commit, Machine.withRegister, hwrite]
  generalize memory.writeSpan e.cells.1 e.cells.2 = out
  obtain ⟨memory', failed⟩ := out
  cases failed with
  | some err => rfl
  | none =>
    dsimp only
    split
    · rfl
    · cases writeRegister registers e.register <;> rfl

end Effect

namespace Engine

theorem execute_withRegister {size : Nat} {op : Instruction} (hk : (k : Int) ∉ op.registers)
    (e : Engine) :
    (e.withRegister k v).execute size op =
      ((e.execute size op).1.withRegister k v, (e.execute size op).2) := by
  obtain ⟨machine, services, steps⟩ := e
  have htargets := Effect.ofInstruction_targets machine size services op
  simp only [execute, Engine.withRegister,
    Effect.ofInstruction_withRegister machine size services hk]
  generalize Effect.ofInstruction size machine services op = out at htargets ⊢
  obtain ⟨services', result⟩ := out
  cases result with
  | error err => rfl
  | ok effect =>
    have hspared : ∀ index w, effect.register = some (index, w) → (k : Int) ∉ index.registers := by
      intro index w hreg hmem
      have hdest : op.destination = some index := by
        rw [← show effect.register.map Prod.fst = op.destination from htargets, hreg]
        rfl
      exact hk (Instruction.registers_of_destination hdest hmem)
    dsimp only
    rw [Effect.commit_withRegister machine hspared]
    generalize effect.commit machine = done
    obtain ⟨machine', failed⟩ := done
    cases failed <;> rfl

variable {p : Program}

theorem step_withRegister (hk : ∀ op ∈ p.ops, (k : Int) ∉ op.registers) (e : Engine) :
    (e.withRegister k v).step p = ((e.step p).1.withRegister k v, (e.step p).2) := by
  have hpc : (e.withRegister k v).machine.pc = e.machine.pc := rfl
  unfold step
  rw [hpc]
  cases hop : fetch p e.machine.pc with
  | error err => rfl
  | ok op => exact execute_withRegister (hk op ((fetch_settles p _).of_ok hop)) e.beginStep

def besideRegister (k : Fin 4) (v : Word) : Correspondence where
  engines e e' := e' = e.withRegister k v
  shown op op' := op' = op
  faults _ f f' := f' = f
  excused _ := False

theorem besideRegister_lockstep (v : Word) (hk : ∀ op ∈ p.ops, (k : Int) ∉ op.registers) :
    (besideRegister k v).Lockstep p p where
  finished := by
    rintro e _ rfl
    exact Iff.rfl
  exhausted := by
    rintro e _ rfl limit
    rfl
  step := by
    rintro e _ rfl
    right
    rw [step_withRegister hk e]
    exact ⟨rfl, .of_eq rfl⟩

end Engine

def withRegisterSeen (k : Fin 4) (v : Word) (seen : List (Machine × Instruction)) :
    List (Machine × Instruction) :=
  seen.map fun x => (x.1.withRegister k v, x.2)

theorem Engine.runFor_withRegister {p : Program} (hk : ∀ op ∈ p.ops, (k : Int) ∉ op.registers)
    (v : Word) (limit left : Nat) (e : Engine) :
    runFor p limit record left (e.withRegister k v) [] =
      ((runFor p limit record left e []).1.withRegister k v,
        withRegisterSeen k v (runFor p limit record left e []).2.1,
        (runFor p limit record left e []).2.2) := by
  have hobserve {acc acc' : List (Machine × Instruction)} {e e' : Engine} {op op' : Instruction}
      (hv : acc' = withRegisterSeen k v acc) (he : e' = e.withRegister k v) (hop : op' = op) :
      record acc' e'.machine op' = withRegisterSeen k v (record acc e.machine op) := by
    subst hv he hop
    simp [record, withRegisterSeen, Engine.withRegister]
  have hnil : ([] : List (Machine × Instruction)) = withRegisterSeen k v [] := rfl
  rcases (besideRegister_lockstep v hk).runFor (fun acc acc' => acc' = withRegisterSeen k v acc)
      hobserve limit left (e := e) rfl hnil with ⟨f, -, hx⟩ | ⟨he, hv, ho⟩
  · exact hx.elim
  · exact Prod.ext he (Prod.ext hv ho.eq)

/-- A register that a program names nowhere neither changes nor matters: from states that differ in
this register only, the runs end in the same way after the same steps, with the same services and
with states that differ in this register only, and it still holds the word that it began with. -/
theorem runProgram_unnamed_register {p : Program} (hk : ∀ op ∈ p.ops, (k : Int) ∉ op.registers)
    (m : Machine) (v : Word) (s : Services) {limit : Int} (hl : 0 < limit) :
    ∃ e seen o, runProgram p m s limit record [] = .ok (e, seen, o) ∧
      runProgram p (m.withRegister k v) s limit record [] =
        .ok (e.withRegister k v, withRegisterSeen k v seen, o) ∧
      e.machine.registers.values.get k = m.registers.values.get k := by
  have hrun := Engine.runFor_withRegister hk v limit.toNat limit.toNat ⟨m, s, 0⟩
  refine ⟨_, _, _, runProgram_eq hl, ?_, ?_⟩
  · have hstart : (⟨m.withRegister k v, s, 0⟩ : Engine) = Engine.withRegister ⟨m, s, 0⟩ k v := rfl
    rw [runProgram_eq hl, hstart, hrun]
    rfl
  · -- The word that is there may as well be put there first; then it is still there in the end.
    have hsame :=
      Engine.runFor_withRegister hk (m.registers.values.get k) limit.toNat limit.toNat ⟨m, s, 0⟩
    have hself : Engine.withRegister ⟨m, s, 0⟩ k (m.registers.values.get k) = ⟨m, s, 0⟩ := by
      simp only [Engine.withRegister, Machine.withRegister, RegisterFile.withRegister_self]
    rw [hself] at hsame
    have hfinal := congrArg (fun out => out.1.machine.registers.values.get k) hsame
    rw [hfinal]
    exact RegisterFile.get_values_withRegister _ k _

/-- A loop that uses three registers as operands, as addresses, for a count and for a rule, and a
fault after it. -/
theorem runProgram_unnamed_register_loop :
    let word (v : Nat) (h : v < 16) : Word := ⟨4, v, by decide, h⟩
    let zero := word 0 (by decide)
    let m : Machine :=
      ⟨⟨4, Vector.replicate 4 zero⟩, {}, ⟨4, Array.replicate 8 zero⟩, .known 0, 0⟩
    let services : Services :=
      { triples := some (.store (.empty none)),
        dynamics := some ⟨.builtin, "identity", .identity, ∅⟩ }
    let p : Program := ⟨"main", #[.loadConst (.known 0) (.known (word 2 (by decide))),
      .triple (.known .insert) (.known (.reg 0)) (.known (.reg 1)) (.known (.reg 0)) .null .null,
      .triple (.known .queryExact) (.known (.reg 0)) .null .null (.known 1) (.known (.indirect 0)),
      .applyRule (.known "complement") (.known 1), .store (.known 1) (.known (.indirect 0)),
      .alu (.known .sub) (.known 0) (.known (.reg 0)) (.known (.imm (word 1 (by decide)))),
      .jumpIf (.known .notZero) (.known 1), .moveReg (.known 2) (.known 7)]⟩
    let other := word 9 (by decide)
    (∀ op ∈ p.ops, ((3 : Fin 4) : Int) ∉ op.registers) ∧ ∃ e seen,
      runProgram p m services 20 record [] = .ok (e, seen, .faulted (.registerIndex (.known 7))) ∧
        runProgram p (m.withRegister 3 other) services 20 record [] =
          .ok (e.withRegister 3 other, withRegisterSeen 3 other seen,
            .faulted (.registerIndex (.known 7))) ∧
        e.machine.registers.values.get 3 = zero := by
  intro word zero m services p other
  have hk : ∀ op ∈ p.ops, ((3 : Fin 4) : Int) ∉ op.registers := by decide +kernel
  have houtcome : (runProgram p m services 20 record []).toOption.map (·.2.2) =
      some (.faulted (.registerIndex (.known 7))) := by decide +kernel
  obtain ⟨e, seen, o, hrun, hrun', hkept⟩ :=
    runProgram_unnamed_register hk m other services (show (0 : Int) < 20 by decide)
  rw [hrun] at houtcome
  obtain rfl : o = .faulted (.registerIndex (.known 7)) := Option.some.inj houtcome
  exact ⟨hk, e, seen, hrun, hrun', hkept⟩

end WordMachine
