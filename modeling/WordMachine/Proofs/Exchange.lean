import WordMachine.Proofs.Lockstep
import WordMachine.Proofs.Resume
import WordMachine.Proofs.Safety

/-!
Two ways to write an instruction. A constant goes to a register by an instruction of its own or by
LOADK, and a register to another by an instruction of its own or by MOV. The two check their fields
in different orders, and so may word a fault differently. In all else they are the same, in every
place of a program, but for a move between two registers that are not there: only one of the ways
may name the index that has too many digits to be told.
-/
namespace WordMachine

namespace Instruction

/-- The instruction with LOADK for a constant and MOV for a move. -/
def aluForm : Instruction → Instruction
  | .loadConst (.known d) (.known v) => .alu (.known .loadk) (.known d) (.known (.imm v)) .null
  | .moveReg (.known d) (.known s) => .alu (.known .mov) (.known d) (.known (.reg s)) .null
  | op => op

inductive Rewritten : Instruction → Instruction → Prop
  | constant {d : Int} {v : Word} : Rewritten (.loadConst (.known d) (.known v))
    (.alu (.known .loadk) (.known d) (.known (.imm v)) .null)
  | move {d s : Int} : Rewritten (.moveReg (.known d) (.known s))
    (.alu (.known .mov) (.known d) (.known (.reg s)) .null)

theorem Rewritten.unique {op op' written : Instruction} (h : Rewritten op written)
    (h' : Rewritten op' written) : op' = op := by
  cases h with
  | constant =>
    cases h'
    rfl
  | move =>
    cases h'
    rfl

theorem aluForm_cases (op : Instruction) : op.aluForm = op ∨ Rewritten op op.aluForm := by
  unfold aluForm
  split
  next => exact Or.inr .constant
  next => exact Or.inr .move
  next => exact Or.inl rfl

/-- Instructions with the same form by the unit are the same, or two ways to write one. -/
theorem eq_or_rewritten {op op' : Instruction} (h : op'.aluForm = op.aluForm) :
    op' = op ∨ Rewritten op op' ∨ Rewritten op' op := by
  rcases aluForm_cases op with ho | ho
  · rcases aluForm_cases op' with ho' | ho'
    · exact Or.inl (ho'.symm.trans (h.trans ho))
    · rw [h, ho] at ho'
      exact Or.inr (Or.inr ho')
  · rcases aluForm_cases op' with ho' | ho'
    · rw [← h, ho'] at ho
      exact Or.inr (Or.inl ho)
    · rw [h] at ho'
      exact Or.inl (ho.unique ho')

end Instruction

namespace Program

/-- The program in which the unit does all. Programs with the same such form differ only in which
way each constant and each move is written. -/
def aluForm (p : Program) : Program := { p with ops := p.ops.map Instruction.aluForm }

@[simp] theorem size_aluForm (p : Program) : p.aluForm.size = p.size := Array.size_map

/-- At the counter stands a move that the second program writes by MOV. Neither of its registers is
there, and one of the indices can be told while the other has too many digits. -/
def DividesAt (p p' : Program) (pc : Field Int) (d s : Int) : Prop :=
  Engine.fetch p pc = .ok (.moveReg (.known d) (.known s)) ∧
    Engine.fetch p' pc = .ok (.alu (.known .mov) (.known d) (.known (.reg s)) .null) ∧
    ¬ (0 ≤ d ∧ d < 4) ∧ ¬ (0 ≤ s ∧ s < 4) ∧ Word.isShort d ≠ Word.isShort s

end Program

/-- Faults of the same kind, of which either both can be told or none; or those by which the two
ways to write a move end, where only one of its indices can be told. -/
inductive Fault.Reworded (p p' : Program) (pc : Field Int) : Fault → Fault → Prop
  | alike {f f' : Fault} (hkind : f'.kind = f.kind) (htold : f'.isTellable = f.isTellable) :
    Reworded p p' pc f f'
  | divided {d s : Int} (h : p.DividesAt p' pc d s) :
    Reworded p p' pc (.registerIndex (.known s)) (.registerIndex (.known d))
  | dividedBack {d s : Int} (h : p'.DividesAt p pc d s) :
    Reworded p p' pc (.registerIndex (.known d)) (.registerIndex (.known s))

variable {p p' : Program}

theorem Fault.Reworded.refl (pc : Field Int) (f : Fault) : f.Reworded p p' pc f := .alike rfl rfl

theorem Fault.Reworded.symm {pc : Field Int} {f f' : Fault} (h : f.Reworded p p' pc f') :
    f'.Reworded p' p pc f := by
  cases h with
  | alike hkind htold => exact .alike hkind.symm htold.symm
  | divided h => exact .dividedBack h
  | dividedBack h => exact .divided h

theorem RegisterFile.not_mem_of_slot {i : Int} {f : Fault} (h : slot i = .error f) :
    ¬ (0 ≤ i ∧ i < 4) := by
  intro hi
  unfold slot at h
  rw [dif_pos hi] at h
  cases h

namespace Effect

/-- Effects that go on at the same place and carry out the same, or faults worded otherwise. -/
inductive Restated (p p' : Program) (m : Machine) :
    Except Error Effect → Except Error Effect → Prop
  | done {e e' : Effect} (hnext : e'.next = e.next) (hcommit : e'.commit m = e.commit m) :
    Restated p p' m (.ok e) (.ok e')
  | fault {f f' : Fault} (h : f.Reworded p p' m.pc f') :
    Restated p p' m (.error (.fault f)) (.error (.fault f'))
  | error {err : Error} : Restated p p' m (.error err) (.error err)

theorem Restated.refl (m : Machine) (r : Except Error Effect) : Restated p p' m r r := by
  cases r with
  | ok e => exact .done rfl rfl
  | error err => exact .error

theorem Restated.symm {m : Machine} {r r' : Except Error Effect} (h : Restated p p' m r r') :
    Restated p' p m r' r := by
  cases h with
  | done hnext hcommit => exact .done hnext.symm hcommit.symm
  | fault h => exact .fault h.symm
  | error => exact .error

/-- LOADK and MOV give the operand as it is, and the flags as they are. -/
theorem ofAlu_copy {opcode : Opcode} (h : opcode = .loadk ∨ opcode = .mov) (m : Machine)
    (dest : Field Int) (a : Argument) :
    ofAlu m (.known opcode) dest (.known a) .null = (do
      let _ ← RegisterFile.check dest
      let v ← Alu.resolve m.registers (.known a)
      return { next := some m.pc.succ, register := some (dest, v), flags := some m.flags }) := by
  unfold ofAlu Alu.execute
  cases RegisterFile.check dest with
  | error err => rfl
  | ok i => cases Alu.resolve m.registers (.known a) <;> rcases h with rfl | rfl <;> rfl

theorem ofLoadConst_restated (m : Machine) (d : Int) (v : Word) :
    Restated p p' m (ofLoadConst m (.known d) (.known v))
      (ofAlu m (.known .loadk) (.known d) (.known (.imm v)) .null) := by
  rw [ofAlu_copy (Or.inl rfl)]
  unfold ofLoadConst
  cases RegisterFile.check (.known d) with
  | error err => exact .error
  | ok i =>
    change Restated p p' m (if v.width = m.width then _ else _) _
    by_cases hw : v.width = m.width
    · have hv : Alu.resolve m.registers (.known (.imm v)) = .ok v := if_pos hw
      rw [if_pos hw, hv]
      exact .done rfl rfl
    · have hv : Alu.resolve m.registers (.known (.imm v)) = .error (.immediateWidth v m.width) :=
        if_neg hw
      rw [if_neg hw, hv]
      exact .fault (.alike rfl rfl)

/-- The move reads its source first, and MOV looks at its destination first. -/
theorem ofMoveReg_restated {m : Machine} {d s : Int}
    (hop : Engine.fetch p m.pc = .ok (.moveReg (.known d) (.known s)))
    (hop' : Engine.fetch p' m.pc = .ok (.alu (.known .mov) (.known d) (.known (.reg s)) .null)) :
    Restated p p' m (ofMoveReg m (.known d) (.known s))
      (ofAlu m (.known .mov) (.known d) (.known (.reg s)) .null) := by
  rw [ofAlu_copy (Or.inr rfl)]
  unfold ofMoveReg RegisterFile.get RegisterFile.check Alu.resolve RegisterFile.read
  dsimp only
  cases hs : RegisterFile.slot s with
  | ok j =>
    cases RegisterFile.slot d with
    | ok i => exact .done rfl rfl
    | error f => exact .error
  | error f =>
    cases hd : RegisterFile.slot d with
    | ok i => exact .error
    | error f' =>
      obtain rfl : f = .registerIndex (.known s) := (RegisterFile.slot_settles s).of_error hs
      obtain rfl : f' = .registerIndex (.known d) := (RegisterFile.slot_settles d).of_error hd
      refine Restated.fault ?_
      by_cases h : Word.isShort d = Word.isShort s
      · refine .alike rfl ?_
        simp [Fault.isTellable, Fault.numbers, Field.numbers, h]
      · exact .divided ⟨hop, hop', RegisterFile.not_mem_of_slot hd,
          RegisterFile.not_mem_of_slot hs, h⟩

/-- The case of instructions of which the second is by the unit. -/
theorem ofInstruction_rewritten (size : Nat) {m : Machine} (s : Services) {op op' : Instruction}
    (hop : Engine.fetch p m.pc = .ok op) (hop' : Engine.fetch p' m.pc = .ok op')
    (h : op.Rewritten op') :
    ∃ r r', ofInstruction size m s op = (s, r) ∧ ofInstruction size m s op' = (s, r') ∧
      Restated p p' m r r' := by
  cases h with
  | constant => exact ⟨_, _, rfl, rfl, ofLoadConst_restated m _ _⟩
  | move => exact ⟨_, _, rfl, rfl, ofMoveReg_restated hop hop'⟩

theorem ofInstruction_restated (size : Nat) {m : Machine} (s : Services) {op op' : Instruction}
    (hop : Engine.fetch p m.pc = .ok op) (hop' : Engine.fetch p' m.pc = .ok op')
    (h : op'.aluForm = op.aluForm) :
    ∃ s' r r', ofInstruction size m s op = (s', r) ∧ ofInstruction size m s op' = (s', r') ∧
      Restated p p' m r r' := by
  rcases Instruction.eq_or_rewritten h with rfl | h | h
  · exact ⟨_, _, _, rfl, rfl, .refl m _⟩
  · exact ⟨s, ofInstruction_rewritten size s hop hop' h⟩
  · obtain ⟨r', r, hr', hr, hres⟩ := ofInstruction_rewritten size s hop' hop h
    exact ⟨s, r, r', hr, hr', hres.symm⟩

end Effect

theorem Signal.matches_ofError (pc : Field Int) (err : Error) :
    (Signal.ofError err).Matches (fun _ _ => True) (Fault.Reworded p p' pc)
      (Signal.ofError err) := by
  cases err with
  | fault f => exact .fault (.refl pc f)
  | _ => exact .crash

namespace Engine

theorem execute_restated (size : Nat) {op op' : Instruction} {e : Engine}
    (hop : fetch p e.machine.pc = .ok op) (hop' : fetch p' e.machine.pc = .ok op')
    (h : op'.aluForm = op.aluForm) :
    (e.execute size op').1 = (e.execute size op).1 ∧
      (e.execute size op).2.Matches (fun _ _ => True)
        (Fault.Reworded p p' (e.execute size op).1.machine.pc) (e.execute size op').2 := by
  obtain ⟨machine, services, steps⟩ := e
  obtain ⟨services', r, r', hr, hr', hres⟩ :=
    Effect.ofInstruction_restated size services hop hop' h
  unfold execute
  dsimp only
  rw [hr, hr']
  cases hres with
  | fault hf => exact ⟨rfl, .fault hf⟩
  | error => exact ⟨rfl, Signal.matches_ofError _ _⟩
  | done hnext hcommit =>
    dsimp only
    rw [hcommit, hnext]
    generalize Effect.commit _ machine = out
    obtain ⟨machine', failed⟩ := out
    cases failed with
    | some err => exact ⟨rfl, Signal.matches_ofError _ err⟩
    | none =>
      refine ⟨rfl, ?_⟩
      dsimp only
      split
      · exact .next trivial
      · exact .halt

theorem fetch_aluForm (p : Program) (pc : Field Int) :
    fetch p.aluForm pc = (fetch p pc).map Instruction.aluForm := by
  have hat : pc.toInt?.bind (instruction? p.aluForm) =
      (pc.toInt?.bind (instruction? p)).map Instruction.aluForm := by
    cases pc.toInt? with
    | none => rfl
    | some i =>
      change instruction? p.aluForm i = (instruction? p i).map Instruction.aluForm
      unfold instruction?
      split
      · rfl
      · exact Array.getElem?_map
  unfold fetch
  rw [p.size_aluForm, hat]
  generalize pc.toInt?.bind (instruction? p) = found
  split
  next => cases found <;> rfl
  next => cases found <;> rfl
  next => rfl
  next => rfl

/-- The counter points at two instructions with one form by the unit, or fails in the same way. -/
theorem fetch_of_aluForm (h : p'.aluForm = p.aluForm) (pc : Field Int) :
    (∃ err, fetch p pc = .error err ∧ fetch p' pc = .error err) ∨
      ∃ op op', fetch p pc = .ok op ∧ fetch p' pc = .ok op' ∧ op'.aluForm = op.aluForm := by
  have hmap : (fetch p' pc).map Instruction.aluForm = (fetch p pc).map Instruction.aluForm := by
    rw [← fetch_aluForm, ← fetch_aluForm, h]
  cases hop : fetch p pc with
  | error err =>
    cases hop' : fetch p' pc with
    | error err' =>
      rw [hop, hop'] at hmap
      cases hmap
      exact Or.inl ⟨err, rfl, rfl⟩
    | ok op' =>
      rw [hop, hop'] at hmap
      cases hmap
  | ok op =>
    cases hop' : fetch p' pc with
    | error err' =>
      rw [hop, hop'] at hmap
      cases hmap
    | ok op' =>
      rw [hop, hop'] at hmap
      exact Or.inr ⟨op, op', rfl, rfl, Except.ok.inj hmap⟩

variable (h : p'.aluForm = p.aluForm)
include h

theorem size_of_aluForm : p'.size = p.size := by
  rw [← p'.size_aluForm, h, p.size_aluForm]

theorem step_restated (e : Engine) :
    (e.step p').1 = (e.step p).1 ∧
      (e.step p).2.Matches (fun _ _ => True) (Fault.Reworded p p' (e.step p).1.machine.pc)
        (e.step p').2 := by
  unfold step
  rw [size_of_aluForm h]
  rcases fetch_of_aluForm h e.machine.pc with ⟨err, hop, hop'⟩ | ⟨op, op', hop, hop', hform⟩
  · rw [hop, hop']
    exact ⟨rfl, Signal.matches_ofError _ err⟩
  · have hbegin := execute_restated (e := e.beginStep) p.size hop hop' hform
    rw [hop, hop']
    exact hbegin

omit h in
/-- A run of the one program goes the same way as one of the other, up to the wording of a
fault. -/
def exchanged (p p' : Program) : Correspondence where
  engines e e' := e' = e
  shown _ _ := True
  faults e := Fault.Reworded p p' e.machine.pc
  excused _ := False

theorem exchanged_lockstep : (exchanged p p').Lockstep p p' where
  finished := by
    rintro _ e rfl
    rw [size_of_aluForm h]
  exhausted := by
    rintro _ e rfl limit
    exact .refl _ _
  step := by
    rintro _ e rfl
    exact Or.inr (step_restated h e)

theorem runFor_restated (limit left : Nat) (e : Engine) :
    (runFor p' limit record left e []).1 = (runFor p limit record left e []).1 ∧
      (runFor p' limit record left e []).2.1.map Prod.fst =
        (runFor p limit record left e []).2.1.map Prod.fst ∧
      (runFor p limit record left e []).2.2.Matches
        (Fault.Reworded p p' (runFor p limit record left e []).1.machine.pc)
        (runFor p' limit record left e []).2.2 := by
  have hobserve {acc acc' : List (Machine × Instruction)} {e e' : Engine} {op op' : Instruction}
      (hv : acc'.map Prod.fst = acc.map Prod.fst) (he : e' = e) (_ : True) :
      (record acc' e'.machine op').map Prod.fst = (record acc e.machine op).map Prod.fst := by
    simp [record, hv, he]
  have hrun := (exchanged_lockstep h).runFor
    (fun acc acc' : List (Machine × Instruction) => acc'.map Prod.fst = acc.map Prod.fst) hobserve
    limit left (e := e) rfl (rfl : List.map Prod.fst [] = List.map Prod.fst [])
  exact hrun.resolve_left fun ⟨_, _, hx⟩ => hx

end Engine

def Ending.ofIndex (i : Int) : Ending :=
  if Word.isShort i then .faulted (.registerIndex (.known i)) else .crashed (.word .digits)

theorem reportable_registerIndex {e : Engine} {op : Instruction}
    (h : Engine.fetch p e.machine.pc = .ok op) (i : Int) :
    reportable e (.faulted (.registerIndex (.known i))) = .ofIndex i := by
  have htold : (Fault.registerIndex (.known i)).isTellable = Word.isShort i := by
    simp [Fault.isTellable, Fault.numbers, Field.numbers]
  -- A counter that points at an instruction is a whole number.
  have hcounter : ∃ n, Checked.counter e.machine.pc = .ok n := by
    unfold Engine.fetch at h
    split at h
    next n hpc =>
      rw [hpc]
      exact ⟨n, rfl⟩
    next b hpc =>
      rw [hpc]
      exact ⟨b.toNat, rfl⟩
    next => cases h
    next => cases h
  obtain ⟨n, hn⟩ := hcounter
  unfold reportable Ending.ofIndex
  dsimp only
  rw [htold, hn]
  rfl

/-- One of the programs stops at a move with the one index, and the other at MOV with the other. -/
def Program.Divides (p p' : Program) (pc : Field Int) (o o' : Ending) : Prop :=
  ∃ d s, p.DividesAt p' pc d s ∧ o = .ofIndex s ∧ o' = .ofIndex d ∨
    p'.DividesAt p pc d s ∧ o = .ofIndex d ∧ o' = .ofIndex s

theorem reportable_reworded {e : Engine} {o o' : Ending}
    (h : o.Matches (Fault.Reworded p p' e.machine.pc) o') :
    (reportable e o).Matches (fun f f' => f'.kind = f.kind) (reportable e o') ∨
      p.Divides p' e.machine.pc (reportable e o) (reportable e o') := by
  cases h with
  | halted => exact Or.inl .halted
  | crashed => exact Or.inl .crashed
  | faulted hf =>
    cases hf with
    | divided h =>
      rw [reportable_registerIndex h.1, reportable_registerIndex h.1]
      exact Or.inr ⟨_, _, Or.inl ⟨h, rfl, rfl⟩⟩
    | dividedBack h =>
      rw [reportable_registerIndex h.1, reportable_registerIndex h.1]
      exact Or.inr ⟨_, _, Or.inr ⟨h, rfl, rfl⟩⟩
    | alike hkind htold =>
      left
      unfold reportable
      dsimp only
      rw [htold]
      split
      · split
        · exact .faulted hkind
        · exact .crashed
      · exact .crashed

theorem Ending.not_matches_ofIndex {faults : Fault → Fault → Prop} {i j : Int}
    (h : Word.isShort i ≠ Word.isShort j) :
    ¬ (ofIndex i).Matches faults (ofIndex j) := by
  unfold ofIndex
  intro hm
  cases hi : Word.isShort i with
  | true =>
    have hj : Word.isShort j = false := by simpa [hi] using h.symm
    rw [hi, hj] at hm
    cases hm
  | false =>
    have hj : Word.isShort j = true := by simpa [hi] using h.symm
    rw [hi, hj] at hm
    cases hm

theorem Program.Divides.not_matches {pc : Field Int} {o o' : Ending} (h : p.Divides p' pc o o')
    (faults : Fault → Fault → Prop) : ¬ o.Matches faults o' := by
  obtain ⟨d, s, ⟨⟨-, -, -, -, hne⟩, ho, ho'⟩ | ⟨⟨-, -, -, -, hne⟩, ho, ho'⟩⟩ := h
  · rw [ho, ho']
    exact Ending.not_matches_ofIndex (Ne.symm hne)
  · rw [ho, ho']
    exact Ending.not_matches_ofIndex hne

/-- Two programs that differ only in how constants and moves are written do the same from any
state: they end with the same state, services and number of steps, and show the same states on the
way. They also end in the same way, with a fault of the same kind if there is one, but for one case
and exactly then: they stop at a move which they write differently, neither register of which is
there, and the one index has too many digits to be told. The program that names this one is left
without an outcome. -/
theorem runProgram_interchange (h : p'.aluForm = p.aluForm) (m : Machine) (s : Services)
    {limit : Int} (hl : 0 < limit) :
    ∃ e seen seen' o o', runProgram p m s limit record [] = .ok (e, seen, o) ∧
      runProgram p' m s limit record [] = .ok (e, seen', o') ∧
      seen'.map Prod.fst = seen.map Prod.fst ∧
      (o.Matches (fun f f' => f'.kind = f.kind) o' ↔ ¬ p.Divides p' e.machine.pc o o') := by
  obtain ⟨he, hseen, ho⟩ := Engine.runFor_restated h limit.toNat limit.toNat ⟨m, s, 0⟩
  have hrun := @runProgram_eq _ p' m s limit record [] hl
  rw [he] at hrun
  exact ⟨_, _, _, _, _, runProgram_eq hl, hrun, hseen,
    fun hm hd => hd.not_matches _ hm, (reportable_reworded ho).resolve_right⟩

/-- One constant and one move written in both ways, with a loop between them; the last move names
two registers that are not there. -/
theorem runProgram_interchange_loop :
    let word (v : Nat) (h : v < 16) : Word := ⟨4, v, by decide, h⟩
    let z := word 0 (by decide)
    let m : Machine := ⟨⟨4, Vector.replicate 4 z⟩, {}, ⟨4, #[z]⟩, .known 0, 0⟩
    let two := word 2 (by decide)
    let around (first last : Instruction) : Program := ⟨"main", #[first,
      .moveReg (.known 1) (.known 0),
      .alu (.known .sub) (.known 0) (.known (.reg 0)) (.known (.imm (word 1 (by decide)))),
      .jumpIf (.known .notZero) (.known 1), last]⟩
    let p := around (.loadConst (.known 0) (.known two)) (.moveReg (.known 7) (.known 9))
    let p' := around (.alu (.known .loadk) (.known 0) (.known (.imm two)) .null)
      (.alu (.known .mov) (.known 7) (.known (.reg 9)) .null)
    p'.aluForm = p.aluForm ∧ ∃ e seen seen',
      runProgram p m {} 20 record [] = .ok (e, seen, .faulted (.registerIndex (.known 9))) ∧
        runProgram p' m {} 20 record [] = .ok (e, seen', .faulted (.registerIndex (.known 7))) ∧
        seen'.map Prod.fst = seen.map Prod.fst := by
  intro word z m two around p p'
  have h : p'.aluForm = p.aluForm := by decide +kernel
  have ho : (runProgram p m {} 20 record []).toOption.map (·.2.2) =
      some (.faulted (.registerIndex (.known 9))) := by decide +kernel
  have ho' : (runProgram p' m {} 20 record []).toOption.map (·.2.2) =
      some (.faulted (.registerIndex (.known 7))) := by decide +kernel
  obtain ⟨e, seen, seen', o, o', hrun, hrun', hseen, -⟩ :=
    runProgram_interchange h m {} (show (0 : Int) < 20 by decide)
  rw [hrun] at ho
  rw [hrun'] at ho'
  obtain rfl : o = .faulted (.registerIndex (.known 9)) := Option.some.inj ho
  obtain rfl : o' = .faulted (.registerIndex (.known 7)) := Option.some.inj ho'
  exact ⟨h, e, seen, seen', hrun, hrun', hseen⟩

/-- A move to a register whose index has too many digits, from one that is not there either. By the
instruction of its own the program ends by a fault; by MOV it ends by neither a halt nor a
fault. -/
theorem long_move_divides :
    let z : Word := ⟨4, 0, by decide, Word.card_pos 4⟩
    let m : Machine := ⟨⟨4, Vector.replicate 4 z⟩, {}, ⟨4, #[z]⟩, .known 0, 0⟩
    let long : Int := Nat.pow 10 4300
    let p : Program := ⟨"main", #[.moveReg (.known long) (.known 7)]⟩
    let p' : Program := ⟨"main", #[.alu (.known .mov) (.known long) (.known (.reg 7)) .null]⟩
    p.Valid ∧ p'.Valid ∧ p'.aluForm = p.aluForm ∧ m.WellFormed ∧
      (runProgram p m {} 100000 record []).toOption.map (·.2.2) =
        some (.faulted (.registerIndex (.known 7))) ∧
      (runProgram p' m {} 100000 record []).toOption.map (·.2.2) =
        some (.crashed (.word .digits)) := by
  intro z m long p p'
  have hp : p.Valid := by
    intro i hi
    obtain rfl : i = .moveReg (.known long) (.known 7) := by simpa [p] using hi
    exact ⟨rfl, ⟨_, rfl⟩, ⟨_, rfl⟩⟩
  have hp' : p'.Valid := by
    intro i hi
    obtain rfl : i = .alu (.known .mov) (.known long) (.known (.reg 7)) .null := by
      simpa [p'] using hi
    exact ⟨rfl, ⟨_, rfl⟩, ⟨_, rfl⟩, ⟨_, rfl, rfl⟩, Or.inl rfl⟩
  have hm : m.WellFormed := by
    refine ⟨fun i => ?_, fun v hv => ?_, rfl, 0, rfl⟩
    · simp [m, z]
    · obtain rfl : v = z := by simpa [m] using hv
      rfl
  refine ⟨hp, hp', ?_, hm, ?_, ?_⟩
  · simp [p, p', Program.aluForm, Instruction.aluForm]
  · decide +kernel
  · decide +kernel

end WordMachine
