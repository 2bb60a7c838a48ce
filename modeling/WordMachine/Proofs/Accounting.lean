import WordMachine.Proofs.Resume
import WordMachine.Proofs.Safety

/-!
The books of a run: ticks, steps and what is shown to an observer, for each way that a run can end.
A step that completes is shown, one that halts or faults is only counted, and the counter stays in
the program or comes to stand at its end.
-/
namespace WordMachine

namespace Effect

/-- Where there is an effect, the program goes on with the instruction that follows. -/
def GoesOn (m : Machine) (r : Except Error Effect) : Prop :=
  ∀ e, r = .ok e → e.next = some m.pc.succ

section GoesOn
variable {m : Machine}

theorem GoesOn.ok {e : Effect} (h : e.next = some m.pc.succ) : GoesOn m (.ok e) := by
  intro e' he
  cases he
  exact h

theorem GoesOn.error {err : Error} : GoesOn m (.error err) := by
  intro e he
  cases he

theorem GoesOn.bind {α : Type} {r : Except Error α} {f : α → Except Error Effect}
    (h : ∀ a, GoesOn m (f a)) : GoesOn m (r >>= f) := by
  cases r with
  | ok a => exact h a
  | error err => exact .error

theorem ofLoadConst_goesOn (dest : Field Int) (value : Field Word) :
    GoesOn m (ofLoadConst m dest value) := by
  refine .bind fun _ => ?_
  cases value with
  | known v =>
    dsimp only
    split
    · exact .ok rfl
    · exact .error
  | other v => exact .error
  | absent kind name => exact .error

theorem ofContent_goesOn (s : Services) (action : Field ContentAction)
    (digestReg lengthReg : Field Int) (address : Field Argument) :
    GoesOn m (ofContent m s action digestReg address lengthReg).2 := by
  unfold ofContent
  split
  next => exact .error
  next store _ =>
    split
    next => exact .error
    next =>
      split
      next =>
        split
        next => exact .error
        next => exact .bind fun _ => .ok rfl
      next =>
        exact .bind fun _ => .bind fun _ => .bind fun _ => .bind fun _ => .bind fun _ =>
          .bind fun _ => .bind fun _ => .bind fun _ => .ok rfl
      next => exact .error
      next => exact .error

theorem ofMatches_goesOn (countReg : Field Int) (found : List Triple)
    (outAddress : Field Argument) : GoesOn m (ofMatches m countReg found outAddress) := by
  refine .bind fun _ => ?_
  split
  next => exact .ok rfl
  next => exact .bind fun _ => .bind fun _ => .ok rfl

theorem ofTriple_goesOn (s : Services) (action : Field TripleAction)
    (subject relation object : Field Argument) (countReg : Field Int)
    (outAddress : Field Argument) :
    GoesOn m (ofTriple m s action subject relation object countReg outAddress).2 := by
  unfold ofTriple
  split
  next => exact .error
  next store _ =>
    split
    next => exact .error
    next t _ =>
      split
      next =>
        split
        next => exact .error
        next => exact .ok rfl
      next => exact .bind fun _ => .bind fun found => ofMatches_goesOn countReg found outAddress
      next =>
        split
        next => exact .error
        next d _ =>
          change GoesOn m (ofQueryByBasin m d store t countReg outAddress).2
          unfold ofQueryByBasin
          split
          next => exact .error
          next =>
            split
            next => exact .error
            next => exact .bind fun found => ofMatches_goesOn countReg found outAddress
      next => exact .error
      next => exact .error

theorem ofApplyRule_goesOn (dynamics : Option Dynamics) (rule : Field String) (reg : Field Int) :
    GoesOn m (ofApplyRule m dynamics rule reg) := by
  cases dynamics with
  | none => exact .error
  | some d => exact .bind fun _ => .bind fun _ => .bind fun _ => .ok rfl

end GoesOn

variable {size : Nat} {m : Machine} {e : Effect}

theorem ofJump_next {target : Field Int} (h : ofJump size target = .ok e) :
    e.next = some target ∧ checkTarget size target = .ok () := by
  unfold ofJump at h
  cases hc : checkTarget size target with
  | error err =>
    rw [hc] at h
    cases h
  | ok _ =>
    rw [hc] at h
    cases h
    exact ⟨rfl, rfl⟩

theorem ofJumpIf_next {condition : Field Condition} {target : Field Int}
    (h : ofJumpIf size m condition target = .ok e) :
    (e.next = some m.pc.succ ∨ e.next = some target) ∧ checkTarget size target = .ok () := by
  unfold ofJumpIf at h
  cases hc : checkTarget size target with
  | error err =>
    rw [hc] at h
    cases h
  | ok _ =>
    rw [hc] at h
    cases condition with
    | known c =>
      cases h
      refine ⟨?_, rfl⟩
      cases taken m.flags c with
      | true => exact Or.inr rfl
      | false => exact Or.inl rfl
    | other v => cases h
    | absent kind name => cases h

/-- Where an instruction sends the program: to the one that follows, to a target that was checked,
or, for a halt, nowhere. -/
theorem ofInstruction_next {s : Services} {op : Instruction} (hv : op.Valid)
    (h : (ofInstruction size m s op).2 = .ok e) :
    e.next = some m.pc.succ ∨
      (∃ n : Int, e.next = some (.known n) ∧ 0 ≤ n ∧ n < size) ∨ op = .halt ∧
      e = { next := none } := by
  have target {t : Field Int} (ht : t.Known) (hc : checkTarget size t = .ok ()) :
      ∃ n : Int, t = .known n ∧ 0 ≤ n ∧ n < size := by
    obtain ⟨n, rfl⟩ := ht
    by_cases hn : 0 ≤ n ∧ n < size
    · exact ⟨n, rfl, hn⟩
    · simp only [checkTarget, if_neg hn] at hc
      cases hc
  cases op with
  | alu opcode dest a b =>
    exact Or.inl (GoesOn.bind (fun _ => .bind fun _ => .bind fun _ => .bind fun _ => .ok rfl) e h)
  | load dest address =>
    exact Or.inl (GoesOn.bind (fun _ => .bind fun _ => .bind fun _ => .bind fun _ => .ok rfl) e h)
  | store src address =>
    exact Or.inl (GoesOn.bind (fun _ => .bind fun _ => .bind fun _ => .ok rfl) e h)
  | loadConst dest v => exact Or.inl (ofLoadConst_goesOn dest v e h)
  | moveReg dest src => exact Or.inl (GoesOn.bind (fun _ => .bind fun _ => .ok rfl) e h)
  | content action d address l => exact Or.inl (ofContent_goesOn s action d l address e h)
  | triple action sub r o count out =>
    exact Or.inl (ofTriple_goesOn s action sub r o count out e h)
  | applyRule rule reg => exact Or.inl (ofApplyRule_goesOn s.dynamics rule reg e h)
  | jumpIf condition t =>
    obtain ⟨hnext | hnext, hc⟩ := ofJumpIf_next h
    · exact Or.inl hnext
    · obtain ⟨n, rfl, hn⟩ := target hv.2.2 hc
      exact Or.inr (Or.inl ⟨n, hnext, hn⟩)
  | jump t =>
    obtain ⟨hnext, hc⟩ := ofJump_next h
    obtain ⟨n, rfl, hn⟩ := target hv.2 hc
    exact Or.inr (Or.inl ⟨n, hnext, hn⟩)
  | halt =>
    cases h
    exact Or.inr (Or.inr ⟨rfl, rfl⟩)
  | foreign kind => exact hv.2.elim

end Effect

/-- The counter points at an instruction of the program, or at its end. -/
def Machine.InProgram (p : Program) (m : Machine) : Prop :=
  ∃ n : Int, m.pc = .known n ∧ 0 ≤ n ∧ n ≤ p.size

namespace Engine

variable {p : Program} {e e' : Engine}

theorem fetch_known {n : Int} {op : Instruction} (h : fetch p (.known n) = .ok op) :
    0 ≤ n ∧ n < p.size ∧ p.ops[n.toNat]? = some op := by
  have hop : instruction? p n = some op := by
    unfold fetch at h
    simp only [Field.toInt?, Option.bind_some] at h
    split at h
    next op' hop => rw [hop, Except.ok.inj h]
    next => cases h
  unfold instruction? at hop
  split at hop
  · cases hop
  · have hlt := (Array.getElem?_eq_some_iff.mp hop).1
    have hsize : p.size = p.ops.size := rfl
    exact ⟨by omega, by omega, hop⟩

theorem fetch_inside {n : Int} (h₀ : 0 ≤ n) (h : n < p.size) :
    ∃ op, fetch p (.known n) = .ok op := by
  have hlt : n.toNat < p.ops.size := by
    have hsize : p.size = p.ops.size := rfl
    omega
  obtain ⟨op, hop⟩ : ∃ op, p.ops[n.toNat]? = some op := ⟨_, Array.getElem?_eq_getElem hlt⟩
  have hfound : instruction? p n = some op := by
    unfold instruction?
    rw [if_neg (by omega), hop]
  refine ⟨op, ?_⟩
  unfold fetch
  simp only [Field.toInt?, Option.bind_some, hfound]

theorem fetch_outside {n : Int} (h : ¬ (0 ≤ n ∧ n ≤ p.size)) :
    fetch p (.known n) = .error (.fault (.counter (.known n) p.size)) := by
  have hnone : instruction? p n = none := by
    have hsize : p.size = p.ops.size := rfl
    unfold instruction?
    split
    · rfl
    · exact Array.getElem?_eq_none (by omega)
  unfold fetch
  simp only [Field.toInt?, Option.bind_some, hnone]

/-- A step that completes has taken an instruction from the program and carried its effect out. -/
theorem step_done {signal : Signal} (h : e.step p = (e', signal))
    (hs : signal = .halt ∨ ∃ op, signal = .next op) :
    ∃ op effect, fetch p e.machine.pc = .ok op ∧
      (Effect.ofInstruction p.size e.beginStep.machine e.beginStep.services op).2 = .ok effect ∧
      effect.commit e.beginStep.machine = (e'.machine, none) ∧ e'.steps = e.steps + 1 ∧
      signal = if effect.next.isSome then .next op else .halt := by
  unfold step at h
  split at h
  next err _ =>
    obtain ⟨-, rfl⟩ := Prod.mk.inj h
    rcases hs with hs | ⟨op, hs⟩ <;> cases err <;> cases hs
  next op hop =>
    obtain ⟨effect, hok, hc, hsteps, hsignal⟩ := execute_done h hs
    exact ⟨op, effect, hop, hok, hc, hsteps, hsignal⟩

/-- A step to the next instruction is counted by tick and steps, and stays with the program. -/
theorem step_next (hp : p.Valid) (hpc : e.machine.pc.Known) {op : Instruction}
    (h : e.step p = (e', .next op)) :
    e'.machine.tick = e.machine.tick + 1 ∧ e'.steps = e.steps + 1 ∧ e'.machine.InProgram p := by
  obtain ⟨op', effect, hop, hok, hc, hsteps, hsignal⟩ := step_done h (Or.inr ⟨op, rfl⟩)
  obtain ⟨registers, memory, -, -, hm⟩ := Effect.commit_done hc
  refine ⟨congrArg Machine.tick hm, hsteps, ?_⟩
  have hnext : e'.machine.pc = effect.next.getD e.machine.pc := congrArg Machine.pc hm
  have hv : op'.Valid := hp op' ((fetch_settles p _).of_ok hop)
  rcases Effect.ofInstruction_next hv hok with hn | ⟨k, hn, hk⟩ | ⟨-, rfl⟩
  · obtain ⟨n, hpc⟩ := hpc
    rw [hpc] at hop
    obtain ⟨h₀, hlt, -⟩ := fetch_known hop
    refine ⟨n + 1, ?_, by omega, by omega⟩
    rw [hnext, hn]
    change e.machine.pc.succ = .known (n + 1)
    rw [hpc]
    rfl
  · refine ⟨k, ?_, hk.1, by omega⟩
    rw [hnext, hn]
    rfl
  · cases hsignal

/-- A fault in the program is counted and leaves the machine as it was. -/
theorem step_fault_counted {n : Int} (hpc : e.machine.pc = .known n) (h₀ : 0 ≤ n) (hn : n < p.size)
    {f : Fault} (h : e.step p = (e', .fault f)) :
    e'.machine = { e.machine with tick := e.machine.tick + 1 } ∧ e'.steps = e.steps + 1 := by
  rcases step_fault_cases h with ⟨rfl, rfl⟩ | ⟨-, services, rfl, -⟩
  · obtain ⟨op, hop⟩ := fetch_inside h₀ hn
    unfold step at h
    rw [hpc, hop] at h
    dsimp only at h
    obtain ⟨-, -, hsteps⟩ := execute_keeps p.size op e'.beginStep
    rw [h] at hsteps
    exact absurd hsteps (Nat.ne_of_lt (Nat.lt_succ_self _))
  · exact ⟨rfl, rfl⟩

/-- A step that halts has found a halt, and changes nothing but the counts. -/
theorem step_halt (hp : p.Valid) (h : e.step p = (e', .halt)) :
    fetch p e.machine.pc = .ok .halt ∧ e'.machine = { e.machine with tick := e.machine.tick + 1 } ∧
      e'.steps = e.steps + 1 := by
  obtain ⟨op, effect, hop, hok, hc, hsteps, hsignal⟩ := step_done h (Or.inl rfl)
  have hv : op.Valid := hp op ((fetch_settles p _).of_ok hop)
  have hstop : effect.next.isSome = false := by
    cases hn : effect.next.isSome with
    | true =>
      rw [hn] at hsignal
      cases hsignal
    | false => rfl
  rcases Effect.ofInstruction_next hv hok with hn | ⟨k, hn, -⟩ | ⟨rfl, rfl⟩
  · rw [hn] at hstop
    cases hstop
  · rw [hn] at hstop
    cases hstop
  · obtain ⟨registers, memory, hw, hr, hm⟩ := Effect.commit_done hc
    have hmem : e.machine.memory.writeSpan 0 [] = (e.machine.memory, none) :=
      e.machine.memory.writeSpan_eq_writeAll (Nat.zero_le _)
    cases hmem.symm.trans hw
    cases hr
    exact ⟨hop, hm, hsteps⟩

end Engine

def lastSeen (m : Machine) (seen : List (Machine × Instruction)) : Machine :=
  (seen.map Prod.fst).getLastD m

@[simp] theorem lastSeen_record (m : Machine) (seen : List (Machine × Instruction)) (m' : Machine)
    (op : Instruction) : lastSeen m (record seen m' op) = m' := by
  simp [lastSeen, record]

/-- What a record holds: the machine after each completed instruction, one tick apart and with the
counter in the program. -/
structure Shows (p : Program) (m : Machine) (seen : List (Machine × Instruction)) : Prop where
  tick : ∀ {j : Nat} {x}, seen[j]? = some x → x.1.tick = m.tick + (j + 1)
  counter : ∀ {j : Nat} {x}, seen[j]? = some x → x.1.InProgram p

/-- The books while a run goes on: every step so far has been completed and shown. -/
structure Tallied (p : Program) (m : Machine) (e : Engine) (seen : List (Machine × Instruction)) :
    Prop where
  steps : e.steps = seen.length
  tick : e.machine.tick = m.tick + seen.length
  shows : Shows p m seen
  last : lastSeen m seen = e.machine
  counter : e.machine.InProgram p

namespace Tallied

variable {p : Program} {m : Machine} {e : Engine} {seen : List (Machine × Instruction)}

theorem start {s : Services} (h : m.InProgram p) : Tallied p m ⟨m, s, 0⟩ [] where
  steps := rfl
  tick := by simp
  shows := ⟨by simp, by simp⟩
  last := rfl
  counter := h

theorem next (h : Tallied p m e seen) (hp : p.Valid) {e' : Engine} {op : Instruction}
    (hstep : e.step p = (e', .next op)) : Tallied p m e' (record seen e'.machine op) := by
  obtain ⟨n, hn, -⟩ := h.counter
  obtain ⟨htick, hsteps, hpc⟩ := Engine.step_next hp ⟨n, hn⟩ hstep
  have hlen : (record seen e'.machine op).length = seen.length + 1 := by simp [record]
  have htick' : e'.machine.tick = m.tick + (seen.length + 1) := by
    rw [htick, h.tick]
    omega
  -- An entry of the record is one of before, or the machine that was just shown.
  have entry {j : Nat} {x : Machine × Instruction}
      (hx : (record seen e'.machine op)[j]? = some x) :
      seen[j]? = some x ∨ j = seen.length ∧ x = (e'.machine, op) := by
    rcases Nat.lt_trichotomy j seen.length with hj | rfl | hj
    · left
      rwa [record, List.getElem?_append_left hj] at hx
    · right
      simp only [record, List.getElem?_concat_length, Option.some.injEq] at hx
      exact ⟨rfl, hx.symm⟩
    · rw [List.getElem?_eq_none (by omega)] at hx
      cases hx
  refine ⟨?_, ?_, ⟨fun hx => ?_, fun hx => ?_⟩, lastSeen_record .., hpc⟩
  · rw [hsteps, h.steps, hlen]
  · rw [htick', hlen]
    simp
  · rcases entry hx with hx | ⟨rfl, rfl⟩
    · exact h.shows.tick hx
    · exact htick'
  · rcases entry hx with hx | ⟨rfl, rfl⟩
    · exact h.shows.counter hx
    · exact hpc

end Tallied

/-- The books of a run that has ended. -/
structure Accounted (p : Program) (m : Machine) (limit : Int) (e : Engine)
    (seen : List (Machine × Instruction)) (o : Ending) : Prop where
  ticks : e.machine.tick - m.tick = e.steps
  steps : e.steps ≤ limit
  /-- Every step was completed where the program came to its end or the limit was reached. -/
  completed : o = .halted true ∨ o.Exhausted → seen.length = e.steps
  /-- A step that halts or faults is counted and not shown. -/
  begun : m.InProgram p → (o = .halted false ∨ ∃ f, o = .faulted f ∧ f.kind ≠ .resource) →
    seen.length + 1 = e.steps
  /-- A counter outside the program faults before a step is counted. -/
  outside : ¬ m.InProgram p → (∃ f, o = .faulted f ∧ f.kind = .control) ∧ e.steps = 0 ∧ seen = []
  shows : Shows p m seen
  last : e.machine.registers = (lastSeen m seen).registers ∧
  e.machine.flags = (lastSeen m seen).flags ∧
    e.machine.memory = (lastSeen m seen).memory ∧ e.machine.pc = (lastSeen m seen).pc
  exhausted : o.Exhausted → e.steps = limit
  implicit : o = .halted true ↔ e.machine.pc = .known p.size ∧ ∀ f, o ≠ .faulted f
  explicit : o = .halted false → ∃ k : Nat, e.machine.pc = .known k ∧ p.ops[k]? = some .halt

namespace Tallied

variable {p : Program} {m : Machine} {e e' : Engine} {seen : List (Machine × Instruction)}
  {limit : Nat} (h : Tallied p m e seen) (hin : m.InProgram p)
include h hin

theorem finished (hl : e.steps ≤ limit) (hpc : e.machine.pc.toInt? = some (p.size : Int)) :
    Accounted p m limit e seen (.halted true) where
  ticks := by rw [h.tick, h.steps]; omega
  steps := by omega
  completed _ := h.steps.symm
  begun _ := by rintro (ho | ⟨f, ho, -⟩) <;> cases ho
  outside hn := absurd hin hn
  shows := h.shows
  last := by simp [h.last]
  exhausted hx := absurd hx Ending.not_exhausted_halted
  implicit := by
    obtain ⟨n, hn, -⟩ := h.counter
    rw [hn] at hpc ⊢
    cases hpc
    simp
  explicit ho := by cases ho

theorem exhausted (hl : e.steps = limit) :
    Accounted p m limit e seen (.faulted (.stepLimit limit e.machine.pc)) where
  ticks := by rw [h.tick, h.steps]; omega
  steps := by omega
  completed _ := h.steps.symm
  begun _ := by
    rintro (ho | ⟨f, ho, hk⟩)
    · cases ho
    · cases ho
      exact absurd rfl hk
  outside hn := absurd hin hn
  shows := h.shows
  last := by simp [h.last]
  exhausted _ := by omega
  implicit := by simp
  explicit ho := by cases ho

theorem halts (hp : p.Valid) (hl : e.steps < limit) (hstep : e.step p = (e', .halt)) :
    Accounted p m limit e' seen (.halted false) := by
  obtain ⟨hfetch, hm, hsteps⟩ := Engine.step_halt hp hstep
  obtain ⟨n, hn, h₀, -⟩ := h.counter
  rw [hn] at hfetch
  obtain ⟨-, hlt, hop⟩ := Engine.fetch_known hfetch
  have hpc : e'.machine.pc = .known n := by rw [hm, ← hn]
  exact {
    ticks := by simp only [hm, hsteps, h.tick, h.steps]; omega
    steps := by omega
    completed := by
      rintro (ho | hx)
      · cases ho
      · exact absurd hx Ending.not_exhausted_halted
    begun := fun _ _ => by rw [hsteps, h.steps]
    outside := fun hn => absurd hin hn
    shows := h.shows
    last := by simp [h.last, hm]
    exhausted := fun hx => absurd hx Ending.not_exhausted_halted
    implicit := by
      rw [hpc]
      simp only [Ending.halted.injEq, Bool.false_eq_true, Field.known.injEq, false_iff, not_and]
      omega
    explicit := fun _ => ⟨n.toNat, by rw [hpc, Int.toNat_of_nonneg h₀], hop⟩ }

theorem faults (hl : e.steps < limit) (hend : e.machine.pc.toInt? ≠ some (p.size : Int))
    {f : Fault} (hstep : e.step p = (e', .fault f)) :
    Accounted p m limit e' seen (.faulted f) := by
  have hx := Engine.step_not_exhausted hstep
  obtain ⟨n, hn, h₀, hle⟩ := h.counter
  have hne : n ≠ p.size := by
    rintro rfl
    exact hend (by rw [hn]; rfl)
  obtain ⟨hm, hsteps⟩ := Engine.step_fault_counted hn h₀ (by omega) hstep
  exact {
    ticks := by simp only [hm, hsteps, h.tick, h.steps]; omega
    steps := by omega
    completed := by
      rintro (ho | ho)
      · cases ho
      · exact absurd ho hx
    begun := fun _ _ => by rw [hsteps, h.steps]
    outside := fun hn => absurd hin hn
    shows := h.shows
    last := by simp [h.last, hm]
    exhausted := fun ho => absurd ho hx
    implicit := by simp
    explicit := fun ho => by cases ho }

/-- The books are kept to the end of a run, unless it breaks down. -/
theorem runFor_accounted (hp : p.Valid) (left : Nat) (hleft : e.steps + left = limit) :
    (∃ err, (Engine.runFor p limit record left e seen).2.2 = .crashed err) ∨
      Accounted p m limit (Engine.runFor p limit record left e seen).1
        (Engine.runFor p limit record left e seen).2.1
        (Engine.runFor p limit record left e seen).2.2 := by
  induction left generalizing e seen with
  | zero =>
    right
    by_cases hpc : e.machine.pc.toInt? = some (p.size : Int)
    · rw [Engine.runFor_end hpc]
      exact h.finished hin (by omega) hpc
    · rw [Engine.runFor_zero hpc]
      exact h.exhausted hin (by omega)
  | succ left ih =>
    by_cases hpc : e.machine.pc.toInt? = some (p.size : Int)
    · right
      rw [Engine.runFor_end hpc]
      exact h.finished hin (by omega) hpc
    · rw [Engine.runFor_succ hpc]
      cases hstep : e.step p with
      | mk e' signal =>
        cases signal with
        | next op =>
          have hsteps := Engine.step_steps hstep
          exact ih (h.next hp hstep) (by omega)
        | halt => exact Or.inr (h.halts hin hp (by omega) hstep)
        | fault f => exact Or.inr (h.faults hin (by omega) hpc hstep)
        | crash err => exact Or.inl ⟨err, rfl⟩

end Tallied

/-- A counter outside the program stops a run before its first step. -/
theorem runFor_outside {p : Program} {m : Machine} {s : Services} {limit left : Nat}
    (hpc : m.pc.Known) (h : ¬ m.InProgram p) :
    Engine.runFor p limit record (left + 1) ⟨m, s, 0⟩ [] =
      (⟨m, s, 0⟩, [], .faulted (.counter m.pc p.size)) := by
  obtain ⟨n, hn⟩ := hpc
  have hout : ¬ (0 ≤ n ∧ n ≤ p.size) := fun hr => h ⟨n, hn, hr⟩
  have hend : m.pc.toInt? ≠ some (p.size : Int) := by
    rw [hn]
    rintro ⟨⟩
    omega
  have hstep : Engine.step p ⟨m, s, 0⟩ = (⟨m, s, 0⟩, .fault (.counter m.pc p.size)) := by
    unfold Engine.step
    dsimp only
    rw [hn, Engine.fetch_outside hout]
    rfl
  rw [Engine.runFor_succ hend, hstep]

/-- A run of a valid program that ends by a halt or a fault has its books in order: its ticks are
its steps, of which there are no more than the limit, and every completed step has been shown. -/
theorem runProgram_accounted {p : Program} (hp : p.Valid) {m : Machine} (hpc : m.pc.Known)
    (s : Services) {limit : Int} (hl : 0 < limit) :
    ∃ e seen o, runProgram p m s limit record [] = .ok (e, seen, o) ∧
      ((∀ err, o ≠ .crashed err) → Accounted p m limit e seen o) := by
  refine ⟨_, _, _, runProgram_eq hl, fun hc => ?_⟩
  have hrep := (reportable_eq_or_crashed _ _).resolve_right fun ⟨err, he⟩ => hc err he
  rw [hrep] at hc ⊢
  by_cases hin : m.InProgram p
  · have hstart : Tallied p m ⟨m, s, 0⟩ [] := .start hin
    have hlimit : ((limit.toNat : Nat) : Int) = limit := Int.toNat_of_nonneg (by omega)
    rcases hstart.runFor_accounted hin hp limit.toNat (Nat.zero_add _) with ⟨err, he⟩ | ha
    · exact absurd he (hc err)
    · rwa [hlimit] at ha
  · obtain ⟨left, hleft⟩ : ∃ left, limit.toNat = left + 1 := ⟨limit.toNat - 1, by omega⟩
    rw [hleft, runFor_outside hpc hin]
    exact {
      ticks := by simp
      steps := by simpa using Int.le_of_lt hl
      completed := by
        rintro (ho | ⟨f, ho, hk⟩)
        · cases ho
        · cases ho
          cases hk
      begun := fun h => absurd h hin
      outside := fun _ => ⟨⟨_, rfl, rfl⟩, rfl, rfl⟩
      shows := ⟨by simp, by simp⟩
      last := ⟨rfl, rfl, rfl, rfl⟩
      exhausted := by
        rintro ⟨f, ho, hk⟩
        cases ho
        cases hk
      implicit := by simp
      explicit := fun ho => by cases ho }

/-- Two rounds of a loop, and then a fault in the sixth step. -/
theorem runProgram_accounted_loop :
    let word (v : Nat) (h : v < 16) : Word := ⟨4, v, by decide, h⟩
    let m : Machine :=
      ⟨⟨4, Vector.replicate 4 (word 0 (by decide))⟩, {}, ⟨4, #[word 0 (by decide)]⟩, .known 0, 7⟩
    let p : Program := ⟨"main", #[.loadConst (.known 0) (.known (word 2 (by decide))),
      .alu (.known .sub) (.known 0) (.known (.reg 0)) (.known (.imm (word 1 (by decide)))),
      .jumpIf (.known .notZero) (.known 1), .load (.known 1) (.known (.absolute 9))]⟩
    p.Valid ∧ m.pc.Known ∧
      ∃ e seen, runProgram p m {} 10 record [] = .ok (e, seen, .faulted (.address 9 1)) ∧
        e.machine.tick - 7 = e.steps ∧ seen.length + 1 = e.steps ∧ Shows p m seen := by
  intro word m p
  have hp : p.Valid := by
    intro i hi
    simp only [p, List.mem_toArray, List.mem_cons, List.not_mem_nil, or_false] at hi
    rcases hi with rfl | rfl | rfl | rfl
    · exact ⟨rfl, ⟨0, rfl⟩, ⟨_, rfl⟩⟩
    · exact ⟨rfl, ⟨_, rfl⟩, ⟨0, rfl⟩, ⟨.reg 0, rfl, rfl⟩, Or.inr ⟨_, rfl, rfl⟩⟩
    · exact ⟨rfl, ⟨_, rfl⟩, ⟨1, rfl⟩⟩
    · exact ⟨rfl, ⟨1, rfl⟩, ⟨.absolute 9, rfl, rfl⟩⟩
  have hpc : m.pc.Known := ⟨0, rfl⟩
  have hin : m.InProgram p := ⟨0, rfl, by decide, by decide⟩
  have ho :
      (runProgram p m {} 10 record []).toOption.map (·.2.2) = some (.faulted (.address 9 1)) := by
    decide +kernel
  obtain ⟨e, seen, o, hrun, hbooks⟩ :=
    runProgram_accounted hp hpc {} (show (0 : Int) < 10 by decide)
  rw [hrun] at ho
  obtain rfl : o = .faulted (.address 9 1) := Option.some.inj ho
  have hbooks := hbooks fun _ h => nomatch h
  exact ⟨hp, hpc, e, seen, hrun, hbooks.ticks, hbooks.begun hin (Or.inr ⟨_, rfl, by decide⟩),
    hbooks.shows⟩

end WordMachine
