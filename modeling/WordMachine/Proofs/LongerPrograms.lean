import WordMachine.Proofs.Accounting

/-!
Instructions added at the end of a program. The length of a program is looked at only to find its
end, to check the targets of jumps and to check the counter. So a run that was not stopped by such
a check goes the same way in a longer program, and where it came to the end of the shorter one it
goes on with what was added.
-/
namespace WordMachine

def Program.append (p : Program) (more : Array Instruction) : Program :=
  { p with ops := p.ops ++ more }

theorem Program.size_append (p : Program) (more : Array Instruction) :
    (p.append more).size = p.size + more.size := by
  simp [Program.append, Program.size]

/-- A fault by the counter or by the target of a jump. -/
def Error.IsControl (err : Error) : Prop := ∃ f, err = .fault f ∧ f.kind = .control

namespace Effect

variable {size longer : Nat} (hsize : size ≤ longer)
include hsize

theorem checkTarget_longer (n : Int) :
    Follows Error.IsControl (checkTarget size (.known n)) (checkTarget longer (.known n)) := by
  unfold checkTarget
  by_cases h : 0 ≤ n ∧ n < size
  · left
    dsimp only
    rw [if_pos h, if_pos (by omega)]
  · right
    dsimp only
    rw [if_neg h]
    exact ⟨_, rfl, _, rfl, rfl⟩

/-- Only a jump out of the shorter program can tell the two apart. -/
theorem ofInstruction_longer (m : Machine) (s : Services) {op : Instruction} (hv : op.Valid) :
    ofInstruction longer m s op = ofInstruction size m s op ∨
      ∃ err, (ofInstruction size m s op).2 = .error err ∧ err.IsControl := by
  cases op with
  | jumpIf condition target =>
    obtain ⟨-, -, n, rfl⟩ := hv
    have hjump : Follows Error.IsControl (ofJumpIf size m condition (.known n))
        (ofJumpIf longer m condition (.known n)) :=
      (checkTarget_longer hsize n).bind fun _ _ => .refl _
    exact hjump.imp_left (congrArg (Prod.mk s))
  | jump target =>
    obtain ⟨-, n, rfl⟩ := hv
    have hjump : Follows Error.IsControl (ofJump size (.known n)) (ofJump longer (.known n)) :=
      (checkTarget_longer hsize n).bind fun _ _ => .refl _
    exact hjump.imp_left (congrArg (Prod.mk s))
  | _ => exact Or.inl rfl

end Effect

namespace Engine

theorem execute_longer {size longer : Nat} (hsize : size ≤ longer) {op : Instruction}
    (hv : op.Valid) (e : Engine) :
    e.execute longer op = e.execute size op ∨ ∃ f, (e.execute size op).2 = .fault f ∧
      f.kind = .control := by
  obtain ⟨machine, services, steps⟩ := e
  rcases Effect.ofInstruction_longer hsize machine services hv with heq | ⟨err, herr, f, rfl, hf⟩
  · left
    simp only [execute, heq]
  · right
    simp only [execute]
    generalize Effect.ofInstruction size machine services op = out at herr
    obtain ⟨services', result⟩ := out
    obtain rfl : result = .error (.fault f) := herr
    exact ⟨f, rfl, hf⟩

/-- A halt does nothing but stop. -/
theorem execute_halt (size : Nat) (e : Engine) : e.execute size .halt = (e, .halt) := by
  have hcommit : ({ next := none } : Effect).commit e.machine = (e.machine, none) :=
    Effect.commit_eq (Nat.zero_le _) (by simp) rfl rfl
  exact execute_eq rfl hcommit

variable {p : Program} (more : Array Instruction)

theorem fetch_append {n : Int} {op : Instruction} (h : fetch p (.known n) = .ok op) :
    fetch (p.append more) (.known n) = .ok op := by
  obtain ⟨h₀, hlt, hop⟩ := fetch_known h
  have hlen : n.toNat < p.ops.size := by
    have hsize : p.size = p.ops.size := rfl
    omega
  have hop' : (p.append more).ops[n.toNat]? = some op := by
    rw [← hop]
    exact Array.getElem?_append_left hlen
  simp only [fetch, Field.toInt?, Option.bind_some, instruction?, if_neg (Int.not_lt.mpr h₀), hop']

theorem step_append (hp : p.Valid) {e : Engine} (hin : e.machine.InProgram p)
    (hend : e.machine.pc.toInt? ≠ some (p.size : Int)) :
    e.step (p.append more) = e.step p ∨ ∃ f, (e.step p).2 = .fault f ∧ f.kind = .control := by
  obtain ⟨n, hpc, h₀, hn⟩ := hin
  have hlt : n < p.size := by
    rw [hpc] at hend
    have hne : n ≠ p.size := fun heq => hend (congrArg some heq)
    omega
  obtain ⟨op, hop⟩ := fetch_inside h₀ hlt
  have hsize : p.size ≤ (p.append more).size := by
    rw [p.size_append more]
    omega
  simp only [step, hpc, hop, fetch_append more hop]
  exact execute_longer hsize (hp op ((fetch_settles p _).of_ok hop)) e.beginStep

variable {σ : Type} {observe : σ → Machine → Instruction → σ}

/-- A run of a program is also one of the longer program: it ends there too, or it has come to the
end of the shorter program, and the rest of its steps are left for what was added. Left out is a
run that leaves the shorter program otherwise. -/
theorem runFor_append (hp : p.Valid) (limit left : Nat) {e : Engine} (hin : e.machine.InProgram p)
    (acc : σ) :
    (∃ f, (runFor p limit observe left e acc).2.2 = .faulted f ∧ f.kind = .control) ∨
      ((runFor p limit observe left e acc).2.2 ≠ .halted true ∧
        runFor (p.append more) limit observe left e acc = runFor p limit observe left e acc) ∨
      ∃ rest, (runFor p limit observe left e acc).2.2 = .halted true ∧
        (runFor p limit observe left e acc).1.machine.pc = .known p.size ∧
        (runFor p limit observe left e acc).1.steps + rest = e.steps + left ∧
        runFor (p.append more) limit observe left e acc =
          runFor (p.append more) limit observe rest (runFor p limit observe left e acc).1
            (runFor p limit observe left e acc).2.1 := by
  have hfinished {e : Engine} (hin : e.machine.InProgram p)
      (hpc : e.machine.pc.toInt? = some (p.size : Int)) : e.machine.pc = .known p.size := by
    obtain ⟨n, hn, -⟩ := hin
    rw [hn] at hpc ⊢
    rw [Option.some.inj hpc]
  -- Before its own end a program is not at the end of the longer one.
  have hinside {e : Engine} (hin : e.machine.InProgram p)
      (hpc : e.machine.pc.toInt? ≠ some (p.size : Int)) :
      e.machine.pc.toInt? ≠ some ((p.append more).size : Int) := by
    obtain ⟨n, hn, h₀, hle⟩ := hin
    rw [hn] at hpc ⊢
    intro heq
    have hlong : n = (p.append more).size := Option.some.inj heq
    rw [p.size_append more] at hlong
    apply hpc
    apply congrArg some
    omega
  induction left generalizing e acc with
  | zero =>
    right
    by_cases hpc : e.machine.pc.toInt? = some (p.size : Int)
    · right
      rw [runFor_end hpc]
      exact ⟨0, rfl, hfinished hin hpc, rfl, rfl⟩
    · left
      rw [runFor_zero hpc, runFor_zero (hinside hin hpc)]
      exact ⟨by simp, rfl⟩
  | succ left ih =>
    by_cases hpc : e.machine.pc.toInt? = some (p.size : Int)
    · right
      right
      rw [runFor_end hpc]
      exact ⟨left + 1, rfl, hfinished hin hpc, rfl, rfl⟩
    · rw [runFor_succ hpc, runFor_succ (hinside hin hpc)]
      rcases step_append more hp hin hpc with heq | ⟨f, hf, hk⟩
      · rw [heq]
        cases hstep : e.step p with
        | mk e' signal =>
          cases signal with
          | next op =>
            obtain ⟨-, hsteps, hin'⟩ := step_next hp ⟨_, hin.choose_spec.1⟩ hstep
            have hsum : e.steps + (left + 1) = e'.steps + left := by omega
            rw [hsum]
            exact ih hin' (observe acc e'.machine op)
          | halt => exact Or.inr (Or.inl ⟨by simp, rfl⟩)
          | fault f => exact Or.inr (Or.inl ⟨by simp, rfl⟩)
          | crash err => exact Or.inr (Or.inl ⟨by simp, rfl⟩)
      · left
        generalize e.step p = out at hf
        obtain ⟨e', signal⟩ := out
        obtain rfl : signal = .fault f := hf
        exact ⟨f, rfl, hk⟩

/-- At the end of a program, a halt that was added there takes one step and changes nothing
else. -/
theorem runFor_append_halt {e : Engine} (hpc : e.machine.pc = .known p.size) (limit rest : Nat)
    (acc : σ) :
    runFor (p.append #[.halt]) limit observe (rest + 1) e acc =
      (e.beginStep, acc, .halted false) := by
  have hend : e.machine.pc.toInt? ≠ some ((p.append #[.halt]).size : Int) := by
    rw [hpc, p.size_append]
    intro heq
    have hlong : (p.size : Int) = ((p.size + #[Instruction.halt].size : Nat) : Int) :=
      Option.some.inj heq
    simp only [List.size_toArray, List.length_cons, List.length_nil] at hlong
    omega
  have hop : (p.append #[.halt]).ops[p.size]? = some .halt := by
    simp [Program.append, Program.size]
  have hfetch : fetch (p.append #[.halt]) e.machine.pc = .ok .halt := by
    have hpos : ¬ (p.size : Int) < 0 := by omega
    rw [hpc]
    simp only [fetch, Field.toInt?, Option.bind_some, instruction?, if_neg hpos,
      Int.toNat_natCast, hop]
  have hstep : e.step (p.append #[.halt]) = (e.beginStep, .halt) := by
    rw [step_of_fetch hfetch]
    exact execute_halt _ e.beginStep
  rw [runFor_succ hend, hstep]

end Engine

/-- A run that ends otherwise than at the end of the program, and not by a jump or a counter that
leads out of it, does the same in a longer program. A run that comes to the end of the program
before its limit is stopped by a halt that is added there, after one more step that changes nothing
but the counts. -/
theorem runProgram_append {p : Program} (hp : p.Valid) {m : Machine} (hpc : m.pc.Known)
    {s : Services} {limit : Int} {e : Engine} {seen : List (Machine × Instruction)} {o : Ending}
    (h : runProgram p m s limit record [] = .ok (e, seen, o)) :
    (∀ more, (∀ err, o ≠ .crashed err) → o ≠ .halted true →
      (∀ f, o = .faulted f → f.kind ≠ .control) →
        runProgram (p.append more) m s limit record [] = .ok (e, seen, o)) ∧
      (o = .halted true → (e.steps : Int) < limit →
        runProgram (p.append #[.halt]) m s limit record [] =
          .ok (⟨{ e.machine with tick := e.machine.tick + 1 }, e.services, e.steps + 1⟩, seen,
            .halted false)) := by
  have hl := limit_pos_of_runProgram h
  rw [runProgram_eq hl] at h
  by_cases hin : m.InProgram p
  · have hrun (more : Array Instruction) :=
      @Engine.runFor_append p more _ record hp limit.toNat limit.toNat ⟨m, s, 0⟩ hin []
    generalize Engine.runFor p limit.toNat record limit.toNat ⟨m, s, 0⟩ [] = out at h hrun
    obtain ⟨e₁, seen₁, raw⟩ := out
    have hreport := reportable_eq_or_crashed e₁ raw
    dsimp only at h hrun
    cases h
    constructor
    · intro more hc ho hk
      have hraw := hreport.resolve_right fun ⟨err, he⟩ => hc err he
      rw [hraw] at ho hk ⊢
      rcases hrun more with ⟨f, hf, hcontrol⟩ | ⟨-, heq⟩ | ⟨rest, hend, -⟩
      · exact absurd hcontrol (hk f hf)
      · rw [runProgram_eq hl, heq, hraw]
      · exact absurd hend ho
    · intro ho hs
      have hraw : raw = .halted true := by
        rcases hreport with hr | ⟨err, hr⟩
        · rw [← hr, ho]
        · cases hr.symm.trans ho
      rcases hrun #[.halt] with ⟨f, hf, -⟩ | ⟨hne, -⟩ | ⟨rest, -, hend, hsteps, heq⟩
      · cases hraw.symm.trans hf
      · exact absurd hraw hne
      · obtain ⟨left, rfl⟩ : ∃ left, rest = left + 1 := ⟨rest - 1, by omega⟩
        rw [runProgram_eq hl, heq, Engine.runFor_append_halt hend]
        rfl
  · obtain ⟨left, hleft⟩ : ∃ left, limit.toNat = left + 1 := ⟨limit.toNat - 1, by omega⟩
    rw [hleft, runFor_outside hpc hin] at h
    have hreport := reportable_eq_or_crashed ⟨m, s, 0⟩ (.faulted (.counter m.pc p.size))
    generalize reportable ⟨m, s, 0⟩ (.faulted (.counter m.pc p.size)) = shown at h hreport
    cases h
    rcases hreport with rfl | ⟨err, rfl⟩
    · exact ⟨fun _ _ _ hk => absurd rfl (hk _ rfl), fun ho => by cases ho⟩
    · exact ⟨fun _ hc => absurd rfl (hc err), fun ho => by cases ho⟩

/-- A loop that comes to the end of the program, and the same loop with a fault after it, each in a
longer program. -/
theorem runProgram_append_loop :
    let word (v : Nat) (h : v < 16) : Word := ⟨4, v, by decide, h⟩
    let m : Machine :=
      ⟨⟨4, Vector.replicate 4 (word 0 (by decide))⟩, {}, ⟨4, #[word 0 (by decide)]⟩, .known 0, 0⟩
    let loop : Program := ⟨"main", #[.loadConst (.known 0) (.known (word 2 (by decide))),
      .alu (.known .sub) (.known 0) (.known (.reg 0)) (.known (.imm (word 1 (by decide)))),
      .jumpIf (.known .notZero) (.known 1)]⟩
    let faulty := loop.append #[.load (.known 1) (.known (.absolute 9))]
    loop.Valid ∧ faulty.Valid ∧ m.pc.Known ∧
      (∃ e seen, runProgram faulty m {} 10 record [] = .ok (e, seen, .faulted (.address 9 1)) ∧
        runProgram (faulty.append #[.halt, .jump (.known 0)]) m {} 10 record [] =
          .ok (e, seen, .faulted (.address 9 1))) ∧
      ∃ e seen, runProgram loop m {} 10 record [] = .ok (e, seen, .halted true) ∧ e.steps = 5 ∧
        runProgram (loop.append #[.halt]) m {} 10 record [] =
          .ok (⟨{ e.machine with tick := e.machine.tick + 1 }, e.services, e.steps + 1⟩, seen,
            .halted false) := by
  intro word m loop faulty
  have hloop : loop.Valid := by
    intro i hi
    simp only [loop, List.mem_toArray, List.mem_cons, List.not_mem_nil, or_false] at hi
    rcases hi with rfl | rfl | rfl
    · exact ⟨rfl, ⟨0, rfl⟩, ⟨_, rfl⟩⟩
    · exact ⟨rfl, ⟨_, rfl⟩, ⟨0, rfl⟩, ⟨.reg 0, rfl, rfl⟩, Or.inr ⟨_, rfl, rfl⟩⟩
    · exact ⟨rfl, ⟨_, rfl⟩, ⟨1, rfl⟩⟩
  have hfaulty : faulty.Valid := by
    intro i hi
    rcases Array.mem_append.mp hi with hi | hi
    · exact hloop i hi
    · obtain rfl : i = .load (.known 1) (.known (.absolute 9)) := by simpa using hi
      exact ⟨rfl, ⟨1, rfl⟩, ⟨.absolute 9, rfl, rfl⟩⟩
  have hpc : m.pc.Known := ⟨0, rfl⟩
  refine ⟨hloop, hfaulty, hpc, ?_, ?_⟩
  · obtain ⟨⟨e, seen, o⟩, hrun, ho⟩ : ∃ out, runProgram faulty m {} 10 record [] = .ok out ∧
        out.2.2 = .faulted (.address 9 1) := ⟨_, rfl, by decide +kernel⟩
    obtain rfl : o = .faulted (.address 9 1) := ho
    refine ⟨e, seen, hrun, (runProgram_append hfaulty hpc hrun).1 _ (fun _ h => nomatch h)
      (by simp) ?_⟩
    rintro f ⟨⟩
    decide
  · obtain ⟨⟨e, seen, o⟩, hrun, ho, hsteps⟩ : ∃ out, runProgram loop m {} 10 record [] = .ok out ∧
        out.2.2 = .halted true ∧ out.1.steps = 5 := ⟨_, rfl, by decide +kernel, by decide +kernel⟩
    obtain rfl : o = .halted true := ho
    have hfive : e.steps = 5 := hsteps
    exact ⟨e, seen, hrun, hfive, (runProgram_append hloop hpc hrun).2 rfl (by rw [hfive]; decide)⟩

end WordMachine
