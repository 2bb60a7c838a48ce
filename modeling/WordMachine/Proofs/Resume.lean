import WordMachine.Proofs.Steps

/-!
Resuming a run. All that a run needs to go on is in the machine and the services: a run that was
stopped by its limit and is taken up again ends as the run with the larger limit does.
-/
namespace WordMachine

namespace Ending

def Exhausted (o : Ending) : Prop := ∃ f, o = .faulted f ∧ f.kind = .resource

def withLimit (limit : Nat) : Ending → Ending
  | .faulted (.stepLimit _ pc) => .faulted (.stepLimit limit pc)
  | o => o

theorem exhausted_stepLimit (limit : Nat) (pc : Field Int) :
    Exhausted (.faulted (.stepLimit limit pc)) :=
  ⟨_, rfl, rfl⟩

theorem not_exhausted_halted {implicit : Bool} : ¬ Exhausted (.halted implicit) := by
  rintro ⟨f, hf, -⟩
  cases hf

theorem not_exhausted_crashed {err : Error} : ¬ Exhausted (.crashed err) := by
  rintro ⟨f, hf, -⟩
  cases hf

theorem withLimit_of_not_exhausted {o : Ending} (h : ¬ o.Exhausted) (limit : Nat) :
    o.withLimit limit = o := by
  unfold withLimit
  split
  next old pc => exact absurd (exhausted_stepLimit old pc) h
  next => rfl

end Ending

namespace Engine

def counted (k : Nat) (e : Engine) : Engine := { e with steps := k + e.steps }

theorem execute_counted (k size : Nat) (op : Instruction) (e : Engine) :
    (e.counted k).execute size op = ((e.execute size op).1.counted k, (e.execute size op).2) := by
  obtain ⟨machine, services, steps⟩ := e
  unfold execute counted
  dsimp only
  cases Effect.ofInstruction size machine services op with
  | mk services' r =>
    cases r with
    | error err => rfl
    | ok effect =>
      dsimp only
      cases effect.commit machine with
      | mk machine' o => cases o <;> rfl

/-- Counting is not looked at by a step. -/
theorem step_counted (k : Nat) (p : Program) (e : Engine) :
    (e.counted k).step p = ((e.step p).1.counted k, (e.step p).2) := by
  have hpc : (e.counted k).machine.pc = e.machine.pc := rfl
  unfold step
  rw [hpc]
  cases fetch p e.machine.pc with
  | error err => rfl
  | ok op => exact execute_counted k p.size op e.beginStep

theorem step_steps {p : Program} {e e' : Engine} {op : Instruction}
    (h : e.step p = (e', .next op)) : e'.steps = e.steps + 1 := by
  unfold step at h
  split at h
  next err _ => cases err <;> cases h
  next op' _ =>
    rw [← congrArg (·.1.steps) h]
    exact (execute_keeps p.size op' e.beginStep).2.2

/-- The limit on steps is not a step's to fault by. -/
theorem step_not_exhausted {p : Program} {e e' : Engine} {f : Fault}
    (h : e.step p = (e', .fault f)) : ¬ (Ending.faulted f).Exhausted := by
  rintro ⟨g, hg, hk⟩
  obtain rfl := Ending.faulted.inj hg
  rcases step_fault_cases h with ⟨rfl, -⟩ | ⟨hrun, -⟩
  · cases hk
  · cases f with
    | stepLimit limit pc => cases hrun
    | _ => cases hk

section Run
variable {σ : Type} {p : Program} {observe : σ → Machine → Instruction → σ}

/-- A run ends within its limit, and a larger limit then makes no difference; or it is stopped when
all its steps are used, and under a larger limit it would go on from there. -/
theorem runFor_split (limit limit' left more : Nat) (e : Engine) (acc : σ) :
    ¬ (runFor p limit observe left e acc).2.2.Exhausted ∧
        runFor p limit' observe (left + more) e acc = runFor p limit observe left e acc ∨
      (runFor p limit observe left e acc).2.2.Exhausted ∧
        (runFor p limit observe left e acc).1.steps = e.steps + left ∧
        runFor p limit' observe (left + more) e acc =
          runFor p limit' observe more (runFor p limit observe left e acc).1
            (runFor p limit observe left e acc).2.1 := by
  induction left generalizing e acc with
  | zero =>
    by_cases hpc : e.machine.pc.toInt? = some (p.size : Int)
    · left
      rw [runFor_end hpc, runFor_end hpc]
      exact ⟨Ending.not_exhausted_halted, rfl⟩
    · right
      rw [runFor_zero hpc, Nat.zero_add]
      exact ⟨Ending.exhausted_stepLimit _ _, rfl, rfl⟩
  | succ left ih =>
    by_cases hpc : e.machine.pc.toInt? = some (p.size : Int)
    · left
      rw [runFor_end hpc, runFor_end hpc]
      exact ⟨Ending.not_exhausted_halted, rfl⟩
    · rw [Nat.succ_add, runFor_succ hpc, runFor_succ hpc]
      cases he : e.step p with
      | mk e' signal =>
        cases signal with
        | next op =>
          have hs := step_steps he
          rcases ih e' (observe acc e'.machine op) with ⟨hn, heq⟩ | ⟨hx, hsteps, heq⟩
          · exact Or.inl ⟨hn, heq⟩
          · exact Or.inr ⟨hx, by dsimp only at hsteps ⊢; omega, heq⟩
        | halt => exact Or.inl ⟨Ending.not_exhausted_halted, rfl⟩
        | fault f => exact Or.inl ⟨step_not_exhausted he, rfl⟩
        | crash err => exact Or.inl ⟨Ending.not_exhausted_crashed, rfl⟩

/-- What was counted before a run shows only in the count and in the limit that it tells. -/
theorem runFor_counted (k limit limit' left : Nat) (e : Engine) (acc : σ) :
    runFor p limit' observe left (e.counted k) acc =
      ((runFor p limit observe left e acc).1.counted k, (runFor p limit observe left e acc).2.1,
        (runFor p limit observe left e acc).2.2.withLimit limit') := by
  have hpc' : (e.counted k).machine.pc = e.machine.pc := rfl
  induction left generalizing e acc with
  | zero =>
    by_cases hpc : e.machine.pc.toInt? = some (p.size : Int)
    · rw [runFor_end hpc, runFor_end (hpc' ▸ hpc)]
      rfl
    · rw [runFor_zero hpc, runFor_zero (hpc' ▸ hpc)]
      rfl
  | succ left ih =>
    by_cases hpc : e.machine.pc.toInt? = some (p.size : Int)
    · rw [runFor_end hpc, runFor_end (hpc' ▸ hpc)]
      rfl
    · rw [runFor_succ hpc, runFor_succ (hpc' ▸ hpc), step_counted]
      cases he : e.step p with
      | mk e' signal =>
        cases signal with
        | next op => exact ih e' (observe acc e'.machine op) rfl
        | halt => rfl
        | fault f =>
          dsimp only
          rw [Ending.withLimit_of_not_exhausted (step_not_exhausted he)]
        | crash err => rfl

end Run

end Engine

theorem reportable_eq_or_crashed (e : Engine) (o : Ending) :
    reportable e o = o ∨ ∃ err, reportable e o = .crashed err := by
  unfold reportable
  split
  next f =>
    split
    · split
      · exact Or.inl rfl
      · exact Or.inr ⟨_, rfl⟩
    · exact Or.inr ⟨_, rfl⟩
  next => exact Or.inl rfl

/-- A run under a limit, and one under a larger limit. If the first ends by itself, both are the
same. If it is stopped by the limit, the second is the first continued: it ends in the same state
with the same services and has shown the same to the observer, and its outcome is that of the
continuation, with the steps of the first counted and the limit told being its own. Runs that break
down are left out. -/
theorem runProgram_resume {σ : Type} (p : Program) (machine : Machine) (services : Services)
    {m n : Int} (hm : 0 < m) (hn : 0 < n) (observe : σ → Machine → Instruction → σ) (acc : σ) :
    ∃ e₁ acc₁ o₁, runProgram p machine services m observe acc = .ok (e₁, acc₁, o₁) ∧
      ((∀ err, o₁ ≠ .crashed err) → ¬ o₁.Exhausted →
        runProgram p machine services (m + n) observe acc = .ok (e₁, acc₁, o₁)) ∧
      (o₁.Exhausted → ∃ e₂ acc₂ o₂ o,
        runProgram p e₁.machine e₁.services n observe acc₁ = .ok (e₂, acc₂, o₂) ∧
        runProgram p machine services (m + n) observe acc = .ok (e₂.counted m.toNat, acc₂, o) ∧
        ((∀ err, o₂ ≠ .crashed err) → (∀ err, o ≠ .crashed err) →
          o = o₂.withLimit (m + n).toNat)) := by
  have hsum : m.toNat + n.toNat = (m + n).toNat :=
    (Int.toNat_add (Int.le_of_lt hm) (Int.le_of_lt hn)).symm
  have hsplit := @Engine.runFor_split σ p observe m.toNat (m + n).toNat m.toNat n.toNat
    ⟨machine, services, 0⟩ acc
  have hfirst := @runProgram_eq σ p machine services m observe acc hm
  have hlong := @runProgram_eq σ p machine services (m + n) observe acc (Int.add_pos hm hn)
  rw [hsum] at hsplit
  generalize Engine.runFor p m.toNat observe m.toNat ⟨machine, services, 0⟩ acc =
    first at hsplit hfirst
  obtain ⟨e₁, acc₁, raw⟩ := first
  dsimp only at hsplit hfirst
  refine ⟨e₁, acc₁, reportable e₁ raw, hfirst, fun hc hx => ?_, fun hx => ?_⟩
  · have hrep : reportable e₁ raw = raw :=
      (reportable_eq_or_crashed e₁ raw).resolve_right fun ⟨err, h⟩ => hc err h
    rw [hrep] at hx
    rcases hsplit with ⟨-, heq⟩ | ⟨hx', -⟩
    · rw [hlong, heq]
    · exact absurd hx' hx
  · have hrep : reportable e₁ raw = raw := by
      refine (reportable_eq_or_crashed e₁ raw).resolve_right fun ⟨err, h⟩ => ?_
      rw [h] at hx
      exact Ending.not_exhausted_crashed hx
    rw [hrep] at hx
    rcases hsplit with ⟨hx', -⟩ | ⟨-, hsteps, heq⟩
    · exact absurd hx hx'
    · have he₁ : e₁ = Engine.counted m.toNat ⟨e₁.machine, e₁.services, 0⟩ := by
        obtain ⟨machine₁, services₁, steps₁⟩ := e₁
        simp only [Nat.zero_add] at hsteps
        rw [hsteps]
        rfl
      rw [heq, he₁, Engine.runFor_counted m.toNat n.toNat (m + n).toNat] at hlong
      refine ⟨_, _, _, _, runProgram_eq hn, hlong, fun hc₂ hc => ?_⟩
      rw [(reportable_eq_or_crashed _ _).resolve_right fun ⟨err, h⟩ => hc err h,
        (reportable_eq_or_crashed _ _).resolve_right fun ⟨err, h⟩ => hc₂ err h]

/-- Two of three instructions, and then the halt. -/
theorem runProgram_resume_halt :
    let z : Word := ⟨4, 0, by decide, by decide⟩
    let machine : Machine := ⟨⟨4, Vector.replicate 4 z⟩, {}, ⟨4, #[z]⟩, .known 0, 0⟩
    let move : Instruction := .moveReg (.known 1) (.known 0)
    let p : Program := ⟨"main", #[move, move, .halt]⟩
    let count : Nat → Machine → Instruction → Nat := fun k _ _ => k + 1
    ∃ e₁ acc₁ o₁, runProgram p machine {} 2 count 0 = .ok (e₁, acc₁, o₁) ∧ o₁.Exhausted ∧
      ∃ e₂ acc₂ o₂ o, runProgram p e₁.machine e₁.services 1 count acc₁ = .ok (e₂, acc₂, o₂) ∧
        runProgram p machine {} 3 count 0 = .ok (e₂.counted 2, acc₂, o) := by
  intro z machine move p count
  obtain ⟨e₁, acc₁, o₁, h₁, -, hx⟩ := runProgram_resume p machine {} (show (0 : Int) < 2 by decide)
    (show (0 : Int) < 1 by decide) count 0
  have h : (runProgram p machine {} 2 count 0).toOption.map (·.2.2) =
      some (.faulted (.stepLimit 2 (.known 2))) := by decide +kernel
  have ho : o₁.Exhausted := by
    rw [h₁] at h
    obtain rfl : o₁ = .faulted (.stepLimit 2 (.known 2)) := Option.some.inj h
    exact Ending.exhausted_stepLimit _ _
  obtain ⟨e₂, acc₂, o₂, o, h₂, h₃, -⟩ := hx ho
  exact ⟨e₁, acc₁, o₁, h₁, ho, e₂, acc₂, o₂, o, h₂, h₃⟩

end WordMachine
