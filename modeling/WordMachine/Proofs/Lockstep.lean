import WordMachine.Proofs.Steps

/-!
Two runs in lockstep. Where each step of the one is answered by a step of the other, the runs go on
together and end alike. A step of the first run may be left unanswered if it ends that run by a
fault that is excused.
-/
namespace WordMachine

/-- Steps that end in the same way, with instructions and faults that correspond. -/
inductive Signal.Matches (shown : Instruction → Instruction → Prop)
    (faults : Fault → Fault → Prop) :
    Signal → Signal → Prop
  | next {op op' : Instruction} (h : shown op op') : Matches shown faults (.next op) (.next op')
  | halt : Matches shown faults .halt .halt
  | fault {f f' : Fault} (h : faults f f') : Matches shown faults (.fault f) (.fault f')
  | crash {err : Error} : Matches shown faults (.crash err) (.crash err)

/-- Runs that end in the same way, with faults that correspond. -/
inductive Ending.Matches (faults : Fault → Fault → Prop) : Ending → Ending → Prop
  | halted {implicit : Bool} : Matches faults (.halted implicit) (.halted implicit)
  | faulted {f f' : Fault} (h : faults f f') : Matches faults (.faulted f) (.faulted f')
  | crashed {err : Error} : Matches faults (.crashed err) (.crashed err)

theorem Signal.Matches.of_eq {signal signal' : Signal} (h : signal' = signal) :
    signal.Matches (fun op op' => op' = op) (fun f f' => f' = f) signal' := by
  subst h
  cases signal' with
  | next op => exact .next rfl
  | halt => exact .halt
  | fault f => exact .fault rfl
  | crash err => exact .crash

theorem Ending.Matches.eq {o o' : Ending} (h : o.Matches (fun f f' => f' = f) o') : o' = o := by
  cases h with
  | faulted hf => rw [hf]
  | _ => rfl

/-- How two runs correspond, and the faults by which the first may end alone. -/
structure Correspondence where
  engines : Engine → Engine → Prop
  shown : Instruction → Instruction → Prop
  /-- Faults that end both runs, given where the first of them stands. -/
  faults : Engine → Fault → Fault → Prop
  excused : Fault → Prop

namespace Correspondence

/-- Engines that correspond are at the end of their programs together, and take steps that
correspond. -/
structure Lockstep (c : Correspondence) (p p' : Program) : Prop where
  finished : ∀ {e e'}, c.engines e e' →
    (e.machine.pc.toInt? = some (p.size : Int) ↔ e'.machine.pc.toInt? = some (p'.size : Int))
  exhausted : ∀ {e e'}, c.engines e e' → ∀ limit,
    c.faults e (.stepLimit limit e.machine.pc) (.stepLimit limit e'.machine.pc)
  step : ∀ {e e'}, c.engines e e' →
    (∃ f, (e.step p).2 = .fault f ∧ c.excused f) ∨
      c.engines (e.step p).1 (e'.step p').1 ∧
        (e.step p).2.Matches c.shown (c.faults (e.step p).1) (e'.step p').2

variable {c : Correspondence} {p p' : Program} {σ τ : Type}

/-- Runs in lockstep end alike, and what their observers have seen corresponds. -/
theorem Lockstep.runFor (h : c.Lockstep p p') {observe : σ → Machine → Instruction → σ}
    {observe' : τ → Machine → Instruction → τ} (views : σ → τ → Prop)
    (hobserve : ∀ {acc acc' e e' op op'}, views acc acc' → c.engines e e' → c.shown op op' →
      views (observe acc e.machine op) (observe' acc' e'.machine op'))
    (limit left : Nat) {e e' : Engine} {acc : σ} {acc' : τ} (he : c.engines e e')
    (hv : views acc acc') :
    (∃ f, (Engine.runFor p limit observe left e acc).2.2 = .faulted f ∧ c.excused f) ∨
      c.engines (Engine.runFor p limit observe left e acc).1
        (Engine.runFor p' limit observe' left e' acc').1 ∧
        views (Engine.runFor p limit observe left e acc).2.1
          (Engine.runFor p' limit observe' left e' acc').2.1 ∧
        (Engine.runFor p limit observe left e acc).2.2.Matches
          (c.faults (Engine.runFor p limit observe left e acc).1)
          (Engine.runFor p' limit observe' left e' acc').2.2 := by
  induction left generalizing e e' acc acc' with
  | zero =>
    right
    by_cases hpc : e.machine.pc.toInt? = some (p.size : Int)
    · rw [Engine.runFor_end hpc, Engine.runFor_end ((h.finished he).mp hpc)]
      exact ⟨he, hv, .halted⟩
    · rw [Engine.runFor_zero hpc, Engine.runFor_zero (mt (h.finished he).mpr hpc)]
      exact ⟨he, hv, .faulted (h.exhausted he limit)⟩
  | succ left ih =>
    by_cases hpc : e.machine.pc.toInt? = some (p.size : Int)
    · right
      rw [Engine.runFor_end hpc, Engine.runFor_end ((h.finished he).mp hpc)]
      exact ⟨he, hv, .halted⟩
    · rw [Engine.runFor_succ hpc, Engine.runFor_succ (mt (h.finished he).mpr hpc)]
      rcases h.step he with ⟨f, hf, hx⟩ | ⟨he₁, hsignal⟩
      · left
        generalize e.step p = out at hf ⊢
        obtain ⟨e₁, signal⟩ := out
        obtain rfl : signal = .fault f := hf
        exact ⟨f, rfl, hx⟩
      · generalize e.step p = out at he₁ hsignal ⊢
        generalize e'.step p' = out' at he₁ hsignal ⊢
        obtain ⟨e₁, signal⟩ := out
        obtain ⟨e₁', signal'⟩ := out'
        cases hsignal with
        | next hop => exact ih he₁ (hobserve hv he₁ hop)
        | halt => exact Or.inr ⟨he₁, hv, .halted⟩
        | fault hf => exact Or.inr ⟨he₁, hv, .faulted hf⟩
        | crash => exact Or.inr ⟨he₁, hv, .crashed⟩

end Correspondence
end WordMachine
