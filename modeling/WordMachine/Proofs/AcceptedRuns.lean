import WordMachine.Proofs.DecodeFaults
import WordMachine.Proofs.Resume
import WordMachine.Proofs.RoundTrip

/-!
Runs of programs that were accepted. The checks that the machine makes of the shape of an
instruction find nothing: a run meets no fault in decoding but the unforeseen ones, its queries
count into a register, and its insertions are of whole triples.
-/
namespace WordMachine

def Triple.Whole (t : Triple) : Prop := ∀ c ∈ t.components, c.isSome = true

/-- A triple store stays one, and the triples that it gains are whole. -/
def Services.GainsWhole (s s' : Services) : Prop :=
  ∀ st, s.triples = some (.store st) → ∃ st', s'.triples = some (.store st') ∧
    ∀ t ∈ st'.triples, t ∈ st.triples ∨ t.Whole

namespace Services.GainsWhole

variable {s s' s'' : Services}

theorem of_eq (h : s'.triples = s.triples) : s.GainsWhole s' :=
  fun st hst => ⟨st, h.trans hst, fun _ ht => Or.inl ht⟩

theorem trans (h : s.GainsWhole s') (h' : s'.GainsWhole s'') : s.GainsWhole s'' := by
  intro st hst
  obtain ⟨st', hst', hw⟩ := h st hst
  obtain ⟨st'', hst'', hw'⟩ := h' st' hst'
  refine ⟨st'', hst'', fun t ht => ?_⟩
  rcases hw' t ht with ht | ht
  · exact hw t ht
  · exact Or.inr ht

end Services.GainsWhole

namespace Effect

variable {m : Machine} {subject relation object outAddress : Field Argument} {countReg : Field Int}

/-- What a valid insertion hands to the store is whole. -/
theorem whole_of_insert
    (hv : (Instruction.triple (.known .insert) subject relation object countReg outAddress).Valid)
    {t : Triple} (ht : resolveTriple m subject relation object = .ok t) : t.Whole := by
  intro c hc
  obtain ⟨x, rfl, -⟩ := resolveTriple_settles.of_ok ht (operands_of_insert hv) c hc
  rfl

theorem ofTriple_gainsWhole {action : Field TripleAction} (s : Services)
    (hv : (Instruction.triple action subject relation object countReg outAddress).Valid) :
    s.GainsWhole (ofTriple m s action subject relation object countReg outAddress).1 := by
  obtain ⟨action, rfl⟩ := hv.2.1
  unfold ofTriple
  split
  next => exact .of_eq rfl
  next store hstore =>
    split
    next => exact .of_eq rfl
    next t ht =>
      cases action with
      | insert =>
        dsimp only
        split
        next => exact .of_eq rfl
        next store' hok =>
          intro st hst
          obtain rfl := Option.some.inj (hstore.symm.trans hst)
          cases hok
          refine ⟨st.insert t, rfl, fun x hx => ?_⟩
          rcases TripleStore.mem_insert hx with hx | rfl
          · exact Or.inl hx
          · exact Or.inr (whole_of_insert hv ht)
      | queryExact => exact .of_eq rfl
      | queryByBasin =>
        dsimp only
        split
        next => exact .of_eq rfl
        next => exact .of_eq rfl

theorem ofInstruction_gainsWhole (size : Nat) (m : Machine) (s : Services) {op : Instruction}
    (hv : op.Valid) : s.GainsWhole (ofInstruction size m s op).1 := by
  cases op with
  | content action d address l =>
    change s.GainsWhole (ofContent m s action d address l).1
    rcases @ofContent_cases m action d l address s with ⟨he, -⟩ |
      ⟨st, st', chars, key, -, -, -, -, he⟩
    · rw [he]
      exact .of_eq rfl
    · rw [he]
      exact .of_eq rfl
  | triple action sub r o count out => exact ofTriple_gainsWhole s hv
  | _ => exact .of_eq rfl

end Effect

namespace Engine

/-- The instruction that the counter points at applies a rule that is missed, at the word in the
register that it names. -/
def Misses (p : Program) (e : Engine) (name : String) : Prop :=
  ∃ reg x d, fetch p e.machine.pc = .ok (.applyRule (.known name) (.known reg)) ∧
    e.machine.registers.get (.known reg) = .ok x ∧ e.services.dynamics = some d ∧ d.Misses name x

variable {p : Program} (hp : p.Valid)
include hp

theorem step_excused {e e' : Engine} {f : Fault} (h : e.step p = (e', .fault f)) :
    f.Excused e.machine.width (e'.Misses p) := by
  unfold step at h
  split at h
  next err herr =>
    obtain rfl := ofError_eq_fault (Prod.mk.inj h).2
    rcases (fetch_settles p _).of_error herr with hf | ⟨hf, -⟩
    · obtain rfl := Error.fault.inj hf
      exact Fault.excused_of_kind nofun
    · cases hf
  next op hop =>
    obtain ⟨rfl, hf⟩ := execute_fault h
    have hv : op.Valid := hp op ((fetch_settles p _).of_ok hop)
    refine (Effect.ofInstruction_excused p.size e.beginStep.machine e.beginStep.services hv
      ?_).of_error hf
    rintro name reg x d rfl hx hd hmiss
    exact ⟨reg, x, d, hop, hx, hd, hmiss⟩

/-- A step keeps the width of the machine and stores no triple with a word missing. -/
theorem step_gainsWhole (e : Engine) :
    (e.step p).1.machine.width = e.machine.width ∧
      e.services.GainsWhole (e.step p).1.services := by
  unfold step
  split
  next => exact ⟨rfl, .of_eq rfl⟩
  next op hop =>
    have hv : op.Valid := hp op ((fetch_settles p _).of_ok hop)
    obtain ⟨hshape, hservices, -⟩ := execute_keeps p.size op e.beginStep
    rw [hservices]
    exact ⟨hshape.width, Effect.ofInstruction_gainsWhole p.size e.beginStep.machine e.services hv⟩

theorem runFor_excused {σ : Type} (observe : σ → Machine → Instruction → σ) (limit left : Nat)
    (e : Engine) (acc : σ) :
    (∀ f, (runFor p limit observe left e acc).2.2 = .faulted f →
        f.Excused e.machine.width ((runFor p limit observe left e acc).1.Misses p)) ∧
      e.services.GainsWhole (runFor p limit observe left e acc).1.services := by
  obtain ⟨e₁, e₂, seen, ending, hrun, hreach, hstop⟩ :=
    runFor_stops limit left (.start : Reaches p observe e acc e acc)
  rw [hrun]
  have hreached : e₁.machine.width = e.machine.width ∧ e.services.GainsWhole e₁.services := by
    clear hrun hstop
    induction hreach with
    | start => exact ⟨rfl, .of_eq rfl⟩
    | @next e₁ e₂ seen op _ hstep ih =>
      have hkeep := step_gainsWhole hp e₁
      rw [hstep] at hkeep
      exact ⟨hkeep.1.trans ih.1, ih.2.trans hkeep.2⟩
  obtain ⟨hwidth, hgain⟩ := hreached
  have hkeep := (step_gainsWhole hp e₁).2
  cases hstop with
  | finished _ => exact ⟨fun _ hf => (nomatch hf), hgain⟩
  | exhausted =>
    refine ⟨fun f hf => ?_, hgain⟩
    obtain rfl := Ending.faulted.inj hf
    exact Fault.excused_of_kind nofun
  | halt hstep =>
    rw [hstep] at hkeep
    exact ⟨fun _ hf => (nomatch hf), hgain.trans hkeep⟩
  | fault hstep =>
    rw [hstep] at hkeep
    refine ⟨fun f hf => ?_, hgain.trans hkeep⟩
    obtain rfl := Ending.faulted.inj hf
    rw [← hwidth]
    exact step_excused hp hstep
  | crash hstep =>
    rw [hstep] at hkeep
    exact ⟨fun _ hf => (nomatch hf), hgain.trans hkeep⟩

end Engine

theorem runProgram_excused {σ : Type} {p : Program} (hp : p.Valid) {m : Machine} {s : Services}
    {limit : Int} {observe : σ → Machine → Instruction → σ} {acc acc' : σ} {e : Engine}
    {ending : Ending} (h : runProgram p m s limit observe acc = .ok (e, acc', ending)) :
    (∀ f, ending = .faulted f → f.Excused m.width (e.Misses p)) ∧ s.GainsWhole e.services := by
  by_cases hl : 0 < limit
  · rw [runProgram_eq hl] at h
    obtain ⟨hfault, hgain⟩ :=
      Engine.runFor_excused hp observe limit.toNat limit.toNat ⟨m, s, 0⟩ acc
    obtain ⟨rfl, -, rfl⟩ := by simpa only [Except.ok.injEq, Prod.mk.injEq] using h
    refine ⟨fun f hf => hfault f ?_, hgain⟩
    rcases reportable_eq_or_crashed _ _ with hr | ⟨err, hr⟩
    · exact hr.symm.trans hf
    · rw [hr] at hf
      cases hf
  · unfold runProgram Engine.checkLimit at h
    rw [if_pos (Int.not_lt.mp hl)] at h
    cases h

namespace Program

/-- What is left to the machine once a program has been accepted. What is read is valid, and no
step of a valid program meets a fault in decoding but the unforeseen ones. An insertion hands over
a whole triple, whatever the registers hold, and any other request to the triple store has a
register for its count. So a run, whatever the services hold and whoever looks on, ends by no other
fault in decoding, and adds none but whole triples to the store. The services raise no fault of the
machine of their own. -/
theorem decode_leaves_unforeseen {p : Program} :
    (∀ {room : Option ℕ} {j : Json}, decode room j = .ok p → p.Valid) ∧
    (p.Valid →
      (∀ {e e' : Engine} {f : Fault}, e.step p = (e', .fault f) → f.kind = .decode →
        f.Unforeseen e.machine.width (e'.Misses p)) ∧
      (∀ {pc countReg : Field Int} {action : Field TripleAction}
        {subject relation object outAddress : Field Argument},
        Engine.fetch p pc = .ok (.triple action subject relation object countReg outAddress) →
          action = .known .insert ∧
              (∀ {m : Machine} {t : Triple},
                Effect.resolveTriple m subject relation object = .ok t → t.Whole) ∨
            (action = .known .queryExact ∨ action = .known .queryByBasin) ∧ countReg.Known) ∧
      ∀ {σ : Type} {m : Machine} {s : Services} {limit : Int}
        {observe : σ → Machine → Instruction → σ} {acc acc' : σ} {e : Engine} {ending : Ending},
        runProgram p m s limit observe acc = .ok (e, acc', ending) →
          (∀ f, ending = .faulted f → f.kind = .decode → f.Unforeseen m.width (e.Misses p)) ∧
            ∀ st, s.triples = some (.store st) → ∃ st', e.services.triples = some (.store st') ∧
              ∀ t ∈ st'.triples, t ∈ st.triples ∨ t.Whole) := by
  refine ⟨fun {room} _ h => ((decode_reads room).sound h).1, fun hp => ?_⟩
  refine ⟨Engine.step_excused hp, ?_, runProgram_excused hp⟩
  intro pc countReg action subject relation object outAddress hfetch
  have hv := hp _ ((Engine.fetch_settles p pc).of_ok hfetch)
  obtain ⟨action, rfl⟩ := hv.2.1
  cases action with
  | insert => exact Or.inl ⟨rfl, Effect.whole_of_insert hv⟩
  | queryExact => exact Or.inr ⟨Or.inl rfl, Effect.countReg_of_query hv nofun⟩
  | queryByBasin => exact Or.inr ⟨Or.inr rfl, Effect.countReg_of_query hv nofun⟩

/-- A triple is stored, and then a rule is asked for that is not there. -/
theorem decode_leaves_unforeseen_example :
    let z : Word := ⟨4, 0, by decide, by decide⟩
    let d : Dynamics := ⟨.builtin, "collatz", .collatz, ∅⟩
    let r : Field Argument := .known (.reg 0)
    let p : Program := ⟨"main", #[.triple (.known .insert) r r r .null .null,
      .applyRule (.known "halve") (.known 0)]⟩
    let m : Machine := ⟨⟨4, Vector.replicate 4 z⟩, {}, ⟨4, #[z]⟩, .known 0, 0⟩
    let count : Nat → Machine → Instruction → Nat := fun k _ _ => k + 1
    decode Word.usualRoom p.toJson = .ok p ∧
      ∃ e acc, runProgram p m ⟨none, some (.store (.empty none)), some d⟩ 10 count 0 =
          .ok (e, acc, .faulted (.unknownRule "halve")) ∧
        (Fault.unknownRule "halve").Unforeseen 4 (e.Misses p) ∧
        ∃ st, e.services.triples = some (.store st) ∧
          ∀ t ∈ st.triples, t ∈ ([] : List Triple) ∨ t.Whole := by
  intro z d r p m count
  have hdecode : decode Word.usualRoom p.toJson = .ok p := by with_unfolding_all rfl
  have hrun : ∃ e acc, runProgram p m ⟨none, some (.store (.empty none)), some d⟩ 10 count 0 =
      .ok (e, acc, .faulted (.unknownRule "halve")) := ⟨_, _, by with_unfolding_all rfl⟩
  obtain ⟨e, acc, hrun⟩ := hrun
  have hp : p.Valid := decode_leaves_unforeseen.1 hdecode
  obtain ⟨hfault, hstore⟩ := (decode_leaves_unforeseen.2 hp).2.2 hrun
  exact ⟨hdecode, e, acc, hrun, hfault _ rfl rfl, hstore _ rfl⟩

end Program
end WordMachine
