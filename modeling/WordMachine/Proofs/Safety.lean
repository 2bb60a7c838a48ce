import WordMachine.Proofs.Steps

/-!
Runs that share services. Valid programs on well-formed machines of one width keep the services
sound, so that every run, one after another, halts or faults and stays within the words of that
width.
-/
namespace WordMachine

/-- Four registers and the given number of cells, all holding words of the given width. -/
structure Machine.Filled (w size : Nat) (m : Machine) : Prop where
  registers : m.registers.values.toList.length = 4
  register : ∀ v ∈ m.registers.values, v.width = w ∧ v.value < Word.card w
  cells : m.memory.cells.size = size
  cell : ∀ v ∈ m.memory.cells, v.width = w ∧ v.value < Word.card w

theorem Machine.WellFormed.filled {m : Machine} (h : m.WellFormed) :
    m.Filled m.width m.memory.size := by
  obtain ⟨hr, hm, hw, -⟩ := h
  have word {v : Word} (hv : v.width = m.width) :
      v.width = m.width ∧ v.value < Word.card m.width :=
    ⟨hv, hv ▸ v.value_lt⟩
  refine ⟨by simp, fun v hv => word ?_, rfl, fun v hv => word ((hm v hv).trans hw)⟩
  obtain ⟨i, hi, rfl⟩ := Vector.mem_iff_getElem.mp hv
  exact hr ⟨i, hi⟩

/-- A proper effect is carried out and leaves a well-formed machine. -/
theorem Effect.commit_wellFormed {e : Effect} {m : Machine} (hf : e.Fits m) (hp : e.Proper m)
    (hm : m.WellFormed) : ∃ m', e.commit m = (m', none) ∧ m'.WellFormed := by
  obtain ⟨hregs, hmem, hw, hpc⟩ := hm
  cases hr : writeRegister m.registers e.register with
  | error err => exact absurd (fun {i v} h => hp.register h) (writeRegister_error hf.register hr).2
  | ok registers =>
    obtain ⟨hwidth, -, hcells⟩ := m.memory.writeAll_keeps e.cells.1 e.cells.2
    obtain ⟨hrw, hrf⟩ := writeRegister_keeps hr
    refine ⟨_, commit_eq hf.cells (fun v hv => (hp.cells v hv).trans hw.symm) hp.gap hr, hrf hregs,
      hcells hmem, (hwidth.trans hw).trans hrw.symm, ?_⟩
    change (e.next.getD m.pc).Known
    cases hn : e.next with
    | none => exact hpc
    | some pc => exact hp.next hn

namespace Engine

/-- The machine is well-formed and of the given width and size, and the services are sound. -/
structure Sound (w size : Nat) (e : Engine) : Prop where
  machine : e.machine.WellFormed
  width : e.machine.width = w
  memorySize : e.machine.memory.size = size
  services : e.services.Sound w

theorem Sound.filled {w size : Nat} {e : Engine} (h : e.Sound w size) :
    e.machine.Filled w size := by
  rw [← h.width, ← h.memorySize]
  exact h.machine.filled

theorem Sound.beginStep {w size : Nat} {e : Engine} (h : e.Sound w size) :
    e.beginStep.Sound w size :=
  ⟨h.machine, h.width, h.memorySize, h.services⟩

/-- A valid instruction goes through or faults, and leaves a sound engine. -/
theorem execute_sound {w size n : Nat} {op : Instruction} {e : Engine} (hv : op.Valid)
    (h : e.Sound w size) :
    (e.execute n op).1.Sound w size ∧ ∀ err, (e.execute n op).2 ≠ .crash err := by
  obtain ⟨hm, rfl, rfl, hs⟩ := h
  obtain ⟨hb, hs'⟩ := @Effect.ofInstruction_behaves e.machine True n e.services op (fun _ => hm)
    (fun _ => hv) fun _ => hs
  rcases execute_cases n op e with ⟨err, herr, he⟩ | ⟨effect, hok, hf, hrest⟩
  · rw [he]
    refine ⟨⟨hm, rfl, rfl, hs' trivial⟩, ?_⟩
    have hfault := (hb.of_error herr).2 trivial
    cases err with
    | fault f => exact fun _ h => nomatch h
    | _ => cases hfault
  · obtain ⟨machine, hc, hm'⟩ := Effect.commit_wellFormed hf ((hb.of_ok hok).2 trivial) hm
    have hshape := effect.commit_sameShape e.machine
    rw [hc] at hshape hrest
    rcases hrest with ⟨_, err, hc', -, -⟩ | ⟨_, hc', he⟩
    · cases hc'
    · obtain ⟨rfl, -⟩ := Prod.mk.inj hc'
      rw [he]
      refine ⟨⟨hm', hshape.width, hshape.memorySize, hs' trivial⟩, ?_⟩
      dsimp only
      split <;> exact fun _ h => nomatch h

theorem step_sound {w size : Nat} {p : Program} {e : Engine} (hp : p.Valid) (h : e.Sound w size) :
    (e.step p).1.Sound w size ∧ ∀ err, (e.step p).2 ≠ .crash err := by
  unfold step
  split
  next err herr =>
    refine ⟨h, ?_⟩
    rcases (fetch_settles p _).of_error herr with rfl | ⟨-, hn⟩
    · exact fun _ h => nomatch h
    · exact absurd h.machine.2.2.2 hn
  next op hop => exact execute_sound (hp op ((fetch_settles p _).of_ok hop)) h.beginStep

variable {σ : Type}

/-- A run keeps the engine sound and does not break down. What holds of an observer's view from one
filled machine to the next holds of it in the end. -/
theorem runFor_sound {w size : Nat} {p : Program} {observe : σ → Machine → Instruction → σ}
    {A : σ → Prop} (hp : p.Valid)
    (hobserve : ∀ acc m op, A acc → m.Filled w size → A (observe acc m op)) (limit left : Nat)
    {e : Engine} {acc : σ} (h : e.Sound w size) (ha : A acc) :
    (runFor p limit observe left e acc).1.Sound w size ∧
      A (runFor p limit observe left e acc).2.1 ∧
      ∀ err, (runFor p limit observe left e acc).2.2 ≠ .crashed err := by
  obtain ⟨e₁, e₂, seen, ending, hrun, hreach, hstop⟩ :=
    runFor_stops limit left (.start : Reaches p observe e acc e acc)
  rw [hrun]
  have hreached : e₁.Sound w size ∧ A seen := by
    clear hrun hstop
    induction hreach with
    | start => exact ⟨h, ha⟩
    | next _ hstep ih =>
      have hs := (step_sound hp ih.1).1
      rw [hstep] at hs
      exact ⟨hs, hobserve _ _ _ ih.2 hs.filled⟩
  obtain ⟨hsound, hview⟩ := hreached
  obtain ⟨hs, hc⟩ := step_sound hp hsound
  cases hstop with
  | finished _ => exact ⟨hsound, hview, fun _ h => nomatch h⟩
  | exhausted => exact ⟨hsound, hview, fun _ h => nomatch h⟩
  | halt hstep =>
    rw [hstep] at hs
    exact ⟨hs, hview, fun _ h => nomatch h⟩
  | fault hstep =>
    rw [hstep] at hs
    exact ⟨hs, hview, fun _ h => nomatch h⟩
  | crash hstep =>
    rw [hstep] at hc
    exact absurd rfl (hc _)

end Engine

/-- A sound machine's ending is reported as it is, unless it is a fault that cannot be told. -/
theorem reportable_known {e : Engine} (h : e.machine.pc.Known) (ending : Ending) :
    reportable e ending = match ending with
      | .faulted f => if f.isTellable then .faulted f else .crashed (.word .digits)
      | ending => ending := by
  obtain ⟨n, hn⟩ := h
  unfold reportable
  rw [hn]
  rfl

/-- What is asked of services that are shared: a run of a program, or content to be kept. -/
inductive Request
  | run (program : Program) (machine : Machine) (limit : Int)
  | enfold (chars : List Word)

/-- A request that runs a program is for a valid one, on a well-formed machine of the width. -/
def Request.Fit (w : Nat) : Request → Prop
  | .run p m limit => p.Valid ∧ m.WellFormed ∧ m.width = w ∧ 0 < limit
  | .enfold _ => True

namespace Services

def serve (s : Services) : Request → Services
  | .run p m limit =>
    match runProgram p m s limit (fun _ _ _ => ()) () with
    | .ok (e, _, _) => e.services
    | .error _ => s
  | .enfold chars =>
    match s.content with
    | none => s
    | some store =>
      match store.enfold chars with
      | .ok (_, store) => { s with content := some store }
      | .error _ => s

def serveAll (s : Services) (requests : List Request) : Services := requests.foldl serve s

/-- Stores that hold nothing yet and a dynamics over the builtin rules, each of which may be
missing. -/
structure Fresh (s : Services) : Prop where
  content : ∀ c, s.content = some c → ∃ width, c = .store (.empty width)
  triples : ∀ t, s.triples = some t → ∃ d, t = .store (.empty d)
  dynamics : ∀ d, s.dynamics = some d → ∃ name, Dynamics.make .builtin name = .ok d

theorem Fresh.sound {s : Services} (h : s.Fresh) (w : Nat) : s.Sound w := by
  refine ⟨fun c hc => ?_, fun t ht => ?_, fun d hd => ?_⟩
  · obtain ⟨width, rfl⟩ := h.content c hc
    exact ⟨_, rfl⟩
  · obtain ⟨d, rfl⟩ := h.triples t ht
    exact ⟨_, rfl, fun x hx => nomatch hx⟩
  · obtain ⟨name, hn⟩ := h.dynamics d hd
    exact Dynamics.make_steady hn

end Services

/-- What a run of a valid program gives, whatever the observer. -/
theorem runProgram_sound {σ : Type} {w : Nat} {p : Program} {m : Machine} {s : Services}
    {limit : Int} {observe : σ → Machine → Instruction → σ} {A : σ → Prop} {acc : σ}
    (hr : (Request.run p m limit).Fit w) (hs : s.Sound w)
    (hobserve : ∀ acc m' op, A acc → m'.Filled w m.memory.size → A (observe acc m' op))
    (ha : A acc) :
    ∃ e seen ending, Engine.run p limit.toNat observe ⟨m, s, 0⟩ acc = (e, seen, ending) ∧
      (∀ err, ending ≠ .crashed err) ∧ e.Sound w m.memory.size ∧ A seen ∧
      runProgram p m s limit observe acc = .ok (e, seen, reportable e ending) := by
  obtain ⟨hp, hm, hw, hl⟩ := hr
  obtain ⟨he, hseen, hc⟩ :=
    Engine.runFor_sound (e := ⟨m, s, 0⟩) hp hobserve limit.toNat limit.toNat
    ⟨hm, hw, rfl, hs⟩ ha
  exact ⟨_, _, _, rfl, hc, he, hseen, runProgram_eq hl⟩

namespace Services

theorem Sound.serve {s : Services} {w : Nat} (h : s.Sound w) {r : Request} (hr : r.Fit w) :
    (s.serve r).Sound w := by
  cases r with
  | run p m limit =>
    obtain ⟨e, seen, ending, -, -, he, -, hrun⟩ := @runProgram_sound Unit w p m s limit
      (fun _ _ _ => ()) (fun _ => True) () hr h (fun _ _ _ _ _ => trivial) trivial
    change (match runProgram p m s limit (fun _ _ _ => ()) () with
      | .ok (e, _, _) => e.services
      | .error _ => s).Sound w
    rw [hrun]
    exact he.services
  | enfold chars =>
    unfold Services.serve
    dsimp only
    split
    next => exact h
    next store hstore =>
      obtain ⟨st, rfl⟩ := h.content store hstore
      split
      next key store' hok =>
        refine ⟨?_, h.triples, h.dynamics⟩
        rintro _ ⟨⟩
        rcases (ContentService.enfold_settles _ chars).of_ok hok with ⟨hn, -⟩ | ⟨-, st', -, rfl, -⟩
        · exact absurd rfl (hn st)
        · exact ⟨st', rfl⟩
      next => exact h

theorem Sound.serveAll {s : Services} {w : Nat} (h : s.Sound w) {requests : List Request}
    (hr : ∀ r ∈ requests, r.Fit w) : (s.serveAll requests).Sound w := by
  induction requests generalizing s with
  | nil => exact h
  | cons r requests ih =>
    exact ih (h.serve (hr r List.mem_cons_self)) fun r' hr' => hr r' (List.mem_cons_of_mem _ hr')

end Services

def record (seen : List (Machine × Instruction)) (m : Machine) (op : Instruction) :
    List (Machine × Instruction) := seen ++ [(m, op)]

/-- After any requests to services that start fresh, a run of a valid program on a well-formed
machine halts or faults, and every machine on the way has its four registers and its cells filled
with words of its width. Only the wording of a fault can be out of reach, where it holds a number
of too many digits. -/
theorem session_halts_or_faults {w : Nat} {s : Services} (hs : s.Fresh) {before : List Request}
    (hb : ∀ r ∈ before, r.Fit w) {p : Program} {m : Machine} {limit : Int} (hp : p.Valid)
    (hm : m.WellFormed) (hw : m.width = w) (hl : 0 < limit) :
    ∃ e seen ending, runProgram p m (s.serveAll before) limit record [] = .ok (e, seen, ending) ∧
      (∀ x ∈ seen, x.1.Filled w m.memory.size) ∧ e.machine.Filled w m.memory.size ∧
      ((∃ implicit, ending = .halted implicit) ∨
        ∃ f, (Engine.run p limit.toNat record ⟨m, s.serveAll before, 0⟩ []).2.2 = .faulted f ∧
          ending = if f.isTellable then .faulted f else .crashed (.word .digits)) := by
  obtain ⟨e, seen, ending, hrun, hc, he, hseen, hres⟩ :=
    @runProgram_sound _ w p m (s.serveAll before)
    limit record (fun seen => ∀ x ∈ seen, x.1.Filled w m.memory.size) [] ⟨hp, hm, hw, hl⟩
    ((hs.sound w).serveAll hb)
    (fun seen m' op hseen hm' x hx => by
      rcases List.mem_append.mp hx with hx | hx
      · exact hseen x hx
      · exact List.mem_singleton.mp hx ▸ hm')
    (fun x hx => nomatch hx)
  refine ⟨e, seen, _, hres, hseen, he.filled, ?_⟩
  rw [hrun, reportable_known he.machine.2.2.2]
  cases ending with
  | halted implicit => exact Or.inl ⟨implicit, rfl⟩
  | faulted f => exact Or.inr ⟨f, rfl, rfl⟩
  | crashed err => exact absurd rfl (hc err)

/-- Two requests before, and a run that uses all three services. -/
theorem session_halts_or_faults_shared :
    let z : Word := ⟨4, 0, by decide, by decide⟩
    let d : Dynamics := ⟨.builtin, "collatz", .collatz, ∅⟩
    let s : Services := ⟨some (.store (.empty 4)), some (.store (.empty none)), some d⟩
    let m : Machine := ⟨⟨4, Vector.replicate 4 z⟩, {}, ⟨4, #[z, z, z]⟩, .known 0, 0⟩
    let r : Field Argument := .known (.reg 0)
    let p : Program := ⟨"main", #[.triple (.known .insert) r r r .null .null,
      .triple (.known .queryByBasin) r .null .null (.known 1) (.known (.absolute 0)),
      .content (.known .enfold) (.known 2) (.known (.absolute 0)) (.known 1), .halt]⟩
    let before : List Request := [.enfold [z], .run p m 10]
    s.Fresh ∧ (∀ r ∈ before, r.Fit 4) ∧
      ∃ e seen ending, runProgram p m (s.serveAll before) 10 record [] = .ok (e, seen, ending) ∧
        (∀ x ∈ seen, x.1.Filled 4 3) ∧ e.machine.Filled 4 3 := by
  intro z d s m r p before
  have hs : s.Fresh := by
    refine ⟨?_, ?_, ?_⟩
    · rintro _ ⟨⟩
      exact ⟨4, rfl⟩
    · rintro _ ⟨⟩
      exact ⟨none, rfl⟩
    · rintro _ ⟨⟩
      exact ⟨"collatz", rfl⟩
  have hr : r.Operand := ⟨.reg 0, rfl, rfl⟩
  have ha : Field.Address (.known (.absolute 0)) := ⟨.absolute 0, rfl, rfl⟩
  have hp : p.Valid := by
    intro i hi
    simp only [p, List.mem_toArray, List.mem_cons, List.not_mem_nil, or_false] at hi
    rcases hi with rfl | rfl | rfl | rfl
    · exact ⟨rfl, ⟨_, rfl⟩, Or.inr hr, Or.inr hr, Or.inr hr, Or.inl rfl, Or.inl rfl⟩
    · exact ⟨rfl, ⟨_, rfl⟩, Or.inr hr, Or.inl rfl, Or.inl rfl, Or.inr ⟨1, rfl⟩, Or.inr ha⟩
    · exact ⟨rfl, ⟨_, rfl⟩, ⟨2, rfl⟩, ha, ⟨1, rfl⟩⟩
    · exact ⟨rfl, trivial⟩
  have hm : m.WellFormed := by
    refine ⟨fun i => ?_, fun v hv => ?_, rfl, 0, rfl⟩
    · simp [m, z]
    · simp only [m, List.mem_toArray, List.mem_cons, List.not_mem_nil, or_false, or_self] at hv
      rw [hv]
  have hb : ∀ r ∈ before, r.Fit 4 := by
    intro r hr
    simp only [before, List.mem_cons, List.not_mem_nil, or_false] at hr
    rcases hr with rfl | rfl
    · trivial
    · exact ⟨hp, hm, rfl, by decide⟩
  obtain ⟨e, seen, ending, hrun, hseen, he, -⟩ := session_halts_or_faults hs hb hp hm rfl
    (show (0 : Int) < 10 by decide)
  exact ⟨hs, hb, e, seen, ending, hrun, hseen, he⟩

/-- The complement of zero is an address of more digits than the fault that refuses it can be
worded with, so that the run ends by neither a halt nor a fault. -/
theorem long_address_escapes :
    let z : Word := ⟨15000, 0, by decide, Word.card_pos 15000⟩
    let m : Machine := ⟨⟨15000, Vector.replicate 4 z⟩, {}, ⟨15000, #[z]⟩, .known 0, 0⟩
    let p : Program := ⟨"main", #[.alu (.known .not) (.known 0) (.known (.reg 0)) .null,
      .load (.known 1) (.known (.indirect 0))]⟩
    p.Valid ∧ m.WellFormed ∧ ({} : Services).Fresh ∧
      (runProgram p m {} 100000 record []).toOption.map (·.2.2) =
        some (.crashed (.word .digits)) := by
  refine ⟨fun i hi => ?_, ⟨fun i => ?_, fun v hv => ?_, rfl, 0, rfl⟩,
    ⟨?_, ?_, ?_⟩, by decide +kernel⟩
  · simp only [List.mem_toArray, List.mem_cons, List.not_mem_nil, or_false] at hi
    rcases hi with rfl | rfl
    · exact ⟨rfl, ⟨_, rfl⟩, ⟨0, rfl⟩, ⟨.reg 0, rfl, rfl⟩, Or.inl rfl⟩
    · exact ⟨rfl, ⟨1, rfl⟩, ⟨.indirect 0, rfl, rfl⟩⟩
  · simp
  · simp only [List.mem_toArray, List.mem_cons, List.not_mem_nil, or_false] at hv
    rw [hv]
  · rintro _ ⟨⟩
  · rintro _ ⟨⟩
  · rintro _ ⟨⟩

end WordMachine
