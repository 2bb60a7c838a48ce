import WordMachine.Proofs.Steps

/-!
Machines that share a content store. In whatever order they take their steps, an entry of the store
stays as it was made, so that what one machine has folded any other can unfold later.
-/
namespace WordMachine

namespace Machine

/-- The address denotes the cell: by its number, or by a register that holds the number. -/
def PointsTo (m : Machine) (address : Field Argument) (cell : Nat) : Prop :=
  address = .known (.absolute cell) ∨
    ∃ j : Fin 4, address = .known (.indirect j) ∧ (m.registers.values.get j).value = cell

variable {m : Machine} {address : Field Argument} {cell : Nat}

theorem PointsTo.known (h : m.PointsTo address cell) : address.Known := by
  rcases h with rfl | ⟨j, rfl, -⟩
  · exact ⟨_, rfl⟩
  · exact ⟨_, rfl⟩

theorem PointsTo.resolveAddress_eq (h : m.PointsTo address cell) :
    m.resolveAddress address = (m.memory.check cell 1).map fun _ => cell := by
  have done (r : Except Fault Unit) : (r >>= fun _ => Pure.pure cell) = r.map fun _ => cell := by
    cases r <;> rfl
  rcases h with rfl | ⟨j, rfl, rfl⟩
  · exact done (m.memory.check cell 1)
  · change (m.registers.read j >>= fun v => m.memory.check v.value 1 >>=
      fun _ => Pure.pure v.value) = _
    rw [m.registers.read_fin j]
    exact done (m.memory.check _ 1)

theorem PointsTo.resolveAddress (h : m.PointsTo address cell) (hc : cell < m.memory.size) :
    m.resolveAddress address = .ok cell := by
  rw [h.resolveAddress_eq, m.memory.check_of_le (by omega) (by omega)]
  rfl

theorem PointsTo.eq_of_resolveAddress (h : m.PointsTo address cell) {start : Nat}
    (hs : m.resolveAddress address = .ok start) : start = cell := by
  rw [h.resolveAddress_eq] at hs
  cases hc : m.memory.check cell 1 with
  | error f =>
    rw [hc] at hs
    cases hs
  | ok u =>
    rw [hc] at hs
    exact (Except.ok.inj hs).symm

theorem SpanHolds.eq_extract {lengthReg : Field Int} {chars : List Word} {k : Fin 4}
    (h : m.SpanHolds address lengthReg chars) (hk : RegisterFile.check lengthReg = .ok (some k))
    (hp : m.PointsTo address cell) :
    (m.registers.values.get k).value = chars.length ∧
      chars = (m.memory.cells.extract cell (cell + (m.registers.values.get k).value)).toList := by
  obtain ⟨length, start, hl, hs, hc⟩ := h
  obtain rfl := hp.eq_of_resolveAddress hs
  obtain rfl := Except.ok.inj ((RegisterFile.get_of_check hk).symm.trans hl)
  obtain ⟨hb, rfl⟩ := (m.memory.readSpan_settles start _).of_ok hc
  refine ⟨?_, rfl⟩
  rw [Array.length_toList, Array.size_extract]
  change start + _ ≤ m.memory.cells.size at hb
  omega

end Machine

namespace ContentStore

/-- Every entry of the one store stands in the other, which is of the same width. -/
def Extends (s s' : ContentStore) : Prop :=
  s'.width = s.width ∧
    ∀ {key : Word} {held : List Word}, s.entries[key]? = some held → s'.entries[key]? = some held

theorem Extends.refl (s : ContentStore) : s.Extends s := ⟨rfl, id⟩

theorem Extends.trans {s₁ s₂ s₃ : ContentStore} (h : s₁.Extends s₂) (h' : s₂.Extends s₃) :
    s₁.Extends s₃ := ⟨h'.1.trans h.1, fun hk => h'.2 (h.2 hk)⟩

theorem Enfolded.extends {s s' : ContentStore} {chars : List Word} {key : Word}
    (h : s.Enfolded chars key s') : s.Extends s' := ⟨h.width_eq, h.keeps⟩

end ContentStore

/-- An instruction leaves the store as it is or adds an entry. -/
theorem Effect.ofInstruction_content {size : Nat} {m : Machine} {s : Services} (op : Instruction)
    {st : ContentStore} (h : s.content = some (.store st)) :
    ∃ st', (ofInstruction size m s op).1.content = some (.store st') ∧ st.Extends st' := by
  cases op with
  | content action d address l =>
    change ∃ st', (ofContent m s action d address l).1.content = some (.store st') ∧ _
    rcases @ofContent_cases m action d l address s with
      ⟨he, -⟩ | ⟨st₁, st', chars, key, -, hst, -, henf, he⟩
    · rw [he]
      exact ⟨st, h, .refl st⟩
    · obtain ⟨⟩ := h.symm.trans hst
      rw [he]
      exact ⟨st', rfl, henf.extends⟩
  | triple action sub r o count out =>
    exact ⟨st, (ofTriple_cases s action).1.trans h, .refl st⟩
  | _ => exact ⟨st, h, .refl st⟩

theorem Engine.step_keeps {p : Program} {e : Engine} {st : ContentStore}
    (h : e.services.content = some (.store st)) :
    e.machine.SameShape (e.step p).1.machine ∧
      ∃ st', (e.step p).1.services.content = some (.store st') ∧ st.Extends st' := by
  unfold step
  split
  next => exact ⟨⟨rfl, id, rfl, rfl⟩, st, h, .refl st⟩
  next op _ =>
    obtain ⟨hshape, hs, -⟩ := execute_keeps p.size op e.beginStep
    refine ⟨⟨hshape.width, hshape.registers, hshape.memoryWidth, hshape.memorySize⟩, ?_⟩
    rw [hs]
    exact Effect.ofInstruction_content op h

theorem Effect.ofUnfold_eq {m : Machine} {st : ContentStore} {digestReg lengthReg : Field Int}
    {address : Field Argument} {j k : Fin 4} {start : Nat} {chars : List Word} {length : Word}
    (hj : RegisterFile.check digestReg = .ok (some j))
    (hk : RegisterFile.check lengthReg = .ok (some k)) (hp : m.PointsTo address start)
    (hd : st.entries[m.registers.values.get j]? = some chars) (hw : ∀ c ∈ chars, c.width = m.width)
    (hl : length.width = m.width) (hn : length.value = chars.length)
    (hstart : start < m.memory.size) (hroom : start + chars.length ≤ m.memory.size) :
    ofUnfold m (.store st) digestReg address lengthReg =
      .ok { next := some m.pc.succ
            register := some (lengthReg, length)
            cells := (start, chars) } := by
  have hdemand : address.demand = .ok () := by
    obtain ⟨a, rfl⟩ := hp.known
    rfl
  have hstore : contentFault (.unfold (m.registers.values.get j))
      ((ContentService.store st).unfold (m.registers.values.get j)) = .ok chars := by
    change contentFault _ (st.unfold (m.registers.values.get j)) = _
    unfold ContentStore.unfold
    rw [hd]
    rfl
  have hcount : countWord m chars.length = .ok length := by
    have hc : chars.length < Word.card m.width := hn ▸ hl ▸ length.value_lt
    unfold countWord
    rw [if_pos hc, ofInt_eq_ok (hl ▸ length.width_pos) hc]
    exact congrArg Except.ok (Word.ext_value hl.symm hn.symm)
  have hall : chars.forM (checkResult m) = .ok () := by
    refine Settles.forM_eq_ok fun c hc => ?_
    unfold checkResult
    rw [if_pos (hw c hc)]
  have hcheck : m.memory.check start chars.length = .ok () :=
    m.memory.check_of_le (by omega) (by omega)
  unfold ofUnfold
  rw [RegisterFile.get_of_check hj, ok_bind, hk, ok_bind, hdemand, ok_bind,
    hp.resolveAddress hstart, lift_ok, ok_bind, hstore, ok_bind, hcount, ok_bind, hall, ok_bind,
    hcheck, lift_ok, ok_bind]
  rfl

/-- Machines with one content store among them. -/
structure World (ι : Type) where
  store : ContentStore
  engines : ι → Engine

/-- What can happen next: a machine takes a step, words are folded into the store directly, or the
other services of a machine become others, as they do when they are shared too. -/
inductive Move (ι : Type)
  | step (i : ι)
  | enfold (chars : List Word)
  | retool (i : ι) (triples : Option TripleService) (dynamics : Option Dynamics)

namespace World

variable {ι : Type} [DecidableEq ι]

def engine (world : World ι) (i : ι) : Engine :=
  { world.engines i with
    services := { (world.engines i).services with content := some (.store world.store) } }

def replace (world : World ι) (i : ι) (e : Engine) : World ι where
  store :=
    match e.services.content with
    | some (.store st) => st
    | _ => world.store
  engines j := if j = i then e else world.engines j

def move (programs : ι → Program) (world : World ι) : Move ι → World ι
  | .step i => world.replace i ((world.engine i).step (programs i)).1
  | .enfold chars =>
    match world.store.enfold chars with
    | .ok (_, store) => { world with store }
    | .error _ => world
  | .retool i triples dynamics =>
    world.replace i
      { world.engine i with services := ⟨some (.store world.store), triples, dynamics⟩ }

def run (programs : ι → Program) (world : World ι) (moves : List (Move ι)) : World ι :=
  moves.foldl (move programs) world

structure OfWidth (w : Nat) (world : World ι) : Prop where
  store : world.store.width = w
  registers : ∀ i, (world.engines i).machine.registers.WellFormed
  width : ∀ i, (world.engines i).machine.width = w
  memory : ∀ i, (world.engines i).machine.memory.width = w

theorem OfWidth.replace {w : Nat} {world : World ι} (h : world.OfWidth w) (i : ι) (e : Engine)
    (hs : (world.engine i).machine.SameShape e.machine) {st : ContentStore}
    (hc : e.services.content = some (.store st)) (hst : world.store.Extends st) :
    (world.replace i e).OfWidth w ∧ world.store.Extends (world.replace i e).store := by
  have hstore : (world.replace i e).store = st := by
    unfold World.replace
    rw [hc]
  have engines {P : Machine → Prop} (he : P e.machine) (hj : ∀ j, P (world.engines j).machine)
      (j : ι) :
      P ((world.replace i e).engines j).machine := by
    change P (if j = i then e else world.engines j).machine
    split
    · exact he
    · exact hj j
  rw [hstore]
  refine ⟨⟨?_, ?_, ?_, ?_⟩, hst⟩
  · rw [hstore]
    exact hst.1.trans h.store
  · exact engines (P := (·.registers.WellFormed)) (hs.registers (h.registers i)) h.registers
  · exact engines (P := (·.width = w)) (hs.width.trans (h.width i)) h.width
  · exact engines (P := (·.memory.width = w)) (hs.memoryWidth.trans (h.memory i)) h.memory

/-- No move changes a width, and none changes or removes an entry of the store. -/
theorem OfWidth.move {w : Nat} {world : World ι} (h : world.OfWidth w) (programs : ι → Program)
    (next : Move ι) :
    (world.move programs next).OfWidth w ∧
      world.store.Extends (world.move programs next).store := by
  cases next with
  | step i =>
    obtain ⟨hs, st, hc, hst⟩ := @Engine.step_keeps (programs i) (world.engine i) world.store rfl
    exact h.replace i _ hs hc hst
  | enfold chars =>
    unfold World.move
    dsimp only
    split
    next key store hok =>
      have he := (world.store.enfold_settles chars).of_ok hok
      exact ⟨⟨he.width_eq.trans h.store, h.registers, h.width, h.memory⟩, he.extends⟩
    next => exact ⟨h, .refl _⟩
  | retool i triples dynamics =>
    exact h.replace i
      { world.engine i with services := ⟨some (.store world.store), triples, dynamics⟩ }
      ⟨rfl, id, rfl, rfl⟩ rfl (.refl _)

theorem OfWidth.run {w : Nat} {world : World ι} (h : world.OfWidth w) (programs : ι → Program)
    (moves : List (Move ι)) :
    (world.run programs moves).OfWidth w ∧
      world.store.Extends (world.run programs moves).store := by
  induction moves generalizing world with
  | nil => exact ⟨h, .refl _⟩
  | cons next moves ih =>
    obtain ⟨hnext, hext⟩ := h.move programs next
    obtain ⟨hrun, hext'⟩ := ih hnext
    exact ⟨hrun, hext.trans hext'⟩

end World

namespace Engine

/-- The next step is a folding that goes through: it reads the words and leaves their digest in a
register. -/
def Folds (p : Program) (e : Engine) (chars : List Word) (d : Word) : Prop :=
  ∃ digestReg address lengthReg op, ∃ (j k : Fin 4) (start : Nat),
    fetch p e.machine.pc = .ok (.content (.known .enfold) digestReg address lengthReg) ∧
      RegisterFile.check digestReg = .ok (some j) ∧ RegisterFile.check lengthReg = .ok (some k) ∧
      e.machine.PointsTo address start ∧
      chars = (e.machine.memory.cells.extract start
        (start + (e.machine.registers.values.get k).value)).toList ∧
      (e.step p).2 = .next op ∧ (e.step p).1.machine.registers.values.get j = d

/-- The next step is an unfolding of a digest into the cells from an address on, the number of
cells to go to a register. -/
def Unfolds (p : Program) (e : Engine) (d : Word) (k : Fin 4) (start : Nat) : Prop :=
  ∃ digestReg address lengthReg, ∃ j : Fin 4,
    fetch p e.machine.pc = .ok (.content (.known .unfold) digestReg address lengthReg) ∧
      RegisterFile.check digestReg = .ok (some j) ∧ e.machine.registers.values.get j = d ∧
      RegisterFile.check lengthReg = .ok (some k) ∧ e.machine.PointsTo address start

/-- A folding that goes through has put the words under their digest. -/
theorem Folds.stored {p : Program} {e : Engine} {chars : List Word} {d : Word} {st : ContentStore}
    (h : e.Folds p chars d) (hs : e.services.content = some (.store st)) :
    ∃ st', (e.step p).1.services.content = some (.store st') ∧ st'.entries[d]? = some chars ∧
      (∀ c ∈ chars, (c.width : Int) = st.width) ∧
      ∃ k : Fin 4, (e.machine.registers.values.get k).value = chars.length := by
  obtain ⟨digestReg, address, lengthReg, op, j, k, start, hfetch, hj, hk, hp, rfl, hsig, rfl⟩ := h
  unfold step at hsig ⊢
  rw [hfetch] at hsig ⊢
  dsimp only at hsig ⊢
  rcases execute_cases p.size (.content (.known .enfold) digestReg address lengthReg)
    e.beginStep with
    ⟨err, -, he⟩ | ⟨effect, hok, -, ⟨_, err, -, -, he⟩ | ⟨machine, hc, he⟩⟩
  · rw [he] at hsig
    cases err <;> cases hsig
  · rw [he] at hsig
    cases err <;> cases hsig
  · change (Effect.ofContent _ _ (.known .enfold) digestReg address lengthReg).2 =
      .ok effect at hok
    rcases @Effect.ofContent_cases e.beginStep.machine (.known .enfold) digestReg lengthReg address
      e.beginStep.services with ⟨-, hn⟩ | ⟨st₁, st', chars, key, -, hst, hspan, henf, heq⟩
    · obtain ⟨err, herr⟩ := hn rfl st hs
      rw [herr] at hok
      cases hok
    · obtain ⟨⟩ := hs.symm.trans hst
      rw [heq] at hok
      cases hok
      obtain ⟨-, i, hi, hr⟩ :=
        (RegisterFile.set_settles _ key hj).of_ok (Effect.commit_registers hc)
      obtain rfl := Option.some.inj hi
      have hkey : machine.registers.values.get j = key := by
        rw [hr]
        exact Vector.getElem_set_self j.isLt
      obtain ⟨hlen, hchars⟩ : (e.machine.registers.values.get k).value = chars.length ∧
          chars = (e.machine.memory.cells.extract start
            (start + (e.machine.registers.values.get k).value)).toList := hspan.eq_extract hk hp
      rw [← hchars, he]
      dsimp only
      rw [hkey]
      exact ⟨st', congrArg (·.1.content) heq, henf.getElem?_key, henf.2.1, k, hlen⟩

/-- An unfolding of words that stand in the store, for which there is room, goes through and writes
just these words and their number. -/
theorem Unfolds.completes {p : Program} {e : Engine} {d length : Word} {k : Fin 4} {start : Nat}
    {chars : List Word} {st : ContentStore} (h : e.Unfolds p d k start)
    (hs : e.services.content = some (.store st)) (hst : st.width = e.machine.width)
    (hm : e.machine.memory.width = e.machine.width) (hd : st.entries[d]? = some chars)
    (hw : ∀ c ∈ chars, c.width = e.machine.width) (hl : length.width = e.machine.width)
    (hn : length.value = chars.length) (hstart : start < e.machine.memory.size)
    (hroom : start + chars.length ≤ e.machine.memory.size) :
    ∃ e' op, e.step p = (e', .next op) ∧ (e'.machine.registers.values.get k).value = chars.length ∧
      ∀ cell, e'.machine.memory.cells[cell]? =
        if start ≤ cell ∧ cell < start + chars.length then chars[cell - start]?
        else e.machine.memory.cells[cell]? := by
  obtain ⟨digestReg, address, lengthReg, j, hfetch, hj, rfl, hk, hp⟩ := h
  have hok : Effect.ofInstruction p.size e.beginStep.machine e.beginStep.services
      (.content (.known .unfold) digestReg address lengthReg) = (e.services, .ok
        { next := some e.machine.pc.succ, register := some (lengthReg, length),
          cells := (start, chars) }) := by
    change Effect.ofContent e.beginStep.machine e.services (.known .unfold) digestReg address
      lengthReg = _
    unfold Effect.ofContent
    rw [hs]
    have hwidth : ¬ (ContentService.store st).width ≠ e.beginStep.machine.width :=
      Decidable.not_not.mpr hst
    dsimp only
    rw [if_neg hwidth]
    exact congrArg (Prod.mk e.services)
      (@Effect.ofUnfold_eq e.beginStep.machine st digestReg lengthReg address j k start chars
        length hj hk hp hd hw hl hn hstart hroom)
  have hwords : ∀ c ∈ chars, c.width = e.machine.memory.width :=
    fun c hc => (hw c hc).trans hm.symm
  have hcommit := @Effect.commit_eq
    { next := some e.machine.pc.succ, register := some (lengthReg, length),
      cells := (start, chars) }
    e.beginStep.machine _ hroom hwords rfl (RegisterFile.set_of_check hk hl)
  rw [step_of_fetch hfetch]
  refine ⟨_, _, execute_eq hok hcommit, ?_, (Memory.writeAll_cells hroom hwords).2⟩
  exact (congrArg Word.value (Vector.getElem_set_self k.isLt)).trans hn

end Engine

/-- What one machine folds, any machine can unfold after any further moves: the step goes through,
the cells hold the words that were read, and their number stands in the register. -/
theorem World.content_survives {ι : Type} [DecidableEq ι] {programs : ι → Program} {w : Nat}
    {world : World ι} (hworld : world.OfWidth w) {i j : ι} {chars : List Word} {d : Word}
    (hfold : (world.engine i).Folds (programs i) chars d) (moves : List (Move ι)) {later : World ι}
    (hlater : later = world.run programs (.step i :: moves)) {k : Fin 4} {start : Nat}
    (hunfold : (later.engine j).Unfolds (programs j) d k start)
    (hstart : start < (later.engine j).machine.memory.size)
    (hroom : start + chars.length ≤ (later.engine j).machine.memory.size) :
    ∃ e op, (later.engine j).step (programs j) = (e, .next op) ∧
      (e.machine.registers.values.get k).value = chars.length ∧
      ∀ cell, e.machine.memory.cells[cell]? =
        if start ≤ cell ∧ cell < start + chars.length then chars[cell - start]?
        else (later.engine j).machine.memory.cells[cell]? := by
  obtain ⟨st, hst, hd, hchars, r, hlen⟩ := hfold.stored rfl
  have hstore : (world.move programs (.step i)).store = st := by
    change (world.replace i _).store = st
    unfold World.replace
    rw [hst]
  obtain ⟨hafter, -⟩ := hworld.move programs (.step i)
  obtain ⟨hend, -, hkeeps⟩ := hafter.run programs moves
  have hrun : (world.move programs (.step i)).run programs moves = later := hlater.symm
  rw [hrun] at hend hkeeps
  rw [hstore] at hkeeps
  have hwidth : (later.engine j).machine.width = w := hend.width j
  refine hunfold.completes rfl ?_ ?_ (hkeeps hd) ?_ ?_ hlen hstart hroom
  · rw [hwidth]
    exact hend.store
  · exact (hend.memory j).trans hwidth.symm
  · intro c hc
    exact Int.ofNat.inj ((hchars c hc).trans (hworld.store.trans (congrArg Int.ofNat hwidth.symm)))
  · exact (hworld.registers i r).trans ((hworld.width i).trans hwidth.symm)

/-- One machine folds two words, and after it has stopped the other unfolds them. -/
theorem World.content_survives_two_machines :
    let word (v : Nat) (h : v < 16) : Word := ⟨4, v, by decide, h⟩
    let three := word 3 (by decide)
    let five := word 5 (by decide)
    let machine (d n : Word) (cells : Array Word) : Machine :=
      ⟨⟨4, #v[d, n, three, three]⟩, {}, ⟨4, cells⟩, .known 0, 0⟩
    let world : World Bool := ⟨.empty 4, fun second =>
      if second then ⟨machine (word 1 (by decide)) three #[three, three, three], {}, 0⟩
      else ⟨machine three (word 2 (by decide)) #[three, five], {}, 0⟩⟩
    let programs : Bool → Program := fun second => ⟨"main",
      #[.content (.known (if second then .unfold else .enfold)) (.known 0)
        (.known (.absolute (if second then 1 else 0))) (.known 1)]⟩
    let later := world.run programs [.step false, .step false]
    ∃ e op, (later.engine true).step (programs true) = (e, .next op) ∧
      (e.machine.registers.values.get 1).value = 2 ∧
      ∀ cell, e.machine.memory.cells[cell]? =
        if 1 ≤ cell ∧ cell < 3 then [three, five][cell - 1]?
        else #[three, three, three][cell]? := by
  intro word three five machine world programs later
  let d := word 1 (by decide)
  let filled : ContentStore := ⟨4, (∅ : Std.HashMap Word (List Word)).insert d [three, five]⟩
  let fold : Instruction := .content (.known .enfold) (.known 0) (.known (.absolute 0)) (.known 1)
  have hworld : world.OfWidth 4 := by
    refine ⟨rfl, fun i r => ?_, fun i => ?_, fun i => ?_⟩
    · cases i <;> (revert r; decide)
    · cases i <;> rfl
    · cases i <;> rfl
  -- The store is a hash map, which does not evaluate: its answer is rewritten by the laws of
  -- lookup.
  have henfold : world.store.enfold [three, five] = .ok (d, filled) := by
    have hkey : digest [three, five] 4 = .ok d := by cbv
    have hnone : world.store.entries[d]? = none := Std.HashMap.getElem?_empty
    exact ContentStore.Enfolded.enfold_eq ⟨hkey, by decide, Or.inr ⟨hnone, rfl⟩⟩
  have heffect : Effect.ofInstruction 1 (world.engine false).beginStep.machine
      (world.engine false).services fold =
        (⟨some (.store filled), none, none⟩,
          .ok { next := some (.known 1), register := some (.known 0, d) }) := by
    have hspan :
        Effect.enfoldSpan (world.engine false).beginStep.machine (.store world.store) (.known 0)
        (.known (.absolute 0)) (.known 1) = .ok (d, .store filled) := by
      change Effect.contentFault .enfold (world.store.enfold [three, five] >>= fun r =>
        Pure.pure (r.1, ContentService.store r.2)) = _
      rw [henfold]
      rfl
    have hcontent : (world.engine false).services.content = some (.store world.store) := rfl
    change Effect.ofContent (world.engine false).beginStep.machine (world.engine false).services
      (.known .enfold) (.known 0) (.known (.absolute 0)) (.known 1) = _
    unfold Effect.ofContent
    rw [hcontent]
    dsimp only
    rw [if_neg (by decide), hspan]
    rfl
  have hstep : (world.engine false).step (programs false) =
      (⟨{ machine d (word 2 (by decide)) #[three, five] with pc := .known 1, tick := 1 },
        ⟨some (.store filled), none, none⟩, 1⟩, .next fold) := Engine.execute_eq heffect rfl
  have hfold : (world.engine false).Folds (programs false) [three, five] d := by
    refine ⟨.known 0, .known (.absolute 0), .known 1, fold, 0, 1, 0, rfl, rfl, rfl, Or.inl rfl,
      rfl, ?_, ?_⟩
    · rw [hstep]
    · rw [hstep]
      rfl
  have hunfold : (later.engine true).Unfolds (programs true) d 1 1 :=
    ⟨.known 0, .known (.absolute 1), .known 1, 0, rfl, rfl, rfl, rfl, Or.inl rfl⟩
  exact content_survives hworld hfold [.step false] rfl hunfold (by decide) (by decide)

end WordMachine
