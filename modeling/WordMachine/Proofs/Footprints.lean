import WordMachine.Proofs.QuerySteps
import WordMachine.Proofs.UnnamedRegisters

/-!
The footprints of instructions: the little that a completed step can change. An instruction gives
flags only if it computes, writes one register at most and cells in one region at most, and adds at
most one entry to one of the stores. All else stays as it was.
-/
namespace WordMachine

namespace Instruction

def SetsFlags : Instruction → Prop
  | .alu (.known opcode) _ _ _ => opcode ≠ .loadk ∧ opcode ≠ .mov
  | _ => False

def goesTo (flags : Flags) (n : ℤ) : Instruction → Field ℤ
  | .jump target => target
  | .jumpIf (.known condition) target =>
    if Effect.taken flags condition then target else .known (n + 1)
  | .halt => .known n
  | _ => .known (n + 1)

/-- A checked instruction has an integer for the register that it writes. -/
theorem destination_known {op : Instruction} (hv : op.Valid) {index : Field ℤ}
    (h : op.destination = some index) : index.Known := by
  unfold destination at h
  split at h
  · cases h
    exact hv.2.2.1
  · cases h
    exact hv.2.1
  · cases h
    exact hv.2.1
  · cases h
    exact hv.2.1
  · cases h
    exact hv.2.2.1
  · cases h
    exact hv.2.2.2.2
  · cases h
    exact Effect.countReg_of_query hv fun h => nomatch h
  · cases h
    exact Effect.countReg_of_query hv fun h => nomatch h
  · cases h
    exact hv.2.2
  · cases h

end Instruction

/-- The triples that a query finds in the store, by the words of its pattern or by their basins. -/
inductive Services.Finds (s : Services) (pattern : Triple) : TripleAction → List Triple → Prop
  | byWord {store : TripleService} {found : List Triple} (triples : s.triples = some store)
      (answer : store.queryExact pattern = .ok found) : Finds s pattern .queryExact found
  | byBasin {store : TripleService} {d d₁ d₂ : Dynamics} {basins : Triple} {found : List Triple}
      (triples : s.triples = some store) (dynamics : s.dynamics = some d)
      (asked : Effect.basinPattern d pattern = .ok (basins, d₁))
      (answer : store.queryWith d₁ basins = .ok (found, d₂)) : Finds s pattern .queryByBasin found

/-- The cells that an instruction writes, by their first address and their number: one for a word
that is stored, one for each word of a sequence that is unfolded, and three for each match of a
query. -/
inductive Machine.Region (m : Machine) (s : Services) : Instruction → ℕ → ℕ → Prop
  | store {src : Field ℤ} {address : Field Argument} {base : ℕ}
      (resolved : m.resolveAddress address = .ok base) : Region m s (.store src address) base 1
  | unfold {digestReg lengthReg : Field ℤ} {address : Field Argument} {store : ContentService}
    {key : Word}
      {chars : List Word} {base : ℕ} (content : s.content = some store)
      (digest : m.registers.get digestReg = .ok key) (held : store.unfold key = .ok chars)
      (resolved : m.resolveAddress address = .ok base) :
      Region m s (.content (.known .unfold) digestReg address lengthReg) base chars.length
  | query {action : TripleAction} {subject relation object outAddress : Field Argument}
    {countReg : Field ℤ}
      {pattern : Triple} {found : List Triple} {base : ℕ}
      (operands : Effect.resolveTriple m subject relation object = .ok pattern)
      (finds : s.Finds pattern action found) (resolved : m.resolveAddress outAddress = .ok base) :
      Region m s (.triple (.known action) subject relation object countReg outAddress) base
        (3 * found.length)

/-- The tick has no part in it. -/
theorem Machine.Region.of_tick {m : Machine} {s : Services} {op : Instruction} {base length : ℕ}
    {tick : ℤ} (h : Region { m with tick } s op base length) : m.Region s op base length := by
  cases h with
  | store resolved => exact .store resolved
  | unfold content digest held resolved => exact .unfold content digest held resolved
  | query operands finds resolved => exact .query operands finds resolved

/-- The flags that come out are those that went in, except by an operation that computes. -/
theorem Alu.execute_flags (opcode : Field Opcode) (r : RegisterFile) (flags : Flags)
    (a b : Field Argument) :
    Settles (execute opcode r flags a b)
      (fun out => out.2 = flags ∨ ∃ op, opcode = .known op ∧ op ≠ .loadk ∧ op ≠ .mov) fun _ =>
        True := by
  apply Settles.bind_value
  intro x
  split
  next => exact .pure (Or.inl rfl)
  next => exact .pure (Or.inl rfl)
  next => trivial
  next => trivial
  next op hload hmov =>
    refine (Settles.self _).imp fun _ _ => Or.inr ⟨op, rfl, ?_, ?_⟩
    · rintro rfl
      exact hload rfl
    · rintro rfl
      exact hmov rfl

/-- A store takes a triple in if it does not hold it, and stays as it is otherwise. -/
theorem TripleService.insert_cases {store store' : TripleService} {t : Triple}
    (h : store.insert t = .ok store') :
    store' = store ∨ ∃ st, store = .store st ∧ t ∉ st.triples ∧
      store' = .store { st with triples := st.triples ++ [t] } := by
  cases store with
  | store st =>
    cases h
    by_cases ht : t ∈ st.triples
    · left
      rw [TripleStore.insert, if_pos ht]
    · right
      rw [TripleStore.insert, if_neg ht]
      exact ⟨st, rfl, ht, rfl⟩
  | fixed onInsert onQuery =>
    cases onInsert with
    | none =>
      cases h
      exact Or.inl rfl
    | some err => cases h

namespace Effect

structure Bounded (m : Machine) (s : Services) (op : Instruction) (e : Effect) : Prop where
  flags : e.flags.getD m.flags = m.flags ∨ op.SetsFlags
  /-- A missing word would stop the instruction. -/
  cells : e.gap = false → e.cells = (0, []) ∨ m.Region s op e.cells.1 e.cells.2.length
  next : ∀ n, m.pc = .known n → e.next.getD m.pc = op.goesTo m.flags n

abbrev Bounds (m : Machine) (s : Services) (op : Instruction) (r : Except Error Effect) : Prop :=
  Settles r (Bounded m s op) fun _ => True

variable {m : Machine} {s : Services} {op : Instruction}

/-- An effect on a register alone, of an instruction that is followed by the next one. -/
theorem bounded_register {register : Option (Field ℤ × Word)}
    (hop : ∀ flags n, op.goesTo flags n = .known (n + 1)) :
    Bounded m s op { next := some m.pc.succ, register } := by
  refine ⟨Or.inl rfl, fun _ => Or.inl rfl, fun n hn => ?_⟩
  rw [hop, hn]
  rfl

/-- An effect that writes a register and cells of the region. -/
theorem bounded_cells {register : Option (Field ℤ × Word)} {base : ℕ} {words : List Word}
    (hop : ∀ flags n, op.goesTo flags n = .known (n + 1))
    (hregion : m.Region s op base words.length) :
    Bounded m s op { next := some m.pc.succ, register, cells := (base, words) } := by
  refine ⟨Or.inl rfl, fun _ => Or.inr hregion, fun n hn => ?_⟩
  rw [hop, hn]
  rfl

theorem contentFault_eq_ok {α : Type} {x : Except Error α} {f : StoreError → Fault} {a : α}
    (h : contentFault f x = .ok a) : x = .ok a := by
  cases x with
  | ok b => exact h
  | error e => cases e <;> cases h

theorem ofContent_bounded (action : Field ContentAction) (digestReg : Field ℤ)
    (address : Field Argument) (lengthReg : Field ℤ) :
    Bounds m s (.content action digestReg address lengthReg)
      (ofContent m s action digestReg address lengthReg).2 := by
  unfold ofContent
  split
  next => trivial
  next store hstore =>
    split
    next => trivial
    next =>
      split
      next =>
        split
        next => trivial
        next => exact .bind_value fun _ => .pure (bounded_register fun _ _ => rfl)
      next =>
        refine (Settles.self _).bind fun key hkey => ?_
        refine .bind_value fun _ => .bind_value fun _ => ?_
        refine (Settles.lift (Settles.self _)).bind fun start hstart => ?_
        refine (Settles.self _).bind fun chars hchars => ?_
        refine .bind_value fun _ => .bind_value fun _ => .bind_value fun _ => .pure ?_
        exact bounded_cells (fun _ _ => rfl)
          (.unfold hstore hkey (contentFault_eq_ok hchars) hstart)
      next => trivial
      next => trivial

/-- A match with a missing word leaves a gap, so that those of a query that completes have three
words each. -/
theorem ofMatches_bounded {countReg : Field ℤ} {found : List Triple} {outAddress : Field Argument}
    (hop : ∀ flags n, op.goesTo flags n = .known (n + 1))
    (hregion : ∀ base, m.resolveAddress outAddress = .ok base →
      m.Region s op base (3 * found.length)) :
    Bounds m s op (ofMatches m countReg found outAddress) := by
  by_cases hwhole : ∀ t ∈ found, t.Whole
  · refine (ofMatches_cells hwhole).imp ?_
    rintro e ⟨count, ⟨base, words⟩, rfl, -, -, ⟨-, hcells⟩ | ⟨-, hbase, rfl, -⟩⟩
    · cases hcells
      exact bounded_register hop
    · apply bounded_cells hop
      rw [Triple.length_flatMap_words hwhole]
      exact hregion base hbase
  · apply Settles.bind_value
    intro count
    split
    next => exact .pure (bounded_register hop)
    next =>
      refine .bind_value fun base => .bind_value fun _ =>
        .pure ⟨Or.inl rfl, fun hgap => ?_, fun n hn => ?_⟩
      · refine absurd (fun t ht c hc => ?_) hwhole
        have hmem : c ∈ found.flatMap Triple.components := List.mem_flatMap.mpr ⟨t, ht, hc⟩
        exact Option.isSome_iff_ne_none.mpr (by simpa using List.any_eq_false.mp hgap c hmem)
      · rw [hop, hn]
        rfl

/-- The matches put in order are those that the store has answered with. -/
theorem exists_answer_of_sorted {store : TripleService} {pattern : Triple} {sorted : List Triple}
    {f : StoreError → Fault}
    (h : tripleFault f (store.queryExact pattern >>= Triple.sort) = .ok sorted) :
    ∃ found, store.queryExact pattern = .ok found ∧ sorted.Perm found := by
  have hsort := tripleFault_eq_ok h
  cases hfound : store.queryExact pattern with
  | error e =>
    rw [hfound] at hsort
    cases hsort
  | ok found =>
    rw [hfound] at hsort
    exact ⟨found, rfl, (Triple.sort_settles found).of_ok hsort⟩

theorem answer_of_findByBasin {d : Dynamics} {store : TripleService} {pattern : Triple}
    {countReg : Field ℤ} {out : List Triple × Dynamics}
    (h : findByBasin d store pattern countReg = .ok out) :
    store.queryWith d pattern = .ok out := by
  unfold findByBasin at h
  cases hj : RegisterFile.check countReg with
  | error e =>
    rw [hj] at h
    cases h
  | ok j =>
    rw [hj] at h
    exact tripleFault_eq_ok h

theorem ofTriple_bounded (action : Field TripleAction) (subject relation object : Field Argument)
    (countReg : Field ℤ) (outAddress : Field Argument) :
    Bounds m s (.triple action subject relation object countReg outAddress)
      (ofTriple m s action subject relation object countReg outAddress).2 := by
  unfold ofTriple
  split
  next => trivial
  next store hstore =>
    split
    next => trivial
    next pattern hpattern =>
      split
      next =>
        split
        next => trivial
        next => exact .pure (bounded_register fun _ _ => rfl)
      next =>
        refine .bind_value fun _ => (Settles.self _).bind fun sorted hsorted => ?_
        obtain ⟨found, hfound, hperm⟩ := exists_answer_of_sorted hsorted
        refine ofMatches_bounded (fun _ _ => rfl) fun base hbase => ?_
        rw [hperm.length_eq]
        exact .query hpattern (.byWord hstore hfound) hbase
      next =>
        split
        next => trivial
        next d hd =>
          simp only [ofQueryByBasin]
          split
          next => trivial
          next basins d₁ hbasins =>
            split
            next => trivial
            next found d₂ hfound =>
              refine (Settles.self _).bind fun sorted hsorted => ?_
              refine ofMatches_bounded (fun _ _ => rfl) fun base hbase => ?_
              rw [((Triple.sort_settles found).of_ok hsorted).length_eq]
              exact .query hpattern (.byBasin hstore hd hbasins (answer_of_findByBasin hfound))
                hbase
      next => trivial
      next => trivial

theorem ofInstruction_bounded (size : ℕ) (m : Machine) (s : Services) (op : Instruction) :
    Bounds m s op (ofInstruction size m s op).2 := by
  cases op with
  | alu opcode dest a b =>
    refine .bind_value fun _ => .bind_value fun _ => .bind_value fun _ => ?_
    refine (Alu.execute_flags opcode m.registers m.flags a b).bind fun out hout => .pure ?_
    refine ⟨?_, fun _ => Or.inl rfl, fun n hn => ?_⟩
    · rcases hout with hflags | ⟨opcode, rfl, hsets⟩
      · exact Or.inl hflags
      · exact Or.inr hsets
    · rw [hn]
      rfl
  | load dest address =>
    exact .bind_value fun _ => .bind_value fun _ => .bind_value fun _ => .bind_value fun _ =>
      .pure (bounded_register fun _ _ => rfl)
  | store src address =>
    refine .bind_value fun v => .bind_value fun _ => ?_
    refine (Settles.lift (Settles.self _)).bind fun base hbase => .pure ?_
    exact bounded_cells (fun _ _ => rfl) (.store hbase)
  | loadConst dest value =>
    apply Settles.bind_value
    intro _
    split
    · split
      · exact .pure (bounded_register fun _ _ => rfl)
      · trivial
    · trivial
    · trivial
  | moveReg dest src =>
    exact .bind_value fun _ => .bind_value fun _ => .pure (bounded_register fun _ _ => rfl)
  | content action digestReg address lengthReg =>
    exact ofContent_bounded action digestReg address lengthReg
  | triple action subject relation object countReg outAddress =>
    exact ofTriple_bounded action subject relation object countReg outAddress
  | applyRule rule reg =>
    simp only [ofInstruction, ofApplyRule]
    split
    · trivial
    · exact .bind_value fun _ => .bind_value fun _ => .bind_value fun _ =>
        .pure (bounded_register fun _ _ => rfl)
  | jumpIf condition target =>
    apply Settles.bind_value
    intro _
    split
    · refine .pure ⟨Or.inl rfl, fun _ => Or.inl rfl, fun n hn => ?_⟩
      rw [hn]
      rfl
    · trivial
    · trivial
  | jump target =>
    exact .bind_value fun _ => .pure ⟨Or.inl rfl, fun _ => Or.inl rfl, fun _ _ => rfl⟩
  | halt => exact ⟨Or.inl rfl, fun _ => Or.inl rfl, fun _ hn => hn⟩
  | foreign kind =>
    simp only [ofInstruction]
    split <;> trivial

/-- The content store stays as it is, or an enfolding adds an entry where none was. -/
theorem ofInstruction_content_cases (size : ℕ) (m : Machine) (s : Services) (op : Instruction) :
    (ofInstruction size m s op).1.content = s.content ∨
      ∃ digestReg address lengthReg st key chars,
        op = .content (.known .enfold) digestReg address lengthReg ∧
        s.content = some (.store st) ∧ st.entries[key]? = none ∧
        (ofInstruction size m s op).1.content =
          some (.store { st with entries := st.entries.insert key chars }) := by
  cases op with
  | content action digestReg address lengthReg =>
    simp only [ofInstruction]
    rcases @ofContent_cases m action digestReg lengthReg address s with
      ⟨hs, -⟩ | ⟨st, st', chars, key, rfl, hst, -, ⟨-, -, ⟨rfl, -⟩ | ⟨hnew, rfl⟩⟩, hs⟩
    · exact Or.inl (congrArg Services.content hs)
    · rw [hs]
      exact Or.inl hst.symm
    · rw [hs]
      exact Or.inr ⟨digestReg, address, lengthReg, st, key, chars, rfl, hst, hnew, rfl⟩
  | triple action subject relation object countReg outAddress =>
    exact Or.inl (ofTriple_cases s action).1
  | _ => exact Or.inl rfl

/-- The triples stay as they are, or an insertion adds one that was not among them. -/
theorem ofInstruction_triples_cases (size : ℕ) (m : Machine) (s : Services) (op : Instruction) :
    (ofInstruction size m s op).1.triples = s.triples ∨
      ∃ subject relation object countReg outAddress st t,
        op = .triple (.known .insert) subject relation object countReg outAddress ∧
        s.triples = some (.store st) ∧ t ∉ st.triples ∧
        (ofInstruction size m s op).1.triples =
          some (.store { st with triples := st.triples ++ [t] }) := by
  cases op with
  | content action digestReg address lengthReg =>
    simp only [ofInstruction]
    rcases @ofContent_cases m action digestReg lengthReg address s with ⟨hs, -⟩ |
      ⟨_, _, _, _, -, -, -, -, hs⟩
    · exact Or.inl (congrArg Services.triples hs)
    · rw [hs]
      exact Or.inl rfl
  | triple action subject relation object countReg outAddress =>
    simp only [ofInstruction, ofTriple]
    split
    next => exact Or.inl rfl
    next store hstore =>
      split
      next => exact Or.inl rfl
      next t _ =>
        split
        next =>
          split
          next => exact Or.inl rfl
          next store' hok =>
            rcases TripleService.insert_cases (tripleFault_eq_ok hok) with rfl |
              ⟨st, rfl, hnew, rfl⟩
            · exact Or.inl hstore.symm
            · exact Or.inr ⟨subject, relation, object, countReg, outAddress, st, t, rfl, hstore,
                hnew, rfl⟩
        next => exact Or.inl rfl
        next => split <;> exact Or.inl rfl
        next => exact Or.inl rfl
        next => exact Or.inl rfl
  | _ => exact Or.inl rfl

theorem gap_of_commit {e : Effect} {m' : Machine} (h : e.commit m = (m', none)) :
    e.gap = false := by
  obtain ⟨registers, flags, memory, pc, tick⟩ := m
  unfold commit at h
  dsimp only at h
  split at h
  next => cases h
  next =>
    split at h
    next => cases h
    next hgap => exact eq_false_of_ne_true hgap

/-- Cells are written only in the region. -/
theorem memory_of_commit {e : Effect} {m' : Machine} (he : e.Bounded m s op) (hf : e.Fits m)
    (h : e.commit m = (m', none)) :
    m'.memory = m.memory ∨
      ∃ base words, m.Region s op base words.length ∧ m.memory.Overlaid base words m'.memory := by
  obtain ⟨registers, memory, hwrite, -, rfl⟩ := commit_done h
  rcases he.cells (gap_of_commit h) with hnone | hregion
  · left
    rw [hnone, m.memory.writeSpan_eq_writeAll (Nat.zero_le _)] at hwrite
    exact (congrArg Prod.fst hwrite).symm
  · exact Or.inr ⟨e.cells.1, e.cells.2, hregion, Memory.overlaid_of_writeSpan hf.cells hwrite⟩

theorem writeRegister_cases {r r' : RegisterFile} {register : Option (Field ℤ × Word)}
    (h : writeRegister r register = .ok r') :
    r' = r ∨ ∃ i v k, register = some (i, v) ∧ RegisterFile.check i = .ok (some k) ∧
      r' = r.withRegister k v := by
  cases register with
  | none => exact Or.inl (Except.ok.inj h).symm
  | some target =>
    obtain ⟨i, v⟩ := target
    change r.set i v = .ok r' at h
    cases hi : RegisterFile.check i with
    | error err =>
      unfold RegisterFile.set at h
      rw [hi] at h
      cases h
    | ok j =>
      obtain ⟨-, k, rfl, rfl⟩ := (r.set_settles v hi).of_ok h
      exact Or.inr ⟨i, v, k, rfl, hi, rfl⟩

end Effect

namespace Engine

/-- What a step with an instruction changes. -/
structure Footprint (op : Instruction) (e e' : Engine) : Prop where
  tick : e'.machine.tick = e.machine.tick + 1
  flags : e'.machine.flags = e.machine.flags ∨ op.SetsFlags
  registers : e'.machine.registers = e.machine.registers ∨
    ∃ (k : Fin 4) (v : Word), op.destination = some (.known k) ∧
      e'.machine.registers = e.machine.registers.withRegister k v
  memory : e'.machine.memory = e.machine.memory ∨
    ∃ base words, e.machine.Region e.services op base words.length ∧
      e.machine.memory.Overlaid base words e'.machine.memory
  content : e'.services.content = e.services.content ∨
    ∃ digestReg address lengthReg st key chars,
      op = .content (.known .enfold) digestReg address lengthReg ∧
      e.services.content = some (.store st) ∧ st.entries[key]? = none ∧
      e'.services.content = some (.store { st with entries := st.entries.insert key chars })
  triples : e'.services.triples = e.services.triples ∨
    ∃ subject relation object countReg outAddress st t,
      op = .triple (.known .insert) subject relation object countReg outAddress ∧
      e.services.triples = some (.store st) ∧ t ∉ st.triples ∧
      e'.services.triples = some (.store { st with triples := st.triples ++ [t] })
  counter : ∃ n, e.machine.pc = .known n ∧ e'.machine.pc = op.goesTo e.machine.flags n

variable {p : Program} {e e' : Engine} {op : Instruction} {signal : Signal}

/-- A step that completes counts one tick and leaves the machine and the stores as they were,
except for the footprint of its instruction. -/
theorem step_footprint (hm : e.machine.WellFormed) (hop : fetch p e.machine.pc = .ok op)
    (hv : op.Valid) (h : e.step p = (e', signal)) (hs : signal = .halt ∨ ∃ op, signal = .next op) :
    Footprint op e e' := by
  obtain ⟨op', effect, hop', hok, hcommit, -, -⟩ := step_done h hs
  obtain rfl := Except.ok.inj (hop.symm.trans hop')
  have hbounded := (Effect.ofInstruction_bounded _ _ _ _).of_ok hok
  have hservices :
      e'.services = (Effect.ofInstruction p.size e.beginStep.machine e.services op).1 := by
    have hexecute := execute_services p.size op e.beginStep
    rw [← step_of_fetch hop, h] at hexecute
    exact hexecute
  obtain ⟨registers, memory, -, -, hmachine⟩ := Effect.commit_done hcommit
  constructor
  · exact congrArg Machine.tick hmachine
  · exact hbounded.flags.imp_left (congrArg Machine.flags hmachine).trans
  · have htarget := (Effect.ofInstruction_targets _ _ _ _).of_ok hok
    rcases Effect.writeRegister_cases (Effect.commit_registers hcommit) with hsame |
      ⟨i, v, k, hi, hcheck, hset⟩
    · exact Or.inl hsame
    · rw [hi] at htarget
      obtain ⟨j, rfl⟩ := Instruction.destination_known hv htarget.symm
      obtain rfl : j = k := Option.some.inj (RegisterFile.toInt?_of_check hcheck)
      exact Or.inr ⟨k, v, htarget.symm, hset⟩
  · have hfits := (Effect.ofInstruction_settles _ _ _ _).of_ok hok
    refine (Effect.memory_of_commit hbounded hfits hcommit).imp_right ?_
    rintro ⟨base, words, hregion, hover⟩
    exact ⟨base, words, hregion.of_tick, hover⟩
  · rw [hservices]
    exact Effect.ofInstruction_content_cases p.size e.beginStep.machine e.services op
  · rw [hservices]
    exact Effect.ofInstruction_triples_cases p.size e.beginStep.machine e.services op
  · obtain ⟨n, hn⟩ := hm.2.2.2
    exact ⟨n, hn, (congrArg Machine.pc hmachine).trans (hbounded.next n hn)⟩

/-- One register holds the digest and the address of an unfolding, and gets the length. -/
theorem step_footprint_unfold :
    let word (v : Fin 16) : Word := ⟨4, v, by decide, v.isLt⟩
    let st : ContentStore :=
      ⟨4, (∅ : Std.HashMap Word (List Word)).insert (word 2) [word 5, word 6, word 7]⟩
    let op : Instruction := .content (.known .unfold) (.known 0) (.known (.indirect 0)) (.known 0)
    let e : Engine :=
      ⟨⟨⟨4, Vector.replicate 4 (word 2)⟩, {}, ⟨4, Array.replicate 8 (word 0)⟩, .known 0, 0⟩,
      { content := some (.store st) }, 0⟩
    let p : Program := ⟨"main", #[op]⟩
    e.machine.WellFormed ∧ op.Valid ∧ fetch p e.machine.pc = .ok op ∧
      ∃ e', e.step p = (e', .next op) ∧ e'.machine.memory.nonzero = [(2, 5), (3, 6), (4, 7)] ∧
        Footprint op e e' := by
  intro word st op e p
  have hwell : e.machine.WellFormed := by
    refine ⟨fun i => ?_, fun v hv => ?_, rfl, 0, rfl⟩
    · simp [e, word]
    · obtain ⟨-, rfl⟩ := Array.mem_replicate.mp hv
      rfl
  have hvalid : op.Valid := ⟨rfl, ⟨_, rfl⟩, ⟨0, rfl⟩, ⟨.indirect 0, rfl, rfl⟩, ⟨0, rfl⟩⟩
  have hfetch : fetch p e.machine.pc = .ok op := rfl
  have heffect :
      Effect.ofUnfold e.beginStep.machine (.store st) (.known 0) (.known (.indirect 0))
        (.known 0) =
      .ok { next := some (.known 1), register := some (.known 0, word 3),
            cells := (2, [word 5, word 6, word 7]) } := by
    have hheld : st.entries[word 2]? = some [word 5, word 6, word 7] :=
      Std.HashMap.getElem?_insert_self
    have hwidth : ∀ c ∈ [word 5, word 6, word 7], c.width = 4 := by simp [word]
    exact Effect.ofUnfold_eq (j := 0) (k := 0) rfl rfl (Or.inr ⟨0, rfl, rfl⟩) hheld hwidth rfl rfl
      (by decide)
      (by decide)
  have hres : Effect.ofInstruction p.size e.beginStep.machine e.services op =
      (e.services, .ok { next := some (.known 1), register := some (.known 0, word 3),
                         cells := (2, [word 5, word 6, word 7]) }) := Prod.ext rfl heffect
  have hstep := (step_of_fetch hfetch).trans (execute_eq hres (by with_unfolding_all rfl))
  refine ⟨hwell, hvalid, hfetch, _, hstep, by with_unfolding_all rfl, ?_⟩
  exact step_footprint hwell hfetch hvalid hstep (Or.inr ⟨op, rfl⟩)

end Engine
end WordMachine
