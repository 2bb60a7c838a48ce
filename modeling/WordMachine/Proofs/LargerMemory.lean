import WordMachine.Proofs.Lockstep
import WordMachine.Proofs.Resume
import WordMachine.Proofs.Safety

/-!
More memory. Every access is checked against the size of the memory and then stays within it, so
that cells added at the end change nothing for a run that no address has stopped, and are not
touched by it.
-/
namespace WordMachine

def Memory.extend (m : Memory) (more : Array Word) : Memory := { m with cells := m.cells ++ more }

def Machine.extend (m : Machine) (more : Array Word) : Machine :=
  { m with memory := m.memory.extend more }

def Engine.extend (e : Engine) (more : Array Word) : Engine :=
  { e with machine := e.machine.extend more }

def Error.isAddress : Error → Prop
  | .fault f => f.kind = .address
  | _ => False

theorem Follows.lift {α : Type} {r r' : Except Fault α} (h : Follows (·.kind = .address) r r') :
    Follows Error.isAddress (liftM r : Except Error α) (liftM r') := by
  rcases h with rfl | ⟨f, rfl, hx⟩
  · exact .refl _
  · exact Or.inr ⟨.fault f, rfl, hx⟩

namespace Memory

variable (m : Memory) (more : Array Word)

theorem size_extend : (m.extend more).size = m.size + more.size := Array.size_append

theorem check_extend (address length : Int) :
    Follows (·.kind = .address) (m.check address length)
      ((m.extend more).check address length) := by
  have hsize := m.size_extend more
  unfold check
  by_cases h : address < 0 ∨ m.size < address + length
  · right
    rw [if_pos h]
    split <;> exact ⟨_, rfl, rfl⟩
  · left
    rw [if_neg h, if_neg (by omega)]

theorem read_extend (address : Int) :
    Follows (·.kind = .address) (m.read address) ((m.extend more).read address) := by
  unfold read
  by_cases h : 0 ≤ address ∧ address.toNat < m.cells.size
  · left
    have h' : 0 ≤ address ∧ address.toNat < (m.extend more).cells.size := by
      have hsize := m.size_extend more
      simp only [size] at hsize
      omega
    rw [dif_pos h, dif_pos h']
    exact congrArg Except.ok (Array.getElem_append_left h.2)
  · right
    rw [dif_neg h]
    exact ⟨_, rfl, rfl⟩

theorem readSpan_extend (address length : Nat) :
    Follows (·.kind = .address) (m.readSpan address length)
      ((m.extend more).readSpan address length) := by
  refine (m.check_extend more address length).bind fun _ hc => Or.inl ?_
  have hb : (address : Int) + length ≤ m.size := ((m.check_settles address length).of_ok hc).2
  have hend {m : Memory} : m.spanEnd ((address : Int) + length) = address + length := by
    unfold spanEnd
    rw [if_neg (by omega)]
    omega
  have hcells : (m.extend more).cells.extract address (address + length) =
      m.cells.extract address (address + length) := by
    change (m.cells ++ more).extract address (address + length) = _
    have hzero : address + length - m.cells.size = 0 := by
      simp only [size] at hb
      omega
    rw [Array.extract_append, hzero]
    simp
  rw [hend, hend, Int.toNat_natCast, hcells]

/-- A cell that was there is written as before. -/
theorem write_extend {address : Nat} (h : address < m.size) (v : Word) :
    (m.extend more).write address v = (m.write address v).map (·.extend more) := by
  have hsize := m.size_extend more
  unfold write
  rw [m.check_of_le (by omega) (by omega), (m.extend more).check_of_le (by omega) (by omega)]
  change (m.extend more).put address v = (m.put address v).map (·.extend more)
  unfold put
  by_cases hw : v.width = m.width
  · rw [if_pos hw, if_pos (show v.width = (m.extend more).width from hw)]
    have hcells :
        (m.cells ++ more).setIfInBounds address v = m.cells.setIfInBounds address v ++ more :=
      Array.setIfInBounds_append_left h
    exact congrArg (fun cells : Array Word => Except.ok (Memory.mk m.width cells)) hcells
  · rw [if_neg hw, if_neg (show ¬ v.width = (m.extend more).width from hw)]
    rfl

theorem writeAll_extend {address : Nat} {vs : List Word} (h : address + vs.length ≤ m.size) :
    (m.extend more).writeAll address vs =
      ((m.writeAll address vs).1.extend more, (m.writeAll address vs).2) := by
  induction vs generalizing m address with
  | nil => rfl
  | cons v vs ih =>
    rw [List.length_cons] at h
    unfold writeAll
    rw [m.write_extend more (by omega)]
    cases hw : m.write address v with
    | error err => rfl
    | ok m' =>
      obtain ⟨-, rfl⟩ := (m.write_settles address v).of_ok hw
      apply ih
      simp only [Memory.size, Array.size_setIfInBounds] at h ⊢
      omega

end Memory

namespace Machine

variable (m : Machine) (more : Array Word)

theorem resolveAddress_extend (address : Field Argument) :
    Follows (·.kind = .address) (m.resolveAddress address)
      ((m.extend more).resolveAddress address) := by
  unfold resolveAddress
  split
  next i => exact (m.memory.check_extend more i 1).bind fun _ _ => .refl _
  next r =>
    exact (Follows.refl (m.registers.read r)).bind fun v _ =>
      (m.memory.check_extend more v.value 1).bind fun _ _ => .refl _
  next => exact .refl _

end Machine

namespace Effect

variable (m : Machine) (more : Array Word)

theorem ofLoad_extend (dest : Field Int) (address : Field Argument) :
    Follows Error.isAddress (ofLoad m dest address) (ofLoad (m.extend more) dest address) := by
  refine (Follows.refl (RegisterFile.check dest)).bind fun _ _ => ?_
  refine (Follows.refl address.demand).bind fun _ _ => ?_
  refine (m.resolveAddress_extend more address).lift.bind fun a _ => ?_
  exact (m.memory.read_extend more a).lift.bind fun v _ => .refl _

theorem ofStore_extend (src : Field Int) (address : Field Argument) :
    Follows Error.isAddress (ofStore m src address) (ofStore (m.extend more) src address) := by
  refine (Follows.refl (m.registers.get src)).bind fun v _ => ?_
  refine (Follows.refl address.demand).bind fun _ _ => ?_
  exact (m.resolveAddress_extend more address).lift.bind fun a _ => .refl _

theorem enfoldSpan_extend (store : ContentService) (digestReg lengthReg : Field Int)
    (address : Field Argument) :
    Follows Error.isAddress (enfoldSpan m store digestReg address lengthReg)
      (enfoldSpan (m.extend more) store digestReg address lengthReg) := by
  refine (Follows.refl (RegisterFile.check digestReg)).bind fun _ _ => ?_
  refine (Follows.refl (m.registers.get lengthReg)).bind fun length _ => ?_
  refine (Follows.refl address.demand).bind fun _ _ => ?_
  refine (m.resolveAddress_extend more address).lift.bind fun start _ => ?_
  exact (m.memory.readSpan_extend more start length.value).lift.bind fun chars _ => .refl _

theorem ofUnfold_extend (store : ContentService) (digestReg lengthReg : Field Int)
    (address : Field Argument) :
    Follows Error.isAddress (ofUnfold m store digestReg address lengthReg)
      (ofUnfold (m.extend more) store digestReg address lengthReg) := by
  refine (Follows.refl (m.registers.get digestReg)).bind fun key _ => ?_
  refine (Follows.refl (RegisterFile.check lengthReg)).bind fun _ _ => ?_
  refine (Follows.refl address.demand).bind fun _ _ => ?_
  refine (m.resolveAddress_extend more address).lift.bind fun start _ => ?_
  refine (Follows.refl (contentFault (.unfold key) (store.unfold key))).bind fun chars _ => ?_
  refine (Follows.refl (countWord m chars.length)).bind fun length _ => ?_
  refine (Follows.refl (chars.forM (checkResult m))).bind fun _ _ => ?_
  exact (m.memory.check_extend more start chars.length).lift.bind fun _ _ => .refl _

theorem ofMatches_extend (countReg : Field Int) (found : List Triple)
    (outAddress : Field Argument) :
    Follows Error.isAddress (ofMatches m countReg found outAddress)
      (ofMatches (m.extend more) countReg found outAddress) := by
  refine (Follows.refl (countWord m found.length)).bind fun count _ => ?_
  split
  next => exact .refl _
  next =>
    refine (m.resolveAddress_extend more outAddress).lift.bind fun base _ => ?_
    exact (m.memory.check_extend more base _).lift.bind fun _ _ => .refl _

theorem ofQueryExact_extend (store : TripleService) (t : Triple) (countReg : Field Int)
    (outAddress : Field Argument) :
    Follows Error.isAddress (ofQueryExact m store t countReg outAddress)
      (ofQueryExact (m.extend more) store t countReg outAddress) := by
  refine (Follows.refl (RegisterFile.check countReg)).bind fun _ _ => ?_
  refine (Follows.refl (tripleFault .query (store.queryExact t >>= Triple.sort))).bind
    fun found _ => ?_
  exact ofMatches_extend m more countReg found outAddress

/-- The same services and the same effect, unless an address has stopped the first. -/
def FollowsWith (out out' : Services × Except Error Effect) : Prop :=
  out' = out ∨ ∃ err, out.2 = .error err ∧ err.isAddress

theorem FollowsWith.of_follows {s : Services} {r r' : Except Error Effect}
    (h : Follows Error.isAddress r r') : FollowsWith (s, r) (s, r') := by
  rcases h with rfl | hx
  · exact Or.inl rfl
  · exact Or.inr hx

theorem ofContent_extend (s : Services) (action : Field ContentAction)
    (digestReg lengthReg : Field Int) (address : Field Argument) :
    FollowsWith (ofContent m s action digestReg address lengthReg)
      (ofContent (m.extend more) s action digestReg address lengthReg) := by
  unfold ofContent
  split
  next => exact Or.inl rfl
  next store _ =>
    have hwidth : (m.extend more).width = m.width := rfl
    rw [hwidth]
    split
    next => exact Or.inl rfl
    next =>
      split
      next =>
        rcases enfoldSpan_extend m more store digestReg lengthReg address with heq |
          ⟨err, herr, hx⟩
        · left
          rw [heq]
          rfl
        · right
          rw [herr]
          exact ⟨err, rfl, hx⟩
      next => exact .of_follows (ofUnfold_extend m more store digestReg lengthReg address)
      next => exact Or.inl rfl
      next => exact Or.inl rfl

theorem ofQueryByBasin_extend (d : Dynamics) (store : TripleService) (t : Triple)
    (countReg : Field Int) (outAddress : Field Argument) :
    (ofQueryByBasin (m.extend more) d store t countReg outAddress).1 =
        (ofQueryByBasin m d store t countReg outAddress).1 ∧
      Follows Error.isAddress (ofQueryByBasin m d store t countReg outAddress).2
        (ofQueryByBasin (m.extend more) d store t countReg outAddress).2 := by
  unfold ofQueryByBasin
  split
  next => exact ⟨rfl, .refl _⟩
  next pattern d' _ =>
    split
    next => exact ⟨rfl, .refl _⟩
    next found d'' _ =>
      exact ⟨rfl, (Follows.refl (Triple.sort found)).bind fun sorted _ =>
        ofMatches_extend m more countReg sorted outAddress⟩

theorem ofTriple_extend (s : Services) (action : Field TripleAction)
    (subject relation object : Field Argument) (countReg : Field Int)
    (outAddress : Field Argument) :
    FollowsWith (ofTriple m s action subject relation object countReg outAddress)
      (ofTriple (m.extend more) s action subject relation object countReg outAddress) := by
  have hresolve : resolveTriple (m.extend more) subject relation object =
      resolveTriple m subject relation object := rfl
  unfold ofTriple
  rw [hresolve]
  split
  next => exact Or.inl rfl
  next store _ =>
    split
    next => exact Or.inl rfl
    next t _ =>
      split
      next => exact Or.inl rfl
      next => exact .of_follows (ofQueryExact_extend m more store t countReg outAddress)
      next =>
        split
        next => exact Or.inl rfl
        next d _ =>
          obtain ⟨hd, hr⟩ := ofQueryByBasin_extend m more d store t countReg outAddress
          dsimp only
          rw [hd]
          exact .of_follows hr
      next => exact Or.inl rfl
      next => exact Or.inl rfl

theorem ofInstruction_extend (size : Nat) (s : Services) (op : Instruction) :
    FollowsWith (ofInstruction size m s op) (ofInstruction size (m.extend more) s op) := by
  cases op with
  | load dest address => exact .of_follows (ofLoad_extend m more dest address)
  | store src address => exact .of_follows (ofStore_extend m more src address)
  | content action d address l => exact ofContent_extend m more s action d l address
  | triple action sub r o count out => exact ofTriple_extend m more s action sub r o count out
  | _ => exact Or.inl rfl

/-- An effect that fits is carried out in the memory that was there. -/
theorem commit_extend {e : Effect} (h : e.Fits m) :
    e.commit (m.extend more) = ((e.commit m).1.extend more, (e.commit m).2) := by
  obtain ⟨registers, flags, memory, pc, tick⟩ := m
  have hcells : e.cells.1 + e.cells.2.length ≤ memory.size := h.cells
  have hcells' : e.cells.1 + e.cells.2.length ≤ (memory.extend more).size := by
    rw [memory.size_extend more]
    omega
  unfold commit Machine.extend
  dsimp only
  rw [memory.writeSpan_eq_writeAll hcells, (memory.extend more).writeSpan_eq_writeAll hcells',
    memory.writeAll_extend more hcells]
  generalize memory.writeAll e.cells.1 e.cells.2 = out
  obtain ⟨memory', err⟩ := out
  cases err with
  | some err => rfl
  | none =>
    dsimp only
    split
    · rfl
    · split <;> rfl

end Effect

def extendSeen (more : Array Word) (seen : List (Machine × Instruction)) :
    List (Machine × Instruction) :=
  seen.map fun x => (x.1.extend more, x.2)

theorem record_extend (more : Array Word) (seen : List (Machine × Instruction)) (m : Machine)
    (op : Instruction) :
    record (extendSeen more seen) (m.extend more) op = extendSeen more (record seen m op) := by
  simp [record, extendSeen]

namespace Engine

variable (more : Array Word)

theorem execute_extend (size : Nat) (op : Instruction) (e : Engine) :
    (∃ f, (e.execute size op).2 = .fault f ∧ f.kind = .address) ∨
      (e.extend more).execute size op =
      ((e.execute size op).1.extend more, (e.execute size op).2) := by
  obtain ⟨machine, services, steps⟩ := e
  have hfits := Effect.ofInstruction_settles size machine services op
  rcases Effect.ofInstruction_extend machine more size services op with heq | ⟨err, herr, hx⟩
  · right
    unfold execute Engine.extend
    dsimp only
    rw [heq]
    generalize Effect.ofInstruction size machine services op = out at hfits ⊢
    obtain ⟨services', result⟩ := out
    cases result with
    | error err => rfl
    | ok effect =>
      dsimp only
      rw [Effect.commit_extend machine more hfits]
      generalize effect.commit machine = done
      obtain ⟨machine', failed⟩ := done
      cases failed <;> rfl
  · left
    unfold execute
    dsimp only
    generalize Effect.ofInstruction size machine services op = out at herr ⊢
    obtain ⟨services', result⟩ := out
    obtain rfl : result = .error err := herr
    cases err with
    | fault f => exact ⟨f, rfl, hx⟩
    | _ => exact hx.elim

theorem step_extend (p : Program) (e : Engine) :
    (∃ f, (e.step p).2 = .fault f ∧ f.kind = .address) ∨
      (e.extend more).step p = ((e.step p).1.extend more, (e.step p).2) := by
  have hpc : (e.extend more).machine.pc = e.machine.pc := rfl
  unfold step
  rw [hpc]
  cases fetch p e.machine.pc with
  | error err => exact Or.inr rfl
  | ok op => exact execute_extend more p.size op e.beginStep

/-- A run goes the same way in the larger memory, up to a fault by an address. -/
def inLargerMemory : Correspondence where
  engines e e' := e' = e.extend more
  shown op op' := op' = op
  faults _ f f' := f' = f
  excused f := f.kind = .address

theorem inLargerMemory_lockstep (p : Program) : (inLargerMemory more).Lockstep p p where
  finished := by
    rintro e _ rfl
    exact Iff.rfl
  exhausted := by
    rintro e _ rfl limit
    rfl
  step := by
    rintro e _ rfl
    rcases step_extend more p e with hx | heq
    · exact Or.inl hx
    · right
      rw [heq]
      exact ⟨rfl, .of_eq rfl⟩

theorem runFor_extend (p : Program) (limit left : Nat) (e : Engine)
    (seen : List (Machine × Instruction)) :
    (∃ f, (runFor p limit record left e seen).2.2 = .faulted f ∧ f.kind = .address) ∨
      runFor p limit record left (e.extend more) (extendSeen more seen) =
        ((runFor p limit record left e seen).1.extend more,
          extendSeen more (runFor p limit record left e seen).2.1,
          (runFor p limit record left e seen).2.2) := by
  have hobserve {acc acc' : List (Machine × Instruction)} {e e' : Engine} {op op' : Instruction}
      (hv : acc' = extendSeen more acc) (he : e' = e.extend more) (hop : op' = op) :
      record acc' e'.machine op' = extendSeen more (record acc e.machine op) := by
    rw [hv, he, hop]
    exact record_extend more acc e.machine op
  rcases (inLargerMemory_lockstep more p).runFor (fun acc acc' => acc' = extendSeen more acc)
      hobserve limit left (e := e) rfl rfl with hx | ⟨he, hv, ho⟩
  · exact Or.inl hx
  · exact Or.inr (Prod.ext he (Prod.ext hv ho.eq))

end Engine

/-- A run that ends by a halt or a fault, and not by an address, does the same with more memory: it
ends in the same way with the same state and services, shows the same on its way, and leaves the
further cells as they were. -/
theorem runProgram_extend {p : Program} {m : Machine} {s : Services} {limit : Int} {e : Engine}
    {seen : List (Machine × Instruction)} {o : Ending}
    (h : runProgram p m s limit record [] = .ok (e, seen, o)) (hc : ∀ err, o ≠ .crashed err)
    (ha : ∀ f, o = .faulted f → f.kind ≠ .address) (more : Array Word) :
    runProgram p (m.extend more) s limit record [] =
      .ok (e.extend more, extendSeen more seen, o) := by
  have hl := limit_pos_of_runProgram h
  rw [runProgram_eq hl] at h ⊢
  cases h
  have hrep := (reportable_eq_or_crashed _ _).resolve_right fun ⟨err, he⟩ => hc err he
  rw [hrep] at ha
  have hstart : (⟨m.extend more, s, 0⟩ : Engine) = Engine.extend ⟨m, s, 0⟩ more := rfl
  rcases Engine.runFor_extend more p limit.toNat limit.toNat ⟨m, s, 0⟩ [] with ⟨f, hf, hx⟩ | heq
  · exact absurd hx (ha f hf)
  · rw [hstart, show Engine.runFor _ _ _ _ _ [] = _ from heq]
    rfl

/-- A loop that reads and writes each cell through a register, and then a fault that is not by an
address. -/
theorem runProgram_extend_scan :
    let word (v : Nat) (h : v < 16) : Word := ⟨4, v, by decide, h⟩
    let one := word 1 (by decide)
    let two := word 2 (by decide)
    let m : Machine :=
      ⟨⟨4, Vector.replicate 4 (word 0 (by decide))⟩, {}, ⟨4, #[two, two]⟩, .known 0, 0⟩
    let p : Program := ⟨"main", #[.load (.known 1) (.known (.indirect 0)),
      .store (.known 0) (.known (.indirect 0)),
      .alu (.known .add) (.known 0) (.known (.reg 0)) (.known (.imm one)),
      .alu (.known .sub) (.known 2) (.known (.imm two)) (.known (.reg 0)),
      .jumpIf (.known .notZero) (.known 0), .loadConst (.known 7) (.known one)]⟩
    let more := #[two, one, one]
    let f : Fault := .registerIndex (.known 7)
    f.kind ≠ .address ∧ ∃ e seen, runProgram p m {} 20 record [] = .ok (e, seen, .faulted f) ∧
      runProgram p (m.extend more) {} 20 record [] =
        .ok (e.extend more, extendSeen more seen, .faulted f) := by
  intro word one two m p more f
  have hk : f.kind ≠ .address := by decide
  obtain ⟨⟨e, seen, o⟩, hrun, ho⟩ : ∃ out, runProgram p m {} 20 record [] = .ok out ∧
      out.2.2 = .faulted f := ⟨_, rfl, by decide +kernel⟩
  obtain rfl : o = .faulted f := ho
  have ha : ∀ f', Ending.faulted f = .faulted f' → f'.kind ≠ .address := by
    rintro _ ⟨⟩
    exact hk
  exact ⟨hk, e, seen, hrun, runProgram_extend hrun (fun _ h => nomatch h) ha more⟩

end WordMachine
