import Mathlib.Data.Nat.Notation
import WordMachine.Proofs.ServiceEffects

/-!
Faults in decoding. A valid instruction can only meet those that no check of the instruction alone
could foresee: a register that is not there, a word of another width, a rule that is not found.
Nothing is asked of the machine or the services.
-/
namespace WordMachine

/-- A lookup by name or key that found nothing. -/
def Error.isLookup : Error → Bool
  | .unknownRule .. | .missingKey _ => true
  | _ => false

/-- No rule has the name, or the one that has it fails at the word by a lookup of its own. -/
def Dynamics.Misses (d : Dynamics) (name : String) (x : Word) : Prop :=
  d.rules.contains name = false ∨
    ∃ r err, d.rules.get name = .ok r ∧ r.apply x = .error err ∧ err.isLookup = true

/-- The faults in decoding that are left to accepted programs, on a machine of the given width and
with the given rules missed. -/
inductive Fault.Unforeseen (w : ℕ) (missed : String → Prop) : Fault → Prop
  | registerIndex {i : Int} (h : ¬ (0 ≤ i ∧ i < 4)) :
    Unforeseen w missed (.registerIndex (.known i))
  | immediateWidth {v : Word} (h : v.width ≠ w) : Unforeseen w missed (.immediateWidth v w)
  | constantWidth {v : Word} (h : v.width ≠ w) : Unforeseen w missed (.constantWidth v w)
  | unknownRule {name : String} (h : missed name) : Unforeseen w missed (.unknownRule name)

def Fault.Excused (w : ℕ) (missed : String → Prop) (f : Fault) : Prop :=
  f.kind = .decode → f.Unforeseen w missed

def Error.Excused (w : ℕ) (missed : String → Prop) : Error → Prop
  | .fault f => f.Excused w missed
  | _ => True

variable {w : ℕ} {missed : String → Prop}

theorem Fault.excused_of_kind {f : Fault} (h : f.kind ≠ .decode) : f.Excused w missed :=
  fun hk => absurd hk h

theorem Error.excused_of_not_fault {e : Error} (h : e.isFault = false) : e.Excused w missed := by
  cases e with
  | fault f => cases h
  | _ => trivial

/-- A computation whose only faults in decoding are unforeseen ones. -/
abbrev Excused {α : Type} (w : ℕ) (missed : String → Prop) (r : Except Error α) : Prop :=
  Settles r (fun _ => True) (Error.Excused w missed)

abbrev ExcusedCheck {α : Type} (w : ℕ) (missed : String → Prop) (r : Except Fault α) : Prop :=
  Settles r (fun _ => True) (Fault.Excused w missed)

section Rules
variable {α β : Type}

theorem ExcusedCheck.lift {r : Except Fault α} (h : ExcusedCheck w missed r) :
    Excused w missed (liftM r : Except Error α) := Settles.lift h

theorem Excused.bind {r : Except Error α} {f : α → Except Error β} (h : Excused w missed r)
    (hf : ∀ a, Excused w missed (f a)) : Excused w missed (r >>= f) :=
  Settles.bind h fun a _ => hf a

theorem ExcusedCheck.bind {r : Except Fault α} {f : α → Except Fault β}
    (h : ExcusedCheck w missed r) (hf : ∀ a, ExcusedCheck w missed (f a)) :
    ExcusedCheck w missed (r >>= f) :=
  Settles.bind h fun a _ => hf a

theorem Excused.ok (a : α) : Excused w missed (.ok a) := trivial

/-- A computation that does not fault. -/
theorem excused_of_settles {r : Except Error α} {Q : α → Prop} {E : Error → Prop}
    (h : Settles r Q fun e => e.isFault = false ∧ E e) : Excused w missed r :=
  h.mono (fun _ _ => trivial) fun _ he => Error.excused_of_not_fault he.1

end Rules

namespace RegisterFile

theorem slot_excused (index : Int) : ExcusedCheck w missed (slot index) := by
  unfold slot
  split
  next => trivial
  next h => exact fun _ => .registerIndex h

theorem read_excused (r : RegisterFile) (index : Int) : ExcusedCheck w missed (r.read index) :=
  (slot_excused index).bind fun _ => trivial

theorem check_excused {index : Field Int} (h : index.Known) : Excused w missed (check index) := by
  obtain ⟨n, rfl⟩ := h
  exact (slot_excused n).lift.bind fun _ => trivial

theorem get_excused (r : RegisterFile) {index : Field Int} (h : index.Known) :
    Excused w missed (r.get index) := by
  refine (check_excused h).bind fun i => ?_
  cases i <;> trivial

end RegisterFile

namespace Memory

theorem check_excused (m : Memory) (address length : Int) :
    ExcusedCheck w missed (m.check address length) := by
  unfold check
  split
  next =>
    split
    · exact Fault.excused_of_kind nofun
    · exact Fault.excused_of_kind nofun
  next => trivial

theorem read_excused (m : Memory) (address : Int) : ExcusedCheck w missed (m.read address) := by
  unfold read
  split
  next => trivial
  next => exact Fault.excused_of_kind nofun

theorem readSpan_excused (m : Memory) (address length : Int) :
    ExcusedCheck w missed (m.readSpan address length) :=
  (m.check_excused address length).bind fun _ => trivial

end Memory

theorem Machine.resolveAddress_excused (m : Machine) {address : Field Argument}
    (h : address.Address) : ExcusedCheck w missed (m.resolveAddress address) := by
  obtain ⟨a, rfl, ha⟩ := h
  cases a with
  | absolute i => exact (m.memory.check_excused i 1).bind fun _ => trivial
  | indirect r =>
    refine (m.registers.read_excused r).bind fun v => ?_
    exact (m.memory.check_excused v.value 1).bind fun _ => trivial
  | reg i => cases ha
  | imm v => cases ha

theorem Field.demand_excused {α : Type} {a : Field α} (h : a.Known) :
    Excused w missed a.demand := by
  obtain ⟨x, rfl⟩ := h
  trivial

namespace Alu

theorem resolve_excused (r : RegisterFile) {a : Field Argument} (h : a.Operand) :
    ExcusedCheck r.width missed (resolve r a) := by
  obtain ⟨x, rfl, hx⟩ := h
  cases x with
  | reg i => exact r.read_excused i
  | imm v =>
    by_cases hw : v.width = r.width
    · simp only [resolve, if_pos hw]
      trivial
    · simp only [resolve, if_neg hw]
      exact fun _ => .immediateWidth hw
  | absolute i => cases hx
  | indirect i => cases hx

/-- The operations that check out with one operand are those that need no more. -/
theorem isUnary_of_aluDefect {opcode : Opcode} {a : Field Argument}
    (h : aluDefect opcode a .null = none) : opcode.isUnary = true := by
  cases opcode with
  | not => rfl
  | loadk => rfl
  | mov => rfl
  | _ => cases h

theorem execute_excused {opcode : Field Opcode} {dest : Field Int} {a b : Field Argument}
    (hv : (Instruction.alu opcode dest a b).Valid) (r : RegisterFile) (flags : Flags) :
    Excused r.width missed (execute opcode r flags a b) := by
  obtain ⟨hdefect, ⟨op, rfl⟩, -, ha, hb⟩ := hv
  refine (resolve_excused r ha).lift.bind fun x => ?_
  split
  next => exact .ok _
  next => exact .ok _
  next h => cases h
  next h => cases h
  next op' hk hm h =>
    cases h
    split
    next =>
      -- Of the operations with one operand only the negation is left here.
      have hu := isUnary_of_aluDefect hdefect
      split
      next => exact .ok _
      next hnot =>
        cases op with
        | not => exact absurd rfl hnot
        | loadk => exact absurd rfl hk
        | mov => exact absurd rfl hm
        | _ => cases hu
    next hn =>
      refine (resolve_excused r (hb.resolve_left hn)).lift.bind fun y => ?_
      exact Excused.bind (.liftWord (.mono (binary_settles op x y) (fun _ _ => trivial) fun _ _ =>
        trivial))
        fun _ => .ok _

end Alu

theorem RuleSet.contains_eq_false {s : RuleSet} {name : String} {err : Error}
    (h : s.get name = .error err) : s.contains name = false := by
  unfold get at h
  split at h
  next => cases h
  next hn =>
    have hne := List.lookup_eq_none_iff.mp hn
    unfold contains names
    rw [List.contains_eq_mem, decide_eq_false_iff_not]
    intro hmem
    obtain ⟨entry, hentry, rfl⟩ := List.mem_map.mp hmem
    simpa using hne entry hentry

namespace Effect

variable {m : Machine}

theorem raise_excused {α : Type} {f : Fault} (h : f.kind ≠ .decode) :
    Excused w missed (raise f : Except Error α) := Fault.excused_of_kind h

section Refusals
variable {α : Type} {r : Except Error α} {Q : α → Prop} {E : Error → Prop} {f : StoreError → Fault}
  (hf : ∀ e, (f e).kind ≠ .decode) (h : Settles r Q fun e => e.isFault = false ∧ E e)
include hf h

theorem contentFault_excused : Excused w missed (contentFault f r) := by
  unfold contentFault
  split
  next err => exact raise_excused (hf err)
  next => exact excused_of_settles h

theorem tripleFault_excused : Excused w missed (tripleFault f r) := by
  unfold tripleFault
  split
  next err =>
    split
    · exact raise_excused (hf err)
    · trivial
  next => exact excused_of_settles h

end Refusals

theorem countWord_excused (count : Nat) : Excused w missed (countWord m count) := by
  unfold countWord
  split
  next =>
    refine Settles.liftWord ?_
    cases Word.ofInt count m.width <;> trivial
  next => exact raise_excused nofun

theorem checkResult_excused (v : Word) : Excused w missed (checkResult m v) := by
  unfold checkResult
  split
  next => exact .ok _
  next => exact raise_excused nofun

theorem checkTarget_excused (size : Nat) {target : Field Int} (h : target.Known) :
    Excused w missed (checkTarget size target) := by
  obtain ⟨n, rfl⟩ := h
  simp only [checkTarget]
  split
  next => exact .ok _
  next => exact raise_excused nofun

theorem ofAlu_excused {opcode : Field Opcode} {dest : Field Int} {a b : Field Argument}
    (hv : (Instruction.alu opcode dest a b).Valid) :
    Excused m.width missed (ofAlu m opcode dest a b) := by
  refine (RegisterFile.check_excused hv.2.2.1).bind fun _ => ?_
  refine (Field.demand_excused hv.2.1).bind fun _ => ?_
  refine (Field.demand_excused hv.2.2.2.1.known).bind fun _ => ?_
  exact (Alu.execute_excused hv m.registers m.flags).bind fun _ => .ok _

theorem ofLoad_excused {dest : Field Int} {address : Field Argument} (hd : dest.Known)
    (ha : address.Address) : Excused w missed (ofLoad m dest address) := by
  refine (RegisterFile.check_excused hd).bind fun _ => ?_
  refine (Field.demand_excused ha.known).bind fun _ => ?_
  refine (m.resolveAddress_excused ha).lift.bind fun a => ?_
  exact (m.memory.read_excused a).lift.bind fun _ => .ok _

theorem ofStore_excused {src : Field Int} {address : Field Argument} (hs : src.Known)
    (ha : address.Address) : Excused w missed (ofStore m src address) := by
  refine (m.registers.get_excused hs).bind fun _ => ?_
  refine (Field.demand_excused ha.known).bind fun _ => ?_
  exact (m.resolveAddress_excused ha).lift.bind fun _ => .ok _

theorem ofLoadConst_excused {dest : Field Int} {value : Field Word} (hd : dest.Known)
    (hv : value.Known) : Excused m.width missed (ofLoadConst m dest value) := by
  obtain ⟨v, rfl⟩ := hv
  refine (RegisterFile.check_excused hd).bind fun _ => ?_
  dsimp only
  split
  next => exact .ok _
  next hw => exact fun _ => .constantWidth hw

theorem ofMoveReg_excused {dest src : Field Int} (hd : dest.Known) (hs : src.Known) :
    Excused w missed (ofMoveReg m dest src) := by
  refine (m.registers.get_excused hs).bind fun _ => ?_
  exact (RegisterFile.check_excused hd).bind fun _ => .ok _

section Content
variable {digestReg lengthReg : Field Int} {address : Field Argument}
  (hd : digestReg.Known) (ha : address.Address) (hl : lengthReg.Known)
include hd ha hl

theorem enfoldSpan_excused (store : ContentService) :
    Excused w missed (enfoldSpan m store digestReg address lengthReg) := by
  refine (RegisterFile.check_excused hd).bind fun _ => ?_
  refine (m.registers.get_excused hl).bind fun length => ?_
  refine (Field.demand_excused ha.known).bind fun _ => ?_
  refine (m.resolveAddress_excused ha).lift.bind fun start => ?_
  refine (m.memory.readSpan_excused start length.value).lift.bind fun chars => ?_
  exact contentFault_excused (fun _ => nofun) (store.enfold_settles chars)

theorem ofUnfold_excused (store : ContentService) :
    Excused w missed (ofUnfold m store digestReg address lengthReg) := by
  refine (m.registers.get_excused hd).bind fun key => ?_
  refine (RegisterFile.check_excused hl).bind fun _ => ?_
  refine (Field.demand_excused ha.known).bind fun _ => ?_
  refine (m.resolveAddress_excused ha).lift.bind fun start => ?_
  refine (contentFault_excused (f := .unfold key) (fun _ => nofun) (store.unfold_settles key)).bind
    fun chars => ?_
  refine (countWord_excused chars.length).bind fun _ => ?_
  refine Settles.bind (Settles.forM fun c _ => checkResult_excused c) fun _ _ => ?_
  exact (m.memory.check_excused start chars.length).lift.bind fun _ => .ok _

theorem ofContent_excused {action : Field ContentAction} (hk : action.Known) (s : Services) :
    Excused w missed (ofContent m s action digestReg address lengthReg).2 := by
  obtain ⟨action, rfl⟩ := hk
  unfold ofContent
  split
  next => exact raise_excused nofun
  next store _ =>
    split
    next => exact raise_excused nofun
    next =>
      cases action with
      | enfold =>
        dsimp only
        split
        next e he => exact (enfoldSpan_excused hd ha hl store).of_error he
        next key _ _ => exact (checkResult_excused key).bind fun _ => .ok _
      | unfold => exact ofUnfold_excused hd ha hl store

end Content

theorem resolveOptional_excused {a : Field Argument} (h : a = .null ∨ a.Operand) :
    ExcusedCheck m.width missed (resolveOptional m a) := by
  unfold resolveOptional
  split
  next => trivial
  next hn => exact .map (Alu.resolve_excused m.registers (h.resolve_left hn))

theorem resolveTriple_excused {subject relation object : Field Argument}
    (hs : subject = .null ∨ subject.Operand) (hr : relation = .null ∨ relation.Operand)
    (ho : object = .null ∨ object.Operand) :
    ExcusedCheck m.width missed (resolveTriple m subject relation object) := by
  refine (resolveOptional_excused hs).bind fun _ => ?_
  refine (resolveOptional_excused hr).bind fun _ => ?_
  exact (resolveOptional_excused ho).bind fun _ => trivial

section Queries
variable {countReg : Field Int} {outAddress : Field Argument} (hc : countReg.Known)
  (ha : outAddress = .null ∨ outAddress.Address)
include ha

theorem ofMatches_excused (countReg : Field Int) (found : List Triple) :
    Excused w missed (ofMatches m countReg found outAddress) := by
  refine (countWord_excused found.length).bind fun _ => ?_
  split
  next => exact .ok _
  next hn =>
    refine (m.resolveAddress_excused (ha.resolve_left hn)).lift.bind fun base => ?_
    exact (m.memory.check_excused base _).lift.bind fun _ => .ok _

include hc

theorem ofQueryExact_excused (store : TripleService) (t : Triple) :
    Excused w missed (ofQueryExact m store t countReg outAddress) := by
  refine (RegisterFile.check_excused hc).bind fun _ => ?_
  refine (tripleFault_excused (f := .query) (E := fun _ => True) (Q := fun _ => True)
    (fun _ => nofun) ?_).bind fun found => ofMatches_excused ha countReg found
  refine Settles.bind
    ((store.queryExact_settles t).mono (fun _ h => h) fun _ he => ⟨he.1, trivial⟩)
    fun found _ => ?_
  exact (Triple.sort_settles found).mono (fun _ _ => trivial) fun _ he => ⟨he.1, trivial⟩

theorem ofQueryByBasin_excused (d : Dynamics) (store : TripleService) (t : Triple) :
    Excused w missed (ofQueryByBasin m d store t countReg outAddress).2 := by
  unfold ofQueryByBasin
  split
  next e he =>
    exact Error.excused_of_not_fault ((basinPattern_settles (H := False) nofun t).of_error he).1
  next pattern d _ =>
    have hfind : Excused w missed (findByBasin d store pattern countReg) :=
      (RegisterFile.check_excused hc).bind fun _ =>
        tripleFault_excused (fun _ => nofun) (store.queryWith_settles d pattern)
    split
    next e he => exact hfind.of_error he
    next found _ _ =>
      exact (excused_of_settles (Triple.sort_settles found)).bind fun sorted =>
        ofMatches_excused ha countReg sorted

end Queries

theorem ofTriple_excused {action : Field TripleAction}
    {subject relation object outAddress : Field Argument} {countReg : Field Int} (s : Services)
    (hv : (Instruction.triple action subject relation object countReg outAddress).Valid) :
    Excused m.width missed
      (ofTriple m s action subject relation object countReg outAddress).2 := by
  obtain ⟨action, rfl⟩ := hv.2.1
  have ⟨_, _, hs, hr, ho, _, ha⟩ := hv
  unfold ofTriple
  split
  next => exact raise_excused nofun
  next store _ =>
    split
    next f hf => exact (resolveTriple_excused hs hr ho).of_error hf
    next t _ =>
      cases action with
      | insert =>
        dsimp only
        split
        next e he =>
          exact (tripleFault_excused (f := .insert) (fun _ => nofun)
            (store.insert_settles t)).of_error he
        next => exact .ok _
      | queryExact => exact ofQueryExact_excused (countReg_of_query hv nofun) ha store t
      | queryByBasin =>
        dsimp only
        split
        next => exact raise_excused nofun
        next d _ => exact ofQueryByBasin_excused (countReg_of_query hv nofun) ha d store t

theorem applyNamed_excused (d : Dynamics) {name : String} {x : Word}
    (hmissed : d.Misses name x → missed name) :
    Excused w missed (applyNamed d (.known name) x) := by
  change Excused w missed (ruleFault name (d.rules.get name >>= fun r => r.apply x))
  cases hr : d.rules.get name with
  | error err =>
    have hno := RuleSet.contains_eq_false hr
    unfold RuleSet.get at hr
    split at hr
    next => cases hr
    next =>
      cases hr
      exact fun _ => .unknownRule (hmissed (Or.inl hno))
  | ok r =>
    rw [ok_bind]
    cases hy : r.apply x with
    | ok y => trivial
    | error err =>
      cases err with
      | unknownRule _ _ => exact fun _ => .unknownRule (hmissed (Or.inr ⟨r, _, hr, hy, rfl⟩))
      | missingKey _ => exact fun _ => .unknownRule (hmissed (Or.inr ⟨r, _, hr, hy, rfl⟩))
      | fault f => exact absurd hy r.apply_ne_fault
      | _ => trivial

theorem ofApplyRule_excused {dynamics : Option Dynamics} {name : String} {reg : Int}
    (hmissed : ∀ {x d}, m.registers.get (.known reg) = .ok x → dynamics = some d →
      d.Misses name x → missed name) :
    Excused w missed (ofApplyRule m dynamics (.known name) (.known reg)) := by
  cases dynamics with
  | none => exact raise_excused nofun
  | some d =>
    have hget : Excused w missed (m.registers.get (.known reg)) :=
      m.registers.get_excused ⟨reg, rfl⟩
    unfold ofApplyRule
    dsimp only
    cases hx : m.registers.get (.known reg) with
    | error err => exact hget.of_error hx
    | ok x =>
      refine (applyNamed_excused d (hmissed hx rfl)).bind fun y => ?_
      exact (checkResult_excused y).bind fun _ => .ok _

theorem ofJumpIf_excused {size : Nat} {condition : Field Condition} {target : Field Int}
    (hc : condition.Known) (ht : target.Known) :
    Excused w missed (ofJumpIf size m condition target) := by
  obtain ⟨c, rfl⟩ := hc
  exact (checkTarget_excused size ht).bind fun _ => .ok _

/-- A valid instruction meets no fault in decoding but the unforeseen ones. -/
theorem ofInstruction_excused (size : Nat) (m : Machine) (s : Services) {op : Instruction}
    (hv : op.Valid) (hmissed : ∀ {name reg x d}, op = .applyRule (.known name) (.known reg) →
      m.registers.get (.known reg) = .ok x → s.dynamics = some d → d.Misses name x → missed name) :
    Excused m.width missed (ofInstruction size m s op).2 := by
  cases op with
  | alu opcode dest a b => exact ofAlu_excused hv
  | load dest address => exact ofLoad_excused hv.2.1 hv.2.2
  | store src address => exact ofStore_excused hv.2.1 hv.2.2
  | loadConst dest v => exact ofLoadConst_excused hv.2.1 hv.2.2
  | moveReg dest src => exact ofMoveReg_excused hv.2.1 hv.2.2
  | content action d address l => exact ofContent_excused hv.2.2.1 hv.2.2.2.1 hv.2.2.2.2 hv.2.1 s
  | triple action sub r o count out => exact ofTriple_excused s hv
  | applyRule rule reg =>
    obtain ⟨-, ⟨name, rfl⟩, reg, rfl⟩ := hv
    exact ofApplyRule_excused (hmissed rfl)
  | jumpIf condition target => exact ofJumpIf_excused hv.2.1 hv.2.2
  | jump target => exact (checkTarget_excused size hv.2).bind fun _ => .ok _
  | halt => exact .ok _
  | foreign kind => exact hv.2.elim

end Effect

end WordMachine
