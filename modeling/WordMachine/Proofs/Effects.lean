import WordMachine.Effect
import WordMachine.Proofs.Storage

/-!
The effects of instructions. An effect writes only where the checks before it looked, and a valid
instruction on a well-formed machine fails only by a fault. Both are followed through each
instruction once, since they meet the same checks. The instructions that use a service follow in a
module of their own.
-/
namespace WordMachine

namespace RegisterFile

theorem WellFormed.width_of_mem {r : RegisterFile} (h : r.WellFormed) {v : Word}
    (hv : ∃ i : Fin 4, v = r.values.get i) : v.width = r.width := by
  obtain ⟨i, rfl⟩ := hv
  exact h i

theorem WellFormed.width_pos {r : RegisterFile} (h : r.WellFormed) : 0 < r.width := by
  rw [← h 0]
  exact (r.values.get 0).width_pos

theorem read_settles (r : RegisterFile) (index : Int) :
    Settles (r.read index) (fun v => ∃ i : Fin 4, v = r.values.get i) (·.isOfRun = false) := by
  refine ((slot_settles index).mono (fun _ h => h) ?_).bind fun i _ => .pure ⟨i, rfl⟩
  rintro f rfl
  rfl

theorem read_fin (r : RegisterFile) (j : Fin 4) : r.read j = .ok (r.values.get j) := by
  unfold read slot
  rw [dif_pos ⟨Int.natCast_nonneg _, Int.ofNat_lt.mpr j.isLt⟩]
  rfl

end RegisterFile

namespace Alu

theorem resolve_settles (r : RegisterFile) (a : Field Argument) :
    Settles (resolve r a) (fun v => r.WellFormed → v.width = r.width) (·.isOfRun = false) := by
  unfold resolve
  split
  next i => exact (r.read_settles i).imp fun v hv h => h.width_of_mem hv
  next v =>
    split
    next hw => exact fun _ => hw
    next => rfl
  next => rfl

theorem width_shift {f : Word → Nat → Word} (hf : ∀ x k, (f x k).width = x.width) (a : Word)
    (k out : Nat) (beyond : Bool) : (shift f a k out beyond).1.width = a.width := by
  unfold shift
  split
  · rfl
  · split <;> exact hf a k

theorem width_rotate (a : Word) (k : Nat) : (rotate a k).1.width = a.width := by
  unfold rotate
  split
  · rfl
  · exact a.width_rotateLeft k

theorem rippleAdd_settles (a b : Word) (carry : Bool) :
    Settles (rippleAdd a b carry) (fun r => a.width = b.width → r.1.width = a.width)
      fun _ => a.width ≠ b.width := by
  unfold rippleAdd
  split
  next h =>
    intro _
    change (addBits (a.bits.zip b.bits) carry).1.length = a.width
    simp [length_addBits, ← h]
  next h => exact h

/-- Words of one width have a result of that width. -/
theorem binary_settles (opcode : Opcode) (a b : Word) :
    Settles (binary opcode a b) (fun r => a.width = b.width → r.1.width = a.width)
      fun _ => a.width ≠ b.width := by
  have bitwise {f : Nat → Nat → Nat} {r : Except Word.Error Word}
      (hr : r = do Word.sameWidth a b; return a.wrap (f a.value b.value)) :
      Settles (do return (← r, false))
        (fun r : Word × Bool => a.width = b.width → r.1.width = a.width)
        fun _ => a.width ≠ b.width := by
    subst hr
    unfold Word.sameWidth
    split
    next h => exact fun _ => rfl
    next h => exact Ne.symm h
  cases opcode with
  | add => exact rippleAdd_settles a b false
  | sub => exact rippleAdd_settles a b.not true
  | and => exact bitwise rfl
  | or => exact bitwise rfl
  | xor => exact bitwise rfl
  | not => exact fun _ => rfl
  | shl => exact fun _ => width_shift Word.width_shiftLeft ..
  | shr => exact fun _ => width_shift Word.width_shiftRight ..
  | sar => exact fun _ => width_shift Word.width_shiftRightArith ..
  | rol => exact fun _ => width_rotate a b.value
  | loadk => exact fun _ => rfl
  | mov => exact fun _ => rfl

theorem execute_settles {H : Prop} (opcode : Field Opcode) (r : RegisterFile) (flags : Flags)
    (a b : Field Argument) (h : H → opcode.Known ∧ r.WellFormed) :
    Settles (execute opcode r flags a b) (fun p => r.WellFormed → p.1.width = r.width)
      (Error.OrderlyIf H) := by
  refine (Settles.liftFault (resolve_settles r a)).bind fun x hx => ?_
  split
  next => exact .pure hx
  next => exact .pure hx
  next v =>
    split
    · exact .of_not rfl fun h' => Field.not_known_other (h h').1
    · exact .of_fault rfl
  next kind name => exact .of_not rfl fun h' => Field.not_known_absent (h h').1
  next op _ _ =>
    split
    next =>
      split
      · exact .pure hx
      · exact .of_fault rfl
    next =>
      refine (Settles.liftFault (resolve_settles r _)).bind fun y hy => ?_
      have same (hr : r.WellFormed) : x.width = y.width := (hx hr).trans (hy hr).symm
      refine Settles.bind (Q := fun p => r.WellFormed → p.1.width = r.width) ?_ fun p hp =>
        .pure hp
      refine .liftWord
        ((binary_settles op x y).mono (fun p hp hr => (hp (same hr)).trans (hx hr)) ?_)
      intro e he
      exact .of_not rfl fun h' => he (same (h h').2)

/-- An operand denotes a word: it is a register that holds the word, or the word itself. -/
inductive Denotes (r : RegisterFile) : Field Argument → Word → Prop
  | reg (j : Fin 4) : Denotes r (.known (.reg j)) (r.values.get j)
  | imm {v : Word} (h : v.width = r.width) : Denotes r (.known (.imm v)) v

namespace Denotes

variable {r : RegisterFile} {a b : Field Argument} {x y : Word}

theorem resolve (h : Denotes r a x) : Alu.resolve r a = .ok x := by
  cases h with
  | reg j => exact r.read_fin j
  | imm h => simp [Alu.resolve, h]

theorem width (h : Denotes r a x) (hr : r.WellFormed) : x.width = r.width := by
  cases h with
  | reg j => exact hr j
  | imm h => exact h

/-- An operation on words that are there sets the flags by its result. -/
theorem execute {opcode : Opcode} (hop : opcode ≠ .loadk ∧ opcode ≠ .mov) (ha : Denotes r a x)
    (hb : Denotes r b y) (flags : Flags) {result : Word × Bool}
    (h : binary opcode x y = .ok result) :
    execute (.known opcode) r flags a b = .ok (withFlags result) := by
  have hknown : ∃ c, b = .known c := by cases hb <;> exact ⟨_, rfl⟩
  obtain ⟨c, rfl⟩ := hknown
  unfold Alu.execute
  rw [ha.resolve, lift_ok, ok_bind]
  cases opcode with
  | loadk => exact absurd rfl hop.1
  | mov => exact absurd rfl hop.2
  | _ =>
    dsimp only
    rw [hb.resolve, lift_ok, ok_bind, h]
    rfl

end Denotes
end Alu

theorem Field.Known.succ {pc : Field Int} (h : pc.Known) : pc.succ.Known := by
  obtain ⟨n, rfl⟩ := h
  exact ⟨n + 1, rfl⟩

theorem Field.Operand.known {a : Field Argument} (h : a.Operand) : a.Known := by
  obtain ⟨x, rfl, -⟩ := h
  exact ⟨x, rfl⟩

theorem Field.Address.known {a : Field Argument} (h : a.Address) : a.Known := by
  obtain ⟨x, rfl, -⟩ := h
  exact ⟨x, rfl⟩

namespace Effect

/-- The cells lie in memory, and the register has been looked up. -/
structure Fits (e : Effect) (m : Machine) : Prop where
  cells : e.cells.1 + e.cells.2.length ≤ m.memory.size
  register : ∀ {i : Field Int} {v : Word}, e.register = some (i, v) →
    ∃ j, RegisterFile.check i = .ok j

/-- Every word has the width of the machine and none is missing; register and counter are
integers. -/
structure Proper (e : Effect) (m : Machine) : Prop where
  next : ∀ {pc : Field Int}, e.next = some pc → pc.Known
  register : ∀ {i : Field Int} {v : Word}, e.register = some (i, v) → i.Known ∧ v.width = m.width
  cells : ∀ v ∈ e.cells.2, v.width = m.width
  gap : e.gap = false

/-- There is an effect, which fits, or an error. Where the condition holds, the effect is proper or
the error is a fault. -/
abbrev Behaves (m : Machine) (H : Prop) (r : Except Error Effect) : Prop :=
  Settles r (fun e => e.Fits m ∧ (H → e.Proper m)) (Error.OrderlyIf H)

variable {m : Machine} {H : Prop}

theorem behaves_next {next : Option (Field Int)} (h : H → ∀ pc, next = some pc → pc.Known) :
    Behaves m H (.ok { next }) := by
  refine ⟨⟨Nat.zero_le _, ?_⟩, fun h' => ⟨?_, ?_, ?_, rfl⟩⟩
  · rintro _ _ ⟨⟩
  · exact h h' _
  · rintro _ _ ⟨⟩
  · simp

theorem behaves_register {i : Field Int} {j : Option (Fin 4)} {v : Word} {flags : Option Flags}
    (hj : RegisterFile.check i = .ok j) (h : H → m.pc.Known ∧ i.Known ∧ v.width = m.width) :
    Behaves m H (.ok { next := some m.pc.succ, register := some (i, v), flags }) := by
  refine ⟨⟨Nat.zero_le _, ?_⟩, fun h' => ⟨?_, ?_, ?_, rfl⟩⟩
  · rintro _ _ ⟨⟩
    exact ⟨j, hj⟩
  · rintro _ ⟨⟩
    exact (h h').1.succ
  · rintro _ _ ⟨⟩
    exact (h h').2
  · simp

theorem checkResult_settles (v : Word) :
    Settles (checkResult m v) (fun _ => v.width = m.width) (Error.OrderlyIf H) := by
  unfold checkResult
  split
  next h => exact h
  next => exact .of_fault rfl

theorem checkTarget_settles (size : Nat) (target : Field Int) (ht : H → target.Known) :
    Settles (checkTarget size target) (fun _ => True) (Error.OrderlyIf H) := by
  unfold checkTarget
  split
  · split
    · trivial
    · exact .of_fault rfl
  · split
    · trivial
    · exact .of_fault rfl
  · split
    · trivial
    · exact .of_fault rfl
  · exact .of_not rfl fun h => Field.not_known_other (ht h)
  · exact .of_not rfl fun h => Field.not_known_absent (ht h)

section Machine
variable (hm : H → m.WellFormed)
include hm

theorem ofAlu_behaves {opcode : Field Opcode} {dest : Field Int} {a b : Field Argument}
    (ho : H → opcode.Known) (hd : H → dest.Known) (ha : H → a.Operand) :
    Behaves m H (ofAlu m opcode dest a b) := by
  refine (RegisterFile.check_settles dest hd).eqn.bind fun i hi => ?_
  refine (opcode.demand_settles ho).bind fun _ _ => ?_
  refine (a.demand_settles fun h => (ha h).known).bind fun _ _ => ?_
  refine (Alu.execute_settles opcode m.registers m.flags a b fun h => ⟨ho h, (hm h).1⟩).bind
    fun r hr => ?_
  exact behaves_register hi.1 fun h => ⟨(hm h).2.2.2, hd h, hr (hm h).1⟩

theorem ofLoad_behaves {dest : Field Int} {address : Field Argument} (hd : H → dest.Known)
    (ha : H → address.Address) : Behaves m H (ofLoad m dest address) := by
  refine (RegisterFile.check_settles dest hd).eqn.bind fun i hi => ?_
  refine (address.demand_settles fun h => (ha h).known).bind fun _ _ => ?_
  refine (Settles.liftFault (m.resolveAddress_settles address)).bind fun a _ => ?_
  refine (Settles.liftFault (m.memory.read_settles a)).bind fun v hv => ?_
  exact behaves_register hi.1 fun h => ⟨(hm h).2.2.2, hd h, ((hm h).2.1 v hv).trans (hm h).2.2.1⟩

theorem ofStore_behaves {src : Field Int} {address : Field Argument} (hs : H → src.Known)
    (ha : H → address.Address) : Behaves m H (ofStore m src address) := by
  refine (m.registers.get_settles src hs).bind fun v hv => ?_
  refine (address.demand_settles fun h => (ha h).known).bind fun _ _ => ?_
  refine (Settles.liftFault (m.resolveAddress_settles address)).bind fun a ha => .pure ?_
  refine ⟨⟨ha, ?_⟩, fun h => ⟨?_, ?_, ?_, rfl⟩⟩
  · rintro _ _ ⟨⟩
  · rintro _ ⟨⟩
    exact (hm h).2.2.2.succ
  · rintro _ _ ⟨⟩
  · intro x hx
    obtain rfl := List.mem_singleton.mp hx
    exact (hm h).1.width_of_mem hv.1

theorem ofLoadConst_behaves {dest : Field Int} {value : Field Word} (hd : H → dest.Known)
    (hv : H → value.Known) : Behaves m H (ofLoadConst m dest value) := by
  refine (RegisterFile.check_settles dest hd).eqn.bind fun i hi => ?_
  cases value with
  | known v =>
    by_cases hw : v.width = m.width
    · simp only [hw, if_true]
      exact behaves_register hi.1 fun h => ⟨(hm h).2.2.2, hd h, hw⟩
    · simp only [hw, if_false]
      exact .of_fault rfl
  | other v => exact .of_not rfl fun h => Field.not_known_other (hv h)
  | absent kind name => exact .of_not rfl fun h => Field.not_known_absent (hv h)

theorem ofMoveReg_behaves {dest src : Field Int} (hd : H → dest.Known) (hs : H → src.Known) :
    Behaves m H (ofMoveReg m dest src) := by
  refine (m.registers.get_settles src hs).bind fun v hv => ?_
  refine (RegisterFile.check_settles dest hd).eqn.bind fun i hi => ?_
  exact behaves_register hi.1 fun h => ⟨(hm h).2.2.2, hd h, (hm h).1.width_of_mem hv.1⟩

theorem ofJumpIf_behaves {size : Nat} {condition : Field Condition} {target : Field Int}
    (hc : H → condition.Known) (ht : H → target.Known) :
    Behaves m H (ofJumpIf size m condition target) := by
  refine (checkTarget_settles size target ht).bind fun _ _ => ?_
  cases condition with
  | known c =>
    refine behaves_next fun h pc hpc => ?_
    obtain rfl := Option.some.inj hpc
    split
    · exact ht h
    · exact (hm h).2.2.2.succ
  | other v => exact .of_fault rfl
  | absent kind name => exact .of_not rfl fun h => Field.not_known_absent (hc h)

end Machine

theorem ofJump_behaves {size : Nat} {target : Field Int} (ht : H → target.Known) :
    Behaves m H (ofJump size target) := by
  refine (checkTarget_settles size target ht).bind fun _ _ => ?_
  refine behaves_next fun h pc hpc => ?_
  obtain rfl := Option.some.inj hpc
  exact ht h

end Effect
end WordMachine
