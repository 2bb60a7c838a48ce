import WordMachine.Error

/-! How a computation that can fail settles: what holds of its value, and what of its error. -/
namespace WordMachine

/-- A value has the one property, an error the other. -/
def Settles {ε α : Type} (r : Except ε α) (Q : α → Prop) (E : ε → Prop) : Prop :=
  match r with
  | .ok a => Q a
  | .error e => E e

namespace Settles

variable {ε α β : Type} {r : Except ε α} {Q Q' : α → Prop} {R : β → Prop} {E E' : ε → Prop}

theorem mono (h : Settles r Q E) (hQ : ∀ a, Q a → Q' a) (hE : ∀ e, E e → E' e) :
    Settles r Q' E' := by
  cases r with
  | ok a => exact hQ a h
  | error e => exact hE e h

theorem imp (h : Settles r Q E) (hQ : ∀ a, Q a → Q' a) : Settles r Q' E := h.mono hQ fun _ he => he

theorem bind {f : α → Except ε β} (h : Settles r Q E) (hf : ∀ a, Q a → Settles (f a) R E) :
    Settles (r >>= f) R E := by
  cases r with
  | ok a => exact hf a h
  | error e => exact h

/-- Where nothing is asked of an error, only the last step of a computation counts. -/
theorem bind_value {f : α → Except ε β} (h : ∀ a, Settles (f a) R fun _ => True) :
    Settles (r >>= f) R fun _ => True := by
  cases r with
  | ok a => exact h a
  | error e => trivial

theorem map {f : α → β} (h : Settles r (fun a => R (f a)) E) : Settles (f <$> r) R E := by
  cases r with
  | ok a => exact h
  | error e => exact h

theorem pure {a : α} (h : Q a) : Settles (Pure.pure a : Except ε α) Q E := h

/-- A value satisfies the equation that it comes from. -/
theorem eqn (h : Settles r Q E) : Settles r (fun a => r = .ok a ∧ Q a) E := by
  cases r with
  | ok a => exact ⟨rfl, h⟩
  | error e => exact h

theorem self (r : Except ε α) : Settles r (fun a => r = .ok a) fun _ => True := by
  cases r with
  | ok a => rfl
  | error e => trivial

theorem of_ok {a : α} (h : Settles r Q E) (hr : r = .ok a) : Q a := by
  rw [hr] at h
  exact h

theorem of_error {e : ε} (h : Settles r Q E) (hr : r = .error e) : E e := by
  rw [hr] at h
  exact h

/-- A computation that cannot fail has a value. -/
theorem exists_ok (h : Settles r Q fun _ => False) : ∃ a, r = .ok a ∧ Q a := by
  cases r with
  | ok a => exact ⟨a, rfl, h⟩
  | error e => exact h.elim

theorem forM {xs : List β} {f : β → Except ε PUnit}
    (h : ∀ x ∈ xs, Settles (f x) (fun _ => R x) E) :
    Settles (xs.forM f) (fun _ => ∀ x ∈ xs, R x) E := by
  induction xs with
  | nil => exact pure (by simp)
  | cons x xs ih =>
    change Settles (f x >>= fun _ => xs.forM f) _ E
    refine bind (h x List.mem_cons_self) fun _ hx => ?_
    refine (ih fun y hy => h y (List.mem_cons_of_mem _ hy)).imp fun _ hxs => ?_
    intro y hy
    rcases List.mem_cons.mp hy with rfl | hy
    · exact hx
    · exact hxs y hy

theorem forM_eq_ok {xs : List β} {f : β → Except ε PUnit} (h : ∀ x ∈ xs, f x = .ok ⟨⟩) :
    xs.forM f = .ok ⟨⟩ := by
  induction xs with
  | nil => rfl
  | cons x xs ih =>
    change (f x >>= fun _ => xs.forM f) = _
    rw [h x List.mem_cons_self]
    exact ih fun y hy => h y (List.mem_cons_of_mem _ hy)

/-- A fault on its way out of a check becomes an error of the same cause. -/
theorem lift {r : Except Fault α} {E : Error → Prop} (h : Settles r Q fun f => E (.fault f)) :
    Settles (liftM r : Except Error α) Q E := by
  cases r with
  | ok a => exact h
  | error f => exact h

theorem liftWord {r : Except Word.Error α} {E : Error → Prop}
    (h : Settles r Q fun e => E (.word e)) : Settles (liftM r : Except Error α) Q E := by
  cases r with
  | ok a => exact h
  | error e => exact h

end Settles

section
variable {ε α β : Type} (a : α)

theorem ok_bind (f : α → Except ε β) : (Except.ok a >>= f) = f a := rfl

theorem lift_ok : (liftM (.ok a : Except Fault α) : Except Error α) = .ok a := rfl

theorem liftWord_ok : (liftM (.ok a : Except Word.Error α) : Except Error α) = .ok a := rfl

end

/-- The second result is the first, unless the first is an error that is excused. -/
def Follows {ε α : Type} (excused : ε → Prop) (r r' : Except ε α) : Prop :=
  r' = r ∨ ∃ err, r = .error err ∧ excused err

namespace Follows

variable {ε α β : Type} {excused : ε → Prop} {r r' : Except ε α}

theorem refl (r : Except ε α) : Follows excused r r := Or.inl rfl

theorem bind {f f' : α → Except ε β} (h : Follows excused r r')
    (hf : ∀ a, r = .ok a → Follows excused (f a) (f' a)) :
    Follows excused (r >>= f) (r' >>= f') := by
  rcases h with rfl | ⟨err, rfl, hx⟩
  · cases r' with
    | ok a => exact hf a rfl
    | error err => exact .refl _
  · exact Or.inr ⟨err, rfl, hx⟩

end Follows

/-- An error that is known not to be a fault. -/
theorem settles_of_ne_fault {α : Type} {r : Except Error α}
    (h : ∀ {f : Fault}, r ≠ .error (.fault f)) :
    Settles r (fun _ => True) (·.isFault = false) := by
  cases hr : r with
  | ok a => trivial
  | error e =>
    cases e with
    | fault f => exact absurd hr h
    | _ => rfl

/-- The counter and the limit on steps are looked at between instructions, not by one. -/
def Fault.isOfRun : Fault → Bool
  | .counter .. | .stepLimit .. => true
  | _ => false

def Error.isOfRun : Error → Bool
  | .fault f => f.isOfRun
  | _ => false

/-- An error that an instruction may end with. Where the condition holds, it is a fault. -/
def Error.OrderlyIf (H : Prop) (e : Error) : Prop := e.isOfRun = false ∧ (H → e.isFault = true)

namespace Error.OrderlyIf

variable {H : Prop}

theorem of_fault {f : Fault} (h : f.isOfRun = false) : OrderlyIf H (.fault f) := ⟨h, fun _ => rfl⟩

theorem of_not {e : Error} (he : e.isFault = false) (h : ¬ H) : OrderlyIf H e := by
  refine ⟨?_, fun h' => absurd h' h⟩
  cases e with
  | fault f => cases he
  | _ => rfl

end Error.OrderlyIf

theorem Settles.liftFault {H : Prop} {α : Type} {r : Except Fault α} {Q : α → Prop}
    (h : Settles r Q (·.isOfRun = false)) :
    Settles (liftM r : Except Error α) Q (Error.OrderlyIf H) :=
  .lift (h.mono (fun _ ha => ha) fun _ => .of_fault)

namespace Field

variable {α : Type}

theorem not_known_other {v : Scalar} : ¬ (other v : Field α).Known := by
  rintro ⟨a, ha⟩
  cases ha

theorem not_known_absent {kind name : String} : ¬ (absent kind name : Field α).Known := by
  rintro ⟨a, ha⟩
  cases ha

theorem demand_settles {H : Prop} (a : Field α) (h : H → a.Known) :
    Settles a.demand (fun _ => True) (Error.OrderlyIf H) := by
  cases a with
  | known x => trivial
  | other v => trivial
  | absent kind name => exact .of_not rfl fun h' => not_known_absent (h h')

end Field
end WordMachine
