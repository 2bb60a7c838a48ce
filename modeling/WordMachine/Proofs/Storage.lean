import WordMachine.Machine
import WordMachine.Proofs.Settle

/-!
Registers and memory as their checks leave them. A check names the register or the cells that a
later write may use; a write that was checked is refused only for the width of its word.
-/
namespace WordMachine

namespace RegisterFile

theorem slot_settles (index : Int) : Settles (slot index) (fun i => (i : Int) = index)
    (· = .registerIndex (.known index)) := by
  unfold slot
  split
  next h => exact Int.toNat_of_nonneg h.1
  next h => exact rfl

theorem check_settles {H : Prop} (index : Field Int) (hk : H → index.Known) :
    Settles (check index) (fun i => H → ∃ j, i = some j) (Error.OrderlyIf H) := by
  have unknown {v : Scalar} (hv : index = .other v) : ¬ H :=
    fun h => Field.not_known_other (hv ▸ hk h)
  unfold check
  split
  next n =>
    refine .bind (.liftFault ((slot_settles n).mono (fun _ h => h) ?_)) fun i _ => .pure fun _ =>
      ⟨i, rfl⟩
    rintro f rfl
    rfl
  next b => exact fun h => absurd h (unknown rfl)
  next x =>
    split
    · exact fun h => absurd h (unknown rfl)
    · exact .of_fault rfl
  next v => exact .of_not rfl (unknown rfl)
  next kind name => exact .of_not rfl fun h => Field.not_known_absent (hk h)

/-- A register that can be read can be named again to be written. -/
theorem get_settles {H : Prop} (r : RegisterFile) (index : Field Int) (hk : H → index.Known) :
    Settles (r.get index)
      (fun v => (∃ i : Fin 4, v = r.values.get i) ∧ ∃ i, check index = .ok i)
      (Error.OrderlyIf H) := by
  refine (check_settles index hk).eqn.bind fun i hi => ?_
  cases i with
  | some i => exact .pure ⟨⟨i, rfl⟩, some i, hi.1⟩
  | none =>
    refine .of_not rfl fun h => ?_
    obtain ⟨j, hj⟩ := hi.2 h
    cases hj

/-- Once its index has passed the check, a register refuses a word only by its width, unless the
index is none. -/
theorem set_settles (r : RegisterFile) {index : Field Int} {i : Option (Fin 4)} (v : Word)
    (hi : check index = .ok i) :
    Settles (r.set index v)
      (fun r' => v.width = r.width ∧ ∃ j, i = some j ∧
        r' = { r with values := r.values.set j v j.isLt })
      fun e => e.isFault = false ∧ (v.width = r.width → i = none) := by
  unfold set
  rw [hi]
  change Settles (r.put i v) _ _
  unfold put
  split
  next hw =>
    cases i with
    | some j => exact ⟨hw, j, rfl, rfl⟩
    | none => exact ⟨rfl, fun _ => rfl⟩
  next hw => exact ⟨rfl, fun h => absurd h hw⟩

theorem WellFormed.set {r : RegisterFile} (h : r.WellFormed) {v : Word} (hv : v.width = r.width)
    (j : Fin 4) : ({ r with values := r.values.set j v j.isLt } : RegisterFile).WellFormed := by
  intro i
  simp only [Fin.getElem_fin, Vector.getElem_set]
  split
  · exact hv
  · exact h i

theorem get_of_check {r : RegisterFile} {index : Field Int} {j : Fin 4}
    (h : check index = .ok (some j)) : r.get index = .ok (r.values.get j) := by
  unfold get
  rw [h]
  rfl

theorem set_of_check {r : RegisterFile} {index : Field Int} {j : Fin 4} {v : Word}
    (h : check index = .ok (some j)) (hv : v.width = r.width) :
    r.set index v = .ok { r with values := r.values.set j v j.isLt } := by
  unfold set
  rw [h]
  change r.put (some j) v = _
  rw [put, if_pos hv]

theorem get_of_set {r r' : RegisterFile} {index : Field Int} {v : Word}
    (h : r.set index v = .ok r') : r'.get index = .ok v := by
  cases hj : check index with
  | error e =>
    unfold set at h
    rw [hj] at h
    cases h
  | ok j =>
    obtain ⟨-, j, rfl, rfl⟩ := (r.set_settles v hj).of_ok h
    rw [get_of_check hj]
    exact congrArg Except.ok (Vector.getElem_set_self j.isLt)

end RegisterFile

namespace Memory

theorem check_settles (m : Memory) (address length : Int) :
    Settles (m.check address length) (fun _ => 0 ≤ address ∧ address + length ≤ m.size)
      (·.isOfRun = false) := by
  unfold check
  split
  next h => split <;> exact rfl
  next h => exact ⟨by omega, by omega⟩

theorem check_of_le (m : Memory) {address length : Int} (h₀ : 0 ≤ address)
    (h : address + length ≤ m.size) : m.check address length = .ok () := by
  unfold check
  rw [if_neg (by omega)]

theorem read_settles (m : Memory) (address : Int) :
    Settles (m.read address) (· ∈ m.cells) (·.isOfRun = false) := by
  unfold read
  split
  next h => exact Array.getElem_mem h.2
  next h => exact rfl

theorem readSpan_settles (m : Memory) (address length : Nat) :
    Settles (m.readSpan address length)
      (fun vs => address + length ≤ m.size ∧
        vs = (m.cells.extract address (address + length)).toList) (·.isOfRun = false) := by
  refine (m.check_settles address length).bind fun _ h => .pure ⟨by omega, ?_⟩
  have hs : m.spanEnd ((address : Int) + length) = address + length := by
    unfold spanEnd
    rw [if_neg (by omega)]
    omega
  rw [hs, Int.toNat_natCast]

theorem write_settles (m : Memory) (address : Int) (v : Word) :
    Settles (m.write address v)
      (fun m' => v.width = m.width ∧
        m' = { m with cells := m.cells.setIfInBounds address.toNat v })
      fun e => e.isFault = true ∧ (0 ≤ address → ¬ address + 1 ≤ m.size) ∨
        e = .cellWidth v m.width ∧ v.width ≠ m.width := by
  unfold write
  by_cases h : 0 ≤ address ∧ address + 1 ≤ m.size
  · rw [m.check_of_le h.1 h.2]
    change Settles (m.put address.toNat v) _ _
    unfold put
    split
    next hw => exact ⟨hw, rfl⟩
    next hw => exact Or.inr ⟨rfl, hw⟩
  · unfold check
    rw [if_pos (by omega)]
    exact Or.inl ⟨rfl, fun h₀ h₁ => h ⟨h₀, h₁⟩⟩

/-- Writes keep the shape of a memory, also those before one that is refused. -/
theorem writeAll_keeps (m : Memory) (address : Int) (vs : List Word) :
    (m.writeAll address vs).1.width = m.width ∧ (m.writeAll address vs).1.size = m.size ∧
      (m.WellFormed → (m.writeAll address vs).1.WellFormed) := by
  induction vs generalizing m address with
  | nil => exact ⟨rfl, rfl, id⟩
  | cons v vs ih =>
    unfold writeAll
    split
    next m' hm =>
      obtain ⟨hv, rfl⟩ := (m.write_settles address v).of_ok hm
      obtain ⟨hw, hs, hf⟩ :=
        ih { m with cells := m.cells.setIfInBounds address.toNat v } (address + 1)
      refine ⟨hw, hs.trans Array.size_setIfInBounds, fun h => hf fun x hx => ?_⟩
      rcases Array.mem_or_eq_of_mem_setIfInBounds hx with hx | rfl
      · exact h x hx
      · exact hv
    next e he => exact ⟨rfl, rfl, id⟩

/-- Within a span that lies in memory only the width of a word can be wrong. -/
theorem writeAll_error {m : Memory} {address : Int} {vs : List Word} {e : Error} (h₀ : 0 ≤ address)
    (h : address + vs.length ≤ m.size) (he : (m.writeAll address vs).2 = some e) :
    ∃ v ∈ vs, v.width ≠ m.width ∧ e = .cellWidth v m.width := by
  induction vs generalizing m address with
  | nil => cases he
  | cons v vs ih =>
    simp only [List.length_cons, Int.natCast_add, Int.cast_ofNat_Int] at h
    unfold writeAll at he
    split at he
    next m' hm =>
      obtain ⟨-, rfl⟩ := (m.write_settles address v).of_ok hm
      have hs : address + 1 + vs.length ≤
          Memory.size { m with cells := m.cells.setIfInBounds address.toNat v } := by
        rw [Memory.size, Array.size_setIfInBounds]
        exact Int.le_trans (by omega) h
      obtain ⟨x, hx, hxw, rfl⟩ := ih (by omega) hs he
      exact ⟨x, List.mem_cons_of_mem _ hx, hxw, rfl⟩
    next err herr =>
      cases he
      rcases (m.write_settles address v).of_error herr with ⟨-, hb⟩ | ⟨rfl, hw⟩
      · exact absurd (by omega) (hb h₀)
      · exact ⟨v, List.mem_cons_self, hw, rfl⟩

/-- Words of the right width come to stand in the cells of the span, and no other cell changes. -/
theorem writeAll_cells {m : Memory} {address : Nat} {vs : List Word}
    (h : address + vs.length ≤ m.size) (hw : ∀ v ∈ vs, v.width = m.width) :
    (m.writeAll address vs).2 = none ∧ ∀ k, (m.writeAll address vs).1.cells[k]? =
      if address ≤ k ∧ k < address + vs.length then vs[k - address]? else m.cells[k]? := by
  induction vs generalizing m address with
  | nil =>
    refine ⟨rfl, fun k => ?_⟩
    rw [if_neg (by simp only [List.length_nil]; omega)]
    rfl
  | cons v vs ih =>
    simp only [List.length_cons] at h
    have hv : v.width = m.width := hw v List.mem_cons_self
    have hm : m.write address v = .ok { m with cells := m.cells.setIfInBounds address v } := by
      unfold write
      rw [m.check_of_le (by omega) (by omega)]
      change m.put address v = _
      rw [put, if_pos hv]
    have ih' := @ih { m with cells := m.cells.setIfInBounds address v } (address + 1)
      (by rw [Memory.size, Array.size_setIfInBounds]; exact Nat.le_trans (by omega) h)
      (fun x hx => hw x (List.mem_cons_of_mem _ hx))
    unfold writeAll
    rw [hm]
    refine ⟨ih'.1, fun k => (ih'.2 k).trans ?_⟩
    rw [Array.getElem?_setIfInBounds]
    rcases Nat.lt_trichotomy k address with hk | rfl | hk
    · rw [if_neg (by omega), if_neg (by omega), if_neg (by omega)]
    · have hs : k < m.cells.size := Nat.lt_of_lt_of_le (by omega) h
      rw [if_neg (by omega), if_pos rfl, if_pos hs, if_pos (by simp), Nat.sub_self]
      rfl
    · have hi : k - address = k - (address + 1) + 1 := by omega
      simp only [List.length_cons, hi, List.getElem?_cons_succ]
      rw [if_neg (show ¬ address = k by omega)]
      exact ite_congr (propext (by omega)) (fun _ => rfl) fun _ => rfl

/-- The words stand in the cells from an address on, and every other cell is as it was. -/
def Overlaid (m : Memory) (base : Nat) (vs : List Word) (m' : Memory) : Prop :=
  m'.width = m.width ∧ ∀ k, m'.cells[k]? =
    if base ≤ k ∧ k < base + vs.length then vs[k - base]? else m.cells[k]?

theorem writeAll_cons_of_ok {m m' : Memory} {address : Int} {v : Word}
    (h : m.write address v = .ok m') (vs : List Word) :
    m.writeAll address (v :: vs) = m'.writeAll (address + 1) vs := by
  rw [writeAll, h]

theorem writeAll_cons_of_error {m : Memory} {address : Int} {v : Word} {e : Error}
    (h : m.write address v = .error e) (vs : List Word) :
    m.writeAll address (v :: vs) = (m, some e) := by
  rw [writeAll, h]

theorem writeAll_append {m : Memory} {address : Int} {us : List Word}
    (h : (m.writeAll address us).2 = none) (vs : List Word) :
    m.writeAll address (us ++ vs) = (m.writeAll address us).1.writeAll
      (address + us.length) vs := by
  induction us generalizing m address with
  | nil =>
    rw [List.nil_append, List.length_nil, Int.natCast_zero, Int.add_zero]
    rfl
  | cons u us ih =>
    cases hm : m.write address u with
    | ok m' =>
      have hstart : address + ((u :: us).length : Int) = address + 1 + us.length := by
        rw [List.length_cons]
        omega
      rw [writeAll_cons_of_ok hm] at h
      rw [List.cons_append, writeAll_cons_of_ok hm, writeAll_cons_of_ok hm, hstart]
      exact ih h
    | error e =>
      rw [writeAll_cons_of_error hm] at h
      cases h

/-- A word of another width is refused by a cell that exists. -/
theorem write_refused {m : Memory} {address : Int} {v : Word} (h₀ : 0 ≤ address)
    (h : address + 1 ≤ m.size) (hv : v.width ≠ m.width) :
    m.write address v = .error (.cellWidth v m.width) := by
  unfold write
  rw [m.check_of_le h₀ h]
  change m.put address.toNat v = _
  rw [put, if_neg hv]

/-- Words of the right width are all written. Otherwise the first word of another width is refused,
and the ones before it stay written. -/
theorem writeAll_cases (m : Memory) {base : Nat} {vs : List Word} (h : base + vs.length ≤ m.size) :
    ((∀ v ∈ vs, v.width = m.width) ∧
        (m.writeAll base vs).2 = none ∧ m.Overlaid base vs (m.writeAll base vs).1) ∨
      ∃ before v after, vs = before ++ v :: after ∧ (∀ x ∈ before, x.width = m.width) ∧
        v.width ≠ m.width ∧ (m.writeAll base vs).2 = some (.cellWidth v m.width) ∧
        m.Overlaid base before (m.writeAll base vs).1 := by
  have written {us : List Word} (hb : base + us.length ≤ m.size)
      (hw : ∀ v ∈ us, v.width = m.width) :
      (m.writeAll base us).2 = none ∧ m.Overlaid base us (m.writeAll base us).1 := by
    obtain ⟨hok, hcells⟩ := writeAll_cells hb hw
    exact ⟨hok, (m.writeAll_keeps base us).1, hcells⟩
  cases hfind : vs.find? fun v => v.width ≠ m.width with
  | none =>
    have hw : ∀ v ∈ vs, v.width = m.width := by simpa using hfind
    exact Or.inl ⟨hw, written h hw⟩
  | some v =>
    right
    obtain ⟨hne, before, after, rfl, hbefore⟩ := List.find?_eq_some_iff_append.mp hfind
    have hne : v.width ≠ m.width := by simpa using hne
    have hbefore : ∀ x ∈ before, x.width = m.width := by simpa using hbefore
    obtain ⟨hok, hover⟩ := written (by rw [List.length_append] at h; omega) hbefore
    have hstop : m.writeAll base (before ++ v :: after) =
        ((m.writeAll base before).1, some (.cellWidth v m.width)) := by
      obtain ⟨hwidth, hsize, -⟩ := m.writeAll_keeps base before
      rw [List.length_append, List.length_cons] at h
      rw [writeAll_append hok, ← hwidth]
      apply writeAll_cons_of_error
      exact write_refused (by omega) (by rw [hsize]; omega) (by rw [hwidth]; exact hne)
    rw [hstop]
    exact ⟨before, v, after, rfl, hbefore, hne, rfl, hover⟩

/-- A span that lies in memory is not refused as a whole. -/
theorem writeSpan_eq_writeAll (m : Memory) {address : Nat} {vs : List Word}
    (h : address + vs.length ≤ m.size) : m.writeSpan address vs = m.writeAll address vs := by
  unfold writeSpan
  rw [m.check_of_le (by omega) (by omega)]

/-- A span that was written as a whole stands in memory. -/
theorem overlaid_of_writeSpan {m m' : Memory} {base : Nat} {vs : List Word}
    (h : base + vs.length ≤ m.size) (hw : m.writeSpan base vs = (m', none)) :
    m.Overlaid base vs m' := by
  rw [m.writeSpan_eq_writeAll h] at hw
  rcases m.writeAll_cases h with ⟨-, -, hover⟩ | ⟨before, v, after, -, -, -, herr, -⟩
  · rw [hw] at hover
    exact hover
  · rw [hw] at herr
    cases herr

end Memory

namespace Machine

theorem resolveAddress_settles (m : Machine) (address : Field Argument) :
    Settles (m.resolveAddress address) (· < m.memory.size) (·.isOfRun = false) := by
  unfold resolveAddress
  split
  next i => exact (m.memory.check_settles i 1).bind fun _ h => .pure (by omega)
  next r =>
    refine Settles.bind (Q := fun _ => True) ?_ fun v _ => ?_
    · refine Settles.bind (Q := fun _ => True) ?_ fun _ _ => .pure trivial
      refine (RegisterFile.slot_settles r).mono (fun _ _ => trivial) ?_
      rintro f rfl
      rfl
    · exact (m.memory.check_settles v.value 1).bind fun _ h => .pure (by omega)
  next => exact rfl

end Machine
end WordMachine
