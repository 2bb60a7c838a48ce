import WordMachine.Machine

/-!
A snapshot leaves out the cells that are zero and the widths of all words. Between states of one
width and one size of memory nothing is lost by that: a cell that is missing from the list is zero.
-/
namespace WordMachine

namespace Memory

variable {m n : Memory} {i : Nat} {x y : Word}

theorem mem_nonzero_iff {v : Nat} :
    (i, v) ∈ m.nonzero ↔ v ≠ 0 ∧ ∃ cell, m.cells[i]? = some cell ∧ cell.value = v := by
  simp only [nonzero, List.mem_filter, List.mem_mapIdx, decide_eq_true_eq]
  constructor
  · rintro ⟨⟨j, hj, heq⟩, hv⟩
    obtain ⟨rfl, rfl⟩ := Prod.mk.inj heq
    exact ⟨hv, _, by simp, rfl⟩
  · rintro ⟨hv, cell, hcell, rfl⟩
    obtain ⟨hi, rfl⟩ := Array.getElem?_eq_some_iff.mp hcell
    exact ⟨⟨i, by simpa using hi, by simp⟩, hv⟩

/-- Of a cell that is not zero the list tells the value. -/
theorem value_of_nonzero (h : ∀ c ∈ m.nonzero, c ∈ n.nonzero) (hx : m.cells[i]? = some x)
    (hy : n.cells[i]? = some y) : x.value = 0 ∨ x.value = y.value := by
  by_cases hzero : x.value = 0
  · exact Or.inl hzero
  · have hlisted : (i, x.value) ∈ n.nonzero := h _ (mem_nonzero_iff.mpr ⟨hzero, x, hx, rfl⟩)
    obtain ⟨-, cell, hcell, hvalue⟩ := mem_nonzero_iff.mp hlisted
    obtain rfl : y = cell := Option.some.inj (hy.symm.trans hcell)
    exact Or.inr hvalue.symm

theorem cells_eq_of_nonzero (hm : m.WellFormed) (hn : n.WellFormed) (hwidth : m.width = n.width)
    (hsize : m.size = n.size) (h : ∀ c, c ∈ m.nonzero ↔ c ∈ n.nonzero) : m.cells = n.cells := by
  refine Array.ext hsize fun i hi hj => ?_
  have hx := Array.getElem?_eq_getElem hi
  have hy := Array.getElem?_eq_getElem hj
  have hw : m.cells[i].width = n.cells[i].width := by
    rw [hm _ (Array.getElem_mem hi), hn _ (Array.getElem_mem hj), hwidth]
  -- a cell that one list leaves out, the other leaves out as well
  have hxy := value_of_nonzero (fun c => (h c).mp) hx hy
  have hyx := value_of_nonzero (fun c => (h c).mpr) hy hx
  exact Word.ext_value hw (by omega)

end Memory

theorem RegisterFile.values_eq_of_map {r s : RegisterFile} (hr : r.WellFormed) (hs : s.WellFormed)
    (hwidth : r.width = s.width)
    (h : r.values.toList.map Word.value = s.values.toList.map Word.value) :
    r.values = s.values := by
  refine Vector.ext fun i hi => ?_
  have hw : r.values[i].width = s.values[i].width :=
    (hr ⟨i, hi⟩).trans (hwidth.trans (hs ⟨i, hi⟩).symm)
  have hvalue : r.values[i].value = s.values[i].value := by
    have hat := congrArg (·[i]?) h
    simpa [hi] using hat
  exact Word.ext_value hw hvalue

namespace Machine

/-- Two states are the same in every register, flag and cell, and in counter and tick. -/
structure SameParts (m n : Machine) : Prop where
  registers (i : Fin 4) : m.registers.values.get i = n.registers.values.get i
  flags : m.flags = n.flags
  cells (address : Nat) : m.memory.cells[address]? = n.memory.cells[address]?
  pc : m.pc = n.pc
  tick : m.tick = n.tick

/-- Two snapshots say the same, in whatever order they list the cells. -/
structure Snapshot.Same (s t : Snapshot) : Prop where
  registers : s.registers = t.registers
  flags : s.flags = t.flags
  pc : s.pc = t.pc
  tick : s.tick = t.tick
  memory (cell : Nat × Nat) : cell ∈ s.memory ↔ cell ∈ t.memory

variable {m n : Machine}

/-- Integers agree as counters only if they are equal. -/
theorem agrees_iff_eq (hm : m.pc.Known) (hn : n.pc.Known) : m.agrees n = true ↔ m = n := by
  obtain ⟨p, hp⟩ := hm
  obtain ⟨q, hq⟩ := hn
  cases m
  cases n
  subst hp hq
  simp only [agrees, Field.toInt?, Bool.and_eq_true, Bool.or_eq_true, decide_eq_true_eq, mk.injEq,
    Field.known.injEq, Option.some.injEq, Option.isSome_some]
  grind

theorem SameParts.eq (h : m.SameParts n) (hm : m.WellFormed) (hn : n.WellFormed)
    (hwidth : m.width = n.width) : m = n := by
  obtain ⟨-, -, hw, -⟩ := hm
  obtain ⟨-, -, hw', -⟩ := hn
  have hvalues : m.registers.values = n.registers.values :=
    Vector.ext fun i hi => h.registers ⟨i, hi⟩
  have hcells : m.memory.cells = n.memory.cells := Array.ext_getElem? h.cells
  have hmemory : m.memory.width = n.memory.width := hw.trans (hwidth.trans hw'.symm)
  obtain ⟨⟨_, _⟩, _, ⟨_, _⟩, _, _⟩ := m
  obtain ⟨⟨_, _⟩, _, ⟨_, _⟩, _, _⟩ := n
  obtain rfl := hvalues
  obtain rfl := hcells
  obtain rfl := hmemory
  obtain rfl := hwidth
  obtain rfl := h.flags
  obtain rfl := h.pc
  obtain rfl := h.tick
  rfl

theorem Snapshot.Same.sameParts (h : m.snapshot.Same n.snapshot) (hm : m.WellFormed)
    (hn : n.WellFormed) (hwidth : m.width = n.width) (hsize : m.memory.size = n.memory.size) :
    m.SameParts n := by
  obtain ⟨hregs, hmem, hw, -⟩ := hm
  obtain ⟨hregs', hmem', hw', -⟩ := hn
  have hvalues := RegisterFile.values_eq_of_map hregs hregs' hwidth h.registers
  have hcells :=
    Memory.cells_eq_of_nonzero hmem hmem' (hw.trans (hwidth.trans hw'.symm)) hsize h.memory
  exact ⟨fun i => congrArg (·.get i) hvalues, h.flags, fun a => congrArg (·[a]?) hcells,
    h.pc, h.tick⟩

/-- Snapshots tell apart exactly the states that do not agree, and so do their entries in any
order. To agree is to have the same registers, flags, cells, counter and tick. -/
theorem snapshot_faithful (hm : m.WellFormed) (hn : n.WellFormed) (hwidth : m.width = n.width)
    (hsize : m.memory.size = n.memory.size) :
    (m.snapshot = n.snapshot ↔ m.agrees n = true) ∧
      (m.snapshot.Same n.snapshot ↔ m.agrees n = true) ∧ (m.agrees n = true ↔ m.SameParts n) := by
  rw [agrees_iff_eq hm.2.2.2 hn.2.2.2]
  have same_of_eq (h : m.snapshot = n.snapshot) : m.snapshot.Same n.snapshot := by
    rw [h]
    exact ⟨rfl, rfl, rfl, rfl, fun _ => Iff.rfl⟩
  have parts_of_same (h : m.snapshot.Same n.snapshot) : m.SameParts n :=
    h.sameParts hm hn hwidth hsize
  have eq_of_parts (h : m.SameParts n) : m = n := h.eq hm hn hwidth
  refine ⟨⟨fun h => ?_, fun h => ?_⟩, ⟨fun h => ?_, fun h => ?_⟩, fun h => ?_, eq_of_parts⟩
  · exact eq_of_parts (parts_of_same (same_of_eq h))
  · exact congrArg snapshot h
  · exact eq_of_parts (parts_of_same h)
  · exact same_of_eq (congrArg snapshot h)
  · exact parts_of_same (same_of_eq (congrArg snapshot h))

/-- The same words with a zero before or behind the first of them: the lists have equal values and
differ in an address only. -/
theorem snapshot_faithful_moved_zero :
    let word (v : Fin 16) : Word := ⟨4, v, by decide, v.isLt⟩
    let holding (cells : Array Word) : Machine :=
      ⟨⟨4, #v[word 1, word 0, word 15, word 0]⟩, ⟨true, false⟩, ⟨4, cells⟩, .known 2, 5⟩
    let m := holding #[word 7, word 0, word 9]
    let n := holding #[word 0, word 7, word 9]
    m.WellFormed ∧ n.WellFormed ∧ m.width = n.width ∧ m.memory.size = n.memory.size ∧
      m.snapshot.memory = [(0, 7), (2, 9)] ∧ n.snapshot.memory = [(1, 7), (2, 9)] ∧
      m.agrees n = false ∧ ¬ m.snapshot.Same n.snapshot ∧ ¬ m.SameParts n := by
  intro word holding m n
  have hregisters : ∀ i : Fin 4, (m.registers.values.get i).width = 4 := by decide
  have hm : m.WellFormed :=
    ⟨hregisters, by simp [m, holding, word, Memory.WellFormed], rfl, _, rfl⟩
  have hn : n.WellFormed :=
    ⟨hregisters, by simp [n, holding, word, Memory.WellFormed], rfl, _, rfl⟩
  obtain ⟨hsnapshot, hsame, hparts⟩ := snapshot_faithful hm hn rfl rfl
  have hdiffer : ¬ m.agrees n = true := fun h => absurd (hsnapshot.mpr h) (by decide)
  exact ⟨hm, hn, rfl, rfl, by decide, by decide, Bool.eq_false_iff.mpr hdiffer,
    fun h => hdiffer (hsame.mp h), fun h => hdiffer (hparts.mpr h)⟩

end Machine
end WordMachine
