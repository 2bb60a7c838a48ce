import Mathlib.Order.Interval.Set.Basic
import WordMachine.Proofs.CountedRuns

/-!
Copying a block of memory. The program moves one cell in each round, and counts the cells that are
left. The two pointers may come round to zero after the last cell, when they are not used any more.
-/
namespace WordMachine

/-- Copies as many cells as the third register holds, from where the first one points to where the
second one points. The last register holds the word that is moved. -/
def Program.copy (one : Word) : Program :=
  ⟨"copy", #[
    .load (.known 3) (.known (.indirect 0)),
    .store (.known 3) (.known (.indirect 1)),
    .alu (.known .add) (.known 0) (.known (.reg 0)) (.known (.imm one)),
    .alu (.known .add) (.known 1) (.known (.reg 1)) (.known (.imm one)),
    .alu (.known .sub) (.known 2) (.known (.reg 2)) (.known (.imm one)),
    .jumpIf (.known .notZero) (.known 0),
    .halt]⟩

namespace Memory

variable {m m' : Memory} {w s t n : ℕ} {v : Word}

theorem getElem?_withCell (h : t < m.size) (v : Word) (k : ℕ) :
    (m.withCell t v).cells[k]? = if t = k then some v else m.cells[k]? := by
  unfold withCell
  rw [Array.getElem?_setIfInBounds]
  exact ite_congr rfl (fun hk => if_pos (hk ▸ h)) fun _ => rfl

theorem WellFormed.withCell (hm : m.WellFormed) (hv : v.width = m.width) :
    (m.withCell t v).WellFormed := by
  intro x hx
  rcases Array.mem_or_eq_of_mem_setIfInBounds hx with hx | rfl
  · exact hm x hx
  · exact hv

/-- The two blocks lie in memory and have no cell in common, and words of the width reach all their
cells. -/
structure Copyable (m : Memory) (w s t n : ℕ) : Prop where
  wellFormed : m.WellFormed
  width : m.width = w
  source : s + n ≤ m.size ∧ s + n ≤ 2 ^ w
  target : t + n ≤ m.size ∧ t + n ≤ 2 ^ w
  apart : ∀ {i j : ℕ}, i < n → j < n → s + i ≠ t + j

/-- The one block holds what the other held, and no other cell has changed. -/
structure Copied (m : Memory) (s t n : ℕ) (m' : Memory) : Prop where
  block : ∀ {i : ℕ}, i < n → m'.cells[t + i]? = m.cells[s + i]?
  rest : ∀ {k : ℕ}, k < t ∨ t + n ≤ k → m'.cells[k]? = m.cells[k]?

theorem Copied.nothing (m : Memory) (s t : ℕ) : m.Copied s t 0 m :=
  ⟨fun hi => absurd hi (Nat.not_lt_zero _), fun _ => rfl⟩

namespace Copyable

theorem exists_word (h : m.Copyable w s t (n + 1)) : ∃ v, m.cells[s]? = some v ∧ v.width = w := by
  have hlt : s < m.cells.size := Nat.lt_of_lt_of_le (by omega) h.source.1
  exact ⟨m.cells[s], Array.getElem?_eq_getElem hlt,
    (h.wellFormed _ (Array.getElem_mem hlt)).trans h.width⟩

/-- What is left to copy after the first cell can be copied too. -/
theorem next (h : m.Copyable w s t (n + 1)) (hv : v.width = w) :
    (m.withCell t v).Copyable w (s + 1) (t + 1) n := by
  have hsize : (m.withCell t v).size = m.size := Array.size_setIfInBounds
  have hs := h.source
  have ht := h.target
  refine ⟨h.wellFormed.withCell (hv.trans h.width.symm), h.width, ?_, ?_, ?_⟩
  · rw [hsize]
    omega
  · rw [hsize]
    omega
  · intro i j hi hj heq
    exact h.apart (i := i + 1) (j := j + 1) (by omega) (by omega) (by omega)

/-- The first cell and then all that are left. -/
theorem copied_succ (h : m.Copyable w s t (n + 1)) (hv : m.cells[s]? = some v)
    (hrest : (m.withCell t v).Copied (s + 1) (t + 1) n m') : m.Copied s t (n + 1) m' := by
  have htarget : t < m.size := Nat.lt_of_lt_of_le (by omega) h.target.1
  constructor
  · intro i hi
    cases i with
    | zero =>
      rw [hrest.rest (Or.inl (by omega)), getElem?_withCell htarget, if_pos (by omega),
        Nat.add_zero, hv]
    | succ i =>
      have hsource : t ≠ s + (i + 1) := fun heq => h.apart hi (Nat.succ_pos n) heq.symm
      rw [Nat.add_comm i 1, ← Nat.add_assoc, ← Nat.add_assoc, hrest.block (by omega),
        getElem?_withCell htarget, if_neg (by omega)]
  · intro k hk
    rw [hrest.rest (by omega), getElem?_withCell htarget, if_neg (by omega)]

end Copyable
end Memory

/-- A pointer with a cell left to come does not come round. -/
theorem Word.value_wrap_succ (x : Word) {w n : ℕ} (hx : x.width = w)
    (h : x.value + (n + 1 + 1) ≤ 2 ^ w) : (x.wrap (x.value + 1)).value = x.value + 1 := by
  apply x.wrap_of_lt
  rw [hx, Word.card_eq_two_pow]
  omega

namespace Program

open Config

@[simp] theorem size_copy (one : Word) : (copy one).size = 7 := rfl

section Round
variable {one x y c : Word} (d : Word) (flags : Flags) {memory : Memory} {w n : ℕ}
  (hone : one.width = w ∧ one.value = 1) (hx : x.width = w) (hy : y.width = w) (hc : c.width = w)

/-- A word is taken from the one pointer to the other. -/
theorem copy_move {v : Word} (hready : memory.Copyable w x.value y.value (n + 1))
    (hv : memory.cells[x.value]? = some v) (hw : v.width = w) :
    Runs (copy one) 2 (.of w x y c d flags memory 0)
      (.of w x y c v flags (memory.withCell y.value v) 2) := by
  have htarget : y.value < memory.size := Nat.lt_of_lt_of_le (by omega) hready.target.1
  have hload : Leads (copy one) (.of w x y c d flags memory 0) (.of w x y c v flags memory 1) :=
    leads_load (i := 0) (j := 3) rfl hv hw
  have hstore : Leads (copy one) (.of w x y c v flags memory 1)
      (.of w x y c v flags (memory.withCell y.value v) 2) :=
    leads_store (i := 1) (j := 3) rfl htarget (hw.trans hready.width.symm)
  exact .next hload (.next hstore (.refl _))

include hone hx hy hc in
/-- The pointers go on and the cell is counted. The last one ends the rounds. -/
theorem copy_count (hn : c.value = n + 1) :
    ∃ c' flags', c'.width = w ∧ c'.value = n ∧
      Runs (copy one) 4 (.of w x y c d flags memory 2)
        (.of w (x.wrap (x.value + 1)) (y.wrap (y.value + 1)) c' d flags' memory
          (if n = 0 then 6 else 0)) := by
  have hx' := Alu.binary_add (hx.trans hone.1.symm)
  have hy' := Alu.binary_add (hy.trans hone.1.symm)
  have hc' := Alu.binary_sub (hc.trans hone.1.symm)
  rw [hone.2] at hx' hy' hc'
  have hvalue : (c.wrap (c.value + (Word.card c.width - 1))).value = n := by
    have hlt := c.value_lt
    have hsum : c.value + (Word.card c.width - 1) = n + Word.card c.width := by omega
    rw [Word.value_wrap, hsum, Nat.add_mod_right, Nat.mod_eq_of_lt (by omega)]
  have hwidth : (c.wrap (c.value + (Word.card c.width - 1))).width = w := hc
  generalize c.wrap (c.value + (Word.card c.width - 1)) = c' at hc' hvalue hwidth
  have hfirst : Leads (copy one) (.of w x y c d flags memory 2)
      (.of w (x.wrap (x.value + 1)) y c d _ memory 3) :=
    leads_binary (j := 0) rfl (by simp) (.reg 0) (.imm hone.1) hx' hx
  have hsecond (flags : Flags) :
      Leads (copy one) (.of w (x.wrap (x.value + 1)) y c d flags memory 3)
      (.of w (x.wrap (x.value + 1)) (y.wrap (y.value + 1)) c d _ memory 4) :=
    leads_binary (j := 1) rfl (by simp) (.reg 1) (.imm hone.1) hy' hy
  have hthird (x y : Word) (flags : Flags) : Leads (copy one) (.of w x y c d flags memory 4)
      (.of w x y c' d ⟨decide (c'.value = 0), _⟩ memory 5) :=
    leads_binary (j := 2) rfl (by simp) (.reg 2) (.imm hone.1) hc' hwidth
  have hjump (x y : Word) (carry : Bool) :
      Leads (copy one) (.of w x y c' d ⟨decide (c'.value = 0), carry⟩ memory 5)
        (.of w x y c' d ⟨decide (c'.value = 0), carry⟩ memory (if n = 0 then 6 else 0)) :=
    leads_jumpIf_notZero rfl (by simp) (hvalue ▸ rfl)
  exact ⟨c', _, hwidth, hvalue,
    .next hfirst (.next (hsecond _) (.next (hthird _ _ _) (.next (hjump _ _ _) (.refl _))))⟩

include hone hx hy hc in
/-- One round moves a word and counts it. -/
theorem copy_round {v : Word} (hready : memory.Copyable w x.value y.value (n + 1))
    (hv : memory.cells[x.value]? = some v) (hw : v.width = w) (hn : c.value = n + 1) :
    ∃ c' flags', c'.width = w ∧ c'.value = n ∧
      Runs (copy one) 6 (.of w x y c d flags memory 0)
        (.of w (x.wrap (x.value + 1)) (y.wrap (y.value + 1)) c' v flags'
          (memory.withCell y.value v)
          (if n = 0 then 6 else 0)) := by
  obtain ⟨c', flags', hc', hn', hcount⟩ := copy_count v flags hone hx hy hc hn
  exact ⟨c', flags', hc', hn', (copy_move d flags hready hv hw).trans hcount⟩

end Round

/-- The rounds copy the block. -/
theorem copy_loop {one x y c : Word} (d : Word) (flags : Flags) {memory : Memory} {w n : ℕ}
    (hone : one.width = w ∧ one.value = 1) (hx : x.width = w) (hy : y.width = w) (hc : c.width = w)
    (hready : memory.Copyable w x.value y.value (n + 1)) (hn : c.value = n + 1) :
    ∃ x' y' c' d' flags' memory', x'.value = (x.value + (n + 1)) % 2 ^ w ∧
      y'.value = (y.value + (n + 1)) % 2 ^ w ∧ c'.value = 0 ∧
      memory.Copied x.value y.value (n + 1) memory' ∧
      Runs (copy one) (6 * (n + 1)) (.of w x y c d flags memory 0)
        (.of w x' y' c' d' flags' memory' 6) := by
  induction n generalizing x y c d flags memory with
  | zero =>
    obtain ⟨v, hv, hw⟩ := hready.exists_word
    obtain ⟨c', flags', -, hn', hround⟩ := copy_round d flags hone hx hy hc hready hv hw hn
    refine ⟨_, _, c', v, flags', _, ?_, ?_, hn', hready.copied_succ hv (.nothing _ _ _), hround⟩
    · rw [Word.value_wrap, hx, Word.card_eq_two_pow]
    · rw [Word.value_wrap, hy, Word.card_eq_two_pow]
  | succ n ih =>
    obtain ⟨v, hv, hw⟩ := hready.exists_word
    obtain ⟨c', flags', hc', hn', hround⟩ := copy_round d flags hone hx hy hc hready hv hw hn
    rw [if_neg (Nat.succ_ne_zero n)] at hround
    have hx' : (x.wrap (x.value + 1)).value = x.value + 1 := x.value_wrap_succ hx hready.source.2
    have hy' : (y.wrap (y.value + 1)).value = y.value + 1 := y.value_wrap_succ hy hready.target.2
    have hleft := hready.next hw
    rw [← hx', ← hy'] at hleft
    obtain ⟨x'', y'', c'', d'', flags'', memory'', hx'', hy'', hzero, hcopied, hrest⟩ :=
      ih (x := x.wrap (x.value + 1)) (y := y.wrap (y.value + 1)) v flags' hx hy hc' hleft hn'
    rw [hx', hy'] at hcopied
    refine ⟨x'', y'', c'', d'', flags'', memory'', ?_, ?_, hzero,
      hready.copied_succ hv hcopied, ?_⟩
    · rw [hx'', hx', Nat.add_assoc, Nat.add_comm 1]
    · rw [hy'', hy', Nat.add_assoc, Nat.add_comm 1]
    · rw [Nat.mul_succ, Nat.add_comm]
      exact hround.trans hrest

end Program

theorem Memory.Copied.wellFormed {m m' : Memory} {s t n : ℕ} (h : m.Copied s t n m')
    (hm : m.WellFormed) (hw : m'.width = m.width) : m'.WellFormed := by
  intro v hv
  obtain ⟨k, hk⟩ := Array.mem_iff_getElem?.mp hv
  rw [hw]
  by_cases hblock : t ≤ k ∧ k < t + n
  · have hsource := h.block (i := k - t) (by omega)
    rw [Nat.add_sub_cancel' hblock.1, hk] at hsource
    exact hm v (Array.mem_of_getElem? hsource.symm)
  · rw [h.rest (by omega)] at hk
    exact hm v (Array.mem_of_getElem? hk)

/-- The program copies a block that does not overlap its target. It halts with the cells copied and
all others as they were, the pointers behind their blocks up to the modulus, and nothing left to
copy. -/
theorem runProgram_copy {σ : Type} {m : Machine} (hm : m.WellFormed) (hpc : m.pc = .known 0)
    {s t n : Word} (hs : m.registers.values.get 0 = s) (ht : m.registers.values.get 1 = t)
    (hn : m.registers.values.get 2 = n) (hpos : 1 ≤ n.value)
    (hsource : s.value + n.value ≤ m.memory.size ∧ s.value + n.value ≤ 2 ^ m.width)
    (htarget : t.value + n.value ≤ m.memory.size ∧ t.value + n.value ≤ 2 ^ m.width)
    (hapart : ∀ k ∈ Set.Ico s.value (s.value + n.value), k ∉ Set.Ico t.value (t.value + n.value))
    {one : Word} (hone : one.width = m.width ∧ one.value = 1) (services : Services) {limit : ℤ}
    (hlimit : (6 * n.value + 1 : ℕ) ≤ limit) (observe : σ → Machine → Instruction → σ) (acc : σ) :
    ∃ e seen, runProgram (.copy one) m services limit observe acc = .ok (e, seen, .halted false) ∧
      e.steps = 6 * n.value + 1 ∧ e.machine.WellFormed ∧ e.machine.width = m.width ∧
      (∀ i < n.value, e.machine.memory.cells[t.value + i]? = m.memory.cells[s.value + i]?) ∧
      (∀ k ∉ Set.Ico t.value (t.value + n.value),
        e.machine.memory.cells[k]? = m.memory.cells[k]?) ∧
      (e.machine.registers.values.get 0).value = (s.value + n.value) % 2 ^ m.width ∧
      (e.machine.registers.values.get 1).value = (t.value + n.value) % 2 ^ m.width ∧
      (e.machine.registers.values.get 2).value = 0 := by
  have hwidth (i : Fin 4) : (m.registers.values.get i).width = m.width := hm.1 i
  have hstart := Config.machine_of 0 hpc
  rw [hs, ht, hn] at hstart
  obtain ⟨k, hk⟩ : ∃ k, n.value = k + 1 := ⟨n.value - 1, by omega⟩
  have hready : m.memory.Copyable m.width s.value t.value (k + 1) := by
    rw [← hk]
    refine ⟨hm.2.1, hm.2.2.1, hsource, htarget, ?_⟩
    intro i j hi hj heq
    have hcell : s.value + i ∈ Set.Ico s.value (s.value + n.value) := ⟨by omega, by omega⟩
    exact hapart _ hcell ⟨by omega, by omega⟩
  obtain ⟨x, y, c, d, flags, memory, hx, hy, hzero, hcopied, hloop⟩ :=
    Program.copy_loop (m.registers.values.get 3) m.flags hone (hs ▸ hwidth 0) (ht ▸ hwidth 1)
      (hn ▸ hwidth 2)
      hready hk
  rw [← hk] at hx hy hcopied hloop
  have hshape := hloop.sameShape m.tick 0
  have hroom : ((6 * n.value : ℕ) : ℤ) + 1 ≤ limit := by omega
  obtain ⟨seen, hrun⟩ := hloop.runProgram_halts observe rfl services m.tick hroom acc
  rw [hstart] at hrun hshape
  have hmemory : memory.WellFormed := hcopied.wellFormed hm.2.1 hshape.memoryWidth
  refine ⟨_, seen, hrun, rfl, ⟨hshape.registers hm.1, hmemory, ?_, _, rfl⟩, hshape.width,
    fun i hi => hcopied.block hi, ?_, hx, hy, hzero⟩
  · exact hshape.memoryWidth.trans (hm.2.2.1.trans hshape.width.symm)
  · intro k hk
    apply hcopied.rest
    simp only [Set.mem_Ico, not_and_or, not_le, not_lt] at hk
    exact hk

/-- Two cells at the start of a memory of eight are copied to its end, at three bits: the pointer
to the target comes round to zero behind the last cell. -/
theorem runProgram_copy_to_end :
    let word (v : Fin 8) : Word := ⟨3, v, by decide, v.isLt⟩
    let memory : Memory := ⟨3, #[word 5, word 7, word 1, word 1, word 1, word 1, word 2, word 3]⟩
    let m : Machine := ⟨⟨3, #v[word 0, word 6, word 2, word 4]⟩, {}, memory, .known 0, 0⟩
    m.WellFormed ∧ ∃ e seen,
      runProgram (.copy (word 1)) m {} 13 (fun n _ _ => n + 1) 0 = .ok (e, seen, .halted false) ∧
      e.steps = 13 ∧ e.machine.memory.cells[7]? = some (word 7) ∧
      e.machine.memory.cells[2]? = some (word 1) ∧ (e.machine.registers.values.get 0).value = 2 ∧
      (e.machine.registers.values.get 1).value = 0 ∧
      (e.machine.registers.values.get 2).value = 0 := by
  intro word memory m
  have hregisters : ∀ i : Fin 4, (m.registers.values.get i).width = 3 := by decide
  have hm : m.WellFormed := ⟨hregisters, by simp [m, memory, word, Memory.WellFormed], rfl, _, rfl⟩
  have hs : m.registers.values.get 0 = word 0 := rfl
  have ht : m.registers.values.get 1 = word 6 := rfl
  have hn : m.registers.values.get 2 = word 2 := rfl
  have hone : (word 1).width = m.width ∧ (word 1).value = 1 := ⟨rfl, rfl⟩
  have hapart : ∀ k ∈ Set.Ico (word 0).value ((word 0).value + (word 2).value),
      k ∉ Set.Ico (word 6).value ((word 6).value + (word 2).value) := by
    intro k hk hk'
    exact absurd (Nat.lt_of_lt_of_le hk.2 (by decide)) (Nat.not_lt.mpr hk'.1)
  have hlimit : (6 * (word 2).value + 1 : ℕ) ≤ (13 : ℤ) := by decide
  obtain ⟨e, seen, hrun, hsteps, -, -, hblock, hrest, hx, hy, hzero⟩ :=
    runProgram_copy hm rfl hs ht hn (by decide) (by decide) (by decide) hapart hone {} hlimit
      (fun n _ _ => n + 1) 0
  have hother : 2 ∉ Set.Ico (word 6).value ((word 6).value + (word 2).value) :=
    fun h => absurd h.1 (by decide)
  exact ⟨hm, e, seen, hrun, hsteps, hblock 1 (by decide), hrest 2 hother,
    hx.trans (by decide), hy.trans (by decide), hzero⟩

end WordMachine
