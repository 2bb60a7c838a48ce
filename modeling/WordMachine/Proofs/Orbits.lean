import Mathlib.Dynamics.PeriodicPts.Defs
import WordMachine.Proofs.Basins

/-!
Orbits of rules. Following a rule lists the iterates of a word up to the first that has come
before, so the cycle that it finds holds just the periodic words on the orbit. Orbits that meet end
in the same cycle, and so in the same basin.
-/
namespace WordMachine

section Cycle
variable {α : Type} {f : α → α} {x : α}

/-- The cycle that an orbit runs into: the periodic points on it. -/
def finalCycle (f : α → α) (x : α) : Set α :=
  { z | (∃ n, f^[n] x = z) ∧ z ∈ Function.periodicPts f }

/-- A point of the cycle is passed again and again. -/
theorem exists_iterate_ge_of_mem_finalCycle {z : α} (h : z ∈ finalCycle f x) (bound : ℕ) :
    ∃ n ≥ bound, f^[n] x = z := by
  obtain ⟨⟨n, hn⟩, p, hp, hper⟩ := h
  refine ⟨p * bound + n, ?_, ?_⟩
  · have := Nat.le_mul_of_pos_left bound hp
    omega
  · rw [Function.iterate_add_apply, hn]
    exact hper.mul_const bound

theorem finalCycle_iterate (f : α → α) (x : α) (n : ℕ) :
    finalCycle f (f^[n] x) = finalCycle f x := by
  ext z
  constructor
  · rintro ⟨⟨m, rfl⟩, hz⟩
    exact ⟨⟨m + n, Function.iterate_add_apply f m n x⟩, hz⟩
  · intro hz
    obtain ⟨m, hm, rfl⟩ := exists_iterate_ge_of_mem_finalCycle hz n
    exact ⟨⟨m - n, by rw [← Function.iterate_add_apply, Nat.sub_add_cancel hm]⟩, hz.2⟩

section Repeat
variable {i k : ℕ} (hik : i < k) (hrep : f^[i] x = f^[k] x)
include hik hrep

theorem isPeriodicPt_of_repeat : Function.IsPeriodicPt f (k - i) (f^[i] x) := by
  unfold Function.IsPeriodicPt Function.IsFixedPt
  rw [← Function.iterate_add_apply, Nat.sub_add_cancel hik.le]
  exact hrep.symm

/-- After the first repeat nothing new comes. -/
theorem exists_iterate_between {n : ℕ} (hn : i ≤ n) : ∃ m, i ≤ m ∧ m < k ∧ f^[m] x = f^[n] x := by
  have hlt : (n - i) % (k - i) < k - i := Nat.mod_lt _ (by omega)
  refine ⟨(n - i) % (k - i) + i, by omega, by omega, ?_⟩
  rw [Function.iterate_add_apply, (isPeriodicPt_of_repeat hik hrep).iterate_mod_apply,
    ← Function.iterate_add_apply, Nat.sub_add_cancel hn]

theorem exists_iterate_lt (n : ℕ) : ∃ m < k, f^[m] x = f^[n] x := by
  by_cases hn : i ≤ n
  · obtain ⟨m, -, hm, heq⟩ := exists_iterate_between hik hrep hn
    exact ⟨m, hm, heq⟩
  · exact ⟨n, by omega, rfl⟩

/-- The cycle consists of the iterates between a point's two visits. -/
theorem mem_finalCycle_iff {z : α} : z ∈ finalCycle f x ↔ ∃ n, i ≤ n ∧ n < k ∧ f^[n] x = z := by
  constructor
  · intro hz
    obtain ⟨n, hn, rfl⟩ := exists_iterate_ge_of_mem_finalCycle hz i
    exact exists_iterate_between hik hrep hn
  · rintro ⟨n, hn, -, rfl⟩
    refine ⟨⟨n, rfl⟩, Function.mk_mem_periodicPts (Nat.sub_pos_of_lt hik) ?_⟩
    have h := (isPeriodicPt_of_repeat hik hrep).apply_iterate (n - i)
    rwa [← Function.iterate_add_apply, Nat.sub_add_cancel hn] at h

end Repeat
end Cycle

/-- The least word on the cycle that an orbit runs into, all words there being of one width. -/
def IsBasin (f : Word → Word) (x b : Word) : Prop :=
  b ∈ finalCycle f x ∧ ∀ z ∈ finalCycle f x, z.width = b.width ∧ b.value ≤ z.value

namespace IsBasin

variable {f : Word → Word} {x y b c : Word}

theorem unique (hb : IsBasin f x b) (hc : IsBasin f x c) : b = c := by
  have hbc := hb.2 c hc.1
  have hcb := hc.2 b hb.1
  exact Word.ext_value hcb.1 (Nat.le_antisymm hbc.2 hcb.2)

theorem iterate_iff (n : ℕ) : IsBasin f (f^[n] x) b ↔ IsBasin f x b := by
  unfold IsBasin
  rw [finalCycle_iterate]

/-- Two words have one basin exactly if their orbits meet. -/
theorem eq_iff_meet (hb : IsBasin f x b) (hc : IsBasin f y c) :
    b = c ↔ ∃ i j, f^[i] x = f^[j] y := by
  constructor
  · rintro rfl
    obtain ⟨⟨i, hi⟩, -⟩ := hb.1
    obtain ⟨⟨j, hj⟩, -⟩ := hc.1
    exact ⟨i, j, hi.trans hj.symm⟩
  · rintro ⟨i, j, hij⟩
    have hmeet : IsBasin f (f^[i] x) c := hij ▸ (iterate_iff j).mpr hc
    exact hb.unique ((iterate_iff i).mp hmeet)

end IsBasin

namespace Trajectory

theorem mem_cycle {t : Trajectory} {z : Word} : z ∈ t.cycle ↔ z = t.entry ∨ z ∈ t.rest :=
  List.mem_cons

/-- The trajectory goes through the first `k` iterates, and its cycle begins with the one of number
`i`, which would come again as the next. -/
structure Traverses (t : Trajectory) (f : Word → Word) (x : Word) (i k : ℕ) : Prop where
  lt : i < k
  again : f^[i] x = f^[k] x
  words : t.words = (List.range k).map (f^[·] x)
  cycle : t.cycle = (List.range' i (k - i)).map (f^[·] x)

namespace Traverses

variable {t : Trajectory} {f : Word → Word} {x : Word} {i k : ℕ}

theorem exists_of_mem_words (h : t.Traverses f x i k) {y : Word} (hy : y ∈ t.words) :
    ∃ n, y = f^[n] x := by
  rw [h.words] at hy
  obtain ⟨n, -, rfl⟩ := List.mem_map.mp hy
  exact ⟨n, rfl⟩

theorem mem_cycle_iff (h : t.Traverses f x i k) {z : Word} : z ∈ t.cycle ↔ z ∈ finalCycle f x := by
  rw [h.cycle, mem_finalCycle_iff h.lt h.again]
  simp only [List.mem_map, List.mem_range'_1]
  constructor
  · rintro ⟨n, ⟨hi, hk⟩, rfl⟩
    exact ⟨n, hi, by have := h.lt; omega, rfl⟩
  · rintro ⟨n, hi, hk, rfl⟩
    exact ⟨n, ⟨hi, by omega⟩, rfl⟩

/-- The least word of the cycle is the basin; there is none only if a word on the cycle has another
width. -/
theorem basin_settles (h : t.Traverses f x i k) :
    Settles t.basin (IsBasin f x) fun _ => ∀ b, ¬ IsBasin f x b := by
  refine (Word.least_settles t.entry t.rest).mono ?_ ?_
  · rintro b ⟨hb, hmin⟩
    refine ⟨h.mem_cycle_iff.mp (mem_cycle.mpr hb), fun z hz => ?_⟩
    exact hmin z (mem_cycle.mp (h.mem_cycle_iff.mpr hz))
  · rintro _ ⟨y, hy, hw⟩ b hb
    have hyw := (hb.2 y (h.mem_cycle_iff.mp (mem_cycle.mpr (Or.inr hy)))).1
    have hew := (hb.2 t.entry (h.mem_cycle_iff.mp (mem_cycle.mpr (Or.inl rfl)))).1
    exact hw (hyw.trans hew.symm)

end Traverses
end Trajectory

namespace Rule

/-- Where a rule leads. A word without a result stays where it is. -/
def next (r : Rule) (x : Word) : Word :=
  match r.apply x with
  | .ok y => y
  | .error _ => x

theorem next_eq {r : Rule} {x y : Word} (h : r.apply x = .ok y) : r.next x = y := by
  unfold next
  rw [h]

def Defined (r : Rule) (x : Word) : Prop := ∀ n, ∃ y, r.apply (r.next^[n] x) = .ok y

theorem Defined.iterate {r : Rule} {x : Word} (h : r.Defined x) (n : ℕ) :
    r.Defined (r.next^[n] x) := by
  intro m
  rw [← Function.iterate_add_apply]
  exact h (m + n)

/-- Following a rule from an iterate of `x`, with all iterates before it on the path. -/
theorem follow_traverses (r : Rule) (x : Word) {bound : ℕ} (hr : r.reach ≤ bound) {y : Word}
    (hy : y.width ≤ bound) (seen : Std.HashMap Word ℕ) (path : Array Word) :
    y = r.next^[path.size] x → path.toList = (List.range path.size).map (r.next^[·] x) →
      (∀ z n, seen[z]? = some n → n < path.size ∧ r.next^[n] x = z) →
      (∀ n < path.size, ∃ z, r.apply (r.next^[n] x) = .ok z) →
      Settles (r.follow bound hr y hy seen path)
        (fun t => r.Defined x ∧ ∃ i k, t.Traverses r.next x i k) fun _ => ¬ r.Defined x := by
  fun_induction Rule.follow with
  | case1 y hy seen path i hs =>
    intro hyx hpath hseen hdef
    obtain ⟨hi, hix⟩ := hseen y i hs
    have hrep : r.next^[i] x = r.next^[path.size] x := hix.trans hyx
    have hdrop : path.toList.drop i = y :: path.toList.drop (i + 1) := by
      rw [List.drop_eq_getElem_cons (by simpa using hi)]
      simp only [hpath, List.getElem_map, List.getElem_range, hix]
    constructor
    · intro n
      obtain ⟨m, hm, heq⟩ := exists_iterate_lt hi hrep n
      rw [← heq]
      exact hdef m hm
    · refine ⟨i, path.size, hi, hrep, ?_, ?_⟩
      · change path.toList.take i ++ y :: path.toList.drop (i + 1) = _
        rw [← hdrop, List.take_append_drop, hpath]
      · change y :: path.toList.drop (i + 1) = _
        rw [← hdrop, hpath, ← List.map_drop, List.range_eq_range', List.drop_range', Nat.zero_add,
          Nat.mul_one]
  | case2 y hy seen path hs e he =>
    intro hyx _ _ _ hdef
    obtain ⟨z, hz⟩ := hdef path.size
    rw [← hyx, he] at hz
    cases hz
  | case3 y hy seen path hs z hz hle ih =>
    intro hyx hpath hseen hdef
    apply ih
    · rw [Array.size_push, Function.iterate_succ_apply', ← hyx, next_eq hz]
    · rw [Array.toList_push, Array.size_push, List.range_succ, List.map_append, ← hpath]
      simp [hyx]
    · intro u n hn
      rw [Array.size_push]
      rw [Std.HashMap.getElem?_insert] at hn
      split at hn
      next heq =>
        cases hn
        exact ⟨Nat.lt_succ_self _, hyx.symm.trans (eq_of_beq heq)⟩
      next =>
        obtain ⟨hlt, hu⟩ := hseen u n hn
        exact ⟨Nat.lt_succ_of_lt hlt, hu⟩
    · intro n hn
      rw [Array.size_push] at hn
      rcases Nat.lt_succ_iff_lt_or_eq.mp hn with hn | rfl
      · exact hdef n hn
      · exact ⟨z, hyx ▸ hz⟩

/-- A trajectory exists if every word on the orbit has a result, and goes through its iterates. -/
theorem trace_traverses (r : Rule) (x : Word) :
    Settles (r.trace x) (fun t => r.Defined x ∧ ∃ i k, t.Traverses r.next x i k)
      fun _ => ¬ r.Defined x :=
  r.follow_traverses x _ _ ∅ #[] rfl rfl (by simp) (by simp)

def basin (r : Rule) (x : Word) : Except Error Word := do
  let t ← r.trace x
  let b ← t.basin
  return b

theorem basin_eq_of_trace {r : Rule} {x b : Word} {t : Trajectory} (ht : r.trace x = .ok t)
    (hb : t.basin = .ok b) : r.basin x = .ok b := by
  unfold basin
  rw [ht, ok_bind, hb]
  rfl

theorem exists_trace_of_basin {r : Rule} {x b : Word} (h : r.basin x = .ok b) :
    ∃ t, r.trace x = .ok t ∧ t.basin = .ok b := by
  unfold basin at h
  cases ht : r.trace x with
  | error e =>
    rw [ht] at h
    cases h
  | ok t =>
    cases hb : t.basin with
    | error e =>
      rw [ht, ok_bind, hb] at h
      cases h
    | ok c =>
      rw [ht, ok_bind, hb] at h
      cases h
      exact ⟨t, rfl, hb⟩

/-- What is found to be the basin is the least word on the cycle of the orbit. -/
theorem basin_eq_ok_iff {r : Rule} {x b : Word} :
    r.basin x = .ok b ↔ r.Defined x ∧ IsBasin r.next x b := by
  have htrace := r.trace_traverses x
  cases ht : r.trace x with
  | error e =>
    have hno := htrace.of_error ht
    unfold basin
    rw [ht]
    exact ⟨fun h => (nomatch h), fun h => absurd h.1 hno⟩
  | ok t =>
    obtain ⟨hdef, i, k, htrav⟩ := htrace.of_ok ht
    cases hb : t.basin with
    | error e =>
      have hno := htrav.basin_settles.of_error hb
      unfold basin
      rw [ht, ok_bind, hb]
      exact ⟨fun h => (nomatch h), fun h => absurd h.2 (hno b)⟩
    | ok c =>
      have hc := htrav.basin_settles.of_ok hb
      rw [basin_eq_of_trace ht hb]
      constructor
      · intro h
        cases h
        exact ⟨hdef, hc⟩
      · intro h
        rw [hc.unique h.2]

/-- All words on a trajectory have the basin of its start. -/
theorem basin_of_mem_words {r : Rule} {x y b : Word} {t : Trajectory} (ht : r.trace x = .ok t)
    (hb : t.basin = .ok b) (hy : y ∈ t.words) : r.basin y = .ok b := by
  obtain ⟨hdef, hbasin⟩ := basin_eq_ok_iff.mp (basin_eq_of_trace ht hb)
  obtain ⟨-, i, k, htrav⟩ := (r.trace_traverses x).of_ok ht
  obtain ⟨n, rfl⟩ := htrav.exists_of_mem_words hy
  exact basin_eq_ok_iff.mpr ⟨hdef.iterate n, (IsBasin.iterate_iff n).mpr hbasin⟩

/-- On words of the width the rule is the function, which keeps the width. -/
structure Computes (r : Rule) (w : ℕ) (f : Word → Word) : Prop where
  apply : ∀ x, x.width = w → r.apply x = .ok (f x)
  width : ∀ x, x.width = w → (f x).width = w

theorem KeepsWidth.computes {r : Rule} (h : r.KeepsWidth) (w : ℕ) : r.Computes w r.next := by
  constructor
  · intro x _
    obtain ⟨y, hy, -⟩ := h x
    rw [next_eq hy, hy]
  · intro x hx
    obtain ⟨y, hy, hw⟩ := h x
    rw [next_eq hy, hw, hx]

theorem builtin_computes {name : String} {r : Rule} (h : RuleSet.builtin.get name = .ok r)
    (w : ℕ) : r.Computes w r.next :=
  (builtin_keepsWidth h).computes w

namespace Computes

variable {r : Rule} {w : ℕ} {f : Word → Word}

theorem iterate (h : r.Computes w f) {x : Word} (hx : x.width = w) (n : ℕ) :
    r.next^[n] x = f^[n] x ∧ (f^[n] x).width = w := by
  induction n with
  | zero => exact ⟨rfl, hx⟩
  | succ n ih =>
    rw [Function.iterate_succ_apply', Function.iterate_succ_apply', ih.1, next_eq (h.apply _ ih.2)]
    exact ⟨rfl, h.width _ ih.2⟩

theorem defined (h : r.Computes w f) {x : Word} (hx : x.width = w) : r.Defined x := by
  intro n
  obtain ⟨heq, hw⟩ := h.iterate hx n
  rw [heq]
  exact ⟨_, h.apply _ hw⟩

theorem finalCycle_eq (h : r.Computes w f) {x : Word} (hx : x.width = w) :
    finalCycle r.next x = finalCycle f x := by
  have periodic (n p : ℕ) :
      r.next^[p] (r.next^[n] x) = r.next^[n] x ↔ f^[p] (f^[n] x) = f^[n] x := by
    rw [(h.iterate hx n).1, (h.iterate (h.iterate hx n).2 p).1]
  ext z
  constructor
  · rintro ⟨⟨n, rfl⟩, p, hp, hper⟩
    exact ⟨⟨n, (h.iterate hx n).1.symm⟩, p, hp, (h.iterate hx n).1 ▸ (periodic n p).mp hper⟩
  · rintro ⟨⟨n, rfl⟩, p, hp, hper⟩
    exact ⟨⟨n, (h.iterate hx n).1⟩, p, hp, (h.iterate hx n).1 ▸ (periodic n p).mpr hper⟩

/-- Words of the width have a basin, which is the least word on the cycle. -/
theorem exists_basin (h : r.Computes w f) {x : Word} (hx : x.width = w) :
    ∃ b, r.basin x = .ok b ∧ IsBasin f x b := by
  have hdef := h.defined hx
  cases ht : r.trace x with
  | error e => exact absurd hdef ((r.trace_traverses x).of_error ht)
  | ok t =>
    obtain ⟨-, i, k, htrav⟩ := (r.trace_traverses x).of_ok ht
    have hw : ∀ y ∈ t.words, y.width = w := by
      intro y hy
      obtain ⟨n, rfl⟩ := htrav.exists_of_mem_words hy
      rw [(h.iterate hx n).1]
      exact (h.iterate hx n).2
    cases hb : t.basin with
    | error e => exact absurd hw (t.basin_settles.of_error hb)
    | ok b =>
      refine ⟨b, basin_eq_of_trace ht hb, ?_⟩
      have hbasin := htrav.basin_settles.of_ok hb
      unfold IsBasin at hbasin ⊢
      rwa [h.finalCycle_eq hx] at hbasin

end Computes
end Rule
end WordMachine
