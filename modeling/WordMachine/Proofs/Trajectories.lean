import Mathlib.Data.List.Nodup
import WordMachine.Proofs.Orbits
import WordMachine.Proofs.WordBits

/-!
The shape of trajectories. The loop that follows a rule goes on only while the words are new, so it
ends within as many passes as there are words of the width. It cuts its path at the word that comes
again: the words before it are never passed a second time, and those from it on come round after as
many steps as there are of them.
-/
namespace WordMachine

/-- Different words of one width are at most all of them. -/
theorem Word.length_le_card {w : ℕ} {xs : List Word} (hn : xs.Nodup) (hw : ∀ x ∈ xs, x.width = w) :
    xs.length ≤ 2 ^ w := by
  have hvalues : (xs.map Word.value).Nodup := by
    refine hn.map_on fun x hx y hy hxy => ?_
    exact Word.ext_value ((hw x hx).trans (hw y hy).symm) hxy
  have hbound : xs.map Word.value ⊆ List.range (2 ^ w) := by
    intro v hv
    obtain ⟨x, hx, rfl⟩ := List.mem_map.mp hv
    have hlt := x.value_lt
    rw [hw x hx] at hlt
    exact List.mem_range.mpr hlt
  simpa using (hvalues.subperm hbound).length_le

namespace Rule

/-- From where it stands, the loop goes through a number of passes and then ends with a
trajectory. -/
inductive Loops (r : Rule) : ℕ → Word → Std.HashMap Word ℕ → Array Word → Trajectory → Prop
  | stop {x : Word} {seen : Std.HashMap Word ℕ} {path : Array Word} {i : ℕ}
    (again : seen[x]? = some i) :
      Loops r 0 x seen path ⟨path.toList.take i, x, path.toList.drop (i + 1)⟩
  | pass {n : ℕ} {x y : Word} {seen : Std.HashMap Word ℕ} {path : Array Word} {t : Trajectory}
      (new : seen[x]? = none) (next : r.apply x = .ok y)
      (rest : Loops r n y (seen.insert x path.size) (path.push x) t) :
        Loops r (n + 1) x seen path t

variable {r : Rule} {n : ℕ} {x : Word} {seen : Std.HashMap Word ℕ} {path : Array Word}
  {t : Trajectory}

theorem follow_eq_ok_iff {bound : ℕ} (hr : r.reach ≤ bound) (hx : x.width ≤ bound) :
    r.follow bound hr x hx seen path = .ok t ↔ ∃ n, r.Loops n x seen path t := by
  fun_induction Rule.follow with
  | case1 x hx seen path i hs =>
    constructor
    · intro h
      cases h
      exact ⟨0, .stop hs⟩
    · rintro ⟨n, again | ⟨new, -, -⟩⟩
      · rw [Option.some.inj (hs.symm.trans again)]
      · simp [hs] at new
  | case2 x hx seen path hs e he =>
    constructor
    · intro h
      cases h
    · rintro ⟨n, again | ⟨-, next, -⟩⟩
      · simp [hs] at again
      · simp [he] at next
  | case3 x hx seen path hs y hy hle ih =>
    rw [ih]
    constructor
    · rintro ⟨n, rest⟩
      exact ⟨n + 1, .pass hs hy rest⟩
    · rintro ⟨n, again | ⟨-, next, rest⟩⟩
      · simp [hs] at again
      · obtain rfl := Except.ok.inj (hy.symm.trans next)
        exact ⟨_, rest⟩

theorem trace_eq_ok_iff : r.trace x = .ok t ↔ ∃ n, r.Loops n x ∅ #[] t := follow_eq_ok_iff _ _

/-- The words seen are those on the path, each kept with its place. -/
def Tracks (seen : Std.HashMap Word ℕ) (path : Array Word) : Prop :=
  ∀ (z : Word) (i : ℕ), seen[z]? = some i ↔ path.toList[i]? = some z

theorem tracks_empty : Tracks ∅ #[] := by simp [Tracks]

namespace Tracks

theorem push (h : Tracks seen path) (new : seen[x]? = none) :
    Tracks (seen.insert x path.size) (path.push x) := by
  intro z i
  have hx := h x i
  have hz := h z i
  rw [Std.HashMap.getElem?_insert, Array.toList_push, List.getElem?_append, Array.length_toList]
  grind

theorem nodup (h : Tracks seen path) : path.toList.Nodup := by
  rw [List.nodup_iff_getElem?_ne_getElem?]
  intro i j hij hj heq
  obtain ⟨z, hz⟩ : ∃ z, path.toList[j]? = some z := ⟨_, List.getElem?_eq_getElem hj⟩
  have hi := (h z i).mpr (heq.trans hz)
  have hj := (h z j).mpr hz
  rw [hi] at hj
  cases hj
  exact Nat.lt_irrefl _ hij

end Tracks

/-- The words of a trajectory are different, and each pass has found one of them. -/
theorem Loops.words (h : r.Loops n x seen path t) (ht : Tracks seen path) :
    t.words.Nodup ∧ t.words.length = path.size + n := by
  induction h with
  | @stop x seen path i again =>
    have hplace : path.toList[i]? = some x := (ht x i).mp again
    obtain ⟨hi, hx⟩ := List.getElem?_eq_some_iff.mp hplace
    have hwords : path.toList.take i ++ x :: path.toList.drop (i + 1) = path.toList := by
      rw [← hx, List.getElem_cons_drop, List.take_append_drop]
    change (path.toList.take i ++ x :: path.toList.drop (i + 1)).Nodup ∧
      (path.toList.take i ++ x :: path.toList.drop (i + 1)).length = _
    rw [hwords]
    exact ⟨ht.nodup, by simp⟩
  | pass new next rest ih =>
    have hpass := ih (ht.push new)
    rw [Array.size_push] at hpass
    exact ⟨hpass.1, by omega⟩

end Rule

namespace Trajectory

/-- Different words, each the image of the one before it, and from the last one back to where the
cycle begins. -/
structure IsRho (t : Trajectory) (f : Word → Word) (x : Word) : Prop where
  cycle_ne_nil : t.cycle ≠ []
  nodup : (t.transient ++ t.cycle).Nodup
  start : (t.transient ++ t.cycle).head? = some x
  chain : (t.transient ++ t.cycle).IsChain fun a b => f a = b
  closed : t.cycle.getLast?.map f = t.cycle.head?

namespace Traverses

variable {t : Trajectory} {f : Word → Word} {x z : Word} {i k : ℕ}

theorem length_cycle (h : t.Traverses f x i k) : t.cycle.length = k - i := by simp [h.cycle]

/-- The words before the cycle are the iterates before the one that comes again. -/
theorem transient (h : t.Traverses f x i k) : t.transient = (List.range i).map (f^[·] x) := by
  have hsplit : List.range' 0 i ++ List.range' i (k - i) = List.range' 0 k := by
    have hjoin := @List.range'_append_1 0 i (k - i)
    rwa [Nat.zero_add, Nat.add_sub_cancel' h.lt.le] at hjoin
  have hwords : t.transient ++ t.cycle = (List.range i).map (f^[·] x) ++ t.cycle := calc
    t.transient ++ t.cycle = (List.range k).map (f^[·] x) := h.words
    _ = (List.range' 0 i ++ List.range' i (k - i)).map (f^[·] x) := by
      rw [hsplit, List.range_eq_range']
    _ = (List.range i).map (f^[·] x) ++ t.cycle := by
      rw [List.map_append, h.cycle, List.range_eq_range']
  exact List.append_cancel_right hwords

theorem isRho (h : t.Traverses f x i k) (hn : t.words.Nodup) : t.IsRho f x := by
  have hpos : k - i ≠ 0 := Nat.sub_ne_zero_of_lt h.lt
  have hk : k ≠ 0 := Nat.ne_zero_of_lt h.lt
  have hwords : t.transient ++ t.cycle = (List.range k).map (f^[·] x) := h.words
  constructor
  · simp [h.cycle, hpos]
  · exact hn
  · rw [hwords, List.head?_map, List.head?_range, if_neg hk]
    rfl
  · rw [hwords, List.isChain_iff_getElem]
    intro n hn
    simp [Function.iterate_succ_apply']
  · have hlast : i + (k - i) - 1 + 1 = k := by have := h.lt; omega
    simp only [h.cycle, List.getLast?_map, List.head?_map, List.getLast?_range',
      List.head?_range', hpos]
    simp [← Function.iterate_succ_apply', hlast, h.again]

section Nodup
variable (h : t.Traverses f x i k) (hn : t.words.Nodup)
include h hn

theorem iterate_inj {m n : ℕ} (hm : m < k) (hlt : n < k) (heq : f^[m] x = f^[n] x) : m = n := by
  rw [h.words] at hn
  exact List.inj_on_of_nodup_map hn (List.mem_range.mpr hm) (List.mem_range.mpr hlt) heq

/-- A word before the cycle does not come again. -/
theorem not_periodic (hz : z ∈ t.transient) : z ∉ Function.periodicPts f := by
  intro hper
  rw [h.transient] at hz
  obtain ⟨n, hni, rfl⟩ := List.mem_map.mp hz
  have hni : n < i := List.mem_range.mp hni
  obtain ⟨m, him, hmk, heq⟩ := (mem_finalCycle_iff h.lt h.again).mp ⟨⟨n, rfl⟩, hper⟩
  have hmn := h.iterate_inj hn hmk (hni.trans h.lt) heq
  omega

/-- A word on the cycle comes again after one turn, and not before. -/
theorem minimalPeriod_eq (hz : z ∈ t.cycle) : Function.minimalPeriod f z = t.cycle.length := by
  have hentry := isPeriodicPt_of_repeat h.lt h.again
  have hpos : 0 < k - i := Nat.sub_pos_of_lt h.lt
  have hmem : f^[i] x ∈ Function.periodicPts f := Function.mk_mem_periodicPts hpos hentry
  -- All words of the cycle have the period of its first word.
  have hsame : Function.minimalPeriod f z = Function.minimalPeriod f (f^[i] x) := by
    rw [h.cycle] at hz
    obtain ⟨n, hni, rfl⟩ := List.mem_map.mp hz
    have hin : i ≤ n := (List.mem_range'_1.mp hni).1
    rw [← Function.minimalPeriod_apply_iterate hmem (n - i), ← Function.iterate_add_apply,
      Nat.sub_add_cancel hin]
  have hle : Function.minimalPeriod f (f^[i] x) ≤ k - i := hentry.minimalPeriod_le hpos
  have hper : f^[Function.minimalPeriod f (f^[i] x) + i] x = f^[i] x := by
    rw [Function.iterate_add_apply]
    exact Function.isPeriodicPt_minimalPeriod f (f^[i] x)
  have hmin : 0 < Function.minimalPeriod f (f^[i] x) :=
    Function.minimalPeriod_pos_of_mem_periodicPts hmem
  rw [hsame, h.length_cycle]
  by_contra hne
  have hzero := h.iterate_inj hn (by omega) h.lt hper
  omega

end Nodup
end Traverses
end Trajectory

namespace Rule

variable {r : Rule} {w : ℕ} {f : Word → Word} {x : Word} {t : Trajectory}

/-- A trajectory of a rule is one of the function that it computes. -/
theorem Computes.traverses (hr : r.Computes w f) (hx : x.width = w) {i k : ℕ}
    (h : t.Traverses r.next x i k) : t.Traverses f x i k := by
  have hiterate : (fun n => r.next^[n] x) = fun n => f^[n] x := funext fun n => (hr.iterate hx n).1
  refine ⟨h.lt, ?_, ?_, ?_⟩
  · rw [← (hr.iterate hx i).1, ← (hr.iterate hx k).1]
    exact h.again
  · rw [h.words, hiterate]
  · rw [h.cycle, hiterate]

/-- A trajectory exists, goes through iterates of the function and holds no word twice. -/
theorem Computes.exists_trace (hr : r.Computes w f) (hx : x.width = w) :
    ∃ t n i k, r.trace x = .ok t ∧ r.Loops n x ∅ #[] t ∧ n = t.words.length ∧ t.Traverses f x i k ∧
      t.words.Nodup := by
  have htrace := r.trace_traverses x
  cases ht : r.trace x with
  | error e => exact absurd (hr.defined hx) (htrace.of_error ht)
  | ok t =>
    obtain ⟨-, i, k, htrav⟩ := htrace.of_ok ht
    obtain ⟨n, hloops⟩ := trace_eq_ok_iff.mp ht
    obtain ⟨hn, hlength⟩ := hloops.words tracks_empty
    exact ⟨t, n, i, k, rfl, hloops, by simp [hlength], hr.traverses hx htrav, hn⟩

/-- Every function that keeps a width is computed by a rule. -/
theorem exists_computes (hf : ∀ x, x.width = w → (f x).width = w) : ∃ r :
    Rule, r.Computes w f := by
  have hkeep (x : Word) : (if x.width = w then f x else x).width = x.width := by
    split
    next hx => rw [hf x hx, hx]
    next => rfl
  refine ⟨.ofFunction (fun x => if x.width = w then f x else x) hkeep (.ok none), ?_, hf⟩
  intro x hx
  simp [ofFunction, hx]

/-- Every function on the words of a width is a rule that can be followed from any of them, and
this ends within as many passes as there are words. The words found are different; each is the
image of the one before it, and the image of the last is the first word of the cycle. So the words
before the cycle are not periodic, and those on the cycle have its length as their period. -/
theorem trace_rho (hf : ∀ x, x.width = w → (f x).width = w) :
    (∃ r : Rule, r.Computes w f) ∧
      ∀ r : Rule, r.Computes w f → ∀ x, x.width = w →
        ∃ t passes, r.trace x = .ok t ∧ r.Loops passes x ∅ #[] t ∧ passes ≤ 2 ^ w ∧ t.IsRho f x ∧
          (∀ z ∈ t.transient, z ∉ Function.periodicPts f) ∧
          ∀ z ∈ t.cycle, Function.minimalPeriod f z = t.cycle.length := by
  refine ⟨exists_computes hf, fun r hr x hx => ?_⟩
  obtain ⟨t, n, i, k, ht, hloops, hcount, htrav, hn⟩ := hr.exists_trace hx
  have hwidth : ∀ y ∈ t.words, y.width = w := by
    intro y hy
    obtain ⟨m, rfl⟩ := htrav.exists_of_mem_words hy
    exact (hr.iterate hx m).2
  refine ⟨t, n, ht, hloops, ?_, htrav.isRho hn, ?_, ?_⟩
  · rw [hcount]
    exact Word.length_le_card hn hwidth
  · intro z hz
    exact htrav.not_periodic hn hz
  · intro z hz
    exact htrav.minimalPeriod_eq hn hz

/-- Under the `3x + 1` rule at four bits, 8 leads into the cycle of 4, 2 and 1. -/
theorem trace_rho_collatz :
    let word (v : Fin 16) : Word := ⟨4, v, by decide, v.isLt⟩
    let t : Trajectory := ⟨[word 8], word 4, [word 2, word 1]⟩
    (∀ x, x.width = 4 → (collatz.next x).width = 4) ∧ collatz.Computes 4 collatz.next ∧
      collatz.trace (word 8) = .ok t ∧ t.IsRho collatz.next (word 8) ∧
      word 8 ∉ Function.periodicPts collatz.next ∧
      Function.minimalPeriod collatz.next (word 2) = 3 := by
  intro word t
  have hget : RuleSet.builtin.get "collatz" = .ok collatz := rfl
  have hrule : collatz.Computes 4 collatz.next := builtin_computes hget 4
  have hloops : collatz.Loops 4 (word 8) ∅ #[] t := by
    have h₈ : collatz.apply (word 8) = .ok (word 4) := congrArg Except.ok (by decide)
    have h₄ : collatz.apply (word 4) = .ok (word 2) := congrArg Except.ok (by decide)
    have h₂ : collatz.apply (word 2) = .ok (word 1) := congrArg Except.ok (by decide)
    have h₁ : collatz.apply (word 1) = .ok (word 4) := congrArg Except.ok (by decide)
    apply Loops.pass _ h₈ (.pass _ h₄ (.pass _ h₂ (.pass _ h₁ (.stop (i := 1) _))))
    all_goals simp [Std.HashMap.getElem_insert, word]
  have htrace : collatz.trace (word 8) = .ok t := trace_eq_ok_iff.mpr ⟨4, hloops⟩
  obtain ⟨t', passes, ht', -, -, hrho, htransient, hcycle⟩ :=
    (trace_rho hrule.width).2 collatz hrule (word 8) rfl
  obtain rfl := Except.ok.inj (htrace.symm.trans ht')
  refine ⟨hrule.width, hrule, htrace, hrho, ?_, ?_⟩
  · exact htransient (word 8) (List.mem_singleton_self _)
  · exact hcycle (word 2) (by simp [t, Trajectory.cycle])

end Rule
end WordMachine
