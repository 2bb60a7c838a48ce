import Mathlib.Data.Nat.ModEq
import Mathlib.Data.Set.Finite.Basic
import WordMachine.Proofs.Addition
import WordMachine.Proofs.Rotations
import WordMachine.Proofs.Shifts
import WordMachine.Proofs.Trajectories

/-!
Rules that permute the words of a width. Nothing leads into the cycles of such a rule, so that
every trajectory comes back to where it starts. Of the builtin rules only the `3x + 1` rule is none
of these, at any width.
-/
namespace WordMachine

namespace Word

variable {x y : Word}

theorem finite_width (w : ℕ) : { x : Word | x.width = w }.Finite :=
  (Word.upTo w).finite_toSet.subset fun _ hx => mem_upTo (Nat.le_of_eq hx)

@[simp] theorem rotateLeft_rotateRight (x : Word) (k : ℤ) :
    (x.rotateRight k).rotateLeft k = x := by
  rw [rotateRight, rotateLeft_rotateLeft, Int.add_left_neg, rotateLeft_zero]

theorem not_inj (hw : x.width = y.width) (h : x.not = y.not) : x = y := by
  have hx := x.value_lt
  have hy := y.value_lt
  have hvalue : x.not.value = y.not.value := congrArg value h
  rw [value_not, value_not, ← hw] at hvalue
  rw [← hw] at hy
  exact ext_value hw (by omega)

/-- A sum tells the word that was added to, also where it starts again from zero. -/
theorem wrap_add_inj (k : ℕ) (hw : x.width = y.width)
    (h : x.wrap (x.value + k) = y.wrap (y.value + k)) : x = y := by
  have hsum : x.value + k ≡ y.value + k [MOD card x.width] := by
    have hvalue : (x.value + k) % card x.width = (y.value + k) % card y.width := congrArg value h
    rwa [← hw] at hvalue
  have hy : y.value < card x.width := hw ▸ y.value_lt
  exact ext_value hw ((hsum.add_right_cancel' k).eq_of_lt_of_lt x.value_lt hy)

end Word

namespace Rule

section Stir
variable {x y : Word} {shift : Word → Word}

theorem testBit_stir {i : ℕ} (hi : i < x.width) :
    (stir shift x).value.testBit i = (x.value.testBit i ^^ (shift x).value.testBit i) := by
  simp [stir, hi]

/-- If the bits of the shifted word come from bits of lower rank, then the word can be told from
the combination. -/
theorem stir_inj (hw : x.width = y.width) (rank : ℕ → ℕ)
    (hshift : ∀ i < x.width, (∀ j, rank j < rank i → x.value.testBit j = y.value.testBit j) →
      (shift x).value.testBit i = (shift y).value.testBit i)
    (h : stir shift x = stir shift y) : x = y := by
  have hbits (n i : ℕ) (hn : rank i = n) : x.value.testBit i = y.value.testBit i := by
    induction n using Nat.strong_induction_on generalizing i with
    | _ n ih =>
      by_cases hi : i < x.width
      · have hsame := hshift i hi fun j hj => ih (rank j) (hn ▸ hj) j rfl
        have hstir : (stir shift x).value.testBit i = (stir shift y).value.testBit i := by rw [h]
        rw [testBit_stir hi, testBit_stir (hw ▸ hi), hsame] at hstir
        exact Bool.xor_left_inj.mp hstir
      · rw [x.testBit_of_width_le (by omega), y.testBit_of_width_le (by omega)]
  exact Word.ext_testBit hw fun i _ => hbits (rank i) i rfl

/-- The low bits come first: those shifted into are told from those below them. -/
theorem stir_shiftLeft_inj {k : ℕ} (hk : 0 < k) (hw : x.width = y.width)
    (h : stir (·.shiftLeft k) x = stir (·.shiftLeft k) y) : x = y := by
  refine stir_inj hw id (fun i hi hlow => ?_) h
  rw [x.testBit_shiftLeft k hi, y.testBit_shiftLeft k (hw ▸ hi)]
  by_cases hki : k ≤ i
  · rw [hlow (i - k) (show i - k < i by omega)]
  · simp [hki]

/-- The high bits come first. -/
theorem stir_shiftRight_inj {k : ℕ} (hk : 0 < k) (hw : x.width = y.width)
    (h : stir (·.shiftRight k) x = stir (·.shiftRight k) y) : x = y := by
  refine stir_inj hw (x.width - ·) (fun i hi hhigh => ?_) h
  rw [x.testBit_shiftRight, y.testBit_shiftRight]
  exact hhigh (k + i) (show x.width - (k + i) < x.width - i by omega)

end Stir

variable {r : Rule} {w : ℕ} {f : Word → Word}

/-- On the words of a width the rule is a function that takes them one to one onto all of them. -/
def Permutes (r : Rule) (w : ℕ) : Prop :=
  ∃ f : Word → Word, r.Computes w f ∧ Set.BijOn f { x | x.width = w } { x | x.width = w }

/-- There are finitely many words of a width, so it is enough that no two of them are taken for
one. -/
theorem ofFunction_permutes {h : ∀ x, (f x).width = x.width} {missing : Except Error (Option Word)}
    {hm : ∀ f : Fault, missing ≠ .error (.fault f)}
    (hinj : ∀ {x y : Word}, x.width = y.width → f x = f y → x = y) :
    (ofFunction f h missing hm).Permutes w := by
  have hwidth (x : Word) (hx : x.width = w) : (f x).width = w := (h x).trans hx
  refine ⟨f, ⟨fun _ _ => rfl, hwidth⟩, ?_⟩
  rw [← (Word.finite_width w).injOn_iff_bijOn_of_mapsTo hwidth]
  exact fun x hx y hy hxy => hinj (hx.trans hy.symm) hxy

theorem identity_permutes : identity.Permutes w := ofFunction_permutes fun _ h => h

theorem complement_permutes : complement.Permutes w := ofFunction_permutes Word.not_inj

theorem rotl1_permutes : rotl1.Permutes w :=
  ofFunction_permutes fun {x y} _ h => by
    rw [← x.rotateRight_rotateLeft 1, h, y.rotateRight_rotateLeft]

theorem rotr1_permutes : rotr1.Permutes w :=
  ofFunction_permutes fun {x y} _ h => by
    rw [← x.rotateLeft_rotateRight 1, h, y.rotateLeft_rotateRight]

theorem increment_permutes : increment.Permutes w := ofFunction_permutes (Word.wrap_add_inj 1)

theorem xorshift_permutes : xorshift.Permutes w := by
  apply ofFunction_permutes
  intro x y hw h
  have hright : stir (·.shiftRight 5) (stir (·.shiftLeft 3) x) =
      stir (·.shiftRight 5) (stir (·.shiftLeft 3) y) := stir_shiftLeft_inj (by omega) hw h
  have hleft : stir (·.shiftLeft 3) x = stir (·.shiftLeft 3) y :=
    stir_shiftRight_inj (by omega) hw hright
  exact stir_shiftLeft_inj (by omega) hw hleft

/-- The odd number `v` below `2 ^ w` for which `3v + 1` is a power of four, and a multiple of `2 ^
w`. -/
theorem exists_odd_dvd (hw : 0 < w) : ∃ v < 2 ^ w, v % 2 = 1 ∧ 2 ^ w ∣ 3 * v + 1 := by
  have hthird : (4 ^ ((w + 1) / 2)) % 3 = 1 := by simp [Nat.pow_mod]
  have hfour : 4 ^ ((w + 1) / 2) = 2 ^ (2 * ((w + 1) / 2)) := by rw [Nat.pow_mul]
  have hle : 2 ^ (2 * ((w + 1) / 2)) ≤ 2 ^ (w + 1) := Nat.pow_le_pow_right (by omega) (by omega)
  have hdvd : 2 ^ w ∣ 2 ^ (2 * ((w + 1) / 2)) := Nat.pow_dvd_pow 2 (by omega)
  have heven : 2 ∣ 2 ^ (2 * ((w + 1) / 2)) := Dvd.dvd.trans (dvd_pow_self 2 hw.ne') hdvd
  have hv : 3 * (4 ^ ((w + 1) / 2) / 3) + 1 = 2 ^ (2 * ((w + 1) / 2)) := by omega
  rw [Nat.pow_succ] at hle
  refine ⟨4 ^ ((w + 1) / 2) / 3, by omega, by omega, ?_⟩
  rw [hv]
  exact hdvd

/-- An odd word is taken for zero, and so is zero. -/
theorem collatz_not_permutes (hw : 0 < w) : ¬ collatz.Permutes w := by
  rintro ⟨f, hf, hbij⟩
  obtain ⟨v, hlt, hodd, hdvd⟩ := exists_odd_dvd hw
  let x : Word := ⟨w, v, hw, hlt⟩
  let zero : Word := ⟨w, 0, hw, Nat.two_pow_pos w⟩
  have hx : f x = zero := by
    have happly : f x = if v % 2 = 0 then x.shiftRight 1 else x.wrap (3 * v + 1) :=
      (Except.ok.inj (hf.apply x rfl)).symm
    rw [happly, if_neg (by omega)]
    exact Word.ext_value rfl (Nat.mod_eq_zero_of_dvd hdvd)
  have hzero : f zero = zero := by
    have happly : f zero = zero.shiftRight 1 := (Except.ok.inj (hf.apply zero rfl)).symm
    rw [happly]
    exact Word.ext_value (by simp) (by simp [Word.value_shiftRight, zero])
  have heq : x = zero := hbij.injOn rfl rfl (hx.trans hzero.symm)
  have hvalue : v = 0 := congrArg Word.value heq
  omega

/-- If no two words of the width are taken for one, then the first word to come again is the
start. -/
theorem Computes.trace_of_injOn (hf : r.Computes w f) (hinj : Set.InjOn f { x | x.width = w })
    {x : Word} (hx : x.width = w) :
    ∃ t, r.trace x = .ok t ∧ t.transient = [] ∧ t.cycle.head? = some x := by
  obtain ⟨t, n, i, k, ht, -, -, htrav, hn⟩ := hf.exists_trace hx
  have hik := htrav.lt
  have hstart : i = 0 := by
    by_contra hi
    obtain ⟨j, rfl⟩ := Nat.exists_eq_succ_of_ne_zero hi
    obtain ⟨l, rfl⟩ := Nat.exists_eq_succ_of_ne_zero (Nat.ne_zero_of_lt hik)
    -- Both visits come from one word, which then has come again before.
    have hbefore : f^[j] x = f^[l] x := by
      have hagain := htrav.again
      rw [Function.iterate_succ_apply', Function.iterate_succ_apply'] at hagain
      exact hinj (hf.iterate hx j).2 (hf.iterate hx l).2 hagain
    have hjl : j = l := htrav.iterate_inj hn (by omega) (by omega) hbefore
    omega
  subst hstart
  refine ⟨t, ht, ?_, ?_⟩
  · simp [htrav.transient]
  · simp [htrav.cycle, List.head?_range', hik.ne']

theorem Permutes.trace (h : r.Permutes w) {x : Word} (hx : x.width = w) :
    ∃ t, r.trace x = .ok t ∧ t.transient = [] ∧ t.cycle.head? = some x := by
  obtain ⟨f, hf, hbij⟩ := h
  exact hf.trace_of_injOn hbij.injOn hx

theorem permutes_iff_of_builtin (hw : 0 < w) {name : String}
    (h : RuleSet.builtin.get name = .ok r) : r.Permutes w ↔ name ≠ "collatz" := by
  have hmem := RuleSet.mem_of_get h
  simp only [RuleSet.builtin, builtin, List.mem_cons, List.not_mem_nil, or_false,
    Prod.mk.injEq] at hmem
  rcases hmem with ⟨rfl, rfl⟩ | ⟨rfl, rfl⟩ | ⟨rfl, rfl⟩ | ⟨rfl, rfl⟩ | ⟨rfl, rfl⟩ | ⟨rfl, rfl⟩ |
    ⟨rfl, rfl⟩
  · simp [identity_permutes]
  · simp [complement_permutes]
  · simp [rotl1_permutes]
  · simp [rotr1_permutes]
  · simp [increment_permutes]
  · simp [xorshift_permutes]
  · simp [collatz_not_permutes hw]

/-- At every width the builtin rules but one permute the words, so that a trajectory is a cycle
from its start on. The two rotations undo each other. The `3x + 1` rule permutes the words of no
width. -/
theorem builtin_permutations (hw : 0 < w) :
    (∀ name ∈ ["identity", "complement", "rotl1", "rotr1", "increment", "xorshift"],
      ∃ r, RuleSet.builtin.get name = .ok r ∧ r.Permutes w ∧
        ∀ x, x.width = w → ∃ t, r.trace x = .ok t ∧ t.transient = [] ∧ t.cycle.head? = some x) ∧
      (∀ x, x.width = w → ∃ left right, rotl1.apply x = .ok left ∧ rotr1.apply left = .ok x ∧
        rotr1.apply x = .ok right ∧ rotl1.apply right = .ok x) ∧
      ∀ name r, RuleSet.builtin.get name = .ok r → (r.Permutes w ↔ name ≠ "collatz") := by
  refine ⟨fun name hname => ?_, fun x _ => ?_, fun name r h => permutes_iff_of_builtin hw h⟩
  · obtain ⟨r, hr⟩ : ∃ r, RuleSet.builtin.get name = .ok r := by
      simp only [List.mem_cons, List.not_mem_nil, or_false] at hname
      rcases hname with rfl | rfl | rfl | rfl | rfl | rfl <;> exact ⟨_, rfl⟩
    have hne : name ≠ "collatz" := by
      rintro rfl
      simp at hname
    have hpermutes := (permutes_iff_of_builtin hw hr).mpr hne
    exact ⟨r, hr, hpermutes, fun x hx => hpermutes.trace hx⟩
  · refine ⟨x.rotateLeft 1, x.rotateRight 1, rfl, ?_, rfl, ?_⟩
    · exact congrArg Except.ok (x.rotateRight_rotateLeft 1)
    · exact congrArg Except.ok (x.rotateLeft_rotateRight 1)

/-- At three bits, less than the shifts reach, the trajectory of 5 comes back to it. -/
theorem builtin_permutations_narrow :
    let word (v : Fin 8) : Word := ⟨3, v, by decide, v.isLt⟩
    0 < 3 ∧ xorshift.apply (word 5) = .ok (word 7) ∧ xorshift.Permutes 3 ∧ ¬ collatz.Permutes 3 ∧
      ∃ t, xorshift.trace (word 5) = .ok t ∧ t.transient = [] ∧ t.cycle.head? = some (word 5) := by
  intro word
  obtain ⟨hgood, -, hall⟩ := builtin_permutations (w := 3) (by decide)
  obtain ⟨r, hr, hpermutes, htrace⟩ := hgood "xorshift" (by simp)
  have hget : RuleSet.builtin.get "xorshift" = .ok xorshift := rfl
  obtain rfl := Except.ok.inj (hget.symm.trans hr)
  refine ⟨by decide, congrArg Except.ok (by decide), hpermutes, ?_, htrace (word 5) rfl⟩
  exact fun h => (hall "collatz" collatz rfl).mp h rfl

end Rule
end WordMachine
