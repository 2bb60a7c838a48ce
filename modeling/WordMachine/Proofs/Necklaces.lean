import WordMachine.Proofs.BasinHistory
import WordMachine.Proofs.Permutations

/-!
Basins of the rotation rules. Turning by one place, either way, leads through all turns of a word
and back to it, within as many steps as the word has bits. So a basin is a necklace: the words that
are turns of each other, named by the least of them.
-/
namespace WordMachine

namespace Word

variable {x y b : Word} {s : ℤ}

theorem iterate_rotateLeft (s : ℤ) (n : ℕ) (x : Word) :
    (·.rotateLeft s)^[n] x = x.rotateLeft (n * s) := by
  induction n with
  | zero => simp
  | succ n ih =>
    rw [Function.iterate_succ_apply', ih, rotateLeft_rotateLeft]
    congr 1
    push_cast
    rw [Int.add_mul, Int.one_mul]

/-- After as many turns as there are bits a word is back. -/
theorem isPeriodicPt_rotateLeft (s : ℤ) (x : Word) :
    Function.IsPeriodicPt (·.rotateLeft s) x.width x := by
  unfold Function.IsPeriodicPt Function.IsFixedPt
  rw [iterate_rotateLeft, rotateLeft_congr (l := 0) (by simp), rotateLeft_zero]

/-- Steps of one place reach every turn, also those the other way round. -/
theorem exists_iterate_rotateLeft (hs : s * s = 1) (x : Word) (k : ℤ) :
    ∃ n, (·.rotateLeft s)^[n] x = x.rotateLeft k := by
  obtain ⟨hnonneg, -⟩ := x.emod_width (k * s)
  refine ⟨(k * s % x.width).toNat, ?_⟩
  rw [iterate_rotateLeft, Int.toNat_of_nonneg hnonneg]
  apply rotateLeft_congr
  rw [Int.mul_emod, Int.emod_emod, ← Int.mul_emod, mul_assoc, hs, mul_one]

theorem mem_finalCycle_rotateLeft_iff (hs : s * s = 1) :
    y ∈ finalCycle (·.rotateLeft s) x ↔ ∃ k : ℤ, y = x.rotateLeft k := by
  constructor
  · rintro ⟨⟨n, rfl⟩, -⟩
    exact ⟨n * s, iterate_rotateLeft s n x⟩
  · rintro ⟨k, rfl⟩
    refine ⟨exists_iterate_rotateLeft hs x k, ?_⟩
    exact Function.mk_mem_periodicPts (width_pos _) (isPeriodicPt_rotateLeft s (x.rotateLeft k))

/-- The least of the turns of a word. -/
def IsNecklace (x b : Word) : Prop := (∃ k : ℤ, b = x.rotateLeft k) ∧ ∀ k :
    ℤ, b.value ≤ (x.rotateLeft k).value

theorem isBasin_rotateLeft_iff (hs : s * s = 1) :
    IsBasin (·.rotateLeft s) x b ↔ x.IsNecklace b := by
  unfold IsBasin IsNecklace
  rw [mem_finalCycle_rotateLeft_iff hs]
  refine and_congr_right fun ⟨l, hl⟩ => ?_
  constructor
  · intro h k
    exact (h _ ((mem_finalCycle_rotateLeft_iff hs).mpr ⟨k, rfl⟩)).2
  · intro h z hz
    obtain ⟨k, rfl⟩ := (mem_finalCycle_rotateLeft_iff hs).mp hz
    exact ⟨by simp [hl], h k⟩

/-- Turns of one word have the same least turn. -/
theorem IsNecklace.rotateLeft (h : x.IsNecklace b) (k : ℤ) : (x.rotateLeft k).IsNecklace b := by
  obtain ⟨⟨l, rfl⟩, hleast⟩ := h
  constructor
  · refine ⟨l - k, ?_⟩
    rw [rotateLeft_rotateLeft, add_sub_cancel]
  · intro m
    rw [rotateLeft_rotateLeft]
    exact hleast (k + m)

/-- Words with the same least turn are turns of each other. -/
theorem IsNecklace.exists_rotateLeft (hx : x.IsNecklace b) (hy : y.IsNecklace b) : ∃ k :
    ℤ, y = x.rotateLeft k := by
  obtain ⟨⟨k, hk⟩, -⟩ := hx
  obtain ⟨⟨l, hl⟩, -⟩ := hy
  refine ⟨k - l, ?_⟩
  rw [sub_eq_add_neg, ← rotateLeft_rotateLeft, ← hk, hl]
  exact (y.rotateRight_rotateLeft l).symm

/-- The counts below the width are enough. -/
theorem IsNecklace.exists_lt (h : x.IsNecklace b) : ∃ k < x.width, b = x.rotateLeft k := by
  obtain ⟨⟨k, rfl⟩, -⟩ := h
  obtain ⟨hnonneg, hlt⟩ := x.emod_width k
  refine ⟨(k % x.width).toNat, by omega, ?_⟩
  rw [Int.toNat_of_nonneg hnonneg]
  exact rotateLeft_congr (Int.emod_emod_of_dvd k (dvd_refl _)).symm

end Word

namespace Rule

theorem rotl1_computes (w : ℕ) : rotl1.Computes w (·.rotateLeft 1) :=
  ⟨fun _ _ => rfl, fun x hx => (x.width_rotateLeft 1).trans hx⟩

theorem rotr1_computes (w : ℕ) : rotr1.Computes w (·.rotateLeft (-1)) :=
  ⟨fun _ _ => rfl, fun x hx => (x.width_rotateLeft (-1)).trans hx⟩

/-- The trajectory of a turned word is its cycle, of which the width holds a whole number. -/
theorem Computes.exists_cycle_dvd {r : Rule} {s : ℤ} {x : Word}
    (hr : r.Computes x.width (·.rotateLeft s)) :
    ∃ t, r.trace x = .ok t ∧ t.cycle.length ∣ x.width := by
  obtain ⟨t, n, i, k, ht, -, -, htrav, hn⟩ := hr.exists_trace rfl
  have hback := Word.isPeriodicPt_rotateLeft s x
  have hmem : x ∈ t.cycle :=
    htrav.mem_cycle_iff.mpr ⟨⟨0, rfl⟩, Function.mk_mem_periodicPts x.width_pos hback⟩
  refine ⟨t, ht, ?_⟩
  rw [← htrav.minimalPeriod_eq hn hmem]
  exact hback.minimalPeriod_dvd

end Rule

namespace Dynamics

variable {rules rules' : RuleSet} {name name' : String} {d₀ left right : Dynamics} {x b c : Word}

/-- Whatever has been asked before, this is the basin of the word. -/
def Finds (d₀ : Dynamics) (x b : Word) : Prop :=
  ∀ history, ∃ d, (d₀.after history).basinId x = .ok (b, d)

theorem Finds.unique (hb : d₀.Finds x b) (hc : d₀.Finds x c) : b = c := by
  obtain ⟨d, hd⟩ := hb []
  obtain ⟨d', hd'⟩ := hc []
  rw [hd] at hd'
  cases hd'
  rfl

theorem finds_iff_isBasin (hmake : make rules name = .ok d₀) {f : Word → Word}
    (hrule : d₀.rule.Computes x.width f) : d₀.Finds x b ↔ IsBasin f x b := by
  obtain ⟨c, hc, hbasin⟩ := hrule.exists_basin rfl
  have hfinds : d₀.Finds x c := fun history => ((make_faithful hmake).after history).basinId_eq hc
  constructor
  · intro hb
    rw [hb.unique hfinds]
    exact hbasin
  · intro hb
    rw [hb.unique hbasin]
    exact hfinds

theorem finds_iff_isNecklace (hmake : make rules name = .ok d₀) {s : ℤ} (hs : s * s = 1)
    (hrule : d₀.rule.Computes x.width (·.rotateLeft s)) : d₀.Finds x b ↔ x.IsNecklace b := by
  rw [finds_iff_isBasin hmake hrule, Word.isBasin_rotateLeft_iff hs]

/-- Under both rotation rules, and whatever has been asked before, the basin of a word is the least
of its turns, and the words of this basin are its turns. The cycle that turning leads through
divides the width. -/
theorem rotation_basins (hleft : make rules name = .ok left) (hrotl : left.rule = .rotl1)
    (hright : make rules' name' = .ok right) (hrotr : right.rule = .rotr1) (x : Word) :
    (∃ b, left.Finds x b ∧ right.Finds x b ∧
      (∃ k < x.width, b = x.rotateLeft k) ∧ (∀ k < x.width, b.value ≤ (x.rotateLeft k).value) ∧
      ∀ y, y.width = x.width →
        ((left.Finds y b ↔ ∃ k : ℤ, y = x.rotateLeft k) ∧
          (right.Finds y b ↔ ∃ k : ℤ, y = x.rotateLeft k))) ∧
    ∃ t, Rule.rotl1.trace x = .ok t ∧ t.cycle.length ∣ x.width := by
  have hl (y b : Word) : left.Finds y b ↔ y.IsNecklace b :=
    finds_iff_isNecklace hleft (by simp) (hrotl ▸ Rule.rotl1_computes y.width)
  have hr (y b : Word) : right.Finds y b ↔ y.IsNecklace b :=
    finds_iff_isNecklace hright (by simp) (hrotr ▸ Rule.rotr1_computes y.width)
  obtain ⟨b, -, hbasin⟩ := (Rule.rotl1_computes x.width).exists_basin rfl
  have hb : x.IsNecklace b := (Word.isBasin_rotateLeft_iff (by simp)).mp hbasin
  have hturns (y : Word) : y.IsNecklace b ↔ ∃ k : ℤ, y = x.rotateLeft k := by
    constructor
    · exact hb.exists_rotateLeft
    · rintro ⟨k, rfl⟩
      exact hb.rotateLeft k
  refine ⟨⟨b, (hl x b).mpr hb, (hr x b).mpr hb, hb.exists_lt, fun k _ => hb.2 k, fun y _ => ?_⟩,
    ?_⟩
  · rw [hl, hr]
    exact ⟨hturns y, hturns y⟩
  · exact (Rule.rotl1_computes x.width).exists_cycle_dvd

/-- Of four bits, 5 and 10 are turns of each other, and 5 is the least. -/
theorem rotation_basins_alternating :
    let word (v : Fin 16) : Word := ⟨4, v, by decide, v.isLt⟩
    let left : Dynamics := ⟨.builtin, "rotl1", .rotl1, ∅⟩
    let right : Dynamics := ⟨.builtin, "rotr1", .rotr1, ∅⟩
    make .builtin "rotl1" = .ok left ∧ make .builtin "rotr1" = .ok right ∧
      left.Finds (word 10) (word 5) ∧ right.Finds (word 10) (word 5) ∧
      left.Finds (word 5) (word 5) ∧
      ∃ t, Rule.rotl1.trace (word 10) = .ok t ∧ t.cycle.length ∣ 4 := by
  intro word left right
  have hleft : make .builtin "rotl1" = .ok left := rfl
  have hright : make .builtin "rotr1" = .ok right := rfl
  obtain ⟨⟨b, hl, hr, ⟨k, hk, hturn⟩, hleast, hsame⟩, htrace⟩ :=
    rotation_basins hleft rfl hright rfl (word 10)
  have hfive : ∀ k :
      ℕ, k < 4 → ((word 10).rotateLeft k).value ≤ ((word 10).rotateLeft (1 : ℕ)).value →
      (word 10).rotateLeft k = word 5 := by decide
  obtain rfl : b = word 5 := hturn.trans (hfive k hk (hturn ▸ hleast 1 (by decide)))
  exact ⟨hleft, hright, hl, hr, (hsame (word 5) rfl).1.mpr ⟨1, by decide⟩, htrace⟩

end Dynamics
end WordMachine
