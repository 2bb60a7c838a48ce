import WordMachine.Proofs.Addition

/-!
The adders of whole patterns. They work in every position at once and pass no carry on, so the
carries come out as a word of their own, which is worth twice its value.
-/
namespace WordMachine

/-- In one position the sum is the parity and the carry the majority of what is added there. -/
theorem addBit_eq_count (a b carry : Bool) :
    addBit a b carry =
      (decide ([a, b, carry].count true % 2 = 1), decide (2 ≤ [a, b, carry].count true)) := by
  cases a <;> cases b <;> cases carry <;> rfl

/-- A sum of three numbers is known by the sums and carries of their positions. -/
theorem add_two_mul_of_addBit {w a b c s k : ℕ} (ha : a < 2 ^ w) (hb : b < 2 ^ w) (hc : c < 2 ^ w)
    (hs : s < 2 ^ w) (hk : k < 2 ^ w)
    (hbits : ∀ i, (s.testBit i, k.testBit i) = addBit (a.testBit i) (b.testBit i) (c.testBit i)) :
    s + 2 * k = a + b + c := by
  induction w generalizing a b c s k with
  | zero => omega
  | succ w ih =>
    rw [Nat.pow_succ] at ha hb hc hs hk
    have hhalves : s / 2 + 2 * (k / 2) = a / 2 + b / 2 + c / 2 := by
      refine ih (by omega) (by omega) (by omega) (by omega) (by omega) fun i => ?_
      simpa only [Nat.testBit_succ] using hbits (i + 1)
    have hlast := addBit_value (a.testBit 0) (b.testBit 0) (c.testBit 0)
    rw [← hbits 0] at hlast
    simp only [Nat.toNat_testBit, Nat.pow_zero, Nat.div_one] at hlast
    omega

/-- Two words that hold the sums and the carries of three numbers, position by position. -/
structure SavesCarries (width x y z : ℕ) (sum carry : Word) : Prop where
  sum_width : sum.width = width
  carry_width : carry.width = width
  bits (i : ℕ) :
    (sum.value.testBit i, carry.value.testBit i) = addBit (x.testBit i) (y.testBit i) (z.testBit i)

namespace SavesCarries

variable {width x y z x' y' z' : ℕ} {sum carry sum' carry' : Word}

theorem value (h : SavesCarries width x y z sum carry) (hx : x < 2 ^ width) (hy : y < 2 ^ width)
    (hz : z < 2 ^ width) : sum.value + 2 * carry.value = x + y + z := by
  have hsum : sum.value < 2 ^ width := h.sum_width ▸ sum.value_lt
  have hcarry : carry.value < 2 ^ width := h.carry_width ▸ carry.value_lt
  exact add_two_mul_of_addBit hx hy hz hsum hcarry h.bits

theorem majority (h : SavesCarries width x y z sum carry) (i : ℕ) :
    carry.value.testBit i = decide (2 ≤ [x.testBit i, y.testBit i, z.testBit i].count true) := by
  have hcarry := congrArg Prod.snd (h.bits i)
  rw [addBit_eq_count] at hcarry
  exact hcarry

/-- Parity and majority only count, so the order does not matter. -/
theorem reorder (h : SavesCarries width x y z sum carry) (hperm : [x', y', z'].Perm [x, y, z]) :
    SavesCarries width x' y' z' sum carry := by
  refine ⟨h.sum_width, h.carry_width, fun i => ?_⟩
  have hcount : [x'.testBit i, y'.testBit i, z'.testBit i].count true =
      [x.testBit i, y.testBit i, z.testBit i].count true :=
        (hperm.map (Nat.testBit · i)).count_eq true
  rw [h.bits, addBit_eq_count, addBit_eq_count, hcount]

theorem unique (h : SavesCarries width x y z sum carry)
    (h' : SavesCarries width x y z sum' carry') : sum = sum' ∧ carry = carry' := by
  have hbits (i : ℕ) := Prod.mk.inj ((h.bits i).trans (h'.bits i).symm)
  exact ⟨Word.ext_testBit (h.sum_width.trans h'.sum_width.symm) fun i _ => (hbits i).1,
    Word.ext_testBit (h.carry_width.trans h'.carry_width.symm) fun i _ => (hbits i).2⟩

end SavesCarries

/-- The patterns of a half adder have no bit beyond the width, so nothing is cut off. -/
theorem halfAdder_savesCarries {a b : Word} (hb : b.width = a.width) :
    ∃ sum carry, halfAdder a b = .ok (sum, carry) ∧
      SavesCarries a.width a.value b.value 0 sum carry := by
  refine ⟨a.wrap (a.value ^^^ b.value), a.wrap (a.value &&& b.value), ?_, rfl, rfl, fun i => ?_⟩
  · rw [halfAdder, Word.xor_of_width hb, Word.and_of_width hb]
    rfl
  · have hlt : b.value < 2 ^ a.width := hb ▸ b.value_lt
    rw [a.wrap_of_lt (Nat.xor_lt_two_pow a.value_lt hlt), a.wrap_of_lt (Nat.and_lt_two_pow _ hlt)]
    simp [addBit]

theorem fullAdder_savesCarries {a b c : Word} (hb : b.width = a.width) (hc : c.width = a.width) :
    ∃ sum carry, fullAdder a b c = .ok (sum, carry) ∧
      SavesCarries a.width a.value b.value c.value sum carry := by
  obtain ⟨part, c₁, hpart, hsaves₁⟩ := halfAdder_savesCarries hb
  obtain ⟨total, c₂, htotal, hsaves₂⟩ := halfAdder_savesCarries (hc.trans hsaves₁.sum_width.symm)
  have hwidth : c₂.width = c₁.width := by
    rw [hsaves₂.carry_width, hsaves₁.sum_width, hsaves₁.carry_width]
  have hlt : c₂.value < 2 ^ c₁.width := hwidth ▸ c₂.value_lt
  refine ⟨total, c₁.wrap (c₁.value ||| c₂.value), ?_, ?_, hsaves₁.carry_width, fun i => ?_⟩
  · have hor := Word.or_of_width hwidth
    simp only [fullAdder, hpart, htotal, hor, bind, Except.bind, pure, Except.pure]
  · rw [hsaves₂.sum_width, hsaves₁.sum_width]
  · -- the second sum starts from the first, and at most one of the two carries is set
    obtain ⟨hsum₁, hcarry₁⟩ := Prod.mk.inj (hsaves₁.bits i)
    obtain ⟨hsum₂, hcarry₂⟩ := Prod.mk.inj (hsaves₂.bits i)
    rw [c₁.wrap_of_lt (Nat.or_lt_two_pow c₁.value_lt hlt), Nat.testBit_or, hsum₂, hcarry₂, hsum₁,
      hcarry₁]
    simp [addBit]

/-- Both adders save the carries: nothing is lost of what was added, and the carry of a full adder
is the majority of the three patterns in each position, whatever their order. -/
theorem adders_save_carries {a b c : Word} (hb : b.width = a.width) (hc : c.width = a.width) :
    (∃ s k, halfAdder a b = .ok (s, k) ∧ s.width = a.width ∧ k.width = a.width ∧
      s.value + 2 * k.value = a.value + b.value) ∧
    ∃ s k, fullAdder a b c = .ok (s, k) ∧ s.width = a.width ∧ k.width = a.width ∧
      s.value + 2 * k.value = a.value + b.value + c.value ∧
      (∀ i, k.value.testBit i =
        decide (2 ≤ [a.value.testBit i, b.value.testBit i, c.value.testBit i].count true)) ∧
      ∀ x y z, [x, y, z].Perm [a, b, c] → fullAdder x y z = .ok (s, k) := by
  have hltb : b.value < 2 ^ a.width := hb ▸ b.value_lt
  have hltc : c.value < 2 ^ a.width := hc ▸ c.value_lt
  obtain ⟨s₂, k₂, hhalf, hsaves₂⟩ := halfAdder_savesCarries hb
  obtain ⟨s, k, hfull, hsaves⟩ := fullAdder_savesCarries hb hc
  refine ⟨⟨s₂, k₂, hhalf, hsaves₂.sum_width, hsaves₂.carry_width, ?_⟩,
    s, k, hfull, hsaves.sum_width, hsaves.carry_width, ?_, hsaves.majority, ?_⟩
  · exact hsaves₂.value a.value_lt hltb (Nat.two_pow_pos _)
  · exact hsaves.value a.value_lt hltb hltc
  · intro x y z hperm
    have hwidth : ∀ v ∈ [x, y, z], v.width = a.width := by
      intro v hv
      have hmem := hperm.mem_iff.mp hv
      simp only [List.mem_cons, List.not_mem_nil, or_false] at hmem
      obtain rfl | rfl | rfl := hmem
      · rfl
      · exact hb
      · exact hc
    have hx : x.width = a.width := hwidth x (by simp)
    obtain ⟨s', k', hfull', hsaves'⟩ :=
      fullAdder_savesCarries ((hwidth y (by simp)).trans hx.symm)
        ((hwidth z (by simp)).trans hx.symm)
    rw [hx] at hsaves'
    obtain ⟨rfl, rfl⟩ := (hsaves.reorder (hperm.map Word.value)).unique hsaves'
    exact hfull'

/-- All three patterns at four bits: the sum is worth 28, more than a word holds, and what the sums
lack is in the carries. -/
theorem adders_save_carries_overflow :
    let word (v : Fin 16) : Word := ⟨4, v, by decide, v.isLt⟩
    (word 10).width = (word 12).width ∧ (word 6).width = (word 12).width ∧
      (∃ s k, halfAdder (word 12) (word 10) = .ok (s, k) ∧ s.value + 2 * k.value = 22) ∧
      ∃ s k, fullAdder (word 12) (word 10) (word 6) = .ok (s, k) ∧ s.value + 2 * k.value = 28 ∧
        k.value.testBit 3 = true ∧ fullAdder (word 6) (word 12) (word 10) = .ok (s, k) := by
  intro word
  have hb : (word 10).width = (word 12).width := rfl
  have hc : (word 6).width = (word 12).width := rfl
  obtain ⟨⟨s₂, k₂, hhalf, -, -, hvalue₂⟩, s, k, hfull, -, -, hvalue, hmajority, horder⟩ :=
    adders_save_carries hb hc
  exact ⟨hb, hc, ⟨s₂, k₂, hhalf, hvalue₂⟩, s, k, hfull, hvalue, (hmajority 3).trans (by decide),
    horder _ _ _ (by decide)⟩

end WordMachine
