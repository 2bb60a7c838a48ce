import Mathlib.Data.Nat.Bitwise
import WordMachine.Proofs.Content
import WordMachine.Proofs.Permutations

/-!
A digest keeps all that one word of a sequence says. Each round of mixing permutes the words of the
width, in what was mixed so far as in the word that is mixed in, and a change at one position
passes through the rounds that follow.
-/
namespace WordMachine

section Mix
variable {h h' c c' : Word}

/-- The digest so far, turned, with those bits flipped that are set in the word. -/
def flipped (h c : Word) : Word := (h.rotateLeft 5).wrap ((h.rotateLeft 5).value ^^^ c.value)

@[simp] theorem width_flipped (h c : Word) : (flipped h c).width = h.width := by simp [flipped]

theorem value_flipped (hc : c.width = h.width) :
    (flipped h c).value = (h.rotateLeft 5).value ^^^ c.value := by
  have hc : c.value < 2 ^ (h.rotateLeft 5).width := by
    rw [Word.width_rotateLeft, ← hc]
    exact c.value_lt
  exact Nat.mod_eq_of_lt (Nat.xor_lt_two_pow (h.rotateLeft 5).value_lt hc)

theorem mix_of_width (hc : c.width = h.width) :
    mix h c =
      .ok ((flipped h c).wrap ((flipped h c).value + (0x9E5 % Word.card h.width ||| 1))) := by
  unfold mix
  rw [Word.xor_of_width (hc.trans (Word.width_rotateLeft h 5).symm)]
  rfl

/-- What is added in the end is one number for all words of a width, so that only the flipped bits
count. -/
theorem mix_inj (hh : h.width = h'.width) (hc : c.width = h.width) (hc' : c'.width = h'.width)
    (heq : mix h c = mix h' c') :
    (h.rotateLeft 5).value ^^^ c.value = (h'.rotateLeft 5).value ^^^ c'.value := by
  rw [mix_of_width hc, mix_of_width hc', ← hh] at heq
  have hflipped : flipped h c = flipped h' c' :=
    Word.wrap_add_inj _ (by simpa using hh) (Except.ok.inj heq)
  rw [← value_flipped hc, hflipped, value_flipped hc']

theorem mix_inj_left (hh : h.width = h'.width) (hc : c.width = h.width)
    (heq : mix h c = mix h' c) : h = h' := by
  have hbits := mix_inj hh hc (hc.trans hh) heq
  have hturned : h.rotateLeft 5 = h'.rotateLeft 5 :=
    Word.ext_value (by simpa using hh) (Nat.xor_left_injective hbits)
  rw [← h.rotateRight_rotateLeft 5, hturned, h'.rotateRight_rotateLeft]

theorem mix_inj_right (hc : c.width = h.width) (hc' : c'.width = h.width)
    (heq : mix h c = mix h c') : c = c' :=
  Word.ext_value (hc.trans hc'.symm) (Nat.xor_right_injective (mix_inj rfl hc hc' heq))

theorem exists_mix_eq (hc : c.width = h.width) : ∃ d, mix h c = .ok d ∧ d.width = h.width :=
  ⟨_, mix_of_width hc, by simp⟩

end Mix

section Sequences
variable {w : ℕ} {chars chars' : List Word}

/-- The rounds that follow keep two digests apart. -/
theorem foldlM_mix_inj {h h' : Word} (hchars : ∀ c ∈ chars, c.width = w) (hh : h.width = w)
    (hh' : h'.width = w) (heq : chars.foldlM mix h = chars.foldlM mix h') : h = h' := by
  induction chars generalizing h h' with
  | nil => exact Except.ok.inj heq
  | cons c chars ih =>
    obtain ⟨hc, hchars⟩ := List.forall_mem_cons.mp hchars
    obtain ⟨d, hd, hdw⟩ := exists_mix_eq (hc.trans hh.symm)
    obtain ⟨d', hd', hdw'⟩ := exists_mix_eq (hc.trans hh'.symm)
    rw [List.foldlM_cons, List.foldlM_cons, hd, hd'] at heq
    obtain rfl : d = d' := ih hchars (hdw.trans hh) (hdw'.trans hh') heq
    exact mix_inj_left (hh.trans hh'.symm) (hc.trans hh.symm) (hd.trans hd'.symm)

/-- The rounds before the position are the same, and the round at it and those after it lose
nothing. -/
theorem foldlM_mix_set_inj {h c c' : Word} {i : ℕ} (hi : i < chars.length)
    (hchars : ∀ c ∈ chars, c.width = w) (hh : h.width = w) (hc : c.width = w) (hc' : c'.width = w)
    (heq : (chars.set i c).foldlM mix h = (chars.set i c').foldlM mix h) : c = c' := by
  induction chars generalizing h i with
  | nil => simp at hi
  | cons x chars ih =>
    obtain ⟨hx, hchars⟩ := List.forall_mem_cons.mp hchars
    cases i with
    | zero =>
      obtain ⟨d, hd, hdw⟩ := exists_mix_eq (hc.trans hh.symm)
      obtain ⟨d', hd', hdw'⟩ := exists_mix_eq (hc'.trans hh.symm)
      rw [List.set_cons_zero, List.set_cons_zero, List.foldlM_cons, List.foldlM_cons, hd,
        hd'] at heq
      obtain rfl : d = d' := foldlM_mix_inj hchars (hdw.trans hh) (hdw'.trans hh) heq
      exact mix_inj_right (hc.trans hh.symm) (hc'.trans hh.symm) (hd.trans hd'.symm)
    | succ i =>
      obtain ⟨d, hd, hdw⟩ := exists_mix_eq (hx.trans hh.symm)
      rw [List.set_cons_succ, List.set_cons_succ, List.foldlM_cons, List.foldlM_cons, hd] at heq
      exact ih (Nat.lt_of_succ_lt_succ hi) hchars (hdw.trans hh) heq

theorem exists_digest_eq (hw : 1 ≤ w) (hchars : ∀ c ∈ chars, c.width = w) :
    ∃ d, digest chars w = .ok d ∧ d.width = w := by
  have hpos : 0 < (w : ℤ) ∧ ∀ c ∈ chars, (c.width : ℤ) = w :=
    ⟨Int.natCast_pos.mpr hw, fun c hc => congrArg Nat.cast (hchars c hc)⟩
  obtain ⟨d, hd, hdw⟩ :=
    ((digest_settles chars w).mono (fun _ h => h) fun _ he => he hpos).exists_ok
  exact ⟨d, hd, Int.ofNat.inj hdw⟩

theorem digest_eq_foldlM (hw : 1 ≤ w) :
    digest chars w = chars.foldlM mix ⟨w, chars.length % Word.card w, hw,
      Nat.mod_lt _ (Word.card_pos w)⟩ := by
  unfold digest
  rw [if_neg (by omega), Int.toNat_natCast, ofInt_eq_ok hw (Nat.mod_lt _ (Word.card_pos w)),
    ok_bind]

theorem width_of_mem_set {i : ℕ} {c : Word} (hchars : ∀ c ∈ chars, c.width = w)
    (hc : c.width = w) :
    ∀ x ∈ chars.set i c, x.width = w := fun x hx =>
  (List.mem_or_eq_of_mem_set hx).elim (hchars x) (· ▸ hc)

theorem digest_set_inj {i : ℕ} {c c' : Word} (hw : 1 ≤ w) (hchars : ∀ c ∈ chars, c.width = w)
    (hi : i < chars.length) (hc : c.width = w) (hc' : c'.width = w)
    (heq : digest (chars.set i c) w = digest (chars.set i c') w) : c = c' := by
  simp only [digest_eq_foldlM hw, List.length_set] at heq
  exact foldlM_mix_set_inj hi hchars rfl hc hc' heq

/-- The digest as a function of the word at one position. -/
theorem exists_digest_bijOn {i : ℕ} (hw : 1 ≤ w) (hchars : ∀ c ∈ chars, c.width = w)
    (hi : i < chars.length) :
    ∃ f : Word → Word, (∀ c, c.width = w → digest (chars.set i c) w = .ok (f c)) ∧
      Set.BijOn f { c | c.width = w } { c | c.width = w } := by
  have hex (c : Word) : ∃ d, c.width = w → digest (chars.set i c) w = .ok d ∧ d.width = w := by
    by_cases hc : c.width = w
    · obtain ⟨d, hd⟩ := exists_digest_eq hw (width_of_mem_set hchars hc)
      exact ⟨d, fun _ => hd⟩
    · exact ⟨c, fun h => absurd h hc⟩
  choose f hf using hex
  refine ⟨f, fun c hc => (hf c hc).1, ?_⟩
  rw [← (Word.finite_width w).injOn_iff_bijOn_of_mapsTo fun c hc => (hf c hc).2]
  intro c hc c' hc' heq
  apply digest_set_inj hw hchars hi hc hc'
  rw [(hf c hc).1, (hf c' hc').1, heq]

/-- Of two sequences that differ at one position only, each has a word of its own there. -/
theorem exists_set_of_existsUnique (hlen : chars.length = chars'.length)
    (h : ∃! i : ℕ, chars[i]? ≠ chars'[i]?) :
    ∃ i c c', i < chars.length ∧ c ∈ chars ∧ c' ∈ chars' ∧ c ≠ c' ∧ chars.set i c = chars ∧
      chars.set i c' = chars' := by
  obtain ⟨i, hne, honly⟩ := h
  have hi : i < chars.length := by
    by_contra hi
    exact hne (by rw [List.getElem?_eq_none (by omega), List.getElem?_eq_none (by omega)])
  have hi' : i < chars'.length := hlen ▸ hi
  refine ⟨i, chars[i], chars'[i], hi, List.getElem_mem hi, List.getElem_mem hi', ?_,
    List.set_getElem_self hi, ?_⟩
  · simpa [hi, hi'] using hne
  · apply List.ext_getElem?
    intro j
    by_cases hj : i = j
    · subst hj
      simp [hi, hi']
    · rw [List.getElem?_set_ne hj]
      by_contra hdiff
      exact hj (honly j hdiff).symm

/-- At every width and position the digest permutes the words that can stand there. So sequences of
one length that differ at one position only have different digests, and every word is a digest at
every length but zero. -/
theorem digest_permutes_positions (hw : 1 ≤ w) :
    (∀ (chars : List Word) (i : ℕ), (∀ c ∈ chars, c.width = w) → i < chars.length →
      ∃ f : Word → Word, (∀ c, c.width = w → digest (chars.set i c) w = .ok (f c)) ∧
        Set.BijOn f { c | c.width = w } { c | c.width = w }) ∧
      (∀ chars chars' : List Word, (∀ c ∈ chars, c.width = w) → (∀ c ∈ chars', c.width = w) →
        chars.length = chars'.length → (∃! i : ℕ, chars[i]? ≠ chars'[i]?) →
        ∃ d d', digest chars w = .ok d ∧ digest chars' w = .ok d' ∧ d ≠ d') ∧
      ∀ n ≥ 1, ∀ d, d.width = w →
        ∃ chars, chars.length = n ∧ (∀ c ∈ chars, c.width = w) ∧ digest chars w = .ok d := by
  refine ⟨fun chars i hchars hi => exists_digest_bijOn hw hchars hi, ?_, ?_⟩
  · intro chars chars' hchars hchars' hlen hone
    obtain ⟨d, hd, -⟩ := exists_digest_eq hw hchars
    obtain ⟨d', hd', -⟩ := exists_digest_eq hw hchars'
    obtain ⟨i, c, c', hi, hc, hc', hne, hset, hset'⟩ := exists_set_of_existsUnique hlen hone
    refine ⟨d, d', hd, hd', ?_⟩
    rintro rfl
    apply hne
    apply digest_set_inj hw hchars hi (hchars c hc) (hchars' c' hc')
    rw [hset, hset', hd, hd']
  · intro n hn d hd
    -- All words but the first are taken as they come.
    have hsame : ∀ c ∈ List.replicate n d, c.width = w :=
      fun c hc => (List.eq_of_mem_replicate hc) ▸ hd
    obtain ⟨f, hf, hbij⟩ :=
      exists_digest_bijOn (i := 0) hw hsame (hn.trans_eq List.length_replicate.symm)
    obtain ⟨c, hc, rfl⟩ := hbij.surjOn hd
    exact ⟨(List.replicate n (f c)).set 0 c, by simp, width_of_mem_set hsame hc, hf c hc⟩

/-- At three bits, where a turn by five is one by two. -/
theorem digest_permutes_positions_narrow :
    let word (v : Fin 8) : Word := ⟨3, v, by decide, v.isLt⟩
    1 ≤ 3 ∧ (∃! i : ℕ, [word 1, word 2, word 3][i]? ≠ [word 1, word 6, word 3][i]?) ∧
      (∃ d d', digest [word 1, word 2, word 3] 3 = .ok d ∧
        digest [word 1, word 6, word 3] 3 = .ok d' ∧ d ≠ d') ∧
      (∃ f : Word → Word, (∀ c, c.width = 3 → digest [word 1, c, word 3] 3 = .ok (f c)) ∧
        Set.BijOn f { c | c.width = 3 } { c | c.width = 3 }) ∧
      ∃ chars, chars.length = 4 ∧ (∀ c ∈ chars, c.width = 3) ∧ digest chars 3 = .ok (word 7) := by
  intro word
  obtain ⟨hbij, hdiffer, hreached⟩ := digest_permutes_positions (w := 3) (by decide)
  have hwidth (u v x : Fin 8) : ∀ c ∈ [word u, word v, word x], c.width = 3 := by simp [word]
  have hone : ∃! i : ℕ, [word 1, word 2, word 3][i]? ≠ [word 1, word 6, word 3][i]? := by
    refine ⟨1, by simp [word], fun i hi => ?_⟩
    rcases i with - | - | - | i
    · exact absurd rfl hi
    · rfl
    · exact absurd rfl hi
    · exact absurd rfl hi
  refine ⟨by decide, hone, ?_, ?_, hreached 4 (by decide) (word 7) rfl⟩
  · exact hdiffer _ _ (hwidth 1 2 3) (hwidth 1 6 3) rfl hone
  · exact hbij [word 1, word 2, word 3] 1 (hwidth 1 2 3) (by decide)

end Sequences
end WordMachine
