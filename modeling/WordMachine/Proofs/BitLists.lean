import Mathlib.Algebra.BigOperators.Fin
import Mathlib.Data.Set.Function
import Mathlib.Tactic.Ring
import WordMachine.Proofs.WordBits

/-!
Words and lists of bits. To read the bits of a word and to put bits together are inverse to each
other. Bits may be given as any integers, of which the parities count, and may be set one after
another: a bit never meets those below it.
-/
namespace WordMachine.Word

variable {i : ℕ}

def parity (n : ℤ) : Bool := decide (n % 2 = 1)

@[simp] theorem toInt_parity (n : ℤ) : (parity n).toInt = n % 2 := by
  unfold parity
  obtain h | h := Int.emod_two_eq n <;> simp [h]

theorem natCast_toNat_parity (n : ℤ) : ((parity n).toNat : ℤ) = n % 2 := by
  rw [← toInt_parity]
  cases parity n <;> rfl

@[simp] theorem parity_toInt (b : Bool) : parity b.toInt = b := by
  cases b <;> rfl

/-- Integers make a word if there is one at all. -/
theorem ofBits_of_ne_nil {ns : List ℤ} (h : ns ≠ []) :
    ∃ hlen, ofBits ns = .ok (ofBools (ns.map parity) hlen) := by
  have hlen : 0 < (ns.map parity).length := by simpa using List.length_pos_iff.mpr h
  exact ⟨hlen, dif_pos hlen⟩

theorem getElem?_bits (x : Word) (h : i < x.width) : x.bits[i]? = some (x.value.testBit i) := by
  simp [bits, h]

theorem bits_ofBools (bs : List Bool) (h : 0 < bs.length) : (ofBools bs h).bits = bs := by
  apply List.ext_getElem?
  intro i
  by_cases hi : i < bs.length
  · rw [getElem?_bits _ hi]
    simp [ofBools, testBit_bitsValue, hi]
  · rw [List.getElem?_eq_none (by simpa [ofBools] using hi), List.getElem?_eq_none (by omega)]

theorem ofBools_bits (x : Word) (h : 0 < x.bits.length) : ofBools x.bits h = x :=
  ext_value x.length_bits x.bitsValue_bits

theorem bits_ne_nil (x : Word) : x.bits ≠ [] := by
  rw [← List.length_pos_iff, length_bits]
  exact x.width_pos

/-- The bits of a word, as integers, make the word again. -/
theorem ofBits_bits (x : Word) : ofBits (x.bits.map Bool.toInt) = .ok x := by
  have hne : x.bits.map Bool.toInt ≠ [] := by simpa using x.bits_ne_nil
  have hbits : (x.bits.map Bool.toInt).map parity = x.bits := by simp [Function.comp_def]
  obtain ⟨hlen, hok⟩ := ofBits_of_ne_nil hne
  simp only [hbits] at hlen hok
  rw [hok, ofBools_bits]

/-- Each bit counts for a power of two. -/
theorem bitsValue_parities (ns : List ℤ) :
    (bitsValue (ns.map parity) : ℤ) = ∑ i : Fin ns.length, ns.get i % 2 * 2 ^ (i : ℕ) := by
  induction ns with
  | nil => simp [bitsValue]
  | cons n ns ih =>
    have hrest (i : Fin ns.length) :
        (n :: ns).get i.succ % 2 * 2 ^ (i.succ : ℕ) = 2 * (ns.get i % 2 * 2 ^ (i : ℕ)) := by
      rw [Fin.val_succ, pow_succ, List.get_cons_succ']
      ring
    calc (bitsValue ((n :: ns).map parity) : ℤ) = n % 2 + 2 * bitsValue (ns.map parity) := by
          rw [List.map_cons, bitsValue, Nat.cast_add, Nat.cast_mul, natCast_toNat_parity]
          rfl
      _ = ∑ i : Fin (ns.length + 1), (n :: ns).get i % 2 * 2 ^ (i : ℕ) := by
          rw [Fin.sum_univ_succ, Finset.sum_congr rfl fun i _ => hrest i, ← Finset.mul_sum, ih]
          simp

def setBit (v : ℕ) (bit : ℤ × ℕ) : ℕ := v ||| (bit.1 % 2).toNat <<< bit.2

/-- A bit above all others is added. -/
theorem setBit_eq_add {v : ℕ} (h : v < 2 ^ i) (n : ℤ) :
    setBit v (n, i) = v + 2 ^ i * (parity n).toNat := by
  have hbit : (n % 2).toNat = (parity n).toNat := by
    rw [← natCast_toNat_parity, Int.toNat_natCast]
  rw [setBit, hbit, Nat.shiftLeft_eq, Nat.mul_comm, Nat.or_comm, ← Nat.two_pow_add_eq_or_of_lt h,
    Nat.add_comm]

/-- Bits that are set from a place on, where nothing is set yet, spell the rest of the number. -/
theorem foldl_setBit {v : ℕ} (h : v < 2 ^ i) (ns : List ℤ) :
    (ns.zipIdx i).foldl setBit v = v + 2 ^ i * bitsValue (ns.map parity) := by
  induction ns generalizing v i with
  | nil => simp [bitsValue]
  | cons n ns ih =>
    -- what is set so far stays below the next place
    have hlt : setBit v (n, i) < 2 ^ (i + 1) := by
      have hle : 2 ^ i * (parity n).toNat ≤ 2 ^ i * 1 := Nat.mul_le_mul_left _ (Bool.toNat_le _)
      rw [setBit_eq_add h, Nat.pow_succ]
      omega
    rw [List.zipIdx_cons, List.foldl_cons, ih hlt, setBit_eq_add h, List.map_cons, bitsValue]
    ring

/-- Two words with the same bits are put together from the same integers. -/
theorem bits_injective : Function.Injective bits := by
  intro x y h
  have hok : (Except.ok x : Except Error Word) = .ok y := by
    rw [← x.ofBits_bits, ← y.ofBits_bits, h]
  exact Except.ok.inj hok

/-- Words and lists of bits that are not empty correspond to each other. A word is made again of
its own bits; any integers make a word of as many bits, which are their remainders by two and count
for powers of two, whether they are added up or set one after another. The list of bits has each
bit at its index, and the most significant last. -/
theorem bit_lists_bijective :
    Set.BijOn bits Set.univ {bs | bs ≠ []} ∧ (∀ x : Word, ofBits (x.bits.map Bool.toInt) = .ok x) ∧
    (∀ ns : List ℤ, ns ≠ [] → ∃ x, ofBits ns = .ok x ∧ x.width = ns.length ∧
      x.bits.map Bool.toInt = ns.map (· % 2) ∧
      (x.value : ℤ) = ∑ i : Fin ns.length, ns.get i % 2 * 2 ^ (i : ℕ) ∧
      x.value = ns.zipIdx.foldl setBit 0) ∧
    ∀ x : Word, (∀ i < x.width, ∃ bit, x.bit i = .ok bit ∧ x.bits[i]? = some bit) ∧
      x.bits[x.width - 1]? = some x.msb := by
  refine ⟨⟨fun x _ => x.bits_ne_nil, bits_injective.injOn, ?_⟩, ofBits_bits, ?_, ?_⟩
  · intro bs hbs
    exact ⟨ofBools bs (List.length_pos_iff.mpr hbs), trivial, bits_ofBools bs _⟩
  · intro ns hns
    obtain ⟨hlen, hok⟩ := ofBits_of_ne_nil hns
    refine ⟨_, hok, List.length_map _, ?_, bitsValue_parities ns, ?_⟩
    · rw [bits_ofBools, List.map_map]
      exact List.map_congr_left fun n _ => toInt_parity n
    · rw [foldl_setBit (Nat.two_pow_pos 0), Nat.pow_zero, Nat.one_mul, Nat.zero_add]
      rfl
  · intro x
    have hlast : x.width - 1 < x.width := Nat.sub_one_lt_of_lt x.width_pos
    exact ⟨fun i hi => ⟨_, x.bit_of_lt hi, x.getElem?_bits hi⟩, x.getElem?_bits hlast⟩

/-- Four integers, two of them negative, of which the first and the third are odd. -/
theorem bit_lists_bijective_negative :
    [-3, 4, 7, -2] ≠ ([] : List ℤ) ∧ ∃ x, ofBits [-3, 4, 7, -2] = .ok x ∧ x.width = 4 ∧
      x.bits.map Bool.toInt = [1, 0, 1, 0] ∧ x.value = 5 ∧
      (∃ bit, x.bit 2 = .ok bit ∧ x.bits[2]? = some bit) ∧ x.bits[3]? = some x.msb := by
  obtain ⟨-, -, hmake, hread⟩ := bit_lists_bijective
  have hne : [-3, 4, 7, -2] ≠ ([] : List ℤ) := List.cons_ne_nil _ _
  obtain ⟨x, hok, hwidth, hbits, -, hvalue⟩ := hmake _ hne
  obtain ⟨hindex, hlast⟩ := hread x
  rw [hwidth] at hindex hlast
  exact ⟨hne, x, hok, hwidth, hbits.trans (by decide), hvalue.trans (by decide),
    hindex 2 (by decide), hlast⟩

end WordMachine.Word
