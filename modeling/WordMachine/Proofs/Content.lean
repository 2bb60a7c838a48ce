import WordMachine.ContentStore
import WordMachine.Proofs.Settle

/-!
The content store as its callers meet it. A digest has the width of the store, an entry that is
there stays as it is, and a request fails by a refusal of the store, never by a fault of the
machine.
-/
namespace WordMachine

theorem mix_settles (h c : Word) :
    Settles (mix h c) (·.width = h.width) fun _ => c.width ≠ h.width := by
  unfold mix
  by_cases hw : c.width = h.width
  · rw [Word.xor_of_width (hw.trans (Word.width_rotateLeft h 5).symm)]
    exact .pure (Word.width_rotateLeft h 5)
  · refine Settles.bind (Q := fun x => x.width = h.width) ?_ fun x hx => .pure hx
    unfold Word.xor Word.sameWidth
    rw [Word.width_rotateLeft, if_neg hw]
    exact hw

theorem foldlM_mix_settles (chars : List Word) (seed : Word) :
    Settles (chars.foldlM mix seed) (·.width = seed.width)
      fun _ => ∃ c ∈ chars, c.width ≠ seed.width := by
  induction chars generalizing seed with
  | nil => exact .pure rfl
  | cons c chars ih =>
    rw [List.foldlM_cons]
    refine Settles.bind (Q := fun h => h.width = seed.width) ?_ fun h hh => ?_
    · exact (mix_settles seed c).mono (fun _ h => h) fun _ h => ⟨c, List.mem_cons_self, h⟩
    · refine (ih h).mono (fun _ hd => hd.trans hh) ?_
      rintro _ ⟨x, hx, hxw⟩
      exact ⟨x, List.mem_cons_of_mem _ hx, hh ▸ hxw⟩

/-- A word whose value and width are in range. -/
theorem ofInt_eq_ok {value width : Nat} (hw : 0 < width) (hv : value < Word.card width) :
    Word.ofInt value width = .ok ⟨width, value, hw, hv⟩ := by
  obtain ⟨w, rfl⟩ := Nat.exists_eq_add_one.mpr hw
  change (if h : value < Word.card (w + 1) then _ else _) = _
  rw [dif_pos hv]

/-- The digest of words of one positive width exists and has that width. -/
theorem digest_settles (chars : List Word) (width : Int) :
    Settles (digest chars width) (fun key => (key.width : Int) = width)
      fun _ => ¬ (0 < width ∧ ∀ c ∈ chars, (c.width : Int) = width) := by
  unfold digest
  split
  next h => exact fun hp => absurd hp.1 (by omega)
  next h =>
    obtain ⟨w, rfl⟩ := Int.eq_ofNat_of_zero_le (Int.not_lt.mp h)
    rcases Nat.eq_zero_or_pos w with rfl | hw
    · exact fun hp => absurd hp.1 (by omega)
    · have hv : chars.length % Word.card w < Word.card w := Nat.mod_lt _ (Word.card_pos w)
      rw [Int.toNat_natCast, ofInt_eq_ok hw hv]
      refine (foldlM_mix_settles chars _).mono (fun key hk => congrArg Int.ofNat hk) ?_
      rintro _ ⟨c, hc, hcw⟩ ⟨-, hp⟩
      exact hcw (Int.ofNat.inj (hp c hc))

namespace ContentStore

/-- The store that an enfolding leaves: the sequence stands under its digest, where it stood before
or where nothing stood. -/
def Enfolded (s : ContentStore) (chars : List Word) (key : Word) (s' : ContentStore) : Prop :=
  digest chars s.width = .ok key ∧ (∀ c ∈ chars, (c.width : Int) = s.width) ∧
    (s' = s ∧ s.entries[key]? = some chars ∨
      s.entries[key]? = none ∧ s' = { s with entries := s.entries.insert key chars })

theorem enfold_settles (s : ContentStore) (chars : List Word) :
    Settles (s.enfold chars) (fun r => s.Enfolded chars r.1 r.2)
      fun e => e.isFault = false ∧ (0 < s.width → ∃ err, e = .store err) := by
  unfold enfold
  split
  next c hc => exact ⟨rfl, fun _ => ⟨_, rfl⟩⟩
  next hc =>
    have hw : ∀ c ∈ chars, (c.width : Int) = s.width := by simpa using hc
    refine Settles.bind (Q := fun key => digest chars s.width = .ok key) ?_ fun key hk => ?_
    · refine Settles.liftWord ((digest_settles chars s.width).eqn.mono (fun _ h => h.1) fun e he =>
        ?_)
      exact ⟨rfl, fun hp => absurd ⟨hp, hw⟩ he⟩
    · split
      next held hh =>
        split
        next heq => exact .pure ⟨hk, hw, Or.inl ⟨rfl, heq ▸ hh⟩⟩
        next hne => exact ⟨rfl, fun _ => ⟨_, rfl⟩⟩
      next hn => exact .pure ⟨hk, hw, Or.inr ⟨hn, rfl⟩⟩

section Enfolded
variable {s s' : ContentStore} {chars : List Word} {key : Word} (h : s.Enfolded chars key s')
include h

theorem Enfolded.enfold_eq : s.enfold chars = .ok (key, s') := by
  obtain ⟨hk, hw, hs⟩ := h
  have hc : chars.find? (fun c => (c.width : Int) != s.width) = none := by simpa using hw
  unfold enfold
  rw [hc]
  dsimp only
  rw [hk, liftWord_ok, ok_bind]
  rcases hs with ⟨rfl, hh⟩ | ⟨hn, rfl⟩
  · rw [hh]
    exact if_pos rfl
  · rw [hn]
    rfl

theorem Enfolded.key_width : (key.width : Int) = s.width :=
  (digest_settles chars s.width).of_ok h.1

theorem Enfolded.width_eq : s'.width = s.width := by
  rcases h.2.2 with ⟨rfl, -⟩ | ⟨-, rfl⟩ <;> rfl

theorem Enfolded.getElem?_key : s'.entries[key]? = some chars := by
  rcases h.2.2 with ⟨rfl, hk⟩ | ⟨-, rfl⟩
  · exact hk
  · exact Std.HashMap.getElem?_insert_self

/-- No entry is changed or lost. -/
theorem Enfolded.keeps {k : Word} {held : List Word} (hk : s.entries[k]? = some held) :
    s'.entries[k]? = some held := by
  rcases h.2.2 with ⟨rfl, -⟩ | ⟨hn, rfl⟩
  · exact hk
  · change (s.entries.insert key chars)[k]? = some held
    rw [Std.HashMap.getElem?_insert]
    split
    next heq =>
      obtain rfl := eq_of_beq heq
      rw [hn] at hk
      cases hk
    next => exact hk

end Enfolded
end ContentStore

namespace ContentService

/-- A stand-in keeps nothing; the store keeps the sequence under a digest of its width. -/
theorem enfold_settles (s : ContentService) (chars : List Word) :
    Settles (s.enfold chars)
      (fun r => (∀ st, s ≠ .store st) ∧ r.2 = s ∨
        ∃ st st', s = .store st ∧ r.2 = .store st' ∧ st.Enfolded chars r.1 st')
      fun e => e.isFault = false ∧ ∀ st, s = .store st → 0 < st.width → ∃ err, e = .store err := by
  cases s with
  | store st =>
    refine ((st.enfold_settles chars).mono (fun _ h => h) fun e he => ?_).bind fun r hr => ?_
    · refine ⟨he.1, ?_⟩
      rintro _ ⟨⟩
      exact he.2
    · exact .pure (Or.inr ⟨st, r.2, rfl, rfl, hr⟩)
  | fixed width onEnfold onUnfold =>
    refine ((settles_of_ne_fault onEnfold.ne_fault).mono (fun _ h => h) fun e he => ?_).bind
      fun key _ => .pure (Or.inl ⟨fun _ h => (nomatch h), rfl⟩)
    exact ⟨he, fun _ h => nomatch h⟩

theorem unfold_settles (s : ContentService) (key : Word) :
    Settles (s.unfold key) (fun _ => True)
      fun e => e.isFault = false ∧ ∀ st, s = .store st → ∃ err, e = .store err := by
  cases s with
  | store st =>
    change Settles (st.unfold key) _ _
    unfold ContentStore.unfold
    split
    · trivial
    · exact ⟨rfl, fun _ _ => ⟨_, rfl⟩⟩
  | fixed width onEnfold onUnfold =>
    exact (settles_of_ne_fault onUnfold.ne_fault).mono (fun _ h => h) fun e he =>
      ⟨he, fun _ h => nomatch h⟩

end ContentService
end WordMachine
