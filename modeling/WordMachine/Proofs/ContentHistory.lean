import WordMachine.Proofs.Sharing

/-!
The content store over any history of requests. Its entries stand under their digests and stay
there, a request is refused only for another sequence that stands in its place, and requests that
are all granted are granted in every order, with the same answers and the same entries in the end.
-/
namespace WordMachine

namespace ContentStore

/-- A request to keep a sequence: the answer, and the store after it, which a refusal leaves as it
was. -/
def request (s : ContentStore) (chars : List Word) : Except Error Word × ContentStore :=
  match s.enfold chars with
  | .ok (key, s') => (.ok key, s')
  | .error err => (.error err, s)

def answers (s : ContentStore) : List (List Word) → List (Except Error Word)
  | [] => []
  | chars :: rest => (s.request chars).1 :: (s.request chars).2.answers rest

def after (s : ContentStore) : List (List Word) → ContentStore
  | [] => s
  | chars :: rest => (s.request chars).2.after rest

def Grants (s : ContentStore) (history : List (List Word)) : Prop :=
  ∀ a ∈ s.answers history, ∃ key, a = .ok key

def keyOf (s : ContentStore) (chars : List Word) : Except Error Word :=
  liftM (digest chars s.width)

/-- Every sequence stands under its digest and has the width of the store. -/
def Consistent (s : ContentStore) : Prop :=
  ∀ {key : Word} {held : List Word}, s.entries[key]? = some held →
    digest held s.width = .ok key ∧ ∀ c ∈ held, (c.width : Int) = s.width

def Keeps (s : ContentStore) (chars : List Word) : Prop :=
  (∀ c ∈ chars, (c.width : Int) = s.width) ∧
    ∃ key, digest chars s.width = .ok key ∧ s.entries[key]? = some chars

variable {s s' t : ContentStore} {chars : List Word} {key : Word} {history : List (List Word)}

theorem Enfolded.request_eq (h : s.Enfolded chars key s') : s.request chars = (.ok key, s') := by
  unfold request
  rw [h.enfold_eq]

/-- A request is refused and changes nothing, or the sequence is enfolded. -/
theorem request_cases (s : ContentStore) (chars : List Word) :
    (∃ err, s.enfold chars = .error err ∧ s.request chars = (.error err, s)) ∨
      ∃ key s', s.request chars = (.ok key, s') ∧ s.Enfolded chars key s' := by
  cases h : s.enfold chars with
  | error err =>
    left
    refine ⟨err, rfl, ?_⟩
    unfold request
    rw [h]
  | ok r =>
    right
    have he := (s.enfold_settles chars).of_ok h
    exact ⟨r.1, r.2, he.request_eq, he⟩

/-- An entry was there before, or is the one that was made. -/
theorem Enfolded.entry_cases (h : s.Enfolded chars key s') {k : Word} {held : List Word}
    (hk : s'.entries[k]? = some held) : s.entries[k]? = some held ∨ k = key ∧ held = chars := by
  rcases h.2.2 with ⟨rfl, -⟩ | ⟨-, rfl⟩
  · exact Or.inl hk
  · change (s.entries.insert key chars)[k]? = some held at hk
    rw [Std.HashMap.getElem?_insert] at hk
    split at hk
    next heq => exact Or.inr ⟨(eq_of_beq heq).symm, (Option.some.inj hk).symm⟩
    next => exact Or.inl hk

theorem Enfolded.consistent (h : s.Enfolded chars key s') (hs : s.Consistent) : s'.Consistent := by
  intro k held hk
  rw [h.width_eq]
  rcases h.entry_cases hk with hk | ⟨rfl, rfl⟩
  · exact hs hk
  · exact ⟨h.1, h.2.1⟩

theorem Enfolded.kept (h : s.Enfolded chars key s') : s'.Keeps chars := by
  unfold Keeps
  rw [h.width_eq]
  exact ⟨h.2.1, key, h.1, h.getElem?_key⟩

theorem Keeps.mono (h : s.Keeps chars) (hst : s.Extends t) : t.Keeps chars := by
  obtain ⟨hw, key, hk, hheld⟩ := h
  unfold Keeps
  rw [hst.1]
  exact ⟨hw, key, hk, hst.2 hheld⟩

theorem empty_consistent (width : Int) : (empty width).Consistent := by
  intro key held hk
  change (∅ : Std.HashMap Word (List Word))[key]? = some held at hk
  rw [Std.HashMap.getElem?_empty] at hk
  cases hk

theorem request_extends (s : ContentStore) (chars : List Word) :
    s.Extends (s.request chars).2 := by
  rcases s.request_cases chars with ⟨err, -, hr⟩ | ⟨key, s', hr, he⟩
  · rw [hr]
    exact .refl s
  · rw [hr]
    exact he.extends

/-- No request changes or removes an entry. -/
theorem after_extends (s : ContentStore) (history : List (List Word)) :
    s.Extends (s.after history) := by
  induction history generalizing s with
  | nil => exact .refl s
  | cons chars rest ih => exact (s.request_extends chars).trans (ih _)

theorem Consistent.after (h : s.Consistent) (history : List (List Word)) :
    (s.after history).Consistent := by
  induction history generalizing s with
  | nil => exact h
  | cons chars rest ih =>
    change ((s.request chars).2.after rest).Consistent
    apply ih
    rcases s.request_cases chars with ⟨err, -, hr⟩ | ⟨key, s', hr, he⟩
    · rw [hr]
      exact h
    · rw [hr]
      exact he.consistent h

/-- Words of the right width have a digest, so that only the sequence that stands under it can
speak against a request. -/
theorem enfold_refused_iff (hs : 0 < s.width) (hw : ∀ c ∈ chars, (c.width : Int) = s.width) :
    (∃ err, s.enfold chars = .error err) ↔
      ∃ key held, digest chars s.width = .ok key ∧ s.entries[key]? = some held ∧ held ≠ chars := by
  constructor
  · rintro ⟨err, herr⟩
    cases hk : digest chars s.width with
    | error e => exact absurd ⟨hs, hw⟩ ((digest_settles chars s.width).of_error hk)
    | ok key =>
      have granted {s' : ContentStore} (he : s.Enfolded chars key s') : False := by
        rw [he.enfold_eq] at herr
        cases herr
      cases hheld : s.entries[key]? with
      | none => exact (granted ⟨hk, hw, Or.inr ⟨hheld, rfl⟩⟩).elim
      | some held =>
        by_cases heq : held = chars
        · exact (granted ⟨hk, hw, Or.inl ⟨rfl, heq ▸ hheld⟩⟩).elim
        · exact ⟨key, held, rfl, hheld, heq⟩
  · rintro ⟨key, held, hk, hheld, hne⟩
    cases h : s.enfold chars with
    | error err => exact ⟨err, rfl⟩
    | ok r =>
      have he := (s.enfold_settles chars).of_ok h
      obtain rfl : key = r.1 := Except.ok.inj (hk.symm.trans he.1)
      have := (he.keeps hheld).symm.trans he.getElem?_key
      exact absurd (Option.some.inj this) hne

/-- An entry after a history was there before, or was asked for. -/
theorem entry_after {held : List Word} (h : (s.after history).entries[key]? = some held) :
    s.entries[key]? = some held ∨ held ∈ history ∧ digest held s.width = .ok key := by
  induction history generalizing s with
  | nil => exact Or.inl h
  | cons chars rest ih =>
    have hwidth := (s.request_extends chars).1
    rcases ih h with hk | ⟨hmem, hd⟩
    · rcases s.request_cases chars with ⟨err, -, hr⟩ | ⟨key', s', hr, he⟩
      · rw [hr] at hk
        exact Or.inl hk
      · rw [hr] at hk
        rcases he.entry_cases hk with hk | ⟨rfl, rfl⟩
        · exact Or.inl hk
        · exact Or.inr ⟨List.mem_cons_self, he.1⟩
    · rw [hwidth] at hd
      exact Or.inr ⟨List.mem_cons_of_mem _ hmem, hd⟩

/-- What was granted is kept. -/
theorem Grants.keeps (h : s.Grants history) (hmem : chars ∈ history) :
    (s.after history).Keeps chars := by
  induction history generalizing s with
  | nil => cases hmem
  | cons first rest ih =>
    obtain ⟨key, hkey⟩ := h _ List.mem_cons_self
    have hrest : (s.request first).2.Grants rest := fun a ha => h a (List.mem_cons_of_mem _ ha)
    rcases List.mem_cons.mp hmem with rfl | hmem
    · rcases s.request_cases chars with ⟨err, -, hr⟩ | ⟨key', s', hr, he⟩
      · rw [hr] at hkey
        cases hkey
      · have hkept : (s.request chars).2.Keeps chars := by
          rw [hr]
          exact he.kept
        exact hkept.mono (after_extends _ rest)
    · exact ih hrest hmem

/-- A store that keeps all the sequences, and what the first one holds, is proof that every request
is granted, whatever the order: on the way nothing else comes to stand under a digest. -/
theorem grants_of_kept (hst : s.Extends t) (h : ∀ chars ∈ history, t.Keeps chars) :
    s.Grants history ∧ s.answers history = history.map s.keyOf ∧ (s.after history).Extends t := by
  induction history generalizing s with
  | nil => exact ⟨by simp [Grants, answers], rfl, hst⟩
  | cons chars rest ih =>
    obtain ⟨hw, key, hk, hkept⟩ := h chars List.mem_cons_self
    rw [hst.1] at hw hk
    obtain ⟨s', he⟩ : ∃ s', s.Enfolded chars key s' := by
      cases hheld : s.entries[key]? with
      | none => exact ⟨_, hk, hw, Or.inr ⟨hheld, rfl⟩⟩
      | some held =>
        obtain rfl : held = chars := Option.some.inj ((hst.2 hheld).symm.trans hkept)
        exact ⟨s, hk, hw, Or.inl ⟨rfl, hheld⟩⟩
    have hst' : s'.Extends t := by
      refine ⟨hst.1.trans he.width_eq.symm, fun hk => ?_⟩
      rcases he.entry_cases hk with hk | ⟨rfl, rfl⟩
      · exact hst.2 hk
      · exact hkept
    obtain ⟨hgrants, hanswers, hafter⟩ := ih hst' fun c hc => h c (List.mem_cons_of_mem _ hc)
    have hsame : s'.keyOf = s.keyOf := by
      funext c
      unfold keyOf
      rw [he.width_eq]
    have hkey : s.keyOf chars = .ok key := by
      unfold keyOf
      rw [hk]
      rfl
    unfold Grants answers after
    rw [he.request_eq]
    refine ⟨?_, ?_, hafter⟩
    · intro a ha
      rcases List.mem_cons.mp ha with rfl | ha
      · exact ⟨key, rfl⟩
      · exact hgrants a ha
    · rw [List.map_cons, hkey, hanswers, hsame]

/-- Requests that are all granted are granted in any other order and number, and leave the same
entries. -/
theorem Grants.reorder {calls calls' : List (List Word)} (h : s.Grants calls)
    (hmem : ∀ chars, chars ∈ calls' ↔ chars ∈ calls) :
    s.Grants calls' ∧ s.answers calls' = calls'.map s.keyOf ∧
      (s.after calls').width = (s.after calls).width ∧
      (s.after calls').entries.Equiv (s.after calls).entries := by
  have hext := s.after_extends calls
  have hext' := s.after_extends calls'
  obtain ⟨hgrants, hanswers, hle⟩ :=
    grants_of_kept hext fun chars hc => h.keeps ((hmem chars).mp hc)
  refine ⟨hgrants, hanswers, hext'.1.trans hext.1.symm, .of_forall_getElem?_eq fun key => ?_⟩
  -- Each store holds what the other does: one direction is `hle`, the other goes by where an entry
  -- is from.
  have hge {held : List Word} (hk : (s.after calls).entries[key]? = some held) :
      (s.after calls').entries[key]? = some held := by
    rcases entry_after hk with hk | ⟨hheld, hd⟩
    · exact hext'.2 hk
    · obtain ⟨-, key', hk', hkept⟩ := hgrants.keeps ((hmem held).mpr hheld)
      rw [hext'.1, hd] at hk'
      obtain rfl := Except.ok.inj hk'
      exact hkept
  cases hk : (s.after calls).entries[key]? with
  | some held => exact hge hk
  | none =>
    cases hk' : (s.after calls').entries[key]? with
    | none => rfl
    | some held =>
      rw [hle.2 hk'] at hk
      cases hk

/-- The store of a width after any history of requests to an empty one. Its entries are sequences
of that width under their digests. A refused request changes nothing, and one with words of the
width is refused only where another sequence stands under its digest. An entry stays. From any
store, requests that are all granted are granted in every order and with any repetitions: the
answers are the digests, and the entries in the end are the same. -/
theorem history_consistent {w : Nat} (hw : 1 ≤ w) (history : List (List Word)) :
    let store := (empty w).after history
    (∀ (key : Word) held, store.entries[key]? = some held →
      digest held w = .ok key ∧ ∀ c ∈ held, c.width = w) ∧
    (∀ chars err, store.enfold chars = .error err → store.request chars = (.error err, store)) ∧
    (∀ chars, (∀ c ∈ chars, c.width = w) → ((∃ err, store.enfold chars = .error err) ↔
      ∃ key held, digest chars w = .ok key ∧ store.entries[key]? = some held ∧ held ≠ chars)) ∧
    (∀ more (key : Word) held, store.entries[key]? = some held →
      (store.after more).entries[key]? = some held) ∧
    ∀ (s : ContentStore) (calls calls' : List (List Word)),
      (∀ chars, chars ∈ calls' ↔ chars ∈ calls) →
      s.Grants calls → s.Grants calls' ∧ s.answers calls = calls.map s.keyOf ∧
        s.answers calls' = calls'.map s.keyOf ∧
        (s.after calls').entries.Equiv (s.after calls).entries := by
  intro store
  have hwidth : store.width = w := ((empty w).after_extends history).1
  have hcons : store.Consistent := Consistent.after (empty_consistent w) history
  refine ⟨fun key held hk => ?_, fun chars err herr => ?_, fun chars hc => ?_,
    fun more key held hk => ?_,
    fun s calls calls' hmem h => ?_⟩
  · obtain ⟨hd, hc⟩ := hcons hk
    rw [hwidth] at hd hc
    exact ⟨hd, fun c hm => Int.ofNat.inj (hc c hm)⟩
  · unfold request
    rw [herr]
  · rw [← hwidth]
    exact enfold_refused_iff (by omega) fun c hm => by rw [hwidth, hc c hm]
  · exact (store.after_extends more).2 hk
  · obtain ⟨hgrants, hanswers, -, hequiv⟩ := h.reorder hmem
    exact ⟨hgrants, (h.reorder fun _ => Iff.rfl).2.1, hanswers, hequiv⟩

/-- Of one bit each, the empty sequence and a zero have the same digest, and a one has another. -/
theorem history_consistent_one_bit :
    let zero : Word := ⟨1, 0, by decide, by decide⟩
    let one : Word := ⟨1, 1, by decide, by decide⟩
    let store := (empty 1).after [[]]
    1 ≤ 1 ∧ (∃ err, store.enfold [zero] = .error err ∧
      store.request [zero] = (.error err, store)) ∧
      (empty 1).Grants [[one], [], [one]] ∧
      ((empty 1).after [[one], [], [one]]).entries.Equiv
        ((empty 1).after [[], [one]]).entries := by
  intro zero one store
  obtain ⟨-, hrefused, hiff, -, horder⟩ := history_consistent (Nat.le_refl 1) [[]]
  have hdigest {chars : List Word} {d : Word} (h : (digest chars 1).toOption = some d) :
      digest chars 1 = .ok d := by
    cases hd : digest chars 1 with
    | error err =>
      rw [hd] at h
      cases h
    | ok w =>
      rw [hd] at h
      exact congrArg Except.ok (Option.some.inj h)
  -- The store is a hash map, which does not evaluate: the requests are followed by the laws of
  -- lookup.
  have hempty :
      Enfolded (empty 1) [] zero ⟨1, (∅ : Std.HashMap Word (List Word)).insert zero []⟩ :=
    ⟨hdigest (by decide +kernel), by simp, Or.inr ⟨Std.HashMap.getElem?_empty, rfl⟩⟩
  have hone : Enfolded ⟨1, (∅ : Std.HashMap Word (List Word)).insert zero []⟩ [one] one
      ⟨1, ((∅ : Std.HashMap Word (List Word)).insert zero []).insert one [one]⟩ := by
    refine ⟨hdigest (by decide +kernel), by simp [one], Or.inr ⟨?_, rfl⟩⟩
    change ((∅ : Std.HashMap Word (List Word)).insert zero [])[one]? = none
    rw [Std.HashMap.getElem?_insert, Std.HashMap.getElem?_empty]
    rfl
  have hheld : store.entries[zero]? = some [] := by
    change ((empty 1).request []).2.entries[zero]? = some []
    rw [hempty.request_eq]
    exact hempty.getElem?_key
  obtain ⟨err, herr⟩ := (hiff [zero] (by simp [zero])).mpr
    ⟨zero, [], hdigest (by decide +kernel), hheld, by simp⟩
  have hgrants : (empty 1).Grants [[], [one]] := by
    unfold Grants answers answers
    rw [hempty.request_eq, hone.request_eq]
    simp [answers]
  obtain ⟨hgrants', -, -, hequiv⟩ := horder (empty 1) [[], [one]] [[one], [], [one]]
    (fun chars => by simp; exact Or.inr) hgrants
  exact ⟨Nat.le_refl 1, ⟨err, herr, hrefused _ _ herr⟩, hgrants', hequiv⟩

end ContentStore
end WordMachine
