import WordMachine.Proofs.Basins
import WordMachine.TripleStore

/-!
Triples of one width. They can be put in order, and a basin query over them has an answer. A
request to the triple store never fails by a fault of the machine.
-/
namespace WordMachine

namespace Triple

/-- No word is missing, and all have the width. -/
def OfWidth (w : Nat) (t : Triple) : Prop :=
  ∀ c ∈ t.components, ∃ x : Word, c = some x ∧ x.width = w

theorem OfWidth.parts {w : Nat} {t : Triple} (h : t.OfWidth w) :
    ∃ x y z : Word, t = ⟨some x, some y, some z⟩ ∧ x.width = w ∧ y.width = w ∧ z.width = w := by
  obtain ⟨s, r, o⟩ := t
  obtain ⟨x, rfl, hx⟩ := h s (by simp [components])
  obtain ⟨y, rfl, hy⟩ := h r (by simp [components])
  obtain ⟨z, rfl, hz⟩ := h o (by simp [components])
  exact ⟨x, y, z, rfl, hx, hy, hz⟩

theorem clash_eq_none {w : Nat} {a b : Triple} (ha : a.OfWidth w) (hb : b.OfWidth w) :
    clash a b = none := by
  obtain ⟨x, y, z, rfl, hx, hy, hz⟩ := ha.parts
  obtain ⟨x', y', z', rfl, hx', hy', hz'⟩ := hb.parts
  simp [clash, clashComponent, hx, hy, hz, hx', hy', hz']

theorem firstClash_eq_none {w : Nat} {ts : List Triple} (h : ∀ t ∈ ts, t.OfWidth w) :
    firstClash ts = none := by
  fun_induction firstClash ts with
  | case1 a b rest ih =>
    rw [clash_eq_none (h a (by simp)) (h b (by simp))]
    exact ih fun t ht => h t (List.mem_cons_of_mem _ ht)
  | case2 => rfl

theorem clashComponent_ne_fault {a b : Option Word} {e : Error} (h : clashComponent a b = some e) :
    e.isFault = false := by
  unfold clashComponent at h
  split at h
  · split at h
    · cases h
    · cases h
      rfl
  · cases h
  · cases h
    rfl

theorem clash_ne_fault {a b : Triple} {e : Error} (h : clash a b = some e) :
    e.isFault = false := by
  unfold clash at h
  split at h
  · exact clashComponent_ne_fault h
  · split at h <;> exact clashComponent_ne_fault h

theorem firstClash_ne_fault {ts : List Triple} {e : Error} (h : firstClash ts = some e) :
    e.isFault = false := by
  fun_induction firstClash ts with
  | case1 a b rest ih =>
    rcases Option.or_eq_some_iff.mp h with h | ⟨-, h⟩
    · exact clash_ne_fault h
    · exact ih h
  | case2 => cases h

theorem sort_settles (ts : List Triple) :
    Settles (sort ts) (·.Perm ts) fun e => e.isFault = false ∧ ∀ w, ¬ ∀ t ∈ ts, t.OfWidth w := by
  have hp : (ts.mergeSort fun a b => (compare a b).isLE).Perm ts := List.mergeSort_perm ts _
  unfold sort
  dsimp only
  split
  next e he =>
    refine ⟨firstClash_ne_fault he, fun w h => ?_⟩
    rw [firstClash_eq_none fun t ht => h t (hp.mem_iff.mp ht)] at he
    cases he
  next => exact hp

/-- Where no stored word is missing, a steady dynamics decides whether basins agree. -/
theorem inBasins_settles (d : Dynamics) (pairs : List (Option Word × Option Word)) :
    Settles (inBasins d pairs) (fun r => (d.Steady ∧ ∀ p ∈ pairs, p.2.isSome) → r.2.Steady)
      fun e => e.isFault = false ∧ ¬ (d.Steady ∧ ∀ p ∈ pairs, p.2.isSome) := by
  induction pairs generalizing d with
  | nil => exact fun h => h.1
  | cons p pairs ih =>
    have tail {d' : Dynamics} (hd : (d.Steady ∧ ∀ q ∈ p :: pairs, q.2.isSome) → d'.Steady)
        (h : d.Steady ∧ ∀ q ∈ p :: pairs, q.2.isSome) : d'.Steady ∧ ∀ q ∈ pairs, q.2.isSome :=
      ⟨hd h, fun q hq => h.2 q (List.mem_cons_of_mem _ hq)⟩
    obtain ⟨asked, there⟩ := p
    match asked, there with
    | none, there =>
      exact (ih d).mono (fun r hr h => hr (tail And.left h)) fun e he =>
        ⟨he.1, fun h => he.2 (tail And.left h)⟩
    | some basin, none =>
      have hno : ¬ (d.Steady ∧ ∀ q ∈ (some basin, none) :: pairs, q.2.isSome) := by simp
      refine Settles.bind (Q := fun _ => True) ?_ fun r _ => ?_
      · exact d.missingBasin_settles.mono (fun _ h => h) fun e he => ⟨he, hno⟩
      · obtain ⟨found, d'⟩ := r
        change
          Settles (if found = some basin then inBasins d' pairs else Pure.pure (false, d')) _ _
        split
        · exact (ih d').mono (fun r _ h => absurd h hno) fun e he => ⟨he.1, hno⟩
        · exact .pure fun h => absurd h hno
    | some basin, some x =>
      refine (d.basinId_settles x).mono (fun _ h => h)
        (fun e he => ⟨he.1, fun h => he.2 h.1⟩) |>.bind
        fun r hr => ?_
      obtain ⟨found, d'⟩ := r
      have hd (h : d.Steady ∧ ∀ q ∈ (some basin, some x) :: pairs, q.2.isSome) : d'.Steady :=
        (hr h.1).2
      change Settles (if found = basin then inBasins d' pairs else Pure.pure (false, d')) _ _
      split
      · exact (ih d').mono (fun r hr h => hr (tail hd h)) fun e he =>
          ⟨he.1, fun h => he.2 (tail hd h)⟩
      · exact .pure hd

theorem selectByBasin_settles (d : Dynamics) (pattern : Triple) (ts : List Triple) :
    Settles (selectByBasin d pattern ts)
      (fun r => (∀ t ∈ r.1, t ∈ ts) ∧
        ((d.Steady ∧ ∀ t ∈ ts, ∃ w, t.OfWidth w) → r.2.Steady))
      fun e => e.isFault = false ∧ ¬ (d.Steady ∧ ∀ t ∈ ts, ∃ w, t.OfWidth w) := by
  induction ts generalizing d with
  | nil => exact ⟨fun t ht => ht, fun h => h.1⟩
  | cons t ts ih =>
    have whole (h : d.Steady ∧ ∀ u ∈ t :: ts, ∃ w, u.OfWidth w) :
        d.Steady ∧ ∀ p ∈ pattern.components.zip t.components, p.2.isSome := by
      refine ⟨h.1, fun p hp => ?_⟩
      obtain ⟨w, hw⟩ := h.2 t List.mem_cons_self
      obtain ⟨x, hx, -⟩ := hw p.2 (List.of_mem_zip hp).2
      rw [hx]
      rfl
    refine (inBasins_settles d _).mono (fun _ h => h)
      (fun e he => ⟨he.1, fun h => he.2 (whole h)⟩) |>.bind
      fun r hr => ?_
    obtain ⟨hit, d₁⟩ := r
    have rest (h : d.Steady ∧ ∀ u ∈ t :: ts, ∃ w, u.OfWidth w) :
        d₁.Steady ∧ ∀ u ∈ ts, ∃ w, u.OfWidth w :=
      ⟨hr (whole h), fun u hu => h.2 u (List.mem_cons_of_mem _ hu)⟩
    refine (ih d₁).mono (fun _ h => h) (fun e he => ⟨he.1, fun h => he.2 (rest h)⟩) |>.bind
      fun r hs => ?_
    obtain ⟨found, d₂⟩ := r
    refine .pure ⟨fun u hu => ?_, fun h => hs.2 (rest h)⟩
    cases hit with
    | false => exact List.mem_cons_of_mem _ (hs.1 u hu)
    | true =>
      rcases List.mem_cons.mp hu with rfl | hu
      · exact List.mem_cons_self
      · exact List.mem_cons_of_mem _ (hs.1 u hu)

end Triple

theorem TripleStore.mem_insert {s : TripleStore} {t x : Triple} (h : x ∈ (s.insert t).triples) :
    x ∈ s.triples ∨ x = t := by
  unfold insert at h
  split at h
  · exact Or.inl h
  · rcases List.mem_append.mp h with h | h
    · exact Or.inl h
    · exact Or.inr (List.mem_singleton.mp h)

namespace TripleService

variable (s : TripleService)

theorem insert_settles (t : Triple) :
    Settles (s.insert t) (fun s' => ∀ st, s = .store st → s' = .store (st.insert t))
      fun e => e.isFault = false ∧ ∀ st, s ≠ .store st := by
  cases s with
  | store st =>
    rintro _ ⟨⟩
    rfl
  | fixed onInsert onQuery =>
    cases onInsert with
    | none => exact fun _ h => nomatch h
    | some e => exact ⟨rfl, fun _ h => nomatch h⟩

theorem queryExact_settles (pattern : Triple) :
    Settles (s.queryExact pattern) (fun found => ∀ st, s = .store st →
      found = st.queryExact pattern)
      fun e => e.isFault = false ∧ ∀ st, s ≠ .store st := by
  cases s with
  | store st =>
    rintro _ ⟨⟩
    rfl
  | fixed onInsert onQuery =>
    exact (settles_of_ne_fault onQuery.ne_fault).mono (fun _ _ _ h => nomatch h)
      fun _ he => ⟨he, fun _ h => nomatch h⟩

theorem queryWith_settles (d : Dynamics) (pattern : Triple) :
    Settles (s.queryWith d pattern)
      (fun r => ∀ st, s = .store st → (∀ t ∈ r.1, t ∈ st.triples) ∧
        ((d.Steady ∧ ∀ t ∈ st.triples, ∃ w, t.OfWidth w) → r.2.Steady))
      fun e => e.isFault = false ∧
        ∀ st, s = .store st → ¬ (d.Steady ∧ ∀ t ∈ st.triples, ∃ w, t.OfWidth w) := by
  cases s with
  | store st =>
    refine (Triple.selectByBasin_settles d pattern st.triples).mono ?_ ?_
    · rintro r hr _ ⟨⟩
      exact hr
    · rintro e he
      refine ⟨he.1, ?_⟩
      rintro _ ⟨⟩
      exact he.2
  | fixed onInsert onQuery =>
    refine Settles.bind (Q := fun _ => True) ?_ fun _ _ => .pure fun _ h => nomatch h
    exact (settles_of_ne_fault onQuery.ne_fault).mono (fun _ h => h) fun _ he =>
      ⟨he, fun _ h => nomatch h⟩

end TripleService
end WordMachine
