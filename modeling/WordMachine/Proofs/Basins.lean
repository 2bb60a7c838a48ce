import WordMachine.Dynamics
import WordMachine.Proofs.Settle

/-!
Rules that keep the width of every word. Their trajectories and basins exist and stay within the
width, and what is kept of a basin has the width of the word it is kept for.
-/
namespace WordMachine

namespace Word

/-- The least word is one of them and not above any; only a word of another width leaves them
without one. -/
theorem least_settles (x : Word) (ys : List Word) :
    Settles (least x ys)
      (fun z => (z = x ∨ z ∈ ys) ∧ ∀ y, y = x ∨ y ∈ ys → y.width = z.width ∧ z.value ≤ y.value)
      fun _ => ∃ y ∈ ys, y.width ≠ x.width := by
  induction ys generalizing x with
  | nil => exact ⟨Or.inl rfl, by simp⟩
  | cons y ys ih =>
    unfold least lt sameWidth
    by_cases hw : x.width = y.width
    · rw [if_pos hw]
      change Settles (least (if decide (y.value < x.value) = true then y else x) ys) _ _
      by_cases hv : y.value < x.value
      · rw [if_pos (decide_eq_true hv)]
        refine (ih y).mono ?_ ?_
        · rintro z ⟨hz, hmin⟩
          have hy := hmin y (Or.inl rfl)
          refine ⟨by simp only [List.mem_cons]; exact Or.inr hz, fun u hu => ?_⟩
          rcases hu with rfl | hu
          · exact ⟨hw.trans hy.1, by omega⟩
          · exact hmin u (by simpa using hu)
        · rintro _ ⟨u, hu, huw⟩
          exact ⟨u, List.mem_cons_of_mem _ hu, fun h => huw (h.trans hw)⟩
      · rw [if_neg (by simpa using hv)]
        refine (ih x).mono ?_ ?_
        · rintro z ⟨hz, hmin⟩
          have hx := hmin x (Or.inl rfl)
          refine ⟨hz.imp_right (List.mem_cons_of_mem y), fun u hu => ?_⟩
          rcases hu with rfl | hu
          · exact hx
          · rcases List.mem_cons.mp hu with rfl | hu
            · exact ⟨hw.symm.trans hx.1, by omega⟩
            · exact hmin u (Or.inr hu)
        · rintro _ ⟨u, hu, huw⟩
          exact ⟨u, List.mem_cons_of_mem _ hu, huw⟩
    · rw [if_neg hw]
      exact ⟨y, List.mem_cons_self, fun h => hw h.symm⟩

end Word

theorem RuleSet.mem_of_get {s : RuleSet} {name : String} {r : Rule} (h : s.get name = .ok r) :
    (name, r) ∈ s.entries := by
  unfold RuleSet.get at h
  split at h
  next r' hr =>
    cases h
    obtain ⟨before, after, hentries, -⟩ := List.lookup_eq_some_iff.mp hr
    simp [hentries]
  next => cases h

namespace Rule

/-- Every word has a result, of the same width. -/
def KeepsWidth (r : Rule) : Prop := ∀ x, ∃ y, r.apply x = .ok y ∧ y.width = x.width

theorem ofFunction_keepsWidth {f : Word → Word} {h : ∀ x, (f x).width = x.width}
    {missing : Except Error (Option Word)} {hm : ∀ f : Fault, missing ≠ .error (.fault f)} :
    (ofFunction f h missing hm).KeepsWidth := fun x => ⟨f x, rfl, h x⟩

theorem builtin_keepsWidth {name : String} {r : Rule} (h : RuleSet.builtin.get name = .ok r) :
    r.KeepsWidth := by
  have hall : ∀ e ∈ builtin, e.2.KeepsWidth := by
    simp only [builtin, List.forall_mem_cons, List.not_mem_nil, false_implies, implies_true,
      and_true]
    refine ⟨?_, ?_, ?_, ?_, ?_, ?_, ?_⟩ <;> exact ofFunction_keepsWidth
  exact hall (name, r) (RuleSet.mem_of_get h)

/-- Following a rule that keeps the width leads through words of one width only. -/
theorem follow_settles (r : Rule) {bound : Nat} (hr : r.reach ≤ bound) {x : Word}
    (hx : x.width ≤ bound) (seen : Std.HashMap Word Nat) (path : Array Word) :
    Settles (r.follow bound hr x hx seen path)
      (fun t => r.KeepsWidth → (∀ y ∈ path, y.width = x.width) → ∀ y ∈ t.words, y.width = x.width)
      fun e => e.isFault = false ∧ ¬ r.KeepsWidth := by
  fun_induction Rule.follow with
  | case1 x hx seen path i hs =>
    intro _ hp y hy
    rcases List.mem_append.mp hy with hy | hy
    · exact hp y (Array.mem_toList_iff.mp (List.mem_of_mem_take hy))
    · rcases List.mem_cons.mp hy with rfl | hy
      · rfl
      · exact hp y (Array.mem_toList_iff.mp (List.mem_of_mem_drop hy))
  | case2 x hx seen path hs e he =>
    refine ⟨(settles_of_ne_fault r.apply_ne_fault).of_error he, fun hk => ?_⟩
    obtain ⟨y, hy, -⟩ := hk x
    rw [he] at hy
    cases hy
  | case3 x hx seen path hs y hy hle ih =>
    refine ih.imp fun t ht hk hp => ?_
    have hw : y.width = x.width := by
      obtain ⟨z, hz, hzw⟩ := hk x
      rw [hy] at hz
      cases hz
      exact hzw
    rw [← hw]
    refine ht hk fun z hz => ?_
    rcases Array.mem_push.mp hz with hz | rfl
    · exact (hp z hz).trans hw.symm
    · exact hw.symm

theorem trace_settles (r : Rule) (start : Word) :
    Settles (r.trace start) (fun t => r.KeepsWidth → ∀ y ∈ t.words, y.width = start.width)
      fun e => e.isFault = false ∧ ¬ r.KeepsWidth :=
  (r.follow_settles _ _ ∅ #[]).imp fun _ ht hk => ht hk (by simp)

end Rule

theorem Trajectory.basin_settles (t : Trajectory) {w : Nat} :
    Settles t.basin (fun b => (∀ y ∈ t.words, y.width = w) → b.width = w)
      fun _ => ¬ ∀ y ∈ t.words, y.width = w := by
  have hc {y : Word} (hy : y = t.entry ∨ y ∈ t.rest) : y ∈ t.words :=
    List.mem_append_right _ (List.mem_cons.mpr hy)
  refine (Word.least_settles t.entry t.rest).mono (fun b hb h => h b (hc hb.1)) ?_
  rintro _ ⟨y, hy, hyw⟩ h
  exact hyw ((h y (hc (Or.inr hy))).trans (h t.entry (hc (Or.inl rfl))).symm)

namespace Dynamics

/-- All rules keep the width, and so do the basins found so far. -/
structure Steady (d : Dynamics) : Prop where
  rules : ∀ {name : String} {r : Rule}, d.rules.get name = .ok r → r.KeepsWidth
  rule : d.rule.KeepsWidth
  cache : ∀ {x b : Word}, d.cache[x]? = some b → b.width = x.width

theorem make_steady {name : String} {d : Dynamics} (h : make .builtin name = .ok d) :
    d.Steady := by
  unfold make at h
  cases hr : RuleSet.builtin.get name with
  | error e =>
    rw [hr] at h
    cases h
  | ok r =>
    rw [hr] at h
    cases h
    exact ⟨Rule.builtin_keepsWidth, Rule.builtin_keepsWidth hr, by simp⟩

/-- What is found after words have been kept was kept for them, or was found before. -/
theorem getElem?_foldl_insert {basin : Word} {words : List Word} {cache : Std.HashMap Word Word}
    {x b : Word} (h : (words.foldl (fun cache x => cache.insert x basin) cache)[x]? = some b) :
    x ∈ words ∧ b = basin ∨ cache[x]? = some b := by
  induction words generalizing cache with
  | nil => exact Or.inr h
  | cons y words ih =>
    rcases ih h with ⟨hx, hb⟩ | h
    · exact Or.inl ⟨List.mem_cons_of_mem _ hx, hb⟩
    · rw [Std.HashMap.getElem?_insert] at h
      split at h
      next heq =>
        cases h
        exact Or.inl ⟨List.mem_cons.mpr (Or.inl (eq_of_beq heq).symm), rfl⟩
      next => exact Or.inr h

theorem remember_steady {d : Dynamics} (h : d.Steady) {basin : Word} {words : List Word}
    (hw : ∀ x ∈ words, x.width = basin.width) : (d.remember basin words).Steady := by
  refine ⟨h.rules, h.rule, fun {x b} hb => ?_⟩
  rcases getElem?_foldl_insert hb with ⟨hx, rfl⟩ | hb
  · exact (hw x hx).symm
  · exact h.cache hb

theorem basinId_settles (d : Dynamics) (x : Word) :
    Settles (d.basinId x) (fun r => d.Steady → r.1.width = x.width ∧ r.2.Steady)
      fun e => e.isFault = false ∧ ¬ d.Steady := by
  unfold basinId
  split
  next b hb => exact fun h => ⟨h.cache hb, h⟩
  next =>
    refine Settles.bind (Q := fun t => d.Steady → ∀ y ∈ t.words, y.width = x.width) ?_ fun t ht =>
      ?_
    · exact (d.rule.trace_settles x).mono (fun _ ht h => ht h.rule) fun _ he =>
        ⟨he.1, fun h => he.2 h.rule⟩
    refine Settles.bind (Q := fun b => d.Steady → b.width = x.width) ?_ fun b hb =>
      .pure fun h => ?_
    · exact .liftWord (t.basin_settles.mono (fun _ hb h => hb (ht h)) fun _ he =>
        ⟨rfl, fun h => he (ht h)⟩)
    · exact ⟨hb h, remember_steady h fun y hy => (ht h y hy).trans (hb h).symm⟩

theorem missingBasin_settles (d : Dynamics) :
    Settles d.missingBasin (fun _ => True) (·.isFault = false) := by
  refine (settles_of_ne_fault d.rule.missing_ne_fault).bind fun y _ => ?_
  cases y with
  | none => exact .pure trivial
  | some y =>
    exact ((d.basinId_settles y).mono (fun _ h => h) fun _ h => h.1).bind fun _ _ => .pure trivial

/-- A rule is found and gives a word of the same width, or none is known by that name. -/
theorem applyRule_settles (d : Dynamics) (name : String) (x : Word) :
    Settles (d.applyRule name x) (fun y => d.Steady → y.width = x.width)
      fun e => e.isFault = false ∧ (d.Steady → ∃ known, e = .unknownRule name known) := by
  unfold applyRule
  cases hr : d.rules.get name with
  | error e =>
    unfold RuleSet.get at hr
    split at hr
    next => cases hr
    next =>
      cases hr
      exact ⟨rfl, fun _ => ⟨_, rfl⟩⟩
  | ok r =>
    change Settles (r.apply x) _ _
    cases hy : r.apply x with
    | ok y =>
      intro h
      obtain ⟨z, hz, hzw⟩ := h.rules hr x
      rw [hy] at hz
      cases hz
      exact hzw
    | error e =>
      refine ⟨(settles_of_ne_fault r.apply_ne_fault).of_error hy, fun h => ?_⟩
      obtain ⟨z, hz, -⟩ := h.rules hr x
      rw [hy] at hz
      cases hz

end Dynamics
end WordMachine
