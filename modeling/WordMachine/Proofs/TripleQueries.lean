import Mathlib.Data.List.Sort
import WordMachine.Proofs.AcceptedRuns
import WordMachine.Proofs.BasinHistory

/-!
What a query to the triple store finds. Triples have a total order, so that the list of the matches
does not depend on the order in which the store gives them. A basin query over whole triples finds
those whose words have the basins asked for, whatever the dynamics keeps.
-/
namespace WordMachine

namespace Triple

section Order

def compareWord : Word → Word → Ordering :=
  compareLex (compareOn Word.width) (compareOn Word.value)

instance : Std.TransCmp compareWord :=
  inferInstanceAs (Std.TransCmp (compareLex (compareOn Word.width) (compareOn Word.value)))

instance : Std.TransCmp compareComponent where
  eq_swap := by
    intro a b
    cases a with
    | none => cases b <;> rfl
    | some x =>
      cases b with
      | none => rfl
      | some y =>
        have h : compareWord x y = (compareWord y x).swap := Std.OrientedCmp.eq_swap
        exact h
  isLE_trans := by
    intro a b c hab hbc
    cases a with
    | none => cases c <;> rfl
    | some x =>
      cases b with
      | none => cases hab
      | some y =>
        cases c with
        | none => cases hbc
        | some z =>
          have hxy : (compareWord x y).isLE = true := hab
          have hxz : (compareWord x z).isLE = true := Std.TransCmp.isLE_trans hxy hbc
          exact hxz

theorem eq_of_compareComponent {a b : Option Word} (h : compareComponent a b = .eq) : a = b := by
  cases a with
  | none =>
    cases b with
    | none => rfl
    | some y => cases h
  | some x =>
    cases b with
    | none => cases h
    | some y =>
      obtain ⟨hw, hv⟩ := Ordering.then_eq_eq.mp h
      exact congrArg some (Word.ext_value (Nat.compare_eq_eq.mp hw) (Nat.compare_eq_eq.mp hv))

instance (part : Triple → Option Word) :
    Std.TransCmp fun a b => compareComponent (part a) (part b) where
  eq_swap := Std.OrientedCmp.eq_swap
  isLE_trans := Std.TransCmp.isLE_trans

instance : Std.TransCmp compare :=
  inferInstanceAs (Std.TransCmp (compareLex (compareLex
    (fun a b : Triple => compareComponent a.subject b.subject)
    fun a b : Triple => compareComponent a.relation b.relation)
    fun a b : Triple => compareComponent a.object b.object))

theorem eq_of_compare {a b : Triple} (h : compare a b = .eq) : a = b := by
  obtain ⟨hsr, ho⟩ := Ordering.then_eq_eq.mp h
  obtain ⟨hs, hr⟩ := Ordering.then_eq_eq.mp hsr
  cases a
  cases b
  rw [Triple.mk.injEq]
  exact ⟨eq_of_compareComponent hs, eq_of_compareComponent hr, eq_of_compareComponent ho⟩

/-- Before the search for clashes the triples are in order. -/
theorem pairwise_ordered (ts : List Triple) :
    (ts.mergeSort fun a b => (compare a b).isLE).Pairwise
      fun a b => (compare a b).isLE = true := by
  apply List.pairwise_mergeSort
  · intro a b c hab hbc
    exact Std.TransCmp.isLE_trans hab hbc
  · intro a b
    rw [Bool.or_eq_true]
    cases h : compare a b with
    | gt => exact Or.inr (by rw [Std.OrientedCmp.gt_iff_lt.mp h]; rfl)
    | _ => exact Or.inl rfl

/-- The order in which the triples come does not count. -/
theorem sort_perm {ts ts' : List Triple} (h : ts.Perm ts') : sort ts' = sort ts := by
  have heq : (ts'.mergeSort fun a b => (compare a b).isLE) = ts.mergeSort fun a b =>
      (compare a b).isLE := by
    refine List.Perm.eq_of_pairwise ?_ (pairwise_ordered ts') (pairwise_ordered ts) ?_
    · intro a b _ _ hab hba
      exact eq_of_compare (Std.OrientedCmp.isLE_antisymm hab hba)
    · exact (List.mergeSort_perm ts' _).trans (h.symm.trans (List.mergeSort_perm ts _).symm)
  unfold sort
  rw [heq]

/-- Different triples that are put in order increase. -/
theorem sort_increasing {ts sorted : List Triple} (h : sort ts = .ok sorted) (hn : ts.Nodup) :
    sorted.Perm ts ∧ sorted.Pairwise fun a b => compare a b = .lt := by
  have hperm : sorted.Perm ts := (sort_settles ts).of_ok h
  refine ⟨hperm, ?_⟩
  have hord : sorted.Pairwise fun a b => (compare a b).isLE = true := by
    unfold sort at h
    dsimp only at h
    split at h
    · cases h
    · cases h
      exact pairwise_ordered ts
  refine (hord.and (hperm.nodup_iff.mpr hn)).imp ?_
  rintro a b ⟨hle, hne⟩
  cases hc : compare a b with
  | lt => rfl
  | eq => exact absurd (eq_of_compare hc) hne
  | gt =>
    rw [hc] at hle
    cases hle

end Order

def words (t : Triple) : List Word := t.components.filterMap id

def values (t : Triple) : List Nat := t.words.map Word.value

/-- Triples of one width come in the lexicographic order of their numbers. -/
theorem values_lt {w : Nat} {a b : Triple} (ha : a.OfWidth w) (hb : b.OfWidth w)
    (h : compare a b = .lt) : a.values < b.values := by
  obtain ⟨x, y, z, rfl, hx, hy, hz⟩ := ha.parts
  obtain ⟨x', y', z', rfl, hx', hy', hz'⟩ := hb.parts
  simp only [compare, compareComponent, hx, hy, hz, hx', hy', hz', Ordering.then_eq_lt,
    Ordering.then_eq_eq, Nat.compare_eq_lt, Nat.compare_eq_eq, Nat.lt_irrefl, false_or,
    true_and] at h
  simp only [values, words, components, List.filterMap_cons, id_eq, List.filterMap_nil,
    List.map_cons, List.map_nil, List.cons_lt_cons_iff]
  rcases h with (hs | ⟨hs, hr⟩) | ⟨⟨hs, hr⟩, ho⟩
  · exact Or.inl hs
  · exact Or.inr ⟨hs, Or.inl hr⟩
  · exact Or.inr ⟨hs, Or.inr ⟨hr, Or.inl ho⟩⟩

section Whole

theorem OfWidth.whole {w : Nat} {t : Triple} (h : t.OfWidth w) : t.Whole := by
  intro c hc
  obtain ⟨x, rfl, -⟩ := h c hc
  rfl

theorem Whole.components_eq {t : Triple} (h : t.Whole) : t.components = t.words.map some := by
  obtain ⟨s, r, o⟩ := t
  obtain ⟨x, rfl⟩ := Option.isSome_iff_exists.mp (h s (by simp [components]))
  obtain ⟨y, rfl⟩ := Option.isSome_iff_exists.mp (h r (by simp [components]))
  obtain ⟨z, rfl⟩ := Option.isSome_iff_exists.mp (h o (by simp [components]))
  rfl

/-- The words of whole triples leave no gap. -/
theorem flatMap_components {ts : List Triple} (h : ∀ t ∈ ts, t.Whole) :
    ts.flatMap components = (ts.flatMap words).map some := by
  rw [List.map_flatMap]
  exact List.flatMap_congr fun t ht => (h t ht).components_eq

theorem length_flatMap_words {ts : List Triple} (h : ∀ t ∈ ts, t.Whole) :
    (ts.flatMap words).length = 3 * ts.length := by
  induction ts with
  | nil => rfl
  | cons t ts ih =>
    have hlen := congrArg List.length (h t List.mem_cons_self).components_eq
    rw [List.length_map] at hlen
    change 3 = _ at hlen
    rw [List.flatMap_cons, List.length_append, ih fun t ht => h t (List.mem_cons_of_mem _ ht),
      ← hlen, List.length_cons]
    omega

end Whole

/-- A component that is asked for is there, and it is the same. -/
def Answers (same : Word → Word → Prop) (asked there : Option Word) : Prop :=
  ∀ v, asked = some v → ∃ u, there = some u ∧ same v u

def MatchesBy (same : Word → Word → Prop) (pattern t : Triple) : Prop :=
  Answers same pattern.subject t.subject ∧ Answers same pattern.relation t.relation ∧
    Answers same pattern.object t.object

theorem answers_none (same : Word → Word → Prop) (there : Option Word) : Answers same none there :=
  fun _ h => nomatch h

theorem answers_some {same : Word → Word → Prop} {v u : Word} :
    Answers same (some v) (some u) ↔ same v u := by
  constructor
  · intro h
    obtain ⟨x, hx, hs⟩ := h v rfl
    rw [Option.some.inj hx]
    exact hs
  · rintro hs _ ⟨⟩
    exact ⟨u, rfl, hs⟩

theorem agrees_iff {asked there : Option Word} :
    agrees asked there = true ↔ Answers Eq asked there := by
  cases asked with
  | none => exact iff_of_true rfl (answers_none _ _)
  | some v =>
    cases there with
    | none =>
      refine iff_of_false (by simp [agrees]) fun h => ?_
      obtain ⟨u, hu, -⟩ := h v rfl
      cases hu
    | some u =>
      rw [answers_some]
      simp [agrees]

theorem isMatch_iff {pattern t : Triple} : pattern.isMatch t = true ↔ pattern.MatchesBy Eq t := by
  simp only [isMatch, Bool.and_eq_true, agrees_iff, MatchesBy, and_assoc]

theorem matchesBy_iff_zip {same : Word → Word → Prop} {pattern t : Triple} :
    pattern.MatchesBy same t ↔ ∀ c ∈ pattern.components.zip t.components,
      Answers same c.1 c.2 := by
  simp [MatchesBy, components]

end Triple

namespace Dynamics

variable {r : Rule} {d d' d'' : Dynamics}

theorem Alike.trans (h : d.Alike r d') (h' : d'.Alike r d'') : d.Alike r d'' :=
  ⟨h'.rules.trans h.rules, h'.basinRule.trans h.basinRule, h.left, h'.right⟩

/-- Finding a basin changes only what is kept. -/
theorem Faithful.basinId_settles (h : d.Faithful r) (x : Word) :
    Settles (d.basinId x) (fun out => r.basin x = .ok out.1 ∧ d.Alike r out.2) fun _ => True := by
  rcases basinId_cases h x with ⟨e, -, he⟩ | ⟨b, cache, hb, hok, hf⟩
  · rw [he]
    trivial
  · rw [hok]
    exact ⟨hb, rfl, rfl, h, hf⟩

theorem Faithful.missingBasin_settles (h : d.Faithful r) :
    Settles d.missingBasin (fun out => d.Alike r out.2) fun _ => True := by
  apply Settles.bind_value
  intro y
  cases y with
  | none => exact h.alike_self
  | some y => exact (h.basinId_settles y).bind fun out hout => .pure hout.2

def SameBasin (d : Dynamics) (x y : Word) : Prop :=
  ∃ b dx dy, d.basinId x = .ok (b, dx) ∧ d.basinId y = .ok (b, dy)

theorem Faithful.sameBasin_iff (h : d.Faithful r) {x y : Word} :
    d.SameBasin x y ↔ ∃ b, r.basin x = .ok b ∧ r.basin y = .ok b := by
  constructor
  · rintro ⟨b, dx, dy, hx, hy⟩
    exact ⟨b, ((h.basinId_settles x).of_ok hx).1, ((h.basinId_settles y).of_ok hy).1⟩
  · rintro ⟨b, hx, hy⟩
    obtain ⟨dx, hdx⟩ := h.basinId_eq hx
    obtain ⟨dy, hdy⟩ := h.basinId_eq hy
    exact ⟨b, dx, dy, hdx, hdy⟩

/-- A dynamics that was made and has been used since. -/
def Reachable (d : Dynamics) : Prop :=
  ∃ rules name d₀ history, make rules name = .ok d₀ ∧ d = d₀.after history

theorem Reachable.faithful (h : d.Reachable) : d.Faithful d.rule := by
  obtain ⟨rules, name, d₀, history, hmake, rfl⟩ := h
  have hf := (make_faithful hmake).after history
  rw [hf.rule]
  exact hf

end Dynamics

namespace Triple

variable {r : Rule} {d : Dynamics}

/-- Over words that are all there, the answer is whether they have the basins asked for. -/
theorem inBasins_exact (h : d.Faithful r) (pairs : List (Option Word × Option Word)) :
    Settles (inBasins d pairs) (fun out => d.Alike r out.2 ∧ ((∀ c ∈ pairs, c.2.isSome) →
      (out.1 = true ↔ ∀ c ∈ pairs, Answers (fun b x => r.basin x = .ok b) c.1 c.2))) fun _ =>
        True := by
  induction pairs generalizing d with
  | nil => exact ⟨h.alike_self, by simp⟩
  | cons c pairs ih =>
    obtain ⟨asked, there⟩ := c
    cases asked with
    | none =>
      refine (ih h).imp fun out hout => ⟨hout.1, fun hs => ?_⟩
      rw [hout.2 fun c hc => hs c (List.mem_cons_of_mem _ hc), List.forall_mem_cons]
      exact (and_iff_right (answers_none _ _)).symm
    | some basin =>
      cases there with
      | none =>
        -- A missing word is none of those that the answer is about.
        have hno {P : Prop} (hs : ∀ c ∈ (some basin, none) :: pairs, c.2.isSome) : P := by
          cases hs (some basin, none) List.mem_cons_self
        refine h.missingBasin_settles.bind fun out hout => ?_
        dsimp only
        split
        · exact (ih hout.right).imp fun out' hout' => ⟨hout.trans hout'.1, hno⟩
        · exact .pure ⟨hout, hno⟩
      | some x =>
        refine (h.basinId_settles x).bind fun out hout => ?_
        obtain ⟨hbasin, hd⟩ := hout
        have hx : Answers (fun b x => r.basin x = .ok b) (some basin) (some x) ↔
            out.1 = basin := by
          rw [answers_some, hbasin, Except.ok.injEq]
        dsimp only
        split
        next heq =>
          refine (ih hd.right).imp fun out' hout' => ⟨hd.trans hout'.1, fun hs => ?_⟩
          rw [hout'.2 fun c hc => hs c (List.mem_cons_of_mem _ hc), List.forall_mem_cons]
          exact (and_iff_right (hx.mpr heq)).symm
        next hne =>
          refine .pure ⟨hd, fun _ => iff_of_false Bool.false_ne_true fun hall => ?_⟩
          exact hne (hx.mp (hall _ List.mem_cons_self))

/-- The triples that a basin query finds are the matching ones, in the order of the store. -/
theorem selectByBasin_exact (h : d.Faithful r) (pattern : Triple) {ts : List Triple}
    (hw : ∀ t ∈ ts, t.Whole) :
    Settles (selectByBasin d pattern ts) (fun out => d.Alike r out.2 ∧ out.1.Sublist ts ∧
      ∀ t, t ∈ out.1 ↔ t ∈ ts ∧ pattern.MatchesBy (fun b x => r.basin x = .ok b) t) fun _ =>
        True := by
  induction ts generalizing d with
  | nil => exact ⟨h.alike_self, .slnil, by simp⟩
  | cons t ts ih =>
    refine (inBasins_exact h _).bind fun out hout => ?_
    obtain ⟨hd, hhit⟩ := hout
    have hhit : out.1 = true ↔ pattern.MatchesBy (fun b x => r.basin x = .ok b) t := by
      rw [matchesBy_iff_zip]
      exact hhit fun c hc => hw t List.mem_cons_self _ (List.of_mem_zip hc).2
    refine (ih hd.right fun u hu => hw u (List.mem_cons_of_mem _ hu)).bind fun out' hout' =>
      .pure ?_
    obtain ⟨hd', hsub, hmem⟩ := hout'
    refine ⟨hd.trans hd', ?_, ?_⟩
    · dsimp only
      split
      · exact hsub.cons_cons t
      · exact hsub.cons t
    · intro u
      dsimp only
      split
      next htrue =>
        rw [List.mem_cons, List.mem_cons, hmem, or_and_right]
        exact or_congr_left (iff_self_and.mpr fun hu => hu ▸ hhit.mp htrue)
      next hfalse =>
        rw [List.mem_cons, hmem, or_and_right]
        refine (or_iff_right ?_).symm
        rintro ⟨rfl, hu⟩
        exact hfalse (hhit.mpr hu)

/-- A basin query has an answer if every triple has one by itself. -/
theorem selectByBasin_isOk_iff {d' : Dynamics} (h : d.Alike r d') (pattern : Triple)
    (ts : List Triple) :
    (∃ out, selectByBasin d' pattern ts = .ok out) ↔
      ∀ t ∈ ts, ∃ out, inBasins d (pattern.components.zip t.components) = .ok out := by
  induction ts generalizing d' with
  | nil => exact iff_of_true ⟨_, rfl⟩ (by simp)
  | cons t ts ih =>
    rw [List.forall_mem_cons]
    unfold selectByBasin
    rcases (inBasins_agree h (pattern.components.zip t.components)).eq_or_eq with
      ⟨err, he, he'⟩ | ⟨hit, d₁, d₁', hok, hok', -⟩
    · rw [he, he']
      refine iff_of_false ?_ ?_
      · rintro ⟨_, ⟨⟩⟩
      · rintro ⟨⟨_, ⟨⟩⟩, -⟩
    · have hd : d.Alike r d₁' := h.trans ((inBasins_exact h.right _).of_ok hok').1
      rw [hok', ← ih hd, ok_bind]
      refine Iff.trans ?_ (and_iff_right ⟨_, hok⟩).symm
      dsimp only
      cases selectByBasin d₁' pattern ts with
      | ok out => exact iff_of_true ⟨_, rfl⟩ ⟨_, rfl⟩
      | error err =>
        refine iff_of_false ?_ ?_
        · rintro ⟨_, ⟨⟩⟩
        · rintro ⟨_, ⟨⟩⟩

/-- A basin query that has an answer has the same for every order of the store, up to the order. -/
theorem selectByBasin_perm (h : d.Faithful r) {pattern : Triple} {ts ts' : List Triple}
    (hw : ∀ t ∈ ts, t.Whole) (hn : ts.Nodup) (hp : ts.Perm ts') {out : List Triple × Dynamics}
    (hok : selectByBasin d pattern ts = .ok out) :
    ∃ out', selectByBasin d pattern ts' = .ok out' ∧ out.1.Perm out'.1 := by
  have heach := (selectByBasin_isOk_iff h.alike_self pattern ts).mp ⟨out, hok⟩
  obtain ⟨out', hok'⟩ := (selectByBasin_isOk_iff h.alike_self pattern ts').mpr fun t ht =>
    heach t (hp.mem_iff.mpr ht)
  obtain ⟨-, hsub, hmem⟩ := (selectByBasin_exact h pattern hw).of_ok hok
  obtain ⟨-, hsub', hmem'⟩ :=
    (selectByBasin_exact h pattern fun t ht => hw t (hp.mem_iff.mpr ht)).of_ok hok'
  refine ⟨out', hok', ?_⟩
  rw [List.perm_ext_iff_of_nodup (hn.sublist hsub) ((hp.nodup_iff.mp hn).sublist hsub')]
  intro t
  rw [hmem, hmem', hp.mem_iff]

end Triple

namespace TripleStore

variable {s : TripleStore} {t u : Triple}

theorem mem_insert_iff : u ∈ (s.insert t).triples ↔ u ∈ s.triples ∨ u = t := by
  constructor
  · exact mem_insert
  · unfold insert
    split
    next ht =>
      rintro (hu | rfl)
      · exact hu
      · exact ht
    next => simp

/-- A triple that is there is not added again. -/
theorem nodup_insert (h : s.triples.Nodup) : (s.insert t).triples.Nodup := by
  unfold insert
  split
  next => exact h
  next ht =>
    refine List.nodup_append.mpr ⟨h, by simp, ?_⟩
    intro a ha b hb hab
    rw [List.mem_singleton.mp hb] at hab
    exact ht (hab ▸ ha)

end TripleStore
end WordMachine
