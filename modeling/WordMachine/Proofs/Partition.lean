import WordMachine.Proofs.BasinHistory
import WordMachine.Proofs.RoundTrip
import WordMachine.Proofs.Trajectories

/-!
The division of the words of a width into basins. Words are added one by one in ascending order,
each to the group of its basin, which is begun with the first word that belongs to it. Whatever has
been asked of the dynamics before, the groups divide the words of the width, and a group holds just
the words that have its key as their basin.
-/
namespace WordMachine

/-- The basin as a function of the words of a width. It is the same all along an orbit, the basin
itself included. -/
theorem Rule.Computes.exists_basinOf {r : Rule} {w : ℕ} {f : Word → Word} (h : r.Computes w f) :
    ∃ basin : Word → Word, ∀ x, x.width = w → r.basin x = .ok (basin x) ∧ (basin x).width = w ∧
      basin (basin x) = basin x ∧ basin (f x) = basin x := by
  have hbasin (x : Word) : ∃ b, x.width = w → r.basin x = .ok b ∧ IsBasin f x b := by
    by_cases hx : x.width = w
    · obtain ⟨b, hb⟩ := h.exists_basin hx
      exact ⟨b, fun _ => hb⟩
    · exact ⟨x, fun hxw => absurd hxw hx⟩
  choose basin hbasin using hbasin
  refine ⟨basin, fun x hx => ?_⟩
  obtain ⟨hok, hb⟩ := hbasin x hx
  obtain ⟨⟨n, hn⟩, -⟩ := hb.1
  have hwidth : (basin x).width = w := hn ▸ (h.iterate hx n).2
  refine ⟨hok, hwidth, ?_, ?_⟩
  · have hself : IsBasin f (f^[n] x) (basin x) := (IsBasin.iterate_iff n).mpr hb
    rw [hn] at hself
    exact (hbasin _ hwidth).2.unique hself
  · have hnext : IsBasin f (f x) (basin x) := (IsBasin.iterate_iff 1).mpr hb
    exact (hbasin _ (h.width x hx)).2.unique hnext

namespace Dynamics
namespace Groups

def group (g : Groups) (b : Word) : List Word := (g.members.getD b #[]).toList

section Add
variable (g : Groups) (b x c : Word)

theorem group_add : (g.add b x).group c = if b = c then g.group c ++ [x] else g.group c := by
  unfold add group
  split
  next hb =>
    rw [Std.HashMap.getD_modify]
    by_cases hbc : b = c
    · subst hbc
      have hget : g.members[b]? = some (g.members.getD b #[]) :=
        Std.HashMap.getElem?_eq_some_getD hb
      simp [hget]
    · simp [hbc]
  next hb =>
    rw [Std.HashMap.getD_insert]
    by_cases hbc : b = c
    · subst hbc
      have hget : g.members.getD b #[] = #[] :=
        Std.HashMap.getD_eq_fallback_of_contains_eq_false (eq_false_of_ne_true hb)
      simp [hget]
    · simp [hbc]

theorem contains_add : (g.add b x).members.contains c = (b == c || g.members.contains c) := by
  unfold add
  split
  next hb =>
    by_cases hbc : b = c
    · simp [← hbc, hb]
    · simp [hbc]
  next => rw [Std.HashMap.contains_insert]

theorem order_add :
    (g.add b x).order.toList =
      if g.members.contains b then g.order.toList else g.order.toList ++ [b] := by
  unfold add
  split <;> simp

end Add

/-- The words seen are divided by their basins: each group lists its words in ascending order, and
the groups come in the order of their first words. -/
structure Divides (g : Groups) (basin : Word → Word) (seen : Word → Prop) : Prop where
  contains : ∀ b, g.members.contains b ↔ b ∈ g.order.toList
  order_nodup : g.order.toList.Nodup
  mem_order : ∀ b, b ∈ g.order.toList ↔ ∃ x, seen x ∧ basin x = b
  mem_group : ∀ b x, x ∈ g.group b ↔ seen x ∧ basin x = b
  group_ascending : ∀ b, (g.group b).Pairwise fun x y => x.value < y.value
  order_ascending : g.order.toList.Pairwise fun b c =>
    ∃ x y, (g.group b).head? = some x ∧ (g.group c).head? = some y ∧ x.value < y.value

theorem map_fst_toList (g : Groups) : g.toList.map Prod.fst = g.order.toList := by
  simp [toList, Function.comp_def]

variable {g : Groups} {basin : Word → Word} {seen : Word → Prop} {x : Word}

theorem divides_empty : Divides ⟨#[], ∅⟩ basin fun _ => False := by
  constructor <;> simp [group]

namespace Divides

/-- A group that is there begins with a word that has been seen. -/
theorem exists_head (h : g.Divides basin seen) {b : Word} (hb : b ∈ g.order.toList) :
    ∃ y, (g.group b).head? = some y ∧ seen y := by
  obtain ⟨y, hy⟩ := (h.mem_order b).mp hb
  have hmem := (h.mem_group b y).mpr hy
  obtain ⟨z, zs, hcons⟩ := List.exists_cons_of_ne_nil (List.ne_nil_of_mem hmem)
  have hz : z ∈ g.group b := by simp [hcons]
  exact ⟨z, by simp [hcons], ((h.mem_group b z).mp hz).1⟩

/-- A word added behind all those seen leaves the first words of the groups as they are. -/
theorem add (h : g.Divides basin seen) (hx : ∀ y, seen y → y.value < x.value) :
    (g.add (basin x) x).Divides basin fun y => seen y ∨ y = x := by
  have hhead {b y : Word} (hy : (g.group b).head? = some y) :
      ((g.add (basin x) x).group b).head? = some y := by
    rw [group_add]
    split <;> simp [hy]
  have hkept :
      g.order.toList.Pairwise fun b c => ∃ y z, ((g.add (basin x) x).group b).head? = some y ∧
      ((g.add (basin x) x).group c).head? = some z ∧ y.value < z.value := by
    refine h.order_ascending.imp ?_
    rintro b c ⟨y, z, hy, hz, hlt⟩
    exact ⟨y, z, hhead hy, hhead hz, hlt⟩
  constructor
  · intro b
    have hb := h.contains b
    have hbasin := h.contains (basin x)
    rw [contains_add, order_add]
    grind
  · rw [order_add]
    split
    next => exact h.order_nodup
    next hnew =>
      rw [h.contains] at hnew
      rw [← List.concat_eq_append]
      exact h.order_nodup.concat hnew
  · intro b
    have hb := h.mem_order b
    have hbasin := h.contains (basin x)
    have hold := h.mem_order (basin x)
    rw [order_add]
    grind
  · intro b y
    have hy := h.mem_group b y
    rw [group_add]
    grind
  · intro b
    rw [group_add]
    split
    next hb =>
      refine List.pairwise_append.mpr ⟨h.group_ascending b, List.pairwise_singleton _ x, ?_⟩
      intro y hy z hz
      rw [List.mem_singleton.mp hz]
      exact hx y ((h.mem_group b y).mp hy).1
    next => exact h.group_ascending b
  · rw [order_add]
    split
    next => exact hkept
    next hnew =>
      refine List.pairwise_append.mpr ⟨hkept, List.pairwise_singleton _ (basin x), ?_⟩
      intro b hb c hc
      rw [List.mem_singleton.mp hc]
      -- The group that is begun holds the added word alone.
      have hnone : g.group (basin x) = [] := by
        rw [h.contains, h.mem_order] at hnew
        refine List.eq_nil_iff_forall_not_mem.mpr fun y hy => hnew ?_
        exact ⟨y, (h.mem_group (basin x) y).mp hy⟩
      obtain ⟨y, hy, hseen⟩ := h.exists_head hb
      exact ⟨y, x, hhead hy, by simp [group_add, hnone], hx y hseen⟩

theorem congr {seen' : Word → Prop} (h : g.Divides basin seen) (hseen : ∀ y, seen y ↔ seen' y) :
    g.Divides basin seen' := funext (fun y => propext (hseen y)) ▸ h

theorem mem_toList (h : g.Divides basin seen) {b : Word} {xs : List Word}
    (hb : (b, xs) ∈ g.toList) : xs = g.group b ∧ ∃ x, seen x ∧ basin x = b := by
  obtain ⟨c, hc, heq⟩ := List.mem_map.mp hb
  cases heq
  exact ⟨rfl, (h.mem_order b).mp hc⟩

theorem mem_toList_iff (h : g.Divides basin seen) {b : Word} (hx : seen x) :
    (∃ xs, (b, xs) ∈ g.toList ∧ x ∈ xs) ↔ basin x = b := by
  constructor
  · rintro ⟨xs, hb, hmem⟩
    rw [(h.mem_toList hb).1] at hmem
    exact ((h.mem_group b x).mp hmem).2
  · intro hb
    have hgroup : (b, g.group b) ∈ g.toList :=
      List.mem_map.mpr ⟨b, (h.mem_order b).mpr ⟨x, hx, hb⟩, rfl⟩
    exact ⟨g.group b, hgroup, (h.mem_group b x).mpr ⟨hx, hb⟩⟩

/-- Groups of different basins share no word, and no group lists a word twice. -/
theorem count_eq_one (h : g.Divides basin seen) (hx : seen x) :
    (g.toList.flatMap Prod.snd).count x = 1 := by
  have hflat : g.toList.flatMap Prod.snd = g.order.toList.flatMap g.group := List.flatMap_map _ _ _
  have hnodup : (g.order.toList.flatMap g.group).Nodup := by
    refine List.nodup_flatMap.mpr ⟨fun b _ => ?_, ?_⟩
    · refine (h.group_ascending b).imp ?_
      rintro y z hlt rfl
      exact Nat.lt_irrefl _ hlt
    · refine h.order_nodup.imp ?_
      intro b c hne y hb hc
      exact hne (((h.mem_group b y).mp hb).2.symm.trans ((h.mem_group c y).mp hc).2)
  have hmem : x ∈ g.order.toList.flatMap g.group := by
    have hgroup := (h.mem_group (basin x) x).mpr ⟨hx, rfl⟩
    exact List.mem_flatMap.mpr ⟨basin x, (h.mem_order _).mpr ⟨x, hx, rfl⟩, hgroup⟩
  rw [hflat]
  exact List.count_eq_one_of_mem hnodup hmem

end Divides
end Groups

variable {r : Rule} {d d₀ : Dynamics} {w : ℕ} {f basin : Word → Word}

/-- One pass of the division: the word of a number goes to the group of its basin. -/
def place (width : ℤ) (s : Groups × Dynamics) (v : ℕ) : Except Error (Groups × Dynamics) := do
  let x ← Word.ofInt v width
  let (basin, d) ← s.2.basinId x
  return (s.1.add basin x, d)

theorem basins_eq_foldlM (d : Dynamics) (w : ℕ) :
    d.basins w = do
      let (g, d) ← (List.range (Word.card w)).foldlM (place w) (⟨#[], ∅⟩, d)
      return (g.toList, d) := by
  unfold basins
  rw [if_neg (by omega), Int.toNat_natCast]
  rfl

theorem Faithful.place_eq (hd : d.Faithful r) {x b : Word} (hb : r.basin x = .ok b) (g : Groups) :
    ∃ d', place x.width (g, d) x.value = .ok (g.add b x, d') ∧ d'.Faithful r := by
  rcases basinId_cases hd x with ⟨e, he, -⟩ | ⟨c, cache, hc, hok, hd'⟩
  · rw [hb] at he
    cases he
  · rw [hb] at hc
    cases hc
    refine ⟨_, ?_, hd'⟩
    unfold place
    rw [Word.ofInt_self, liftWord_ok, ok_bind, hok]
    rfl

/-- The loop adds the words in their order, so those below its bound are divided. -/
theorem Faithful.foldlM_place (hd : d.Faithful r) (hw : 0 < w)
    (hbasin : ∀ x, x.width = w → r.basin x = .ok (basin x)) {n : ℕ} (hn : n ≤ Word.card w) :
    ∃ g d', (List.range n).foldlM (place w) (⟨#[], ∅⟩, d) = .ok (g, d') ∧ d'.Faithful r ∧
      g.Divides basin fun x => x.width = w ∧ x.value < n := by
  induction n with
  | zero => exact ⟨_, d, rfl, hd, Groups.divides_empty.congr (by simp)⟩
  | succ n ih =>
    obtain ⟨g, d₁, hfold, hd₁, hg⟩ := ih (by omega)
    let x : Word := ⟨w, n, hw, hn⟩
    obtain ⟨d₂, hplace, hd₂⟩ := hd₁.place_eq (hbasin x rfl) g
    have hdivides := hg.add (x := x) fun y hy => hy.2
    refine ⟨g.add (basin x) x, d₂, ?_, hd₂, hdivides.congr fun y => ?_⟩
    · rw [List.range_succ, List.foldlM_append, hfold, ok_bind, List.foldlM_cons, hplace]
      rfl
    · constructor
      · rintro (⟨hyw, hlt⟩ | rfl)
        · exact ⟨hyw, by omega⟩
        · exact ⟨rfl, Nat.lt_succ_self n⟩
      · rintro ⟨hyw, hlt⟩
        rcases Nat.lt_succ_iff_lt_or_eq.mp hlt with hlt | heq
        · exact Or.inl ⟨hyw, hlt⟩
        · exact Or.inr (Word.ext_value hyw heq)

theorem Faithful.basins_divides (hd : d.Faithful r) (hw : 0 < w)
    (hbasin : ∀ x, x.width = w → r.basin x = .ok (basin x)) :
    ∃ (g : Groups) (d' : Dynamics), d.basins w = .ok (g.toList, d') ∧
      g.Divides basin fun x => x.width = w := by
  obtain ⟨g, d', hfold, -, hg⟩ := hd.foldlM_place hw hbasin (Nat.le_refl _)
  refine ⟨g, d', ?_, hg.congr fun x => ?_⟩
  · rw [basins_eq_foldlM, hfold]
    rfl
  · constructor
    · exact fun hx => hx.1
    · rintro rfl
      exact ⟨rfl, x.value_lt⟩

/-- Whatever has been asked before, the words of a width are divided into groups with different
keys: every word is in one group and once, and it is the group of its basin. A group holds its key,
is closed under the rule and lists its words in ascending order, and the groups come in the order
of their least words. -/
theorem basins_partition {rules : RuleSet} {name : String} (hmake : make rules name = .ok d₀)
    (hw : 0 < w) (hrule : d₀.rule.Computes w f) (history : List Call) :
    ∃ groups d', (d₀.after history).basins w = .ok (groups, d') ∧
      (groups.map Prod.fst).Nodup ∧ (∀ x, x.width = w → (groups.flatMap Prod.snd).count x = 1) ∧
      (∀ later x b, x.width = w →
        ((∃ xs, (b, xs) ∈ groups ∧ x ∈ xs) ↔ ∃ d'', (d₀.after later).basinId x = .ok (b, d''))) ∧
      (∀ b xs, (b, xs) ∈ groups →
        b ∈ xs ∧ (∀ x ∈ xs, x.width = w ∧ ∃ y ∈ xs, d₀.rule.apply x = .ok y) ∧
          xs.Pairwise fun x y => x.value < y.value) ∧
      groups.Pairwise fun g g' =>
        ∃ x y, g.2.head? = some x ∧ g'.2.head? = some y ∧ x.value < y.value := by
  obtain ⟨basin, hbasin⟩ := hrule.exists_basinOf
  have hfaithful (history : List Call) : (d₀.after history).Faithful d₀.rule :=
    (make_faithful hmake).after history
  obtain ⟨g, d', hbasins, hg⟩ := (hfaithful history).basins_divides hw fun x hx => (hbasin x hx).1
  refine ⟨g.toList, d', hbasins, ?_, fun x hx => hg.count_eq_one hx, ?_, ?_, ?_⟩
  · rw [Groups.map_fst_toList]
    exact hg.order_nodup
  · intro later x b hx
    obtain ⟨d'', hd''⟩ := (hfaithful later).basinId_eq (hbasin x hx).1
    rw [hg.mem_toList_iff hx, hd'']
    constructor
    · rintro rfl
      exact ⟨d'', rfl⟩
    · rintro ⟨_, heq⟩
      cases heq
      rfl
  · intro b xs hb
    obtain ⟨rfl, x, hx, rfl⟩ := hg.mem_toList hb
    obtain ⟨-, hwidth, hself, -⟩ := hbasin x hx
    refine ⟨(hg.mem_group _ _).mpr ⟨hwidth, hself⟩, fun y hy => ?_, hg.group_ascending _⟩
    obtain ⟨hyw, hyx⟩ := (hg.mem_group _ _).mp hy
    have hnext := (hbasin y hyw).2.2.2
    exact ⟨hyw, f y, (hg.mem_group _ _).mpr ⟨hrule.width y hyw, hnext.trans hyx⟩,
      hrule.apply y hyw⟩
  · exact List.pairwise_map.mpr hg.order_ascending

/-- The `3x + 1` rule at three bits, after a basin has been asked for and the words of two bits
have been divided: 5 goes to 0, which stays. -/
theorem basins_partition_collatz :
    let word (v : Fin 8) : Word := ⟨3, v, by decide, v.isLt⟩
    let d : Dynamics := ⟨.builtin, "collatz", .collatz, ∅⟩
    let history : List Call := [.basinId (word 7), .basins 2]
    make .builtin "collatz" = .ok d ∧ 0 < 3 ∧ Rule.collatz.Computes 3 Rule.collatz.next ∧
      ∃ groups d', (d.after history).basins 3 = .ok (groups, d') ∧ (groups.map Prod.fst).Nodup ∧
        (groups.flatMap Prod.snd).count (word 5) = 1 ∧
        ∃ xs, (word 0, xs) ∈ groups ∧ word 0 ∈ xs ∧ word 5 ∈ xs := by
  intro word d history
  have hmake : make .builtin "collatz" = .ok d := rfl
  have hget : RuleSet.builtin.get "collatz" = .ok .collatz := rfl
  have hrule : Rule.collatz.Computes 3 Rule.collatz.next := Rule.builtin_computes hget 3
  obtain ⟨groups, d', hbasins, hkeys, hcount, hmem, hgroup, -⟩ :=
    basins_partition hmake (by decide) hrule history
  have hbasin : Rule.collatz.basin (word 5) = .ok (word 0) := by
    have h₅ : Rule.collatz.apply (word 5) = .ok (word 0) := congrArg Except.ok (by decide)
    have h₀ : Rule.collatz.apply (word 0) = .ok (word 0) := congrArg Except.ok (by decide)
    have hloops : Rule.collatz.Loops 2 (word 5) ∅ #[] ⟨[word 5], word 0, []⟩ := by
      apply Rule.Loops.pass _ h₅ (.pass _ h₀ (.stop (i := 1) _))
      all_goals simp [word]
    exact Rule.basin_eq_of_trace (Rule.trace_eq_ok_iff.mpr ⟨2, hloops⟩) rfl
  obtain ⟨xs, hxs, h₅⟩ :=
    (hmem [] (word 5) (word 0) rfl).mpr ((make_faithful hmake).basinId_eq hbasin)
  refine ⟨hmake, by decide, hrule, groups, d', hbasins, hkeys, hcount (word 5) rfl, xs,
    hxs, ?_, h₅⟩
  exact (hgroup (word 0) xs hxs).1

end Dynamics
end WordMachine
