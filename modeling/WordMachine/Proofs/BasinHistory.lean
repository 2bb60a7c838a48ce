import WordMachine.Proofs.BasinCache

/-!
A dynamics in use. Whatever has been asked of it before, directly or by running programs, an answer
is the one that a dynamics without kept basins would give. So the basin found for a word depends on
the rule alone, and it tells apart just those words whose orbits never meet.
-/
namespace WordMachine

inductive Call
  | basinId (x : Word)
  | basins (width : Int)
  | applyRule (name : String) (x : Word)
  | register (name : String) (r : Rule)
  /-- A basin query to a store. -/
  | query (store : TripleService) (pattern : Triple)
  /-- A run of a program that is given the dynamics. -/
  | run (p : Program) (m : Machine) (content : Option ContentService)
    (triples : Option TripleService)
    (limit : Int)

/-- All that is seen of a run: the machines on the way, the last one, the stores and how it
ended. -/
structure RunView where
  machine : Machine
  steps : ℕ
  content : Option ContentService
  triples : Option TripleService
  seen : List (Machine × Instruction)
  ending : Ending

def Engine.view (e : Engine) (out : List (Machine × Instruction) × Ending) : RunView :=
  ⟨e.machine, e.steps, e.services.content, e.services.triples, out.1, out.2⟩

inductive Reply
  | word (x : Except Error Word)
  | groups (gs : Except Error (List (Word × List Word)))
  | registered (u : Except Error Unit)
  | triples (ts : Except Error (List Triple))
  | view (v : Except Error RunView)

namespace Dynamics

/-- The value of a computation and the state after it, which a failure leaves as it was. -/
def keep {α : Type} (d : Dynamics) : Except Error (α × Dynamics) → Except Error α × Dynamics
  | .ok (a, d') => (.ok a, d')
  | .error e => (.error e, d)

def runWith (d : Dynamics) (p : Program) (m : Machine) (content : Option ContentService)
    (triples : Option TripleService) (limit : Int) : Except Error (RunView × Dynamics) := do
  let (e, out) ← runProgram p m ⟨content, triples, some d⟩ limit record []
  return (e.view out, e.services.dynamics.getD d)

def ask (d : Dynamics) : Call → Reply × Dynamics
  | .basinId x => (d.keep (d.basinId x)).map .word id
  | .basins width => (d.keep (d.basins width)).map .groups id
  | .applyRule name x => (.word (d.applyRule name x), d)
  | .register name r => (d.keep ((fun d => ((), d)) <$> d.register name r)).map .registered id
  | .query store pattern => (d.keep (store.queryWith d pattern)).map .triples id
  | .run p m content triples limit => (d.keep (d.runWith p m content triples limit)).map .view id

def after (d : Dynamics) (history : List Call) : Dynamics :=
  history.foldl (fun d c => (d.ask c).2) d

variable {r : Rule} {d d' : Dynamics}

namespace Alike

theorem keep {α : Type} (h : d.Alike r d') {x x' : Except Error (α × Dynamics)}
    (hx : Agree (Alike r) x x') :
    (d'.keep x').1 = (d.keep x).1 ∧ (d.keep x).2.Alike r (d'.keep x').2 := by
  cases hx with
  | ok hs => exact ⟨rfl, hs⟩
  | error => exact ⟨rfl, h⟩

theorem register (h : d.Alike r d') (name : String) (rule : Rule) :
    Agree (Alike r) ((fun d => ((), d)) <$> d.register name rule)
      ((fun d => ((), d)) <$> d'.register name rule) := by
  unfold Dynamics.register
  rw [h.rules]
  cases d.rules.register name rule with
  | error e => exact .error
  | ok rules =>
    exact .ok ⟨rfl, h.basinRule, ⟨h.left.rule, h.left.cache⟩, ⟨h.right.rule, h.right.cache⟩⟩

theorem runWith (h : d.Alike r d') (p : Program) (m : Machine) (content : Option ContentService)
    (triples : Option TripleService) (limit : Int) :
    Agree (Alike r) (d.runWith p m content triples limit)
      (d'.runWith p m content triples limit) := by
  have hs : Services.Alike r ⟨content, triples, some d⟩ ⟨content, triples, some d'⟩ :=
    ⟨rfl, rfl, .some h⟩
  unfold Dynamics.runWith
  rcases runProgram_alike hs p m limit record [] with
    ⟨err, hrun, hrun'⟩ | ⟨e, e', out, hrun, hrun', he⟩
  · rw [hrun, hrun']
    exact .error
  · have hview : e'.view out = e.view out := by
      unfold Engine.view
      rw [he.machine, he.steps, he.services.content, he.services.triples]
    rw [hrun, hrun', ok_bind, ok_bind]
    dsimp only
    rw [hview]
    rcases he.services.dynamics_cases with ⟨hd, hd'⟩ | ⟨d₁, d₁', hd, hd', hd₁⟩
    · rw [hd, hd']
      exact .ok h
    · rw [hd, hd']
      exact .ok hd₁

/-- Dynamics that are alike give the same answer and stay alike. -/
theorem ask (h : d.Alike r d') (c : Call) :
    (d'.ask c).1 = (d.ask c).1 ∧ (d.ask c).2.Alike r (d'.ask c).2 := by
  cases c with
  | basinId x =>
    obtain ⟨heq, hs⟩ := h.keep (h.basinId x)
    exact ⟨congrArg Reply.word heq, hs⟩
  | basins width =>
    obtain ⟨heq, hs⟩ := h.keep (h.basins width)
    exact ⟨congrArg Reply.groups heq, hs⟩
  | applyRule name x => exact ⟨congrArg Reply.word (h.applyRule name x), h⟩
  | register name rule =>
    obtain ⟨heq, hs⟩ := h.keep (h.register name rule)
    exact ⟨congrArg Reply.registered heq, hs⟩
  | query store pattern =>
    obtain ⟨heq, hs⟩ := h.keep (store.queryWith_agree h pattern)
    exact ⟨congrArg Reply.triples heq, hs⟩
  | run p m content triples limit =>
    obtain ⟨heq, hs⟩ := h.keep (h.runWith p m content triples limit)
    exact ⟨congrArg Reply.view heq, hs⟩

end Alike

/-- What is kept stays right under every history. -/
theorem Faithful.after (h : d.Faithful r) (history : List Call) :
    (d.after history).Faithful r := by
  induction history generalizing d with
  | nil => exact h
  | cons c history ih => exact ih (h.alike_self.ask c).2.left

theorem Faithful.basinId_eq (h : d.Faithful r) {x b : Word} (hb : r.basin x = .ok b) :
    ∃ d', d.basinId x = .ok (b, d') := by
  rcases basinId_cases h x with ⟨e, he, -⟩ | ⟨c, cache, hc, hd, -⟩
  · rw [hb] at he
    cases he
  · rw [hb] at hc
    cases hc
    exact ⟨_, hd⟩

/-- Nothing that is asked of a dynamics shows what it keeps: a basin is always the one of the
trajectory that the rule has from the word, and every answer is the one of a dynamics that keeps
nothing. -/
theorem ask_after_eq_forget {rules : RuleSet} {name : String} {d₀ : Dynamics}
    (hmake : make rules name = .ok d₀) (hrule : d₀.rule.KeepsWidth) (history : List Call) :
    (∀ x, ∃ t b d', d₀.rule.trace x = .ok t ∧ t.basin = .ok b ∧
        (d₀.after history).basinId x = .ok (b, d')) ∧
      ∀ c, ((d₀.after history).ask c).1 = ((d₀.after history).forget.ask c).1 := by
  have hfaithful := (make_faithful hmake).after history
  constructor
  · intro x
    obtain ⟨b, hb, -⟩ := (hrule.computes x.width).exists_basin rfl
    obtain ⟨t, ht, htb⟩ := Rule.exists_trace_of_basin hb
    obtain ⟨d', hd⟩ := hfaithful.basinId_eq hb
    exact ⟨t, b, d', ht, htb, hd⟩
  · intro c
    exact (hfaithful.alike_forget.ask c).1.symm

/-- A dynamics that has found a basin, grouped all words of two bits, gained a rule, been refused
another and served a query. -/
theorem ask_after_eq_forget_collatz :
    let x : Word := ⟨4, 3, by decide, by decide⟩
    let d : Dynamics := ⟨.builtin, "collatz", .collatz, ∅⟩
    let history : List Call :=
      [.basinId x, .basins 2, .register "turn" .rotl1, .register "collatz" .rotl1,
      .query (.store ⟨[⟨some x, some x, some x⟩], none⟩) ⟨some x, none, none⟩]
    make .builtin "collatz" = .ok d ∧
      (∃ t b d', Rule.collatz.trace x = .ok t ∧ t.basin = .ok b ∧
        (d.after history).basinId x = .ok (b, d')) ∧
      ((d.after history).ask (.basins 4)).1 = ((d.after history).forget.ask (.basins 4)).1 := by
  intro x d history
  have hmake : make .builtin "collatz" = .ok d := rfl
  have hget : RuleSet.builtin.get "collatz" = .ok .collatz := rfl
  obtain ⟨hbasin, hask⟩ := ask_after_eq_forget hmake (Rule.builtin_keepsWidth hget) history
  exact ⟨hmake, hbasin x, hask (.basins 4)⟩

/-- Basins divide the words of a width by their orbits: two words have one basin exactly if their
orbits meet. The basin of a word, whatever has been asked before, is the least periodic word on its
orbit. -/
theorem basinId_eq_iff_orbits_meet {rules : RuleSet} {name : String} {d₀ : Dynamics}
    (hmake : make rules name = .ok d₀) {w : ℕ} {f : Word → Word} (hrule : d₀.rule.Computes w f) :
    ∃ basin : Word → Word,
      (∀ history x, x.width = w → ∃ d', (d₀.after history).basinId x = .ok (basin x, d')) ∧
      (∀ x y, x.width = w → y.width = w → (basin x = basin y ↔ ∃ i j, f^[i] x = f^[j] y)) ∧
      ∀ x, x.width = w →
        basin x ∈ Function.periodicPts f ∧ (∃ n, f^[n] x = basin x) ∧
        (∀ n, f^[n] x ∈ Function.periodicPts f → (basin x).value ≤ (f^[n] x).value) ∧
        basin (f x) = basin x ∧ basin (basin x) = basin x := by
  have hbasin (x : Word) : ∃ b, x.width = w → d₀.rule.basin x = .ok b ∧ IsBasin f x b := by
    by_cases hx : x.width = w
    · obtain ⟨b, hb⟩ := hrule.exists_basin hx
      exact ⟨b, fun _ => hb⟩
    · exact ⟨x, fun h => absurd h hx⟩
  choose basin hbasin using hbasin
  have hmeet (x y : Word) (hx : x.width = w) (hy : y.width = w) :
      basin x = basin y ↔ ∃ i j, f^[i] x = f^[j] y :=
    (hbasin x hx).2.eq_iff_meet (hbasin y hy).2
  refine ⟨basin, ?_, hmeet, ?_⟩
  · intro history x hx
    exact ((make_faithful hmake).after history).basinId_eq (hbasin x hx).1
  · intro x hx
    obtain ⟨⟨⟨n, hn⟩, hper⟩, hleast⟩ := (hbasin x hx).2
    have hbw : (basin x).width = w := hn ▸ (hrule.iterate hx n).2
    refine ⟨hper, ⟨n, hn⟩, fun m hm => (hleast _ ⟨⟨m, rfl⟩, hm⟩).2, ?_, ?_⟩
    · exact (hmeet _ _ (hrule.width x hx) hx).mpr ⟨0, 1, rfl⟩
    · exact (hmeet _ _ hbw hx).mpr ⟨0, n, hn.symm⟩

/-- Under the `3x + 1` rule at four bits, 3 and the 10 that comes after it have one basin. -/
theorem basinId_eq_iff_orbits_meet_collatz :
    let d : Dynamics := ⟨.builtin, "collatz", .collatz, ∅⟩
    let x : Word := ⟨4, 3, by decide, by decide⟩
    let y : Word := ⟨4, 10, by decide, by decide⟩
    make .builtin "collatz" = .ok d ∧ Rule.collatz.Computes 4 Rule.collatz.next ∧
      ∃ b d' d'', (d.after []).basinId x = .ok (b, d') ∧
        (d.after [.basinId x]).basinId y = .ok (b, d'') ∧
        b ∈ Function.periodicPts Rule.collatz.next := by
  intro d x y
  have hmake : make .builtin "collatz" = .ok d := rfl
  have hget : RuleSet.builtin.get "collatz" = .ok .collatz := rfl
  have hrule : Rule.collatz.Computes 4 Rule.collatz.next := Rule.builtin_computes hget 4
  obtain ⟨basin, hbasin, hmeet, hleast⟩ := basinId_eq_iff_orbits_meet hmake hrule
  have hxy : basin x = basin y := (hmeet x y rfl rfl).mpr ⟨1, 0, by decide⟩
  obtain ⟨d', hx⟩ := hbasin [] x rfl
  obtain ⟨d'', hy⟩ := hbasin [.basinId x] y rfl
  rw [← hxy] at hy
  exact ⟨hmake, hrule, basin x, d', d'', hx, hy, (hleast x rfl).1⟩

end Dynamics
end WordMachine
