import WordMachine.Proofs.Lockstep
import WordMachine.Proofs.Orbits
import WordMachine.Proofs.Safety

/-!
The basins that a dynamics keeps. Two dynamics that keep only what their rule gives answer alike,
whatever each of them keeps, and so do machines that use them.
-/
namespace WordMachine

/-- Two computations with a state fail alike, or give the same value and related states. -/
inductive Agree {ε α β : Type} (R : β → β → Prop) : Except ε (α × β) → Except ε (α × β) → Prop
  | ok {a : α} {s s' : β} (h : R s s') : Agree R (.ok (a, s)) (.ok (a, s'))
  | error {e : ε} : Agree R (.error e) (.error e)

namespace Agree

variable {ε α β γ δ : Type} {R R' : β → β → Prop}

theorem eq_or_eq {r r' : Except ε (α × β)} (h : Agree R r r') :
    (∃ e, r = .error e ∧ r' = .error e) ∨ ∃ a s s', r = .ok (a, s) ∧ r' = .ok (a, s') ∧
      R s s' := by
  cases h with
  | ok h => exact Or.inr ⟨_, _, _, rfl, rfl, h⟩
  | error => exact Or.inl ⟨_, rfl, rfl⟩

theorem bind {r r' : Except ε (α × β)} {f f' : α × β → Except ε (γ × β)} (h : Agree R r r')
    (hf : ∀ a s s', R s s' → Agree R' (f (a, s)) (f' (a, s'))) :
    Agree R' (r >>= f) (r' >>= f') := by
  cases h with
  | ok h => exact hf _ _ _ h
  | error => exact .error

/-- A step that does not touch the state. -/
theorem bind_value (r : Except ε δ) {f f' : δ → Except ε (γ × β)} (h : ∀ c, Agree R (f c) (f' c)) :
    Agree R (r >>= f) (r >>= f') := by
  cases r with
  | ok c => exact h c
  | error e => exact .error

theorem foldlM {f f' : α × β → δ → Except ε (α × β)}
    (hf : ∀ a s s' v, R s s' → Agree R (f (a, s) v) (f' (a, s') v)) (vs : List δ) (a : α)
    {s s' : β}
    (h : R s s') : Agree R (vs.foldlM f (a, s)) (vs.foldlM f' (a, s')) := by
  induction vs generalizing a s s' with
  | nil => exact .ok h
  | cons v vs ih =>
    rw [List.foldlM_cons, List.foldlM_cons]
    exact (hf a s s' v h).bind fun a s s' h => ih a h

end Agree

namespace Dynamics

/-- The rule is the given one, and every basin kept is the one that it has. -/
structure Faithful (r : Rule) (d : Dynamics) : Prop where
  rule : d.rule = r
  cache : ∀ {x b : Word}, d.cache[x]? = some b → r.basin x = .ok b

/-- Two dynamics that differ at most in what they keep, and keep nothing wrong. -/
structure Alike (r : Rule) (d d' : Dynamics) : Prop where
  rules : d'.rules = d.rules
  basinRule : d'.basinRule = d.basinRule
  left : d.Faithful r
  right : d'.Faithful r

def forget (d : Dynamics) : Dynamics := { d with cache := ∅ }

variable {r : Rule} {d d' : Dynamics}

theorem make_faithful {rules : RuleSet} {name : String} (h : make rules name = .ok d) :
    d.Faithful d.rule := by
  unfold make at h
  cases hr : rules.get name with
  | error e =>
    rw [hr] at h
    cases h
  | ok r =>
    rw [hr] at h
    cases h
    exact ⟨rfl, by simp⟩

theorem Faithful.alike_self (h : d.Faithful r) : Alike r d d := ⟨rfl, rfl, h, h⟩

theorem Faithful.alike_forget (h : d.Faithful r) : Alike r d d.forget :=
  ⟨rfl, rfl, h, h.rule, by simp [forget]⟩

/-- A basin is the one of the rule, or fails as the rule does, and what is kept after it is
right. -/
theorem basinId_cases (h : d.Faithful r) (x : Word) :
    (∃ e, r.basin x = .error e ∧ d.basinId x = .error e) ∨
      ∃ b cache, r.basin x = .ok b ∧ d.basinId x = .ok (b, { d with cache }) ∧
        Faithful r { d with cache } := by
  obtain ⟨rfl, hcache⟩ := h
  unfold basinId trajectory
  split
  next b hb => exact Or.inr ⟨b, d.cache, hcache hb, rfl, rfl, hcache⟩
  next =>
    cases ht : d.rule.trace x with
    | error e =>
      left
      unfold Rule.basin
      rw [ht]
      exact ⟨e, rfl, rfl⟩
    | ok t =>
      cases hb : t.basin with
      | error e =>
        left
        unfold Rule.basin
        rw [ht, ok_bind, ok_bind, hb]
        exact ⟨.word e, rfl, rfl⟩
      | ok b =>
        right
        rw [ok_bind, hb]
        refine ⟨b, _, Rule.basin_eq_of_trace ht hb, rfl, rfl, fun {y c} hc => ?_⟩
        rcases getElem?_foldl_insert hc with ⟨hy, rfl⟩ | hc
        · exact Rule.basin_of_mem_words ht hb hy
        · exact hcache hc

namespace Alike

theorem basinId (h : Alike r d d') (x : Word) : Agree (Alike r) (d.basinId x) (d'.basinId x) := by
  rcases basinId_cases h.left x with ⟨e, hr, hd⟩ | ⟨b, cache, hr, hd, hf⟩
  · rcases basinId_cases h.right x with ⟨e', hr', hd'⟩ | ⟨b', cache', hr', -, -⟩
    · rw [hr] at hr'
      cases hr'
      rw [hd, hd']
      exact .error
    · rw [hr] at hr'
      cases hr'
  · rcases basinId_cases h.right x with ⟨e', hr', -⟩ | ⟨b', cache', hr', hd', hf'⟩
    · rw [hr] at hr'
      cases hr'
    · rw [hr] at hr'
      cases hr'
      rw [hd, hd']
      exact .ok ⟨h.rules, h.basinRule, hf, hf'⟩

theorem missingBasin (h : Alike r d d') : Agree (Alike r) d.missingBasin d'.missingBasin := by
  unfold Dynamics.missingBasin
  rw [h.left.rule, h.right.rule]
  apply Agree.bind_value
  intro y
  cases y with
  | none => exact .ok h
  | some y => exact (h.basinId y).bind fun b s s' hs => .ok hs

theorem applyRule (h : Alike r d d') (name : String) (x : Word) :
    d'.applyRule name x = d.applyRule name x := by
  unfold Dynamics.applyRule
  rw [h.rules]

theorem basins (h : Alike r d d') (width : Int) :
    Agree (Alike r) (d.basins width) (d'.basins width) := by
  unfold Dynamics.basins
  split
  · exact .error
  · refine (Agree.foldlM (fun g s s' v hs => ?_) _ _ h).bind fun g s s' hs => .ok hs
    apply Agree.bind_value
    intro x
    exact (hs.basinId x).bind fun b s s' hs => .ok hs

end Alike
end Dynamics

namespace Triple

variable {r : Rule} {d d' : Dynamics}

theorem inBasins_agree (h : d.Alike r d') (pairs : List (Option Word × Option Word)) :
    Agree (Dynamics.Alike r) (inBasins d pairs) (inBasins d' pairs) := by
  induction pairs generalizing d d' with
  | nil => exact .ok h
  | cons p pairs ih =>
    obtain ⟨asked, there⟩ := p
    match asked, there with
    | none, there => exact ih h
    | some basin, none =>
      refine h.missingBasin.bind fun found s s' hs => ?_
      dsimp only
      split
      · exact ih hs
      · exact .ok hs
    | some basin, some x =>
      refine (h.basinId x).bind fun found s s' hs => ?_
      dsimp only
      split
      · exact ih hs
      · exact .ok hs

theorem selectByBasin_agree (h : d.Alike r d') (pattern : Triple) (ts : List Triple) :
    Agree (Dynamics.Alike r) (selectByBasin d pattern ts) (selectByBasin d' pattern ts) := by
  induction ts generalizing d d' with
  | nil => exact .ok h
  | cons t ts ih =>
    refine (inBasins_agree h _).bind fun hit s s' hs => ?_
    exact (ih hs).bind fun found s s' hs => .ok hs

end Triple

theorem TripleService.queryWith_agree {r : Rule} {d d' : Dynamics} (h : d.Alike r d')
    (store : TripleService) (pattern : Triple) :
    Agree (Dynamics.Alike r) (store.queryWith d pattern) (store.queryWith d' pattern) := by
  cases store with
  | store st => exact Triple.selectByBasin_agree h pattern st.triples
  | fixed onInsert onQuery => exact Agree.bind_value _ fun ts => .ok h

structure Services.Alike (r : Rule) (s s' : Services) : Prop where
  content : s'.content = s.content
  triples : s'.triples = s.triples
  dynamics : Option.Rel (Dynamics.Alike r) s.dynamics s'.dynamics

theorem Services.Alike.dynamics_cases {r : Rule} {s s' : Services} (h : s.Alike r s') :
    (s.dynamics = none ∧ s'.dynamics = none) ∨
      ∃ d d', s.dynamics = some d ∧ s'.dynamics = some d' ∧ d.Alike r d' := by
  obtain ⟨-, -, hd⟩ := h
  generalize s.dynamics = o at hd ⊢
  generalize s'.dynamics = o' at hd ⊢
  cases hd with
  | some hd => exact Or.inr ⟨_, _, rfl, rfl, hd⟩
  | none => exact Or.inl ⟨rfl, rfl⟩

namespace Effect

variable {r : Rule} {d d' : Dynamics} {s s' : Services}

theorem basinOptional_agree (h : d.Alike r d') (x : Option Word) :
    Agree (Dynamics.Alike r) (basinOptional d x) (basinOptional d' x) := by
  cases x with
  | none => exact .ok h
  | some x => exact (h.basinId x).bind fun b s s' hs => .ok hs

theorem basinPattern_agree (h : d.Alike r d') (t : Triple) :
    Agree (Dynamics.Alike r) (basinPattern d t) (basinPattern d' t) := by
  refine (basinOptional_agree h t.subject).bind fun a s s' hs => ?_
  refine (basinOptional_agree hs t.relation).bind fun b s s' hs => ?_
  exact (basinOptional_agree hs t.object).bind fun c s s' hs => .ok hs

theorem tripleFault_agree {α : Type} {x x' : Except Error (α × Dynamics)} (f : StoreError → Fault)
    (h : Agree (Dynamics.Alike r) x x') :
    Agree (Dynamics.Alike r) (tripleFault f x) (tripleFault f x') := by
  cases h with
  | ok h => exact .ok h
  | error =>
    unfold tripleFault
    split
    · split <;> exact .error
    · exact .error

theorem findByBasin_agree (h : d.Alike r d') (store : TripleService) (pattern : Triple)
    (countReg : Field Int) :
    Agree (Dynamics.Alike r) (findByBasin d store pattern countReg)
      (findByBasin d' store pattern countReg) :=
  Agree.bind_value _ fun _ => tripleFault_agree .query (store.queryWith_agree h pattern)

theorem ofQueryByBasin_alike (h : d.Alike r d') (m : Machine) (store : TripleService) (t : Triple)
    (countReg : Field Int) (outAddress : Field Argument) :
    (ofQueryByBasin m d store t countReg outAddress).1.Alike r
        (ofQueryByBasin m d' store t countReg outAddress).1 ∧
      (ofQueryByBasin m d' store t countReg outAddress).2 =
        (ofQueryByBasin m d store t countReg outAddress).2 := by
  unfold ofQueryByBasin
  rcases (basinPattern_agree h t).eq_or_eq with ⟨e, hp, hp'⟩ | ⟨pattern, d₁, d₁', hp, hp', h₁⟩
  · rw [hp, hp']
    exact ⟨h, rfl⟩
  · rw [hp, hp']
    dsimp only
    rcases (findByBasin_agree h₁ store pattern countReg).eq_or_eq with
      ⟨e, hf, hf'⟩ | ⟨found, d₂, d₂', hf, hf', h₂⟩
    · rw [hf, hf']
      exact ⟨h₁, rfl⟩
    · rw [hf, hf']
      exact ⟨h₂, rfl⟩

theorem ofContent_alike (h : s.Alike r s') (m : Machine) (action : Field ContentAction)
    (digestReg : Field Int) (address : Field Argument) (lengthReg : Field Int) :
    (ofContent m s action digestReg address lengthReg).1.Alike r
        (ofContent m s' action digestReg address lengthReg).1 ∧
      (ofContent m s' action digestReg address lengthReg).2 =
        (ofContent m s action digestReg address lengthReg).2 := by
  unfold ofContent
  rw [h.content]
  split
  next => exact ⟨h, rfl⟩
  next store _ =>
    split
    next => exact ⟨h, rfl⟩
    next =>
      split
      next =>
        split
        next => exact ⟨h, rfl⟩
        next => exact ⟨⟨rfl, h.triples, h.dynamics⟩, rfl⟩
      next => exact ⟨h, rfl⟩
      next => exact ⟨h, rfl⟩
      next => exact ⟨h, rfl⟩

theorem ofTriple_alike (h : s.Alike r s') (m : Machine) (action : Field TripleAction)
    (subject relation object : Field Argument) (countReg : Field Int)
    (outAddress : Field Argument) :
    (ofTriple m s action subject relation object countReg outAddress).1.Alike r
        (ofTriple m s' action subject relation object countReg outAddress).1 ∧
      (ofTriple m s' action subject relation object countReg outAddress).2 =
        (ofTriple m s action subject relation object countReg outAddress).2 := by
  unfold ofTriple
  rw [h.triples]
  split
  next => exact ⟨h, rfl⟩
  next store _ =>
    split
    next => exact ⟨h, rfl⟩
    next t _ =>
      split
      next =>
        split
        next => exact ⟨h, rfl⟩
        next => exact ⟨⟨h.content, rfl, h.dynamics⟩, rfl⟩
      next => exact ⟨h, rfl⟩
      next =>
        rcases h.dynamics_cases with ⟨hd, hd'⟩ | ⟨d, d', hd, hd', halike⟩
        · rw [hd, hd']
          exact ⟨h, rfl⟩
        · rw [hd, hd']
          obtain ⟨hq, heq⟩ := ofQueryByBasin_alike halike m store t countReg outAddress
          exact ⟨⟨h.content, rfl, .some hq⟩, heq⟩
      next => exact ⟨h, rfl⟩
      next => exact ⟨h, rfl⟩

theorem ofApplyRule_alike (h : s.Alike r s') (m : Machine) (rule : Field String)
    (reg : Field Int) :
    ofApplyRule m s'.dynamics rule reg = ofApplyRule m s.dynamics rule reg := by
  rcases h.dynamics_cases with ⟨hd, hd'⟩ | ⟨d, d', hd, hd', halike⟩
  · rw [hd, hd']
  · have hnamed (x : Word) : applyNamed d' rule x = applyNamed d rule x := by
      cases rule with
      | known name => exact congrArg (ruleFault name) (halike.applyRule name x)
      | other v => rfl
      | absent kind name => rfl
    rw [hd, hd']
    unfold ofApplyRule
    simp only [hnamed]

/-- An instruction has the same effect, and leaves services that are alike. -/
theorem ofInstruction_alike (h : s.Alike r s') (size : ℕ) (m : Machine) (op : Instruction) :
    (ofInstruction size m s op).1.Alike r (ofInstruction size m s' op).1 ∧
      (ofInstruction size m s' op).2 = (ofInstruction size m s op).2 := by
  cases op with
  | content action digest address length => exact ofContent_alike h m action digest address length
  | triple action subject relation object count out =>
    exact ofTriple_alike h m action subject relation object count out
  | applyRule rule reg => exact ⟨h, ofApplyRule_alike h m rule reg⟩
  | _ => exact ⟨h, rfl⟩

end Effect

structure Engine.Alike (r : Rule) (e e' : Engine) : Prop where
  machine : e'.machine = e.machine
  services : e.services.Alike r e'.services
  steps : e'.steps = e.steps

namespace Engine.Alike

variable {r : Rule} {e e' : Engine}

theorem execute (h : e.Alike r e') (size : ℕ) (op : Instruction) :
    (e.execute size op).1.Alike r (e'.execute size op).1 ∧
      (e'.execute size op).2 = (e.execute size op).2 := by
  obtain ⟨m, s, k⟩ := e
  obtain ⟨m', s', k'⟩ := e'
  obtain ⟨rfl, hs, rfl⟩ := h
  obtain ⟨hs, heq⟩ := Effect.ofInstruction_alike hs size m' op
  unfold Engine.execute
  dsimp only
  generalize Effect.ofInstruction size m' s op = out at hs heq ⊢
  generalize Effect.ofInstruction size m' s' op = out' at hs heq ⊢
  obtain ⟨s, result⟩ := out
  obtain ⟨s', result'⟩ := out'
  obtain rfl : result' = result := heq
  cases result' with
  | error err => exact ⟨⟨rfl, hs, rfl⟩, rfl⟩
  | ok effect =>
    dsimp only
    split <;> exact ⟨⟨rfl, hs, rfl⟩, rfl⟩

theorem step (h : e.Alike r e') (p : Program) :
    (e.step p).1.Alike r (e'.step p).1 ∧ (e'.step p).2 = (e.step p).2 := by
  have hbegin : e.beginStep.Alike r e'.beginStep := by
    obtain ⟨m, s, k⟩ := e
    obtain ⟨m', s', k'⟩ := e'
    obtain ⟨rfl, hs, rfl⟩ := h
    exact ⟨rfl, hs, rfl⟩
  unfold Engine.step
  rw [h.machine]
  split
  next => exact ⟨h, rfl⟩
  next op _ => exact hbegin.execute p.size op

def inStep (r : Rule) : Correspondence where
  engines e e' := e.Alike r e'
  shown op op' := op' = op
  faults _ f f' := f' = f
  excused _ := False

theorem inStep_lockstep (r : Rule) (p : Program) : (inStep r).Lockstep p p where
  finished h := by rw [h.machine]
  exhausted h limit := by
    change Fault.stepLimit _ _ = .stepLimit _ _
    rw [h.machine]
  step h := Or.inr ⟨(h.step p).1, .of_eq (h.step p).2⟩

/-- A run goes the same way and ends the same way. -/
theorem runFor {σ : Type} (h : e.Alike r e') (p : Program) (limit : ℕ)
    (observe : σ → Machine → Instruction → σ) (left : ℕ) (acc : σ) :
    (runFor p limit observe left e acc).1.Alike r (runFor p limit observe left e' acc).1 ∧
      (runFor p limit observe left e' acc).2 = (runFor p limit observe left e acc).2 := by
  have hobserve {acc acc' : σ} {e e' : Engine} {op op' : Instruction} (hv : acc' = acc)
      (he : e.Alike r e')
      (hop : op' = op) : observe acc' e'.machine op' = observe acc e.machine op := by
    rw [hv, he.machine, hop]
  rcases (inStep_lockstep r p).runFor (fun acc acc' => acc' = acc) hobserve limit left h
      (rfl : acc = acc) with ⟨_, -, hx⟩ | ⟨he, hv, ho⟩
  · exact hx.elim
  · exact ⟨he, Prod.ext hv ho.eq⟩

end Engine.Alike

theorem reportable_alike {r : Rule} {e e' : Engine} (h : e.Alike r e') (ending : Ending) :
    reportable e' ending = reportable e ending := by
  unfold reportable
  rw [h.machine]

/-- A program is refused for its limit, or does the same with both services. -/
theorem runProgram_alike {σ : Type} {r : Rule} {s s' : Services} (h : s.Alike r s') (p : Program)
    (m : Machine) (limit : Int) (observe : σ → Machine → Instruction → σ) (acc : σ) :
    (∃ err, runProgram p m s limit observe acc = .error err ∧
        runProgram p m s' limit observe acc = .error err) ∨
      ∃ e e' out, runProgram p m s limit observe acc = .ok (e, out) ∧
        runProgram p m s' limit observe acc = .ok (e', out) ∧ e.Alike r e' := by
  by_cases hl : 0 < limit
  · have hstart : Engine.Alike r ⟨m, s, 0⟩ ⟨m, s', 0⟩ := ⟨rfl, h, rfl⟩
    obtain ⟨he, hout⟩ := hstart.runFor p limit.toNat observe limit.toNat acc
    right
    rw [runProgram_eq hl, runProgram_eq hl, hout, reportable_alike he]
    exact ⟨_, _, _, rfl, rfl, he⟩
  · left
    unfold runProgram Engine.checkLimit
    rw [if_pos (Int.not_lt.mp hl)]
    exact ⟨.stepLimit limit, rfl, rfl⟩

end WordMachine
