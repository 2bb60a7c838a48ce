import WordMachine.Proofs.Content
import WordMachine.Proofs.Effects
import WordMachine.Proofs.Triples

/-!
The effects of the instructions that use a store or a dynamics, and of all instructions. With sound
services a valid instruction fails only by a fault and leaves the services sound.
-/
namespace WordMachine

/-- The stores are no stand-ins, all triples have the width, and the dynamics is steady. -/
structure Services.Sound (w : Nat) (s : Services) : Prop where
  content : ∀ c, s.content = some c → ∃ st, c = .store st
  triples : ∀ t, s.triples = some t → ∃ st, t = .store st ∧ ∀ x ∈ st.triples, x.OfWidth w
  dynamics : ∀ d, s.dynamics = some d → d.Steady

/-- The cells that an address and a register with their number point at hold the words. -/
def Machine.SpanHolds (m : Machine) (address : Field Argument) (lengthReg : Field Int)
    (chars : List Word) : Prop :=
  ∃ (length : Word) (start : Nat), m.registers.get lengthReg = .ok length ∧
    m.resolveAddress address = .ok start ∧ m.memory.readSpan start length.value = .ok chars

namespace Effect

variable {m : Machine} {H : Prop}

section Faults
variable {α : Type} {r : Except Error α} {Q : α → Prop}

theorem contentFault_settles {f : StoreError → Fault} (hf : ∀ e, (f e).isOfRun = false)
    (h : Settles r Q fun e => e.isFault = false ∧ (H → ∃ err, e = .store err)) :
    Settles (contentFault f r) Q (Error.OrderlyIf H) := by
  cases r with
  | ok a => exact h
  | error e =>
    cases e with
    | store err => exact .of_fault (hf err)
    | _ =>
      refine .of_not h.1 fun h' => ?_
      obtain ⟨_, ⟨⟩⟩ := h.2 h'

theorem tripleFault_settles {f : StoreError → Fault} (hf : ∀ e, (f e).isOfRun = false)
    (h : Settles r Q fun e => e.isFault = false ∧ ¬ H) :
    Settles (tripleFault f r) Q (Error.OrderlyIf H) := by
  unfold tripleFault
  split
  next err =>
    split
    · exact .of_fault (hf err)
    · exact .of_not h.1 h.2
  next => exact h.mono (fun _ ha => ha) fun _ he => .of_not he.1 he.2

theorem ruleFault_settles {name : String}
    (h : Settles r Q fun e => e.isFault = false ∧ (H → ∃ known, e = .unknownRule name known)) :
    Settles (ruleFault name r) Q (Error.OrderlyIf H) := by
  cases r with
  | ok a => exact h
  | error e =>
    cases e with
    | unknownRule _ _ => exact .of_fault rfl
    | missingKey _ => exact .of_fault rfl
    | _ =>
      refine .of_not h.1 fun h' => ?_
      obtain ⟨_, ⟨⟩⟩ := h.2 h'

end Faults

theorem applyNamed_settles {d : Dynamics} {rule : Field String} {x : Word}
    (hr : H → rule.Known ∧ d.Steady) :
    Settles (applyNamed d rule x) (fun y => H → y.width = x.width) (Error.OrderlyIf H) := by
  cases rule with
  | known name =>
    refine ruleFault_settles ((d.applyRule_settles name x).mono (fun _ hy h => hy (hr h).2)
      fun e he => ?_)
    exact ⟨he.1, fun h => he.2 (hr h).2⟩
  | other v =>
    simp only [applyNamed]
    split
    · exact .of_not rfl fun h => Field.not_known_other (hr h).1
    · exact .of_fault rfl
  | absent kind name => exact .of_not rfl fun h => Field.not_known_absent (hr h).1

theorem ofApplyRule_behaves {dynamics : Option Dynamics} {rule : Field String} {reg : Field Int}
    (hm : H → m.WellFormed) (hr : H → rule.Known) (hg : H → reg.Known)
    (hd : H → ∀ d, dynamics = some d → d.Steady) :
    Behaves m H (ofApplyRule m dynamics rule reg) := by
  cases dynamics with
  | none => exact .of_fault rfl
  | some d =>
    refine (m.registers.get_settles reg hg).bind fun x hx => ?_
    refine (applyNamed_settles fun h => ⟨hr h, hd h d rfl⟩).bind fun y _ => ?_
    refine (checkResult_settles y).bind fun _ hy => ?_
    obtain ⟨j, hj⟩ := hx.2
    exact behaves_register hj fun h => ⟨(hm h).2.2.2, hg h, hy⟩

theorem countWord_settles (hm : H → m.WellFormed) (count : Nat) :
    Settles (countWord m count) (fun v => v.width = m.width ∧ v.value = count)
      (Error.OrderlyIf H) := by
  unfold countWord
  split
  next hc =>
    rcases Nat.eq_zero_or_pos m.width with h0 | hw
    · rw [h0]
      exact .of_not rfl fun h => absurd h0 (Nat.ne_of_gt (hm h).1.width_pos)
    · rw [ofInt_eq_ok hw hc]
      exact .pure ⟨rfl, rfl⟩
  next => exact .of_fault rfl

section Content
variable {store : ContentService} {action : Field ContentAction} {digestReg lengthReg : Field Int}
  {address : Field Argument}

theorem enfoldSpan_settles (hd : H → digestReg.Known) (ha : H → address.Address)
    (hl : H → lengthReg.Known) (hs : H → ∃ st, store = .store st ∧ 0 < st.width) :
    Settles (enfoldSpan m store digestReg address lengthReg)
      (fun r => (∃ j, RegisterFile.check digestReg = .ok j) ∧
        ((∀ st, store ≠ .store st) ∧ r.2 = store ∨
          ∃ st st' chars, store = .store st ∧ r.2 = .store st' ∧
            m.SpanHolds address lengthReg chars ∧ st.Enfolded chars r.1 st'))
      (Error.OrderlyIf H) := by
  refine (RegisterFile.check_settles digestReg hd).eqn.bind fun j hj => ?_
  refine (m.registers.get_settles lengthReg hl).eqn.bind fun length hlen => ?_
  refine (address.demand_settles fun h => (ha h).known).bind fun _ _ => ?_
  refine (Settles.liftFault (m.resolveAddress_settles address).eqn).bind fun start hst => ?_
  refine (Settles.liftFault (m.memory.readSpan_settles start length.value).eqn).bind
    fun chars hc => ?_
  refine contentFault_settles (fun _ => rfl) ((store.enfold_settles chars).mono ?_ ?_)
  · rintro r (hr | ⟨st, st', hs, hs', he⟩)
    · exact ⟨⟨j, hj.1⟩, Or.inl hr⟩
    · exact ⟨⟨j, hj.1⟩, Or.inr ⟨st, st', chars, hs, hs', ⟨length, start, hlen.1, hst.1, hc.1⟩, he⟩⟩
  · rintro e ⟨he, hst⟩
    refine ⟨he, fun h => ?_⟩
    obtain ⟨st, hs, hpos⟩ := hs h
    exact hst st hs hpos

theorem ofDigest_behaves {key : Word} (hm : H → m.WellFormed) (hd : H → digestReg.Known)
    {j : Option (Fin 4)} (hj : RegisterFile.check digestReg = .ok j) :
    Behaves m H (ofDigest m digestReg key) :=
  (checkResult_settles key).bind fun _ hk => behaves_register hj fun h => ⟨(hm h).2.2.2, hd h, hk⟩

theorem ofUnfold_behaves (hm : H → m.WellFormed) (hd : H → digestReg.Known)
    (ha : H → address.Address) (hl : H → lengthReg.Known) (hs : H → ∃ st, store = .store st) :
    Behaves m H (ofUnfold m store digestReg address lengthReg) := by
  refine (m.registers.get_settles digestReg hd).bind fun key _ => ?_
  refine (RegisterFile.check_settles lengthReg hl).eqn.bind fun j hj => ?_
  refine (address.demand_settles fun h => (ha h).known).bind fun _ _ => ?_
  refine (Settles.liftFault (m.resolveAddress_settles address)).bind fun start _ => ?_
  refine (contentFault_settles (fun _ => rfl) ((store.unfold_settles key).mono (fun _ h => h)
    fun e he => ?_)).bind fun chars _ => ?_
  · refine ⟨he.1, fun h => ?_⟩
    obtain ⟨st, hst⟩ := hs h
    exact he.2 st hst
  refine (countWord_settles hm chars.length).bind fun length hlen => ?_
  refine (Settles.forM fun c _ => checkResult_settles c).bind fun _ hw => ?_
  refine (Settles.liftFault (m.memory.check_settles start chars.length)).bind fun _ hb => .pure ?_
  refine ⟨⟨Int.ofNat_le.mp hb.2, ?_⟩, fun h => ⟨?_, ?_, hw, rfl⟩⟩
  · rintro _ _ ⟨⟩
    exact ⟨j, hj.1⟩
  · rintro _ ⟨⟩
    exact (hm h).2.2.2.succ
  · rintro _ _ ⟨⟩
    exact ⟨hl h, hlen.1⟩

theorem ofContent_behaves {s : Services} (hm : H → m.WellFormed) (ha : H → action.Known)
    (hd : H → digestReg.Known) (ht : H → address.Address) (hl : H → lengthReg.Known)
    (hs : H → s.Sound m.width) :
    Behaves m H (ofContent m s action digestReg address lengthReg).2 := by
  unfold ofContent
  split
  next => exact .of_fault rfl
  next store hstore =>
    split
    next => exact .of_fault rfl
    next hw =>
      split
      next =>
        have hpos (h : H) : ∃ st, store = .store st ∧ 0 < st.width := by
          obtain ⟨st, rfl⟩ := (hs h).content _ hstore
          refine ⟨st, rfl, ?_⟩
          have hpos := (hm h).1.width_pos
          have : st.width = m.registers.width := Decidable.not_not.mp hw
          omega
        split
        next e he => exact (enfoldSpan_settles hd ht hl hpos).of_error he
        next key store' hok =>
          obtain ⟨⟨j, hj⟩, -⟩ := (enfoldSpan_settles hd ht hl hpos).of_ok hok
          exact ofDigest_behaves hm hd hj
      next => exact ofUnfold_behaves hm hd ht hl fun h => (hs h).content _ hstore
      next => exact .of_fault rfl
      next => exact .of_not rfl fun h => Field.not_known_absent (ha h)

/-- The services stay as they are, and an enfolding then fails unless a stand-in answers it; or the
store has taken in the words of the span and its digest goes to the register. -/
theorem ofContent_cases (s : Services) :
    ((ofContent m s action digestReg address lengthReg).1 = s ∧
        (action = .known .enfold → ∀ st, s.content = some (.store st) →
          ∃ err, (ofContent m s action digestReg address lengthReg).2 = .error err)) ∨
      ∃ st st' chars key, action = .known .enfold ∧ s.content = some (.store st) ∧
        m.SpanHolds address lengthReg chars ∧ st.Enfolded chars key st' ∧
        ofContent m s action digestReg address lengthReg =
          ({ s with content := some (.store st') },
          .ok { next := some m.pc.succ, register := some (digestReg, key) }) := by
  unfold ofContent
  split
  next => exact Or.inl ⟨rfl, fun _ _ _ => ⟨_, rfl⟩⟩
  next store hstore =>
    split
    next => exact Or.inl ⟨rfl, fun _ _ _ => ⟨_, rfl⟩⟩
    next hw =>
      split
      next =>
        split
        next => exact Or.inl ⟨rfl, fun _ _ _ => ⟨_, rfl⟩⟩
        next key store' hok =>
          -- Nothing is asked of the fields here, so the condition is one that never holds.
          have hspan :=
            (@enfoldSpan_settles m False store digestReg lengthReg address nofun nofun nofun
            nofun).of_ok hok
          rcases hspan.2 with ⟨hn, rfl⟩ | ⟨st, st', chars, rfl, rfl, hc, he⟩
          · left
            rw [← hstore]
            exact ⟨rfl, fun _ st hst => absurd (Option.some.inj (hstore.symm.trans hst)) (hn st)⟩
          · right
            refine ⟨st, st', chars, key, rfl, hstore, hc, he, ?_⟩
            have hk : key.width = m.width :=
              Int.ofNat.inj (he.key_width.trans (Decidable.not_not.mp hw))
            unfold ofDigest checkResult
            rw [if_pos hk]
            rfl
      next => exact Or.inl ⟨rfl, fun h => nomatch h⟩
      next => exact Or.inl ⟨rfl, fun h => nomatch h⟩
      next => exact Or.inl ⟨rfl, fun h => nomatch h⟩

end Content

section Triples
variable {store : TripleService} {subject relation object outAddress : Field Argument}
  {countReg : Field Int}

theorem resolveOptional_settles (a : Field Argument) :
    Settles (resolveOptional m a)
      (fun v => a.isNull = false → ∃ x, v = some x ∧ (m.registers.WellFormed → x.width = m.width))
      (·.isOfRun = false) := by
  unfold resolveOptional
  split
  next => exact fun h => nomatch h
  next => exact .map ((Alu.resolve_settles m.registers a).imp fun x hx _ => ⟨x, rfl, hx⟩)

/-- Operands that are all there make a triple with no word missing, and of the machine's width. -/
theorem resolveTriple_settles :
    Settles (resolveTriple m subject relation object)
      (fun t => subject.isNull = false ∧ relation.isNull = false ∧ object.isNull = false →
        ∀ c ∈ t.components, ∃ x, c = some x ∧ (m.registers.WellFormed → x.width = m.width))
      (·.isOfRun = false) := by
  refine (resolveOptional_settles subject).bind fun s hs => ?_
  refine (resolveOptional_settles relation).bind fun r hr => ?_
  refine (resolveOptional_settles object).bind fun o ho => .pure fun hn c hc => ?_
  simp only [Triple.components, List.mem_cons, List.not_mem_nil, or_false] at hc
  rcases hc with rfl | rfl | rfl
  · exact hs hn.1
  · exact hr hn.2.1
  · exact ho hn.2.2

theorem basinOptional_settles {d : Dynamics} (hd : H → d.Steady) (x : Option Word) :
    Settles (basinOptional d x) (fun r => H → r.2.Steady) fun e => e.isFault = false ∧ ¬ H := by
  cases x with
  | none => exact hd
  | some x =>
    refine ((d.basinId_settles x).mono (fun _ h => h) fun e he => ?_).bind fun r hr => .pure ?_
    · exact ⟨he.1, fun h => he.2 (hd h)⟩
    · exact fun h => (hr (hd h)).2

theorem basinPattern_settles {d : Dynamics} (hd : H → d.Steady) (t : Triple) :
    Settles (basinPattern d t) (fun r => H → r.2.Steady) fun e => e.isFault = false ∧ ¬ H := by
  refine (basinOptional_settles hd t.subject).bind fun s hs => ?_
  refine (basinOptional_settles hs t.relation).bind fun r hr => ?_
  exact (basinOptional_settles hr t.object).bind fun o ho => .pure ho

theorem ofMatches_behaves {found : List Triple} {j : Option (Fin 4)} (hm : H → m.WellFormed)
    (hj : RegisterFile.check countReg = .ok j) (hc : H → countReg.Known)
    (hf : H → ∀ t ∈ found, t.OfWidth m.width) :
    Behaves m H (ofMatches m countReg found outAddress) := by
  refine (countWord_settles hm found.length).bind fun count hcount => ?_
  split
  next => exact behaves_register hj fun h => ⟨(hm h).2.2.2, hc h, hcount.1⟩
  next =>
    refine (Settles.liftFault (m.resolveAddress_settles _)).bind fun base _ => ?_
    refine (Settles.liftFault (m.memory.check_settles base _)).bind fun _ hb => .pure ?_
    have words (h : H) :
        ∀ c ∈ found.flatMap Triple.components, ∃ x, c = some x ∧ x.width = m.width := by
      intro c hc
      obtain ⟨t, ht, hct⟩ := List.mem_flatMap.mp hc
      exact hf h t ht c hct
    refine ⟨⟨?_, ?_⟩, fun h => ⟨?_, ?_, ?_, ?_⟩⟩
    · have hlen :=
        List.length_filterMap_le id ((found.flatMap Triple.components).takeWhile Option.isSome)
      have htake :=
        (List.takeWhile_sublist Option.isSome (l := found.flatMap Triple.components)).length_le
      dsimp only
      omega
    · rintro _ _ ⟨⟩
      exact ⟨j, hj⟩
    · rintro _ ⟨⟩
      exact (hm h).2.2.2.succ
    · rintro _ _ ⟨⟩
      exact ⟨hc h, hcount.1⟩
    · intro v hv
      obtain ⟨c, hc, hcv⟩ := List.mem_filterMap.mp hv
      obtain ⟨x, rfl, hx⟩ := words h c ((List.takeWhile_sublist _).subset hc)
      cases hcv
      exact hx
    · refine List.any_eq_false.mpr fun c hc => ?_
      obtain ⟨x, rfl, -⟩ := words h c hc
      simp

theorem ofQueryExact_behaves {t : Triple} (hm : H → m.WellFormed) (hc : H → countReg.Known)
    (hs : H → ∃ st, store = .store st ∧ ∀ x ∈ st.triples, x.OfWidth m.width) :
    Behaves m H (ofQueryExact m store t countReg outAddress) := by
  refine (RegisterFile.check_settles countReg hc).eqn.bind fun j hj => ?_
  refine Settles.bind (Q := fun found => H → ∀ x ∈ found, x.OfWidth m.width) ?_ fun found hf =>
    ofMatches_behaves hm hj.1 hc hf
  refine tripleFault_settles (fun _ => rfl) (Settles.bind
    (Q := fun found => H → ∀ x ∈ found, x.OfWidth m.width) ?_ fun found hf => ?_)
  · refine (store.queryExact_settles t).mono (fun found hfound h => ?_) fun e he =>
      ⟨he.1, fun h => ?_⟩
    · obtain ⟨st, rfl, hst⟩ := hs h
      rw [hfound st rfl]
      exact fun x hx => hst x (List.mem_filter.mp hx).1
    · obtain ⟨st, hst, -⟩ := hs h
      exact he.2 st hst
  · refine (Triple.sort_settles found).mono (fun sorted hp h x hx => ?_) fun e he =>
      ⟨he.1, fun h => ?_⟩
    · exact hf h x (hp.mem_iff.mp hx)
    · exact he.2 m.width (hf h)

theorem findByBasin_settles {d : Dynamics} (pattern : Triple) (hd : H → d.Steady)
    (hc : H → countReg.Known)
    (hs : H → ∃ st, store = .store st ∧ ∀ x ∈ st.triples, x.OfWidth m.width) :
    Settles (findByBasin d store pattern countReg)
      (fun r => (∃ j, RegisterFile.check countReg = .ok j) ∧
        (H → r.2.Steady ∧ ∀ x ∈ r.1, x.OfWidth m.width)) (Error.OrderlyIf H) := by
  refine (RegisterFile.check_settles countReg hc).eqn.bind fun j hj => ?_
  refine tripleFault_settles (fun _ => rfl) ((store.queryWith_settles d pattern).mono ?_ ?_)
  · intro r hr
    refine ⟨⟨j, hj.1⟩, fun h => ?_⟩
    obtain ⟨st, hst, hw⟩ := hs h
    obtain ⟨hmem, hsteady⟩ := hr st hst
    exact ⟨hsteady ⟨hd h, fun x hx => ⟨m.width, hw x hx⟩⟩, fun x hx => hw x (hmem x hx)⟩
  · rintro e ⟨he, hne⟩
    refine ⟨he, fun h => ?_⟩
    obtain ⟨st, hst, hw⟩ := hs h
    exact hne st hst ⟨hd h, fun x hx => ⟨m.width, hw x hx⟩⟩

theorem ofQueryByBasin_behaves {d : Dynamics} (t : Triple) (outAddress : Field Argument)
    (hm : H → m.WellFormed) (hd : H → d.Steady) (hc : H → countReg.Known)
    (hs : H → ∃ st, store = .store st ∧ ∀ x ∈ st.triples, x.OfWidth m.width) :
    Behaves m H (ofQueryByBasin m d store t countReg outAddress).2 ∧
      (H → (ofQueryByBasin m d store t countReg outAddress).1.Steady) := by
  have hp := basinPattern_settles hd t
  unfold ofQueryByBasin
  split
  next e he =>
    have hn := hp.of_error he
    exact ⟨.of_not hn.1 hn.2, fun h => absurd h hn.2⟩
  next pattern d' hok =>
    have hd' : H → d'.Steady := hp.of_ok hok
    have hq := findByBasin_settles pattern hd' hc hs
    split
    next e he => exact ⟨hq.of_error he, hd'⟩
    next found d'' hok =>
      obtain ⟨⟨j, hj⟩, hf⟩ := hq.of_ok hok
      refine ⟨?_, fun h => (hf h).1⟩
      refine ((Triple.sort_settles found).mono (fun _ hs => hs) fun e he => ?_).bind
        fun sorted hp => ?_
      · exact .of_not he.1 fun h => he.2 m.width (hf h).2
      · exact ofMatches_behaves hm hj hc fun h x hx => (hf h).2 x (hp.mem_iff.mp hx)

theorem insert_ofWidth {st : TripleStore} {t : Triple} {w : Nat}
    (hs : ∀ x ∈ st.triples, x.OfWidth w) (ht : t.OfWidth w) :
    ∀ x ∈ (st.insert t).triples, x.OfWidth w := by
  intro x hx
  rcases TripleStore.mem_insert hx with hx | rfl
  · exact hs x hx
  · exact ht

theorem insert_settles {t : Triple}
    (hs : H → ∃ st, store = .store st ∧ ∀ x ∈ st.triples, x.OfWidth m.width)
    (ht : H → t.OfWidth m.width) :
    Settles (tripleFault .insert (store.insert t))
      (fun store' => H → ∃ st, store' = .store st ∧ ∀ x ∈ st.triples, x.OfWidth m.width)
      (Error.OrderlyIf H) := by
  refine tripleFault_settles (fun _ => rfl)
    ((store.insert_settles t).mono (fun store' hst h => ?_) ?_)
  · obtain ⟨st, rfl, hw⟩ := hs h
    exact ⟨st.insert t, hst st rfl, insert_ofWidth hw (ht h)⟩
  · rintro e ⟨he, hne⟩
    refine ⟨he, fun h => ?_⟩
    obtain ⟨st, hst, -⟩ := hs h
    exact hne st hst

theorem operands_of_insert
    (h : (Instruction.triple (.known .insert) subject relation object countReg outAddress).Valid) :
    subject.isNull = false ∧ relation.isNull = false ∧ object.isNull = false := by
  have hd : tripleDefect .insert subject relation object countReg outAddress = none := h.1
  unfold tripleDefect at hd
  dsimp only at hd
  split at hd
  next => cases hd
  next hn =>
    simp only [Bool.or_eq_true, not_or, Bool.not_eq_true] at hn
    exact ⟨hn.1.1, hn.1.2, hn.2⟩

theorem countReg_of_query {action : TripleAction}
    (h : (Instruction.triple (.known action) subject relation object countReg outAddress).Valid)
    (ha : action ≠ .insert) : countReg.Known := by
  have hd : tripleDefect action subject relation object countReg outAddress = none := h.1
  rcases h.2.2.2.2.2.1 with rfl | hk
  · cases action with
    | insert => exact absurd rfl ha
    | queryExact => cases hd
    | queryByBasin => cases hd
  · exact hk

theorem ofTriple_behaves {s : Services} {action : Field TripleAction} (hm : H → m.WellFormed)
    (hv : H → (Instruction.triple action subject relation object countReg outAddress).Valid)
    (hs : H → s.Sound m.width) :
    Behaves m H (ofTriple m s action subject relation object countReg outAddress).2 ∧
      (H → (ofTriple m s action subject relation object countReg outAddress).1.Sound m.width) := by
  have ht := @resolveTriple_settles m subject relation object
  unfold ofTriple
  split
  next => exact ⟨.of_fault rfl, hs⟩
  next store hstore =>
    have hst (h : H) := (hs h).triples store hstore
    split
    next f hf => exact ⟨.of_fault (ht.of_error hf), hs⟩
    next t hok =>
      split
      next =>
        have hw (h : H) : t.OfWidth m.width := by
          intro c hc
          obtain ⟨x, hx, hxw⟩ := ht.of_ok hok (operands_of_insert (hv h)) c hc
          exact ⟨x, hx, hxw (hm h).1⟩
        have hi := insert_settles hst hw
        split
        next e he => exact ⟨hi.of_error he, hs⟩
        next store' hok =>
          refine ⟨behaves_next fun h pc hpc => ?_, fun h => ⟨(hs h).content, ?_, (hs h).dynamics⟩⟩
          · obtain rfl := Option.some.inj hpc
            exact (hm h).2.2.2.succ
          · rintro _ ⟨⟩
            exact hi.of_ok hok h
      next => exact ⟨ofQueryExact_behaves hm (fun h => countReg_of_query (hv h) nofun) hst, hs⟩
      next =>
        split
        next => exact ⟨.of_fault rfl, hs⟩
        next d hd =>
          obtain ⟨hb, hsteady⟩ := ofQueryByBasin_behaves t outAddress hm
            (fun h => (hs h).dynamics d hd) (fun h => countReg_of_query (hv h) nofun) hst
          refine ⟨hb, fun h => ⟨(hs h).content, (hs h).triples, ?_⟩⟩
          rintro _ ⟨⟩
          exact hsteady h
      next => exact ⟨.of_fault rfl, hs⟩
      next => exact ⟨.of_not rfl fun h => Field.not_known_absent (hv h).2.1, hs⟩

/-- The triples change only by an insertion, which then succeeds. -/
theorem ofTriple_cases (s : Services) (action : Field TripleAction) :
    (ofTriple m s action subject relation object countReg outAddress).1.content = s.content ∧
      ((ofTriple m s action subject relation object countReg outAddress).1.triples = s.triples ∨
        ∃ e, (ofTriple m s action subject relation object countReg outAddress).2 = .ok e) := by
  unfold ofTriple
  split
  next => exact ⟨rfl, Or.inl rfl⟩
  next store hstore =>
    split
    next => exact ⟨rfl, Or.inl rfl⟩
    next =>
      split
      next =>
        split
        next => exact ⟨rfl, Or.inl rfl⟩
        next => exact ⟨rfl, Or.inr ⟨_, rfl⟩⟩
      next => exact ⟨rfl, Or.inl rfl⟩
      next =>
        split
        next => exact ⟨rfl, Or.inl rfl⟩
        next => exact ⟨rfl, Or.inl rfl⟩
      next => exact ⟨rfl, Or.inl rfl⟩
      next => exact ⟨rfl, Or.inl rfl⟩

end Triples

/-- A valid instruction on a well-formed machine with sound services has a proper effect or fails
by a fault, and the services stay sound. -/
theorem ofInstruction_behaves (size : Nat) {s : Services} {op : Instruction}
    (hm : H → m.WellFormed) (hv : H → op.Valid) (hs : H → s.Sound m.width) :
    Behaves m H (ofInstruction size m s op).2 ∧
      (H → (ofInstruction size m s op).1.Sound m.width) := by
  cases op with
  | alu opcode dest a b =>
    exact ⟨ofAlu_behaves hm (fun h => (hv h).2.1) (fun h => (hv h).2.2.1) fun h =>
      (hv h).2.2.2.1, hs⟩
  | load dest address => exact ⟨ofLoad_behaves hm (fun h => (hv h).2.1) fun h => (hv h).2.2, hs⟩
  | store src address => exact ⟨ofStore_behaves hm (fun h => (hv h).2.1) fun h => (hv h).2.2, hs⟩
  | loadConst dest v =>
    exact ⟨ofLoadConst_behaves hm (fun h => (hv h).2.1) fun h => (hv h).2.2, hs⟩
  | moveReg dest src => exact ⟨ofMoveReg_behaves hm (fun h => (hv h).2.1) fun h => (hv h).2.2, hs⟩
  | content action d address l =>
    refine ⟨ofContent_behaves hm (fun h => (hv h).2.1) (fun h => (hv h).2.2.1)
      (fun h => (hv h).2.2.2.1)
      (fun h => (hv h).2.2.2.2) hs, fun h => ?_⟩
    change (ofContent m s action d address l).1.Sound m.width
    rcases @ofContent_cases m action d l address s with ⟨he, -⟩ |
      ⟨st, st', chars, key, -, -, -, -, he⟩
    · rw [he]
      exact hs h
    · rw [he]
      refine ⟨?_, (hs h).triples, (hs h).dynamics⟩
      rintro _ ⟨⟩
      exact ⟨st', rfl⟩
  | triple action sub r o count out => exact ofTriple_behaves hm hv hs
  | applyRule rule reg =>
    exact ⟨ofApplyRule_behaves hm (fun h => (hv h).2.1) (fun h => (hv h).2.2) fun h =>
      (hs h).dynamics, hs⟩
  | jumpIf condition target =>
    exact ⟨ofJumpIf_behaves hm (fun h => (hv h).2.1) fun h => (hv h).2.2, hs⟩
  | jump target => exact ⟨ofJump_behaves fun h => (hv h).2, hs⟩
  | halt => exact ⟨behaves_next fun _ _ hpc => (nomatch hpc), hs⟩
  | foreign kind =>
    refine ⟨?_, hs⟩
    unfold ofInstruction
    dsimp only
    split
    · exact .of_not rfl fun h => (hv h).2
    · exact .of_fault rfl

/-- Nothing is asked of the instruction, the machine or the services. -/
theorem ofInstruction_settles (size : Nat) (m : Machine) (s : Services) (op : Instruction) :
    Settles (ofInstruction size m s op).2 (·.Fits m) (·.isOfRun = false) :=
  (@ofInstruction_behaves m False size s op nofun nofun nofun).1.mono (fun _ h => h.1) fun _ h =>
    h.1

/-- An instruction that faults leaves both stores as they were. -/
theorem ofInstruction_stores {size : Nat} {s : Services} {op : Instruction} {f : Fault}
    (h : (ofInstruction size m s op).2 = .error (.fault f)) :
    (ofInstruction size m s op).1.content = s.content ∧
      (ofInstruction size m s op).1.triples = s.triples := by
  cases op with
  | content action d address l =>
    change (ofContent m s action d address l).2 = _ at h
    change (ofContent m s action d address l).1.content = _ ∧
      (ofContent m s action d address l).1.triples = _
    rcases @ofContent_cases m action d l address s with ⟨he, -⟩ |
      ⟨st, st', chars, key, -, -, -, -, he⟩
    · rw [he]
      exact ⟨rfl, rfl⟩
    · rw [he] at h
      cases h
  | triple action sub r o count out =>
    obtain ⟨hc, ht | ⟨e, he⟩⟩ := @ofTriple_cases m sub r o out count s action
    · exact ⟨hc, ht⟩
    · rw [show (ofInstruction size m s (.triple action sub r o count out)).2 = .ok e from he] at h
      cases h
  | _ => exact ⟨rfl, rfl⟩

end Effect
end WordMachine
