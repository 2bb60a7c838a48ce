import Mathlib.Data.List.TakeWhile
import WordMachine.Proofs.Accounting
import WordMachine.Proofs.Sharing
import WordMachine.Proofs.TripleQueries

/-!
Query instructions. A query that is carried out lists exactly the inserted triples that match, each
once and in order, whatever the order of the insertions. A query that fails has written nothing,
with one exception: the words of a match are written one by one, and a word of another width stops
them half way.
-/
namespace WordMachine

structure Query where
  byBasin : Bool
  subject : Field Argument
  relation : Field Argument
  object : Field Argument
  countReg : Field Int
  outAddress : Field Argument

namespace Query

def action (q : Query) : TripleAction := if q.byBasin then .queryByBasin else .queryExact

def instruction (q : Query) : Instruction :=
  .triple (.known q.action) q.subject q.relation q.object q.countReg q.outAddress

def pattern (q : Query) (m : Machine) : Except Fault Triple :=
  Effect.resolveTriple m q.subject q.relation q.object

/-- The triples that match a pattern, each once and in order. -/
structure Lists (same : Word → Word → Prop) (pattern : Triple) (inserted found : List Triple) :
    Prop where
  mem_iff : ∀ t, t ∈ found ↔ t ∈ inserted ∧ pattern.MatchesBy same t
  increasing : found.Pairwise fun a b => Triple.compare a b = .lt

end Query

def Services.Equates (s : Services) (byBasin : Bool) (v u : Word) : Prop :=
  if byBasin then ∃ d, s.dynamics = some d ∧ d.SameBasin v u else v = u

namespace Effect

variable {m : Machine} {s : Services} {st st' : TripleStore} {inserted : List Triple}

theorem ofTriple_insert {subject relation object outAddress : Field Argument}
    {countReg : Field Int} {t : Triple} (hst : s.triples = some (.store st))
    (ht : resolveTriple m subject relation object = .ok t) :
    ofTriple m s (.known .insert) subject relation object countReg outAddress =
      ({ s with triples := some (.store (st.insert t)) }, .ok { next := some m.pc.succ }) := by
  unfold ofTriple
  rw [hst]
  dsimp only
  rw [ht]
  rfl

end Effect

namespace TripleStore

/-- How a triple comes into a store: it is inserted directly, or by a machine that uses the
store. -/
inductive Gains (s : TripleStore) (t : Triple) : TripleStore → Prop
  | direct : Gains s t (s.insert t)
  | step {p : Program} {e e' : Engine} {op : Instruction}
    {subject relation object outAddress : Field Argument}
      {countReg : Field Int} {s' : TripleStore} (store : e.services.triples = some (.store s))
      (instruction : Engine.fetch p e.machine.pc =
        .ok (.triple (.known .insert) subject relation object countReg outAddress))
      (operands : Effect.resolveTriple e.machine subject relation object = .ok t)
      (done : e.step p = (e', .next op)) (after : e'.services.triples = some (.store s')) :
        Gains s t s'

/-- The store has been filled with the triples of a list, one after another. Its own dynamics may
change at any time. -/
inductive Filled : TripleStore → List Triple → Prop
  | empty (own : Option Dynamics) : Filled (.empty own) []
  | gain {s s' : TripleStore} {ts : List Triple} {t : Triple} (filled : Filled s ts)
    (gains : s.Gains t s') :
      Filled s' (ts ++ [t])
  | turn {s : TripleStore} {ts : List Triple} (filled : Filled s ts) (own : Option Dynamics) :
      Filled { s with dynamics := own } ts

variable {s s' : TripleStore} {t : Triple} {ts ts' : List Triple}

/-- An insertion by an instruction is a direct one. -/
theorem Gains.eq_insert (h : s.Gains t s') : s' = s.insert t := by
  cases h with
  | direct => rfl
  | @step p e e' op subject relation object outAddress countReg _ store instruction operands done
    after =>
    rw [Engine.step_of_fetch instruction] at done
    have hservices := Engine.execute_services p.size
      (.triple (.known .insert) subject relation object countReg outAddress) e.beginStep
    have hinsert :
        Effect.ofTriple e.beginStep.machine e.services (.known .insert) subject relation object
      countReg outAddress = _ := Effect.ofTriple_insert store operands
    rw [done] at hservices
    change e'.services =
      (Effect.ofTriple e.beginStep.machine e.services (.known .insert) subject relation
      object countReg outAddress).1 at hservices
    rw [hservices, hinsert] at after
    cases after
    rfl

theorem Filled.nodup (h : s.Filled ts) : s.triples.Nodup := by
  induction h with
  | empty own => exact .nil
  | gain filled gains ih =>
    rw [gains.eq_insert]
    exact nodup_insert ih
  | turn filled own ih => exact ih

theorem Filled.mem_iff (h : s.Filled ts) : t ∈ s.triples ↔ t ∈ ts := by
  induction h with
  | empty own => exact Iff.rfl
  | gain filled gains ih =>
    rw [gains.eq_insert, mem_insert_iff, ih, List.mem_append, List.mem_singleton]
  | turn filled own ih => exact ih

/-- The order of the insertions and their repetitions do not count. -/
theorem Filled.perm (h : s.Filled ts) (h' : s'.Filled ts') (hts : ∀ t, t ∈ ts' ↔ t ∈ ts) :
    s.triples.Perm s'.triples := by
  rw [List.perm_ext_iff_of_nodup h.nodup h'.nodup]
  intro t
  rw [h.mem_iff, h'.mem_iff, hts]

end TripleStore

namespace Effect

variable {m : Machine} {s : Services} {st st' : TripleStore} {inserted : List Triple} {r : Rule}
  {d : Dynamics}

theorem tripleFault_eq_ok {α : Type} {x : Except Error α} {f : StoreError → Fault} {a : α}
    (h : tripleFault f x = .ok a) : x = .ok a := by
  cases x with
  | ok b => exact h
  | error e =>
    unfold tripleFault at h
    split at h
    · split at h <;> cases h
    · cases h

theorem tripleFault_value {α : Type} {x : Except Error α} {Q : α → Prop} {f : StoreError → Fault}
    (h : Settles x Q fun _ => True) : Settles (tripleFault f x) Q fun _ => True :=
  (Settles.self _).imp fun _ hok => h.of_ok (tripleFault_eq_ok hok)

theorem basinOptional_exact (h : d.Faithful r) (x : Option Word) :
    Settles (basinOptional d x) (fun out => d.Alike r out.2 ∧ ∀ there,
      Triple.Answers (fun b u => r.basin u = .ok b) out.1 there ↔
        Triple.Answers (fun v u => ∃ b, r.basin v = .ok b ∧ r.basin u = .ok b) x there) fun _ =>
          True := by
  cases x with
  | none =>
    exact ⟨h.alike_self, fun there =>
      iff_of_true (Triple.answers_none _ _) (Triple.answers_none _ _)⟩
  | some x =>
    refine (h.basinId_settles x).bind fun out hout => .pure ⟨hout.2, fun there => ?_⟩
    unfold Triple.Answers
    simp [hout.1]

/-- The basins of a pattern are asked for just where the words of the pattern are. -/
theorem basinPattern_exact (h : d.Faithful r) (t : Triple) :
    Settles (basinPattern d t) (fun out => d.Alike r out.2 ∧ ∀ u,
      out.1.MatchesBy (fun b u => r.basin u = .ok b) u ↔
        t.MatchesBy (fun v u => ∃ b, r.basin v = .ok b ∧ r.basin u = .ok b) u) fun _ => True := by
  refine (basinOptional_exact h t.subject).bind fun a ha => ?_
  refine (basinOptional_exact ha.1.right t.relation).bind fun b hb => ?_
  refine (basinOptional_exact hb.1.right t.object).bind fun c hc => .pure ?_
  refine ⟨(ha.1.trans hb.1).trans hc.1, fun u => ?_⟩
  exact and_congr (ha.2 _) (and_congr (hb.2 _) (hc.2 _))

section Found
variable {pattern : Triple} {countReg : Field Int} {outAddress : Field Argument}

/-- Matches that are all of a list, put in order. -/
theorem lists_of_sort {same : Word → Word → Prop} {ts found : List Triple} (hn : ts.Nodup)
    (hts : ∀ t, t ∈ ts ↔ t ∈ inserted ∧ pattern.MatchesBy same t)
    (h : Triple.sort ts = .ok found) :
    Query.Lists same pattern inserted found := by
  obtain ⟨hperm, hinc⟩ := Triple.sort_increasing h hn
  refine ⟨fun t => ?_, hinc⟩
  rw [hperm.mem_iff, hts]

theorem ofQueryExact_lists (hf : st.Filled inserted) :
    Settles (ofQueryExact m (.store st) pattern countReg outAddress) (fun effect => ∃ found j,
      Query.Lists Eq pattern inserted found ∧ RegisterFile.check countReg = .ok j ∧
        ofMatches m countReg found outAddress = .ok effect) fun _ => True := by
  refine (Settles.self _).bind fun j hj => ?_
  refine (tripleFault_value (Settles.self (Triple.sort (st.queryExact pattern)))).bind
    fun found hfound => ?_
  refine (Settles.self _).imp fun effect he => ⟨found, j, ?_, hj, he⟩
  apply lists_of_sort (hf.nodup.filter _) _ hfound
  intro t
  rw [List.mem_filter, Triple.isMatch_iff, hf.mem_iff]

theorem findByBasin_exact (hd : d.Faithful r) (hf : st.Filled inserted)
    (hw : ∀ t ∈ inserted, t.Whole) :
    Settles (findByBasin d (.store st) pattern countReg)
      (fun out => (∃ j, RegisterFile.check countReg = .ok j) ∧
      out.1.Nodup ∧ ∀ t, t ∈ out.1 ↔
        t ∈ inserted ∧ pattern.MatchesBy (fun b u => r.basin u = .ok b) t) fun _ => True := by
  refine (Settles.self _).bind fun j hj => ?_
  have hwhole : ∀ t ∈ st.triples, t.Whole := fun t ht => hw t (hf.mem_iff.mp ht)
  refine tripleFault_value ((Triple.selectByBasin_exact hd pattern hwhole).imp fun out hout => ?_)
  obtain ⟨-, hsub, hmem⟩ := hout
  refine ⟨⟨j, hj⟩, hf.nodup.sublist hsub, fun t => ?_⟩
  rw [hmem, hf.mem_iff]

theorem ofQueryByBasin_lists (hd : d.Faithful r) (hf : st.Filled inserted)
    (hw : ∀ t ∈ inserted, t.Whole) :
    Settles (ofQueryByBasin m d (.store st) pattern countReg outAddress).2
      (fun effect => ∃ found j,
      Query.Lists d.SameBasin pattern inserted found ∧ RegisterFile.check countReg = .ok j ∧
        ofMatches m countReg found outAddress = .ok effect) fun _ => True := by
  have hsame : d.SameBasin = fun v u => ∃ b, r.basin v = .ok b ∧ r.basin u = .ok b := by
    funext v u
    exact propext hd.sameBasin_iff
  unfold ofQueryByBasin
  split
  next => trivial
  next basins d₁ hbasins =>
    obtain ⟨hd₁, hiff⟩ := (basinPattern_exact hd pattern).of_ok hbasins
    split
    next => trivial
    next ts d₂ hts =>
      obtain ⟨⟨j, hj⟩, hn, hmem⟩ := (findByBasin_exact hd₁.right hf hw).of_ok hts
      refine (Settles.self (Triple.sort ts)).bind fun found hfound => ?_
      refine (Settles.self _).imp fun effect he => ⟨found, j, ?_, hj, he⟩
      apply lists_of_sort hn _ hfound
      intro t
      rw [hmem, hiff, hsame]

/-- A query resolves its operands, and then asks the store. -/
theorem ofInstruction_byWord (size : Nat) {q : Query} (hq : q.byBasin = false)
    (hst : s.triples = some (.store st)) :
    (ofInstruction size m s q.instruction).2 = (do
      let pattern ← q.pattern m
      ofQueryExact m (.store st) pattern q.countReg q.outAddress) := by
  have hi : q.instruction = .triple (.known .queryExact) q.subject q.relation q.object q.countReg
      q.outAddress := by
    simp [Query.instruction, Query.action, hq]
  rw [hi]
  simp only [ofInstruction, ofTriple, hst, Query.pattern]
  cases resolveTriple m q.subject q.relation q.object with
  | ok pattern => rfl
  | error f => rfl

theorem ofInstruction_byBasin (size : Nat) {q : Query} (hq : q.byBasin = true)
    (hst : s.triples = some (.store st)) :
    (ofInstruction size m s q.instruction).2 = (do
      let pattern ← q.pattern m
      s.dynamics.elim (raise .noBasins) fun d =>
        (ofQueryByBasin m d (.store st) pattern q.countReg q.outAddress).2) := by
  have hi : q.instruction = .triple (.known .queryByBasin) q.subject q.relation q.object q.countReg
      q.outAddress := by
    simp [Query.instruction, Query.action, hq]
  rw [hi]
  simp only [ofInstruction, ofTriple, hst, Query.pattern]
  cases resolveTriple m q.subject q.relation q.object with
  | ok pattern => cases s.dynamics <;> rfl
  | error f => rfl

/-- A query that has an effect has listed the matches. -/
theorem ofInstruction_lists (size : Nat) (q : Query) (hst : s.triples = some (.store st))
    (hf : st.Filled inserted) (hw : ∀ t ∈ inserted, t.Whole)
    (hd : ∀ d, s.dynamics = some d → d.Reachable) :
    Settles (ofInstruction size m s q.instruction).2 (fun effect => ∃ pattern found j,
      q.pattern m = .ok pattern ∧ Query.Lists (s.Equates q.byBasin) pattern inserted found ∧
      RegisterFile.check q.countReg = .ok j ∧ ofMatches m q.countReg found q.outAddress =
        .ok effect)
      fun _ => True := by
  cases hq : q.byBasin with
  | false =>
    rw [ofInstruction_byWord size hq hst]
    refine (Settles.lift (Settles.self _)).bind fun pattern hpattern => ?_
    refine (ofQueryExact_lists hf).imp ?_
    rintro effect ⟨found, j, hfound, hj, he⟩
    exact ⟨pattern, found, j, hpattern, hfound, hj, he⟩
  | true =>
    rw [ofInstruction_byBasin size hq hst]
    refine (Settles.lift (Settles.self _)).bind fun pattern hpattern => ?_
    cases hdyn : s.dynamics with
    | none => trivial
    | some d =>
      have hequates : s.Equates true = d.SameBasin := by
        funext v u
        simp [Services.Equates, hdyn]
      refine (ofQueryByBasin_lists (hd d hdyn).faithful hf hw).imp ?_
      rintro effect ⟨found, j, hfound, hj, he⟩
      exact ⟨pattern, found, j, hpattern, hequates ▸ hfound, hj, he⟩

end Found

section Order
variable {pattern : Triple} {countReg : Field Int} {outAddress : Field Argument}

theorem ofQueryExact_perm (hp : st.triples.Perm st'.triples) :
    ofQueryExact m (.store st') pattern countReg outAddress =
      ofQueryExact m (.store st) pattern countReg outAddress := by
  have hsort : Triple.sort (st'.queryExact pattern) = Triple.sort (st.queryExact pattern) :=
    Triple.sort_perm (hp.filter _)
  unfold ofQueryExact TripleService.queryExact
  simp only [ok_bind, hsort]

theorem findByBasin_perm (hd : d.Faithful r) (hf : st.Filled inserted)
    (hw : ∀ t ∈ inserted, t.Whole) (hp : st.triples.Perm st'.triples)
    {out : List Triple × Dynamics} (h : findByBasin d (.store st) pattern countReg = .ok out) :
    ∃ out', findByBasin d (.store st') pattern countReg = .ok out' ∧ out.1.Perm out'.1 := by
  unfold findByBasin at h ⊢
  cases hj : RegisterFile.check countReg with
  | error e =>
    rw [hj] at h
    cases h
  | ok j =>
    rw [hj] at h
    obtain ⟨out', hok, hperm⟩ :=
      Triple.selectByBasin_perm hd (fun t ht => hw t (hf.mem_iff.mp ht)) hf.nodup hp
      (tripleFault_eq_ok h)
    refine ⟨out', ?_, hperm⟩
    change tripleFault .query (Triple.selectByBasin d pattern st'.triples) = _
    rw [hok]
    rfl

theorem ofQueryByBasin_perm (hd : d.Faithful r) (hf : st.Filled inserted)
    (hw : ∀ t ∈ inserted, t.Whole) (hp : st.triples.Perm st'.triples) {effect : Effect}
    (h : (ofQueryByBasin m d (.store st) pattern countReg outAddress).2 = .ok effect) :
    (ofQueryByBasin m d (.store st') pattern countReg outAddress).2 = .ok effect := by
  unfold ofQueryByBasin at h ⊢
  split at h
  next => cases h
  next basins d₁ hbasins =>
    split at h
    next => cases h
    next ts d₂ hts =>
      have hd₁ := ((basinPattern_exact hd pattern).of_ok hbasins).1.right
      obtain ⟨⟨ts', d₂'⟩, hts', hperm⟩ := findByBasin_perm hd₁ hf hw hp hts
      dsimp only at h ⊢
      rw [hts']
      dsimp only
      rw [Triple.sort_perm hperm]
      exact h

/-- A query that has an effect has the same with every store of the same triples. -/
theorem ofInstruction_perm {size : Nat} {q : Query} (hst : s.triples = some (.store st))
    (hf : st.Filled inserted) (hw : ∀ t ∈ inserted, t.Whole)
    (hd : ∀ d, s.dynamics = some d → d.Reachable) (hp : st.triples.Perm st'.triples)
    {effect : Effect} (h : (ofInstruction size m s q.instruction).2 = .ok effect) :
    (ofInstruction size m { s with triples := some (.store st') } q.instruction).2 =
      .ok effect := by
  cases hq : q.byBasin with
  | false =>
    rw [ofInstruction_byWord size hq hst] at h
    rw [ofInstruction_byWord size hq rfl]
    simp only [ofQueryExact_perm hp]
    exact h
  | true =>
    rw [ofInstruction_byBasin size hq hst] at h
    rw [ofInstruction_byBasin size hq rfl]
    cases hpattern : q.pattern m with
    | error f =>
      rw [hpattern] at h
      cases h
    | ok pattern =>
      rw [hpattern] at h
      rw [lift_ok, ok_bind] at h ⊢
      cases hdyn : s.dynamics with
      | none =>
        rw [hdyn] at h
        cases h
      | some d =>
        rw [hdyn] at h
        exact ofQueryByBasin_perm (hd d hdyn).faithful hf hw hp h

end Order

/-- Where the matches of a query go: nowhere, or to the cells from the resolved address on. -/
def OutCells (m : Machine) (outAddress : Field Argument) (found : List Triple)
    (cells : Nat × List Word) : Prop :=
  outAddress = .null ∧ cells = (0, []) ∨
    outAddress ≠ .null ∧ m.resolveAddress outAddress = .ok cells.1 ∧
      cells.2 = found.flatMap Triple.words ∧ cells.1 + 3 * found.length ≤ m.memory.size

theorem ofMatches_cells {countReg : Field Int} {outAddress : Field Argument} {found : List Triple}
    (hw : ∀ t ∈ found, t.Whole) :
    Settles (ofMatches m countReg found outAddress) (fun effect => ∃ count cells,
      effect = { next := some m.pc.succ, register := some (countReg, count), cells } ∧
      count.width = m.width ∧ count.value = found.length ∧ OutCells m outAddress found cells)
      fun _ => True := by
  have hcount :
      Settles (countWord m found.length) (fun v => v.width = m.width ∧ v.value = found.length)
      fun _ => True :=
    (@countWord_settles m False nofun found.length).mono (fun _ h => h) fun _ _ => trivial
  refine hcount.bind fun count hcount => ?_
  split
  next => exact .pure ⟨count, (0, []), rfl, hcount.1, hcount.2, Or.inl ⟨rfl, rfl⟩⟩
  next address hnull =>
    refine (Settles.lift (Settles.self _)).bind fun base hbase => ?_
    rw [Triple.flatMap_components hw]
    refine Settles.bind (Q := fun _ => base + 3 * found.length ≤ m.memory.size) ?_ fun _ hroom =>
      .pure ?_
    · refine Settles.lift ((m.memory.check_settles _ _).mono ?_ fun _ _ => trivial)
      rintro _ ⟨-, hb⟩
      rw [List.length_map, Triple.length_flatMap_words hw] at hb
      omega
    · have htake : ((found.flatMap Triple.words).map some).takeWhile Option.isSome =
          (found.flatMap Triple.words).map some := by
        rw [List.takeWhile_eq_self_iff]
        intro c hc
        obtain ⟨v, -, rfl⟩ := List.mem_map.mp hc
        rfl
      refine ⟨count, (base, found.flatMap Triple.words), ?_, hcount.1, hcount.2,
        Or.inr ⟨hnull, hbase, rfl, hroom⟩⟩
      rw [htake]
      simp

end Effect

theorem Query.Lists.whole {same : Word → Word → Prop} {pattern : Triple}
    {inserted found : List Triple} (h : Query.Lists same pattern inserted found)
    (hw : ∀ t ∈ inserted, t.Whole) : ∀ t ∈ found, t.Whole :=
  fun t ht => hw t ((h.mem_iff t).mp ht).1

namespace Engine

variable {p : Program} {e e' : Engine} {q : Query} {st : TripleStore} {inserted : List Triple}
  {w : Nat} {op : Instruction}

/-- The number of the matches has gone to its register and their words to the cells from the base
on. -/
def WritesAll (q : Query) (found : List Triple) (base : Nat) (m m' : Machine) : Prop :=
  ∃ count registers memory, count.value = found.length ∧
    m.registers.set q.countReg count = .ok registers ∧
    m.memory.Overlaid base (found.flatMap Triple.words) memory ∧
    m' = { m with registers, memory, pc := m.pc.succ, tick := m.tick + 1 }

/-- Some words have gone to the cells from the base on, and nothing else has changed but the
tick. -/
def WritesOnly (words : List Word) (base : Nat) (m m' : Machine) : Prop :=
  ∃ memory, m.memory.Overlaid base words memory ∧ m' = { m with memory, tick := m.tick + 1 }

theorem countReg_known (hq : q.instruction.Valid) : q.countReg.Known := by
  have haction : q.action ≠ .insert := by
    unfold Query.action
    split <;> exact fun h => nomatch h
  exact Effect.countReg_of_query hq haction

/-- A query that is to write its matches to memory writes all or nothing, unless a match holds a
word of another width than the machine's. Then the words before the first such word are written,
and no more. -/
theorem step_query_writes (hm : e.machine.WellFormed) (hst : e.services.triples = some (.store st))
    (hf : st.Filled inserted) (hw : ∀ t ∈ inserted, t.Whole)
    (hd : ∀ d, e.services.dynamics = some d → d.Reachable)
    (hop : fetch p e.machine.pc = .ok q.instruction) (hq : q.instruction.Valid)
    (hout : q.outAddress ≠ .null) :
    (∃ err, (e.step p).2 = .ofError err ∧
        (e.step p).1.machine = { e.machine with tick := e.machine.tick + 1 }) ∨
      ∃ pattern found base, q.pattern e.machine = .ok pattern ∧
        Query.Lists (e.services.Equates q.byBasin) pattern inserted found ∧
        e.machine.resolveAddress q.outAddress = .ok base ∧
        (found.flatMap Triple.words).length = 3 * found.length ∧
        base + 3 * found.length ≤ e.machine.memory.size ∧
        ((∀ v ∈ found.flatMap Triple.words, v.width = e.machine.width) ∧
            (e.step p).2 = .next q.instruction ∧
            WritesAll q found base e.machine (e.step p).1.machine ∨
          ∃ before v after, found.flatMap Triple.words = before ++ v :: after ∧
            (∀ x ∈ before, x.width = e.machine.width) ∧ v.width ≠ e.machine.width ∧
            (e.step p).2 = .crash (.cellWidth v e.machine.width) ∧
            WritesOnly before base e.machine (e.step p).1.machine) := by
  rw [step_of_fetch hop]
  cases hres :
    Effect.ofInstruction p.size e.beginStep.machine e.beginStep.services q.instruction with
  | mk services result =>
    cases result with
    | error err =>
      left
      rw [execute_failed hres]
      exact ⟨err, rfl, rfl⟩
    | ok effect =>
      right
      have hlisted := Effect.ofInstruction_lists (m := e.beginStep.machine) p.size q hst hf hw hd
      obtain ⟨pattern, found, j, hpattern, hlists, hj, hmatches⟩ :=
        hlisted.of_ok (congrArg Prod.snd hres)
      have hfound := hlists.whole hw
      have hlen := Triple.length_flatMap_words hfound
      obtain ⟨count, ⟨base, words⟩, rfl, hwidth, hcount, hcells⟩ :=
        (Effect.ofMatches_cells hfound).of_ok hmatches
      rcases hcells with ⟨hnull, -⟩ | ⟨-, hbase, rfl, hroom⟩
      · exact absurd hnull hout
      refine ⟨pattern, found, base, hpattern, hlists, hbase, hlen, hroom, ?_⟩
      obtain ⟨j, rfl⟩ :=
        (RegisterFile.check_settles q.countReg fun _ => countReg_known hq).of_ok hj trivial
      have hregister := RegisterFile.set_of_check (r := e.machine.registers) hj hwidth
      rw [← hlen] at hroom
      let effect : Effect :=
        { next := some e.machine.pc.succ
          register := some (q.countReg, count)
          cells := (base, found.flatMap Triple.words) }
      rcases Effect.commit_cells (e := effect) (m := e.beginStep.machine) hm.2.2.1 hroom rfl
          hregister with
        ⟨hwords, memory, hover, hcommit⟩ |
          ⟨before, v, after, memory, hsplit, hbefore, hv, hover, hcommit⟩
      · left
        rw [execute_eq hres hcommit]
        exact ⟨hwords, rfl, count, _, memory, hcount, hregister, hover, rfl⟩
      · right
        rw [execute_refused hres hcommit]
        exact ⟨before, v, after, hsplit, hbefore, hv, rfl, memory, hover, rfl⟩

/-- Of two triples one is found, and it ends with a word of eight bits. A machine of four bits
writes its other words. -/
theorem step_query_writes_mixed :
    let word (v : Fin 16) : Word := ⟨4, v, by decide, v.isLt⟩
    let t : Triple := ⟨some (word 5), some (word 6), some ⟨8, 7, by decide, by decide⟩⟩
    let u : Triple := ⟨some (word 1), some (word 2), some (word 3)⟩
    let st : TripleStore := ((TripleStore.empty none).insert t).insert u
    let q : Query := ⟨false, .known (.imm (word 5)), .null, .null, .known 1, .known (.absolute 0)⟩
    let e : Engine :=
      ⟨⟨⟨4, Vector.replicate 4 (word 0)⟩, {}, ⟨4, Array.replicate 8 (word 0)⟩, .known 0, 0⟩,
      { triples := some (.store st) }, 0⟩
    let p : Program := ⟨"main", #[q.instruction]⟩
    e.machine.WellFormed ∧ st.Filled [t, u] ∧ q.instruction.Valid ∧
      ∃ (found : List Triple) (base : Nat) (before : List Word) (v : Word) (after : List Word),
        Query.Lists Eq ⟨some (word 5), none, none⟩ [t, u] found ∧
        found.flatMap Triple.words = before ++ v :: after ∧ v.width ≠ 4 ∧
        (e.step p).2 = .crash (.cellWidth v 4) ∧
        WritesOnly before base e.machine (e.step p).1.machine := by
  intro word t u st q e p
  have hwell : e.machine.WellFormed := by
    refine ⟨fun i => ?_, fun v hv => ?_, rfl, 0, rfl⟩
    · simp [e, word]
    · obtain ⟨-, rfl⟩ := Array.mem_replicate.mp hv
      rfl
  have hfilled : st.Filled [t, u] := ((TripleStore.Filled.empty none).gain .direct).gain .direct
  have hvalid : q.instruction.Valid :=
    ⟨rfl, ⟨_, rfl⟩, Or.inr ⟨.imm (word 5), rfl, rfl⟩, Or.inl rfl, Or.inl rfl, Or.inr ⟨1, rfl⟩,
      Or.inr ⟨.absolute 0, rfl, rfl⟩⟩
  have hwhole : ∀ x ∈ [t, u], x.Whole := by
    simp [Triple.Whole, Triple.components, t, u]
  have hsignal : (e.step p).2 = .crash (.cellWidth ⟨8, 7, by decide, by decide⟩ 4) := by
    with_unfolding_all rfl
  have hcell : (e.step p).1.machine.memory.cells[0]? = some (word 5) := by decide +kernel
  have hfetch : fetch p e.machine.pc = .ok q.instruction := rfl
  have hdynamics (d : Dynamics) (h : e.services.dynamics = some d) : d.Reachable := by cases h
  have hout : q.outAddress ≠ .null := by
    intro h
    cases h
  refine ⟨hwell, hfilled, hvalid, ?_⟩
  rcases step_query_writes hwell rfl hfilled hwhole hdynamics hfetch hvalid hout with
    ⟨err, -, hmachine⟩ | ⟨pattern, found, base, hpattern, hlists, -, -, -, ⟨-, hnext, -⟩ |
      ⟨before, v, after, hsplit, -, hv, hcrash, hwrites⟩⟩
  · rw [hmachine] at hcell
    exact absurd (show some (word 0) = some (word 5) from hcell) (by decide)
  · rw [hsignal] at hnext
    cases hnext
  · cases hpattern
    exact ⟨found, base, before, v, after, hlists, hsplit, hv, hcrash, hwrites⟩

/-- A query that fails for the width of a word has changed the memory. -/
theorem query_torn_by_width :
    let word (v : Fin 16) : Word := ⟨4, v, by decide, v.isLt⟩
    let wide : Word := ⟨8, 7, by decide, by decide⟩
    let t : Triple := ⟨some (word 5), some (word 6), some wide⟩
    let st : TripleStore := (TripleStore.empty none).insert t
    let q : Query := ⟨false, .null, .null, .null, .known 0, .known (.absolute 0)⟩
    let m : Machine :=
      ⟨⟨4, Vector.replicate 4 (word 0)⟩, {}, ⟨4, Array.replicate 8 (word 0)⟩, .known 0, 0⟩
    m.WellFormed ∧ st.Filled [t] ∧ t.Whole ∧ q.instruction.Valid ∧
      ∃ e', step ⟨"main", #[q.instruction]⟩ ⟨m, { triples := some (.store st) }, 0⟩ =
          (e', .crash (.cellWidth wide 4)) ∧
        e'.machine.memory.nonzero = [(0, 5), (1, 6)] ∧ m.memory.nonzero = [] := by
  intro word wide t st q m
  refine ⟨⟨fun i => ?_, fun v hv => ?_, rfl, 0, rfl⟩, (TripleStore.Filled.empty none).gain .direct,
    ?_, ?_, ?_⟩
  · simp [m, word]
  · obtain ⟨-, rfl⟩ := Array.mem_replicate.mp hv
    rfl
  · simp [Triple.Whole, Triple.components, t]
  · exact ⟨rfl, ⟨_, rfl⟩, Or.inl rfl, Or.inl rfl, Or.inl rfl, Or.inr ⟨0, rfl⟩,
      Or.inr ⟨.absolute 0, rfl, rfl⟩⟩
  · refine ⟨_, Prod.ext rfl ?_, ?_, ?_⟩
    · with_unfolding_all rfl
    · decide +kernel
    · decide +kernel

/-- A query that is carried out has listed exactly the inserted triples that match, each once and
in lexicographic order, from the address on that was resolved before the count was written. It does
the same with every other store of the same triples. -/
theorem step_query_exact (hst : e.services.triples = some (.store st)) (hf : st.Filled inserted)
    (hw : ∀ t ∈ inserted, t.OfWidth w) (hd : ∀ d, e.services.dynamics = some d → d.Reachable)
    (hop : fetch p e.machine.pc = .ok q.instruction) (h : e.step p = (e', .next op)) :
    (∃ (pattern : Triple) (found : List Triple) (count : Word), q.pattern e.machine = .ok pattern ∧
      (∀ t, t ∈ found ↔ t ∈ inserted ∧ pattern.MatchesBy (e.services.Equates q.byBasin) t) ∧
      found.Pairwise (fun a b => a.values < b.values) ∧
      e'.machine.registers.get q.countReg = .ok count ∧ count.value = found.length ∧
      (q.outAddress = .null → e'.machine.memory = e.machine.memory) ∧
      (q.outAddress ≠ .null → ∃ base, e.machine.resolveAddress q.outAddress = .ok base ∧
        (found.flatMap Triple.words).length = 3 * found.length ∧
        base + 3 * found.length ≤ e.machine.memory.size ∧
        e.machine.memory.Overlaid base (found.flatMap Triple.words) e'.machine.memory)) ∧
    ∀ st' inserted', st'.Filled inserted' → (∀ t, t ∈ inserted' ↔ t ∈ inserted) →
      ∃ e'', step p { e with services := { e.services with triples := some (.store st') } } =
        (e'', .next op) ∧
        e''.machine = e'.machine := by
  have hwhole : ∀ t ∈ inserted, t.Whole := fun t ht => (hw t ht).whole
  obtain ⟨op', effect, hop', hok, hc, -, hsignal⟩ := step_done h (Or.inr ⟨op, rfl⟩)
  obtain rfl := Except.ok.inj (hop.symm.trans hop')
  refine ⟨?_, fun st' inserted' hf' hsame => ?_⟩
  · obtain ⟨pattern, found, j, hpattern, hlists, -, hmatches⟩ :=
      (Effect.ofInstruction_lists p.size q hst hf hwhole hd).of_ok hok
    have hfound := hlists.whole hwhole
    obtain ⟨count, cells, rfl, -, hcount, hcells⟩ := (Effect.ofMatches_cells hfound).of_ok hmatches
    obtain ⟨registers, memory, hwrite, hregister, hm⟩ := Effect.commit_done hc
    have hmemory : e'.machine.memory = memory := congrArg Machine.memory hm
    have hregisters : e'.machine.registers = registers := congrArg Machine.registers hm
    refine ⟨pattern, found, count, hpattern, hlists.mem_iff, ?_, ?_, hcount, ?_, ?_⟩
    · refine hlists.increasing.imp_of_mem fun ha hb hab => ?_
      exact Triple.values_lt (hw _ ((hlists.mem_iff _).mp ha).1)
        (hw _ ((hlists.mem_iff _).mp hb).1) hab
    · rw [hregisters]
      exact RegisterFile.get_of_set hregister
    · intro hnull
      rcases hcells with ⟨-, rfl⟩ | ⟨hne, -⟩
      · rw [Memory.writeSpan_eq_writeAll _ (Nat.zero_le _)] at hwrite
        exact hmemory.trans (congrArg Prod.fst hwrite).symm
      · exact absurd hnull hne
    · intro hout
      rcases hcells with ⟨hnull, -⟩ | ⟨-, hbase, hwords, hroom⟩
      · exact absurd hnull hout
      have hlen := Triple.length_flatMap_words hfound
      rw [hmemory, ← hwords]
      refine ⟨cells.1, hbase, hwords ▸ hlen, hroom, ?_⟩
      apply Memory.overlaid_of_writeSpan _ hwrite
      rw [hwords, hlen]
      exact hroom
  · have hok' := Effect.ofInstruction_perm hst hf hwhole hd (hf.perm hf' hsame) hok
    let other : Engine := { e with services := { e.services with triples := some (.store st') } }
    have hres : Effect.ofInstruction p.size other.beginStep.machine other.beginStep.services
        q.instruction = (_, .ok effect) := Prod.ext rfl hok'
    have hfetch : fetch p other.machine.pc = .ok q.instruction := hop
    have hstep := (step_of_fetch hfetch).trans (execute_eq hres hc)
    rw [← hsignal] at hstep
    exact ⟨_, hstep, rfl⟩

/-- Of three triples, one of them inserted twice, two are found. The address is taken from the
register that the count goes to. -/
theorem step_query_exact_shuffled :
    let word (v : Fin 16) : Word := ⟨4, v, by decide, v.isLt⟩
    let a : Triple := ⟨some (word 1), some (word 2), some (word 3)⟩
    let b : Triple := ⟨some (word 1), some (word 2), some (word 4)⟩
    let c : Triple := ⟨some (word 5), some (word 2), some (word 4)⟩
    let q : Query := ⟨false, .known (.imm (word 1)), .null, .null, .known 0, .known (.indirect 0)⟩
    let st : TripleStore := ((((TripleStore.empty none).insert b).insert c).insert b).insert a
    let e : Engine :=
      ⟨⟨⟨4, Vector.replicate 4 (word 2)⟩, {}, ⟨4, Array.replicate 8 (word 0)⟩, .known 0, 0⟩,
      { triples := some (.store st) }, 0⟩
    let p : Program := ⟨"main", #[q.instruction]⟩
    st.Filled [b, c, b, a] ∧ ∃ e', e.step p = (e', .next q.instruction) ∧
      ∃ (found : List Triple) (count : Word),
        (∀ t, t ∈ found ↔ t ∈ [b, c, b, a] ∧
          (⟨some (word 1), none, none⟩ : Triple).MatchesBy Eq t) ∧
        found.Pairwise (fun a b => a.values < b.values) ∧
        e'.machine.registers.get (.known 0) = .ok count ∧ count.value = found.length ∧
        e.machine.memory.Overlaid 2 (found.flatMap Triple.words) e'.machine.memory := by
  intro word a b c q st e p
  have hfilled : st.Filled [b, c, b, a] :=
    ((((TripleStore.Filled.empty none).gain .direct).gain .direct).gain .direct).gain .direct
  have hwidth : ∀ t ∈ [b, c, b, a], t.OfWidth 4 := by
    simp [Triple.OfWidth, Triple.components, a, b, c, word]
  have hfetch : fetch p e.machine.pc = .ok q.instruction := rfl
  have hsort : Triple.sort [b, a] = .ok [a, b] := by
    rw [Triple.sort_perm (List.Perm.swap b a []), Triple.sort,
      List.mergeSort_of_pairwise (by decide)]
    rfl
  have hres : Effect.ofInstruction p.size e.beginStep.machine e.services q.instruction =
      (e.services, .ok ⟨some (.known 1), some (.known 0, word 2), none,
        (2, [a, b].flatMap Triple.words), false⟩) := by
    refine Prod.ext rfl ((Effect.ofInstruction_byWord p.size rfl rfl).trans ?_)
    change Effect.tripleFault .query (Triple.sort [b, a]) >>= _ = _
    rw [hsort]
    rfl
  have hstep := (step_of_fetch hfetch).trans (execute_eq hres (by with_unfolding_all rfl))
  have hdynamics (d : Dynamics) (h : e.services.dynamics = some d) : d.Reachable := by cases h
  obtain ⟨⟨pattern, found, count, hpattern, hmem, hinc, hget, hcount, -, hout⟩, -⟩ :=
    step_query_exact rfl hfilled hwidth hdynamics hfetch hstep
  have hnull : q.outAddress ≠ .null := by
    intro h
    cases h
  obtain ⟨base, hbase, -, -, hover⟩ := hout hnull
  cases hpattern
  cases hbase
  exact ⟨hfilled, _, hstep, found, count, hmem, hinc, hget, hcount, hover⟩

end Engine
end WordMachine
