import WordMachine.Dynamics

/-! The triple store: subject, relation and object, found again by their words or by basins. -/
namespace WordMachine

/-- Three words, each of which may be missing. In a pattern a missing word stands for any. -/
structure Triple where
  subject : Option Word
  relation : Option Word
  object : Option Word
deriving DecidableEq

namespace Triple

def components (t : Triple) : List (Option Word) := [t.subject, t.relation, t.object]

def agrees (asked there : Option Word) : Bool := asked.isNone || asked = there

def isMatch (pattern t : Triple) : Bool :=
  agrees pattern.subject t.subject && agrees pattern.relation t.relation
    && agrees pattern.object t.object

/-- An order of components by width and then by value, missing ones first. -/
def compareComponent : Option Word → Option Word → Ordering
  | none, none => .eq
  | none, some _ => .lt
  | some _, none => .gt
  | some x, some y => (compare x.width y.width).then (compare x.value y.value)

def compare (a b : Triple) : Ordering :=
  ((compareComponent a.subject b.subject).then (compareComponent a.relation b.relation)).then
    (compareComponent a.object b.object)

def clashComponent : Option Word → Option Word → Option Error
  | some x, some y => if x.width = y.width then none else some (.word (.mismatch x.width y.width))
  | none, none => none
  | _, _ => some .incomparable

/-- Why two triples have no order: it is decided by the first components that differ. -/
def clash (a b : Triple) : Option Error :=
  if a.subject ≠ b.subject then clashComponent a.subject b.subject
  else if a.relation ≠ b.relation then clashComponent a.relation b.relation
  else clashComponent a.object b.object

def firstClash : List Triple → Option Error
  | a :: b :: rest => (clash a b).or (firstClash (b :: rest))
  | _ => none

/-- Triples in lexicographic order. Two that have no order come to stand next to each other. -/
def sort (ts : List Triple) : Except Error (List Triple) :=
  let ordered := ts.mergeSort fun a b => (compare a b).isLE
  match firstClash ordered with
  | some e => .error e
  | none => .ok ordered

/-- Whether components lie in the basins asked for; a basin is looked for only while all agree. -/
def inBasins (d : Dynamics) : List (Option Word × Option Word) → Except Error (Bool × Dynamics)
  | [] => .ok (true, d)
  | (none, _) :: rest => inBasins d rest
  | (some basin, none) :: rest => do
    let (found, d) ← d.missingBasin
    if found = some basin then inBasins d rest else return (false, d)
  | (some basin, some x) :: rest => do
    let (found, d) ← d.basinId x
    if found = basin then inBasins d rest else return (false, d)

def selectByBasin (d : Dynamics) (pattern : Triple) :
    List Triple → Except Error (List Triple × Dynamics)
  | [] => .ok ([], d)
  | t :: rest => do
    let (hit, d) ← inBasins d (pattern.components.zip t.components)
    let (found, d) ← selectByBasin d pattern rest
    return (if hit then t :: found else found, d)

end Triple

/-- Each triple once, in the order of insertion, and a dynamics for basin queries that bring
none. -/
structure TripleStore where
  triples : List Triple
  dynamics : Option Dynamics

namespace TripleStore

def empty (dynamics : Option Dynamics) : TripleStore := ⟨[], dynamics⟩

def insert (s : TripleStore) (t : Triple) : TripleStore :=
  if t ∈ s.triples then s else { s with triples := s.triples ++ [t] }

def contains (s : TripleStore) (t : Triple) : Bool := decide (t ∈ s.triples)

def size (s : TripleStore) : Nat := s.triples.length

def queryExact (s : TripleStore) (pattern : Triple) : List Triple :=
  s.triples.filter pattern.isMatch

/-- A basin query by the dynamics of the caller. -/
def queryWith (s : TripleStore) (d : Dynamics) (pattern : Triple) :
    Except Error (List Triple × Dynamics) := Triple.selectByBasin d pattern s.triples

/-- A basin query by the dynamics of the store. -/
def queryByBasin (s : TripleStore) (pattern : Triple) : Except Error (List Triple × TripleStore) :=
  match s.dynamics with
  | none => .error (.store .noDynamics)
  | some d => do
    let (found, d) ← s.queryWith d pattern
    return (found, { s with dynamics := some d })

end TripleStore

/-- What a machine can use for triples: the store, or a stand-in with fixed answers. -/
inductive TripleService
  | store (s : TripleStore)
  | fixed (onInsert : Option StoreError) (onQuery : Answer (List Triple))

namespace TripleService

def insert : TripleService → Triple → Except Error TripleService
  | .store s, t => .ok (.store (s.insert t))
  | .fixed (some e) _, _ => .error (.store e)
  | .fixed none onQuery, _ => .ok (.fixed none onQuery)

def queryExact : TripleService → Triple → Except Error (List Triple)
  | .store s, pattern => .ok (s.queryExact pattern)
  | .fixed _ onQuery, _ => onQuery.result

def queryWith : TripleService → Dynamics → Triple → Except Error (List Triple × Dynamics)
  | .store s, d, pattern => s.queryWith d pattern
  | .fixed _ onQuery, d, _ => do
    let ts ← onQuery.result
    return (ts, d)

/-- A basin query without a dynamics of the caller. -/
def queryByBasin : TripleService → Triple → Except Error (List Triple × TripleService)
  | .store s, pattern => do
    let (found, s) ← s.queryByBasin pattern
    return (found, .store s)
  | .fixed onInsert onQuery, _ => do
    let ts ← onQuery.result
    return (ts, .fixed onInsert onQuery)

end TripleService
end WordMachine
