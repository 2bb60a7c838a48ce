import WordMachine.Trajectory

/-!
Dynamics: a set of rules, one of which divides the words into basins. Basins once found are kept,
for every word on the trajectory.
-/
namespace WordMachine

structure Dynamics where
  rules : RuleSet
  basinRule : String
  rule : Rule
  cache : Std.HashMap Word Word

namespace Dynamics

def defaultBasinRule : String := "collatz"

def make (rules : RuleSet) (basinRule : String) : Except Error Dynamics := do
  let rule ← rules.get basinRule
  return ⟨rules, basinRule, rule, ∅⟩

def applyRule (d : Dynamics) (name : String) (x : Word) : Except Error Word := do
  let r ← d.rules.get name
  r.apply x

def register (d : Dynamics) (name : String) (r : Rule) : Except Error Dynamics := do
  let rules ← d.rules.register name r
  return { d with rules }

def trajectory (d : Dynamics) (x : Word) : Except Error Trajectory := d.rule.trace x

/-- Keeps one basin for all the given words. -/
def remember (d : Dynamics) (basin : Word) (words : List Word) : Dynamics :=
  { d with cache := words.foldl (fun cache x => cache.insert x basin) d.cache }

def basinId (d : Dynamics) (x : Word) : Except Error (Word × Dynamics) :=
  match d.cache[x]? with
  | some basin => .ok (basin, d)
  | none => do
    let t ← d.trajectory x
    let basin ← t.basin
    return (basin, d.remember basin t.words)

/-- The basin of a missing word, which may be missing too. -/
def missingBasin (d : Dynamics) : Except Error (Option Word × Dynamics) := do
  match ← d.rule.missing with
  | none => return (none, d)
  | some y =>
    let (basin, d) ← d.basinId y
    return (some basin, d)

/-- Words grouped by basin, the basins in the order of their first appearance. -/
structure Groups where
  order : Array Word
  members : Std.HashMap Word (Array Word)

namespace Groups

def add (g : Groups) (basin x : Word) : Groups :=
  if g.members.contains basin then
    { g with members := g.members.modify basin (·.push x) }
  else ⟨g.order.push basin, g.members.insert basin #[x]⟩

def toList (g : Groups) : List (Word × List Word) :=
  g.order.toList.map fun b => (b, (g.members.getD b #[]).toList)

end Groups

def basins (d : Dynamics) (width : Int) : Except Error (List (Word × List Word) × Dynamics) := do
  if width < 0 then throw (.word .negativeShift)
  let (groups, d) ← (List.range (Word.card width.toNat)).foldlM (fun (g, d) v => do
    let x ← Word.ofInt v width
    let (basin, d) ← basinId d x
    return (Groups.add g basin x, d)) ((⟨#[], ∅⟩ : Groups), d)
  return (groups.toList, d)

end Dynamics
end WordMachine
