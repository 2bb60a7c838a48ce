import Std.Data.HashMap
import WordMachine.Rule

/-!
Trajectories. Following a rule from any word ends in a cycle, since only finitely many words are
within its reach. The smallest word on the cycle names the basin.
-/
namespace WordMachine

def Word.upTo (bound : Nat) : List Word :=
  (List.range (bound + 1)).flatMap fun w =>
    (List.range (card w)).filterMap fun v =>
      if h : 0 < w ∧ v < card w then some ⟨w, v, h.1, h.2⟩ else none

theorem Word.mem_upTo {bound : Nat} {x : Word} (h : x.width ≤ bound) : x ∈ Word.upTo bound := by
  simp only [Word.upTo, List.mem_flatMap, List.mem_range, List.mem_filterMap]
  exact ⟨x.width, by omega, x.value, x.value_lt, by simp [x.width_pos, x.value_lt]⟩

/-- The words before the cycle, the first word on the cycle, and the others on it. -/
structure Trajectory where
  transient : List Word
  entry : Word
  rest : List Word
deriving DecidableEq

namespace Trajectory

def cycle (t : Trajectory) : List Word := t.entry :: t.rest

def length (t : Trajectory) : Nat := t.transient.length + t.cycle.length

def words (t : Trajectory) : List Word := t.transient ++ t.cycle

/-- The smallest word on the cycle. -/
def basin (t : Trajectory) : Except Word.Error Word := Word.least t.entry t.rest

/-- How many words within the bound have not been visited. -/
def unseen (bound : Nat) (seen : Std.HashMap Word Nat) : Nat :=
  ((Word.upTo bound).filter fun x => !seen.contains x).length

theorem unseen_insert_lt {bound : Nat} {seen : Std.HashMap Word Nat} {x : Word} {n : Nat}
    (hx : x.width ≤ bound) (hs : seen[x]? = none) :
    unseen bound (seen.insert x n) < unseen bound seen := by
  have hc : seen.contains x = false := by
    rw [Std.HashMap.contains_eq_isSome_getElem?, hs]; rfl
  have h : (Word.upTo bound).filter (fun y => !(seen.insert x n).contains y)
      = ((Word.upTo bound).filter fun y => !seen.contains y).filter fun y => !(x == y) := by
    rw [List.filter_filter]
    congr 1
    funext y
    rw [Std.HashMap.contains_insert]
    cases x == y <;> simp
  rw [unseen, unseen, h]
  exact List.length_filter_lt_length_iff_exists.mpr
    ⟨x, by simp [Word.mem_upTo hx, hc], by simp⟩

end Trajectory

namespace Rule

/-- Follows a rule from `x`, given the words visited before and where on the path each stands. -/
def follow (r : Rule) (bound : Nat) (hr : r.reach ≤ bound) (x : Word) (hx : x.width ≤ bound)
    (seen : Std.HashMap Word Nat) (path : Array Word) : Except Error Trajectory :=
  match hs : seen[x]? with
  | some i => .ok ⟨path.toList.take i, x, path.toList.drop (i + 1)⟩
  | none =>
    match hy : r.apply x with
    | .error e => .error e
    | .ok y =>
      have hle : y.width ≤ bound := by
        have := r.width_le hy
        omega
      follow r bound hr y hle (seen.insert x path.size) (path.push x)
termination_by Trajectory.unseen bound seen
decreasing_by exact Trajectory.unseen_insert_lt hx hs

def trace (r : Rule) (start : Word) : Except Error Trajectory :=
  r.follow (max start.width r.reach) (by omega) start (by omega) ∅ #[]

end Rule
end WordMachine
