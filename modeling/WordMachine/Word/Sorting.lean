import WordMachine.Word.Order

/-!
Sorting words. The words are cut into runs, which are then merged. Words of different widths have
no order: the first two that are compared are refused. A word is compared with the words of its own
run before two runs are compared by their first words.
-/
namespace WordMachine.Word

/-- The least length of a run: all of a short list, and half of a half and so on of a long one. -/
def minRun (n carry : Nat) : Nat :=
  if n < 64 then n + carry else minRun (n / 2) (carry ||| n % 2)
termination_by n
decreasing_by omega

/-- How many words go on as the run has begun: each smaller than the one before it, or none. -/
def countOn (descending : Bool) (x : Word) : List Word → Except Error Nat
  | [] => .ok 0
  | y :: ys => do
    let smaller ← y.lt x
    if smaller = descending then
      let n ← countOn descending y ys
      return n + 1
    else return 0

def naturalRun : List Word → Except Error Nat
  | x :: y :: ys => do
    let descending ← y.lt x
    let n ← countOn descending y ys
    return n + 2
  | xs => .ok xs.length

/-- A run that has been found. The power says how late it is to be merged with the next one. -/
structure Run where
  start : Nat
  length : Nat
  width : Nat
  power : Nat

namespace Run

def merge (a b : Run) : Except Error Run :=
  if a.width = b.width then .ok { a with length := a.length + b.length }
  else .error (.mismatch b.width a.width)

/-- The first binary digit in which two fractions below one differ, `a / n` and the larger `b /
n`. -/
def splitDigit (n : Nat) : Nat → Nat → Nat → Nat
  | 0, _, _ => 0
  | fuel + 1, a, b =>
    if n ≤ a then 1 + splitDigit n fuel (2 * (a - n)) (2 * (b - n))
    else if n ≤ b then 1
    else 1 + splitDigit n fuel (2 * a) (2 * b)

/-- How late a run is to be merged with one of `next` words after it, in a list of `total`. -/
def powerWith (r : Run) (next total : Nat) : Nat :=
  let a := 2 * r.start + r.length
  splitDigit total (2 * total.log2 + 4) a (a + r.length + next)

/-- Merges runs at the end that are to be merged before the power is reached. -/
def collapse (power : Nat) : List Run → Except Error (List Run)
  | b :: a :: rest =>
    if power < a.power then do
      let ab ← merge a b
      collapse power (ab :: rest)
    else .ok (b :: a :: rest)
  | runs => .ok runs
termination_by runs => runs.length

/-- Adds a run to those found before, the last one first. -/
def push (total : Nat) (runs : List Run) (r : Run) : Except Error (List Run) :=
  match runs with
  | [] => .ok [r]
  | last :: _ => do
    let power := last.powerWith r.length total
    match ← collapse power runs with
    | [] => return [r]
    | last :: rest => return r :: { last with power } :: rest

/-- Merges all runs, the last one first and a short one before it sooner. -/
def mergeAll : List Run → Except Error Unit
  | c :: b :: a :: rest =>
    if a.length < c.length then do
      let ab ← merge a b
      mergeAll (c :: ab :: rest)
    else do
      let bc ← merge b c
      mergeAll (bc :: a :: rest)
  | [b, a] => do
    let _ ← merge a b
    return ()
  | _ => .ok ()
termination_by runs => runs.length

end Run

/-- Finds the runs of a list, of at least `least` words each, from `start` on. -/
def findRuns (least total start : Nat) (runs : List Run) : List Word → Except Error (List Run)
  | [] => .ok runs
  | x :: xs => do
    let natural ← naturalRun (x :: xs)
    let length := max natural (min least (xs.length + 1))
    match (xs.take (length - 1)).find? (fun y => y.width != x.width) with
    | some y => .error (.mismatch y.width x.width)
    | none =>
      let runs ← Run.push total runs ⟨start, length, x.width, 0⟩
      findRuns least total (start + length) runs (xs.drop (length - 1))
termination_by xs => xs.length
decreasing_by simp only [List.length_drop, List.length_cons]; omega

def sorted (xs : List Word) : Except Error (List Word) := do
  let runs ← findRuns (minRun xs.length 0) xs.length 0 [] xs
  Run.mergeAll runs
  return xs.mergeSort fun a b => decide (a.value ≤ b.value)

end WordMachine.Word
