import WordMachine.Error
import WordMachine.Word.Order

/-!
Rules: transformations of words that can be followed step by step. A rule states how wide its
results can get, so that the words it reaches from a given start are finitely many. Faults are the
machine's to raise: a rule that fails does so in another way.
-/
namespace WordMachine

structure Rule where
  apply : Word → Except Error Word
  /-- What becomes of a missing word: it stays missing, or turns into a word. -/
  missing : Except Error (Option Word)
  /-- No result is wider than its argument or than this. -/
  reach : Nat
  width_le : ∀ {x y : Word}, apply x = .ok y → y.width ≤ max x.width reach
  apply_ne_fault : ∀ {x : Word} {f : Fault}, apply x ≠ .error (.fault f)
  missing_ne_fault : ∀ {f : Fault}, missing ≠ .error (.fault f)

namespace Rule

def ofFunction (f : Word → Word) (h : ∀ x, (f x).width = x.width)
    (missing : Except Error (Option Word))
    (hm : ∀ f : Fault, missing ≠ .error (.fault f) := by simp) : Rule where
  apply x := .ok (f x)
  missing
  reach := 0
  width_le := by
    intro x y hy
    cases hy
    rw [h]
    exact Nat.le_max_left _ _
  apply_ne_fault := by simp
  missing_ne_fault := hm _

def identity : Rule := ofFunction id (fun _ => rfl) (.ok none)

def complement : Rule := ofFunction Word.not (fun _ => rfl) (.error .mistyped)

def rotl1 : Rule :=
  ofFunction (·.rotateLeft 1) (fun x => x.width_rotateLeft 1) (.error (.noWord .null .rotateLeft))

def rotr1 : Rule :=
  ofFunction (·.rotateRight 1) (fun x => x.width_rotateRight 1)
    (.error (.noWord .null .rotateRight))

/-- One more, starting again from zero after the largest word. -/
def increment : Rule :=
  ofFunction (fun x => x.wrap (x.value + 1)) (fun _ => rfl) (.error (.noWord .null .value))

/-- A word combined with a shifted copy of itself. -/
def stir (shift : Word → Word) (x : Word) : Word := x.wrap (x.value ^^^ (shift x).value)

def xorshift : Rule :=
  ofFunction (fun x => stir (·.shiftLeft 1) (stir (·.shiftRight 5) (stir (·.shiftLeft 3) x)))
    (fun _ => rfl) (.error (.noWord .null .shl))

/-- Even words are halved; an odd `x` becomes `3x + 1`, cut to its width. -/
def collatz : Rule :=
  ofFunction (fun x => if x.value % 2 = 0 then x.shiftRight 1 else x.wrap (3 * x.value + 1)) (by
    intro x
    split <;> simp) (.error (.noWord .null .value))

/-- The rules that every rule set starts with. -/
def builtin : List (String × Rule) :=
  [("identity", identity), ("complement", complement), ("rotl1", rotl1), ("rotr1", rotr1),
    ("increment", increment), ("xorshift", xorshift), ("collatz", collatz)]

end Rule

/-- Rules by name, in the order of their registration. -/
structure RuleSet where
  entries : List (String × Rule)

namespace RuleSet

def names (s : RuleSet) : List String := s.entries.map Prod.fst

def contains (s : RuleSet) (name : String) : Bool := s.names.contains name

def register (s : RuleSet) (name : String) (r : Rule) : Except Error RuleSet :=
  if s.contains name then .error (.ruleTaken name) else .ok ⟨s.entries ++ [(name, r)]⟩

def get (s : RuleSet) (name : String) : Except Error Rule :=
  match s.entries.lookup name with
  | some r => .ok r
  | none => .error (.unknownRule name (s.names.mergeSort fun a b => decide (a ≤ b)))

def builtin : RuleSet := ⟨Rule.builtin⟩

/-- The builtin rules, if wanted, and then the given ones. -/
def make (builtins : Bool) (rules : List (String × Rule)) : Except Error RuleSet :=
  rules.foldlM (fun s r => s.register r.1 r.2) (if builtins then builtin else ⟨[]⟩)

end RuleSet

/-- An elementary step of a composed rule. -/
inductive Stage
  /-- The builtin rule of a name. -/
  | rule (name : String)
  | shl (k : Int)
  | shr (k : Int)
  | sar (k : Int)
  | rotl (k : Int)
  | not
  | and (y : Word)
  | or (y : Word)
  | xor (y : Word)
  | const (y : Word)
  | fail (e : Error) (h : e.isFault = false)

namespace Stage

def apply : Stage → Word → Except Error Word
  | .rule name, x =>
    match RuleSet.builtin.get name with
    | .ok r => r.apply x
    | .error e => .error e
  | .shl k, x => x.shl k
  | .shr k, x => x.shr k
  | .sar k, x => x.sar k
  | .rotl k, x => .ok (x.rotateLeft k)
  | .not, x => .ok x.not
  | .and y, x => x.and y
  | .or y, x => x.or y
  | .xor y, x => x.xor y
  | .const y, _ => .ok y
  | .fail e _, _ => .error e

/-- What a stage makes of a missing word. -/
def missing : Stage → Except Error (Option Word)
  | .rule name =>
    match RuleSet.builtin.get name with
    | .ok r => r.missing
    | .error e => .error e
  | .const y => .ok (some y)
  | .fail e _ => .error e
  | .not | .and _ | .or _ | .xor _ => .error .mistyped
  | .shl _ => .error (.noWord .null .shl)
  | .shr _ => .error (.noWord .null .shr)
  | .sar _ => .error (.noWord .null .sar)
  | .rotl _ => .error (.noWord .null .rotateLeft)

def reach : Stage → Nat
  | .rule name =>
    match RuleSet.builtin.get name with
    | .ok r => r.reach
    | .error _ => 0
  | .const y => y.width
  | _ => 0

theorem lift_eq_ok {a : Except Word.Error Word} {y : Word}
    (h : (a : Except Error Word) = .ok y) : a = .ok y := by
  cases a with
  | error e => cases h
  | ok z => cases h; rfl

theorem width_shiftBy {f : Word → Nat → Word} (hf : ∀ x k, (f x k).width = x.width) {x y : Word}
    {k : Int} (h : Word.shiftBy f x k = .ok y) : y.width = x.width := by
  unfold Word.shiftBy at h
  split at h
  · cases h
  · cases h; exact hf _ _

theorem width_bitwise {f : Nat → Nat → Nat} {x y z : Word}
    (h : (do Word.sameWidth x z; return x.wrap (f x.value z.value)) = Except.ok y) :
    y.width = x.width := by
  unfold Word.sameWidth at h
  split at h <;> cases h
  rfl

theorem width_le {s : Stage} {x y : Word} (h : s.apply x = .ok y) :
    y.width ≤ max x.width s.reach := by
  have keep {a : Nat} (ha : a = x.width) (b : Nat) : a ≤ max x.width b :=
    ha ▸ Nat.le_max_left _ _
  cases s with
  | rule name =>
    simp only [apply] at h
    simp only [reach]
    cases hr : RuleSet.builtin.get name with
    | ok r => rw [hr] at h; exact r.width_le h
    | error e => rw [hr] at h; cases h
  | shl k => exact keep (width_shiftBy Word.width_shiftLeft (lift_eq_ok h)) _
  | shr k => exact keep (width_shiftBy Word.width_shiftRight (lift_eq_ok h)) _
  | sar k => exact keep (width_shiftBy Word.width_shiftRightArith (lift_eq_ok h)) _
  | rotl k => cases h; exact keep (x.width_rotateLeft k) _
  | not => cases h; exact keep x.width_not _
  | and z => exact keep (width_bitwise (lift_eq_ok h)) _
  | or z => exact keep (width_bitwise (lift_eq_ok h)) _
  | xor z => exact keep (width_bitwise (lift_eq_ok h)) _
  | const z => cases h; exact Nat.le_max_right _ _
  | fail e he => cases h

theorem lift_ne_fault {α : Type} {a : Except Word.Error α} {f : Fault} :
    (a : Except Error α) ≠ .error (.fault f) := by
  cases a with
  | error e => nofun
  | ok y => nofun

theorem apply_ne_fault {s : Stage} {x : Word} {f : Fault} : s.apply x ≠ .error (.fault f) := by
  cases s with
  | rule name =>
    simp only [apply, RuleSet.get]
    cases RuleSet.builtin.entries.lookup name with
    | some r => exact r.apply_ne_fault
    | none => nofun
  | shl k => exact lift_ne_fault
  | shr k => exact lift_ne_fault
  | sar k => exact lift_ne_fault
  | and y => exact lift_ne_fault
  | or y => exact lift_ne_fault
  | xor y => exact lift_ne_fault
  | rotl k => nofun
  | not => nofun
  | const y => nofun
  | fail e he =>
    intro h
    cases h
    cases he

theorem missing_ne_fault {s : Stage} {f : Fault} : s.missing ≠ .error (.fault f) := by
  cases s with
  | rule name =>
    simp only [missing, RuleSet.get]
    cases RuleSet.builtin.entries.lookup name with
    | some r => exact r.missing_ne_fault
    | none => nofun
  | fail e he =>
    intro h
    cases h
    cases he
  | _ => nofun

def applyAll : List Stage → Word → Except Error Word
  | [], x => .ok x
  | s :: rest, x =>
    match s.apply x with
    | .ok y => applyAll rest y
    | .error e => .error e

def missingAll : List Stage → Except Error (Option Word)
  | [] => .ok none
  | s :: rest =>
    match s.missing with
    | .ok none => missingAll rest
    | .ok (some y) => some <$> applyAll rest y
    | .error e => .error e

def reachAll : List Stage → Nat
  | [] => 0
  | s :: rest => max s.reach (reachAll rest)

theorem width_applyAll_le {stages : List Stage} {x y : Word} (h : applyAll stages x = .ok y) :
    y.width ≤ max x.width (reachAll stages) := by
  induction stages generalizing x with
  | nil => cases h; exact Nat.le_max_left _ _
  | cons s rest ih =>
    unfold applyAll at h
    split at h
    · next z hz =>
      have h₁ := width_le hz
      have h₂ := ih h
      simp only [reachAll]
      omega
    · cases h

theorem applyAll_ne_fault {stages : List Stage} {x : Word} {f : Fault} :
    applyAll stages x ≠ .error (.fault f) := by
  induction stages generalizing x with
  | nil => nofun
  | cons s rest ih =>
    unfold applyAll
    split
    · exact ih
    · next e he =>
      intro h
      cases h
      exact apply_ne_fault he

theorem missingAll_ne_fault {stages : List Stage} {f : Fault} :
    missingAll stages ≠ .error (.fault f) := by
  induction stages with
  | nil => nofun
  | cons s rest ih =>
    unfold missingAll
    split
    · exact ih
    · next y _ =>
      cases hy : applyAll rest y with
      | ok z => nofun
      | error e =>
        intro h
        cases h
        exact applyAll_ne_fault hy
    · next e he =>
      intro h
      cases h
      exact missing_ne_fault he

end Stage

def Rule.ofStages (stages : List Stage) : Rule :=
  ⟨Stage.applyAll stages, Stage.missingAll stages, Stage.reachAll stages, Stage.width_applyAll_le,
    Stage.applyAll_ne_fault, Stage.missingAll_ne_fault⟩

end WordMachine
