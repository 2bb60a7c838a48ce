import WordMachine.Double.Basic
import WordMachine.Error
import WordMachine.Json.Reader
import WordMachine.Text.Integer

/-!
Checking of data. A check gives a value or all issues found: the parts of a record are checked side
by side and their issues put together in the order of the parts.
-/
namespace WordMachine

inductive Checked (α : Type)
  | ok (value : α)
  | bad (issues : List Issue)

namespace Checked

variable {α β : Type}

instance : Applicative Checked where
  pure := .ok
  seq f x :=
    match f, x () with
    | .ok f, .ok a => .ok (f a)
    | .ok _, .bad issues => .bad issues
    | .bad issues, .ok _ => .bad issues
    | .bad first, .bad second => .bad (first ++ second)

def fail (cause : Issue.Cause) : Checked α := .bad [⟨[], cause⟩]

/-- Issues of a part are issues of the whole, one step further in. -/
def within (key : Key) : Checked α → Checked α
  | .ok a => .ok a
  | .bad issues => .bad (issues.map fun i => { i with path := key :: i.path })

/-- A check of the whole, made only when all parts are right. -/
def andThen (c : Checked α) (check : α → Checked β) : Checked β :=
  match c with
  | .ok a => check a
  | .bad issues => .bad issues

def toExcept : Checked α → Except Error α
  | .ok a => .ok a
  | .bad issues =>
    match issues.findSome? Issue.fatal? with
    | some e => .error (.word e)
    | none => .error (.invalid issues)

abbrev Fields := List (String × Json)

def required (fields : Fields) (name : String) (check : Json → Checked α) : Checked α :=
  match Json.get? fields name with
  | some v => (check v).within (.field name)
  | none => (fail .missing).within (.field name)

def orDefault (fields : Fields) (name : String) (default : α) (check : Json → Checked α) :
    Checked α :=
  match Json.get? fields name with
  | some v => (check v).within (.field name)
  | none => .ok default

def nullable (fields : Fields) (name : String) (check : Json → Checked α) : Checked (Option α) :=
  match Json.get? fields name with
  | none | some .null => .ok none
  | some v => some <$> (check v).within (.field name)

/-- A number as an integer, which must be whole and below `2 ^ 63` in size. -/
def wholeNumber (x : Double) : Checked Int :=
  match x with
  | .finite .. =>
    match x.toInt? with
    | some n => if n.natAbs < Word.card 63 then .ok n else fail .tooLarge
    | none => fail .fractional
  | _ => fail .infinite

def counter : Field Int → Checked Int
  | .known n => .ok n
  | .other (.bool b) => .ok b.toNat
  | .other (.real x) => wholeNumber x
  | _ => fail .notInteger

/-- Numbers without a fraction, truth values as 1 and 0, and texts that spell an integer. -/
def integer : Json → Checked Int
  | .int n => .ok n
  | .bool b => .ok b.toNat
  | .decimal negative m e => wholeNumber (Double.nearest negative m e)
  | .infinity _ | .nan => fail .infinite
  | .str s =>
    match Text.readInteger s with
    | .value n => .ok n
    | .tooLong => fail .tooLarge
    | .unreadable => fail .notIntegerText
  | _ => fail .notInteger

def string : Json → Checked String
  | .str s => .ok s
  | _ => fail .notString

def named [Named α] : Json → Checked α
  | .str s =>
    match Named.ofName? s with
    | some a => .ok a
    | none => fail .notNamed
  | _ => fail .notNamed

def items (check : Json → Checked α) : Nat → List Json → Checked (List α)
  | _, [] => .ok []
  | start, v :: vs =>
    List.cons <$> (check v).within (.index start) <*> items check (start + 1) vs

def array (check : Json → Checked α) : Json → Checked (List α)
  | .arr vs => items check 0 vs
  | _ => fail .notArray

/-- A record whose field `kind` says by which of several checks it is to be read. -/
def tagged (checks : String → Option (Fields → Checked α)) : Json → Checked α
  | .obj fields =>
    match Json.get? fields "kind" with
    | none => fail .tagMissing
    | some (.str tag) =>
      match checks tag with
      | some check => (check fields).within (.field tag)
      | none => fail .tagUnknown
    | some _ => fail .tagUnknown
  | _ => fail .notTagged

/-- In a text, what is not a record with a tag is told apart from what is not one in data. -/
def inText : Issue.Cause → Issue.Cause
  | .notTagged => .notTaggedText
  | cause => cause

def textWithin (limits : Json.Limits) (check : Json → Checked α) (s : String) : Checked α :=
  match Json.parse limits s with
  | some v =>
    match check v with
    | .ok a => .ok a
    | .bad issues => .bad (issues.map fun i => { i with cause := inText i.cause })
  | none => fail .notJson

def text (check : Json → Checked α) (s : String) : Checked α := textWithin .usual check s

end Checked
end WordMachine
