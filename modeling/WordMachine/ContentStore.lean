import Std.Data.HashMap
import WordMachine.Error
import WordMachine.Word.Order

/-!
The content store keeps sequences of words under their digests. A digest that already holds another
sequence is never overwritten.
-/
namespace WordMachine

/-- Mixes one word into a digest: turn by five, combine, add an odd constant. -/
def mix (h c : Word) : Except Word.Error Word := do
  let turned ← (h.rotateLeft 5).xor c
  return turned.wrap (turned.value + (0x9E5 % Word.card h.width ||| 1))

/-- The digest of a sequence starts from its length and depends on the order of the words. -/
def digest (chars : List Word) (width : Int) : Except Word.Error Word :=
  if width < 0 then .error .negativeShift
  else do
    let seed ← Word.ofInt (chars.length % Word.card width.toNat : Nat) width
    chars.foldlM mix seed

structure ContentStore where
  width : Int
  entries : Std.HashMap Word (List Word)

namespace ContentStore

def empty (width : Int) : ContentStore := ⟨width, ∅⟩

def enfold (s : ContentStore) (chars : List Word) : Except Error (Word × ContentStore) :=
  match chars.find? (fun c => (c.width : Int) != s.width) with
  | some c => .error (.store (.character c s.width))
  | none => do
    let key ← digest chars s.width
    match s.entries[key]? with
    | some held =>
      if held = chars then return (key, s) else throw (.store (.collision key held.length))
    | none => return (key, { s with entries := s.entries.insert key chars })

def unfold (s : ContentStore) (key : Word) : Except Error (List Word) :=
  match s.entries[key]? with
  | some chars => .ok chars
  | none => .error (.store (.notFound key))

def contains (s : ContentStore) (key : Word) : Bool := s.entries.contains key

def size (s : ContentStore) : Nat := s.entries.size

end ContentStore

/-- What a machine can use for content: the store, or a stand-in with fixed answers. -/
inductive ContentService
  | store (s : ContentStore)
  | fixed (width : Int) (onEnfold : Answer Word) (onUnfold : Answer (List Word))

namespace ContentService

def width : ContentService → Int
  | .store s => s.width
  | .fixed w _ _ => w

def enfold : ContentService → List Word → Except Error (Word × ContentService)
  | .store s, chars => do
    let (key, s) ← s.enfold chars
    return (key, .store s)
  | .fixed w onEnfold onUnfold, _ => do
    let key ← onEnfold.result
    return (key, .fixed w onEnfold onUnfold)

def unfold : ContentService → Word → Except Error (List Word)
  | .store s, key => s.unfold key
  | .fixed _ _ onUnfold, _ => onUnfold.result

end ContentService
end WordMachine
