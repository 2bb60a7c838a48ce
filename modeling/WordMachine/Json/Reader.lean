import WordMachine.Json.Basic

/-!
Reading JSON text. The reader takes one character at a time: characters gather into tokens, and
tokens move a parser whose stack holds the arrays and objects that are still open.
-/
namespace WordMachine.Json

structure Limits where
  /-- How many open containers a value may stand inside of. -/
  depth : Nat
  /-- How many digits a number may have before its point, if not any number of them. -/
  digits : Option Nat

namespace Limits

def allowsDigits (limits : Limits) (count : Nat) : Bool :=
  limits.digits.all fun most => count ≤ most

def usualDepth : Nat := 200

def usual : Limits := ⟨usualDepth, some 4300⟩

end Limits

inductive Token
  | openArr
  | closeArr
  | openObj
  | closeObj
  | comma
  | colon
  | str (s : String)
  | atom (v : Json)

/-- An open array or object, its contents in reverse, and the key whose value is awaited. -/
inductive Frame
  | items (rev : List Json)
  | fields (rev : List (String × Json))
  | member (rev : List (String × Json)) (key : String)

inductive Goal
  | value
  | valueOrClose
  | key
  | keyOrClose
  | colon (key : String)
  | separator
  | finished (v : Json)

structure Parser where
  stack : List Frame
  goal : Goal

namespace Parser

/-- A complete value goes to the innermost open container. -/
def deliver (v : Json) : List Frame → Option Parser
  | [] => some ⟨[], .finished v⟩
  | .items rev :: stack => some ⟨.items (v :: rev) :: stack, .separator⟩
  | .member rev key :: stack => some ⟨.fields ((key, v) :: rev) :: stack, .separator⟩
  | .fields _ :: _ => none

/-- Takes the start of a value, a leaf or a container, inside of at most `limit` open
containers. -/
def begin (limit : Nat) (stack : List Frame) (t : Token) : Option Parser :=
  if limit < stack.length then none
  else match t with
    | .atom v => deliver v stack
    | .str s => deliver (.str s) stack
    | .openArr => some ⟨.items [] :: stack, .valueOrClose⟩
    | .openObj => some ⟨.fields [] :: stack, .keyOrClose⟩
    | _ => none

def accept (limit : Nat) (p : Parser) (t : Token) : Option Parser :=
  match p.goal, t, p.stack with
  | .value, t, stack => begin limit stack t
  | .valueOrClose, .closeArr, .items rev :: stack => deliver (.arr rev.reverse) stack
  | .valueOrClose, t, stack => begin limit stack t
  | .keyOrClose, .closeObj, .fields rev :: stack => deliver (.obj rev.reverse) stack
  | .keyOrClose, .str key, stack => some ⟨stack, .colon key⟩
  | .key, .str key, stack => some ⟨stack, .colon key⟩
  | .colon key, .colon, .fields rev :: stack => some ⟨.member rev key :: stack, .value⟩
  | .separator, .comma, .items rev :: stack => some ⟨.items rev :: stack, .value⟩
  | .separator, .comma, .fields rev :: stack => some ⟨.fields rev :: stack, .key⟩
  | .separator, .closeArr, .items rev :: stack => deliver (.arr rev.reverse) stack
  | .separator, .closeObj, .fields rev :: stack => deliver (.obj rev.reverse) stack
  | _, _, _ => none

end Parser

def spanDigits (cs : List Char) : Option (List Char × List Char) :=
  let ds := cs.takeWhile Char.isDigit
  if ds.isEmpty then none else some (ds, cs.dropWhile Char.isDigit)

def readExponent : List Char → Option (Option Int)
  | [] => some none
  | c :: cs =>
    if c = 'e' ∨ c = 'E' then
      let (negative, cs) := match cs with
        | '-' :: r => (true, r)
        | '+' :: r => (false, r)
        | r => (false, r)
      match spanDigits cs with
      | some (ds, []) =>
        let n : Int := Nat.ofDigitChars 10 ds 0
        some (some (if negative then -n else n))
      | _ => none
    else none

def readUnsigned (limits : Limits) (negative : Bool) (cs : List Char) : Option Json := do
  let (whole, rest) ← spanDigits cs
  if whole.head? = some '0' ∧ whole ≠ ['0'] then none
  if !limits.allowsDigits whole.length then none
  let (fraction, rest) ← match rest with
    | '.' :: r => spanDigits r
    | r => some ([], r)
  let exponent ← readExponent rest
  let n := Nat.ofDigitChars 10 (whole ++ fraction) 0
  if fraction.isEmpty ∧ exponent = none then return .int (if negative then -n else n)
  return .decimal negative n (exponent.getD 0 - fraction.length)

/-- A bare word: a literal name or a number. -/
def readWord (limits : Limits) (cs : List Char) : Option Json :=
  if cs = ['n', 'u', 'l', 'l'] then some .null
  else if cs = ['t', 'r', 'u', 'e'] then some (.bool true)
  else if cs = ['f', 'a', 'l', 's', 'e'] then some (.bool false)
  else if cs = "NaN".toList then some .nan
  else
    let (negative, cs) := match cs with
      | '-' :: r => (true, r)
      | r => (false, r)
    if cs = "Infinity".toList then some (.infinity negative) else readUnsigned limits negative cs

/-- The part of a token that has been read, characters in reverse. -/
inductive Pending
  | none
  | word (rev : List Char)
  | text (rev : List Char)
  | escape (rev : List Char)
  /-- `left` more hexadecimal digits of a code, after a first surrogate if there was one. -/
  | code (rev : List Char) (high : Option Nat) (left : Nat) (value : Nat)
  | lowEscape (rev : List Char) (high : Nat)
  | lowCode (rev : List Char) (high : Nat)

structure Reader where
  parser : Parser
  pending : Pending

namespace Reader

def start : Reader := ⟨⟨[], .value⟩, .none⟩

def hexValue (c : Char) : Option Nat :=
  if '0' ≤ c ∧ c ≤ '9' then some (c.toNat - '0'.toNat)
  else if 'a' ≤ c ∧ c ≤ 'f' then some (c.toNat - 'a'.toNat + 10)
  else if 'A' ≤ c ∧ c ≤ 'F' then some (c.toNat - 'A'.toNat + 10)
  else none

/-- A character outside of strings and words. -/
def between (limits : Limits) (p : Parser) (c : Char) : Option Reader :=
  let token (t : Token) : Option Reader := (p.accept limits.depth t).map fun q => ⟨q, .none⟩
  if c = ' ' ∨ c = '\n' ∨ c = '\t' ∨ c = '\r' then some ⟨p, .none⟩
  else if c = '[' then token .openArr
  else if c = ']' then token .closeArr
  else if c = '\x7b' then token .openObj
  else if c = '\x7d' then token .closeObj
  else if c = ',' then token .comma
  else if c = ':' then token .colon
  else if c = '"' then some ⟨p, .text []⟩
  else some ⟨p, .word [c]⟩

def endsWord (c : Char) : Bool := " \n\t\r[]\x7b\x7d,:\"".toList.contains c

def escaped : Char → Option Char
  | '"' => some '"'
  | '\\' => some '\\'
  | '/' => some '/'
  | 'b' => some '\x08'
  | 'f' => some '\x0c'
  | 'n' => some '\n'
  | 'r' => some '\r'
  | 't' => some '\t'
  | _ => none

/-- A code of four digits is complete. A first surrogate needs a second one after it. -/
def complete (rev : List Char) (high : Option Nat) (code : Nat) : Option Pending :=
  match high with
  | some h =>
    if 0xDC00 ≤ code ∧ code < 0xE000 then
      some (.text (Char.ofNat (0x10000 + (h - 0xD800) * 0x400 + (code - 0xDC00)) :: rev))
    else none
  | none =>
    if 0xD800 ≤ code ∧ code < 0xDC00 then some (.lowEscape rev code)
    else if 0xDC00 ≤ code ∧ code < 0xE000 then none
    else some (.text (Char.ofNat code :: rev))

def step (limits : Limits) (r : Reader) (c : Char) : Option Reader :=
  match r.pending with
  | .none => between limits r.parser c
  | .word rev =>
    if endsWord c then do
      let v ← readWord limits rev.reverse
      let p ← r.parser.accept limits.depth (.atom v)
      between limits p c
    else some ⟨r.parser, .word (c :: rev)⟩
  | .text rev =>
    if c = '"' then
      (r.parser.accept limits.depth (.str (String.ofList rev.reverse))).map fun p => ⟨p, .none⟩
    else if c = '\\' then some ⟨r.parser, .escape rev⟩
    else if c.toNat < 0x20 then none
    else some ⟨r.parser, .text (c :: rev)⟩
  | .escape rev =>
    if c = 'u' then some ⟨r.parser, .code rev none 4 0⟩
    else (escaped c).map fun d => ⟨r.parser, .text (d :: rev)⟩
  | .code rev high left value => do
    let d ← hexValue c
    let value := 16 * value + d
    if left ≤ 1 then (complete rev high value).map fun q => ⟨r.parser, q⟩
    else some ⟨r.parser, .code rev high (left - 1) value⟩
  | .lowEscape rev high => if c = '\\' then some ⟨r.parser, .lowCode rev high⟩ else none
  | .lowCode rev high => if c = 'u' then some ⟨r.parser, .code rev (some high) 4 0⟩ else none

def finish (limits : Limits) (r : Reader) : Option Json := do
  let p ← match r.pending with
    | .none => some r.parser
    | .word rev => do
      let v ← readWord limits rev.reverse
      r.parser.accept limits.depth (.atom v)
    | _ => none
  match p.goal with
  | .finished v => some v
  | _ => none

end Reader

def parse (limits : Limits) (text : String) : Option Json := do
  let r ← text.toList.foldlM (Reader.step limits) Reader.start
  r.finish limits

end WordMachine.Json
