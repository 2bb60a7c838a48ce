import WordMachine.Json.Basic
import WordMachine.Word.Text

/-! Compact JSON text: no blanks, fields in the order given. -/
namespace WordMachine.Json

def writeInt : Int → List Char
  | .ofNat n => Nat.toDigits 10 n
  | .negSucc n => '-' :: Nat.toDigits 10 (n + 1)

/-- Only quotes, backslashes and control characters are escaped. -/
def writeChar (c : Char) : List Char :=
  if c = '"' then ['\\', '"']
  else if c = '\\' then ['\\', '\\']
  else if c = '\n' then ['\\', 'n']
  else if c = '\r' then ['\\', 'r']
  else if c = '\t' then ['\\', 't']
  else if c = '\x08' then ['\\', 'b']
  else if c = '\x0c' then ['\\', 'f']
  else if c.toNat < 0x20 then '\\' :: 'u' :: padLeft '0' 4 (Nat.toDigits 16 c.toNat)
  else [c]

def writeString (s : String) : List Char := '"' :: s.toList.flatMap writeChar ++ ['"']

mutual

def write : Json → List Char
  | .null => ['n', 'u', 'l', 'l']
  | .bool true => ['t', 'r', 'u', 'e']
  | .bool false => ['f', 'a', 'l', 's', 'e']
  | .int n => writeInt n
  | .decimal negative m e =>
    (if negative then ['-'] else []) ++ Nat.toDigits 10 m ++ 'e' :: writeInt e
  | .infinity negative => (if negative then ['-'] else []) ++ "Infinity".toList
  | .nan => ['N', 'a', 'N']
  | .str s => writeString s
  | .arr [] => ['[', ']']
  | .arr (v :: vs) => '[' :: write v ++ writeItems vs
  | .obj [] => ['\x7b', '\x7d']
  | .obj ((k, v) :: fs) => '\x7b' :: writeString k ++ ':' :: write v ++ writeFields fs

def writeItems : List Json → List Char
  | [] => [']']
  | v :: vs => ',' :: write v ++ writeItems vs

def writeFields : List (String × Json) → List Char
  | [] => ['\x7d']
  | (k, v) :: fs => ',' :: writeString k ++ ':' :: write v ++ writeFields fs

end

def compress (j : Json) : String := String.ofList j.write

end WordMachine.Json
