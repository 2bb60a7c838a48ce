import WordMachine.Text.Printable
import WordMachine.Word.Text

/-!
Quoted text. The quote is `'`, or `"` for a text that holds the first and not the second. A
backslash stands before the quote and the backslash itself; what cannot be printed is written by
its code.
-/
namespace WordMachine.Text

/-- A backslash, a letter and the code of `c` in at least `size` hexadecimal digits. -/
def codeEscape (letter : Char) (size : Nat) (c : Char) : List Char :=
  '\\' :: letter :: padLeft '0' size (Nat.toDigits 16 c.toNat)

def quoteChar (quote c : Char) : List Char :=
  if c = quote || c = '\\' then ['\\', c]
  else if c = '\n' then ['\\', 'n']
  else if c = '\r' then ['\\', 'r']
  else if c = '\t' then ['\\', 't']
  else if isPrintable c then [c]
  else if c.toNat < 0x100 then codeEscape 'x' 2 c
  else if c.toNat < 0x10000 then codeEscape 'u' 4 c
  else codeEscape 'U' 8 c

def quoteFor (cs : List Char) : Char := if '\x27' ∈ cs ∧ '"' ∉ cs then '"' else '\x27'

def quoted (s : String) : String :=
  let cs := s.toList
  let q := quoteFor cs
  String.ofList (q :: cs.flatMap (quoteChar q) ++ [q])

def quotedList (names : List String) : String := "[" ++ ", ".intercalate (names.map quoted) ++ "]"

end WordMachine.Text
